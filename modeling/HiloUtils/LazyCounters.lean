import HiloUtils.CounterIndex

/-! A `LazyCounter` resolves its name when it is used and keeps the address of
the slot until the instance number of the segment changes. Every opening of a
segment by the process gets the next number; an address is a slot of one such
opening, and dangles once that is closed. -/

namespace HiloUtils.LazyCounters

open Word CString Dictionary DictionaryMap CounterIndex

inductive CounterType
  | value
  | incremental
  deriving DecidableEq

structure CountersData where
  dict : Names
  counters : Int → Int

/-- An opening of a file by the process. -/
structure Mapping (F : Type*) where
  file : F
  number : Nat

variable {F : Type*}

def Mapping.getInstance (m : Mapping F) : Int := i32 m.number

/-- `ptr` is the opening and the slot it leads to, `none` for `&def_value`. -/
structure LazyCounter where
  ptr : Option (Nat × Int)
  type : CounterType
  name : CName
  instanceId : Int

namespace LazyCounter

def setName (c : LazyCounter) (name : CName) (type : CounterType) : LazyCounter :=
  { c with ptr := none, type := type, name := name }

def reset (c : LazyCounter) : LazyCounter := { c with ptr := none }

def Stale (c : LazyCounter) (m : Mapping F) : Prop :=
  c.ptr = none ∨ m.getInstance ≠ c.instanceId

instance (c : LazyCounter) (m : Mapping F) : Decidable (c.Stale m) :=
  inferInstanceAs (Decidable (_ ∨ _))

/-- The end of `Init`: an index is kept, a failure changes nothing. -/
def resolve (c : LazyCounter) (m : Mapping F) (index : Int) : LazyCounter :=
  if index ≠ invalidIndex then { c with ptr := some (m.number, index), instanceId := m.getInstance }
  else c

end LazyCounter

inductive Use
  | set (value : Int)
  | get
  | increment
  | decrement
  | add (v : Int)
  | sub (v : Int)

def Use.apply : Use → Int → Int
  | .set value, _ => value
  | .get, v => v
  | .increment, v => i64 (v + 1)
  | .decrement, v => i64 (v - 1)
  | .add x, v => i64 (v + x)
  | .sub x, v => i64 (v - x)

/-- Where the process is: outside the counter, between the two critical
sections of `GetCounterIndex`, or behind `Init`. -/
inductive Pc
  | idle
  | missed (use : Use)
  | access (use : Use)

structure World (F : Type*) where
  files : F → CountersData
  opened : CounterType → Option (Mapping F)
  prevInstance : Nat
  defValue : Int
  counter : LazyCounter
  pc : Pc

inductive Move (F : Type*)
  | use (u : Use) (file : F)
  | add
  | access
  | setName (name : CName) (type : CounterType)
  | reset
  | open (type : CounterType) (file : F)
  | openOther
  | close (type : CounterType)
  | countersClear
  | foreignAdd (file : F) (name : CName)
  | foreignStore (file : F) (index v : Int)

namespace World

/-- `ValueCounters` or `IncrementedCounters`. Which file the name leads to now
is up to the others: it may have been removed and made anew. -/
def counters (w : World F) (type : CounterType) (file : F) : Mapping F × World F :=
  match w.opened type with
  | some m => (m, w)
  | none =>
    let m := ⟨file, w.prevInstance + 1⟩
    (m, { w with
      opened := Function.update w.opened type (some m)
      prevInstance := w.prevInstance + 1 })

/-- The file an address leads into, as long as that opening lasts. -/
def mapped (w : World F) (number : Nat) : Option F :=
  match w.opened w.counter.type with
  | none => none
  | some m => if m.number = number then some m.file else none

variable [DecidableEq F]

def setDict (w : World F) (file : F) (d : Names) : World F :=
  { w with files := Function.update w.files file { w.files file with dict := d } }

def setValue (w : World F) (file : F) (index v : Int) : World F :=
  { w with files := Function.update w.files file { w.files file with
      counters := Function.update (w.files file).counters index v } }

@[simp] theorem setDict_dict (w : World F) (file : F) (d : Names) :
    ((w.setDict file d).files file).dict = d := by
  simp only [setDict, Function.update_self]

theorem setDict_dict_of_ne (w : World F) {f file : F} (h : f ≠ file) (d : Names) :
    ((w.setDict file d).files f).dict = (w.files f).dict := by
  simp only [setDict, Function.update_of_ne h]

@[simp] theorem setValue_dict (w : World F) (f file : F) (index v : Int) :
    ((w.setValue file index v).files f).dict = (w.files f).dict := by
  rcases eq_or_ne f file with rfl | hne
  · simp only [setValue, Function.update_self]
  · simp only [setValue, Function.update_of_ne hne]

def startUse (w : World F) (u : Use) (file : F) : Option (Option Int × World F) :=
  let (m, w) := w.counters w.counter.type file
  if w.counter.Stale m then
    match lookupSection (w.files m.file).dict w.counter.name with
    | none => none
    | some (.missed, _, _) => some (none, { w with pc := .missed u })
    | some (.returned _ index, _, _) =>
      some (none, { w with counter := w.counter.resolve m index, pc := .access u })
  else some (none, { w with pc := .access u })

def finishInit (w : World F) (u : Use) : Option (Option Int × World F) :=
  match w.opened w.counter.type with
  | none => none
  | some m =>
    match addSection (w.files m.file).dict w.counter.name with
    | some (.returned _ index, d, _) =>
      some (none, { w.setDict m.file d with
        counter := w.counter.resolve m index
        pc := .access u })
    | _ => none

/-- The access through `ptr`; through a dangling one it has no result. -/
def access (w : World F) (u : Use) : Option (Option Int × World F) :=
  match w.counter.ptr with
  | none =>
    some (some (u.apply w.defValue), { w with defValue := u.apply w.defValue, pc := .idle })
  | some (number, index) =>
    match w.mapped number with
    | none => none
    | some file =>
      let v := u.apply ((w.files file).counters index)
      some (some v, { w.setValue file index v with pc := .idle })

def step (w : World F) (move : Move F) : Option (Option Int × World F) :=
  match w.pc, move with
  | .idle, .use u file => w.startUse u file
  | .missed u, .add => w.finishInit u
  | .access u, .access => w.access u
  | .idle, .setName name type =>
    some (none, { w with counter := w.counter.setName name type })
  | .idle, .reset => some (none, { w with counter := w.counter.reset })
  | .idle, .open type file => some (none, (w.counters type file).2)
  | .idle, .openOther => some (none, { w with prevInstance := w.prevInstance + 1 })
  | .idle, .close type => some (none, { w with opened := Function.update w.opened type none })
  | .idle, .countersClear => some (none, { w with opened := fun _ => none })
  | _, .foreignAdd file name =>
    ((w.files file).dict.add name).map fun r => (none, w.setDict file r.2)
  | _, .foreignStore file index v => some (none, w.setValue file index v)
  | _, _ => none

end World

/-- The process starts with nothing opened; the files are as `Init` leaves them. -/
def start (raw : F → CountersData) (c : LazyCounter) : World F where
  files f := ⟨(raw f).dict.clear, (raw f).counters⟩
  opened _ := none
  prevInstance := 0
  defValue := 0
  counter := c.reset
  pc := .idle

/-- At an access `ptr` is the default value, or the slot that the opened
segment assigns to the name. -/
def Valid (w : World F) : Prop :=
  ∀ u, w.pc = .access u → w.counter.ptr = none ∨
    ∃ m index, w.opened w.counter.type = some m ∧ w.counter.ptr = some (m.number, index) ∧
      Registered (w.files m.file).dict w.counter.name index

/-- `Init` resolves the name again whenever there is an address to replace.
Besides, names are measured right and instance numbers do not overflow. -/
def Resolves (w : World F) : Move F → Prop
  | .add => ∀ m, w.opened w.counter.type = some m →
    Measured (w.files m.file).dict (.add w.counter.name) ∧
      (w.counter.ptr = none ∨ Takes (w.files m.file).dict w.counter.name)
  | .foreignAdd file name => Measured (w.files file).dict (.add name)
  | .use _ _ => w.opened w.counter.type = none → w.prevInstance + 1 < 2 ^ 31
  | .open type _ => w.opened type = none → w.prevInstance + 1 < 2 ^ 31
  | .openOther => w.prevInstance + 1 < 2 ^ 31
  | _ => True

def Found (w : World F) (m : Mapping F) (index : Int) : Prop :=
  index ≠ invalidIndex ∧ (w.files m.file).dict.lookupName w.counter.name = some index

structure Sound (w : World F) : Prop where
  stores : ∀ f, ∃ names, Stores (w.files f).dict names
  bound : w.prevInstance < 2 ^ 31
  number_le : ∀ type m, w.opened type = some m → m.number ≤ w.prevInstance
  ptr_le : ∀ number index, w.counter.ptr = some (number, index) →
    number ≤ w.prevInstance ∧ w.counter.instanceId = i32 number
  found : ∀ m index, w.opened w.counter.type = some m → w.counter.ptr = some (m.number, index) →
    Found w m index
  missed : ∀ u, w.pc = .missed u → ∃ m, w.opened w.counter.type = some m ∧ w.counter.Stale m
  access : ∀ u, w.pc = .access u → ∃ m, w.opened w.counter.type = some m ∧
    (w.counter.ptr = none ∨ ∃ index, w.counter.ptr = some (m.number, index))

theorem Sound.valid {w : World F} (h : Sound w) : Valid w := by
  intro u hpc
  obtain ⟨m, hopened, hptr | ⟨index, hptr⟩⟩ := h.access u hpc
  · exact .inl hptr
  · obtain ⟨names, hstores⟩ := h.stores m.file
    obtain ⟨hindex, hlookup⟩ := h.found m index hopened hptr
    exact .inr ⟨m, index, hopened, hptr, (registered_iff hstores).mpr ⟨hlookup, hindex⟩⟩

theorem Sound.start (raw : F → CountersData) (c : LazyCounter) : Sound (start raw c) where
  stores f := ⟨[], .clear (raw f).dict⟩
  bound := Nat.two_pow_pos 31
  number_le _ _ h := by cases h
  ptr_le _ _ h := by cases h
  found _ _ h := by cases h
  missed _ h := by cases h
  access _ h := by cases h

section

variable {w : World F}

theorem getInstance_inj {m n : Nat} (hm : m < 2 ^ 31) (hn : n < 2 ^ 31)
    (h : i32 (m : Int) = i32 (n : Int)) : m = n := by
  rw [i32_natCast hm, i32_natCast hn] at h
  omega

theorem Sound.counters (h : Sound w) (hpc : w.pc = .idle) {type : CounterType}
    (hbound : w.opened type = none → w.prevInstance + 1 < 2 ^ 31) (file : F) :
    Sound (w.counters type file).2 ∧
      (w.counters type file).2.opened type = some (w.counters type file).1 ∧
      (w.counters type file).2.counter = w.counter ∧ (w.counters type file).2.pc = w.pc := by
  unfold World.counters
  cases hopened : w.opened type with
  | some m => exact ⟨h, hopened, rfl, rfl⟩
  | none =>
    refine ⟨⟨h.stores, hbound hopened, ?_, ?_, ?_, ?_, ?_⟩, Function.update_self .., rfl, rfl⟩
    · intro t m hm
      change Function.update w.opened type _ t = some m at hm
      rcases eq_or_ne t type with rfl | hne
      · rw [Function.update_self] at hm
        rw [← Option.some_inj.mp hm]
      · rw [Function.update_of_ne hne] at hm
        exact Nat.le_succ_of_le (h.number_le t m hm)
    · intro number index hptr
      obtain ⟨hle, hinstance⟩ := h.ptr_le number index hptr
      exact ⟨Nat.le_succ_of_le hle, hinstance⟩
    · intro m index hm hptr
      change Function.update w.opened type _ w.counter.type = some m at hm
      rcases eq_or_ne w.counter.type type with heq | hne
      · rw [heq, Function.update_self] at hm
        have hnew := (h.ptr_le m.number index hptr).1
        rw [← Option.some_inj.mp hm] at hnew
        exact absurd hnew (Nat.not_succ_le_self _)
      · rw [Function.update_of_ne hne] at hm
        exact h.found m index hm hptr
    · intro u hu
      rw [show w.pc = .missed u from hu] at hpc
      cases hpc
    · intro u hu
      rw [show w.pc = .access u from hu] at hpc
      cases hpc

theorem Sound.resolve (h : Sound w) {m : Mapping F} {index : Int}
    (hopened : w.opened w.counter.type = some m) (hfound : Found w m index) (u : Use) :
    Sound { w with counter := w.counter.resolve m index, pc := .access u } := by
  rw [LazyCounter.resolve, if_pos hfound.1]
  refine ⟨h.stores, h.bound, h.number_le, ?_, ?_, ?_, ?_⟩
  · intro number i hptr
    obtain ⟨rfl, rfl⟩ := Prod.mk.inj (Option.some_inj.mp hptr)
    exact ⟨h.number_le _ m hopened, rfl⟩
  · intro m' i hm hptr
    obtain rfl : m = m' := Option.some_inj.mp (hopened.symm.trans hm)
    obtain ⟨-, rfl⟩ := Prod.mk.inj (Option.some_inj.mp hptr)
    exact hfound
  · intro u hu
    cases hu
  · intro _ _
    exact ⟨m, hopened, .inr ⟨index, rfl⟩⟩

theorem Sound.skip (h : Sound w) {m : Mapping F} (hopened : w.opened w.counter.type = some m)
    (hptr : w.counter.ptr = none ∨ ∃ index, w.counter.ptr = some (m.number, index)) (u : Use) :
    Sound { w with pc := .access u } where
  stores := h.stores
  bound := h.bound
  number_le := h.number_le
  ptr_le := h.ptr_le
  found := h.found
  missed _ hu := by cases hu
  access _ _ := ⟨m, hopened, hptr⟩

theorem Sound.ptr_of_not_stale (h : Sound w) {m : Mapping F}
    (hopened : w.opened w.counter.type = some m) (hstale : ¬ w.counter.Stale m) :
    ∃ index, w.counter.ptr = some (m.number, index) := by
  obtain ⟨hptr, hinstance⟩ := not_or.mp hstale
  obtain ⟨⟨number, index⟩, hsome⟩ := Option.ne_none_iff_exists'.mp hptr
  obtain ⟨hle, hid⟩ := h.ptr_le number index hsome
  have hnumber := h.number_le _ m hopened
  have hbound := h.bound
  have hsame : m.number = number := by
    refine getInstance_inj (by omega) (by omega) ?_
    rw [← hid]
    exact not_not.mp hinstance
  exact ⟨index, by rw [hsome, hsame]⟩

theorem Sound.stale_number (h : Sound w) {m : Mapping F} {number : Nat} {index : Int}
    (hstale : w.counter.Stale m) (hptr : w.counter.ptr = some (number, index)) :
    m.number ≠ number := by
  rintro rfl
  rcases hstale with hnone | hne
  · rw [hnone] at hptr
    cases hptr
  · exact hne (h.ptr_le _ _ hptr).2.symm

section

variable {m : Mapping F} {v : World F} {u : Use} {file : F}

theorem startUse_missed (hcounters : w.counters w.counter.type file = (m, v))
    (hstale : v.counter.Stale m)
    (hlookup : (v.files m.file).dict.lookupName v.counter.name = some invalidIndex) :
    w.startUse u file = some (none, { v with pc := .missed u }) := by
  simp only [World.startUse, hcounters, if_pos hstale, lookupSection_missed hlookup]

theorem startUse_known {index : Int} (hcounters : w.counters w.counter.type file = (m, v))
    (hstale : v.counter.Stale m)
    (hlookup : (v.files m.file).dict.lookupName v.counter.name = some index)
    (hindex : index ≠ invalidIndex) :
    w.startUse u file = some (none, { v with
      counter := v.counter.resolve m index
      pc := .access u }) := by
  simp only [World.startUse, hcounters, if_pos hstale, lookupSection_known hlookup hindex]

theorem startUse_current (hcounters : w.counters w.counter.type file = (m, v))
    (hstale : ¬ v.counter.Stale m) :
    w.startUse u file = some (none, { v with pc := .access u }) := by
  simp only [World.startUse, hcounters, if_neg hstale]

theorem Sound.startUse (h : Sound w) (hpc : w.pc = .idle)
    (hbound : w.opened w.counter.type = none → w.prevInstance + 1 < 2 ^ 31)
    {o : Option Int} {w' : World F} (hs : w.startUse u file = some (o, w')) : Sound w' := by
  obtain ⟨hw, hopened, hcounter, -⟩ := h.counters hpc hbound file
  cases hcounters : w.counters w.counter.type file with
  | mk m v =>
    rw [hcounters] at hw hopened hcounter
    change v.opened w.counter.type = some m at hopened
    change v.counter = w.counter at hcounter
    rw [← hcounter] at hopened
    by_cases hstale : v.counter.Stale m
    · obtain ⟨names, hstores⟩ := hw.stores m.file
      have hlookup := hstores.lookupName_eq v.counter.name
      by_cases hid : idOf names v.counter.name = invalidIndex
      · rw [hid] at hlookup
        rw [startUse_missed hcounters hstale hlookup] at hs
        obtain rfl := Run.state_eq hs
        exact ⟨hw.stores, hw.bound, hw.number_le, hw.ptr_le, hw.found,
          fun _ _ => ⟨m, hopened, hstale⟩, fun _ hu => by cases hu⟩
      · rw [startUse_known hcounters hstale hlookup hid] at hs
        obtain rfl := Run.state_eq hs
        exact hw.resolve hopened ⟨hid, hlookup⟩ u
    · rw [startUse_current hcounters hstale] at hs
      obtain rfl := Run.state_eq hs
      exact hw.skip hopened (.inr (hw.ptr_of_not_stale hopened hstale)) u

end

theorem Sound.rename (h : Sound w) (hpc : w.pc = .idle) {c : LazyCounter} (hc : c.ptr = none) :
    Sound { w with counter := c } where
  stores := h.stores
  bound := h.bound
  number_le := h.number_le
  ptr_le _ _ hptr := by
    rw [show c.ptr = some _ from hptr] at hc
    cases hc
  found _ _ _ hptr := by
    rw [show c.ptr = some _ from hptr] at hc
    cases hc
  missed _ hu := by
    rw [show w.pc = .missed _ from hu] at hpc
    cases hpc
  access _ hu := by
    rw [show w.pc = .access _ from hu] at hpc
    cases hpc

theorem Sound.closed (h : Sound w) (hpc : w.pc = .idle)
    {opened : CounterType → Option (Mapping F)}
    (hopened : ∀ type m, opened type = some m → w.opened type = some m) :
    Sound { w with opened := opened } where
  stores := h.stores
  bound := h.bound
  number_le type m hm := h.number_le type m (hopened type m hm)
  ptr_le := h.ptr_le
  found m index hm hptr := h.found m index (hopened _ m hm) hptr
  missed _ hu := by
    rw [show w.pc = .missed _ from hu] at hpc
    cases hpc
  access _ hu := by
    rw [show w.pc = .access _ from hu] at hpc
    cases hpc

theorem Sound.openOther (h : Sound w) (hbound : w.prevInstance + 1 < 2 ^ 31) :
    Sound { w with prevInstance := w.prevInstance + 1 } where
  stores := h.stores
  bound := hbound
  number_le type m hm := Nat.le_succ_of_le (h.number_le type m hm)
  ptr_le number index hptr :=
    ⟨Nat.le_succ_of_le (h.ptr_le number index hptr).1, (h.ptr_le number index hptr).2⟩
  found := h.found
  missed := h.missed
  access := h.access

theorem Sound.leave (h : Sound w) (v : Int) : Sound { w with defValue := v, pc := .idle } where
  stores := h.stores
  bound := h.bound
  number_le := h.number_le
  ptr_le := h.ptr_le
  found := h.found
  missed _ hu := by cases hu
  access _ hu := by cases hu

variable [DecidableEq F]

theorem step_use (hpc : w.pc = .idle) (u : Use) (file : F) :
    w.step (.use u file) = w.startUse u file := by
  cases w
  cases hpc
  rfl

theorem step_add {u : Use} (hpc : w.pc = .missed u) : w.step .add = w.finishInit u := by
  cases w
  cases hpc
  rfl

theorem step_access {u : Use} (hpc : w.pc = .access u) : w.step .access = w.access u := by
  cases w
  cases hpc
  rfl

theorem step_foreignAdd (file : F) (name : CName) : w.step (.foreignAdd file name) =
    ((w.files file).dict.add name).map fun r => (none, w.setDict file r.2) := by
  unfold World.step
  cases w.pc <;> rfl

theorem Sound.setDict (h : Sound w) {file : F} {d : Names} (hstores : ∃ names, Stores d names)
    (hkeeps : Keeps (w.files file).dict d) : Sound (w.setDict file d) := by
  refine ⟨fun f => ?_, h.bound, h.number_le, h.ptr_le, fun m index hm hptr => ?_, h.missed,
    h.access⟩
  · rcases eq_or_ne f file with rfl | hne
    · rw [World.setDict_dict]
      exact hstores
    · rw [World.setDict_dict_of_ne _ hne]
      exact h.stores f
  · obtain ⟨hindex, hlookup⟩ := h.found m index hm hptr
    refine ⟨hindex, ?_⟩
    rcases eq_or_ne m.file file with heq | hne
    · rw [heq] at hlookup
      rw [heq, World.setDict_dict]
      exact hkeeps.name _ _ hlookup hindex
    · rw [World.setDict_dict_of_ne _ hne]
      exact hlookup

theorem Sound.setValue (h : Sound w) (file : F) (index v : Int) :
    Sound (w.setValue file index v) := by
  refine ⟨fun f => ?_, h.bound, h.number_le, h.ptr_le, fun m i hm hptr => ?_, h.missed, h.access⟩
  · rw [World.setValue_dict]
    exact h.stores f
  · rw [Found, World.setValue_dict]
    exact h.found m i hm hptr

theorem finishInit_cases (h : Sound w) {u : Use} {m : Mapping F}
    (hopened : w.opened w.counter.type = some m)
    (hmeasured : Measured (w.files m.file).dict (.add w.counter.name)) :
    ∃ index d, w.finishInit u = some (none, { w.setDict m.file d with
        counter := w.counter.resolve m index, pc := .access u }) ∧
      (∃ names, Stores d names) ∧ Keeps (w.files m.file).dict d ∧
      (index ≠ invalidIndex → d.lookupName w.counter.name = some index) ∧
      (index ≠ invalidIndex ↔ Takes (w.files m.file).dict w.counter.name) := by
  obtain ⟨names, hstores⟩ := h.stores m.file
  obtain ⟨index, d, hsection, hanswers, htakes⟩ := addSection_answers hstores hmeasured
  refine ⟨index, d, ?_, hanswers.stores, hanswers.keeps, hanswers.found _ _ rfl, htakes⟩
  simp only [World.finishInit, hopened, hsection]

theorem Sound.finishInit (h : Sound w) {u : Use} {m : Mapping F}
    (hopened : w.opened w.counter.type = some m)
    (hmeasured : Measured (w.files m.file).dict (.add w.counter.name))
    (hresolves : w.counter.ptr = none ∨ Takes (w.files m.file).dict w.counter.name)
    {o : Option Int} {w' : World F} (hs : w.finishInit u = some (o, w')) : Sound w' := by
  obtain ⟨index, d, heq, hstores, hkeeps, hfound, htakes⟩ := finishInit_cases (u := u) h hopened
    hmeasured
  rw [heq] at hs
  obtain rfl := Run.state_eq hs
  have hw := h.setDict hstores hkeeps
  by_cases hindex : index = invalidIndex
  · have hptr : w.counter.ptr = none :=
      hresolves.resolve_right fun ht => htakes.mpr ht hindex
    rw [LazyCounter.resolve, if_neg (not_not.mpr hindex)]
    exact hw.skip hopened (.inl hptr) u
  · refine hw.resolve hopened ⟨hindex, ?_⟩ u
    rw [World.setDict_dict]
    exact hfound hindex

theorem Sound.access_cases (h : Sound w) {u : Use} (hpc : w.pc = .access u) :
    (w.counter.ptr = none ∧ w.access u = some (some (u.apply w.defValue),
      { w with defValue := u.apply w.defValue, pc := .idle })) ∨
    ∃ (m : Mapping F) (index : Int), w.counter.ptr = some (m.number, index) ∧
      w.access u = some (some (u.apply ((w.files m.file).counters index)),
        { w.setValue m.file index (u.apply ((w.files m.file).counters index)) with
          pc := .idle }) := by
  obtain ⟨m, hopened, hptr | ⟨index, hptr⟩⟩ := h.access u hpc
  · exact .inl ⟨hptr, by rw [World.access, hptr]⟩
  · have hmapped : w.mapped m.number = some m.file := by
      simp only [World.mapped, hopened, if_true]
    exact .inr ⟨m, index, hptr, by simp only [World.access, hptr, hmapped]⟩

theorem Sound.step_access (h : Sound w) {u : Use} (hpc : w.pc = .access u) :
    ∃ o w', w.step .access = some (o, w') ∧ w'.pc = .idle ∧ w'.prevInstance = w.prevInstance ∧
      w'.counter = w.counter ∧ ∀ f, (w'.files f).dict = (w.files f).dict := by
  rw [LazyCounters.step_access hpc]
  rcases h.access_cases hpc with ⟨-, heq⟩ | ⟨m, index, -, heq⟩
  · exact ⟨_, _, heq, rfl, rfl, rfl, fun _ => rfl⟩
  · exact ⟨_, _, heq, rfl, rfl, rfl, fun f => World.setValue_dict w f m.file index _⟩

theorem Sound.accessed (h : Sound w) {u : Use} (hpc : w.pc = .access u) {o : Option Int}
    {w' : World F} (hs : w.access u = some (o, w')) : Sound w' := by
  rcases h.access_cases hpc with ⟨-, heq⟩ | ⟨m, index, -, heq⟩
  · rw [heq] at hs
    obtain rfl := Run.state_eq hs
    exact h.leave _
  · rw [heq] at hs
    obtain rfl := Run.state_eq hs
    exact (h.setValue m.file index _).leave w.defValue

theorem Sound.foreignAdd (h : Sound w) {file : F} {name : CName}
    (hmeasured : Measured (w.files file).dict (.add name)) {o : Option Int} {w' : World F}
    (hs : ((w.files file).dict.add name).map (fun r => (none, w.setDict file r.2)) =
      some (o, w')) : Sound w' := by
  obtain ⟨names, hstores⟩ := h.stores file
  obtain ⟨id, d, hadd, -, -, hkeeps⟩ := add_implements hstores hmeasured
  rw [hadd, Option.map_some] at hs
  obtain rfl := Run.state_eq hs
  exact h.setDict (add_stores hstores hmeasured hadd) hkeeps

theorem Sound.step (h : Sound w) {move : Move F} (hok : Resolves w move) {o : Option Int}
    {w' : World F} (hs : w.step move = some (o, w')) : Sound w' := by
  unfold World.step at hs
  split at hs
  case h_1 u file hpc => exact h.startUse hpc hok hs
  case h_2 u hpc =>
    obtain ⟨m, hopened, -⟩ := h.missed u hpc
    exact h.finishInit hopened (hok m hopened).1 (hok m hopened).2 hs
  case h_3 u hpc => exact h.accessed hpc hs
  case h_4 name type hpc =>
    obtain rfl := Run.state_eq hs
    exact h.rename hpc rfl
  case h_5 hpc =>
    obtain rfl := Run.state_eq hs
    exact h.rename hpc rfl
  case h_6 type file hpc =>
    obtain rfl := Run.state_eq hs
    exact (h.counters hpc hok file).1
  case h_7 hpc =>
    obtain rfl := Run.state_eq hs
    exact h.openOther hok
  case h_8 type hpc =>
    obtain rfl := Run.state_eq hs
    refine h.closed hpc fun t m hm => ?_
    rcases eq_or_ne t type with rfl | hne
    · rw [Function.update_self] at hm
      cases hm
    · rwa [Function.update_of_ne hne] at hm
  case h_9 hpc =>
    obtain rfl := Run.state_eq hs
    exact h.closed hpc fun _ _ hm => by cases hm
  case h_10 file name => exact h.foreignAdd hok hs
  case h_11 file index v =>
    obtain rfl := Run.state_eq hs
    exact h.setValue file index v
  case h_12 => cases hs

/-- A failed `Add` leaves the address of the segment that was closed. -/
theorem Sound.finishInit_valid_iff (h : Sound w) {u : Use} (hpc : w.pc = .missed u)
    {m : Mapping F} (hopened : w.opened w.counter.type = some m)
    (hmeasured : Measured (w.files m.file).dict (.add w.counter.name)) :
    ∃ w', w.step .add = some (none, w') ∧
      (Valid w' ↔ w.counter.ptr = none ∨ Takes (w.files m.file).dict w.counter.name) := by
  obtain ⟨index, d, heq, -, -, -, htakes⟩ := finishInit_cases (u := u) h hopened hmeasured
  refine ⟨_, (step_add hpc).trans heq, fun hvalid => ?_, fun hresolves => ?_⟩
  · by_contra hfails
    obtain ⟨hptr, hfull⟩ := not_or.mp hfails
    have hindex : index = invalidIndex := not_not.mp fun hne => hfull (htakes.mp hne)
    rw [LazyCounter.resolve, if_neg (not_not.mpr hindex)] at hvalid
    obtain ⟨m', hm, hstale⟩ := h.missed u hpc
    obtain rfl : m = m' := Option.some_inj.mp (hopened.symm.trans hm)
    rcases hvalid u rfl with hnone | ⟨m', i, hm', hsome, -⟩
    · exact hptr hnone
    · obtain rfl : m = m' := Option.some_inj.mp (hopened.symm.trans hm')
      exact h.stale_number hstale hsome rfl
  · exact (h.finishInit hopened hmeasured hresolves heq).valid

theorem run_sound {raw : F → CountersData} {c : LazyCounter}
    {trace : List (Move F × Option Int)} {w : World F}
    (run : Run World.step Resolves (start raw c) trace w) : Sound w :=
  run.invariant (I := Sound) (.start raw c) fun _ _ _ _ h hok hs => h.step hok hs

/-- In every state of a run that always resolves the name when it has to, the
address is valid and its access has a result; the `Add` that comes next keeps
this exactly if there is no address yet or the name is taken in. -/
theorem run_valid (raw : F → CountersData) (c : LazyCounter)
    {trace : List (Move F × Option Int)} {w : World F}
    (run : Run World.step Resolves (start raw c) trace w) :
    Valid w ∧ (∀ u, w.pc = .access u → ∃ r, w.step .access = some r) ∧
      ∀ u, w.pc = .missed u → ∃ m, w.opened w.counter.type = some m ∧
        (Measured (w.files m.file).dict (.add w.counter.name) →
          ∃ w', w.step .add = some (none, w') ∧
            (Valid w' ↔ w.counter.ptr = none ∨
              Takes (w.files m.file).dict w.counter.name)) := by
  have h := run_sound run
  refine ⟨h.valid, fun u hpc => ?_, fun u hpc => ?_⟩
  · obtain ⟨o, w', hstep, -⟩ := h.step_access hpc
    exact ⟨_, hstep⟩
  · obtain ⟨m, hopened, -⟩ := h.missed u hpc
    exact ⟨m, hopened, h.finishInit_valid_iff hpc hopened⟩

end

section

def zeroCounters : CountersData := ⟨zeroNames, fun _ => 0⟩

def lazyA : LazyCounter := ⟨none, .incremental, shortName [97], 0⟩

theorem lookup_longName {d : Names} {n : Nat} (hn : n ≠ 1) (h : Stores d [longName n]) :
    d.lookupName (shortName [97]) = some invalidIndex := by
  have hnew : ∀ m ∈ [longName n], strcasecmp m.1 (shortName [97]).1 ≠ 0 := by
    intro m hm heq
    obtain rfl := List.mem_singleton.mp hm
    have hfold := congrArg List.length
      ((strcasecmp_eq_zero_iff (longName n).2 (shortName [97]).2).mp heq)
    simp only [fold, List.length_map] at hfold
    exact hn ((strlen_longName n).symm.trans hfold)
  rw [h.lookupName_eq, idOf, Stores.position_eq_none hnew]

variable {w : World Nat}

theorem use_opens (hpc : w.pc = .idle) (hclosed : w.opened w.counter.type = none) {file : Nat}
    (hstale : w.counter.Stale (⟨file, w.prevInstance + 1⟩ : Mapping Nat))
    (hlookup : (w.files file).dict.lookupName w.counter.name = some invalidIndex) (u : Use) :
    ∃ w', w.step (.use u file) = some (none, w') ∧ w'.pc = .missed u ∧
      w'.opened w.counter.type = some ⟨file, w.prevInstance + 1⟩ ∧
      w'.prevInstance = w.prevInstance + 1 ∧ w'.counter = w.counter ∧ w'.files = w.files := by
  have hcounters : w.counters w.counter.type file = (⟨file, w.prevInstance + 1⟩, { w with
      opened := Function.update w.opened w.counter.type (some ⟨file, w.prevInstance + 1⟩)
      prevInstance := w.prevInstance + 1 }) := by
    simp only [World.counters, hclosed]
  exact ⟨_, (step_use hpc u file).trans (startUse_missed hcounters hstale hlookup), rfl,
    Function.update_self .., rfl, rfl, rfl⟩

theorem run_first_use : ∃ (trace : List (Move Nat × Option Int)) (w : World Nat),
    Run World.step Resolves (start (fun _ => zeroCounters) lazyA) trace w ∧
      w.pc = .access .increment ∧ w.prevInstance = 1 ∧
      w.counter = { lazyA with ptr := some (1, 0), instanceId := 1 } ∧
      (w.files 1).dict = zeroNames.clear := by
  have hempty := Stores.clear zeroNames
  have hnew : ∀ m ∈ ([] : List CName), strcasecmp m.1 lazyA.name.1 ≠ 0 :=
    fun _ hm => absurd hm List.not_mem_nil
  obtain ⟨d, hadd, -⟩ := hempty.add_new hnew (by decide) (by decide) (by decide)
  have hmissed : zeroNames.clear.lookupName lazyA.name = some invalidIndex :=
    hempty.lookupName_eq lazyA.name
  have hmeasured : Measured zeroNames.clear (.add lazyA.name) := by
    intro _ _ _
    decide
  have hadded : addSection zeroNames.clear lazyA.name =
      some (.returned lazyA.name 0, d, .idle) := by
    rw [addSection_missed hmissed, hadd]
    rfl
  obtain ⟨v, hstep, hpc, hopened, hprev, hcounter, hfiles⟩ :=
    use_opens (w := start (fun _ => zeroCounters) lazyA) rfl rfl (.inl rfl) hmissed .increment
  have hbound : Resolves (start (fun _ : Nat => zeroCounters) lazyA) (.use .increment 0) :=
    fun _ => Nat.one_lt_two_pow (by decide)
  have run := Run.next .start hbound hstep
  change v.opened .incremental = some ⟨0, 1⟩ at hopened
  change v.counter = lazyA at hcounter
  have hdict (f : Nat) : (v.files f).dict = zeroNames.clear := by
    rw [hfiles]
    rfl
  have hfinish : v.step .add = some (none, { v.setDict 0 d with
      counter := lazyA.resolve (⟨0, 1⟩ : Mapping Nat) 0
      pc := .access .increment }) := by
    rw [step_add hpc, World.finishInit, hcounter]
    simp only [show v.opened lazyA.type = some ⟨0, 1⟩ from hopened, hdict, hadded]
  have hresolves : Resolves v .add := by
    intro m _
    rw [hcounter, hdict]
    exact ⟨hmeasured, .inl rfl⟩
  refine ⟨_, _, run.next hresolves hfinish, rfl, hprev, rfl, ?_⟩
  exact (World.setDict_dict_of_ne v (by decide) d).trans (hdict 1)

theorem run_valid_first_use :
    ∃ (trace : List (Move Nat × Option Int)) (w : World Nat),
      Run World.step Resolves (start (fun _ => zeroCounters) lazyA) trace w ∧
        w.counter.ptr = some (1, 0) ∧ w.pc = .access .increment ∧ Valid w := by
  obtain ⟨trace, w, run, hpc, -, hcounter, -⟩ := run_first_use
  exact ⟨trace, w, run, by rw [hcounter], hpc, (run_valid _ _ run).1⟩

theorem run_cleared : ∃ (trace : List (Move Nat × Option Int)) (w : World Nat),
    Run World.step Resolves (start (fun _ => zeroCounters) lazyA) trace w ∧
      w.pc = .idle ∧ w.prevInstance = 1 ∧ w.opened = (fun _ => none) ∧
      w.counter = { lazyA with ptr := some (1, 0), instanceId := 1 } ∧
      (w.files 1).dict = zeroNames.clear := by
  obtain ⟨trace, w, run, hpc, hprev, hcounter, hdict⟩ := run_first_use
  obtain ⟨o, v, hstep, hpc', hprev', hcounter', hdict'⟩ :=
    (run_sound run).step_access hpc
  have run' := run.next (show Resolves w .access from trivial) hstep
  have hclear : v.step .countersClear = some (none, { v with opened := fun _ => none }) := by
    cases v
    cases hpc'
    rfl
  exact ⟨_, _, run'.next (show Resolves v .countersClear from trivial) hclear, hpc',
    hprev'.trans hprev, rfl, hcounter'.trans hcounter, (hdict' 1).trans hdict⟩

theorem run_filled : ∃ (trace : List (Move Nat × Option Int)) (w : World Nat),
    Run World.step Resolves (start (fun _ => zeroCounters) lazyA) trace w ∧
      w.pc = .missed .get ∧ w.opened .incremental = some ⟨1, 2⟩ ∧
      w.counter = { lazyA with ptr := some (1, 0), instanceId := 1 } ∧
      Stores (w.files 1).dict [longName 254999] := by
  obtain ⟨trace, w, run, hpc, hprev, hopened, hcounter, hdict⟩ := run_cleared
  have hlong := strlen_longName 254999
  have hsize : counterNamesSize.toNat = 255000 := by decide
  have hnew : ∀ m ∈ ([] : List CName), strcasecmp m.1 (longName 254999).1 ≠ 0 :=
    fun _ hm => absurd hm List.not_mem_nil
  obtain ⟨d, hadd, hd⟩ := (Stores.clear zeroNames).add_new hnew
    (by rw [hlong, hsize]; exact Nat.le_refl _)
    (by rw [hlong]; decide) (by decide)
  have hmeasured : Resolves w (.foreignAdd 1 (longName 254999)) := by
    intro _ _ _
    rw [hdict, hlong]
    decide
  have hfill : w.step (.foreignAdd 1 (longName 254999)) = some (none, w.setDict 1 d) := by
    rw [step_foreignAdd, hdict, hadd, Option.map_some]
  have run' := run.next hmeasured hfill
  have hstale : w.counter.Stale (⟨1, w.prevInstance + 1⟩ : Mapping Nat) := by
    rw [hcounter, hprev]
    exact .inr (by decide)
  have hfilled : ((w.setDict 1 d).files 1).dict = d := World.setDict_dict w 1 d
  have hmissed : ((w.setDict 1 d).files 1).dict.lookupName w.counter.name =
      some invalidIndex := by
    rw [hfilled, hcounter]
    exact lookup_longName (by decide) hd
  obtain ⟨v, hstep, hpc', hopened', -, hcounter', hfiles'⟩ := use_opens (w := w.setDict 1 d) hpc
    (congrFun hopened w.counter.type) hstale hmissed .get
  have hbound : Resolves (w.setDict 1 d) (.use .get 1) := by
    intro _
    change w.prevInstance + 1 < 2 ^ 31
    rw [hprev]
    decide
  refine ⟨_, v, run'.next hbound hstep, hpc', ?_, hcounter'.trans hcounter, ?_⟩
  · change v.opened w.counter.type = some ⟨1, w.prevInstance + 1⟩ at hopened'
    rw [hcounter, hprev] at hopened'
    exact hopened'
  · rw [hfiles', hfilled]
    exact hd

/-- The segment is replaced and has no room for the name; the address is still
that of the old one. -/
theorem run_dangling : ¬ ∀ (raw : Nat → CountersData) (c : LazyCounter)
    (trace : List (Move Nat × Option Int)) (w : World Nat),
    Run World.step (fun _ _ => True) (start raw c) trace w → Valid w := by
  intro hall
  obtain ⟨trace, w, run, hpc, hopened, hcounter, hd⟩ := run_filled
  have hfull : ¬ HasRoom (w.files 1).dict lazyA.name := by
    intro hroom
    have hused := hroom.1
    rw [hd.used_eq, image_length, List.map_singleton, List.sum_singleton, strlen_longName] at hused
    exact absurd hused (by decide)
  rw [show CounterType.incremental = w.counter.type by rw [hcounter]; rfl] at hopened
  have hname : w.counter.name = lazyA.name := by
    rw [hcounter]
  have hmeasured : Measured (w.files 1).dict (.add w.counter.name) := by
    rw [hname]
    exact fun hcount hroom _ => absurd ⟨hroom, hcount⟩ hfull
  obtain ⟨v, hstep, hiff⟩ :=
    (run_sound run).finishInit_valid_iff hpc hopened hmeasured
  have hrun : Run World.step (fun _ _ => True) (start (fun _ => zeroCounters) lazyA) _ w :=
    run.weaken fun _ _ _ => trivial
  rcases hiff.mp (hall _ _ _ _ (hrun.next trivial hstep)) with hptr | htakes
  · rw [hcounter] at hptr
    cases hptr
  · rw [hname] at htakes
    rcases htakes with hknown | hroom
    · exact hknown (lookup_longName (by decide) hd)
    · exact hfull hroom

end

end HiloUtils.LazyCounters
