import HiloUtils.Processes
import HiloUtils.DictionaryMap

/-! `Counters::GetCounterIndex`: clients of one segment look a name up under the
read lock and, if it is not there, look again and add it under the write lock.
Other clients may come between. -/

namespace HiloUtils.CounterIndex

open Word CString Dictionary DictionaryMap

def counterMaxAmount : UInt32 := 5000

def counterAvgNameLen : UInt32 := 50

def counterNamesSize : UInt32 := (counterAvgNameLen + 1) * counterMaxAmount

abbrev Names := CDictionary counterMaxAmount counterNamesSize

/-- Where a client is: not in the call, or between its two critical sections. -/
inductive Pc
  | idle
  | missed (name : CName)

inductive Move
  | lookup (name : CName)
  | add

inductive Event
  | missed
  | returned (name : CName) (id : Int)

def lookupSection (d : Names) (name : CName) : Option (Event × Names × Pc) :=
  (d.lookupName name).map fun index =>
    if index ≠ invalidIndex then (.returned name index, d, .idle) else (.missed, d, .missed name)

def addSection (d : Names) (name : CName) : Option (Event × Names × Pc) :=
  match d.lookupName name with
  | none => none
  | some index =>
    if index ≠ invalidIndex then some (.returned name index, d, .idle)
    else (d.add name).map fun r => (.returned name r.1, r.2, .idle)

def getCounterIndex (d : Names) : Pc → Move → Option (Event × Names × Pc)
  | .idle, .lookup name => lookupSection d name
  | .missed name, .add => addSection d name
  | _, _ => none

variable {P : Type*}

abbrev System (P : Type*) := Processes P Names Pc

def opened (raw : Names) : System P := ⟨raw.clear, fun _ => .idle⟩

section

variable [DecidableEq P]

def step (g : System P) : P × Move → Option (Event × System P) :=
  Processes.step (fun _ => getCounterIndex) g

end

def returned : List ((P × Move) × Event) → List (CName × Int)
  | [] => []
  | (_, .returned name id) :: trace => (name, id) :: returned trace
  | _ :: trace => returned trace

def MeasuredAdd (g : System P) : P × Move → Prop
  | (_, .lookup _) => True
  | (p, .add) => ∀ name, g.pc p = .missed name → Measured g.shared (.add name)

/-- `Lookup(id)` yields a string equal to `name` up to case. -/
def Registered (d : Names) (name : CName) (id : Int) : Prop :=
  ∃ offset s, d.lookupId id = some offset ∧ d.getString offset = some s ∧
    strcasecmp s name.1 = 0

def HasRoom (d : Names) (name : CName) : Prop :=
  u32 (d.namesUsed + strlen name + 1) ≤ counterNamesSize.toNat ∧ d.count < counterMaxAmount.toNat

def Takes (d : Names) (name : CName) : Prop :=
  d.lookupName name ≠ some invalidIndex ∨ HasRoom d name

/-- What clients may rely on, in the state a run has reached. -/
structure Consistent [DecidableEq P] (ok : System P → P × Move → Prop)
    (trace : List ((P × Move) × Event)) (g : System P) : Prop where
  ids : ∀ a ∈ returned trace, ∀ b ∈ returned trace, 0 ≤ a.2 → 0 ≤ b.2 →
    (strcasecmp a.1.1 b.1.1 = 0 ↔ a.2 = b.2)
  registered : ∀ a ∈ returned trace, 0 ≤ a.2 → Registered g.shared a.1 a.2
  known : ∀ name id, Registered g.shared name id → ∀ p,
    (g.pc p = .idle → step g (p, .lookup name) =
      some (.returned name id, g.put p (g.shared, .idle))) ∧
    (g.pc p = .missed name → step g (p, .add) =
      some (.returned name id, g.put p (g.shared, .idle)))
  defined : ∀ p name,
    (g.pc p = .idle → ∃ r, step g (p, .lookup name) = some r) ∧
    (g.pc p = .missed name → ok g (p, .add) → ∃ r, step g (p, .add) = some r)
  forever : ∀ trace' g', Run step ok g trace' g' → ∀ id offset,
    g.shared.lookupId id = some offset →
      g'.shared.lookupId id = some offset ∧ g'.shared.getString offset = g.shared.getString offset

theorem returned_append (a b : List ((P × Move) × Event)) :
    returned (a ++ b) = returned a ++ returned b := by
  induction a using returned.induct with
  | case1 => rfl
  | case2 i name id trace ih => simp only [List.cons_append, returned, ih]
  | case3 e trace hother ih =>
    rw [List.cons_append, returned.eq_3 _ _ hother, returned.eq_3 _ _ hother, ih]

section

variable {d d' : Names} {names : List CName} {name : CName} {id : Int}

theorem registered_iff (h : Stores d names) :
    Registered d name id ↔ d.lookupName name = some id ∧ id ≠ invalidIndex := by
  constructor
  · rintro ⟨offset, s, hoffset, hs, heq⟩
    have hid : 0 ≤ id ∧ id < d.count := by
      by_contra hout
      rw [lookupId_none hout] at hoffset
      exact absurd hoffset (by simp)
    obtain ⟨i, hi, rfl⟩ := exists_position h hid.1 hid.2
    rw [h.lookupId_eq hi] at hoffset
    obtain rfl := Option.some_inj.mp hoffset
    rw [h.getString_eq hi] at hs
    obtain rfl := Option.some_inj.mp hs
    exact ⟨(h.lookupName_eq_some_iff (natCast_ne_invalid i)).mpr ⟨i, hi, rfl, heq⟩,
      natCast_ne_invalid i⟩
  · rintro ⟨hlookup, hid⟩
    obtain ⟨i, hi, rfl, heq⟩ := (h.lookupName_eq_some_iff hid).mp hlookup
    exact ⟨_, _, h.lookupId_eq hi, h.getString_eq hi, heq⟩

theorem lookupSection_known (h : d.lookupName name = some id) (hid : id ≠ invalidIndex) :
    lookupSection d name = some (.returned name id, d, .idle) := by
  rw [lookupSection, h, Option.map_some, if_pos hid]

theorem addSection_known (h : d.lookupName name = some id) (hid : id ≠ invalidIndex) :
    addSection d name = some (.returned name id, d, .idle) := by
  simp only [addSection, h, if_pos hid]

theorem lookupSection_missed (h : d.lookupName name = some invalidIndex) :
    lookupSection d name = some (.missed, d, .missed name) := by
  rw [lookupSection, h, Option.map_some, if_neg (not_not.mpr rfl)]

theorem addSection_missed (h : d.lookupName name = some invalidIndex) :
    addSection d name = (d.add name).map fun r => (.returned name r.1, r.2, .idle) := by
  simp only [addSection, h, ne_eq, not_true_eq_false, if_false]

/-- What a section leaves: a dictionary with all it had, where the returned id
is found. -/
structure Answers (d d' : Names) (e : Event) : Prop where
  stores : ∃ names, Stores d' names
  keeps : Keeps d d'
  found : ∀ name id, e = .returned name id → id ≠ invalidIndex → d'.lookupName name = some id

theorem Answers.known (h : Stores d names) (hlookup : d.lookupName name = some id) :
    Answers d d (.returned name id) where
  stores := ⟨names, h⟩
  keeps := .refl d
  found m i heq _ := by
    obtain ⟨rfl, rfl⟩ := Event.returned.inj heq
    exact hlookup

theorem Answers.missed (h : Stores d names) : Answers d d .missed where
  stores := ⟨names, h⟩
  keeps := .refl d
  found _ _ heq := by cases heq

theorem lookupSection_answers (h : Stores d names) (name : CName) :
    ∃ e pc, lookupSection d name = some (e, d, pc) ∧ Answers d d e := by
  have hlookup := h.lookupName_eq name
  by_cases hid : idOf names name = invalidIndex
  · rw [hid] at hlookup
    exact ⟨_, _, lookupSection_missed hlookup, .missed h⟩
  · exact ⟨_, _, lookupSection_known hlookup hid, .known h hlookup⟩

theorem position_eq_none_of_idOf (h : idOf names name = invalidIndex) :
    position names name = none := by
  unfold idOf at h
  cases hposition : position names name with
  | none => rfl
  | some i =>
    rw [hposition] at h
    exact absurd h (natCast_ne_invalid i)

theorem hasRoom_iff (h : Stores d names) : HasRoom d name ↔
    ¬ (counterNamesSize.toNat < u32 ((image names).length + strlen name + 1) ∨
      counterMaxAmount.toNat ≤ names.length) := by
  rw [HasRoom, h.used_eq, h.count_eq]
  omega

theorem add_takes (h : Stores d names) (hok : Measured d (.add name))
    (hnew : position names name = none) (hadd : d.add name = some (id, d')) :
    id ≠ invalidIndex ↔ HasRoom d name := by
  rw [hasRoom_iff h]
  rcases add_cases h hok with ⟨hsame, hspec⟩ | ⟨i, hi, heq, -, -⟩ | ⟨d'', -, hplace, -, hspec⟩
  · have hid : id = invalidIndex := congrArg Prod.fst (Option.some_inj.mp (hadd.symm.trans hsame))
    refine iff_of_false (not_not.mpr hid) fun hroom => ?_
    rw [spec, if_neg hroom, hnew] at hspec
    have hlast := congrArg (List.length ∘ Prod.snd) hspec
    simp at hlast
  · rw [h.position_eq_some hi heq] at hnew
    cases hnew
  · have hid : id = names.length := congrArg Prod.fst (Option.some_inj.mp (hadd.symm.trans hplace))
    refine iff_of_true (hid ▸ natCast_ne_invalid names.length) fun hfull => ?_
    rw [spec, if_pos hfull] at hspec
    have hlast := congrArg (List.length ∘ Prod.snd) hspec
    simp at hlast

theorem addSection_answers (h : Stores d names) (hok : Measured d (.add name)) :
    ∃ id d', addSection d name = some (.returned name id, d', .idle) ∧
      Answers d d' (.returned name id) ∧ (id ≠ invalidIndex ↔ Takes d name) := by
  have hlookup := h.lookupName_eq name
  by_cases hid : idOf names name = invalidIndex
  · have hnew := position_eq_none_of_idOf hid
    rw [hid] at hlookup
    obtain ⟨id, d', hadd, -, hfound, hkeeps⟩ := add_implements h hok
    refine ⟨id, d', ?_, ⟨add_stores h hok hadd, hkeeps, fun m i heq hi => ?_⟩, ?_⟩
    · rw [addSection_missed hlookup, hadd, Option.map_some]
    · obtain ⟨rfl, rfl⟩ := Event.returned.inj heq
      exact hfound hi
    · rw [Takes, hlookup, ← add_takes h hok hnew hadd]
      simp only [ne_eq, not_true_eq_false, false_or]
  · exact ⟨_, _, addSection_known hlookup hid, .known h hlookup,
      iff_of_true hid (.inl (by rw [hlookup]; exact fun heq => hid (Option.some_inj.mp heq)))⟩

theorem getCounterIndex_answers (h : Stores d names) {pc pc' : Pc} {i : Move} {e : Event}
    (hok : ∀ name, i = .add → pc = .missed name → Measured d (.add name))
    (hs : getCounterIndex d pc i = some (e, d', pc')) : Answers d d' e := by
  cases pc with
  | idle =>
    cases i with
    | lookup name =>
      obtain ⟨e', pc', hsection, hanswers⟩ := lookupSection_answers h name
      obtain ⟨rfl, rfl, -⟩ : e' = e ∧ d = d' ∧ _ := by
        simpa using hsection.symm.trans hs
      exact hanswers
    | add => cases hs
  | missed name =>
    cases i with
    | lookup m => cases hs
    | add =>
      obtain ⟨id, d'', hsection, hanswers, -⟩ := addSection_answers h (hok name rfl rfl)
      obtain ⟨rfl, rfl, -⟩ : Event.returned name id = e ∧ d'' = d' ∧ _ := by
        simpa using hsection.symm.trans hs
      exact hanswers

end

structure Sound (trace : List ((P × Move) × Event)) (g : System P) : Prop where
  stores : ∃ names, Stores g.shared names
  found : ∀ a ∈ returned trace, a.2 ≠ invalidIndex → g.shared.lookupName a.1 = some a.2

theorem Sound.opened (raw : Names) : Sound [] (opened raw : System P) where
  stores := ⟨[], .clear raw⟩
  found _ ha := absurd ha List.not_mem_nil

theorem ne_invalid {id : Int} (h : 0 ≤ id) : id ≠ invalidIndex := by
  rintro rfl
  exact absurd h (by decide)

theorem Sound.ids {trace : List ((P × Move) × Event)} {g : System P} (h : Sound trace g)
    {a b : CName × Int} (ha : a ∈ returned trace) (hb : b ∈ returned trace) (hposa : 0 ≤ a.2)
    (hposb : 0 ≤ b.2) :
    strcasecmp a.1.1 b.1.1 = 0 ↔ a.2 = b.2 := by
  obtain ⟨names, hstores⟩ := h.stores
  obtain ⟨i, hi, hida, heqa⟩ :=
    (hstores.lookupName_eq_some_iff (ne_invalid hposa)).mp (h.found a ha (ne_invalid hposa))
  obtain ⟨j, hj, hidb, heqb⟩ :=
    (hstores.lookupName_eq_some_iff (ne_invalid hposb)).mp (h.found b hb (ne_invalid hposb))
  rw [strcasecmp_eq_zero_iff names[i].2 a.1.2] at heqa
  rw [strcasecmp_eq_zero_iff a.1.2 b.1.2]
  constructor
  · intro hfold
    have hsame : strcasecmp names[i].1 b.1.1 = 0 :=
      (strcasecmp_eq_zero_iff names[i].2 b.1.2).mpr (heqa.trans hfold)
    have hposition := hstores.position_eq_some hi hsame
    rw [hstores.position_eq_some hj heqb] at hposition
    rw [hida, hidb, Option.some_inj.mp hposition]
  · intro hid
    obtain rfl : i = j := by omega
    rw [← heqa, (strcasecmp_eq_zero_iff names[i].2 b.1.2).mp heqb]

section

variable [DecidableEq P] {g g' : System P} {trace : List ((P × Move) × Event)} {e : Event}

theorem step_lookup {p : P} {name : CName} {next : Names × Pc} (hpc : g.pc p = .idle)
    (hsection : lookupSection g.shared name = some (e, next)) :
    step g (p, .lookup name) = some (e, g.put p next) := by
  simp only [CounterIndex.step, Processes.step, hpc, getCounterIndex, hsection, Option.map_some]

theorem step_add {p : P} {name : CName} {next : Names × Pc} (hpc : g.pc p = .missed name)
    (hsection : addSection g.shared name = some (e, next)) :
    step g (p, .add) = some (e, g.put p next) := by
  simp only [CounterIndex.step, Processes.step, hpc, getCounterIndex, hsection, Option.map_some]

theorem step_answers (h : ∃ names, Stores g.shared names) {i : P × Move}
    (hok : MeasuredAdd g i) (hs : step g i = some (e, g')) : Answers g.shared g'.shared e := by
  obtain ⟨names, h⟩ := h
  obtain ⟨next, hact, rfl⟩ := Processes.step_cases hs
  refine getCounterIndex_answers h (fun name hadd hpc => ?_) hact
  obtain ⟨p, move⟩ := i
  obtain rfl : move = .add := hadd
  exact hok name hpc

theorem Sound.step (h : Sound trace g) {i : P × Move} (hok : MeasuredAdd g i)
    (hs : step g i = some (e, g')) : Sound (trace ++ [(i, e)]) g' := by
  have hanswers := step_answers h.stores hok hs
  refine ⟨hanswers.stores, fun a ha hid => ?_⟩
  rw [returned_append] at ha
  rcases List.mem_append.mp ha with ha | ha
  · exact hanswers.keeps.name _ _ (h.found a ha hid) hid
  · cases e with
    | missed => exact absurd ha List.not_mem_nil
    | returned name id =>
      obtain rfl := List.mem_singleton.mp ha
      exact hanswers.found name id rfl hid

theorem run_keeps (h : ∃ names, Stores g.shared names) (run : Run step MeasuredAdd g trace g') :
    Keeps g.shared g'.shared := by
  have hall : (∃ names, Stores g'.shared names) ∧ Keeps g.shared g'.shared := by
    refine run.invariant (I := fun g' => (∃ names, Stores g'.shared names) ∧
      Keeps g.shared g'.shared) ⟨h, .refl _⟩ fun s i e s' hinv hok hs => ?_
    have hanswers := step_answers hinv.1 hok hs
    exact ⟨hanswers.stores, hinv.2.trans hanswers.keeps⟩
  exact hall.2

theorem Sound.consistent (h : Sound trace g) : Consistent MeasuredAdd trace g where
  ids a ha b hb hposa hposb := h.ids ha hb hposa hposb
  registered a ha hpos := by
    obtain ⟨names, hstores⟩ := h.stores
    exact (registered_iff hstores).mpr ⟨h.found a ha (ne_invalid hpos), ne_invalid hpos⟩
  known name id hregistered p := by
    obtain ⟨names, hstores⟩ := h.stores
    obtain ⟨hlookup, hid⟩ := (registered_iff hstores).mp hregistered
    exact ⟨fun hpc => step_lookup hpc (lookupSection_known hlookup hid),
      fun hpc => step_add hpc (addSection_known hlookup hid)⟩
  defined p name := by
    obtain ⟨names, hstores⟩ := h.stores
    constructor
    · intro hpc
      obtain ⟨e, pc, hsection, -⟩ := lookupSection_answers hstores name
      exact ⟨_, step_lookup hpc hsection⟩
    · intro hpc hok
      obtain ⟨id, d', hsection, -⟩ := addSection_answers hstores (hok name hpc)
      exact ⟨_, step_add hpc hsection⟩
  forever trace' g' run := (run_keeps h.stores run).id

/-- Whatever the clients' sections do between each other, names and ids stay
consistent in every state a run of measured additions reaches. -/
theorem run_consistent (raw : Names) {trace : List ((P × Move) × Event)} {g : System P}
    (run : Run step MeasuredAdd (opened raw) trace g) : Consistent MeasuredAdd trace g := by
  have h : Sound trace g := run.invariant_trace (I := Sound) (.opened raw)
    fun _ _ _ _ _ h hok hs => h.step hok hs
  exact h.consistent

end

/-- The segment as it is created, filled with zeros. -/
def zeroNames : Names where
  count := 0
  index _ := ⟨0, 0⟩
  namesUsed := 0
  namesStorage _ := 0
  strIndex _ := 0

/-- Two clients miss the same name; the second to come back finds it there. -/
theorem run_consistent_two :
    ∃ trace g, Run step MeasuredAdd (opened zeroNames : System Nat) trace g ∧
      returned trace = [(shortName [97], 0), (shortName [65], 0)] ∧
      Consistent MeasuredAdd trace g := by
  let a := shortName [97]
  let b := shortName [65]
  have hempty := Stores.clear zeroNames
  have hnew : ∀ m ∈ ([] : List CName), strcasecmp m.1 a.1 ≠ 0 :=
    fun _ hm => absurd hm List.not_mem_nil
  obtain ⟨d, hadd, hd⟩ := hempty.add_new hnew (by decide) (by decide) (by decide)
  have hmissed (name : CName) : zeroNames.clear.lookupName name = some invalidIndex :=
    hempty.lookupName_eq name
  have hfound : d.lookupName b = some 0 := hd.lookupName_eq b
  have hokA : Measured zeroNames.clear (.add a) := by
    intro _ _ _
    decide
  have hokB : Measured d (.add b) := by
    intro _ _ _
    rw [hd.used_eq]
    decide
  have hadded : addSection zeroNames.clear a = some (.returned a 0, d, .idle) := by
    rw [addSection_missed (hmissed a), hadd]
    rfl
  have run1 : Run step MeasuredAdd (opened zeroNames : System Nat) _ _ :=
    .next (i := (0, Move.lookup a)) .start trivial
      (step_lookup rfl (lookupSection_missed (hmissed a)))
  have run2 := run1.next (i := (1, Move.lookup b)) trivial
    (step_lookup rfl (lookupSection_missed (hmissed b)))
  have run3 := run2.next (i := (0, Move.add)) (fun name hpc => by
      obtain rfl : a = name := Pc.missed.inj hpc
      exact hokA)
    (step_add rfl hadded)
  have run4 := run3.next (i := (1, Move.add)) (fun name hpc => by
      obtain rfl : b = name := Pc.missed.inj hpc
      exact hokB)
    (step_add rfl (addSection_known hfound (by decide)))
  exact ⟨_, _, run4, rfl, run_consistent zeroNames run4⟩

/-- The dictionary takes a name in of which it can keep nothing. -/
theorem run_overlong_inconsistent :
    ¬ ∀ (raw : Names) (trace : List ((Nat × Move) × Event)) (g : System Nat),
      Run step (fun _ _ => True) (opened raw) trace g → Consistent (fun _ _ => True) trace g := by
  intro hall
  generalize hname : longName (2 ^ 32 - 1) = name
  have hlen : strlen name = 2 ^ 32 - 1 := by
    rw [← hname, strlen_longName]
  obtain ⟨d, hadd, -⟩ := add_longName zeroNames (by decide) hlen
  have hmissed : zeroNames.clear.lookupName name = some invalidIndex :=
    (Stores.clear zeroNames).lookupName_eq name
  have hadded : addSection zeroNames.clear name = some (.returned name 0, d, .idle) := by
    rw [addSection_missed hmissed, hadd]
    rfl
  have run : Run step (fun _ _ => True) (opened zeroNames : System Nat) _ _ :=
    .next (i := (0, Move.add)) (.next (i := (0, Move.lookup name)) .start trivial
      (step_lookup rfl (lookupSection_missed hmissed))) trivial (step_add rfl hadded)
  obtain ⟨offset, s, -, hs, heq⟩ :=
    (hall _ _ _ run).registered (name, 0) (List.mem_singleton.mpr rfl) (Int.le_refl 0)
  obtain ⟨hnul, hshort⟩ := getString_bounds hs
  have hfold := congrArg List.length ((strcasecmp_eq_zero_iff hnul name.2).mp heq)
  simp only [fold, List.length_map] at hfold
  have hsize : counterNamesSize.toNat = 255000 := by decide
  rw [strlen] at hlen
  omega

end HiloUtils.CounterIndex
