import HiloUtils.Dictionary
import HiloUtils.Run

/-! What the dictionary is for: a case-insensitive map from names to ids given
in insertion order, read off the history of successful additions. -/

namespace HiloUtils.DictionaryMap

open Word SortedArray CString Dictionary

inductive Op
  | clear
  | add (name : CName)

inductive Out
  | cleared
  | added (id : Int)

variable {size storageSize : UInt32}

def step (d : CDictionary size storageSize) : Op → Option (Out × CDictionary size storageSize)
  | .clear => some (.cleared, d.clear)
  | .add name => (d.add name).map fun r => (.added r.1, r.2)

/-- The dictionary as its names in insertion order; a name's id is its position. -/
def spec (size storageSize : UInt32) (names : List CName) : Op → Out × List CName
  | .clear => (.cleared, [])
  | .add name =>
    if storageSize.toNat < u32 ((image names).length + strlen name + 1) ∨
        size.toNat ≤ names.length then
      (.added invalidIndex, names)
    else
      match position names name with
      | some i => (.added i, names)
      | none => (.added names.length, names ++ [name])

def remember (history : List (CName × Int)) : Op × Out → List (CName × Int)
  | (.clear, _) => []
  | (.add name, .added id) => if id = invalidIndex then history else history ++ [(name, id)]
  | (.add _, .cleared) => history

def sinceClear (trace : List (Op × Out)) : List (CName × Int) := trace.foldl remember []

def firstId (history : List (CName × Int)) (name : CName) : Int :=
  match history.find? fun e => strcasecmp e.1.1 name.1 = 0 with
  | some e => e.2
  | none => invalidIndex

def firstName (history : List (CName × Int)) (id : Int) : Option CName :=
  (history.find? fun e => e.2 = id).map Prod.fst

def Holds (d : CDictionary size storageSize) (name : CName) : Prop :=
  ∃ r ∈ d.getIndex, ∃ s, d.getString r.nameOffset = some s ∧ strcasecmp s name.1 = 0

/-- A new name that the 32-bit check lets in has room, and a size that `int`
can hold. -/
def Measured (d : CDictionary size storageSize) : Op → Prop
  | .clear => True
  | .add name =>
    d.count < size.toNat → u32 (d.namesUsed + strlen name + 1) ≤ storageSize.toNat →
      ¬ Holds d name →
      d.namesUsed + strlen name + 1 ≤ storageSize.toNat ∧ strlen name + 1 < 2 ^ 31

def Before (d : CDictionary size storageSize) (a b : NameRec) : Prop :=
  ∃ s t, d.getString a.nameOffset = some s ∧ d.getString b.nameOffset = some t ∧
    strcasecmp s t < 0

/-- Names one after the other from the start of the storage, each with its NUL. -/
structure Spans (d : CDictionary size storageSize) (names : List CName) : Prop where
  count_eq : d.count = names.length
  bytes : image names <+: live d.namesStorage storageSize.toNat
  used_eq : d.namesUsed = (names.map fun name => strlen name + 1).sum
  used_le : d.namesUsed ≤ storageSize.toNat
  offsets : ∀ i < names.length,
    d.strIndex i = ((names.take i).map fun name => strlen name + 1).sum

/-- Every id handed out keeps its name, its string and its storage offset. -/
structure Keeps (d d' : CDictionary size storageSize) : Prop where
  name : ∀ name id, d.lookupName name = some id → id ≠ invalidIndex →
    d'.lookupName name = some id
  id : ∀ id offset, d.lookupId id = some offset →
    d'.lookupId id = some offset ∧ d'.getString offset = d.getString offset

theorem Keeps.refl (d : CDictionary size storageSize) : Keeps d d :=
  ⟨fun _ _ hlookup _ => hlookup, fun _ _ hlookup => ⟨hlookup, rfl⟩⟩

theorem Keeps.trans {a b c : CDictionary size storageSize} (hab : Keeps a b) (hbc : Keeps b c) :
    Keeps a c where
  name m id hlookup hid := hbc.name m id (hab.name m id hlookup hid) hid
  id id offset hlookup := by
    obtain ⟨hlookup', hstring⟩ := hab.id id offset hlookup
    obtain ⟨hlookup'', hstring'⟩ := hbc.id id offset hlookup'
    exact ⟨hlookup'', hstring'.trans hstring⟩

structure Implements (d : CDictionary size storageSize) (history : List (CName × Int)) :
    Prop where
  sorted : d.getIndex.Pairwise (Before d)
  ids : (d.getIndex.map NameRec.id).Perm ((List.range d.count.toNat).map fun i : Nat => (i : Int))
  offsets : ∀ r ∈ d.getIndex, r.nameOffset = d.strIndex r.id.toNat
  spans : ∃ names, Spans d names
  lookup_name : ∀ name, d.lookupName name = some (firstId history name)
  lookup_id : ∀ id, 0 ≤ id → id < d.count → ∃ offset name, d.lookupId id = some offset ∧
    d.getString offset = some name.1 ∧ firstName history id = some name
  lookup_null : ∀ id, ¬ (0 ≤ id ∧ id < d.count) → d.lookupId id = none
  add : ∀ name, Measured d (.add name) → ∃ id d', d.add name = some (id, d') ∧
    (id = invalidIndex → d' = d) ∧ (id ≠ invalidIndex → d'.lookupName name = some id) ∧
    Keeps d d'

structure Recorded (history : List (CName × Int)) (names : List CName) : Prop where
  first : ∀ i, (hi : i < names.length) → firstName history i = some names[i]
  known : ∀ e ∈ history, ∃ i, ∃ hi : i < names.length, e.2 = i ∧
    strcasecmp names[i].1 e.1.1 = 0

theorem firstId_eq {d : CDictionary size storageSize} {history : List (CName × Int)}
    {names : List CName} (h : Stores d names) (hr : Recorded history names) (name : CName) :
    firstId history name = idOf names name := by
  unfold firstId
  cases hfind : history.find? fun e => strcasecmp e.1.1 name.1 = 0 with
  | some e =>
    obtain ⟨i, hi, hid, heq⟩ := hr.known e (List.mem_of_find?_eq_some hfind)
    have hmatch : strcasecmp e.1.1 name.1 = 0 := by simpa using List.find?_some hfind
    rw [strcasecmp_eq_zero_iff e.1.2 name.2] at hmatch
    rw [strcasecmp_eq_zero_iff names[i].2 e.1.2, hmatch,
      ← strcasecmp_eq_zero_iff names[i].2 name.2] at heq
    simp only [idOf, h.position_eq_some hi heq, hid]
  | none =>
    have hnew : ∀ m ∈ names, strcasecmp m.1 name.1 ≠ 0 := by
      intro m hm
      obtain ⟨i, hi, rfl⟩ := List.getElem_of_mem hm
      obtain ⟨e, he, hname⟩ := Option.map_eq_some_iff.mp (hr.first i hi)
      rw [← hname]
      simpa using List.find?_eq_none.mp hfind e (List.mem_of_find?_eq_some he)
    simp only [idOf, Stores.position_eq_none hnew]

namespace Recorded

variable {history : List (CName × Int)} {names : List CName}

theorem again (h : Recorded history names) {name : CName} {i : Nat} (hi : i < names.length)
    (heq : strcasecmp names[i].1 name.1 = 0) : Recorded (history ++ [(name, (i : Int))]) names where
  first j hj := by
    rw [firstName, List.find?_append, Option.map_or, ← firstName, h.first j hj, Option.some_or]
  known e he := by
    rcases List.mem_append.mp he with he | he
    · exact h.known e he
    · rw [List.mem_singleton.mp he]
      exact ⟨i, hi, rfl, heq⟩

theorem new (h : Recorded history names) (name : CName) :
    Recorded (history ++ [(name, (names.length : Int))]) (names ++ [name]) where
  first j hj := by
    rw [firstName, List.find?_append, Option.map_or, ← firstName]
    rcases Nat.lt_or_ge j names.length with hlt | hge
    · rw [h.first j hlt, Option.some_or, List.getElem_append_left hlt]
    · obtain rfl : j = names.length := by
        rw [List.length_append, List.length_singleton] at hj
        omega
      have hnone : history.find? (fun e => e.2 = (names.length : Int)) = none := by
        refine List.find?_eq_none.mpr fun e he => ?_
        obtain ⟨i, hi, hid, -⟩ := h.known e he
        rw [hid, decide_eq_true_eq]
        omega
      rw [firstName, hnone]
      simp
  known e he := by
    rcases List.mem_append.mp he with he | he
    · obtain ⟨i, hi, hid, heq⟩ := h.known e he
      refine ⟨i, by rw [List.length_append]; omega, hid, ?_⟩
      rwa [List.getElem_append_left hi]
    · rw [List.mem_singleton.mp he]
      refine ⟨names.length, by simp, rfl, ?_⟩
      rw [List.getElem_concat_length rfl, strcasecmp_eq_zero_iff name.2 name.2]

end Recorded

section

variable {d : CDictionary size storageSize} {names : List CName}

theorem getIndex_eq (h : Stores d names) : d.getIndex = live d.index names.length := by
  rw [CDictionary.getIndex, h.count_eq, Int.toNat_natCast]

theorem not_holds (h : Stores d names) {name : CName}
    (hnew : ∀ m ∈ names, strcasecmp m.1 name.1 ≠ 0) : ¬ Holds d name := by
  rintro ⟨r, hr, s, hs, heq⟩
  rw [getIndex_eq h] at hr
  obtain ⟨i, hi, -, hoff, -⟩ := h.mem_index hr
  rw [hoff, h.getString_eq hi] at hs
  obtain rfl := Option.some_inj.mp hs
  exact hnew _ (List.getElem_mem hi) heq

theorem add_cases (h : Stores d names) {name : CName} (hok : Measured d (.add name)) :
    (d.add name = some (invalidIndex, d) ∧
        spec size storageSize names (.add name) = (.added invalidIndex, names)) ∨
      (∃ i, ∃ hi : i < names.length, strcasecmp names[i].1 name.1 = 0 ∧
        d.add name = some ((i : Int), d) ∧
        spec size storageSize names (.add name) = (.added i, names)) ∨
      ∃ d', (∀ m ∈ names, strcasecmp m.1 name.1 ≠ 0) ∧
        d.add name = some ((names.length : Int), d') ∧ Stores d' (names ++ [name]) ∧
        spec size storageSize names (.add name) = (.added names.length, names ++ [name]) := by
  by_cases hfull : storageSize.toNat < u32 ((image names).length + strlen name + 1) ∨
      size.toNat ≤ names.length
  · exact .inl ⟨h.add_refused hfull, by rw [spec, if_pos hfull]⟩
  · obtain ⟨hroom, hcount⟩ : u32 ((image names).length + strlen name + 1) ≤ storageSize.toNat ∧
        names.length < size.toNat := by omega
    rcases h.add_accepted hroom hcount with ⟨i, hi, heq, hadd⟩ | ⟨hnew, p, hsplit, hadd⟩
    · refine .inr (.inl ⟨i, hi, heq, hadd, ?_⟩)
      rw [spec, if_neg hfull, h.position_eq_some hi heq]
    · have hcount' : d.count < size.toNat := by
        rw [h.count_eq]
        omega
      obtain ⟨hfits, hlen⟩ := hok hcount' (by rw [h.used_eq]; exact hroom) (not_holds h hnew)
      rw [h.used_eq, Nat.add_assoc] at hfits
      obtain ⟨d', hplace, hstores⟩ := h.place hsplit hnew hfits hlen
      refine .inr (.inr ⟨d', hnew, hadd.trans hplace, hstores, ?_⟩)
      rw [spec, if_neg hfull, Stores.position_eq_none hnew]

theorem sinceClear_append (trace : List (Op × Out)) (e : Op × Out) :
    sinceClear (trace ++ [e]) = remember (sinceClear trace) e := by
  rw [sinceClear, List.foldl_append, List.foldl_cons, List.foldl_nil, ← sinceClear]

structure Refines (trace : List (Op × Out)) (d : CDictionary size storageSize)
    (names : List CName) : Prop where
  stores : Stores d names
  recorded : Recorded (sinceClear trace) names

theorem natCast_ne_invalid (i : Nat) : (i : Int) ≠ invalidIndex := by
  unfold invalidIndex
  omega

theorem Refines.step {trace : List (Op × Out)} (h : Refines trace d names) {op : Op}
    (hok : Measured d op) :
    ∃ d', step d op = some ((spec size storageSize names op).1, d') ∧
      Refines (trace ++ [(op, (spec size storageSize names op).1)]) d'
        (spec size storageSize names op).2 := by
  cases op with
  | clear =>
    refine ⟨d.clear, rfl, .clear d, ?_⟩
    rw [sinceClear_append]
    exact ⟨fun i hi => absurd hi (Nat.not_lt_zero i), fun _ he => absurd he List.not_mem_nil⟩
  | add name =>
    rcases add_cases h.stores hok with ⟨hadd, hspec⟩ | ⟨i, hi, heq, hadd, hspec⟩ |
      ⟨d', hnew, hadd, hstores, hspec⟩
    · refine ⟨d, by rw [DictionaryMap.step, hadd, hspec]; rfl, by rw [hspec]; exact h.stores, ?_⟩
      rw [hspec, sinceClear_append, remember, if_pos rfl]
      exact h.recorded
    · refine ⟨d, by rw [DictionaryMap.step, hadd, hspec]; rfl, by rw [hspec]; exact h.stores, ?_⟩
      rw [hspec, sinceClear_append, remember, if_neg (natCast_ne_invalid i)]
      exact h.recorded.again hi heq
    · refine ⟨d', by rw [DictionaryMap.step, hadd, hspec]; rfl, by rw [hspec]; exact hstores, ?_⟩
      rw [hspec, sinceClear_append, remember, if_neg (natCast_ne_invalid names.length)]
      exact h.recorded.new name

theorem lookupId_none {id : Int} (hid : ¬ (0 ≤ id ∧ id < d.count)) :
    d.lookupId id = none := by
  rw [CDictionary.lookupId, if_pos]
  omega

theorem exists_position (h : Stores d names) {id : Int} (hpos : 0 ≤ id) (hlt : id < d.count) :
    ∃ i : Nat, i < names.length ∧ id = i := by
  rw [h.count_eq] at hlt
  exact ⟨id.toNat, by omega, by omega⟩

theorem keeps_append {d' : CDictionary size storageSize} {name : CName} (h : Stores d names)
    (h' : Stores d' (names ++ [name])) : Keeps d d' where
  name m id hlookup hid := by
    rw [h.lookupName_eq, idOf] at hlookup
    rw [h'.lookupName_eq, idOf]
    cases hposition : position names m with
    | none =>
      rw [hposition] at hlookup
      exact absurd (Option.some_inj.mp hlookup).symm hid
    | some i =>
      rw [hposition] at hlookup
      rw [position, List.findIdx?_append, ← position, hposition, Option.some_or]
      exact hlookup
  id id offset hlookup := by
    by_cases hid : 0 ≤ id ∧ id < d.count
    · obtain ⟨i, hi, rfl⟩ := exists_position h hid.1 hid.2
      have hi' : i < (names ++ [name]).length := by
        rw [List.length_append]
        omega
      have hoff : d'.strIndex i = d.strIndex i := by
        rw [h.offsets i hi, h'.offsets i hi', List.take_append_of_le_length (Nat.le_of_lt hi)]
      rw [h.lookupId_eq hi] at hlookup
      obtain rfl := Option.some_inj.mp hlookup
      refine ⟨by rw [h'.lookupId_eq hi', hoff], ?_⟩
      rw [h.getString_eq hi, ← hoff, h'.getString_eq hi', List.getElem_append_left hi]
    · rw [lookupId_none hid] at hlookup
      exact absurd hlookup (by simp)

theorem before_of_lt (h : Stores d names) {a b : NameRec} (ha : a ∈ d.getIndex)
    (hb : b ∈ d.getIndex) (hlt : entryKey names a < entryKey names b) : Before d a b := by
  rw [getIndex_eq h] at ha hb
  obtain ⟨i, hi, -, hai, hkeya⟩ := h.mem_index ha
  obtain ⟨j, hj, -, hbj, hkeyb⟩ := h.mem_index hb
  refine ⟨names[i].1, names[j].1, ?_, ?_, ?_⟩
  · rw [hai, h.getString_eq hi]
  · rw [hbj, h.getString_eq hj]
  rw [strcasecmp_neg_iff names[i].2 names[j].2, ← hkeya, ← hkeyb]
  exact hlt

theorem spans (h : Stores d names) : Spans d names where
  count_eq := h.count_eq
  bytes := h.bytes
  used_eq := by rw [h.used_eq, image_length]
  used_le := by
    rw [h.used_eq]
    exact h.used_le
  offsets i hi := by rw [h.offsets i hi, image_length]

theorem add_implements (h : Stores d names) {name : CName} (hok : Measured d (.add name)) :
    ∃ id d', d.add name = some (id, d') ∧ (id = invalidIndex → d' = d) ∧
      (id ≠ invalidIndex → d'.lookupName name = some id) ∧ Keeps d d' := by
  rcases add_cases h hok with ⟨hadd, -⟩ | ⟨i, hi, heq, hadd, -⟩ | ⟨d', hnew, hadd, hstores, -⟩
  · exact ⟨_, d, hadd, fun _ => rfl, fun hne => absurd rfl hne, .refl d⟩
  · refine ⟨_, d, hadd, fun _ => rfl, fun _ => ?_, .refl d⟩
    rw [h.lookupName_eq, idOf, h.position_eq_some hi heq]
  · refine ⟨_, d', hadd, fun hid => absurd hid (natCast_ne_invalid _), fun _ => ?_,
      keeps_append h hstores⟩
    have hself : strcasecmp name.1 name.1 = 0 := (strcasecmp_eq_zero_iff name.2 name.2).mpr rfl
    have hlast : names.length < (names ++ [name]).length := by simp
    rw [hstores.lookupName_eq, idOf, hstores.position_eq_some hlast (by
      rw [List.getElem_concat_length rfl]
      exact hself)]

theorem add_stores (h : Stores d names) {name : CName} {id : Int}
    {d' : CDictionary size storageSize} (hok : Measured d (.add name))
    (hadd : d.add name = some (id, d')) : ∃ names, Stores d' names := by
  rcases add_cases h hok with ⟨hsame, -⟩ | ⟨i, -, -, hsame, -⟩ | ⟨d'', -, hnew, hstores, -⟩
  · rw [hadd] at hsame
    have heq : d' = d := Run.state_eq hsame
    exact ⟨names, heq ▸ h⟩
  · rw [hadd] at hsame
    have heq : d' = d := Run.state_eq hsame
    exact ⟨names, heq ▸ h⟩
  · rw [hadd] at hnew
    have heq : d' = d'' := Run.state_eq hnew
    exact ⟨_, heq ▸ hstores⟩

theorem Refines.implements {trace : List (Op × Out)} (h : Refines trace d names) :
    Implements d (sinceClear trace) where
  sorted := by
    have hsorted := h.stores.sorted
    rw [← getIndex_eq h.stores] at hsorted
    exact List.Pairwise.imp_of_mem (fun ha hb hlt => before_of_lt h.stores ha hb hlt) hsorted
  ids := by
    rw [getIndex_eq h.stores, h.stores.count_eq, Int.toNat_natCast]
    exact h.stores.ids
  offsets r hr := h.stores.entries r (by rwa [getIndex_eq h.stores] at hr)
  spans := ⟨names, DictionaryMap.spans h.stores⟩
  lookup_name name := by rw [h.stores.lookupName_eq, firstId_eq h.stores h.recorded]
  lookup_id id hpos hlt := by
    obtain ⟨i, hi, rfl⟩ := exists_position h.stores hpos hlt
    exact ⟨_, _, h.stores.lookupId_eq hi, h.stores.getString_eq hi, h.recorded.first i hi⟩
  lookup_null _ hid := lookupId_none hid
  add name hok := add_implements h.stores hok

end

theorem Refines.clear (raw : CDictionary size storageSize) : Refines [] raw.clear [] where
  stores := .clear raw
  recorded := ⟨fun i hi => absurd hi (Nat.not_lt_zero i), fun _ he => absurd he List.not_mem_nil⟩

theorem refines_of_run {size storageSize : UInt32} (raw : CDictionary size storageSize)
    {trace : List (Op × Out)} {d : CDictionary size storageSize}
    (run : Run step Measured raw.clear trace d) : ∃ names, Refines trace d names := by
  have hstep (trace : List (Op × Out)) (d : CDictionary size storageSize) (names : List CName)
      (op : Op) (h : Refines trace d names) (hok : Measured d op) (_ : True) :=
    h.step hok
  obtain ⟨-, h⟩ := run.refines_trace (R := Refines) (B := fun _ => True) (.clear raw)
    (fun _ _ _ => trivial) hstep trivial
  exact ⟨_, h⟩

/-- In every run whose additions are measured right, the dictionary is the map
its history describes. -/
theorem run_implements {size storageSize : UInt32} (raw : CDictionary size storageSize)
    {trace : List (Op × Out)} {d : CDictionary size storageSize}
    (run : Run step Measured raw.clear trace d) : Implements d (sinceClear trace) := by
  obtain ⟨names, h⟩ := refines_of_run raw run
  exact h.implements

def blank : CDictionary 500 65000 where
  count := 0
  index _ := ⟨0, 0⟩
  namesUsed := 0
  namesStorage _ := 0
  strIndex _ := 0

def shortName (bytes : List UInt8) (h : 0 ∉ bytes := by decide) : CName := ⟨bytes, h⟩

theorem firstId_single (name : CName) :
    firstId (sinceClear [(.add name, .added 0)]) name = 0 := by
  have hself : strcasecmp name.1 name.1 = 0 := (strcasecmp_eq_zero_iff name.2 name.2).mpr rfl
  have hhistory : sinceClear [(.add name, .added 0)] = [(name, 0)] := rfl
  rw [hhistory, firstId, List.find?_cons_of_pos (by simpa using hself)]

theorem run_first (raw : CDictionary size storageSize) (name : CName)
    (hroom : strlen name + 1 ≤ storageSize.toNat) (hlen : strlen name + 1 < 2 ^ 31)
    (hsize : 0 < size.toNat) :
    ∃ d, Run step Measured raw.clear [(.add name, .added 0)] d ∧ Stores d [name] := by
  have hfits : (image []).length + (strlen name + 1) ≤ storageSize.toNat := by
    rw [image_nil, List.length_nil]
    omega
  obtain ⟨d, hadd, hstores⟩ := (Stores.clear raw).add_new (by simp) hfits hlen hsize
  have hstep : step raw.clear (.add name) = some (.added 0, d) := by
    rw [step, hadd]
    rfl
  have hok : Measured raw.clear (.add name) := fun _ _ _ => by
    change 0 + strlen name + 1 ≤ storageSize.toNat ∧ _
    omega
  exact ⟨d, Run.start.next hok hstep, hstores⟩

theorem run_implements_short :
    ∃ d, Run step Measured blank.clear
      [(.add (shortName [98]), .added 0), (.add (shortName [97]), .added 1),
        (.add (shortName [66]), .added 0)] d ∧
      Implements d [(shortName [98], 0), (shortName [97], 1), (shortName [66], 0)] := by
  have hfits {d : CDictionary 500 65000} {names : List CName} {name : CName}
      (h : Stores d names) (hroom : (image names).length + strlen name + 1 ≤ 65000) :
      Measured d (.add name) := by
    intro _ _ _
    rw [h.used_eq]
    exact ⟨hroom, by omega⟩
  have h0 := Refines.clear blank
  have hok0 : Measured blank.clear (.add (shortName [98])) := hfits h0.stores (by decide)
  obtain ⟨d1, hs1, h1⟩ := h0.step hok0
  have hok1 : Measured d1 (.add (shortName [97])) := hfits h1.stores (by decide)
  obtain ⟨d2, hs2, h2⟩ := h1.step hok1
  have hok2 : Measured d2 (.add (shortName [66])) := hfits h2.stores (by decide)
  obtain ⟨d3, hs3, -⟩ := h2.step hok2
  have run := ((Run.start.next hok0 hs1).next hok1 hs2).next hok2 hs3
  exact ⟨d3, run, run_implements blank run⟩

def longName (n : Nat) : CName :=
  ⟨List.replicate n 97, fun h => absurd (List.eq_of_mem_replicate h) (by decide)⟩

theorem strlen_longName (n : Nat) : strlen (longName n) = n := List.length_replicate ..

/-- The size of this name is zero in 32 bits, so `Add` takes it in and copies
nothing of it. -/
theorem add_longName (raw : CDictionary size storageSize) {name : CName} (hsize : 0 < size)
    (hlen : strlen name = 2 ^ 32 - 1) :
    ∃ d, raw.clear.add name = some (0, d) ∧ d.count = 1 ∧ d.namesUsed = 0 := by
  have hlow : i32 (strlen name) = -1 := by
    rw [hlen]
    decide
  have hsearch : raw.clear.search name.1 = some 0 := by
    rw [CDictionary.search, lowerBound]
    rfl
  have hcopied : i32 (-1 + 1) = 0 := by decide
  have hplace : ∃ d, raw.clear.place 0 name = some (0, d) ∧ d.count = 1 ∧ d.namesUsed = 0 := by
    have hfits :
        ¬ ((0 : Int) < 0 ∨ (storageSize.toNat : Int) < raw.clear.namesUsed + (0 : Int)) := by
      change ¬ ((0 : Int) < 0 ∨ (storageSize.toNat : Int) < (0 : Nat) + (0 : Int))
      omega
    have hone : i32 (raw.clear.count + 1) = 1 := by
      change i32 (0 + 1) = 1
      decide
    have hzero : u32 (raw.clear.namesUsed + ofI32 0) = 0 := by
      change u32 (0 + ofI32 0) = 0
      decide
    simp only [CDictionary.place, hlow, hcopied]
    rw [if_neg hfits]
    exact ⟨_, rfl, hone, hzero⟩
  have hroom : ¬ storageSize.toNat < u32 (raw.clear.namesUsed + ofI32 (-1) + 1) := by
    change ¬ storageSize.toNat < u32 (0 + ofI32 (-1) + 1)
    have hzero : u32 (0 + ofI32 (-1) + 1) = 0 := by decide
    omega
  have hfree : ¬ (size.toNat : Int) ≤ raw.clear.count := by
    change ¬ (size.toNat : Int) ≤ 0
    have hpos : 0 < size.toNat := UInt32.lt_iff_toNat_lt.mp hsize
    omega
  have hend : ¬ ((0 : Nat) : Int) ≠ raw.clear.count := by
    change ¬ ((0 : Nat) : Int) ≠ 0
    decide
  rw [CDictionary.add, hlow, if_neg hroom, if_neg hfree]
  simp only [hsearch, if_neg hend]
  exact hplace

theorem run_overlong_misreports :
    ∃ d, Run step (fun _ _ => True) blank.clear [(.add (longName (2 ^ 32 - 1)), .added 0)] d ∧
      d.namesUsed = 0 ∧ ¬ Implements d (sinceClear [(.add (longName (2 ^ 32 - 1)), .added 0)]) := by
  generalize hname : longName (2 ^ 32 - 1) = name
  have hlen : strlen name = 2 ^ 32 - 1 := by
    rw [← hname, strlen_longName]
  obtain ⟨d, hadd, hcount, hused⟩ := add_longName blank (by decide) hlen
  have hstep : step blank.clear (.add name) = some (.added 0, d) := by
    rw [step, hadd]
    rfl
  refine ⟨d, Run.start.next trivial hstep, hused, ?_⟩
  intro h
  obtain ⟨names, hspans⟩ := h.spans
  have hone : names.length = 1 := by
    have hcount' := hspans.count_eq
    omega
  obtain ⟨m, rfl⟩ := List.length_eq_one_iff.mp hone
  have hsum := hspans.used_eq
  simp [hused] at hsum

end HiloUtils.DictionaryMap
