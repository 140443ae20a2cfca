import HiloUtils.CounterIndex
import HiloUtils.HistoryCounterData

/-! `HistoryCounters`: the dictionary of the history counters and their slots.
`GetCounterPtr` goes through `Add` alone, `GetCounterIndex` looks the name up
first. -/

namespace HiloUtils.HistoryCounters

open Word CString Dictionary DictionaryMap CounterIndex

def counterMaxAmountHistory : UInt32 := 500

def counterNamesSizeHistory : UInt32 := (counterAvgNameLen + 1) * counterMaxAmountHistory

abbrev HistoryNames := CDictionary counterMaxAmountHistory counterNamesSizeHistory

inductive HistoryCounterType
  | count
  | volume
  | call
  deriving DecidableEq

structure Slot where
  data : HistoryCounterData
  type : HistoryCounterType

structure HistoryCountersData where
  dict : HistoryNames
  counters : Int → Slot

namespace HistoryCountersData

/-- A pointer is the slot's index, NULL is `none`. -/
def getCounterPtr (g : HistoryCountersData) (name : CName) :
    Option (Option Int × HistoryCountersData) :=
  (g.dict.add name).map fun r =>
    (if r.1 = invalidIndex then none else some r.1, { g with dict := r.2 })

def getCounterIndex (g : HistoryCountersData) (name : CName) : Option (Int × HistoryCountersData) :=
  match g.dict.lookupName name with
  | none => none
  | some index =>
    if index ≠ invalidIndex then some (index, g)
    else (g.dict.add name).map fun r => (r.1, { g with dict := r.2 })

def setType (g : HistoryCountersData) (index : Int) (type : HistoryCounterType) :
    HistoryCountersData :=
  { g with counters := Function.update g.counters index { g.counters index with type := type } }

end HistoryCountersData

structure HistoryCounter where
  name : CName
  d : Option Int
  type : HistoryCounterType

/-- `SetType` through NULL has no result. -/
def HistoryCounter.init (c : HistoryCounter) (g : HistoryCountersData) :
    Option (HistoryCounter × HistoryCountersData) :=
  match c.d with
  | some _ => some (c, g)
  | none =>
    (g.getCounterPtr c.name).bind fun r =>
      r.1.map fun index => ({ c with d := some index }, r.2.setType index c.type)

/-- The two checks `Add` makes before it searches. -/
def Admits {size storageSize : UInt32} (d : CDictionary size storageSize) (name : CName) : Prop :=
  d.count < size.toNat ∧ u32 (d.namesUsed + strlen name + 1) ≤ storageSize.toNat

/-- What a registered counter may expect: both routes give its slot, nothing
changes, and a `HistoryCounter` of that name comes to it. -/
structure Serves (g : HistoryCountersData) (name : CName) (id : Int) : Prop where
  ptr : g.getCounterPtr name = some (some id, g)
  index : g.getCounterIndex name = some (id, g)
  init : ∀ type, HistoryCounter.init ⟨name, none, type⟩ g =
    some (⟨name, some id, type⟩, g.setType id type)

section

variable {size storageSize : UInt32} {d : CDictionary size storageSize} {names : List CName}

theorem add_position_iff (h : Stores d names) {name : CName} {i : Nat} (hi : i < names.length)
    (heq : strcasecmp names[i].1 name.1 = 0) :
    d.add name = some ((i : Int), d) ↔ Admits d name := by
  rw [Admits, h.count_eq, h.used_eq]
  constructor
  · intro hadd
    by_contra hfull
    have hrefused : d.add name = some (invalidIndex, d) := h.add_refused (by omega)
    rw [hadd] at hrefused
    exact natCast_ne_invalid i (congrArg Prod.fst (Option.some_inj.mp hrefused))
  · rintro ⟨hcount, hroom⟩
    rcases h.add_accepted hroom (by omega) with ⟨j, hj, hsame, hadd⟩ | ⟨hnew, -⟩
    · have hposition := h.position_eq_some hi heq
      rw [h.position_eq_some hj hsame] at hposition
      rw [hadd, Option.some_inj.mp hposition]
    · exact absurd heq (hnew _ (List.getElem_mem hi))

theorem firstId_known {trace : List (Op × Out)} (h : Refines trace d names) {name : CName}
    (hknown : firstId (sinceClear trace) name ≠ invalidIndex) :
    ∃ i, ∃ hi : i < names.length, firstId (sinceClear trace) name = i ∧
      strcasecmp names[i].1 name.1 = 0 := by
  have hlookup := h.stores.lookupName_eq name
  rw [← firstId_eq h.stores h.recorded] at hlookup
  exact (h.stores.lookupName_eq_some_iff hknown).mp hlookup

end

theorem getCounterIndex_eq {g : HistoryCountersData} {name : CName} {id : Int}
    (hlookup : g.dict.lookupName name = some id) :
    g.getCounterIndex name = if id ≠ invalidIndex then some (id, g)
      else (g.dict.add name).map fun r => (r.1, { g with dict := r.2 }) := by
  unfold HistoryCountersData.getCounterIndex
  rw [hlookup]

theorem getCounterIndex_known {g : HistoryCountersData} {name : CName} {id : Int}
    (hlookup : g.dict.lookupName name = some id) (hid : id ≠ invalidIndex) :
    g.getCounterIndex name = some (id, g) :=
  (getCounterIndex_eq hlookup).trans (if_pos hid)

theorem getCounterPtr_known {g : HistoryCountersData} {name : CName} {id : Int}
    (hadd : g.dict.add name = some (id, g.dict)) (hid : id ≠ invalidIndex) :
    g.getCounterPtr name = some (some id, g) := by
  rw [HistoryCountersData.getCounterPtr, hadd, Option.map_some, if_neg hid]

theorem add_of_getCounterPtr {g : HistoryCountersData} {name : CName} {id : Int}
    (hptr : g.getCounterPtr name = some (some id, g)) :
    g.dict.add name = some (id, g.dict) := by
  obtain ⟨⟨given, d⟩, hadd, heq⟩ := Option.map_eq_some_iff.mp hptr
  obtain ⟨hgiven, hg⟩ := Prod.mk.inj heq
  have hd : d = g.dict := congrArg HistoryCountersData.dict hg
  by_cases hinvalid : given = invalidIndex
  · rw [if_pos hinvalid] at hgiven
    cases hgiven
  · rw [if_neg hinvalid] at hgiven
    have hsame : given = id := Option.some_inj.mp hgiven
    rw [hadd, hd, hsame]

theorem init_known {g : HistoryCountersData} {name : CName} {id : Int}
    (hptr : g.getCounterPtr name = some (some id, g)) (type : HistoryCounterType) :
    HistoryCounter.init ⟨name, none, type⟩ g =
      some (⟨name, some id, type⟩, g.setType id type) := by
  simp only [HistoryCounter.init, hptr, Option.bind_some, Option.map_some]

theorem serves_iff {g : HistoryCountersData} {name : CName} {id : Int}
    (hlookup : g.dict.lookupName name = some id) (hid : id ≠ invalidIndex) :
    Serves g name id ↔ g.dict.add name = some (id, g.dict) := by
  constructor
  · intro hserves
    exact add_of_getCounterPtr hserves.ptr
  · intro hadd
    have hptr := getCounterPtr_known hadd hid
    exact ⟨hptr, getCounterIndex_known hlookup hid, init_known hptr⟩

/-- In every run whose additions are measured right, a name registered before
keeps its id on a second `Add`, and its counter both ways, exactly if there is
room for one more. -/
theorem known_served_iff (name : CName) :
    (∀ {size storageSize : UInt32} (raw : CDictionary size storageSize)
      {trace : List (Op × Out)} {d : CDictionary size storageSize},
      Run DictionaryMap.step Measured raw.clear trace d →
      firstId (sinceClear trace) name ≠ invalidIndex →
        (d.add name = some (firstId (sinceClear trace) name, d) ↔ Admits d name)) ∧
      ∀ (raw : HistoryNames) {trace : List (Op × Out)} {g : HistoryCountersData},
        Run DictionaryMap.step Measured raw.clear trace g.dict →
        firstId (sinceClear trace) name ≠ invalidIndex →
          (Serves g name (firstId (sinceClear trace) name) ↔ Admits g.dict name) := by
  constructor
  · intro size storageSize raw trace d run hknown
    obtain ⟨names, h⟩ := refines_of_run raw run
    obtain ⟨i, hi, hid, heq⟩ := firstId_known h hknown
    rw [hid]
    exact add_position_iff h.stores hi heq
  · intro raw trace g run hknown
    obtain ⟨names, h⟩ := refines_of_run raw run
    obtain ⟨i, hi, hid, heq⟩ := firstId_known h hknown
    have hlookup := h.stores.lookupName_eq name
    rw [← firstId_eq h.stores h.recorded] at hlookup
    rw [serves_iff hlookup hknown, hid]
    exact add_position_iff h.stores hi heq

def blankNames : HistoryNames where
  count := 0
  index _ := ⟨0, 0⟩
  namesUsed := 0
  namesStorage _ := 0
  strIndex _ := 0

def blankSlot : Slot := ⟨HistoryCounterData.clear 0, .count⟩

theorem known_served_iff_short :
    ∃ g : HistoryCountersData,
      Run DictionaryMap.step Measured blankNames.clear [(.add (shortName [97]), .added 0)] g.dict ∧
      (Serves g (shortName [97]) 0 ↔ Admits g.dict (shortName [97])) := by
  obtain ⟨d, run, -⟩ :=
    run_first blankNames (shortName [97]) (by decide) (by decide) (by decide)
  have hid := firstId_single (shortName [97])
  have hknown : firstId (sinceClear [(.add (shortName [97]), .added 0)]) (shortName [97]) ≠
      invalidIndex := by
    rw [hid]
    decide
  let g : HistoryCountersData := ⟨d, fun _ => blankSlot⟩
  have hserved := (known_served_iff (shortName [97])).2 blankNames (g := g) run hknown
  rw [hid] at hserved
  exact ⟨g, run, hserved⟩

/-- A name that fills the storage is registered, and refused the next time. -/
theorem known_name_refused :
    ¬ ∀ (raw : HistoryNames) (trace : List (Op × Out)) (g : HistoryCountersData),
      Run DictionaryMap.step Measured raw.clear trace g.dict → ∀ name : CName,
      firstId (sinceClear trace) name ≠ invalidIndex →
        g.dict.add name = some (firstId (sinceClear trace) name, g.dict) ∧
          Serves g name (firstId (sinceClear trace) name) := by
  intro hall
  obtain ⟨name, hlen⟩ : ∃ name : CName, strlen name = 25499 :=
    ⟨longName 25499, strlen_longName 25499⟩
  have hsize : counterNamesSizeHistory.toNat = 25500 := rfl
  obtain ⟨d, run, hstores⟩ := run_first blankNames name (by omega) (by omega) (by decide)
  have hid := firstId_single name
  have hknown : firstId (sinceClear [(.add name, .added 0)]) name ≠ invalidIndex := by
    rw [hid]
    decide
  obtain ⟨hadd, -⟩ := hall blankNames _ ⟨d, fun _ => blankSlot⟩ run name hknown
  rw [hid] at hadd
  have hself : strcasecmp name.1 name.1 = 0 := (strcasecmp_eq_zero_iff name.2 name.2).mpr rfl
  obtain ⟨-, hroom⟩ := (add_position_iff hstores (i := 0) Nat.one_pos hself).mp hadd
  have hused : d.namesUsed = 25500 := by
    rw [hstores.used_eq, image_length, List.map_singleton, List.sum_singleton, hlen]
  rw [hsize, hused, hlen] at hroom
  exact absurd hroom (by decide)

end HiloUtils.HistoryCounters
