import HiloUtils.Word
import HiloUtils.SortedArray
import HiloUtils.CString

/-! The dictionary of `CDictionary.h`: names in one byte storage, their offsets
in insertion order, and an index of `(id, name_offset)` sorted by `strcasecmp`. -/

namespace HiloUtils.Dictionary

open Word SortedArray CString

def invalidIndex : Int := -1

def nameMaxLen : Nat := 128

structure NameRec where
  id : Int
  nameOffset : Nat

/-- The parameters are `SIZE` and `NAMES_STORAGE_SIZE`. -/
structure CDictionary (size storageSize : UInt32) where
  count : Int
  index : Nat → NameRec
  namesUsed : Nat
  namesStorage : Nat → UInt8
  strIndex : Nat → Nat

namespace CDictionary

variable {size storageSize : UInt32}

def clear (d : CDictionary size storageSize) : CDictionary size storageSize :=
  { d with count := 0, namesUsed := 0 }

def getString (d : CDictionary size storageSize) (offset : Nat) : Option (List UInt8) :=
  scan ((live d.namesStorage storageSize.toNat).drop offset)

/-- A pointer into the storage as its offset; NULL is `none`. -/
def lookupId (d : CDictionary size storageSize) (index : Int) : Option Nat :=
  if index < 0 ∨ d.count ≤ index then none else some (d.strIndex index.toNat)

def compare (d : CDictionary size storageSize) (name : List UInt8) (r : NameRec) : Option Bool :=
  match d.lookupId r.id with
  | none => none
  | some offset => (d.getString offset).map fun s => decide (strcasecmp s name < 0)

def search (d : CDictionary size storageSize) (name : List UInt8) : Option Nat :=
  lowerBound (d.compare name) d.index 0 d.count.toNat

/-- The new entry at index position `p`. Copying a negative size or past the
storage has no result. -/
def place (d : CDictionary size storageSize) (p : Nat) (name : CName) :
    Option (Int × CDictionary size storageSize) :=
  let copied := i32 (i32 (strlen name) + 1)
  if copied < 0 ∨ (storageSize.toNat : Int) < d.namesUsed + copied then none
  else
    let moved := if (p : Int) ≠ d.count then shift d.index p d.count.toNat else d.index
    some (d.count, { d with
      count := i32 (d.count + 1)
      index := Function.update moved p ⟨d.count, d.namesUsed⟩
      namesUsed := u32 (d.namesUsed + ofI32 copied)
      namesStorage :=
        overwrite d.namesStorage d.namesUsed ((name.1 ++ [0]).take copied.toNat)
      strIndex := Function.update d.strIndex d.count.toNat d.namesUsed })

def add (d : CDictionary size storageSize) (name : CName) :
    Option (Int × CDictionary size storageSize) :=
  if storageSize.toNat < u32 (d.namesUsed + ofI32 (i32 (strlen name)) + 1) then
    some (invalidIndex, d)
  else if (size.toNat : Int) ≤ d.count then some (invalidIndex, d)
  else
    match d.search name.1 with
    | none => none
    | some p =>
      if (p : Int) ≠ d.count then
        match d.getString (d.index p).nameOffset with
        | none => none
        | some s => if strcasecmp s name.1 = 0 then some ((d.index p).id, d) else d.place p name
      else d.place p name

def lookupName (d : CDictionary size storageSize) (name : CName) : Option Int :=
  match d.search name.1 with
  | none => none
  | some p =>
    if (p : Int) ≠ d.count then
      match d.getString (d.index p).nameOffset with
      | none => none
      | some s => if strcasecmp s name.1 = 0 then some (d.index p).id else some invalidIndex
    else some invalidIndex

def getIndex (d : CDictionary size storageSize) : List NameRec := live d.index d.count.toNat

/-- The records from the prefix up to the prefix with a last byte behind it. -/
def getCategory (d : CDictionary size storageSize) (pfx : Option CName) :
    Option (List NameRec) :=
  match pfx with
  | none => some d.getIndex
  | some pfx =>
    if pfx.1 = [] then some d.getIndex
    else
      let low := pfx.1.take nameMaxLen
      match d.search low, d.search ((low ++ [255]).take nameMaxLen) with
      | some p1, some p2 => some ((d.getIndex.take p2).drop p1)
      | _, _ => none

def grown (d : CDictionary size storageSize) (n p : Nat) (name : CName) :
    CDictionary size storageSize where
  count := (n + 1 : Nat)
  index := Function.update (if p = n then d.index else shift d.index p n) p ⟨n, d.namesUsed⟩
  namesUsed := d.namesUsed + (strlen name + 1)
  namesStorage := overwrite d.namesStorage d.namesUsed (name.1 ++ [0])
  strIndex := Function.update d.strIndex n d.namesUsed

theorem place_eq {d : CDictionary size storageSize} {n : Nat} {name : CName} (hn : d.count = n)
    (hcount : n + 1 < 2 ^ 31) (hroom : d.namesUsed + (strlen name + 1) ≤ storageSize.toNat)
    (hlen : strlen name + 1 < 2 ^ 31) (p : Nat) :
    d.place p name = some ((n : Int), d.grown n p name) := by
  have hsize := storageSize.toNat_lt
  have hcopied : i32 (i32 (strlen name) + 1) = ((strlen name + 1 : Nat) : Int) := by
    rw [i32_natCast (by omega)]
    exact i32_natCast hlen
  have hblock : (name.1 ++ [0]).take (strlen name + 1) = name.1 ++ [0] :=
    List.take_of_length_le (by rw [List.length_append, strlen, List.length_singleton])
  have hused : u32 (d.namesUsed + (strlen name + 1)) = d.namesUsed + (strlen name + 1) :=
    u32_of_lt (by omega)
  have hcount' : i32 ((n : Int) + 1) = ((n + 1 : Nat) : Int) := i32_natCast hcount
  have hmoved : (if (p : Int) ≠ n then shift d.index p n else d.index) =
      if p = n then d.index else shift d.index p n := by
    by_cases hp : p = n
    · rw [if_neg (not_not.mpr (congrArg _ hp)), if_pos hp]
    · rw [if_pos (by omega), if_neg hp]
  simp only [CDictionary.place, hcopied]
  rw [if_neg (by omega), hn, Int.toNat_natCast, Int.toNat_natCast, hcount', hblock,
    ofI32_natCast (by omega), hused, hmoved]
  rfl

end CDictionary

variable {size storageSize : UInt32}

theorem getString_bounds {d : CDictionary size storageSize} {offset : Nat} {s : List UInt8}
    (h : d.getString offset = some s) : 0 ∉ s ∧ s.length < storageSize.toNat := by
  obtain ⟨hnul, hlen⟩ := scan_bounds h
  rw [List.length_drop, live_length] at hlen
  exact ⟨hnul, by omega⟩

def CDictionary.idString (d : CDictionary size storageSize) (id : Int) : Option CName :=
  (d.lookupId id).bind fun offset =>
    (d.getString offset).pmap (fun s h => ⟨s, h⟩) fun _ hs => (getString_bounds hs).1

theorem live_moved (index : Nat → NameRec) (x : NameRec) {p n : Nat} (hp : p ≤ n) :
    live (Function.update (if p = n then index else shift index p n) p x) (n + 1) =
      (live index n).take p ++ x :: (live index n).drop p := by
  by_cases hlast : p = n
  · subst hlast
    rw [if_pos rfl, live_insert_last, List.take_of_length_le (by simp),
      List.drop_of_length_le (by simp)]
  · rw [if_neg hlast, live_insert _ _ hp]

def entryKey (names : List CName) (r : NameRec) : List Nat :=
  fold ((names[r.id.toNat]?.map Subtype.val).getD [])

/-- The dictionary holds `names` in insertion order, no two equal up to case. -/
structure Stores (d : CDictionary size storageSize) (names : List CName) : Prop where
  count_eq : d.count = names.length
  distinct : (names.map fun name => fold name.1).Nodup
  used_eq : d.namesUsed = (image names).length
  used_le : (image names).length ≤ storageSize.toNat
  bytes : image names <+: live d.namesStorage storageSize.toNat
  offsets : ∀ i < names.length, d.strIndex i = (image (names.take i)).length
  ids : ((live d.index names.length).map NameRec.id).Perm
    ((List.range names.length).map fun i : Nat => (i : Int))
  entries : ∀ r ∈ live d.index names.length, r.nameOffset = d.strIndex r.id.toNat
  sorted : Sorted (entryKey names) (live d.index names.length)

def position (names : List CName) (name : CName) : Option Nat :=
  names.findIdx? fun m => strcasecmp m.1 name.1 = 0

def idOf (names : List CName) (name : CName) : Int :=
  match position names name with
  | some i => i
  | none => invalidIndex

namespace Stores

variable {d : CDictionary size storageSize} {names : List CName}

theorem clear (d : CDictionary size storageSize) : Stores d.clear [] where
  count_eq := rfl
  distinct := List.nodup_nil
  used_eq := rfl
  used_le := Nat.zero_le _
  bytes := List.nil_prefix
  offsets i hi := absurd hi (Nat.not_lt_zero i)
  ids := List.Perm.refl _
  entries _ hr := absurd hr List.not_mem_nil
  sorted := List.Pairwise.nil

theorem length_lt (h : Stores d names) : names.length + 1 < 2 ^ 31 := by
  have hnodup : names.Nodup := List.Nodup.of_map _ h.distinct
  have hroom := length_le_of_nodup hnodup
  have hused := h.used_le
  have hsize := storageSize.toNat_lt
  omega

theorem getString_eq (h : Stores d names) {i : Nat} (hi : i < names.length) :
    d.getString (d.strIndex i) = some names[i].1 := by
  obtain ⟨rest, hrest⟩ := h.bytes
  rw [CDictionary.getString, h.offsets i hi, ← hrest, scan_image hi]

theorem mem_index (h : Stores d names) {r : NameRec} (hr : r ∈ live d.index names.length) :
    ∃ i, ∃ hi : i < names.length, r.id = i ∧ r.nameOffset = d.strIndex i ∧
      entryKey names r = fold names[i].1 := by
  have hid : r.id ∈ (List.range names.length).map fun i : Nat => (i : Int) :=
    h.ids.mem_iff.mp (List.mem_map_of_mem hr)
  obtain ⟨i, hi, hri⟩ := List.mem_map.mp hid
  have hlt := List.mem_range.mp hi
  refine ⟨i, hlt, hri.symm, ?_, ?_⟩
  · rw [h.entries r hr, ← hri, Int.toNat_natCast]
  · rw [entryKey, ← hri, Int.toNat_natCast, List.getElem?_eq_getElem hlt, Option.map_some,
      Option.getD_some]

theorem index_of (h : Stores d names) {i : Nat} (hi : i < names.length) :
    ∃ r ∈ live d.index names.length, r.id = i := by
  have hmem : (i : Int) ∈ (live d.index names.length).map NameRec.id :=
    h.ids.mem_iff.mpr (List.mem_map.mpr ⟨i, List.mem_range.mpr hi, rfl⟩)
  obtain ⟨r, hr, hri⟩ := List.mem_map.mp hmem
  exact ⟨r, hr, hri⟩

theorem lookupId_eq (h : Stores d names) {i : Nat} (hi : i < names.length) :
    d.lookupId i = some (d.strIndex i) := by
  rw [CDictionary.lookupId, if_neg, Int.toNat_natCast]
  rw [h.count_eq]
  omega

theorem idString_eq (h : Stores d names) {i : Nat} (hi : i < names.length) :
    d.idString i = some names[i] := by
  rw [CDictionary.idString, h.lookupId_eq hi, Option.bind_some]
  exact Option.pmap_eq_some_iff.mpr ⟨_, names[i].2, h.getString_eq hi, rfl⟩

theorem compare_eq (h : Stores d names) (name : CName) {r : NameRec}
    (hr : r ∈ live d.index names.length) :
    d.compare name.1 r = some (decide (entryKey names r < fold name.1)) := by
  obtain ⟨i, hi, hid, -, hkey⟩ := h.mem_index hr
  simp only [CDictionary.compare, hid, h.lookupId_eq hi, h.getString_eq hi, Option.map_some,
    hkey, strcasecmp_neg_iff names[i].2 name.2]

theorem search_eq (h : Stores d names) (name : CName) :
    ∃ r, SplitsAt (entryKey names) (live d.index names.length) (fold name.1) r ∧
      d.search name.1 = some r := by
  obtain ⟨r, hr⟩ := h.sorted.exists_split (fold name.1)
  refine ⟨r, hr, ?_⟩
  rw [CDictionary.search, h.count_eq, Int.toNat_natCast]
  apply lowerBound_split hr
  intro i hi
  rw [h.compare_eq name (mem_live.mpr ⟨i, hi, rfl⟩)]
  congr

theorem mem_category (h : Stores d names) {pfx : CName} (hpfx : pfx.1 ≠ []) {high : CName}
    (hhigh : high.1 = (pfx.1.take nameMaxLen ++ [255]).take nameMaxLen) :
    ∃ rs, d.getCategory (some pfx) = some rs ∧ ∀ r, r ∈ rs ↔
      r ∈ live d.index names.length ∧ ¬ entryKey names r < fold (pfx.1.take nameMaxLen) ∧
        entryKey names r < fold high.1 := by
  obtain ⟨p1, hsplit1, hsearch1⟩ :=
    h.search_eq ⟨pfx.1.take nameMaxLen, fun hz => pfx.2 (List.mem_of_mem_take hz)⟩
  obtain ⟨p2, hsplit2, hsearch2⟩ := h.search_eq high
  have hindex : d.getIndex = live d.index names.length := by
    rw [CDictionary.getIndex, h.count_eq, Int.toNat_natCast]
  refine ⟨((live d.index names.length).take p2).drop p1, ?_, fun r => ?_⟩
  · simp only [CDictionary.getCategory, if_neg hpfx, hsearch1, ← hhigh, hsearch2, hindex]
  · exact hsplit1.mem_between hsplit2

theorem absent (h : Stores d names) {name : CName} {r : Nat}
    (hsplit : SplitsAt (entryKey names) (live d.index names.length) (fold name.1) r)
    (hr : ∀ hlt : r < (live d.index names.length).length,
      entryKey names (live d.index names.length)[r] ≠ fold name.1) :
    ∀ m ∈ names, strcasecmp m.1 name.1 ≠ 0 := by
  intro m hm heq
  obtain ⟨i, hi, rfl⟩ := List.getElem_of_mem hm
  obtain ⟨e, he, hid⟩ := h.index_of hi
  obtain ⟨j, hj, hid', -, hkey⟩ := h.mem_index he
  obtain rfl : i = j := by omega
  rw [strcasecmp_eq_zero_iff names[i].2 name.2, ← hkey] at heq
  exact hsplit.ne_of_ne h.sorted hr e he heq

theorem locate (h : Stores d names) (name : CName) :
    ∃ r, SplitsAt (entryKey names) (live d.index names.length) (fold name.1) r ∧
      d.search name.1 = some r ∧ r ≤ names.length ∧
      ((r < names.length ∧ ∃ i, ∃ hi : i < names.length, (d.index r).id = i ∧
          d.getString (d.index r).nameOffset = some names[i].1 ∧
          strcasecmp names[i].1 name.1 = 0) ∨
        ((r < names.length → ∃ s, d.getString (d.index r).nameOffset = some s ∧
            strcasecmp s name.1 ≠ 0) ∧
          ∀ m ∈ names, strcasecmp m.1 name.1 ≠ 0)) := by
  obtain ⟨r, hsplit, hsearch⟩ := h.search_eq name
  have hle : r ≤ names.length := by simpa using hsplit.le
  refine ⟨r, hsplit, hsearch, hle, ?_⟩
  rcases Nat.lt_or_ge r names.length with hlt | hge
  · obtain ⟨i, hi, hid, hoff, hkey⟩ := h.mem_index (mem_live.mpr ⟨r, hlt, rfl⟩)
    have hstring : d.getString (d.index r).nameOffset = some names[i].1 := by
      rw [hoff, h.getString_eq hi]
    by_cases heq : strcasecmp names[i].1 name.1 = 0
    · exact .inl ⟨hlt, i, hi, hid, hstring, heq⟩
    · refine .inr ⟨fun _ => ⟨_, hstring, heq⟩, h.absent hsplit fun _ => ?_⟩
      rwa [live_getElem, hkey, ne_eq, ← strcasecmp_eq_zero_iff names[i].2 name.2]
  · have hend : ¬ r < (live d.index names.length).length := by simpa using hge
    exact .inr ⟨fun hlt => absurd hlt (by omega), h.absent hsplit fun hlt => absurd hlt hend⟩

theorem entryKey_append (h : Stores d names) (name : CName) {r : NameRec}
    (hr : r ∈ live d.index names.length) : entryKey names r = entryKey (names ++ [name]) r := by
  obtain ⟨i, hi, hid, -, hkey⟩ := h.mem_index hr
  rw [hkey, entryKey, hid, Int.toNat_natCast, List.getElem?_append_left hi,
    List.getElem?_eq_getElem hi, Option.map_some, Option.getD_some]

theorem grow (h : Stores d names) {name : CName} {p : Nat}
    (hsplit : SplitsAt (entryKey names) (live d.index names.length) (fold name.1) p)
    (hnew : ∀ m ∈ names, strcasecmp m.1 name.1 ≠ 0)
    (hroom : (image names).length + (strlen name + 1) ≤ storageSize.toNat) :
    Stores (d.grown names.length p name) (names ++ [name]) := by
  let x : NameRec := ⟨names.length, d.namesUsed⟩
  have hp : p ≤ names.length := by simpa using hsplit.le
  have hlast : entryKey (names ++ [name]) x = fold name.1 := by
    simp [entryKey, x]
  have hlive : live (d.grown names.length p name).index (names ++ [name]).length =
      (live d.index names.length).take p ++ x :: (live d.index names.length).drop p := by
    rw [List.length_append]
    exact live_moved d.index x hp
  have hperm : (live (d.grown names.length p name).index (names ++ [name]).length).Perm
      (x :: live d.index names.length) := by
    rw [hlive]
    exact List.perm_middle.trans (by rw [List.take_append_drop])
  have hblock : (name.1 ++ [0]).length = strlen name + 1 := by
    rw [List.length_append, strlen, List.length_singleton]
  have himage : image (names ++ [name]) = image names ++ (name.1 ++ [0]) := by
    rw [image_append, image_cons, image_nil]
  refine ⟨by simp [CDictionary.grown], ?_, ?_, ?_, ?_, ?_, ?_, ?_, ?_⟩
  · rw [List.map_append, List.map_singleton]
    refine List.nodup_append.mpr ⟨h.distinct, List.nodup_singleton _, ?_⟩
    intro a ha b hb heq
    obtain ⟨m, hm, rfl⟩ := List.mem_map.mp ha
    rw [List.mem_singleton.mp hb] at heq
    exact hnew m hm ((strcasecmp_eq_zero_iff m.2 name.2).mpr heq)
  · rw [himage, List.length_append, hblock, ← h.used_eq]
    rfl
  · rw [himage, List.length_append, hblock]
    exact hroom
  · change _ <+: live (overwrite d.namesStorage d.namesUsed (name.1 ++ [0])) _
    rw [live_overwrite _ (by rw [hblock, h.used_eq]; exact hroom), himage, h.used_eq,
      ← List.prefix_iff_eq_take.mp h.bytes]
    exact List.prefix_append _ _
  · intro i hi
    rw [List.length_append, List.length_singleton] at hi
    change Function.update d.strIndex names.length d.namesUsed i = _
    rcases Nat.lt_succ_iff_lt_or_eq.mp hi with hlt | rfl
    · rw [Function.update_of_ne (Nat.ne_of_lt hlt), h.offsets i hlt,
        List.take_append_of_le_length (Nat.le_of_lt hlt)]
    · rw [Function.update_self, List.take_left, h.used_eq]
  · refine (hperm.map NameRec.id).trans ?_
    rw [List.length_append, List.length_singleton, List.range_succ, List.map_append,
      List.map_singleton, List.map_cons]
    exact (h.ids.cons _).trans (List.perm_append_singleton _ _).symm
  · intro r hr
    change r.nameOffset = Function.update d.strIndex names.length d.namesUsed r.id.toNat
    rcases List.mem_cons.mp (hperm.mem_iff.mp hr) with rfl | hr
    · simp only [x, Int.toNat_natCast, Function.update_self]
    · obtain ⟨i, hi, hid, hoff, -⟩ := h.mem_index hr
      rw [hid, Int.toNat_natCast, Function.update_of_ne (Nat.ne_of_lt hi), hoff]
  · rw [hlive]
    have hkey := fun r hr => h.entryKey_append name (r := r) hr
    have hsplit' := hsplit.congr hkey
    rw [← hlast] at hsplit'
    refine (h.sorted.congr hkey).insert hsplit' ?_
    intro r hr heq
    obtain ⟨i, hi, -, -, hfold⟩ := h.mem_index hr
    rw [← hkey r hr, hfold, hlast] at heq
    exact hnew _ (List.getElem_mem hi) ((strcasecmp_eq_zero_iff names[i].2 name.2).mpr heq)

theorem place (h : Stores d names) {name : CName} {p : Nat}
    (hsplit : SplitsAt (entryKey names) (live d.index names.length) (fold name.1) p)
    (hnew : ∀ m ∈ names, strcasecmp m.1 name.1 ≠ 0)
    (hroom : (image names).length + (strlen name + 1) ≤ storageSize.toNat)
    (hlen : strlen name + 1 < 2 ^ 31) :
    ∃ d', d.place p name = some ((names.length : Int), d') ∧ Stores d' (names ++ [name]) := by
  refine ⟨_, CDictionary.place_eq h.count_eq h.length_lt ?_ hlen p, h.grow hsplit hnew hroom⟩
  rw [h.used_eq]
  exact hroom

theorem position_eq_some (h : Stores d names) {name : CName} {i : Nat} (hi : i < names.length)
    (heq : strcasecmp names[i].1 name.1 = 0) : position names name = some i := by
  refine List.findIdx?_eq_some_iff_getElem.mpr ⟨hi, decide_eq_true heq, ?_⟩
  intro j hji hj
  have hfold := (strcasecmp_eq_zero_iff names[i].2 name.2).mp heq
  rw [← (strcasecmp_eq_zero_iff names[j].2 name.2).mp (of_decide_eq_true hj)] at hfold
  have hne := List.pairwise_iff_getElem.mp h.distinct j i (by rw [List.length_map]; omega)
    (by rw [List.length_map]; exact hi) hji
  rw [List.getElem_map, List.getElem_map] at hne
  exact hne hfold.symm

theorem position_eq_none {name : CName} (hnew : ∀ m ∈ names, strcasecmp m.1 name.1 ≠ 0) :
    position names name = none :=
  List.findIdx?_eq_none_iff.mpr fun m hm => decide_eq_false (hnew m hm)

theorem lookupName_eq (h : Stores d names) (name : CName) :
    d.lookupName name = some (idOf names name) := by
  obtain ⟨r, -, hsearch, hle, hfound | ⟨hother, hnew⟩⟩ := h.locate name
  · obtain ⟨hlt, i, hi, hid, hstring, heq⟩ := hfound
    have hend : (r : Int) ≠ d.count := by
      rw [h.count_eq]
      omega
    simp only [CDictionary.lookupName, hsearch, if_pos hend, hstring, if_pos heq, hid, idOf,
      h.position_eq_some hi heq]
  · rw [idOf, position_eq_none hnew]
    by_cases hend : (r : Int) ≠ d.count
    · rw [h.count_eq] at hend
      obtain ⟨s, hs, hne⟩ := hother (by omega)
      rw [← h.count_eq] at hend
      simp only [CDictionary.lookupName, hsearch, if_pos hend, hs, if_neg hne]
    · simp only [CDictionary.lookupName, hsearch, if_neg hend]

theorem lookupName_eq_some_iff (h : Stores d names) {name : CName} {id : Int}
    (hid : id ≠ invalidIndex) : d.lookupName name = some id ↔
      ∃ i, ∃ hi : i < names.length, id = i ∧ strcasecmp names[i].1 name.1 = 0 := by
  rw [h.lookupName_eq, idOf]
  constructor
  · intro hlookup
    cases hposition : position names name with
    | none =>
      rw [hposition] at hlookup
      exact absurd (Option.some_inj.mp hlookup).symm hid
    | some i =>
      rw [hposition] at hlookup
      obtain ⟨hi, heq, -⟩ := List.findIdx?_eq_some_iff_getElem.mp hposition
      exact ⟨i, hi, (Option.some_inj.mp hlookup).symm, of_decide_eq_true heq⟩
  · rintro ⟨i, hi, rfl, heq⟩
    rw [h.position_eq_some hi heq]

theorem checked_eq (h : Stores d names) (name : CName) :
    u32 (d.namesUsed + ofI32 (i32 (strlen name)) + 1) =
      u32 ((image names).length + strlen name + 1) := by
  rw [h.used_eq, ofI32_i32]
  simp only [u32]
  omega

theorem add_refused (h : Stores d names) {name : CName}
    (hfull : storageSize.toNat < u32 ((image names).length + strlen name + 1) ∨
      size.toNat ≤ names.length) : d.add name = some (invalidIndex, d) := by
  rw [CDictionary.add, h.checked_eq, h.count_eq]
  rcases hfull with hfull | hfull
  · rw [if_pos hfull]
  · rw [if_pos (show (size.toNat : Int) ≤ names.length by omega), ite_self]

theorem add_accepted (h : Stores d names) {name : CName}
    (hroom : u32 ((image names).length + strlen name + 1) ≤ storageSize.toNat)
    (hcount : names.length < size.toNat) :
    (∃ i, ∃ hi : i < names.length, strcasecmp names[i].1 name.1 = 0 ∧
        d.add name = some ((i : Int), d)) ∨
      ((∀ m ∈ names, strcasecmp m.1 name.1 ≠ 0) ∧ ∃ p,
        SplitsAt (entryKey names) (live d.index names.length) (fold name.1) p ∧
        d.add name = d.place p name) := by
  have hfull : ¬ (size.toNat : Int) ≤ d.count := by
    rw [h.count_eq]
    omega
  rw [CDictionary.add, h.checked_eq, if_neg (Nat.not_lt.mpr hroom), if_neg hfull]
  obtain ⟨r, hsplit, hsearch, hle, hfound | ⟨hother, hnew⟩⟩ := h.locate name
  · obtain ⟨hlt, i, hi, hid, hstring, heq⟩ := hfound
    have hend : (r : Int) ≠ d.count := by
      rw [h.count_eq]
      omega
    refine .inl ⟨i, hi, heq, ?_⟩
    simp only [hsearch, if_pos hend, hstring, if_pos heq, hid]
  · refine .inr ⟨hnew, r, hsplit, ?_⟩
    by_cases hend : (r : Int) ≠ d.count
    · obtain ⟨s, hs, hne⟩ := hother (by rw [h.count_eq] at hend; omega)
      simp only [hsearch, if_pos hend, hs, if_neg hne]
    · simp only [hsearch, if_neg hend]

theorem add_new (h : Stores d names) {name : CName}
    (hnew : ∀ m ∈ names, strcasecmp m.1 name.1 ≠ 0)
    (hroom : (image names).length + (strlen name + 1) ≤ storageSize.toNat)
    (hlen : strlen name + 1 < 2 ^ 31) (hcount : names.length < size.toNat) :
    ∃ d', d.add name = some ((names.length : Int), d') ∧ Stores d' (names ++ [name]) := by
  have hsize := storageSize.toNat_lt
  have hchecked : u32 ((image names).length + strlen name + 1) ≤ storageSize.toNat := by
    rw [u32_of_lt (by omega)]
    omega
  rcases h.add_accepted hchecked hcount with ⟨i, hi, heq, -⟩ | ⟨-, p, hsplit, hadd⟩
  · exact absurd heq (hnew _ (List.getElem_mem hi))
  · rw [hadd]
    exact h.place hsplit hnew hroom hlen

end Stores

end HiloUtils.Dictionary
