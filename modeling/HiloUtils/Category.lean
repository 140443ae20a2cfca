import HiloUtils.DictionaryMap

/-! `GetCategory`: the names between a prefix and the prefix with a last byte
behind it, both cut to the buffer. A name that goes on with that byte is left
out, and a prefix that fills the buffer leaves no room for it. -/

namespace HiloUtils.Category

open Word SortedArray CString Dictionary DictionaryMap

variable {size storageSize : UInt32}

def StartsWith (pfx : CName) (s : List UInt8) : Prop := fold (s.take (strlen pfx)) = fold pfx.1

instance (pfx : CName) (s : List UInt8) : Decidable (StartsWith pfx s) :=
  inferInstanceAs (Decidable (_ = _))

def Belongs (d : CDictionary size storageSize) (pfx : Option CName) (r : NameRec) : Prop :=
  ∀ p, pfx = some p → ∃ s, d.getString r.nameOffset = some s ∧ StartsWith p s

/-- No name goes on with the last byte behind the prefix; none has a prefix that
fills the buffer. -/
def Separated (d : CDictionary size storageSize) (pfx : Option CName) : Prop :=
  ∀ p, pfx = some p → p.1 ≠ [] → ∀ r ∈ d.getIndex, ∀ s, d.getString r.nameOffset = some s →
    StartsWith p s → strlen p < nameMaxLen ∧ s[strlen p]? ≠ some 255

section

variable {α : Type*} [LinearOrder α] {p k : List α} {top : α}

theorem between_append_iff :
    ¬ k < p ∧ k < p ++ [top] ↔ k.take p.length = p ∧ ∀ b, k[p.length]? = some b → b < top := by
  induction p generalizing k with
  | nil =>
    cases k with
    | nil => simp
    | cons a k => simp [List.cons_lt_cons_iff]
  | cons c p ih =>
    cases k with
    | nil => simp
    | cons a k =>
      have htail := ih (k := k)
      simp only [List.cons_append, List.cons_lt_cons_iff, List.length_cons, List.take_succ_cons,
        List.cons.injEq, List.getElem?_cons_succ]
      rcases lt_trichotomy a c with hlt | rfl | hgt
      · simp [hlt, ne_of_lt hlt]
      · simpa using htail
      · simp [ne_of_gt hgt, not_lt_of_gt hgt]

end

theorem toLower_last (b : UInt8) : toLower b < toLower 255 ↔ b ≠ 255 := by
  have hlast : toLower 255 = 255 := rfl
  have hb := b.toNat_lt
  have heq : b = 255 ↔ b.toNat = 255 := UInt8.toNat_inj.symm
  rw [hlast, toLower, ne_eq, heq]
  split <;> omega

theorem fold_take (s : List UInt8) (n : Nat) : fold (s.take n) = (fold s).take n := List.map_take

theorem fold_length (s : List UInt8) : (fold s).length = s.length := List.length_map ..

theorem between_iff (p : CName) (s : List UInt8) :
    ¬ fold s < fold p.1 ∧ fold s < fold (p.1 ++ [255]) ↔
      StartsWith p s ∧ s[strlen p]? ≠ some 255 := by
  have happ : fold (p.1 ++ [255]) = fold p.1 ++ [toLower 255] := List.map_append
  have hlen : (fold p.1).length = strlen p := fold_length p.1
  rw [happ, between_append_iff, hlen, StartsWith, fold_take]
  refine and_congr_right fun _ => ?_
  have hnth : (fold s)[strlen p]? = s[strlen p]?.map toLower := List.getElem?_map
  rw [hnth]
  cases s[strlen p]? with
  | none => simp
  | some b => simpa using toLower_last b

section

variable {d : CDictionary size storageSize} {names : List CName}

theorem mem_getIndex (h : Stores d names) {r : NameRec} (hr : r ∈ d.getIndex) :
    ∃ s, d.getString r.nameOffset = some s ∧ entryKey names r = fold s := by
  rw [getIndex_eq h] at hr
  obtain ⟨i, hi, -, hoff, hkey⟩ := h.mem_index hr
  exact ⟨names[i].1, by rw [hoff, h.getString_eq hi], hkey⟩

theorem belongs_some_iff {p : CName} {r : NameRec} {s : List UInt8}
    (hs : d.getString r.nameOffset = some s) : Belongs d (some p) r ↔ StartsWith p s := by
  constructor
  · intro hbelongs
    obtain ⟨t, ht, hstarts⟩ := hbelongs p rfl
    rw [hs] at ht
    rwa [Option.some_inj.mp ht]
  · intro hstarts q hq
    rw [← Option.some_inj.mp hq]
    exact ⟨s, hs, hstarts⟩

/-- What the category holds: all names with the prefix but those that go on
with the last byte, and none at all if the prefix fills the buffer. -/
theorem mem_getCategory (h : Stores d names) {p : CName} (hp : p.1 ≠ []) :
    ∃ rs, d.getCategory (some p) = some rs ∧ ∀ r, r ∈ rs ↔ r ∈ d.getIndex ∧
      ∃ s, d.getString r.nameOffset = some s ∧ StartsWith p s ∧
        strlen p < nameMaxLen ∧ s[strlen p]? ≠ some 255 := by
  by_cases hroom : strlen p < nameMaxLen
  · have hlow : p.1.take nameMaxLen = p.1 := List.take_of_length_le (Nat.le_of_lt hroom)
    have hhigh : (p.1.take nameMaxLen ++ [255]).take nameMaxLen = p.1 ++ [255] := by
      rw [hlow]
      apply List.take_of_length_le
      rw [List.length_append, List.length_singleton]
      exact hroom
    have hnul : 0 ∉ p.1 ++ [255] := by
      rw [List.mem_append, not_or]
      exact ⟨p.2, by decide⟩
    let high : CName := ⟨p.1 ++ [255], hnul⟩
    have hsentinel : high.1 = (p.1.take nameMaxLen ++ [255]).take nameMaxLen := hhigh.symm
    obtain ⟨rs, hrs, hmem⟩ := h.mem_category hp hsentinel
    refine ⟨rs, hrs, fun r => ?_⟩
    rw [hmem, hlow, ← getIndex_eq h]
    refine and_congr_right fun hr => ?_
    obtain ⟨s, hs, hkey⟩ := mem_getIndex h hr
    rw [hkey, between_iff]
    constructor
    · rintro ⟨hstarts, hlast⟩
      exact ⟨s, hs, hstarts, hroom, hlast⟩
    · rintro ⟨t, ht, hstarts, -, hlast⟩
      rw [hs] at ht
      obtain rfl := Option.some_inj.mp ht
      exact ⟨hstarts, hlast⟩
  · -- the two searches are for the same string
    have hfull : (p.1.take nameMaxLen).length = nameMaxLen :=
      List.length_take_of_le (Nat.not_lt.mp hroom)
    have hhigh : (p.1.take nameMaxLen ++ [255]).take nameMaxLen = p.1.take nameMaxLen :=
      List.take_left' hfull
    let high : CName := ⟨p.1.take nameMaxLen, fun hz => p.2 (List.mem_of_mem_take hz)⟩
    have hsentinel : high.1 = (p.1.take nameMaxLen ++ [255]).take nameMaxLen := hhigh.symm
    obtain ⟨rs, hrs, hmem⟩ := h.mem_category hp hsentinel
    refine ⟨rs, hrs, fun r => ?_⟩
    rw [hmem]
    constructor
    · rintro ⟨-, hlow, hlt⟩
      exact absurd hlt hlow
    · rintro ⟨-, s, -, -, hlt, -⟩
      exact absurd hlt hroom

theorem getCategory_sublist {pfx : Option CName} {rs : List NameRec}
    (hrs : d.getCategory pfx = some rs) : rs.Sublist d.getIndex := by
  unfold CDictionary.getCategory at hrs
  split at hrs
  · rw [Option.some_inj.mp hrs]
  · split at hrs
    · rw [Option.some_inj.mp hrs]
    · simp only at hrs
      split at hrs
      · rw [← Option.some_inj.mp hrs]
        exact (List.drop_sublist _ _).trans (List.take_sublist _ _)
      · cases hrs

theorem getCategory_right_iff (h : Stores d names) (pfx : Option CName) :
    ∃ rs, d.getCategory pfx = some rs ∧
      ((∀ r, r ∈ rs ↔ r ∈ d.getIndex ∧ Belongs d pfx r) ↔ Separated d pfx) := by
  cases pfx with
  | none =>
    refine ⟨d.getIndex, rfl, ?_, ?_⟩
    · intro _ p hp
      cases hp
    · exact fun _ r => ⟨fun hr => ⟨hr, fun p hp => by cases hp⟩, fun hr => hr.1⟩
  | some p =>
    by_cases hp : p.1 = []
    · refine ⟨d.getIndex, by simp only [CDictionary.getCategory, if_pos hp], ?_, ?_⟩
      · intro _ q hq hne
        rw [← Option.some_inj.mp hq] at hne
        exact absurd hp hne
      · refine fun _ r => ⟨fun hr => ⟨hr, ?_⟩, fun hr => hr.1⟩
        obtain ⟨s, hs, -⟩ := mem_getIndex h hr
        rw [belongs_some_iff hs, StartsWith, strlen, hp]
        rfl
    · obtain ⟨rs, hrs, hmem⟩ := mem_getCategory h hp
      refine ⟨rs, hrs, ?_, ?_⟩
      · intro hright q hq _ r hr s hs hstarts
        obtain rfl := Option.some_inj.mp hq
        obtain ⟨-, t, ht, -, hends⟩ :=
          (hmem r).mp ((hright r).mpr ⟨hr, (belongs_some_iff hs).mpr hstarts⟩)
        rw [hs] at ht
        rwa [Option.some_inj.mp ht]
      · intro hseparated r
        rw [hmem]
        refine and_congr_right fun hr => ?_
        obtain ⟨s, hs, -⟩ := mem_getIndex h hr
        rw [belongs_some_iff hs]
        constructor
        · rintro ⟨t, ht, hstarts, -⟩
          rw [hs] at ht
          rwa [Option.some_inj.mp ht]
        · exact fun hstarts => ⟨s, hs, hstarts, hseparated p rfl hp r hr s hs hstarts⟩

end

/-- In every run whose additions are measured right, a category comes sorted
and without duplicates, and it is the prefix's exactly if no name goes on with
the last byte and the prefix leaves room for it. -/
theorem getCategory_exact_iff (raw : CDictionary size storageSize) {trace : List (Op × Out)}
    {d : CDictionary size storageSize} (run : Run step Measured raw.clear trace d)
    (pfx : Option CName) :
    ∃ rs, d.getCategory pfx = some rs ∧ rs.Pairwise (Before d) ∧ rs.Nodup ∧
      ((∀ r, r ∈ rs ↔ r ∈ d.getIndex ∧ Belongs d pfx r) ↔ Separated d pfx) := by
  obtain ⟨names, h⟩ := refines_of_run raw run
  obtain ⟨rs, hrs, hiff⟩ := getCategory_right_iff h.stores pfx
  have hsub := getCategory_sublist hrs
  have hnodup : d.getIndex.Nodup := by
    rw [getIndex_eq h.stores]
    refine List.Pairwise.imp (fun hlt heq => ?_) h.stores.sorted
    rw [heq] at hlt
    exact lt_irrefl _ hlt
  exact ⟨rs, hrs, h.implements.sorted.sublist hsub, hnodup.sublist hsub, hiff⟩

theorem getCategory_exact_iff_short :
    ∃ d, Run step Measured blank.clear [(.add (shortName [97]), .added 0)] d ∧
      ∃ rs, d.getCategory (some (shortName [65])) = some rs ∧ rs.Pairwise (Before d) ∧ rs.Nodup ∧
        ((∀ r, r ∈ rs ↔ r ∈ d.getIndex ∧ Belongs d (some (shortName [65])) r) ↔
          Separated d (some (shortName [65]))) := by
  obtain ⟨d, run, -⟩ := run_first blank (shortName [97]) (by decide) (by decide) (by decide)
  exact ⟨d, run, getCategory_exact_iff blank run (some (shortName [65]))⟩

theorem getCategory_misses_last_byte :
    ¬ ∀ (raw : CDictionary 500 65000) (trace : List (Op × Out)) (d : CDictionary 500 65000),
      Run step Measured raw.clear trace d → ∀ pfx : Option CName,
        ∃ rs, d.getCategory pfx = some rs ∧ rs.Pairwise (Before d) ∧ rs.Nodup ∧
          ∀ r, r ∈ rs ↔ r ∈ d.getIndex ∧ Belongs d pfx r := by
  intro hall
  obtain ⟨d, run, hstores⟩ :=
    run_first blank (shortName [97, 255]) (by decide) (by decide) (by decide)
  obtain ⟨rs, hrs, -, -, hright⟩ := hall blank _ d run (some (shortName [97]))
  obtain ⟨rs', hrs', hiff⟩ := getCategory_right_iff hstores (some (shortName [97]))
  rw [hrs] at hrs'
  obtain rfl := Option.some_inj.mp hrs'
  obtain ⟨r, hr, hid⟩ := hstores.index_of (i := 0) Nat.one_pos
  obtain ⟨j, hj, hid', hoff, -⟩ := hstores.mem_index hr
  obtain rfl : j = 0 := by omega
  have hstring : d.getString r.nameOffset = some [97, 255] := by
    rw [hoff]
    exact hstores.getString_eq hj
  rw [← getIndex_eq hstores] at hr
  have hends := hiff.mp hright (shortName [97]) rfl (by decide) r hr _ hstring (by decide)
  exact hends.2 (by decide)

end HiloUtils.Category
