import Mathlib.Algebra.GroupWithZero.Nat
import Mathlib.Data.List.Lex
import Mathlib.Data.List.Perm.Subperm
import Mathlib.Data.List.Nodup

/-! NUL-terminated byte strings: reading one from a byte block, and
`strcasecmp` as the lexicographic order of the case-folded bytes. -/

namespace HiloUtils.CString

/-- A string argument: its bytes before the terminating NUL. -/
abbrev CName := { bytes : List UInt8 // 0 ∉ bytes }

def strlen (name : CName) : Nat := name.1.length

/-- The block from a string's first byte on; a string with no NUL in it has no
end. -/
def scan : List UInt8 → Option (List UInt8)
  | [] => none
  | b :: bs => if b = 0 then some [] else (scan bs).map (b :: ·)

def toLower (b : UInt8) : Nat := if 65 ≤ b.toNat ∧ b.toNat ≤ 90 then b.toNat + 32 else b.toNat

def strcasecmp : List UInt8 → List UInt8 → Int
  | [], [] => 0
  | [], b :: _ => 0 - (toLower b : Int)
  | a :: _, [] => (toLower a : Int)
  | a :: as, b :: bs =>
    if toLower a = toLower b then strcasecmp as bs else (toLower a : Int) - toLower b

def fold (bytes : List UInt8) : List Nat := bytes.map toLower

theorem not_mem_cons {b : UInt8} {bytes : List UInt8} (h : 0 ∉ b :: bytes) :
    0 ≠ b ∧ 0 ∉ bytes := by
  simpa only [List.mem_cons, not_or] using h

theorem not_mem_format {before after : List UInt8} (hbefore : 0 ∉ before) (hafter : 0 ∉ after)
    (name : CName) : 0 ∉ before ++ name.1 ++ after := by
  rw [List.mem_append, List.mem_append]
  rintro ((h | h) | h)
  · exact hbefore h
  · exact name.2 h
  · exact hafter h

theorem toLower_pos {b : UInt8} (h : b ≠ 0) : 0 < toLower b := by
  have hb : b.toNat ≠ 0 := fun hz => h (UInt8.toNat_inj.mp hz)
  unfold toLower
  split <;> omega

theorem scan_append {bytes rest : List UInt8} (h : 0 ∉ bytes) :
    scan (bytes ++ 0 :: rest) = some bytes := by
  induction bytes with
  | nil => simp [scan]
  | cons b bytes ih =>
    obtain ⟨hb, hbytes⟩ := not_mem_cons h
    rw [List.cons_append, scan, if_neg (Ne.symm hb), ih hbytes, Option.map_some]

theorem scan_bounds {block s : List UInt8} (h : scan block = some s) :
    0 ∉ s ∧ s.length < block.length := by
  induction block generalizing s with
  | nil => cases h
  | cons b block ih =>
    rw [scan] at h
    by_cases hb : b = 0
    · rw [if_pos hb] at h
      obtain rfl := Option.some_inj.mp h
      exact ⟨List.not_mem_nil, Nat.succ_pos _⟩
    · rw [if_neg hb] at h
      obtain ⟨rest, hrest, rfl⟩ := Option.map_eq_some_iff.mp h
      obtain ⟨hnul, hlen⟩ := ih hrest
      rw [List.mem_cons, not_or, List.length_cons, List.length_cons]
      exact ⟨⟨Ne.symm hb, hnul⟩, Nat.succ_lt_succ hlen⟩

theorem strcasecmp_spec {x y : List UInt8} (hx : 0 ∉ x) (hy : 0 ∉ y) :
    (strcasecmp x y < 0 ↔ fold x < fold y) ∧ (strcasecmp x y = 0 ↔ fold x = fold y) := by
  induction x generalizing y with
  | nil =>
    cases y with
    | nil => simp [strcasecmp, fold]
    | cons b y =>
      have hb := toLower_pos (Ne.symm (not_mem_cons hy).1)
      simp only [strcasecmp, fold, List.map_nil, List.map_cons]
      refine ⟨⟨fun _ => List.nil_lt_cons _ _, fun _ => by omega⟩, by simp; omega⟩
  | cons a x ih =>
    obtain ⟨ha, hx⟩ := not_mem_cons hx
    cases y with
    | nil =>
      have ha := toLower_pos (Ne.symm ha)
      simp only [strcasecmp, fold, List.map_nil, List.map_cons]
      refine ⟨⟨fun h => by omega, fun h => absurd h (List.not_lt_nil _)⟩, by simp; omega⟩
    | cons b y =>
      obtain ⟨-, hy⟩ := not_mem_cons hy
      obtain ⟨hlt, heq⟩ := ih hx hy
      unfold fold at hlt heq ⊢
      rw [List.map_cons, List.map_cons, List.cons_lt_cons_iff, List.cons.injEq, strcasecmp]
      by_cases hab : toLower a = toLower b
      · rw [if_pos hab, hlt, heq, hab]
        simp only [Nat.lt_irrefl, false_or, true_and, and_self]
      · rw [if_neg hab]
        simp only [hab, false_and, or_false, iff_false]
        omega

theorem strcasecmp_neg_iff {x y : List UInt8} (hx : 0 ∉ x) (hy : 0 ∉ y) :
    strcasecmp x y < 0 ↔ fold x < fold y :=
  (strcasecmp_spec hx hy).1

theorem strcasecmp_eq_zero_iff {x y : List UInt8} (hx : 0 ∉ x) (hy : 0 ∉ y) :
    strcasecmp x y = 0 ↔ fold x = fold y :=
  (strcasecmp_spec hx hy).2

/-- Strings laid out one after the other, each with its NUL. -/
def image (names : List CName) : List UInt8 := names.flatMap fun name => name.1 ++ [0]

@[simp] theorem image_nil : image [] = [] := rfl

@[simp] theorem image_append (names more : List CName) :
    image (names ++ more) = image names ++ image more := by
  simp only [image, List.flatMap_append]

@[simp] theorem image_cons (name : CName) (names : List CName) :
    image (name :: names) = name.1 ++ 0 :: image names := by
  simp only [image, List.flatMap_cons, List.append_assoc, List.singleton_append]

theorem image_length (names : List CName) :
    (image names).length = (names.map fun name => strlen name + 1).sum := by
  induction names with
  | nil => rfl
  | cons name names ih =>
    rw [image_cons, List.length_append, List.length_cons, ih, List.map_cons, List.sum_cons, strlen]
    omega

theorem scan_image {names : List CName} {i : Nat} (hi : i < names.length) (rest : List UInt8) :
    scan ((image names ++ rest).drop (image (names.take i)).length) = some names[i].1 := by
  have hsplit : image names =
      image (names.take i) ++ (names[i].1 ++ 0 :: image (names.drop (i + 1))) := by
    rw [← image_cons, ← image_append, List.getElem_cons_drop, List.take_append_drop]
  rw [hsplit, List.append_assoc, List.drop_left, List.append_assoc, List.cons_append]
  exact scan_append names[i].2

def shortCode (name : CName) : Nat := (name.1.getD 0 0).toNat * 256 + (name.1.getD 1 0).toNat

theorem shortCode_lt (name : CName) : shortCode name < 65536 := by
  have h0 := (name.1.getD 0 0).toNat_lt
  have h1 := (name.1.getD 1 0).toNat_lt
  unfold shortCode
  omega

theorem scan_short {bytes : List UInt8} (h : 0 ∉ bytes) (hlen : bytes.length ≤ 2) :
    scan [bytes.getD 0 0, bytes.getD 1 0, 0] = some bytes := by
  match bytes with
  | [] => rfl
  | [a] =>
    have ha : a ≠ 0 := fun heq => h (by simp [heq])
    simp [scan, ha]
  | [a, b] =>
    have ha : a ≠ 0 := fun heq => h (by simp [heq])
    have hb : b ≠ 0 := fun heq => h (by simp [heq])
    simp [scan, ha, hb]

theorem shortCode_inj {x y : CName} (hx : strlen x ≤ 2) (hy : strlen y ≤ 2)
    (h : shortCode x = shortCode y) : x = y := by
  have hx1 := (x.1.getD 1 0).toNat_lt
  have hy1 := (y.1.getD 1 0).toNat_lt
  unfold shortCode at h
  have h0 : x.1.getD 0 0 = y.1.getD 0 0 := UInt8.toNat_inj.mp (by omega)
  have h1 : x.1.getD 1 0 = y.1.getD 1 0 := UInt8.toNat_inj.mp (by omega)
  have hscan := scan_short x.2 hx
  rw [h0, h1, scan_short y.2 hy] at hscan
  exact Subtype.ext (Option.some_inj.mp hscan.symm)

theorem short_length_le {names : List CName} (h : names.Nodup)
    (hshort : ∀ name ∈ names, strlen name ≤ 2) : names.length ≤ 65536 := by
  have hnodup : (names.map shortCode).Nodup :=
    h.map_on fun x hx y hy => shortCode_inj (hshort x hx) (hshort y hy)
  have hsub : names.map shortCode ⊆ List.range 65536 := by
    intro code hcode
    obtain ⟨name, -, rfl⟩ := List.mem_map.mp hcode
    exact List.mem_range.mpr (shortCode_lt name)
  have hle := (List.subperm_of_subset hnodup hsub).length_le
  rwa [List.length_map, List.length_range] at hle

/-- Distinct names need room: all but `65536` of them take four bytes or more. -/
theorem length_le_of_nodup {names : List CName} (h : names.Nodup) :
    4 * names.length ≤ (image names).length + 4 * 65536 := by
  have hshort : (names.filter fun name => strlen name ≤ 2).length ≤ 65536 :=
    short_length_le (h.filter _) fun name hname => by simpa using (List.mem_filter.mp hname).2
  have hroom : ∀ names : List CName, 4 * names.length ≤
      (image names).length + 4 * (names.filter fun name => strlen name ≤ 2).length := by
    intro names
    induction names with
    | nil => simp
    | cons name names ih =>
      rw [image_length, List.map_cons, List.sum_cons, ← image_length, List.length_cons,
        List.filter_cons]
      by_cases hlen : strlen name ≤ 2
      · rw [if_pos (decide_eq_true hlen), List.length_cons]
        omega
      · rw [if_neg (by simpa using hlen)]
        omega
  have := hroom names
  omega

end HiloUtils.CString
