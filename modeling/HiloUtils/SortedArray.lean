import Mathlib.Data.List.GetD
import Mathlib.Logic.Function.Basic
import Mathlib.Order.Lattice

/-! Sorted arrays in place: cells indexed by `Nat`, of which the first `n` are
live, a binary search for a partition point, and insertion by moving the cells
behind it. The order is that of a key in any linear order. -/

namespace HiloUtils.SortedArray

variable {α κ : Type*}

def live (cells : Nat → α) (n : Nat) : List α := (List.range n).map cells

/-- The cells from `pos` up to `n` moved by one, as `memmove` does. -/
def shift (cells : Nat → α) (pos n : Nat) : Nat → α :=
  fun i => if pos < i ∧ i ≤ n then cells (i - 1) else cells i

/-- A byte block written over the cells from `pos`, as `memcpy` does. -/
def overwrite (cells : Nat → α) (pos : Nat) (block : List α) : Nat → α :=
  fun i => if pos ≤ i then block.getD (i - pos) (cells i) else cells i

/-- The halving search of `std::lower_bound` over `len` cells from `first`; a
comparison may have no result. -/
def lowerBound (comp : α → Option Bool) (cells : Nat → α) (first len : Nat) : Option Nat :=
  if len = 0 then some first
  else
    match comp (cells (first + len / 2)) with
    | none => none
    | some true => lowerBound comp cells (first + len / 2 + 1) (len - len / 2 - 1)
    | some false => lowerBound comp cells first (len / 2)
termination_by len

@[simp] theorem live_length (cells : Nat → α) (n : Nat) : (live cells n).length = n := by
  simp only [live, List.length_map, List.length_range]

@[simp] theorem live_getElem (cells : Nat → α) (n i : Nat) (h : i < (live cells n).length) :
    (live cells n)[i] = cells i := by
  simp only [live, List.getElem_map, List.getElem_range]

theorem mem_live {cells : Nat → α} {n : Nat} {x : α} :
    x ∈ live cells n ↔ ∃ i < n, cells i = x := by
  simp only [live, List.mem_map, List.mem_range]

theorem live_overwrite (cells : Nat → α) {pos n : Nat} {block : List α}
    (h : pos + block.length ≤ n) :
    live (overwrite cells pos block) n =
      (live cells n).take pos ++ block ++ (live cells n).drop (pos + block.length) := by
  have hmin : min pos n = pos := Nat.min_eq_left (by omega)
  apply List.ext_getElem
  · simp only [live_length, List.length_append, List.length_take, List.length_drop]
    omega
  · intro i hi hi'
    rw [live_length] at hi
    simp only [live_getElem, overwrite, List.getElem_append, List.length_append,
      List.length_take, live_length, List.getElem_take, List.getElem_drop, hmin]
    by_cases hlt : i < pos
    · rw [if_neg (by omega), dif_pos (by omega), dif_pos hlt]
    · rw [if_pos (by omega)]
      by_cases hblock : i < pos + block.length
      · rw [dif_pos hblock, dif_neg hlt, List.getD_eq_getElem _ _ (by omega)]
      · rw [dif_neg hblock, List.getD_eq_default _ _ (by omega)]
        congr 1
        omega

theorem live_insert (cells : Nat → α) (x : α) {pos n : Nat} (h : pos ≤ n) :
    live (Function.update (shift cells pos n) pos x) (n + 1) =
      (live cells n).take pos ++ x :: (live cells n).drop pos := by
  have hmin : min pos n = pos := Nat.min_eq_left h
  apply List.ext_getElem
  · simp only [live_length, List.length_append, List.length_cons, List.length_take,
      List.length_drop]
    omega
  · intro i hi hi'
    rw [live_length] at hi
    simp only [live_getElem, List.getElem_append, List.getElem_cons, List.length_take,
      live_length, List.getElem_take, List.getElem_drop, hmin]
    rcases Nat.lt_trichotomy i pos with hlt | heq | hgt
    · rw [dif_pos hlt, Function.update_of_ne (Nat.ne_of_lt hlt), shift, if_neg (by omega)]
    · subst heq
      rw [dif_neg (Nat.lt_irrefl _), dif_pos (Nat.sub_self _), Function.update_self]
    · rw [dif_neg (by omega), dif_neg (by omega),
        Function.update_of_ne (Nat.ne_of_gt hgt), shift, if_pos (by omega)]
      congr 1
      omega

theorem live_insert_last (cells : Nat → α) (x : α) (n : Nat) :
    live (Function.update cells n x) (n + 1) = live cells n ++ [x] := by
  simp only [live, List.range_succ, List.map_append, List.map_cons, List.map_nil,
    Function.update_self]
  congr 1
  apply List.map_congr_left
  intro i hi
  exact Function.update_of_ne (Nat.ne_of_lt (List.mem_range.mp hi)) _ _

theorem lowerBound_eq {comp : α → Option Bool} {cells : Nat → α} {first len r : Nat}
    (hr : first ≤ r ∧ r ≤ first + len)
    (hcomp : ∀ i, first ≤ i → i < first + len → comp (cells i) = some (decide (i < r))) :
    lowerBound comp cells first len = some r := by
  induction len using Nat.strongRecOn generalizing first with
  | _ len ih =>
    rw [lowerBound]
    by_cases hlen : len = 0
    · rw [if_pos hlen]
      congr 1
      omega
    · rw [if_neg hlen, hcomp _ (by omega) (by omega)]
      by_cases hmid : first + len / 2 < r
      · rw [decide_eq_true hmid]
        exact ih _ (by omega) (by omega) fun i hl hu => hcomp i (by omega) (by omega)
      · rw [decide_eq_false hmid]
        exact ih _ (by omega) (by omega) fun i hl hu => hcomp i (by omega) (by omega)

section

variable [LinearOrder κ] {key : α → κ} {xs : List α} {x : α} {t : κ}

def Sorted (key : α → κ) (xs : List α) : Prop := xs.Pairwise fun a b => key a < key b

/-- `r` splits the list into keys below `t` and keys from `t` on. -/
structure SplitsAt (key : α → κ) (xs : List α) (t : κ) (r : Nat) : Prop where
  le : r ≤ xs.length
  below : ∀ a ∈ xs.take r, key a < t
  above : ∀ a ∈ xs.drop r, t ≤ key a

theorem Sorted.congr {key' : α → κ} (heq : ∀ a ∈ xs, key a = key' a) (h : Sorted key xs) :
    Sorted key' xs := by
  refine List.Pairwise.imp_of_mem ?_ h
  intro a b ha hb hlt
  rwa [← heq a ha, ← heq b hb]

theorem SplitsAt.congr {key' : α → κ} {r : Nat} (heq : ∀ a ∈ xs, key a = key' a)
    (h : SplitsAt key xs t r) : SplitsAt key' xs t r where
  le := h.le
  below a ha := heq a (List.mem_of_mem_take ha) ▸ h.below a ha
  above a ha := heq a (List.mem_of_mem_drop ha) ▸ h.above a ha

theorem Sorted.exists_split (h : Sorted key xs) (t : κ) : ∃ r, SplitsAt key xs t r := by
  induction xs with
  | nil => exact ⟨0, Nat.le_refl _, by simp, by simp⟩
  | cons a xs ih =>
    obtain ⟨hhead, htail⟩ := List.pairwise_cons.mp h
    by_cases ha : key a < t
    · obtain ⟨r, hr⟩ := ih htail
      refine ⟨r + 1, Nat.succ_le_succ hr.le, ?_, hr.above⟩
      intro b hb
      rcases List.mem_cons.mp hb with rfl | hb
      · exact ha
      · exact hr.below b hb
    · refine ⟨0, Nat.zero_le _, by simp, ?_⟩
      intro b hb
      rcases List.mem_cons.mp hb with rfl | hb
      · exact le_of_not_gt ha
      · exact le_trans (le_of_not_gt ha) (le_of_lt (hhead b hb))

theorem SplitsAt.lt_iff {r : Nat} (h : SplitsAt key xs t r) {i : Nat} (hi : i < xs.length) :
    key xs[i] < t ↔ i < r := by
  constructor
  · intro hlt
    by_contra hle
    have hmem : xs[i] ∈ xs.drop r :=
      List.mem_drop_iff_getElem.mpr ⟨i - r, by omega, by congr 1; omega⟩
    exact absurd hlt (not_lt.mpr (h.above _ hmem))
  · intro hlt
    exact h.below _ (List.mem_take_iff_getElem.mpr ⟨i, by omega, rfl⟩)

theorem SplitsAt.mem_between {t' : κ} {r r' : Nat} (h : SplitsAt key xs t r)
    (h' : SplitsAt key xs t' r') {a : α} :
    a ∈ (xs.take r').drop r ↔ a ∈ xs ∧ ¬ key a < t ∧ key a < t' := by
  constructor
  · intro ha
    have htake := List.mem_of_mem_drop ha
    rw [List.drop_take] at ha
    exact ⟨List.mem_of_mem_take htake, not_lt.mpr (h.above a (List.mem_of_mem_take ha)),
      h'.below a htake⟩
  · rintro ⟨ha, hlow, hhigh⟩
    obtain ⟨i, hi, rfl⟩ := List.getElem_of_mem ha
    rw [h.lt_iff hi] at hlow
    rw [h'.lt_iff hi] at hhigh
    have hle := h'.le
    refine List.mem_drop_iff_getElem.mpr ⟨i - r, ?_, ?_⟩
    · rw [List.length_take]
      omega
    · rw [List.getElem_take]
      congr 1
      omega

theorem lowerBound_split {comp : α → Option Bool} {cells : Nat → α} {n r : Nat}
    (h : SplitsAt key (live cells n) t r)
    (hcomp : ∀ i < n, comp (cells i) = some (decide (key (cells i) < t))) :
    lowerBound comp cells 0 n = some r := by
  have hle := h.le
  rw [live_length] at hle
  apply lowerBound_eq (by omega)
  intro i _ hi
  have hlt := h.lt_iff (i := i) (by rw [live_length]; omega)
  rw [live_getElem] at hlt
  rw [hcomp i (by omega)]
  simp only [hlt]

theorem Sorted.insert {r : Nat} (h : Sorted key xs) (hr : SplitsAt key xs (key x) r)
    (hne : ∀ a ∈ xs, key a ≠ key x) : Sorted key (xs.take r ++ x :: xs.drop r) := by
  have habove : ∀ a ∈ xs.drop r, key x < key a := fun a ha =>
    lt_of_le_of_ne (hr.above a ha) (hne a (List.mem_of_mem_drop ha)).symm
  rw [Sorted, ← List.take_append_drop r xs] at h
  obtain ⟨htake, hdrop, hcross⟩ := List.pairwise_append.mp h
  refine List.pairwise_append.mpr ⟨htake, List.pairwise_cons.mpr ⟨habove, hdrop⟩, ?_⟩
  intro a ha b hb
  rcases List.mem_cons.mp hb with rfl | hb
  · exact hr.below a ha
  · exact hcross a ha b hb

theorem SplitsAt.ne_of_ne {r : Nat} (hs : Sorted key xs) (h : SplitsAt key xs t r)
    (hr : ∀ hlt : r < xs.length, key xs[r] ≠ t) : ∀ a ∈ xs, key a ≠ t := by
  intro a ha heq
  obtain ⟨i, hi, rfl⟩ := List.getElem_of_mem ha
  have hle : ¬ i < r := fun hlt => ne_of_lt ((h.lt_iff hi).mpr hlt) heq
  rcases Nat.eq_or_lt_of_le (Nat.le_of_not_lt hle) with rfl | hgt
  · exact hr hi heq
  · have hlt := List.pairwise_iff_getElem.mp hs r i (by omega) hi hgt
    exact absurd ((h.lt_iff (i := r) (by omega)).mp (heq ▸ hlt)) (Nat.lt_irrefl r)

end

end HiloUtils.SortedArray
