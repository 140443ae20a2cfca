import Mathlib.Algebra.GroupWithZero.Nat
import Mathlib.Data.List.Basic
import Mathlib.Data.List.Infix

/-! A first-in first-out list whose elements have weights and whose total
weight is bounded. A new element that does not fit can be let in by evicting a
prefix: `evictions` is the length of the shortest prefix that makes room. -/

namespace HiloUtils.BoundedFifo

variable {α : Type*} (weight : α → Nat) (cap : Nat)

def total (q : List α) : Nat := (q.map weight).sum

@[simp] theorem total_nil : total weight [] = 0 := rfl

@[simp] theorem total_cons (x : α) (q : List α) :
    total weight (x :: q) = weight x + total weight q := by
  simp [total]

@[simp] theorem total_append (a b : List α) :
    total weight (a ++ b) = total weight a + total weight b := by
  simp [total]

theorem length_le_total (h : ∀ x, 0 < weight x) (q : List α) : q.length ≤ total weight q := by
  induction q with
  | nil => exact Nat.le_refl _
  | cons x q ih =>
    have := h x
    rw [List.length_cons, total_cons]
    omega

theorem total_take_add_drop (n : Nat) (q : List α) :
    total weight (q.take n) + total weight (q.drop n) = total weight q := by
  rw [← total_append, List.take_append_drop]

def evictions (need : Nat) : List α → Nat
  | [] => 0
  | x :: q => if total weight (x :: q) + need ≤ cap then 0 else evictions need q + 1

theorem evictions_le (need : Nat) (q : List α) : evictions weight cap need q ≤ q.length := by
  induction q with
  | nil => exact Nat.le_refl _
  | cons x q ih =>
    rw [evictions]
    split
    · exact Nat.zero_le _
    · exact Nat.succ_le_succ ih

theorem evictions_eq_zero {need : Nat} {q : List α} (h : total weight q + need ≤ cap) :
    evictions weight cap need q = 0 := by
  cases q with
  | nil => rfl
  | cons x q => rw [evictions, if_pos h]

theorem evictions_fit {need : Nat} (h : need ≤ cap) (q : List α) :
    total weight (q.drop (evictions weight cap need q)) + need ≤ cap := by
  induction q with
  | nil => simpa using h
  | cons x q ih =>
    rw [evictions]
    split
    · next hfit => exact hfit
    · exact ih

theorem evictions_least {need k : Nat} {q : List α} (hk : k < evictions weight cap need q) :
    ¬ total weight (q.drop k) + need ≤ cap := by
  induction q generalizing k with
  | nil => exact absurd hk (Nat.not_lt_zero _)
  | cons x q ih =>
    rw [evictions] at hk
    split at hk
    · exact absurd hk (Nat.not_lt_zero _)
    · next hfull =>
      cases k with
      | zero => exact hfull
      | succ k => exact ih (Nat.lt_of_succ_lt_succ hk)

/-! What is left of a list of which only the end is kept. -/

def lastFit : List α → List α
  | [] => []
  | x :: q => if total weight (x :: q) ≤ cap then x :: q else lastFit q

theorem lastFit_eq_self {q : List α} (h : total weight q ≤ cap) : lastFit weight cap q = q := by
  cases q with
  | nil => rfl
  | cons x q => rw [lastFit, if_pos h]

/-- Dropping before one more element or after it comes to the same. -/
theorem lastFit_lastFit_append (q : List α) (x : α) :
    lastFit weight cap (lastFit weight cap q ++ [x]) = lastFit weight cap (q ++ [x]) := by
  induction q with
  | nil => rfl
  | cons y q ih =>
    by_cases hfit : total weight (y :: q) ≤ cap
    · rw [lastFit_eq_self weight cap hfit]
    · have hfull : ¬ total weight (y :: (q ++ [x])) ≤ cap := by
        simp only [total_cons, total_append] at hfit ⊢
        omega
      rw [lastFit, if_neg hfit, List.cons_append, ih, lastFit, if_neg hfull]

theorem lastFit_append_one {x : α} (hx : weight x ≤ cap) (q : List α) :
    lastFit weight cap (q ++ [x]) = q.drop (evictions weight cap (weight x) q) ++ [x] := by
  have hone : total weight [x] = weight x := Nat.add_zero _
  induction q with
  | nil => exact lastFit_eq_self weight cap (hone ▸ hx)
  | cons y q ih =>
    rw [List.cons_append, lastFit, evictions, ← List.cons_append, total_append, hone]
    split
    · rfl
    · rw [ih, List.drop_succ_cons]

theorem lastFit_map {β : Type*} (f : β → α) (q : List β) :
    lastFit weight cap (q.map f) = (lastFit (fun x => weight (f x)) cap q).map f := by
  induction q with
  | nil => rfl
  | cons x q ih =>
    have htotal : total weight ((x :: q).map f) = total (fun x => weight (f x)) (x :: q) := by
      rw [total, total, List.map_map]
      rfl
    rw [List.map_cons, lastFit, ← List.map_cons, htotal, ih, lastFit]
    split <;> rfl

end HiloUtils.BoundedFifo
