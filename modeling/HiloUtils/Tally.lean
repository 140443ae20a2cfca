import Mathlib.Algebra.Order.BigOperators.Group.Finset
import Mathlib.Algebra.BigOperators.Ring.Finset
import HiloUtils.Word

/-! An amount that is counted in one shared 64-bit word and in a word of each
process, which moves its own into the shared one from time to time. -/

namespace HiloUtils

open Word

variable {P : Type*} [Fintype P]

theorem sum_update_add [DecidableEq P] (t : P → Nat) (p : P) (n : Nat) :
    ∑ q, Function.update t p n q + t p = ∑ q, t q + n := by
  have hsum := Finset.sum_update_of_mem (Finset.mem_univ p) t n
  have herase := Finset.add_sum_erase Finset.univ t (Finset.mem_univ p)
  rw [Finset.sdiff_singleton_eq_erase] at hsum
  omega

theorem i64_sum_congr {α : Type*} {s : Finset α} {f g : α → Int}
    (h : ∀ x ∈ s, i64 (f x) = i64 (g x)) : i64 (∑ x ∈ s, f x) = i64 (∑ x ∈ s, g x) := by
  classical
  induction s using Finset.induction_on with
  | empty => rfl
  | insert a s ha ih =>
    have hs := ih fun x hx => h x (Finset.mem_insert_of_mem hx)
    rw [Finset.sum_insert ha, Finset.sum_insert ha, ← i64_add_i64, hs, i64_add_i64, ← i64_i64_add,
      h a (Finset.mem_insert_self a s), i64_i64_add]

/-- The words hold the amount, each of them modulo `2 ^ 64`. -/
def Tally (shared : Int) (own : P → Int) (amount : Nat) : Prop :=
  ∃ (h : Nat) (t : P → Nat), shared = i64 h ∧ (∀ p, own p = i64 (t p)) ∧ h + ∑ p, t p = amount

namespace Tally

variable {shared : Int} {own own' : P → Int} {amount : Nat}

theorem zero (hown : ∀ p, own p = 0) : Tally 0 own 0 :=
  ⟨0, fun _ => 0, (i64_natCast (by decide)).symm,
    fun p => (hown p).trans (i64_natCast (by decide)).symm, by simp⟩

theorem earn [DecidableEq P] (h : Tally shared own amount) (p : P) (n : Nat)
    (hp : own' p = i64 (own p + n)) (hother : ∀ q ≠ p, own' q = own q) :
    Tally shared own' (amount + n) := by
  obtain ⟨a, t, hshared, hown, hsum⟩ := h
  refine ⟨a, Function.update t p (t p + n), hshared, ?_, ?_⟩
  · intro q
    rcases eq_or_ne q p with rfl | hne
    · rw [Function.update_self, hp, hown, i64_i64_add, Int.natCast_add]
    · rw [Function.update_of_ne hne, hother q hne, hown]
  · have := sum_update_add t p (t p + n)
    omega

theorem transfer [DecidableEq P] (h : Tally shared own amount) (p : P)
    (hp : own' p = 0) (hother : ∀ q ≠ p, own' q = own q) :
    Tally (i64 (shared + own p)) own' amount := by
  obtain ⟨a, t, hshared, hown, hsum⟩ := h
  refine ⟨a + t p, Function.update t p 0, ?_, ?_, ?_⟩
  · rw [hshared, hown, i64_i64_add, i64_add_i64, Int.natCast_add]
  · intro q
    rcases eq_or_ne q p with rfl | hne
    · rw [Function.update_self, hp]
      exact (i64_natCast (by decide)).symm
    · rw [Function.update_of_ne hne, hother q hne, hown]
  · have := sum_update_add t p 0
    omega

/-- Nothing is lost or counted twice while the amount fits a signed word. -/
theorem exact (h : Tally shared own amount) (hlt : amount < 2 ^ 63) :
    shared + ∑ p, own p = amount := by
  obtain ⟨a, t, hshared, hown, hsum⟩ := h
  have ht : ∀ p, own p = (t p : Int) := by
    intro p
    have hle : t p ≤ ∑ q, t q := Finset.single_le_sum_of_canonicallyOrdered (Finset.mem_univ p)
    rw [hown, i64_natCast (by omega)]
  rw [hshared, i64_natCast (by omega), Finset.sum_congr rfl fun p _ => ht p, ← hsum]
  rw [Int.natCast_add, Nat.cast_sum]

end Tally

end HiloUtils
