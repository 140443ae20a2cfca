import Mathlib.Algebra.BigOperators.Group.List.Basic

/-! Amounts dated by second, and their sums over stretches of time. -/

namespace HiloUtils.EventLog

structure Event (α : Type*) where
  second : Int
  amount : α

variable {α : Type*} [AddCommGroup α]

/-- The sum of the amounts dated in `[lo, hi]`. -/
def sumBetween (log : List (Event α)) (lo hi : Int) : α :=
  ((log.filter fun e => decide (lo ≤ e.second ∧ e.second ≤ hi)).map Event.amount).sum

def total (log : List (Event α)) : α := (log.map Event.amount).sum

@[simp] theorem sumBetween_nil (lo hi : Int) : sumBetween ([] : List (Event α)) lo hi = 0 := rfl

theorem sumBetween_cons (e : Event α) (log : List (Event α)) (lo hi : Int) :
    sumBetween (e :: log) lo hi =
      (if lo ≤ e.second ∧ e.second ≤ hi then e.amount else 0) + sumBetween log lo hi := by
  by_cases h : lo ≤ e.second ∧ e.second ≤ hi <;> simp [sumBetween, h]

theorem sumBetween_append (a b : List (Event α)) (lo hi : Int) :
    sumBetween (a ++ b) lo hi = sumBetween a lo hi + sumBetween b lo hi := by
  simp [sumBetween]

theorem sumBetween_append_one (log : List (Event α)) (e : Event α) (lo hi : Int) :
    sumBetween (log ++ [e]) lo hi =
      sumBetween log lo hi + if lo ≤ e.second ∧ e.second ≤ hi then e.amount else 0 := by
  rw [sumBetween_append, sumBetween_cons, sumBetween_nil, add_zero]

theorem sumBetween_split (log : List (Event α)) {lo mid hi : Int} (hl : lo ≤ mid + 1)
    (hh : mid ≤ hi) :
    sumBetween log lo hi = sumBetween log lo mid + sumBetween log (mid + 1) hi := by
  induction log with
  | nil => simp
  | cons e log ih =>
    rw [sumBetween_cons, sumBetween_cons, sumBetween_cons, ih]
    by_cases he : e.second ≤ mid
    · have hsplit : ¬ mid + 1 ≤ e.second := by omega
      have hhi : e.second ≤ hi := by omega
      simp [he, hsplit, hhi, add_assoc]
    · have hsplit : mid + 1 ≤ e.second := by omega
      have hlo : lo ≤ e.second := by omega
      simp [he, hsplit, hlo, add_left_comm]

theorem sumBetween_eq_zero {log : List (Event α)} {lo hi : Int}
    (h : ∀ e ∈ log, ¬ (lo ≤ e.second ∧ e.second ≤ hi)) : sumBetween log lo hi = 0 := by
  induction log with
  | nil => rfl
  | cons e log ih =>
    rw [sumBetween_cons, if_neg (h e (by simp)), zero_add]
    exact ih fun x hx => h x (by simp [hx])

/-- When the window of a log that ends at `now` moves on by one second, it
loses its first second. -/
theorem sumBetween_slide {log : List (Event α)} {lo now : Int} (h : ∀ e ∈ log, e.second ≤ now)
    (hlo : lo ≤ now) :
    sumBetween log (lo + 1) (now + 1) = sumBetween log lo now - sumBetween log lo lo := by
  have hfirst : sumBetween log lo now = sumBetween log lo lo + sumBetween log (lo + 1) now :=
    sumBetween_split log (by omega) hlo
  have hlast : sumBetween log (lo + 1) (now + 1) =
      sumBetween log (lo + 1) now + sumBetween log (now + 1) (now + 1) :=
    sumBetween_split log (by omega) (by omega)
  have hnone : sumBetween log (now + 1) (now + 1) = 0 := by
    apply sumBetween_eq_zero
    intro e he
    have := h e he
    omega
  rw [hlast, hnone, hfirst, add_zero, add_sub_cancel_left]

end HiloUtils.EventLog
