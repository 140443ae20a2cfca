import Mathlib.Algebra.Order.BigOperators.Group.Finset
import Mathlib.Tactic.Ring

/-! The proleptic Gregorian calendar over all years, counted year by year and
month by month. A date carries that it exists, and dates are numbered by the
day before or after them. -/

namespace HiloUtils.Calendar

open scoped BigOperators

def IsLeap (y : Int) : Prop := 400 ∣ y ∨ 4 ∣ y ∧ ¬ 100 ∣ y

instance (y : Int) : Decidable (IsLeap y) := inferInstanceAs (Decidable (_ ∨ _))

def daysInYear (y : Int) : Nat := if IsLeap y then 366 else 365

def daysInMonth (y : Int) (m : Nat) : Nat :=
  if m = 2 then if IsLeap y then 29 else 28
  else if m = 4 ∨ m = 6 ∨ m = 9 ∨ m = 11 then 30
  else 31

/-- The days from the start of year `a` to the start of year `b`, negative
when `b` comes first. -/
def yearDays (a b : Int) : Int :=
  (∑ i ∈ Finset.range (b - a).toNat, (daysInYear (a + i) : Int)) -
    ∑ i ∈ Finset.range (a - b).toNat, (daysInYear (b + i) : Int)

def monthDays (y : Int) (m : Nat) : Nat := ∑ i ∈ Finset.range (m - 1), daysInMonth y (i + 1)

theorem yearDays_self (a : Int) : yearDays a a = 0 := by
  simp [yearDays]

theorem yearDays_succ (a b : Int) : yearDays a (b + 1) = yearDays a b + daysInYear b := by
  rcases lt_or_ge b a with hb | hb
  · have hafter : (b + 1 - a).toNat = 0 := by omega
    have hnone : (b - a).toNat = 0 := by omega
    have hbefore : (a - b).toNat = (a - (b + 1)).toNat + 1 := by omega
    have hshift : ∀ i : Nat, b + 1 + (i : Int) = b + ((i + 1 : Nat) : Int) := fun i => by
      push_cast
      ring
    simp only [yearDays, hafter, hnone, hbefore, Finset.sum_range_zero, hshift,
      Finset.sum_range_succ' _ (a - (b + 1)).toNat, Nat.cast_zero, add_zero]
    ring
  · obtain ⟨n, rfl⟩ := Int.le.dest hb
    have hafter : (a + n + 1 - a).toNat = n + 1 := by omega
    have hsame : (a + n - a).toNat = n := by omega
    have hnone : (a - (a + n + 1)).toNat = 0 := by omega
    have hnone' : (a - (a + n)).toNat = 0 := by omega
    simp only [yearDays, hafter, hsame, hnone, hnone', Finset.sum_range_zero,
      Finset.sum_range_succ, sub_zero]

/-- A count that starts at 0 and grows by each year's days is the count of
days. -/
theorem eq_yearDays {f : Int → Int} {a lo : Int} (hlo : lo ≤ a) (hstart : f a = 0)
    (hstep : ∀ y, lo ≤ y → f (y + 1) = f y + daysInYear y) {y : Int} (hy : lo ≤ y) :
    f y = yearDays a y := by
  have hforward : ∀ n : Nat, f (lo + n) - f lo = yearDays a (lo + n) - yearDays a lo := by
    intro n
    induction n with
    | zero => simp
    | succ n ih =>
      have hyear := hstep (lo + n) (by omega)
      have hcount := yearDays_succ a (lo + n)
      have hnext : lo + ((n + 1 : Nat) : Int) = lo + n + 1 := by omega
      rw [hnext]
      omega
  obtain ⟨n, rfl⟩ := Int.le.dest hy
  obtain ⟨k, hk⟩ := Int.le.dest hlo
  have hhere := hforward n
  have hzero := hforward k
  rw [hk, hstart, yearDays_self] at hzero
  omega

theorem daysInMonth_pos (y : Int) (m : Nat) : 0 < daysInMonth y m := by
  unfold daysInMonth
  split_ifs <;> decide

theorem monthDays_one (y : Int) : monthDays y 1 = 0 := rfl

theorem monthDays_succ (y : Int) {m : Nat} (hm : 1 ≤ m) :
    monthDays y (m + 1) = monthDays y m + daysInMonth y m := by
  obtain ⟨k, rfl⟩ : ∃ k, m = k + 1 := ⟨m - 1, by omega⟩
  exact Finset.sum_range_succ (fun i => daysInMonth y (i + 1)) k

/-- Leap years have the same months, and so have the others. -/
theorem monthDays_congr {y z : Int} (h : IsLeap y ↔ IsLeap z) (m : Nat) :
    monthDays y m = monthDays z m := by
  apply Finset.sum_congr rfl
  intro i _
  simp only [daysInMonth, h]

theorem monthDays_mono (y : Int) {m k : Nat} (h : m ≤ k) : monthDays y m ≤ monthDays y k :=
  Finset.sum_le_sum_of_subset (Finset.range_subset_range.mpr (by omega))

theorem monthDays_year (y : Int) : monthDays y 12 + daysInMonth y 12 = daysInYear y := by
  by_cases hleap : IsLeap y <;>
    simp [monthDays, Finset.sum_range_succ, daysInMonth, daysInYear, hleap]

@[ext] structure Date where
  year : Int
  month : Nat
  day : Nat
  month_pos : 1 ≤ month
  month_le : month ≤ 12
  day_pos : 1 ≤ day
  day_le : day ≤ daysInMonth year month

namespace Date

def newYear (y : Int) : Date where
  year := y
  month := 1
  day := 1
  month_pos := by decide
  month_le := by decide
  day_pos := by decide
  day_le := daysInMonth_pos y 1

def next (d : Date) : Date :=
  if hday : d.day < daysInMonth d.year d.month then
    { d with
      day := d.day + 1
      day_pos := Nat.le_add_left 1 _
      day_le := hday }
  else if hmonth : d.month < 12 then
    { year := d.year
      month := d.month + 1
      day := 1
      month_pos := Nat.le_add_left 1 _
      month_le := hmonth
      day_pos := Nat.le_refl 1
      day_le := daysInMonth_pos _ _ }
  else newYear (d.year + 1)

def prev (d : Date) : Date :=
  if hday : 1 < d.day then
    { d with
      day := d.day - 1
      day_pos := by omega
      day_le := Nat.le_trans (Nat.sub_le _ 1) d.day_le }
  else if hmonth : 1 < d.month then
    { year := d.year
      month := d.month - 1
      day := daysInMonth d.year (d.month - 1)
      month_pos := by omega
      month_le := Nat.le_trans (Nat.sub_le _ 1) d.month_le
      day_pos := daysInMonth_pos _ _
      day_le := Nat.le_refl _ }
  else
    { year := d.year - 1
      month := 12
      day := 31
      month_pos := by decide
      month_le := by decide
      day_pos := by decide
      day_le := Nat.le_refl _ }

def number (a : Int) (d : Date) : Int :=
  yearDays a d.year + monthDays d.year d.month + (d.day - 1)

theorem number_newYear (a y : Int) : number a (newYear y) = yearDays a y := by
  simp [number, newYear, monthDays_one]

theorem number_next (a : Int) (d : Date) : number a d.next = number a d + 1 := by
  have hpos := d.month_pos
  have hmonth_le := d.month_le
  have hday_le := d.day_le
  have hmonths := monthDays_succ d.year d.month_pos
  unfold next
  split_ifs with hday hmonth
  · simp only [number]
    omega
  · simp only [number]
    omega
  · have htwelve : d.month = 12 := by omega
    have hyear := monthDays_year d.year
    have hcount := yearDays_succ a d.year
    rw [htwelve] at hday hday_le
    rw [number_newYear, number, htwelve]
    omega

theorem number_prev (a : Int) (d : Date) : number a d.prev = number a d - 1 := by
  have hpos := d.month_pos
  have hday_pos := d.day_pos
  unfold prev
  split_ifs with hday hmonth
  · simp only [number]
    omega
  · have hmonths := monthDays_succ d.year (m := d.month - 1) (by omega)
    have hback : d.month - 1 + 1 = d.month := by omega
    rw [hback] at hmonths
    simp only [number]
    omega
  · have hone : d.month = 1 := by omega
    have hyear := monthDays_year (d.year - 1)
    have hcount := yearDays_succ a (d.year - 1)
    have hlast : daysInMonth (d.year - 1) 12 = 31 := rfl
    rw [sub_add_cancel] at hcount
    simp only [number, hone, monthDays_one]
    omega

def shift (d : Date) : Int → Date
  | .ofNat n => next^[n] d
  | .negSucc n => prev^[n + 1] d

theorem number_iterate_next (a : Int) (n : Nat) (d : Date) :
    number a (next^[n] d) = number a d + n := by
  induction n generalizing d with
  | zero => simp
  | succ n ih =>
    rw [Function.iterate_succ_apply, ih, number_next]
    omega

theorem number_iterate_prev (a : Int) (n : Nat) (d : Date) :
    number a (prev^[n] d) = number a d - n := by
  induction n generalizing d with
  | zero => simp
  | succ n ih =>
    rw [Function.iterate_succ_apply, ih, number_prev]
    omega

theorem number_shift (a : Int) (d : Date) (k : Int) : number a (d.shift k) = number a d + k := by
  cases k with
  | ofNat n => exact number_iterate_next a n d
  | negSucc n =>
    change number a (prev^[n + 1] d) = number a d + Int.negSucc n
    rw [number_iterate_prev]
    omega

def fields (d : Date) : List Int := [d.year, d.month, d.day]

theorem number_lt_yearDays_succ (a : Int) (d : Date) : number a d < yearDays a (d.year + 1) := by
  have hmonths := monthDays_succ d.year d.month_pos
  have hmono := monthDays_mono d.year (m := d.month + 1) (k := 12 + 1) (Nat.succ_le_succ d.month_le)
  have hyear := monthDays_year d.year
  have hlast := monthDays_succ d.year (m := 12) (by decide)
  have hcount := yearDays_succ a d.year
  have hday := d.day_le
  simp only [number]
  omega

theorem yearDays_le_number (a : Int) (d : Date) : yearDays a d.year ≤ number a d := by
  have hday := d.day_pos
  simp only [number]
  omega

theorem yearDays_mono (a : Int) {b c : Int} (h : b ≤ c) : yearDays a b ≤ yearDays a c := by
  obtain ⟨n, rfl⟩ := Int.le.dest h
  clear h
  induction n with
  | zero => simp
  | succ n ih =>
    have hcount := yearDays_succ a (b + n)
    have hnext : b + ((n + 1 : Nat) : Int) = b + n + 1 := by omega
    rw [hnext]
    omega

theorem number_lt {a : Int} {d e : Date} (h : d.fields < e.fields) : number a d < number a e := by
  simp only [fields, List.cons_lt_cons_iff, List.lt_irrefl, Nat.cast_lt, Nat.cast_inj, and_false,
    or_false] at h
  obtain hyear | ⟨hyear, hmonth | ⟨hmonth, hday⟩⟩ := h
  · have hmono := yearDays_mono a (b := d.year + 1) (c := e.year) hyear
    have hlt := number_lt_yearDays_succ a d
    have hle := yearDays_le_number a e
    omega
  · have hmonths := monthDays_succ d.year d.month_pos
    have hmono := monthDays_mono d.year (m := d.month + 1) (k := e.month) hmonth
    have hday := d.day_le
    have hpos := e.day_pos
    simp only [number, ← hyear]
    omega
  · simp only [number, ← hyear, ← hmonth]
    omega

end Date

end HiloUtils.Calendar
