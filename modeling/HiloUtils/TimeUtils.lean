import HiloUtils.Word
import HiloUtils.Calendar
import Mathlib.Tactic.IntervalCases

/-! Timestamps of `time_utils.cpp`: the count of seconds of a UTC timestamp and
back through `gmtime_r`, and the same in microseconds. A read outside the month
table has no result. -/

namespace HiloUtils.TimeUtils

open Word Calendar

structure Timestamp where
  year : Int
  month : Nat
  day : Nat
  hour : Nat
  minute : Nat
  second : Nat
  /-- In nanoseconds. -/
  fraction : Nat

def isLeap (year : Int) : Nat :=
  if year.tmod 400 = 0 then 1
  else if year.tmod 100 = 0 then 0
  else if year.tmod 4 = 0 then 1
  else 0

def daysFrom0 (year : Int) : Int :=
  365 * (year - 1) + (year - 1).tdiv 400 - (year - 1).tdiv 100 + (year - 1).tdiv 4

def daysFrom1970 (year : Int) : Int := daysFrom0 year - daysFrom0 1970

def days : List (List Int) :=
  [[0, 0, 31, 59, 90, 120, 151, 181, 212, 243, 273, 304, 334],
    [0, 0, 31, 60, 91, 121, 152, 182, 213, 244, 274, 305, 335]]

def daysFrom1jan (year : Int) (month day : Nat) : Option Int :=
  (days[isLeap year]?.bind fun table => table[month]?).map fun before => before + day - 1

def secondsInDay : Int := 3600 * 24

def ts2time (t : Timestamp) : Option Int :=
  (daysFrom1jan t.year t.month t.day).map fun dayOfYear =>
    let daysSinceEpoch := daysFrom1970 t.year + dayOfYear
    secondsInDay * daysSinceEpoch + 3600 * t.hour + 60 * t.minute + t.second

structure Tm where
  sec : Int
  min : Int
  hour : Int
  mday : Int
  mon : Int
  year : Int

def time2ts (gmtimeR : Int → Tm) (t : Int) : Timestamp :=
  let tm := gmtimeR t
  { year := i16 (tm.year + 1900)
    month := u16 (tm.mon + 1)
    day := u16 tm.mday
    hour := u16 tm.hour
    minute := u16 tm.min
    second := u16 tm.sec
    fraction := 0 }

def us2ts (gmtimeR : Int → Tm) (us : Int) : Timestamp :=
  { time2ts gmtimeR (us.tdiv 1000000) with
    fraction := ofI32 (us.tmod 1000000 * 1000) }

def ts2us (ts : Timestamp) : Option Int :=
  (ts2time ts).map fun t => t * 1000000 + (ts.fraction / 1000 : Nat)

namespace Timestamp

structure Valid (t : Timestamp) : Prop where
  year_pos : 1 ≤ t.year
  year_le : t.year ≤ 32767
  month_pos : 1 ≤ t.month
  month_le : t.month ≤ 12
  day_pos : 1 ≤ t.day
  day_le : t.day ≤ daysInMonth t.year t.month
  hour_lt : t.hour < 24
  minute_lt : t.minute < 60
  second_lt : t.second < 60

/-- Seconds since 1970, by days counted year by year and month by month. -/
def count (t : Timestamp) : Int :=
  86400 * (yearDays 1970 t.year + monthDays t.year t.month + (t.day - 1)) +
    3600 * t.hour + 60 * t.minute + t.second

def fields (t : Timestamp) : List Int :=
  [t.year, t.month, t.day, t.hour, t.minute, t.second]

def date (t : Timestamp) (h : t.Valid) : Date where
  year := t.year
  month := t.month
  day := t.day
  month_pos := h.month_pos
  month_le := h.month_le
  day_pos := h.day_pos
  day_le := h.day_le

theorem count_eq (t : Timestamp) (h : t.Valid) :
    t.count = 86400 * (t.date h).number 1970 + 3600 * t.hour + 60 * t.minute + t.second := rfl

theorem count_lt {s t : Timestamp} (hs : s.Valid) (ht : t.Valid) (h : s.fields < t.fields) :
    s.count < t.count := by
  have hdates : (s.date hs).fields < (t.date ht).fields ∨
      ((s.date hs).fields = (t.date ht).fields ∧
        3600 * s.hour + 60 * s.minute + s.second < 3600 * t.hour + 60 * t.minute + t.second) := by
    have hhour := hs.hour_lt
    have hminute := hs.minute_lt
    have hsecond := hs.second_lt
    simp only [fields, Date.fields, date, List.cons_lt_cons_iff, List.lt_irrefl, Nat.cast_lt,
      Nat.cast_inj, and_false, or_false, List.cons.injEq, and_true] at h ⊢
    omega
  rw [count_eq s hs, count_eq t ht]
  have := hs.hour_lt
  have := hs.minute_lt
  have := hs.second_lt
  obtain hlt | ⟨heq, hclock⟩ := hdates
  · have hnumber := Date.number_lt (a := 1970) hlt
    omega
  · have hnumber : (s.date hs).number 1970 = (t.date ht).number 1970 := by
      simp only [Date.fields, List.cons.injEq, Nat.cast_inj, and_true] at heq
      simp only [Date.number, heq]
    omega

end Timestamp

def utcDate (t : Int) : Date := (Date.newYear 1970).shift (t / 86400)

def utcTm (t : Int) : Tm where
  sec := t % 60
  min := t / 60 % 60
  hour := t / 3600 % 24
  mday := (utcDate t).day
  mon := (utcDate t).month - 1
  year := (utcDate t).year - 1900

def YearInRange (t : Int) : Prop := 1 ≤ (utcDate t).year ∧ (utcDate t).year ≤ 32767

instance (t : Int) : Decidable (YearInRange t) := inferInstanceAs (Decidable (_ ∧ _))

/-- `gmtime_r` gives the Gregorian UTC fields. -/
def IsUtc (gmtimeR : Int → Tm) : Prop := ∀ t, YearInRange t → gmtimeR t = utcTm t

theorem isLeap_eq (year : Int) : isLeap year = if IsLeap year then 1 else 0 := by
  simp only [isLeap, ← Int.dvd_iff_tmod_eq_zero]
  by_cases hleap : IsLeap year
  · rw [if_pos hleap]
    unfold IsLeap at hleap
    split_ifs <;> omega
  · rw [if_neg hleap]
    unfold IsLeap at hleap
    split_ifs <;> omega

theorem daysFrom0_succ {y : Int} (hy : 1 ≤ y) :
    daysFrom0 (y + 1) = daysFrom0 y + daysInYear y := by
  have hyear : (daysInYear y : Int) = 365 + (y / 400 - (y - 1) / 400) -
      (y / 100 - (y - 1) / 100) + (y / 4 - (y - 1) / 4) := by
    by_cases hleap : IsLeap y
    · rw [daysInYear, if_pos hleap]
      unfold IsLeap at hleap
      omega
    · rw [daysInYear, if_neg hleap]
      unfold IsLeap at hleap
      omega
  simp only [daysFrom0, add_sub_cancel_right, Int.tdiv_eq_ediv_of_nonneg (show 0 ≤ y by omega),
    Int.tdiv_eq_ediv_of_nonneg (show 0 ≤ y - 1 by omega), hyear]
  omega

theorem daysFrom1970_eq {y : Int} (hy : 1 ≤ y) : daysFrom1970 y = yearDays 1970 y := by
  have hstep : ∀ z, 1 ≤ z → daysFrom1970 (z + 1) = daysFrom1970 z + daysInYear z := by
    intro z hz
    have hnext := daysFrom0_succ hz
    simp only [daysFrom1970]
    omega
  have hepoch : (1 : Int) ≤ 1970 := by decide
  have hstart : daysFrom1970 1970 = 0 := sub_self _
  exact eq_yearDays hepoch hstart hstep hy

theorem daysFrom1jan_eq (y : Int) {m : Nat} (hpos : 1 ≤ m) (hle : m ≤ 12) (d : Nat) :
    daysFrom1jan y m d = some ((monthDays y m : Int) + d - 1) := by
  have hleapRow : ∀ m ≤ 12, 1 ≤ m → days[1]?.bind (·[m]?) = some (monthDays 4 m : Int) := by decide
  have hplainRow : ∀ m ≤ 12, 1 ≤ m → days[0]?.bind (·[m]?) = some (monthDays 1 m : Int) := by decide
  rw [daysFrom1jan, isLeap_eq]
  by_cases hleap : IsLeap y
  · have hfour : IsLeap y ↔ IsLeap 4 := iff_of_true hleap (by decide)
    rw [if_pos hleap, hleapRow m hle hpos, monthDays_congr hfour]
    rfl
  · have hone : IsLeap y ↔ IsLeap 1 := iff_of_false hleap (by decide)
    rw [if_neg hleap, hplainRow m hle hpos, monthDays_congr hone]
    rfl

theorem ts2time_eq {t : Timestamp} (ht : t.Valid) : ts2time t = some t.count := by
  rw [ts2time, daysFrom1jan_eq _ ht.month_pos ht.month_le, daysFrom1970_eq ht.year_pos,
    Option.map_some]
  simp only [secondsInDay, Timestamp.count]
  congr 1
  omega

theorem daysFrom0_bounds {y : Int} (hlo : 1 ≤ y) (hhi : y ≤ 32767) :
    0 ≤ daysFrom0 y ∧ daysFrom0 y < 2 ^ 31 ∧ 365 * (y - 1) + (y - 1).tdiv 400 < 2 ^ 31 := by
  simp only [daysFrom0, Int.tdiv_eq_ediv_of_nonneg (show 0 ≤ y - 1 by omega)]
  omega

theorem u16_natCast {n : Nat} (h : n < 2 ^ 16) : u16 n = n := by
  simp only [u16]
  omega

theorem daysInMonth_le (y : Int) (m : Nat) : daysInMonth y m ≤ 31 := by
  unfold daysInMonth
  split_ifs <;> decide

theorem time2ts_eq {gmtimeR : Int → Tm} (hutc : IsUtc gmtimeR) {t : Int} (ht : YearInRange t) :
    time2ts gmtimeR t =
      { year := (utcDate t).year
        month := (utcDate t).month
        day := (utcDate t).day
        hour := (t / 3600 % 24).toNat
        minute := (t / 60 % 60).toNat
        second := (t % 60).toNat
        fraction := 0 } := by
  obtain ⟨hlo, hhi⟩ := ht
  have hmonth := (utcDate t).month_le
  have hday := Nat.le_trans (utcDate t).day_le (daysInMonth_le _ _)
  simp only [time2ts, hutc t ⟨hlo, hhi⟩, utcTm, Timestamp.mk.injEq, and_true]
  refine ⟨?_, ?_, ?_, ?_, ?_, ?_⟩
  · simp only [i16]
    omega
  · rw [sub_add_cancel, u16_natCast (by omega)]
  · exact u16_natCast (by omega)
  · simp only [u16]
    omega
  · simp only [u16]
    omega
  · simp only [u16]
    omega

theorem time2ts_valid {gmtimeR : Int → Tm} (hutc : IsUtc gmtimeR) {t : Int}
    (ht : YearInRange t) : (time2ts gmtimeR t).Valid := by
  rw [time2ts_eq hutc ht]
  exact
    { year_pos := ht.1
      year_le := ht.2
      month_pos := (utcDate t).month_pos
      month_le := (utcDate t).month_le
      day_pos := (utcDate t).day_pos
      day_le := (utcDate t).day_le
      hour_lt := by
        change (t / 3600 % 24).toNat < 24
        omega
      minute_lt := by
        change (t / 60 % 60).toNat < 60
        omega
      second_lt := by
        change (t % 60).toNat < 60
        omega }

theorem time2ts_count {gmtimeR : Int → Tm} (hutc : IsUtc gmtimeR) {t : Int}
    (ht : YearInRange t) : (time2ts gmtimeR t).count = t := by
  have hnumber := Date.number_shift 1970 (Date.newYear 1970) (t / 86400)
  rw [Date.number_newYear, yearDays_self, zero_add] at hnumber
  change yearDays 1970 (utcDate t).year + monthDays (utcDate t).year (utcDate t).month +
    ((utcDate t).day - 1) = t / 86400 at hnumber
  rw [time2ts_eq hutc ht]
  simp only [Timestamp.count, hnumber]
  omega

/-- The seconds of a timestamp are the count of the proleptic Gregorian
calendar. -/
theorem ts2time_gregorian {gmtimeR : Int → Tm} (hutc : IsUtc gmtimeR) :
    (∀ t : Timestamp, t.Valid → ts2time t = some t.count) ∧
      (∀ s t : Timestamp, s.Valid → t.Valid → s.fields < t.fields →
        ∃ a b, ts2time s = some a ∧ ts2time t = some b ∧ a < b) ∧
      ∀ t, YearInRange t → ts2time (time2ts gmtimeR t) = some t := by
  refine ⟨fun t ht => ts2time_eq ht, fun s t hs ht hlt => ?_, fun t ht => ?_⟩
  · exact ⟨_, _, ts2time_eq hs, ts2time_eq ht, Timestamp.count_lt hs ht hlt⟩
  · rw [ts2time_eq (time2ts_valid hutc ht), time2ts_count hutc ht]

theorem ts2time_gregorian_utcTm :
    (∀ t : Timestamp, t.Valid → ts2time t = some t.count) ∧
      (∀ s t : Timestamp, s.Valid → t.Valid → s.fields < t.fields →
        ∃ a b, ts2time s = some a ∧ ts2time t = some b ∧ a < b) ∧
      ∀ t, YearInRange t → ts2time (time2ts utcTm t) = some t :=
  ts2time_gregorian fun _ _ => rfl

theorem tdiv_tmod_million {us : Int} (h : 0 ≤ us ∨ 1000000 ∣ us) :
    us.tdiv 1000000 = us / 1000000 ∧ us.tmod 1000000 = us % 1000000 := by
  have hdiv : us.tdiv 1000000 = us / 1000000 := by
    rw [Int.tdiv_eq_ediv, if_pos h, add_zero]
  refine ⟨hdiv, ?_⟩
  rw [Int.tmod_def, hdiv]
  omega

theorem tmod_million_neg {us : Int} (h : ¬ (0 ≤ us ∨ 1000000 ∣ us)) :
    us.tmod 1000000 = us % 1000000 - 1000000 := by
  have hsign : Int.sign 1000000 = 1 := rfl
  rw [Int.tmod_def, Int.tdiv_eq_ediv, if_neg h, hsign]
  omega

/-- A negative remainder wraps into a fraction of more than three seconds. -/
theorem fraction_of_neg (gmtimeR : Int → Tm) {us : Int} (h : ¬ (0 ≤ us ∨ 1000000 ∣ us)) :
    3294967296 ≤ (us2ts gmtimeR us).fraction := by
  have hquot : (us % 1000000 - 1000000) * 1000 / 2 ^ 32 = -1 := by omega
  simp only [us2ts, tmod_million_neg h, ofI32]
  omega

/-- Microseconds survive the way through a timestamp exactly from 1970 on and
on whole seconds. -/
theorem ts2us_us2ts_iff {gmtimeR : Int → Tm} (hutc : IsUtc gmtimeR) {us : Int}
    (hrange : YearInRange (us / 1000000)) :
    ((us2ts gmtimeR us).fraction < 10 ^ 9 ∧ ts2us (us2ts gmtimeR us) = some us) ↔
      0 ≤ us ∨ 1000000 ∣ us := by
  constructor
  · rintro ⟨hfraction, -⟩
    by_contra hneg
    have hwrapped := fraction_of_neg gmtimeR hneg
    omega
  · intro h
    obtain ⟨hdiv, hmod⟩ := tdiv_tmod_million h
    have hfraction : (us2ts gmtimeR us).fraction = (us % 1000000 * 1000).toNat := by
      simp only [us2ts, hmod]
      exact ofI32_of_bounds (by omega) (by omega)
    have hseconds : ts2time (us2ts gmtimeR us) = some (us / 1000000) := by
      change ts2time (time2ts gmtimeR (us.tdiv 1000000)) = _
      rw [hdiv, ts2time_eq (time2ts_valid hutc hrange), time2ts_count hutc hrange]
    rw [ts2us, hseconds, hfraction, Option.map_some]
    refine ⟨by omega, ?_⟩
    congr 1
    omega

theorem ts2us_us2ts_iff_second :
    ((us2ts utcTm 1500000).fraction < 10 ^ 9 ∧ ts2us (us2ts utcTm 1500000) = some 1500000) ↔
      (0 : Int) ≤ 1500000 ∨ (1000000 : Int) ∣ 1500000 :=
  ts2us_us2ts_iff (fun _ _ => rfl) (by decide)

theorem us2ts_last_of_1969 :
    ¬ ∀ gmtimeR : Int → Tm, IsUtc gmtimeR → ∀ us : Int, YearInRange (us / 1000000) →
      (us2ts gmtimeR us).fraction < 10 ^ 9 ∧ ts2us (us2ts gmtimeR us) = some us := by
  intro hall
  have hfraction := (hall utcTm (fun _ _ => rfl) (-1) (by decide)).1
  have hneg : ¬ ((0 : Int) ≤ -1 ∨ (1000000 : Int) ∣ -1) := by decide
  have hwrapped := fraction_of_neg utcTm hneg
  omega

end HiloUtils.TimeUtils
