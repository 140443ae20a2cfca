import HiloUtils.TimeUtils
import HiloUtils.JsonLexer
import Mathlib.Data.List.Chain

/-! `get_time_str` of `time_utils.cpp`: a local time as text, kept with its time
for the next call. The flag for the date is not kept. -/

namespace HiloUtils.TimeUtils

open Json

def twoDigits (x : Int) : List UInt8 := [digit (x / 10 % 10).toNat, digit (x % 10).toNat]

def field (tm : Tm) : UInt8 → List UInt8
  | 121 => twoDigits (tm.year % 100)
  | 109 => twoDigits (tm.mon + 1)
  | 100 => twoDigits tm.mday
  | 72 => twoDigits tm.hour
  | 77 => twoDigits tm.min
  | 83 => twoDigits tm.sec
  | c => [37, c]

def strftime (tm : Tm) : List UInt8 → List UInt8
  | 37 :: c :: rest => field tm c ++ strftime tm rest
  | c :: rest => c :: strftime tm rest
  | [] => []

/-- `%y-%m-%d %H:%M:%S`, or `%H:%M:%S`. -/
def timeFormat (includeDate : Bool) : List UInt8 :=
  if includeDate then
    [37, 121, 45, 37, 109, 45, 37, 100, 32, 37, 72, 58, 37, 77, 58, 37, 83]
  else [37, 72, 58, 37, 77, 58, 37, 83]

structure TimeCache where
  timeStrCache : List UInt8
  tCache : Int

def TimeCache.init : TimeCache where
  timeStrCache := [88, 88, 45, 88, 88, 45, 88, 88, 32, 90, 90, 58, 90, 90, 58, 90, 90, 32, 32]
  tCache := -1

def formatTime (localtime : Int → Tm) (t : Int) (includeDate : Bool) : List UInt8 :=
  strftime (localtime t) (timeFormat includeDate)

def getTimeStr (localtime : Int → Tm) (c : TimeCache) (t : Int) (includeDate : Bool) :
    List UInt8 × TimeCache :=
  let c :=
    if t ≠ c.tCache then
      { timeStrCache := formatTime localtime t includeDate
        tCache := t }
    else c
  (c.timeStrCache, c)

def getTimeStrs (localtime : Int → Tm) : TimeCache → List (Int × Bool) → List (List UInt8)
  | _, [] => []
  | c, (t, includeDate) :: calls =>
    let (text, c) := getTimeStr localtime c t includeDate
    text :: getTimeStrs localtime c calls

/-- The same time is not asked for with and without its date. -/
def SameFormat (a b : Int × Bool) : Prop := a.1 = b.1 → a.2 = b.2

theorem formatTime_length (localtime : Int → Tm) (t : Int) (includeDate : Bool) :
    (formatTime localtime t includeDate).length = if includeDate then 17 else 8 := by
  cases includeDate <;> rfl

theorem formatTime_inj (localtime : Int → Tm) (t : Int) (d e : Bool) :
    formatTime localtime t d = formatTime localtime t e ↔ d = e := by
  refine ⟨fun h => ?_, fun h => by rw [h]⟩
  have hlen := congrArg List.length h
  rw [formatTime_length, formatTime_length] at hlen
  cases d <;> cases e <;> simp_all

theorem init_ne_formatTime (localtime : Int → Tm) (t : Int) (d : Bool) :
    TimeCache.init.timeStrCache ≠ formatTime localtime t d := by
  intro h
  have hlen := congrArg List.length h
  rw [formatTime_length] at hlen
  cases d <;> exact absurd hlen (by decide)

theorem getTimeStrs_eq_iff (localtime : Int → Tm) (t : Int) (d : Bool) (calls : List (Int × Bool)) :
    getTimeStrs localtime ⟨formatTime localtime t d, t⟩ calls =
        calls.map (fun call => formatTime localtime call.1 call.2) ↔
      ((t, d) :: calls).IsChain SameFormat := by
  induction calls generalizing t d with
  | nil => simp [getTimeStrs]
  | cons call calls ih =>
    obtain ⟨t', d'⟩ := call
    rw [List.isChain_cons_cons, List.map_cons, getTimeStrs, getTimeStr]
    by_cases ht : t' = t
    · subst ht
      have hsame : SameFormat (t', d) (t', d') ↔ d = d' := ⟨fun h => h rfl, fun h _ => h⟩
      simp only [ne_eq, not_true, if_false, List.cons.injEq, formatTime_inj, hsame]
      refine and_congr_right fun hd => ?_
      rw [hd]
      exact ih t' d'
    · have hsame : SameFormat (t, d) (t', d') := fun h => absurd h.symm ht
      simp only [ne_eq, ht, not_false_iff, if_true, List.cons.injEq, true_and, hsame]
      exact ih t' d'

/-- Every call gives its own text exactly when the first is not for the time
-1 and no call repeats the time of the one before with the other format. -/
theorem getTimeStrs_fresh_iff (localtime : Int → Tm) (calls : List (Int × Bool)) :
    getTimeStrs localtime TimeCache.init calls =
        calls.map (fun call => formatTime localtime call.1 call.2) ↔
      (∀ call ∈ calls.head?, call.1 ≠ -1) ∧ calls.IsChain SameFormat := by
  cases calls with
  | nil => simp [getTimeStrs]
  | cons call calls =>
    obtain ⟨t, d⟩ := call
    have hhead : (∀ call ∈ ((t, d) :: calls).head?, call.1 ≠ -1) ↔ t ≠ -1 := by simp
    rw [hhead, List.map_cons, getTimeStrs, getTimeStr]
    by_cases ht : t = -1
    · have hinit : TimeCache.init.tCache = t := ht.symm
      simp only [ne_eq, hinit, not_true, if_false, ht, false_and, List.cons.injEq,
        init_ne_formatTime]
    · have hinit : ¬ t = TimeCache.init.tCache := ht
      simp only [ne_eq, hinit, not_false_iff, if_true, List.cons.injEq, true_and, ht]
      exact getTimeStrs_eq_iff localtime t d calls

/-- The date is missing when the time was asked for without it before. -/
theorem getTimeStr_stale :
    ¬ ∀ (localtime : Int → Tm) (calls : List (Int × Bool)),
      getTimeStrs localtime TimeCache.init calls =
        calls.map fun call => formatTime localtime call.1 call.2 := by
  intro hall
  have hstale := hall utcTm [(0, false), (0, true)]
  have hlen := congrArg (List.map List.length) hstale
  simp only [getTimeStrs, getTimeStr, TimeCache.init, List.map_cons, formatTime_length] at hlen
  exact absurd hlen (by decide)

end HiloUtils.TimeUtils
