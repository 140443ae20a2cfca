import HiloUtils.EventLog
import HiloUtils.HistoryCounterData
import HiloUtils.Run
import Mathlib.Algebra.Group.Prod

/-! The history counter as a log of dated amounts. The window getters read
exact sums over the log as long as no amount is put into a slot the long-gap
branch of `update` left selected. -/

namespace HiloUtils.SlidingWindow

open Word EventLog HistoryCounterData

/-- A reading of `getClockMs`: a signed word, never negative. -/
structure Clock where
  ms : Int
  nonneg : 0 ≤ ms
  lt : ms < 2 ^ 63

inductive Op
  | increment
  | addVolume (v : Int)
  | addBatch (c v : Int)
  | getTotalCount
  | getTotalVolume
  | getTotalAvg
  | getIntervalCount
  | getIntervalVolume
  | getIntervalAvg
  | getLastCount
  | getLastVolume
  | getLastAvg

structure Call where
  clock : Clock
  op : Op

def Call.second (call : Call) : Int := clockSecond call.clock.ms

def Op.amount : Op → Int × Int
  | .increment => (1, 0)
  | .addVolume v => (1, v)
  | .addBatch c v => (c, v)
  | _ => (0, 0)

def step (h : HistoryCounterData) (call : Call) : Option (Option Int × HistoryCounterData) :=
  let ms := call.clock.ms
  match call.op with
  | .increment => some (none, h.increment ms)
  | .addVolume v => some (none, h.addVolume ms v)
  | .addBatch c v => some (none, h.addBatch ms c v)
  | .getTotalCount => some (some h.getTotalCount, h)
  | .getTotalVolume => some (some h.getTotalVolume, h)
  | .getTotalAvg => some (some (h.getTotalAvg ms).1, (h.getTotalAvg ms).2)
  | .getIntervalCount => some (some (h.getIntervalCount ms).1, (h.getIntervalCount ms).2)
  | .getIntervalVolume => some (some (h.getIntervalVolume ms).1, (h.getIntervalVolume ms).2)
  | .getIntervalAvg => some (some (h.getIntervalAvg ms).1, (h.getIntervalAvg ms).2)
  | .getLastCount => some (some (h.getLastCount ms).1, (h.getLastCount ms).2)
  | .getLastVolume => some (some (h.getLastVolume ms).1, (h.getLastVolume ms).2)
  | .getLastAvg => some (some (h.getLastAvg ms).1, (h.getLastAvg ms).2)

abbrev Log := List (Event (Int × Int))

def interval (log : Log) (t : Int) : Int × Int := sumBetween log (t - 300) t

def last (log : Log) (t : Int) : Int × Int := sumBetween log (t - 1) (t - 1)

/-- What the counter is for. Sums are read as 64-bit words. -/
def spec (log : Log) (call : Call) : Option Int × Log :=
  let t := call.second
  match call.op with
  | .increment => (none, log ++ [⟨t, (1, 0)⟩])
  | .addVolume v => (none, log ++ [⟨t, (1, v)⟩])
  | .addBatch c v => (none, log ++ [⟨t, (c, v)⟩])
  | .getTotalCount => (some (i64 (total log).1), log)
  | .getTotalVolume => (some (i64 (total log).2), log)
  | .getTotalAvg => (some (average (i64 (total log).1) (i64 (total log).2)), log)
  | .getIntervalCount => (some (i64 (interval log t).1), log)
  | .getIntervalVolume => (some (i64 (interval log t).2), log)
  | .getIntervalAvg => (some (average (i64 (interval log t).1) (i64 (interval log t).2)), log)
  | .getLastCount => (some (i64 (last log t).1), log)
  | .getLastVolume => (some (i64 (last log t).2), log)
  | .getLastAvg => (some (average (i64 (last log t).1) (i64 (last log t).2)), log)

def InOrder (h : HistoryCounterData) (call : Call) : Prop := h.currentRec ≤ call.second

/-- A call that adds something finds its slot: the loop of `update` runs and
selects it, or it is selected already. -/
def FindsSlot (h : HistoryCounterData) (call : Call) : Prop :=
  call.op.amount = (0, 0) ∨
    (h.currentRec < call.second ∧ call.second ≤ h.currentRec + historySize) ∨
    h.recIndex = call.second % (historySize + 1)

def recOf (a : Int × Int) : HistoryRec := ⟨i64 a.1, i64 a.2⟩

/-- The second of the window `[now - 300, now]` that slot `i` is for. -/
def slotSecond (now i : Int) : Int := now - (now - i) % 301

structure Tracks (h : HistoryCounterData) (log : Log) : Prop where
  nonneg : 0 ≤ h.currentRec
  lt : h.currentRec < 2 ^ 62
  past : ∀ e ∈ log, e.second ≤ h.currentRec
  slots : ∀ i, 0 ≤ i → i ≤ 300 → h.recs i =
    recOf (sumBetween log (slotSecond h.currentRec i) (slotSecond h.currentRec i))
  intervalCount : h.intervalCount = i64 (interval log h.currentRec).1
  intervalSumm : h.intervalSumm = i64 (interval log h.currentRec).2
  totalCount : h.totalCount = i64 (total log).1
  totalSumm : h.totalSumm = i64 (total log).2
  index_nonneg : 0 ≤ h.recIndex
  index_le : h.recIndex ≤ 300
  index : h.recIndex = h.currentRec % 301 ∨ ∀ i, 0 ≤ i → i ≤ 300 → h.recs i = ⟨0, 0⟩

theorem second_bounds (call : Call) : 0 ≤ call.second ∧ call.second < 2 ^ 62 := by
  have h0 := call.clock.nonneg
  have h1 := call.clock.lt
  rw [Call.second, clockSecond, Int.tdiv_eq_ediv_of_nonneg h0]
  omega

namespace Tracks

variable {h : HistoryCounterData} {log : Log}

theorem clear (clock : Clock) : Tracks (HistoryCounterData.clear clock.ms) [] := by
  obtain ⟨hs, hl⟩ := second_bounds ⟨clock, .increment⟩
  rw [Call.second] at hs hl
  have hmod : (clockSecond clock.ms).tmod (historySize + 1) = clockSecond clock.ms % 301 :=
    Int.tmod_eq_emod_of_nonneg hs
  refine ⟨hs, hl, by simp, fun i _ _ => rfl, rfl, rfl, rfl, rfl, ?_, ?_, Or.inl hmod⟩ <;>
    simp only [HistoryCounterData.clear, hmod] <;> omega

theorem slide (ht : Tracks h log) (hlt : h.currentRec + 1 < 2 ^ 62) :
    Tracks h.slide log ∧ h.slide.currentRec = h.currentRec + 1 ∧
      h.slide.recIndex = (h.currentRec + 1) % 301 := by
  have hnow := ht.nonneg
  have hcur : i64 (h.currentRec + 1) = h.currentRec + 1 := i64_of_bounds (by omega) (by omega)
  have hidx : (h.currentRec + 1).tmod (historySize + 1) = (h.currentRec + 1) % 301 :=
    Int.tmod_eq_emod_of_nonneg (by omega)
  -- the slot of the next second is the one of the oldest second
  have hold : slotSecond h.currentRec ((h.currentRec + 1) % 301) = h.currentRec - 300 := by
    rw [slotSecond]
    omega
  have hslot := ht.slots ((h.currentRec + 1) % 301) (by omega) (by omega)
  have hnext : h.currentRec + 1 - 300 = h.currentRec - 300 + 1 := by omega
  have hwindow : sumBetween log (h.currentRec + 1 - 300) (h.currentRec + 1) =
      sumBetween log (h.currentRec - 300) h.currentRec -
        sumBetween log (h.currentRec - 300) (h.currentRec - 300) := by
    rw [hnext]
    exact sumBetween_slide ht.past (by omega)
  rw [hold] at hslot
  simp only [HistoryCounterData.slide, hcur, hidx]
  refine ⟨⟨by change 0 ≤ h.currentRec + 1; omega, hlt, ?_, ?_, ?_, ?_, ht.totalCount, ht.totalSumm,
    by change 0 ≤ (h.currentRec + 1) % 301; omega, by change (h.currentRec + 1) % 301 ≤ 300; omega,
    Or.inl rfl⟩, trivial, trivial⟩
  · intro e he
    exact Int.le_trans (ht.past e he) (by change _ ≤ h.currentRec + 1; omega)
  · intro i h0 h1
    change Function.update h.recs ((h.currentRec + 1) % 301) ⟨0, 0⟩ i =
      recOf (sumBetween log (slotSecond (h.currentRec + 1) i) (slotSecond (h.currentRec + 1) i))
    by_cases hi : i = (h.currentRec + 1) % 301
    · have hnew : slotSecond (h.currentRec + 1) i = h.currentRec + 1 := by
        rw [slotSecond]
        omega
      rw [hi, Function.update_self, ← hi, hnew, sumBetween_eq_zero]
      · rfl
      · intro e he
        have := ht.past e he
        omega
    · have hsame : slotSecond (h.currentRec + 1) i = slotSecond h.currentRec i := by
        rw [slotSecond, slotSecond]
        omega
      rw [Function.update_of_ne hi, hsame, ht.slots i h0 h1]
  · change i64 (h.intervalCount - (h.recs ((h.currentRec + 1) % 301)).count) = _
    rw [ht.intervalCount, hslot, interval, interval, hwindow]
    simp only [recOf, Prod.fst_sub, i64]
    omega
  · change i64 (h.intervalSumm - (h.recs ((h.currentRec + 1) % 301)).sum) = _
    rw [ht.intervalSumm, hslot, interval, interval, hwindow]
    simp only [recOf, Prod.snd_sub, i64]
    omega

theorem updateLoop (ht : Tracks h log) (n : Nat) (hlt : h.currentRec + n < 2 ^ 62) :
    Tracks (HistoryCounterData.updateLoop (h.currentRec + n) h) log ∧
      (HistoryCounterData.updateLoop (h.currentRec + n) h).currentRec = h.currentRec + n ∧
      (0 < n → (HistoryCounterData.updateLoop (h.currentRec + n) h).recIndex =
        (h.currentRec + n) % 301) ∧
      (n = 0 → HistoryCounterData.updateLoop (h.currentRec + n) h = h) := by
  have hnow := ht.nonneg
  induction n generalizing h with
  | zero =>
    rw [HistoryCounterData.updateLoop, if_pos (by omega)]
    exact ⟨ht, by simp, fun h0 => absurd h0 (Nat.lt_irrefl 0), fun _ => rfl⟩
  | succ n ih =>
    obtain ⟨hs, hcur, hidx⟩ := ht.slide (by omega)
    have hnext : h.currentRec + (n + 1 : Nat) = h.slide.currentRec + n := by
      rw [hcur]
      omega
    rw [HistoryCounterData.updateLoop, if_neg (by omega), hnext]
    obtain ⟨htr, hend, hpos, hzero⟩ := ih hs (by omega) hs.nonneg
    refine ⟨htr, hend, fun _ => ?_, fun h0 => absurd h0 (Nat.succ_ne_zero n)⟩
    rcases Nat.eq_zero_or_pos n with rfl | hn
    · rw [hzero rfl, hidx, hcur]
      simp
    · exact hpos hn

theorem update (ht : Tracks h log) {call : Call} (horder : InOrder h call) :
    Tracks (h.update call.clock.ms) log ∧
      (h.update call.clock.ms).currentRec = call.second ∧
      ((h.currentRec < call.second ∧ call.second ≤ h.currentRec + historySize) ∨
          h.recIndex = call.second % (historySize + 1) →
        (h.update call.clock.ms).recIndex = call.second % 301) := by
  obtain ⟨hs, hl⟩ := second_bounds call
  have hnow := ht.nonneg
  rw [InOrder] at horder
  have hgap : i64 (call.second - h.currentRec) = call.second - h.currentRec :=
    i64_of_bounds (by omega) (by omega)
  rw [Call.second] at *
  simp only [HistoryCounterData.update, hgap, historySize]
  split
  · next hlong =>
    have hnone : ∀ lo hi : Int,
        clockSecond call.clock.ms - 300 ≤ lo → sumBetween log lo hi = 0 := by
      intro lo hi hlo
      apply sumBetween_eq_zero
      intro e he
      have := ht.past e he
      omega
    refine ⟨⟨hs, hl, fun e he => Int.le_trans (ht.past e he) horder, ?_, ?_, ?_, ht.totalCount,
      ht.totalSumm, ht.index_nonneg, ht.index_le, Or.inr fun _ _ _ => rfl⟩, rfl, ?_⟩
    · intro i h0 h1
      change (⟨0, 0⟩ : HistoryRec) = _
      rw [hnone _ _ (by
        change _ ≤ slotSecond (clockSecond call.clock.ms) i
        rw [slotSecond]
        omega)]
      rfl
    · change (0 : Int) = i64 (interval log (clockSecond call.clock.ms)).1
      rw [interval, hnone _ _ (Int.le_refl _)]
      rfl
    · change (0 : Int) = i64 (interval log (clockSecond call.clock.ms)).2
      rw [interval, hnone _ _ (Int.le_refl _)]
      rfl
    · intro hslot
      change h.recIndex = _
      omega
  · next hshort =>
    obtain ⟨n, hn⟩ := Int.eq_ofNat_of_zero_le (a := clockSecond call.clock.ms - h.currentRec)
      (by omega)
    have hend : clockSecond call.clock.ms = h.currentRec + n := by omega
    rw [hend]
    obtain ⟨htr, hcur, hpos, hzero⟩ := ht.updateLoop n (by omega)
    refine ⟨htr, hcur, fun hslot => ?_⟩
    rcases Nat.eq_zero_or_pos n with rfl | hpos0
    · rw [hzero rfl]
      omega
    · exact hpos hpos0

theorem slots_add (ht : Tracks h log) {c v : Int}
    (hslot : (c, v) = (0, 0) ∨ h.recIndex = h.currentRec % 301) {i : Int} (h0 : 0 ≤ i)
    (h1 : i ≤ 300) :
    (h.add c v).recs i = recOf (sumBetween (log ++ [⟨h.currentRec, (c, v)⟩])
      (slotSecond h.currentRec i) (slotSecond h.currentRec i)) := by
  have hrec := ht.slots i h0 h1
  change Function.update h.recs h.recIndex _ i = _
  by_cases hi : i = h.recIndex
  · rw [hi] at hrec ⊢
    rw [Function.update_self, hrec, sumBetween_append_one]
    rcases hslot with hzero | haligned
    · obtain ⟨rfl, rfl⟩ := Prod.mk.inj hzero
      rw [Prod.mk_zero_zero, ite_self, add_zero]
      simp only [recOf, add_zero, i64_i64]
    · have hsame : slotSecond h.currentRec h.recIndex = h.currentRec := by
        rw [slotSecond]
        omega
      simp [recOf, hsame]
  · rw [Function.update_of_ne hi, hrec, sumBetween_append_one]
    rcases hslot with hzero | haligned
    · obtain ⟨rfl, rfl⟩ := Prod.mk.inj hzero
      rw [Prod.mk_zero_zero, ite_self, add_zero]
    · have hother : slotSecond h.currentRec i ≠ h.currentRec := by
        rw [slotSecond]
        omega
      rw [if_neg (by change ¬ (_ ≤ h.currentRec ∧ h.currentRec ≤ _); omega), add_zero]

theorem add (ht : Tracks h log) {c v : Int}
    (hslot : (c, v) = (0, 0) ∨ h.recIndex = h.currentRec % 301) :
    Tracks (h.add c v) (log ++ [⟨h.currentRec, (c, v)⟩]) := by
  have hnow := ht.nonneg
  have hinside : interval (log ++ [⟨h.currentRec, (c, v)⟩]) h.currentRec =
      interval log h.currentRec + (c, v) := by
    rw [interval, sumBetween_append_one, if_pos ⟨by change _ ≤ h.currentRec; omega, Int.le_refl _⟩]
    rfl
  have htotal : total (log ++ [⟨h.currentRec, (c, v)⟩]) = total log + (c, v) := by
    simp [total]
  refine ⟨hnow, ht.lt, ?_, fun i h0 h1 => ht.slots_add hslot h0 h1, ?_, ?_, ?_, ?_,
    ht.index_nonneg, ht.index_le, ?_⟩
  · intro e he
    rcases List.mem_append.mp he with he | he
    · exact ht.past e he
    · rw [List.mem_singleton.mp he]
      exact Int.le_refl _
  · change i64 (h.intervalCount + c) = i64 (interval _ h.currentRec).1
    rw [hinside, ht.intervalCount, i64_i64_add, Prod.fst_add]
  · change i64 (h.intervalSumm + v) = i64 (interval _ h.currentRec).2
    rw [hinside, ht.intervalSumm, i64_i64_add, Prod.snd_add]
  · change i64 (h.totalCount + c) = _
    rw [htotal, ht.totalCount, i64_i64_add, Prod.fst_add]
  · change i64 (h.totalSumm + v) = _
    rw [htotal, ht.totalSumm, i64_i64_add, Prod.snd_add]
  · rcases ht.index with haligned | hempty
    · exact Or.inl haligned
    · rcases hslot with hzero | haligned
      · obtain ⟨rfl, rfl⟩ := Prod.mk.inj hzero
        right
        intro i h0 h1
        change Function.update h.recs h.recIndex _ i = _
        by_cases hi : i = h.recIndex
        · rw [hi, Function.update_self, hempty _ ht.index_nonneg ht.index_le]
          rfl
        · rw [Function.update_of_ne hi, hempty i h0 h1]
      · exact Or.inl haligned

theorem increment_eq {clockMs : Int} (hu : Tracks (h.update clockMs) log) :
    h.increment clockMs = (h.update clockMs).add 1 0 := by
  have hrec := hu.slots _ hu.index_nonneg hu.index_le
  simp [HistoryCounterData.increment, HistoryCounterData.add, hrec, recOf, hu.totalSumm,
    hu.intervalSumm, i64_i64]

theorem lastIndex_eq (ht : Tracks h log) : h.recs h.lastIndex = recOf (last log h.currentRec) := by
  have hnow := ht.nonneg
  have hi0 := ht.index_nonneg
  have hi1 := ht.index_le
  have hrange : 0 ≤ h.lastIndex ∧ h.lastIndex ≤ 300 := by
    rw [lastIndex, historySize]
    split <;> omega
  rcases ht.index with haligned | hempty
  · have hsecond : slotSecond h.currentRec h.lastIndex = h.currentRec - 1 := by
      rw [slotSecond, lastIndex, historySize]
      split <;> omega
    rw [ht.slots _ hrange.1 hrange.2, hsecond, last]
  · have hsecond : slotSecond h.currentRec ((h.currentRec - 1) % 301) = h.currentRec - 1 := by
      rw [slotSecond]
      omega
    have hslot := ht.slots ((h.currentRec - 1) % 301) (by omega) (by omega)
    rw [hsecond, hempty _ (by omega) (by omega)] at hslot
    rw [hempty _ hrange.1 hrange.2, last, hslot]

theorem step (ht : Tracks h log) {call : Call} (horder : InOrder h call)
    (hslot : FindsSlot h call) :
    ∃ h', SlidingWindow.step h call = some ((spec log call).1, h') ∧
      Tracks h' (spec log call).2 := by
  obtain ⟨hu, hcur, hsel⟩ := ht.update horder
  have hlast := hu.lastIndex_eq
  have hadd : ∀ c v : Int, ((c, v) = (0, 0) ∨
      (h.currentRec < call.second ∧ call.second ≤ h.currentRec + historySize) ∨
        h.recIndex = call.second % (historySize + 1)) →
      Tracks ((h.update call.clock.ms).add c v) (log ++ [⟨call.second, (c, v)⟩]) := by
    intro c v hcv
    rw [← hcur]
    exact hu.add (hcv.imp_right fun hs => by rw [hcur]; exact hsel hs)
  have hcount := hu.intervalCount
  have hsumm := hu.intervalSumm
  have htotal := hu.totalCount
  have htotals := hu.totalSumm
  rw [hcur] at hlast hcount hsumm
  obtain ⟨clock, op⟩ := call
  cases op with
  | increment =>
    refine ⟨_, rfl, ?_⟩
    rw [hu.increment_eq]
    exact hadd 1 0 hslot
  | addVolume v => exact ⟨_, rfl, hadd 1 v hslot⟩
  | addBatch c v => exact ⟨_, rfl, hadd c v hslot⟩
  | getTotalCount => exact ⟨h, by rw [spec, ← ht.totalCount]; rfl, ht⟩
  | getTotalVolume => exact ⟨h, by rw [spec, ← ht.totalSumm]; rfl, ht⟩
  | getTotalAvg => exact ⟨_, by rw [spec, ← htotal, ← htotals]; rfl, hu⟩
  | getIntervalCount => exact ⟨_, by rw [spec, ← hcount]; rfl, hu⟩
  | getIntervalVolume => exact ⟨_, by rw [spec, ← hsumm]; rfl, hu⟩
  | getIntervalAvg => exact ⟨_, by rw [spec, ← hcount, ← hsumm]; rfl, hu⟩
  | getLastCount =>
    refine ⟨_, ?_, hu⟩
    simp only [SlidingWindow.step, spec, HistoryCounterData.getLastCount, hlast, recOf]
  | getLastVolume =>
    refine ⟨_, ?_, hu⟩
    simp only [SlidingWindow.step, spec, HistoryCounterData.getLastVolume, hlast, recOf]
  | getLastAvg =>
    refine ⟨_, ?_, hu⟩
    simp only [SlidingWindow.step, spec, HistoryCounterData.getLastAvg, hlast, recOf]

end Tracks

/-- In every run in which each addition finds its slot, every getter answers
with the exact sums over the log. -/
theorem run_exact (start : Clock) {trace : List (Call × Option Int)} {h : HistoryCounterData}
    (run : Run step (fun h call => InOrder h call ∧ FindsSlot h call) (clear start.ms) trace h) :
    trace.map Prod.snd = (exec spec [] (trace.map Prod.fst)).1 := by
  have hstep : ∀ h log call, Tracks h log → InOrder h call ∧ FindsSlot h call →
      ∃ h', step h call = some ((spec log call).1, h') ∧ Tracks h' (spec log call).2 :=
    fun _ _ _ ht hok => ht.step hok.1 hok.2
  exact (run.refines (Tracks.clear start) hstep).1

theorem run_exact_short :
    ∃ trace h, trace.map Prod.fst = [⟨⟨5000, by decide, by decide⟩, .addVolume 7⟩,
        ⟨⟨6000, by decide, by decide⟩, .getLastVolume⟩] ∧
      Run step (fun h call => InOrder h call ∧ FindsSlot h call) (clear 0) trace h ∧
      trace.map Prod.snd = [none, some 7] := by
  let add : Call := ⟨⟨5000, by decide, by decide⟩, .addVolume 7⟩
  let get : Call := ⟨⟨6000, by decide, by decide⟩, .getLastVolume⟩
  have horder : InOrder (clear 0) add := by change (0 : Int) ≤ 5; decide
  have hcur : ((clear 0).addVolume 5000 7).currentRec = 5 :=
    ((Tracks.clear ⟨0, by decide, by decide⟩).update horder).2.1
  have run : Run step (fun h call => InOrder h call ∧ FindsSlot h call) (clear 0) _ _ :=
    (Run.start.next (i := add)
      ⟨horder, Or.inr (Or.inl (by change (0 : Int) < 5 ∧ (5 : Int) ≤ 0 + 300; decide))⟩ rfl).next
      (i := get) ⟨hcur.trans_le (by decide), Or.inl rfl⟩ rfl
  have houts := run_exact ⟨0, by decide, by decide⟩ run
  exact ⟨_, _, rfl, run, houts.trans (by decide)⟩

/-- An addition after a long idle gap goes to the slot of the second before the
gap, where the last-second getters do not find it. -/
theorem run_idle_gap_misreports :
    ¬ ∀ (start : Clock) (trace : List (Call × Option Int)) (h : HistoryCounterData),
      Run step InOrder (clear start.ms) trace h →
        trace.map Prod.snd = (exec spec [] (trace.map Prod.fst)).1 := by
  intro hall
  let add : Call := ⟨⟨400000, by decide, by decide⟩, .addVolume 7⟩
  let get : Call := ⟨⟨401000, by decide, by decide⟩, .getLastCount⟩
  let h : HistoryCounterData := (clear 0).addVolume 400000 7
  have hslide : h.update 401000 = h.slide := by
    rw [HistoryCounterData.update, if_neg (by decide), updateLoop, if_neg (by decide), updateLoop,
      if_pos (by decide)]
  have hget : step h get = some (some 0, h.slide) := by
    change some (some (h.getLastCount 401000).1, (h.getLastCount 401000).2) = _
    rw [HistoryCounterData.getLastCount, hslide]
    rfl
  have run : Run step InOrder (clear 0) _ _ :=
    (Run.start.next (i := add) (by change (0 : Int) ≤ 400; decide) rfl).next
      (i := get) (by change (400 : Int) ≤ 401; decide) hget
  exact absurd (hall ⟨0, by decide, by decide⟩ _ _ run) (by decide)

end HiloUtils.SlidingWindow
