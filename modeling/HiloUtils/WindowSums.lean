import HiloUtils.CounterUpdate
import HiloUtils.SlidingWindow
import Mathlib.Algebra.BigOperators.Group.Finset.Piecewise
import Mathlib.Algebra.Ring.Int.Defs

/-! The running sums of a history counter against its slots, whatever slot an
amount was put into. -/

namespace HiloUtils.WindowSums

open Word EventLog HistoryCounterData SlidingWindow

def slotSum (f : HistoryRec → Int) (h : HistoryCounterData) : Int :=
  ∑ i ∈ Finset.range (historySize.toNat + 1), f (h.recs i)

def added (trace : List (Call × Option Int)) : Int × Int :=
  (trace.map fun e => e.1.op.amount).sum

/-- What holds of every counter between two calls. -/
structure Balanced (h : HistoryCounterData) (amount : Int × Int) : Prop where
  words : Words h
  nonneg : 0 ≤ h.currentRec
  lt : h.currentRec < 2 ^ 62
  index_nonneg : 0 ≤ h.recIndex
  index_le : h.recIndex ≤ historySize
  intervalCount : h.intervalCount = i64 (slotSum HistoryRec.count h)
  intervalSumm : h.intervalSumm = i64 (slotSum HistoryRec.sum h)
  totalCount : h.totalCount = i64 amount.1
  totalSumm : h.totalSumm = i64 amount.2

theorem clock_bounds (clock : Clock) :
    0 ≤ clockSecond clock.ms ∧ clockSecond clock.ms < 2 ^ 62 :=
  second_bounds ⟨clock, .increment⟩

theorem mem_slots {n : Nat} :
    n ∈ Finset.range (historySize.toNat + 1) ↔ (n : Int) ≤ historySize := by
  rw [Finset.mem_range, historySize]
  omega

theorem slotSum_update (f : HistoryRec → Int) {h h' : HistoryCounterData} {i : Int}
    {r : HistoryRec} (h0 : 0 ≤ i) (h1 : i ≤ historySize)
    (hrecs : h'.recs = Function.update h.recs i r) :
    slotSum f h' = slotSum f h - f (h.recs i) + f r := by
  obtain ⟨n, rfl⟩ := Int.eq_ofNat_of_zero_le h0
  have hn : n ∈ Finset.range (historySize.toNat + 1) := mem_slots.mpr h1
  have hf : ∀ k : Nat, f (h'.recs k) =
      Function.update (fun k : Nat => f (h.recs k)) n (f r) k := by
    intro k
    rw [hrecs]
    by_cases hk : k = n
    · rw [hk, Function.update_self, Function.update_self]
    · have hne : (k : Int) ≠ n := fun heq => hk (Int.ofNat_inj.mp heq)
      rw [Function.update_of_ne hk, Function.update_of_ne hne]
  simp only [slotSum, hf]
  rw [Finset.sum_update_of_mem hn, Finset.sdiff_singleton_eq_erase,
    ← Finset.add_sum_erase _ (fun k : Nat => f (h.recs k)) hn]
  omega

theorem slotSum_eq_zero (f : HistoryRec → Int) (hf : f ⟨0, 0⟩ = 0) {h : HistoryCounterData}
    (hrecs : ∀ i, h.recs i = ⟨0, 0⟩) : slotSum f h = 0 :=
  Finset.sum_eq_zero fun i _ => by rw [hrecs i, hf]

namespace Balanced

variable {h : HistoryCounterData} {amount : Int × Int}

theorem clear (clock : Clock) : Balanced (HistoryCounterData.clear clock.ms) 0 := by
  obtain ⟨hs, hl⟩ := clock_bounds clock
  have hmod : (clockSecond clock.ms).tmod (historySize + 1) = clockSecond clock.ms % 301 :=
    Int.tmod_eq_emod_of_nonneg hs
  refine ⟨Words.clear _, hs, hl, ?_, ?_, ?_, ?_, rfl, rfl⟩
  · change 0 ≤ (clockSecond clock.ms).tmod (historySize + 1)
    omega
  · change (clockSecond clock.ms).tmod (historySize + 1) ≤ historySize
    rw [hmod, historySize]
    omega
  · rw [slotSum_eq_zero _ rfl fun _ => rfl]
    rfl
  · rw [slotSum_eq_zero _ rfl fun _ => rfl]
    rfl

theorem slide (hb : Balanced h amount) (hlt : h.currentRec + 1 < 2 ^ 62) :
    Balanced h.slide amount ∧ h.slide.currentRec = h.currentRec + 1 ∧
      h.slide.recIndex = (h.currentRec + 1) % 301 ∧
      h.slide.recs = Function.update h.recs ((h.currentRec + 1) % 301) ⟨0, 0⟩ := by
  have hnow := hb.nonneg
  have hcur : i64 (h.currentRec + 1) = h.currentRec + 1 := i64_of_bounds (by omega) (by omega)
  have hidx : (h.currentRec + 1).tmod (historySize + 1) = (h.currentRec + 1) % 301 :=
    Int.tmod_eq_emod_of_nonneg (by omega)
  have hrecs : h.slide.recs = Function.update h.recs ((h.currentRec + 1) % 301) ⟨0, 0⟩ := by
    simp only [HistoryCounterData.slide, hcur, hidx]
  have hle : (h.currentRec + 1) % 301 ≤ historySize := by
    rw [historySize]
    omega
  have hcount := slotSum_update HistoryRec.count (by omega) hle hrecs
  have hsum := slotSum_update HistoryRec.sum (by omega) hle hrecs
  have hsec : h.slide.currentRec = h.currentRec + 1 := hcur
  have hsel : h.slide.recIndex = (h.currentRec + 1) % 301 := by
    simp only [HistoryCounterData.slide, hcur, hidx]
  refine ⟨⟨hb.words.slide, ?_, ?_, ?_, ?_, ?_, ?_, hb.totalCount, hb.totalSumm⟩, hsec, hsel, hrecs⟩
  · omega
  · omega
  · omega
  · omega
  · rw [hcount]
    simp only [HistoryCounterData.slide, hcur, hidx, hb.intervalCount, i64_i64_sub, Int.add_zero]
  · rw [hsum]
    simp only [HistoryCounterData.slide, hcur, hidx, hb.intervalSumm, i64_i64_sub, Int.add_zero]

end Balanced

def Leaves (h : HistoryCounterData) (t i : Int) : Prop :=
  (i - h.currentRec - 1) % 301 < t - h.currentRec

instance (h : HistoryCounterData) (t i : Int) : Decidable (Leaves h t i) :=
  inferInstanceAs (Decidable (_ < _))

/-- The slot `update` selects, and the slots it has emptied. -/
structure Reaches (h h' : HistoryCounterData) (t : Int) : Prop where
  second : h'.currentRec = t
  recs : ∀ i, 0 ≤ i → i ≤ historySize → h'.recs i = if Leaves h t i then ⟨0, 0⟩ else h.recs i
  index : h.currentRec < t → t ≤ h.currentRec + historySize → h'.recIndex = t % 301
  same : t = h.currentRec → h' = h

namespace Balanced

variable {h : HistoryCounterData} {amount : Int × Int}

theorem updateLoop (hb : Balanced h amount) (n : Nat) (hlt : h.currentRec + n < 2 ^ 62) :
    Balanced (HistoryCounterData.updateLoop (h.currentRec + n) h) amount ∧
      Reaches h (HistoryCounterData.updateLoop (h.currentRec + n) h) (h.currentRec + n) := by
  have hnow := hb.nonneg
  induction n generalizing h with
  | zero =>
    rw [HistoryCounterData.updateLoop, if_pos (by omega)]
    refine ⟨hb, by simp, fun i _ _ => ?_, fun hl => by omega, fun _ => rfl⟩
    rw [if_neg]
    rw [Leaves]
    omega
  | succ n ih =>
    obtain ⟨hs, hcur, hidx, hrecs⟩ := hb.slide (by omega)
    have hnext : h.currentRec + (n + 1 : Nat) = h.slide.currentRec + n := by
      rw [hcur]
      omega
    rw [HistoryCounterData.updateLoop, if_neg (by omega), hnext]
    obtain ⟨hend, hr⟩ := ih hs (by omega) hs.nonneg
    refine ⟨hend, hr.second, fun i h0 h1 => ?_, fun _ hle => ?_, fun hsame => by omega⟩
    · -- slot `i` goes in the first round or in a later one
      rw [historySize] at h1
      rw [hr.recs i h0 h1, hrecs]
      by_cases hi : i = (h.currentRec + 1) % 301
      · rw [hi, Function.update_self, ite_self, if_pos]
        rw [Leaves]
        omega
      · rw [Function.update_of_ne hi]
        have hiff :
            Leaves h.slide (h.slide.currentRec + n) i ↔ Leaves h (h.slide.currentRec + n) i := by
          rw [Leaves, Leaves, hcur]
          omega
        simp only [hiff]
    · rcases Nat.eq_zero_or_pos n with rfl | hn
      · rw [hr.same (by simp), hidx, hcur]
        simp
      · exact hr.index (by omega) (by omega)

theorem update (hb : Balanced h amount) (clock : Clock)
    (horder : h.currentRec ≤ clockSecond clock.ms) :
    Balanced (h.update clock.ms) amount ∧
      Reaches h (h.update clock.ms) (clockSecond clock.ms) := by
  obtain ⟨hs, hl⟩ := clock_bounds clock
  have hnow := hb.nonneg
  have hgap : i64 (clockSecond clock.ms - h.currentRec) = clockSecond clock.ms - h.currentRec :=
    i64_of_bounds (by omega) (by omega)
  have hwords := hb.words.update clock.ms
  simp only [HistoryCounterData.update, hgap] at hwords ⊢
  split at hwords
  · next hlong =>
    rw [if_pos hlong]
    rw [historySize] at hlong
    refine ⟨⟨hwords, hs, hl, hb.index_nonneg, hb.index_le, ?_, ?_, hb.totalCount, hb.totalSumm⟩,
      rfl, fun i h0 h1 => ?_, fun _ hle => ?_, fun hsame => by omega⟩
    · rw [slotSum_eq_zero _ rfl fun _ => rfl]
      rfl
    · rw [slotSum_eq_zero _ rfl fun _ => rfl]
      rfl
    · rw [if_pos]
      rw [Leaves]
      omega
    · rw [historySize] at hle
      omega
  · next hshort =>
    rw [if_neg hshort]
    obtain ⟨n, hn⟩ := Int.eq_ofNat_of_zero_le (a := clockSecond clock.ms - h.currentRec) (by omega)
    have hend : clockSecond clock.ms = h.currentRec + n := by omega
    rw [hend]
    exact hb.updateLoop n (by omega)

theorem add (hb : Balanced h amount) (c v : Int) : Balanced (h.add c v) (amount + (c, v)) := by
  have hslot : (h.add c v).recs = Function.update h.recs h.recIndex
      ⟨i64 ((h.recs h.recIndex).count + c), i64 ((h.recs h.recIndex).sum + v)⟩ := rfl
  have hcount := slotSum_update HistoryRec.count hb.index_nonneg hb.index_le hslot
  have hsum := slotSum_update HistoryRec.sum hb.index_nonneg hb.index_le hslot
  refine ⟨hb.words.add c v, hb.nonneg, hb.lt, hb.index_nonneg, hb.index_le, ?_, ?_, ?_, ?_⟩
  · change i64 (h.intervalCount + c) = _
    rw [hcount, hb.intervalCount]
    simp only [i64]
    omega
  · change i64 (h.intervalSumm + v) = _
    rw [hsum, hb.intervalSumm]
    simp only [i64]
    omega
  · change i64 (h.totalCount + c) = _
    rw [hb.totalCount, i64_i64_add, Prod.fst_add]
  · change i64 (h.totalSumm + v) = _
    rw [hb.totalSumm, i64_i64_add, Prod.snd_add]

theorem step (hb : Balanced h amount) {call : Call} {out : Option Int} {h' : HistoryCounterData}
    (horder : InOrder h call) (hs : SlidingWindow.step h call = some (out, h')) :
    Balanced h' (amount + call.op.amount) := by
  obtain ⟨clock, op⟩ := call
  have hu := (hb.update clock horder).1
  have hzero : amount + (0, 0) = amount := add_zero amount
  cases op with
  | increment =>
    obtain rfl : h.increment clock.ms = h' := Run.state_eq hs
    rw [increment_eq_add hb.words]
    exact hu.add 1 0
  | addVolume v =>
    obtain rfl : h.addVolume clock.ms v = h' := Run.state_eq hs
    exact hu.add 1 v
  | addBatch c v =>
    obtain rfl : h.addBatch clock.ms c v = h' := Run.state_eq hs
    exact hu.add c v
  | getTotalCount | getTotalVolume =>
    obtain rfl : h = h' := Run.state_eq hs
    change Balanced _ (amount + (0, 0))
    rwa [hzero]
  | getTotalAvg | getIntervalCount | getIntervalVolume | getIntervalAvg | getLastCount
  | getLastVolume | getLastAvg =>
    obtain rfl : h.update clock.ms = h' := Run.state_eq hs
    change Balanced _ (amount + (0, 0))
    rwa [hzero]

end Balanced

theorem balanced_of_run (start : Clock) {trace : List (Call × Option Int)} {h : HistoryCounterData}
    (run : Run step InOrder (clear start.ms) trace h) : Balanced h (added trace) :=
  run.invariant_trace (I := fun trace h => Balanced h (added trace)) (Balanced.clear start)
    fun trace h call out h' hb horder hs => by
      have hadded : added (trace ++ [(call, out)]) = added trace + call.op.amount := by
        simp [added]
      rw [hadded]
      exact hb.step horder hs

/-- Over every run the sums are those of the slots, and the totals those of all
amounts. -/
theorem run_sums_eq_slots (start : Clock) {trace : List (Call × Option Int)}
    {h : HistoryCounterData} (run : Run step InOrder (clear start.ms) trace h) :
    0 ≤ h.recIndex ∧ h.recIndex ≤ 300 ∧
      h.intervalCount = i64 (slotSum HistoryRec.count h) ∧
      h.intervalSumm = i64 (slotSum HistoryRec.sum h) ∧
      h.totalCount = i64 (added trace).1 ∧ h.totalSumm = i64 (added trace).2 :=
  have hb := balanced_of_run start run
  ⟨hb.index_nonneg, hb.index_le, hb.intervalCount, hb.intervalSumm, hb.totalCount, hb.totalSumm⟩

theorem run_sums_eq_slots_gap :
    ∃ trace h, trace.map Prod.fst = [⟨⟨5000, by decide, by decide⟩, .addBatch 2 (-7)⟩,
        ⟨⟨400000, by decide, by decide⟩, .increment⟩] ∧
      Run step InOrder (clear 0) trace h ∧
      0 ≤ h.recIndex ∧ h.recIndex ≤ 300 ∧
      h.intervalCount = i64 (slotSum HistoryRec.count h) ∧
      h.intervalSumm = i64 (slotSum HistoryRec.sum h) ∧
      h.totalCount = i64 (added trace).1 ∧ h.totalSumm = i64 (added trace).2 := by
  let batch : Call := ⟨⟨5000, by decide, by decide⟩, .addBatch 2 (-7)⟩
  let event : Call := ⟨⟨400000, by decide, by decide⟩, .increment⟩
  have hfirst : InOrder (clear 0) batch := by change (0 : Int) ≤ 5; decide
  have hcur : ((clear 0).addBatch 5000 2 (-7)).currentRec = 5 :=
    ((Balanced.clear ⟨0, by decide, by decide⟩).update batch.clock hfirst).2.second
  have run : Run step InOrder (clear 0) _ _ :=
    (Run.start.next (i := batch) hfirst rfl).next (i := event) (hcur.trans_le (by decide)) rfl
  exact ⟨_, _, rfl, run, run_sums_eq_slots ⟨0, by decide, by decide⟩ run⟩

end HiloUtils.WindowSums
