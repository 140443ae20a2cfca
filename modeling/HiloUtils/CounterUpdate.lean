import HiloUtils.HistoryCounterData
import Mathlib.Logic.Function.Iterate

/-! What `update` does to any counter: the rounds its loop takes, which count the
way round the 64-bit words when the clock is behind, and that a second call in
the same second does nothing. -/

namespace HiloUtils.HistoryCounterData

open Word

def updateLoopRounds (index : Int) (h : HistoryCounterData) : Nat :=
  if (index - h.currentRec) % 2 ^ 64 = 0 then 0 else updateLoopRounds index h.slide + 1
termination_by ((index - h.currentRec) % 2 ^ 64).toNat
decreasing_by
  simp only [slide, i64]
  omega

def updateRounds (h : HistoryCounterData) (clockMs : Int) : Nat :=
  let index := clockSecond clockMs
  if historySize < i64 (index - h.currentRec) then 0 else updateLoopRounds index h

theorem updateLoop_eq_iterate (index : Int) (h : HistoryCounterData) :
    updateLoop index h = slide^[updateLoopRounds index h] h := by
  induction h using updateLoop.induct index with
  | case1 h hend =>
    rw [updateLoop, updateLoopRounds, if_pos hend, if_pos hend, Function.iterate_zero_apply]
  | case2 h hnext ih =>
    rw [updateLoop, updateLoopRounds, if_neg hnext, if_neg hnext, Function.iterate_succ_apply, ih]

theorem updateLoopRounds_eq (index : Int) (h : HistoryCounterData) :
    updateLoopRounds index h = ((index - h.currentRec) % 2 ^ 64).toNat := by
  induction h using updateLoop.induct index with
  | case1 h hend => rw [updateLoopRounds, if_pos hend, hend, Int.toNat_zero]
  | case2 h hnext ih =>
    rw [updateLoopRounds, if_neg hnext, ih]
    simp only [slide, i64]
    omega

theorem updateLoop_currentRec (index : Int) (h : HistoryCounterData) :
    (index - (updateLoop index h).currentRec) % 2 ^ 64 = 0 := by
  induction h using updateLoop.induct index with
  | case1 h hend => rwa [updateLoop, if_pos hend]
  | case2 h hnext ih => rwa [updateLoop, if_neg hnext]

theorem updateLoop_isI64 (index : Int) {h : HistoryCounterData} (hcur : IsI64 h.currentRec) :
    IsI64 (updateLoop index h).currentRec :=
  updateLoop_invariant (P := fun s => IsI64 s.currentRec)
    (fun s _ => isI64_i64 (s.currentRec + 1)) index hcur

theorem isI64_clockSecond {clockMs : Int} (hclock : IsI64 clockMs) :
    IsI64 (clockSecond clockMs) := by
  rw [IsI64] at hclock ⊢
  rw [clockSecond]
  rcases Int.le_total 0 clockMs with h0 | h0
  · rw [Int.tdiv_eq_ediv_of_nonneg h0]
    omega
  · have hneg : clockMs.tdiv 1000 = -((-clockMs).tdiv 1000) := by rw [Int.neg_tdiv, Int.neg_neg]
    rw [hneg, Int.tdiv_eq_ediv_of_nonneg (by omega)]
    omega

theorem update_currentRec {h : HistoryCounterData} (hcur : IsI64 h.currentRec) {clockMs : Int}
    (hclock : IsI64 clockMs) : (h.update clockMs).currentRec = clockSecond clockMs := by
  simp only [update]
  split
  · rfl
  · have hend := updateLoop_currentRec (clockSecond clockMs) h
    obtain ⟨hl, hu⟩ := updateLoop_isI64 (clockSecond clockMs) hcur
    obtain ⟨hl', hu'⟩ := isI64_clockSecond hclock
    omega

theorem updateRounds_le_iff (h : HistoryCounterData) (clockMs : Int) :
    (h.updateRounds clockMs : Int) ≤ historySize ↔
      0 ≤ i64 (clockSecond clockMs - h.currentRec) := by
  rw [updateRounds]
  split
  · next hlong =>
    rw [historySize] at hlong ⊢
    omega
  · next hshort =>
    rw [historySize] at hshort ⊢
    rw [updateLoopRounds_eq]
    simp only [i64] at hshort ⊢
    omega

/-- `update` is quick exactly when the 64-bit gap its guard looks at is not
negative. -/
theorem update_quick_iff {h : HistoryCounterData} (hcur : IsI64 h.currentRec) {clockMs : Int}
    (hclock : IsI64 clockMs) :
    (h.updateRounds clockMs : Int) ≤ historySize ∧
        (h.update clockMs).currentRec = clockSecond clockMs ↔
      0 ≤ i64 (clockSecond clockMs - h.currentRec) := by
  rw [updateRounds_le_iff]
  exact ⟨fun hquick => hquick.1, fun hgap => ⟨hgap, update_currentRec hcur hclock⟩⟩

theorem update_quick_iff_clear :
    ((clear 5000).updateRounds 7000 : Int) ≤ historySize ∧
        ((clear 5000).update 7000).currentRec = clockSecond 7000 ↔
      0 ≤ i64 (clockSecond 7000 - (clear 5000).currentRec) :=
  update_quick_iff (h := clear 5000) (by decide) (by decide)

/-- One second back costs `2 ^ 64 - 1` rounds. -/
theorem update_clock_behind_not_quick :
    ¬ ∀ (h : HistoryCounterData) (clockMs : Int), IsI64 h.currentRec → IsI64 clockMs →
      (h.updateRounds clockMs : Int) ≤ historySize ∧
        (h.update clockMs).currentRec = clockSecond clockMs := by
  intro hall
  have hquick := (hall (clear 5000) 4000 (by decide) (by decide)).1
  rw [updateRounds_le_iff] at hquick
  exact absurd hquick (by decide)

structure Words (h : HistoryCounterData) : Prop where
  recs : ∀ i, IsI64 (h.recs i).count ∧ IsI64 (h.recs i).sum
  totalCount : IsI64 h.totalCount
  totalSumm : IsI64 h.totalSumm
  intervalCount : IsI64 h.intervalCount
  intervalSumm : IsI64 h.intervalSumm

namespace Words

variable {h : HistoryCounterData}

theorem slide (hw : Words h) : Words h.slide := by
  refine ⟨fun i => ?_, hw.totalCount, hw.totalSumm, isI64_i64 _, isI64_i64 _⟩
  by_cases hi : i = (i64 (h.currentRec + 1)).tmod (historySize + 1)
  · simp only [HistoryCounterData.slide, hi, Function.update_self]
    exact ⟨isI64_zero, isI64_zero⟩
  · simp only [HistoryCounterData.slide, Function.update_of_ne hi]
    exact hw.recs i

theorem updateLoop (hw : Words h) (index : Int) :
    Words (HistoryCounterData.updateLoop index h) :=
  updateLoop_invariant (fun _ hs => hs.slide) index hw

theorem update (hw : Words h) (clockMs : Int) : Words (h.update clockMs) := by
  simp only [HistoryCounterData.update]
  split
  · exact ⟨fun _ => ⟨isI64_zero, isI64_zero⟩, hw.totalCount, hw.totalSumm, isI64_zero, isI64_zero⟩
  · exact hw.updateLoop _

theorem clear (clockMs : Int) : Words (HistoryCounterData.clear clockMs) :=
  ⟨fun _ => ⟨isI64_zero, isI64_zero⟩, isI64_zero, isI64_zero, isI64_zero, isI64_zero⟩

end Words

theorem update_congr (h : HistoryCounterData) {a b : Int} (hsec : clockSecond a = clockSecond b) :
    h.update a = h.update b := by
  simp only [update, hsec]

theorem update_of_current {h : HistoryCounterData} {clockMs : Int}
    (hcur : (clockSecond clockMs - h.currentRec) % 2 ^ 64 = 0) : h.update clockMs = h := by
  have hgap : i64 (clockSecond clockMs - h.currentRec) = 0 := by
    simp only [i64]
    omega
  simp only [update, hgap, historySize]
  rw [if_neg (by decide), updateLoop, if_pos hcur]

theorem update_reaches (h : HistoryCounterData) (clockMs : Int) :
    (clockSecond clockMs - (h.update clockMs).currentRec) % 2 ^ 64 = 0 := by
  simp only [update]
  split
  · simp
  · exact updateLoop_currentRec _ h

/-- On either branch of the first call a second one in the same second, with or
without an addition between them, does nothing. -/
theorem update_add_update (h : HistoryCounterData) (c v : Int) {a b : Int}
    (hsec : clockSecond b = clockSecond a) :
    ((h.update a).add c v).update b = (h.update a).add c v := by
  apply update_of_current
  rw [hsec]
  exact update_reaches h a

theorem add_add (h : HistoryCounterData) (c v c' v' : Int) :
    (h.add c v).add c' v' = h.add (c + c') (v + v') := by
  simp only [add, Function.update_self, Function.update_idem, i64_i64_add, Int.add_assoc]

theorem add_i64 (h : HistoryCounterData) (c v : Int) : h.add (i64 c) (i64 v) = h.add c v := by
  simp only [add, i64_add_i64]

theorem increment_eq_add {h : HistoryCounterData} (hw : Words h) (clockMs : Int) :
    h.increment clockMs = (h.update clockMs).add 1 0 := by
  have hu := hw.update clockMs
  simp only [HistoryCounterData.increment, add, Int.add_zero, (hu.recs _).2.i64_eq,
    hu.totalSumm.i64_eq, hu.intervalSumm.i64_eq]

theorem Words.add {h : HistoryCounterData} (hw : Words h) (c v : Int) : Words (h.add c v) := by
  refine ⟨fun i => ?_, isI64_i64 _, isI64_i64 _, isI64_i64 _, isI64_i64 _⟩
  by_cases hi : i = h.recIndex
  · simp only [HistoryCounterData.add, hi, Function.update_self]
    exact ⟨isI64_i64 _, isI64_i64 _⟩
  · simp only [HistoryCounterData.add, Function.update_of_ne hi]
    exact hw.recs i

end HiloUtils.HistoryCounterData
