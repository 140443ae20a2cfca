import HiloUtils.WindowSums

/-! `GetInfo` does not move the window on before it reads. When it still agrees
with the getters. -/

namespace HiloUtils.InfoSnapshot

open Word HistoryCounterData SlidingWindow WindowSums

/-- What the getters return at one clock reading. -/
def readAll (h : HistoryCounterData) (clockMs : Int) : HistoryCounterInfo where
  lastCount := (h.getLastCount clockMs).1
  lastSumm := (h.getLastVolume clockMs).1
  intervalCount := (h.getIntervalCount clockMs).1
  intervalSumm := (h.getIntervalVolume clockMs).1
  totalCount := h.getTotalCount
  totalSumm := h.getTotalVolume

def leaving (f : HistoryRec → Int) (h : HistoryCounterData) (t : Int) : Int :=
  ∑ i ∈ (Finset.range (historySize.toNat + 1)).filter fun i : Nat => Leaves h t i, f (h.recs i)

def nextLast (h : HistoryCounterData) (t : Int) : HistoryRec :=
  if t = h.currentRec + 1 then h.recs (h.currentRec % 301) else ⟨0, 0⟩

/-- No second has begun, or what leaves the window adds up to nothing and the
last-second slot reads the same. -/
def UpToDate (h : HistoryCounterData) (t : Int) : Prop :=
  t = h.currentRec ∨
    (i64 (leaving HistoryRec.count h t) = 0 ∧ i64 (leaving HistoryRec.sum h t) = 0 ∧
      h.recs h.lastIndex = nextLast h t)

theorem readAll_eq_getInfo (h : HistoryCounterData) (clockMs : Int) :
    readAll h clockMs = (h.update clockMs).getInfo := by
  obtain ⟨hcount, hsumm⟩ := h.update_totals clockMs
  simp only [readAll, getInfo, getLastCount, getLastVolume, getIntervalCount, getIntervalVolume,
    getTotalCount, getTotalVolume, hcount, hsumm]

theorem slotSum_reaches {f : HistoryRec → Int} (hf : f ⟨0, 0⟩ = 0) {h h' : HistoryCounterData}
    {t : Int} (hr : Reaches h h' t) : slotSum f h' + leaving f h t = slotSum f h := by
  rw [slotSum, slotSum, leaving, Finset.sum_filter, ← Finset.sum_add_distrib]
  apply Finset.sum_congr rfl
  intro i hi
  rw [hr.recs i (Int.natCast_nonneg i) (mem_slots.mp hi)]
  by_cases hleaves : Leaves h t i
  · rw [if_pos hleaves, if_pos hleaves, hf, Int.zero_add]
  · rw [if_neg hleaves, if_neg hleaves, Int.add_zero]

theorem lastIndex_bounds {h : HistoryCounterData} {amount : Int × Int} (hb : Balanced h amount) :
    0 ≤ h.lastIndex ∧ h.lastIndex ≤ historySize := by
  have h0 := hb.index_nonneg
  have h1 := hb.index_le
  rw [historySize] at h1
  rw [lastIndex, historySize]
  split <;> omega

theorem recs_lastIndex_reaches {h h' : HistoryCounterData} {amount : Int × Int} {t : Int}
    (hb' : Balanced h' amount) (hr : Reaches h h' t) (hlater : h.currentRec < t) :
    h'.recs h'.lastIndex = nextLast h t := by
  obtain ⟨h0, h1⟩ := lastIndex_bounds hb'
  rw [hr.recs _ h0 h1, nextLast]
  by_cases hlong : t ≤ h.currentRec + historySize
  · have hlast : h'.lastIndex = (t - 1) % 301 := by
      rw [lastIndex, hr.index hlater hlong, historySize]
      split <;> omega
    rw [hlast]
    by_cases hnext : t = h.currentRec + 1
    · have hsame : (t - 1) % 301 = h.currentRec % 301 := by omega
      rw [if_pos hnext, if_neg, hsame]
      rw [Leaves]
      omega
    · rw [if_neg hnext, if_pos]
      rw [Leaves]
      omega
  · rw [historySize] at hlong
    have hne : t ≠ h.currentRec + 1 := by omega
    rw [if_neg hne, if_pos]
    rw [Leaves]
    omega

theorem getInfo_eq_getInfo {h h' : HistoryCounterData} (hcount : h'.totalCount = h.totalCount)
    (hsumm : h'.totalSumm = h.totalSumm) :
    h.getInfo = h'.getInfo ↔ h.intervalCount = h'.intervalCount ∧
      h.intervalSumm = h'.intervalSumm ∧ h.recs h.lastIndex = h'.recs h'.lastIndex := by
  constructor
  · intro heq
    simp only [getInfo, HistoryCounterInfo.mk.injEq] at heq
    obtain ⟨hlast, hlasts, hinterval, hintervals, -⟩ := heq
    refine ⟨hinterval, hintervals, ?_⟩
    cases hrec : h.recs h.lastIndex
    cases hrec' : h'.recs h'.lastIndex
    rw [hrec, hrec'] at hlast hlasts
    exact HistoryRec.mk.injEq .. ▸ ⟨hlast, hlasts⟩
  · rintro ⟨hinterval, hintervals, hlast⟩
    rw [getInfo, getInfo, hinterval, hintervals, hlast, hcount, hsumm]

theorem getInfo_eq_readAll_iff_of_balanced {h : HistoryCounterData} {amount : Int × Int}
    (hb : Balanced h amount) (clock : Clock) (hlater : h.currentRec ≤ clockSecond clock.ms) :
    h.getInfo = readAll h clock.ms ↔ UpToDate h (clockSecond clock.ms) := by
  obtain ⟨hb', hr⟩ := hb.update clock hlater
  obtain ⟨hcount, hsumm⟩ := h.update_totals clock.ms
  rw [readAll_eq_getInfo, getInfo_eq_getInfo hcount hsumm, UpToDate]
  rcases Int.lt_or_eq_of_le hlater with hgap | hsame
  · have hne : clockSecond clock.ms ≠ h.currentRec := by omega
    have hc := slotSum_reaches (f := HistoryRec.count) rfl hr
    have hs := slotSum_reaches (f := HistoryRec.sum) rfl hr
    have hleft : ∀ a b c : Int, b + c = a → (i64 a = i64 b ↔ i64 c = 0) := by
      intro a b c habc
      simp only [i64]
      omega
    rw [hb.intervalCount, hb'.intervalCount, hleft _ _ _ hc, hb.intervalSumm, hb'.intervalSumm,
      hleft _ _ _ hs, recs_lastIndex_reaches hb' hr hgap, or_iff_right hne]
  · rw [hr.same hsame.symm]
    exact ⟨fun _ => Or.inl hsame.symm, fun _ => ⟨rfl, rfl, rfl⟩⟩

/-- At every reachable counter and every later clock reading. -/
theorem getInfo_eq_readAll_iff (start : Clock) {trace : List (Call × Option Int)}
    {h : HistoryCounterData} (run : Run step InOrder (clear start.ms) trace h) (clock : Clock)
    (hlater : h.currentRec ≤ clockSecond clock.ms) :
    h.getInfo = readAll h clock.ms ↔ UpToDate h (clockSecond clock.ms) :=
  getInfo_eq_readAll_iff_of_balanced (balanced_of_run start run) clock hlater

theorem getInfo_eq_readAll_iff_events :
    ∃ trace h, trace.map Prod.fst = [⟨⟨5000, by decide, by decide⟩, .addBatch 2 (-7)⟩,
        ⟨⟨6000, by decide, by decide⟩, .increment⟩] ∧
      Run step InOrder (clear 0) trace h ∧
      (h.getInfo = readAll h 7000 ↔ UpToDate h (clockSecond 7000)) := by
  let batch : Call := ⟨⟨5000, by decide, by decide⟩, .addBatch 2 (-7)⟩
  let event : Call := ⟨⟨6000, by decide, by decide⟩, .increment⟩
  have hfirst : InOrder (clear 0) batch := by change (0 : Int) ≤ 5; decide
  have hcur : ((clear 0).addBatch 5000 2 (-7)).currentRec = 5 :=
    ((Balanced.clear ⟨0, by decide, by decide⟩).update batch.clock hfirst).2.second
  have called : Run step InOrder (clear 0) _ _ := Run.start.next (i := batch) hfirst rfl
  have hsecond : InOrder ((clear 0).addBatch 5000 2 (-7)) event := hcur.trans_le (by decide)
  have hb := balanced_of_run ⟨0, by decide, by decide⟩ called
  have hcur' : (((clear 0).addBatch 5000 2 (-7)).increment 6000).currentRec = 6 :=
    (hb.update event.clock hsecond).2.second
  have run := called.next (i := event) hsecond rfl
  exact ⟨_, _, rfl, run, getInfo_eq_readAll_iff ⟨0, by decide, by decide⟩ run
    ⟨7000, by decide, by decide⟩ (hcur'.trans_le (by decide))⟩

/-- An event of second 0 is still in the snapshot at second 400. -/
theorem getInfo_reports_stale_event :
    ¬ ∀ (start : Clock) (trace : List (Call × Option Int)) (h : HistoryCounterData),
      Run step InOrder (clear start.ms) trace h → ∀ clock : Clock,
      h.currentRec ≤ clockSecond clock.ms → h.getInfo = readAll h clock.ms := by
  intro hall
  let event : Call := ⟨⟨0, by decide, by decide⟩, .increment⟩
  have hkeep : (clear 0).update 0 = clear 0 := update_of_current rfl
  have hcount : ((clear 0).increment 0).getInfo.intervalCount = 1 := by
    simp only [getInfo, increment, hkeep]
    decide
  have hcur : ((clear 0).increment 0).currentRec = 0 := by
    simp only [increment, hkeep]
    decide
  have run : Run step InOrder (clear 0) _ _ :=
    Run.start.next (i := event) (by change (0 : Int) ≤ 0; decide) rfl
  have hinfo := hall ⟨0, by decide, by decide⟩ _ _ run ⟨400000, by decide, by decide⟩
    (hcur.trans_le (by decide))
  have hgap : ((clear 0).increment 0).update 400000 =
      { (clear 0).increment 0 with
        recs := fun _ => ⟨0, 0⟩
        intervalCount := 0
        intervalSumm := 0
        currentRec := 400 } := by
    simp only [HistoryCounterData.update]
    rw [hcur, if_pos (by decide)]
    rfl
  have hread : (readAll ((clear 0).increment 0) 400000).intervalCount = 0 := by
    rw [readAll_eq_getInfo, hgap]
    rfl
  have hsame := congrArg HistoryCounterInfo.intervalCount hinfo
  exact absurd (hcount.symm.trans (hsame.trans hread)) (by decide)

end HiloUtils.InfoSnapshot
