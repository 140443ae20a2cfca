import HiloUtils.Occupancy

/-! A message that can never fit. `Push` leaves the queue alone unless it finds
the whole ring reported as used, where the free size wraps, or drops queued
records under `drop_old` before it finds that no room can be made. -/

namespace HiloUtils.Oversized

open Word MirrorRing BoundedFifo RecordQueue MessageQueue Occupancy

def NeverFits (s : ShmBufferExData) (chunks : ShmChunks) : Prop :=
  s.capacity < recSize chunks.payload ∧ recSize chunks.payload < 2 ^ 32

def SameQueue (s s' : ShmBufferExData) : Prop :=
  s' = { s with
    totalDropCount := s'.totalDropCount
    totalErrorCount := s'.totalErrorCount
    tmpDropCount := s'.tmpDropCount
    tmpDropVolume := s'.tmpDropVolume }

/-- `Push` returns, keeps the queue, and changes nothing at all unless it drops
new messages. -/
def Harmless (s : ShmBufferExData) (chunks : ShmChunks) : Prop :=
  ∃ ok s', s.push chunks = some (ok, s') ∧ SameQueue s s' ∧ (s.onOverflow ≠ .dropNew → s' = s)

def Safe (s : ShmBufferExData) : Prop :=
  s.dataSize ≤ s.capacity ∧ (s.onOverflow = .dropOld → s.isEmpty = true)

theorem freeSize_of_safe {s : ShmBufferExData} (h : s.dataSize ≤ s.capacity) :
    s.freeSize ≤ s.capacity := by
  have hcap : s.capacity < 2 ^ 64 := Nat.mod_lt _ (by decide)
  rw [ShmBufferExData.freeSize, subU64_of_le h hcap]
  exact Nat.sub_le _ _

theorem harmless_of_safe {s : ShmBufferExData} {chunks : ShmChunks} (hnever : NeverFits s chunks)
    (hsafe : Safe s) : Harmless s chunks := by
  have hpos := recSize_pos chunks.payload
  have hfree : s.freeSize < recSize chunks.payload :=
    Nat.lt_of_le_of_lt (freeSize_of_safe hsafe.1) hnever.1
  unfold Harmless
  simp only [ShmBufferExData.push, recordSize_chunks hnever.2, if_neg hpos.ne', if_pos hfree]
  cases hmode : s.onOverflow with
  | returnError => exact ⟨false, s, rfl, rfl, fun _ => rfl⟩
  | dropNew => exact ⟨true, s.dropNewRecord _, rfl, rfl, fun h => absurd rfl h⟩
  | dropOld =>
    have hpeek : s.peek = none := by
      rw [ShmBufferExData.peek, if_pos (hsafe.2 hmode)]
    have hdrop : s.dropFirstRecords (recSize chunks.payload) = some (false, s) := by
      simp only [ShmBufferExData.dropFirstRecords, ShmBufferExData.dropLoop, if_pos hfree,
        ShmBufferExData.dropFirstRecord, hpeek]
    rw [hdrop]
    exact ⟨false, s, rfl, rfl, fun _ => rfl⟩

section

variable {size pos : Nat} {s s' : ShmBufferExData} {q : List Payload}

theorem represents_of_same (h : Represents size s pos q) (hsame : SameQueue s s') :
    Represents size s' pos q := by
  rw [hsame]
  exact ⟨h.bufferSize_eq, h.size_le, h.fits, h.head, h.head_le, h.headOffset_eq, h.tail,
    h.tail_le, h.tailOffset_eq, h.bytes, h.count_eq, h.last_eq⟩

theorem capacity_eq (h : Represents size s pos q) : s.capacity = size - 1 := by
  have hfits := h.fits
  have hsize := h.size_le
  rw [ShmBufferExData.capacity, h.bufferSize_eq, subU64_of_le (by omega) (by omega)]

theorem freeSize_of_drained (h : Represents size s pos q) (hd : Drained s) :
    s.freeSize = 2 ^ 64 - 1 := by
  have hfits := h.fits
  have hsize := h.size_le
  rw [ShmBufferExData.freeSize, capacity_eq h, dataSize_of_drained h hd, subU64]
  omega

theorem drained_of_dataSize (h : Represents size s pos q) (hdata : s.capacity < s.dataSize) :
    Drained s := by
  have hfits := h.fits
  by_contra hd
  rw [dataSize_of_not_drained h hd, capacity_eq h] at hdata
  omega

theorem dropLoop_neverFits (h : Represents size s pos q) {need : Nat} (hneed : size - 1 < need)
    (hlt : need < 2 ^ 32) {rounds : Nat} (hrounds : q.length < rounds) :
    ∃ ok, ShmBufferExData.dropLoop need rounds s = some (ok, discardAll s q) := by
  have hcap := capacity_eq h
  induction q generalizing s pos rounds with
  | nil =>
    obtain ⟨rounds, rfl⟩ := Nat.exists_eq_add_one.mpr hrounds
    rw [ShmBufferExData.dropLoop]
    by_cases hfree : s.freeSize < need
    · have hd : ¬ Drained s := by
        intro hd
        rw [freeSize_of_drained h hd] at hfree
        omega
      have hempty := (isEmpty_iff_of_not_drained h hd).mpr (h.laidOut.count_eq_zero_iff.mpr rfl)
      refine ⟨false, ?_⟩
      simp only [if_pos hfree, ShmBufferExData.dropFirstRecord, ShmBufferExData.peek, hempty,
        if_true, discardAll_nil]
    · exact ⟨true, by rw [if_neg hfree]; rfl⟩
  | cons p q ih =>
    obtain ⟨rounds, rfl⟩ := Nat.exists_eq_add_one.mpr (Nat.zero_lt_of_lt hrounds)
    have hfits := h.fits
    have hd : ¬ Drained s := fun hd => absurd (h.laidOut.count_eq_zero_iff.mp hd.1) (by simp)
    have hfree : s.freeSize < need := by
      have hle : s.dataSize ≤ s.capacity := by
        rw [dataSize_of_not_drained h hd, hcap]
        omega
      have := freeSize_of_safe hle
      omega
    obtain ⟨ok, hrest⟩ := ih h.discard (Nat.lt_of_succ_lt_succ hrounds) (capacity_eq h.discard)
    refine ⟨ok, ?_⟩
    rw [ShmBufferExData.dropLoop, if_pos hfree]
    simp only [ShmBufferExData.dropFirstRecord, h.laidOut.peek_eq, h.laidOut.first_record.1]
    exact hrest

theorem discardAll_represents (h : Represents size s pos q) :
    Represents size (discardAll s q) (pos + total recSize q) [] := by
  have hall : LaidOut size s pos (q ++ []) := by
    rw [List.append_nil]
    exact h.laidOut
  exact .of_laidOut hall.without h.size_le

theorem safe_of_harmless {chunks : ShmChunks} (h : Represents size s pos q)
    (hnever : NeverFits s chunks) (hharmless : Harmless s chunks) : Safe s := by
  obtain ⟨ok, s', hpush, hsame, -⟩ := hharmless
  have hcount : s'.count = s.count := by rw [hsame]
  have htotal : s'.totalCount = s.totalCount := by rw [hsame]
  have hstored : ∀ t : ShmBufferExData, t.totalCount = s.totalCount →
      s' ≠ t.storeRecord chunks (recSize chunks.payload) := by
    intro t ht heq
    rw [heq, storeRecord_totalCount, ht] at htotal
    simp only [u64] at htotal
    omega
  have hpos := recSize_pos chunks.payload
  simp only [ShmBufferExData.push, recordSize_chunks hnever.2, if_neg hpos.ne'] at hpush
  by_cases hdata : s.dataSize ≤ s.capacity
  · have hfree : s.freeSize < recSize chunks.payload :=
      Nat.lt_of_le_of_lt (freeSize_of_safe hdata) hnever.1
    refine ⟨hdata, fun hmode => ?_⟩
    rw [if_pos hfree, hmode] at hpush
    have hneed : size - 1 < recSize chunks.payload := by
      rw [← capacity_eq h]
      exact hnever.1
    have hrounds : q.length < s.count + 1 := by
      rw [h.count_eq]
      exact Nat.lt_succ_self _
    obtain ⟨dropped, hloop⟩ := dropLoop_neverFits h hneed hnever.2 hrounds
    have hdrop : s.dropFirstRecords (recSize chunks.payload) = _ := hloop
    rw [hdrop] at hpush
    cases dropped with
    | true =>
      have heq := (Prod.mk.inj (Option.some.inj hpush)).2
      exact absurd heq.symm (hstored _ (discardAll_totalCount s q))
    | false =>
      have heq := (Prod.mk.inj (Option.some.inj hpush)).2
      have hempty : s.count = 0 := by
        rw [← hcount, ← heq]
        exact (discardAll_represents h).count_eq
      have hd : ¬ Drained s := by
        intro hd
        rw [freeSize_of_drained h hd] at hfree
        have := hnever.2
        omega
      exact (isEmpty_iff_of_not_drained h hd).mpr hempty
  · have hfree : ¬ s.freeSize < recSize chunks.payload := by
      rw [freeSize_of_drained h (drained_of_dataSize h (Nat.lt_of_not_le hdata))]
      have := hnever.2
      omega
    rw [if_neg hfree] at hpush
    exact absurd (Prod.mk.inj (Option.some.inj hpush)).2.symm (hstored s rfl)

end

/-- Every message fits, or leaves the queue alone. -/
def KeepsQueue (size : Nat) (s : ShmBufferExData) : Op → Prop
  | .push chunks => recSize chunks.payload ≤ size - 1 ∨ NeverFits s chunks ∧ Safe s
  | _ => True

theorem represents_step {size : Nat} {s s' : ShmBufferExData} {op : Op} {o : Out}
    (h : ∃ pos q, Represents size s pos q) (hkeep : KeepsQueue size s op)
    (hs : step s op = some (o, s')) : ∃ pos q, Represents size s' pos q := by
  obtain ⟨pos, q, hrep⟩ := h
  have hfits : op.Fits size → ∃ pos q, Represents size s' pos q := by
    intro hfit
    have hrel : Refines size s ⟨s.onOverflow, q⟩ := ⟨rfl, pos, hrep⟩
    obtain ⟨t, ht, -, pos', hrep'⟩ := hrel.step op hfit
    obtain rfl := Run.state_eq (ht.symm.trans hs)
    exact ⟨pos', _, hrep'⟩
  cases op with
  | pop maxSize deleteRecord => exact hfits trivial
  | setOverflovBehavior d dropIsOk => exact hfits trivial
  | push chunks =>
    rcases hkeep with hfit | ⟨hnever, hsafe⟩
    · exact hfits hfit
    · obtain ⟨ok, t, hpush, hsame, -⟩ := harmless_of_safe hnever hsafe
      rw [step, hpush] at hs
      obtain rfl := Run.state_eq hs
      exact ⟨pos, q, represents_of_same hrep hsame⟩

/-- A message that can never fit does no harm in any safe state; in a run of
which every step keeps the queue, it does no harm in safe states only. -/
theorem push_neverFits (chunks : ShmChunks) :
    (∀ s, NeverFits s chunks → Safe s → Harmless s chunks) ∧
      ∀ (raw : ShmBufferExData) (size : Nat) (trace : List (Op × Out)) (s : ShmBufferExData),
        0 < size → size ≤ 2 ^ 31 →
        Run step (KeepsQueue size) (raw.init (size + ShmBufferExData.sizeof)) trace s →
        NeverFits s chunks → Harmless s chunks → Safe s := by
  refine ⟨fun s => harmless_of_safe, fun raw size trace s hpos hsize run => ?_⟩
  have hrep : ∃ pos q, Represents size s pos q :=
    run.invariant (I := fun s => ∃ pos q, Represents size s pos q)
      ⟨0, [], Represents.init raw hpos hsize⟩
      fun _ _ _ _ hI hkeep hs => represents_step hI hkeep hs
  obtain ⟨pos, q, hrep⟩ := hrep
  exact safe_of_harmless hrep

theorem push_neverFits_queued :
    ∃ (chunks : ShmChunks) (trace : List (Op × Out)) (s s' : ShmBufferExData),
      Run step (KeepsQueue 4096) (blank.init (4096 + ShmBufferExData.sizeof)) trace s ∧
      recSize chunks.payload = 4096 ∧ s.count = 1 ∧ Harmless s chunks ∧
      step s (.setOverflovBehavior .dropOld true) = some (.set, s') ∧ ¬ Harmless s' chunks := by
  obtain ⟨chunks, hsize, -⟩ := exists_page_message 0
  obtain ⟨hsafe, hharmless⟩ := push_neverFits chunks
  have run : Run step (KeepsQueue 4096) (blank.init (4096 + ShmBufferExData.sizeof)) _ _ :=
    Run.start.next (i := Op.push (.single [7, 8, 9] (by decide)))
      (.inl (by decide)) rfl
  have hnever : ∀ s : ShmBufferExData, s.capacity = 4095 → NeverFits s chunks := by
    intro s hcap
    exact ⟨by rw [hcap, hsize]; decide, by rw [hsize]; decide⟩
  refine ⟨chunks, _, _, _, run, hsize, rfl, hsafe _ (hnever _ rfl) ⟨by decide, ?_⟩, rfl, ?_⟩
  · exact fun hmode => absurd hmode (by decide)
  · intro hafter
    have hbad := hharmless blank 4096 _ _ (by decide) (by decide)
      (run.next (i := Op.setOverflovBehavior .dropOld true) trivial rfl) (hnever _ rfl) hafter
    exact absurd (hbad.2 rfl) (by decide)

/-- Under `drop_old` the queued messages are dropped for a message that can
never fit. -/
theorem push_neverFits_drops :
    ¬ ∀ (raw : ShmBufferExData) (size : Nat) (trace : List (Op × Out)) (s : ShmBufferExData)
      (chunks : ShmChunks), 4096 ∣ size → 0 < size → size ≤ 2 ^ 31 →
      Run step (fun _ _ => True) (raw.init (size + ShmBufferExData.sizeof)) trace s →
      NeverFits s chunks → Harmless s chunks := by
  intro hall
  obtain ⟨chunks, hsize, -⟩ := exists_page_message 0
  have run : Run step (fun _ => Op.Fits 4096) (blank.init (4096 + ShmBufferExData.sizeof)) _ _ :=
    .next (i := Op.push (.single [7, 8, 9] (by decide)))
      (.next (i := Op.setOverflovBehavior .dropOld true) .start trivial rfl)
      (by change recSize _ ≤ _; decide) rfl
  obtain ⟨-, -, pos, hrep⟩ := run_refines blank (by decide) (by decide) run
  have hnever : NeverFits _ chunks :=
    ⟨by rw [capacity_eq hrep, hsize]; decide, by rw [hsize]; decide⟩
  have hharmless := hall _ _ _ _ chunks (dvd_refl _) (by decide) (by decide)
    (run.weaken fun _ _ _ => trivial) hnever
  have hsafe := safe_of_harmless hrep hnever hharmless
  exact absurd (hsafe.2 rfl) (by decide)

end HiloUtils.Oversized
