import HiloUtils.MessageQueue
import HiloUtils.ShmBufferEx

/-! What the queue reports about its own fill. The figures agree with the live
records unless the queue was emptied while the tail rested at the end of the
ring: the head is then at the beginning, and the whole ring counts as used. -/

namespace HiloUtils.Occupancy

open Word MirrorRing BoundedFifo RecordQueue MessageQueue

/-- An empty queue whose tail was left at the end of the ring. -/
def Drained (s : ShmBufferExData) : Prop := s.count = 0 ∧ s.tail = s.bufferSize

/-- No deleting `Pop` takes the only record while the tail is at the end of the
ring. -/
def NotDrainedAtEnd (s : ShmBufferExData) : Op → Prop
  | .pop maxSize true => ¬ (s.count = 1 ∧ s.tail = s.bufferSize ∧ s.dataSizeAt s.head ≤ maxSize)
  | _ => True

structure Agrees (s : ShmBufferExData) (live : List Payload) : Prop where
  dataSize_eq : s.dataSize = total recSize live
  dataSize_le : s.dataSize ≤ s.capacity
  freeSize_eq : s.freeSize = s.capacity - s.dataSize
  isEmpty_iff : s.isEmpty = true ↔ s.count = 0
  usedBp_le : s.getUsedBp ≤ 10000
  dataSize_empty : s.count = 0 → s.dataSize = 0

def NotFull (s : ShmBufferExData) : Prop :=
  ∀ (b : ShmBufferEx) (clock : TransferClock) (format : StatusFormat), b.data = s →
    (b.getStat clock).1.full = 0 ∧
      ((b.getStat clock).1.checkStatus format false).map Prod.fst =
        ((b.getStat clock).1.checkStatus format true).map Prod.fst

theorem checkStatus_of_empty {stat : QueueStat} (hdata : stat.dataSize = 0)
    (hcap : stat.capacity ≠ 0) (format : StatusFormat) :
    stat.full = 0 ∧
      (stat.checkStatus format false).map Prod.fst =
        (stat.checkStatus format true).map Prod.fst := by
  have hfull : stat.full = 0 := by
    unfold QueueStat.full
    rw [hdata, Nat.zero_mul, u64, Nat.zero_mod, Nat.zero_div]
    rfl
  refine ⟨hfull, ?_⟩
  simp only [QueueStat.checkStatus, QueueStat.checkFull, hcap, hfull, if_true, if_false,
    Bool.false_eq_true, Option.map_some]
  split
  · split <;> rfl
  · rfl

@[simp] theorem getStat_dataSize (b : ShmBufferEx) (clock : TransferClock) :
    (b.getStat clock).1.dataSize = b.data.dataSize := rfl

@[simp] theorem getStat_capacity (b : ShmBufferEx) (clock : TransferClock) :
    (b.getStat clock).1.capacity = b.data.capacity := rfl

theorem Agrees.notFull {s : ShmBufferExData} {live : List Payload} (h : Agrees s live)
    (hcap : s.capacity ≠ 0) (hcount : s.count = 0) : NotFull s := by
  intro b clock format hb
  subst hb
  have hdata : (b.getStat clock).1.dataSize = 0 := by
    rw [getStat_dataSize, h.dataSize_empty hcount]
  have hcap' : (b.getStat clock).1.capacity ≠ 0 := by
    rw [getStat_capacity]
    exact hcap
  exact checkStatus_of_empty hdata hcap' format

section

variable {size pos : Nat} {s : ShmBufferExData} {q : List Payload}

theorem head_of_drained (h : Represents size s pos q) (hd : Drained s) : s.head = 0 := by
  have hlt := h.head.lt
  have hq : q = [] := h.laidOut.count_eq_zero_iff.mp hd.1
  have htail : s.tail = size := hd.2.trans h.bufferSize_eq
  rcases cursors h.head h.tail h.fits with hc | hc | hc
  · rw [hq, total_nil] at hc
    omega
  · omega
  · exact hc.2.1

theorem dataSize_of_drained (h : Represents size s pos q) (hd : Drained s) :
    s.dataSize = size :=
  LaidOut.dataSize_drained (head_of_drained h hd) (hd.2.trans h.bufferSize_eq)

theorem dataSize_of_not_drained (h : Represents size s pos q) (hd : ¬ Drained s) :
    s.dataSize = total recSize q := by
  rcases h.laidOut.dataSize_cases with hdata | ⟨hq, -, htail⟩
  · exact hdata
  · exact absurd ⟨h.laidOut.count_eq_zero_iff.mpr hq, htail.trans h.bufferSize_eq.symm⟩ hd

theorem isEmpty_iff_of_not_drained (h : Represents size s pos q) (hd : ¬ Drained s) :
    s.isEmpty = true ↔ s.count = 0 := by
  have hdata := dataSize_of_not_drained h hd
  have hle := h.tail.le
  have hlt := h.head.lt
  have hlen := length_le_total recSize recSize_pos q
  have hfits := h.fits
  have hsize := h.size_le
  rw [h.laidOut.count_eq_zero_iff, ShmBufferExData.isEmpty, beq_iff_eq]
  rw [ShmBufferExData.dataSize, h.bufferSize_eq] at hdata
  constructor
  · intro heq
    rw [if_pos heq.le] at hdata
    exact List.length_eq_zero_iff.mp (by omega)
  · intro hq
    rw [hq, total_nil] at hdata
    split at hdata
    · omega
    · rw [subU64_of_le (by omega) (by omega)] at hdata
      omega

theorem agrees_iff (h : Represents size s pos q) (hone : 1 < size) :
    Agrees s q ↔ ¬ Drained s := by
  have hfits := h.fits
  have hsize := h.size_le
  have hcap : s.capacity = size - 1 := by
    rw [ShmBufferExData.capacity, h.bufferSize_eq, subU64_of_le hone.le (by omega)]
  constructor
  · intro hagrees hd
    have hle := hagrees.dataSize_le
    rw [dataSize_of_drained h hd, hcap] at hle
    omega
  · intro hd
    have hdata := dataSize_of_not_drained h hd
    refine ⟨hdata, by omega, ?_, isEmpty_iff_of_not_drained h hd, ?_, ?_⟩
    · rw [ShmBufferExData.freeSize, hdata, hcap, subU64_of_le (by omega) (by omega)]
    · rw [ShmBufferExData.getUsedBp, hdata, hcap, u64_of_lt (by omega)]
      apply Nat.div_le_of_le_mul
      omega
    · intro hcount
      rw [hdata, h.laidOut.count_eq_zero_iff.mp hcount, total_nil]

end

theorem not_drained_step {size : Nat} {s s' : ShmBufferExData} {f : Fifo} {op : Op} {o : Out}
    (h : Refines size s f) (hfit : op.Fits size) (hkeep : NotDrainedAtEnd s op)
    (hs : step s op = some (o, s')) (hd : ¬ Drained s) : ¬ Drained s' := by
  obtain ⟨mode, live⟩ := f
  obtain ⟨-, pos, hrep⟩ := h
  cases op with
  | setOverflovBehavior d dropIsOk =>
    obtain rfl := Run.state_eq hs
    exact hd
  | push chunks =>
    have hpush := hrep.push chunks hfit
    simp only [step] at hs
    cases hv : verdict (size - 1) s.onOverflow live chunks.payload with
    | accepted evicted =>
      rw [hv] at hpush
      obtain ⟨heq, hrep'⟩ := hpush
      rw [heq] at hs
      obtain rfl := Run.state_eq hs
      intro hd'
      exact absurd (hrep'.laidOut.count_eq_zero_iff.mp hd'.1) (by simp)
    | ignored =>
      rw [hv] at hpush
      rw [hpush] at hs
      obtain rfl := Run.state_eq hs
      exact hd
    | refused =>
      rw [hv] at hpush
      rw [hpush] at hs
      obtain rfl := Run.state_eq hs
      exact hd
  | pop maxSize deleteRecord =>
    simp only [step] at hs
    cases live with
    | nil =>
      rw [hrep.laidOut.pop_nil] at hs
      obtain rfl := Run.state_eq hs
      exact hd
    | cons p rest =>
      rw [hrep.laidOut.pop_cons] at hs
      obtain rfl := Run.state_eq hs
      by_cases hsize : maxSize < p.length
      · rw [if_pos hsize]
        exact hd
      · rw [if_neg hsize]
        cases deleteRecord with
        | false => exact hd
        | true =>
          -- the queue becomes empty only if it held one record
          intro hd'
          have hrest : rest = [] := hrep.delete.laidOut.count_eq_zero_iff.mp hd'.1
          apply hkeep
          refine ⟨?_, hd'.2, ?_⟩
          · rw [hrep.count_eq, hrest]
            rfl
          · rw [hrep.laidOut.first_record.2.1]
            exact Nat.le_of_not_lt hsize

theorem not_drained_init (raw : ShmBufferExData) {size : Nat} (hpos : 0 < size)
    (hsize : size ≤ 2 ^ 31) : ¬ Drained (raw.init (size + ShmBufferExData.sizeof)) := by
  have hbuf := (Represents.init raw hpos hsize).bufferSize_eq
  intro hd
  have htail : (0 : Nat) = size := hd.2.trans hbuf
  omega

/-- In every run that does not drain the queue at the end of the ring, every
state reports the fill of the live records, and an empty queue is not full. -/
theorem run_agrees (raw : ShmBufferExData) (size : Nat) (hone : 1 < size) (hsize : size ≤ 2 ^ 31)
    {trace : List (Op × Out)} {s : ShmBufferExData}
    (run : Run step (fun s op => op.Fits size ∧ NotDrainedAtEnd s op)
      (raw.init (size + ShmBufferExData.sizeof)) trace s) :
    Agrees s (exec (Fifo.step (size - 1)) Fifo.fresh (trace.map Prod.fst)).2.live ∧
      (s.count = 0 → NotFull s) := by
  have hpos : 0 < size := Nat.lt_of_succ_lt hone
  have hstep : ∀ s f op, Refines size s f ∧ ¬ Drained s →
      op.Fits size ∧ NotDrainedAtEnd s op →
      ∃ s', step s op = some ((f.step (size - 1) op).1, s') ∧
        Refines size s' (f.step (size - 1) op).2 ∧ ¬ Drained s' := by
    intro s f op ⟨hrel, hd⟩ ⟨hfit, hkeep⟩
    obtain ⟨s', hs', hrel'⟩ := hrel.step op hfit
    exact ⟨s', hs', hrel', not_drained_step hrel hfit hkeep hs' hd⟩
  obtain ⟨-, ⟨-, pos, hrep⟩, hd⟩ :=
    run.refines ⟨Refines.init raw hpos hsize, not_drained_init raw hpos hsize⟩ hstep
  have hagrees := (agrees_iff hrep hone).mpr hd
  refine ⟨hagrees, hagrees.notFull ?_⟩
  rw [ShmBufferExData.capacity, hrep.bufferSize_eq, subU64_of_le hpos (by omega)]
  omega

theorem run_agrees_short :
    ∃ trace s, trace.map Prod.fst = [.push (.single [7, 8, 9] (by decide)), .pop 100 true] ∧
      Run step (fun s op => op.Fits 4096 ∧ NotDrainedAtEnd s op)
        (blank.init (4096 + ShmBufferExData.sizeof)) trace s ∧ s.dataSize = 0 := by
  have run : Run step (fun s op => op.Fits 4096 ∧ NotDrainedAtEnd s op)
      (blank.init (4096 + ShmBufferExData.sizeof)) _ _ :=
    .next (i := Op.push (.single [7, 8, 9] (by decide))) .start
      ⟨by change recSize _ ≤ _; decide, trivial⟩ rfl
  have hrun := run_refines blank (by decide) (by decide) (run.weaken fun _ _ hok => hok.1)
  obtain ⟨s, hpop, -⟩ := hrun.2.pop 100 true
  have run' := run.next (i := Op.pop 100 true)
    ⟨trivial, fun h => absurd h.2.1 (by decide)⟩ hpop
  have hagrees := (run_agrees blank 4096 (by decide) (by decide) run').1
  exact ⟨_, _, rfl, run', hagrees.dataSize_eq⟩

/-- Two records that fill the ring exactly, each taken before the next comes:
nothing is queued, and the whole ring is reported as used. -/
theorem run_drained_misreports :
    ¬ ∀ (raw : ShmBufferExData) (size : Nat) (trace : List (Op × Out)) (s : ShmBufferExData),
      4096 ∣ size → 0 < size → size ≤ 2 ^ 31 →
      Run step (fun _ => Op.Fits size) (raw.init (size + ShmBufferExData.sizeof)) trace s →
      Agrees s (exec (Fifo.step (size - 1)) Fifo.fresh (trace.map Prod.fst)).2.live ∧
        (s.count = 0 → NotFull s) := by
  intro hall
  obtain ⟨d, hd⟩ : ∃ c : ShmChunks, recSize c.payload = 96 :=
    ⟨.single (List.replicate 88 0) (by decide), by decide⟩
  obtain ⟨e, he⟩ : ∃ c : ShmChunks, recSize c.payload = 4000 := by
    refine ⟨.single (List.replicate 3992 0) (by rw [List.length_replicate]; decide), ?_⟩
    rw [recSize, ShmChunks.payload, ShmChunks.single, List.flatten_singleton,
      List.length_replicate]
    rfl
  have hinit : Represents 4096 (blank.init (4096 + ShmBufferExData.sizeof)) 0 [] :=
    Represents.init blank (by decide) (by decide)
  obtain ⟨s₁, s₂, push₁, pop₁, hrep, -⟩ := push_pop hinit d (by omega)
  obtain ⟨s₃, s₄, push₂, pop₂, hrep', -, htail⟩ := push_pop hrep e (by omega)
  have hle := hrep.tail.le
  have hmod := hrep.tail.mod
  have run : Run step (fun _ => Op.Fits 4096) (blank.init (4096 + ShmBufferExData.sizeof)) _ s₄ :=
    .next (i := Op.pop e.payload.length true) (.next (i := Op.push e)
      (.next (i := Op.pop d.payload.length true) (.next (i := Op.push d) .start
        (by change recSize _ ≤ _; omega) push₁) trivial pop₁)
      (by change recSize _ ≤ _; omega) push₂) trivial pop₂
  obtain ⟨hagrees, -⟩ := hall _ _ _ _ (dvd_refl _) (by decide) (by decide) run
  have hcount : s₄.count = 0 := hrep'.count_eq
  have hend : s₄.tail = 4096 := by
    rw [hd, total_nil] at hmod
    rw [htail, he]
    split <;> omega
  have hempty := hagrees.dataSize_empty hcount
  rw [dataSize_of_drained hrep' ⟨hcount, hend.trans hrep'.bufferSize_eq.symm⟩] at hempty
  exact absurd hempty (by decide)

end HiloUtils.Occupancy
