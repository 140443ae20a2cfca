import HiloUtils.MessageQueue
import HiloUtils.ShmBufferEx

/-! The books of the queue. Every message let in is still queued, was popped or
was dropped, and the tallies of the queue together with the history counters
they are handed to account for every message and byte. -/

namespace HiloUtils.Conservation

open Word BoundedFifo RecordQueue MessageQueue

inductive BufferOp
  | queue (op : Op)
  | updateCounters (clock : TransferClock)

def step (b : ShmBufferEx) : BufferOp → Option (Option Out × ShmBufferEx)
  | .queue (.push chunks) => (b.push chunks).map fun r => (some (.pushed r.1), r.2)
  | .queue (.pop maxSize deleteRecord) =>
    (b.pop maxSize deleteRecord).map fun r => (some (.popped r.1), r.2)
  | .queue (.setOverflovBehavior d dropIsOk) => some (some .set, b.setOverflovBehavior d dropIsOk)
  | .updateCounters clock => some (none, b.updateCounters clock)

def BufferOp.Fits (size : Nat) : BufferOp → Prop
  | .queue op => op.Fits size
  | .updateCounters _ => True

def opened (raw : ShmBufferExData) (size : Nat) (name : String) (clock : TransferClock) :
    ShmBufferEx where
  name := name
  data := raw.init (size + ShmBufferExData.sizeof)
  cMsgHistory := .clear clock.msgMs
  cErrorHistory := .clear clock.errorMs
  cDropHistory := .clear clock.dropMs
  cPushFailedLocal := ⟨0, 0⟩
  cMsgCount := 0
  cUsedBp := 0
  cUsed := 0
  cCapacity := 0

/-- What happened to the messages so far. -/
structure Ledger where
  fifo : Fifo
  accepted : List Payload
  evicted : List Payload
  ignored : List Payload
  popped : Nat

namespace Ledger

def fresh : Ledger := ⟨.fresh, [], [], [], 0⟩

def deleted : Op → Out → Bool
  | .pop _ true, .popped fetch => fetch.ok
  | _, _ => false

def enter (cap : Nat) (l : Ledger) : Op → Ledger
  | .push chunks =>
    match verdict cap l.fifo.mode l.fifo.live chunks.payload with
    | .accepted k => { l with
        accepted := l.accepted ++ [chunks.payload]
        evicted := l.evicted ++ l.fifo.live.take k }
    | .ignored => { l with ignored := l.ignored ++ [chunks.payload] }
    | .refused => l
  | _ => l

def step (cap : Nat) (l : Ledger) : BufferOp → Option Out × Ledger
  | .queue op =>
    (some (l.fifo.step cap op).1, { l.enter cap op with
      fifo := (l.fifo.step cap op).2
      popped := l.popped + (deleted op (l.fifo.step cap op).1).toNat })
  | .updateCounters _ => (none, l)

end Ledger

/-- An amount in two registers: the part handed over to a history counter and
the part still waiting in the queue. -/
def Booked (history : Int) (waiting amount : Nat) : Prop :=
  ∃ h t : Nat, h + t = amount ∧ history = i64 h ∧ waiting = u64 t

namespace Booked

variable {history : Int} {waiting amount : Nat}

theorem zero : Booked 0 0 0 := ⟨0, 0, rfl, rfl, rfl⟩

theorem add (h : Booked history waiting amount) (n : Nat) :
    Booked history (u64 (waiting + n)) (amount + n) := by
  obtain ⟨a, t, hsum, hhist, hwait⟩ := h
  exact ⟨a, t + n, by omega, hhist, by rw [hwait, u64_u64_add]⟩

theorem transfer (h : Booked history waiting amount) :
    Booked (i64 (history + i64 waiting)) 0 amount := by
  obtain ⟨a, t, hsum, hhist, hwait⟩ := h
  refine ⟨a + t, 0, hsum, ?_, rfl⟩
  rw [hhist, hwait, i64_u64, i64_i64_add, i64_add_i64, Int.natCast_add]

theorem word (h : Booked history waiting amount) : i64 (history + waiting) = i64 amount := by
  obtain ⟨a, t, hsum, hhist, hwait⟩ := h
  rw [hhist, hwait, ← hsum, i64_i64_add, i64_add_u64, Int.natCast_add]

theorem exact (h : Booked history waiting amount) (hlt : amount < 2 ^ 63) :
    history + waiting = amount := by
  obtain ⟨a, t, hsum, hhist, hwait⟩ := h
  rw [hhist, hwait, i64_natCast (by omega), u64_of_lt (by omega)]
  omega

end Booked

structure Books (size : Nat) (b : ShmBufferEx) (l : Ledger) : Prop where
  refines : Refines size b.data l.fifo
  conserved : l.accepted.length = l.fifo.live.length + l.popped + l.evicted.length
  totalCount_eq : b.data.totalCount = u64 l.accepted.length
  totalDropCount_eq : b.data.totalDropCount = u64 (l.evicted.length + l.ignored.length)
  msgCount : Booked b.cMsgHistory.totalCount b.data.tmpCount l.accepted.length
  msgVolume : Booked b.cMsgHistory.totalSumm b.data.tmpVolume (total recSize l.accepted)
  dropCount : Booked b.cDropHistory.totalCount b.data.tmpDropCount
    (l.evicted.length + l.ignored.length)
  dropVolume : Booked b.cDropHistory.totalSumm b.data.tmpDropVolume
    (total recSize l.evicted + total recSize l.ignored)

/-! Dropping records tallies each of them. -/

theorem discardAll_totalDropCount {s : ShmBufferExData} {n : Nat} (h : s.totalDropCount = u64 n)
    (dropped : List Payload) :
    (discardAll s dropped).totalDropCount = u64 (n + dropped.length) := by
  induction dropped generalizing s n with
  | nil => exact h
  | cons p dropped ih =>
    have hnext : (s.discard (recSize p)).totalDropCount = u64 (n + 1) := by
      change u64 (s.totalDropCount + 1) = _
      rw [h, u64_u64_add]
    rw [discardAll_cons, ih hnext, List.length_cons, Nat.add_assoc, Nat.add_comm 1]

theorem discardAll_tmpDrop {s : ShmBufferExData} {count volume : Int} {n m : Nat}
    (hcount : Booked count s.tmpDropCount n) (hvolume : Booked volume s.tmpDropVolume m)
    (dropped : List Payload) :
    Booked count (discardAll s dropped).tmpDropCount (n + dropped.length) ∧
      Booked volume (discardAll s dropped).tmpDropVolume (m + total recSize dropped) := by
  induction dropped generalizing s n m with
  | nil => exact ⟨hcount, hvolume⟩
  | cons p dropped ih =>
    have hrest := ih (s := s.discard (recSize p)) (hcount.add 1) (hvolume.add (recSize p))
    rw [discardAll_cons, List.length_cons, total_cons, Nat.add_comm dropped.length, ← Nat.add_assoc,
      ← Nat.add_assoc]
    exact hrest

theorem discardAll_tmp (s : ShmBufferExData) (dropped : List Payload) :
    (discardAll s dropped).tmpCount = s.tmpCount ∧
      (discardAll s dropped).tmpVolume = s.tmpVolume := by
  induction dropped generalizing s with
  | nil => exact ⟨rfl, rfl⟩
  | cons p dropped ih => exact ih _

namespace Books

variable {size : Nat} {b : ShmBufferEx} {l : Ledger}

theorem init (raw : ShmBufferExData) (name : String) (clock : TransferClock) (hpos : 0 < size)
    (hsize : size ≤ 2 ^ 31) : Books size (opened raw size name clock) .fresh where
  refines := Refines.init raw hpos hsize
  conserved := rfl
  totalCount_eq := rfl
  totalDropCount_eq := rfl
  msgCount := Booked.zero
  msgVolume := Booked.zero
  dropCount := Booked.zero
  dropVolume := Booked.zero

theorem push (h : Books size b l) (chunks : ShmChunks) (hfit : recSize chunks.payload ≤ size - 1) :
    ∃ b', step b (.queue (.push chunks)) =
        some ((l.step (size - 1) (.queue (.push chunks))).1, b') ∧
      Books size b' (l.step (size - 1) (.queue (.push chunks))).2 := by
  obtain ⟨hmode, pos, hrep⟩ := h.refines
  have hpush := hrep.push chunks hfit
  rw [hmode] at hpush
  simp only [Conservation.step, Ledger.step, Ledger.enter, Fifo.step, Fifo.push, Ledger.deleted,
    ShmBufferEx.push]
  cases hv : verdict (size - 1) l.fifo.mode l.fifo.live chunks.payload with
  | accepted k =>
    rw [hv] at hpush
    obtain ⟨heq, hrep'⟩ := hpush
    obtain ⟨hcount, hvolume⟩ := discardAll_tmpDrop h.dropCount h.dropVolume (l.fifo.live.take k)
    obtain ⟨htmpCount, htmpVolume⟩ := discardAll_tmp b.data (l.fifo.live.take k)
    have hdrops := discardAll_totalDropCount h.totalDropCount_eq (l.fifo.live.take k)
    rw [heq]
    refine ⟨_, rfl, ⟨⟨by simpa using hmode, _, hrep'⟩, ?_, ?_, ?_, ?_, ?_, ?_, ?_⟩⟩
    · have hconserved := h.conserved
      simp only [List.length_append, List.length_take, List.length_drop, List.length_singleton,
        Bool.toNat_false]
      omega
    · simp [h.totalCount_eq]
    · rw [List.length_append, Nat.add_right_comm]
      exact hdrops
    · rw [List.length_append]
      exact (htmpCount ▸ h.msgCount).add 1
    · rw [total_append, total_cons, total_nil]
      exact (htmpVolume ▸ h.msgVolume).add (recSize chunks.payload)
    · rw [List.length_append, Nat.add_right_comm]
      exact hcount
    · rw [total_append, Nat.add_right_comm]
      exact hvolume
  | ignored =>
    rw [hv] at hpush
    rw [hpush]
    refine ⟨_, rfl, ⟨⟨hmode, pos, hrep.dropNewRecord _⟩, h.conserved, h.totalCount_eq, ?_,
      h.msgCount, h.msgVolume, ?_, ?_⟩⟩
    · change u64 (b.data.totalDropCount + 1) = _
      rw [h.totalDropCount_eq, u64_u64_add, List.length_append, ← Nat.add_assoc]
      rfl
    · rw [List.length_append, ← Nat.add_assoc]
      exact h.dropCount.add 1
    · rw [total_append, total_cons, total_nil, ← Nat.add_assoc]
      exact h.dropVolume.add (recSize chunks.payload)
  | refused =>
    rw [hv] at hpush
    rw [hpush]
    exact ⟨_, rfl, ⟨h.refines, h.conserved, h.totalCount_eq, h.totalDropCount_eq, h.msgCount,
      h.msgVolume, h.dropCount, h.dropVolume⟩⟩

theorem pop (h : Books size b l) (maxSize : Nat) (deleteRecord : Bool) :
    ∃ b', step b (.queue (.pop maxSize deleteRecord)) =
        some ((l.step (size - 1) (.queue (.pop maxSize deleteRecord))).1, b') ∧
      Books size b' (l.step (size - 1) (.queue (.pop maxSize deleteRecord))).2 := by
  obtain ⟨⟨mode, live⟩, accepted, evicted, ignored, popped⟩ := l
  obtain ⟨hmode, pos, hrep⟩ := h.refines
  simp only [Conservation.step, Ledger.step, Ledger.enter, Fifo.step, ShmBufferEx.pop]
  cases live with
  | nil =>
    rw [if_pos (hrep.laidOut.count_eq_zero_iff.mpr rfl)]
    cases deleteRecord with
    | false => exact ⟨_, rfl, h⟩
    | true => exact ⟨_, rfl, h⟩
  | cons p rest =>
    have hcount : b.data.count ≠ 0 := fun hc => by simpa using hrep.laidOut.count_eq_zero_iff.mp hc
    rw [if_neg hcount, hrep.laidOut.pop_cons, Fifo.pop]
    by_cases hsize : maxSize < p.length
    · simp only [if_pos hsize]
      cases deleteRecord with
      | false => exact ⟨_, rfl, h⟩
      | true => exact ⟨_, rfl, h⟩
    · simp only [if_neg hsize]
      cases deleteRecord with
      | false => exact ⟨_, rfl, h⟩
      | true =>
        refine ⟨_, rfl, ⟨⟨hmode, _, hrep.delete⟩, ?_, h.totalCount_eq, h.totalDropCount_eq,
          h.msgCount, h.msgVolume, h.dropCount, h.dropVolume⟩⟩
        have hconserved := h.conserved
        simp only [List.length_cons] at hconserved
        change accepted.length = rest.length + (popped + 1) + evicted.length
        omega

theorem updateCounters (h : Books size b l) (clock : TransferClock) :
    Books size (b.updateCounters clock) l := by
  obtain ⟨hmode, pos, hrep⟩ := h.refines
  refine ⟨⟨hmode, pos, ?_⟩, h.conserved, h.totalCount_eq, h.totalDropCount_eq, ?_, ?_, ?_, ?_⟩
  · exact ⟨hrep.bufferSize_eq, hrep.size_le, hrep.fits, hrep.head, hrep.head_le,
      hrep.headOffset_eq, hrep.tail, hrep.tail_le, hrep.tailOffset_eq, hrep.bytes, hrep.count_eq,
      hrep.last_eq⟩
  · change Booked (b.cMsgHistory.addBatch clock.msgMs _ _).totalCount 0 _
    rw [HistoryCounterData.addBatch_totalCount]
    exact h.msgCount.transfer
  · change Booked (b.cMsgHistory.addBatch clock.msgMs _ _).totalSumm 0 _
    rw [HistoryCounterData.addBatch_totalSumm]
    exact h.msgVolume.transfer
  · change Booked (b.cDropHistory.addBatch clock.dropMs _ _).totalCount 0 _
    rw [HistoryCounterData.addBatch_totalCount]
    exact h.dropCount.transfer
  · change Booked (b.cDropHistory.addBatch clock.dropMs _ _).totalSumm 0 _
    rw [HistoryCounterData.addBatch_totalSumm]
    exact h.dropVolume.transfer

theorem next (b : ShmBufferEx) (l : Ledger) (op : BufferOp) (h : Books size b l)
    (hfit : op.Fits size) :
    ∃ b', Conservation.step b op = some ((l.step (size - 1) op).1, b') ∧
      Books size b' (l.step (size - 1) op).2 := by
  cases op with
  | updateCounters clock => exact ⟨_, rfl, h.updateCounters clock⟩
  | queue op =>
    cases op with
    | push chunks => exact h.push chunks hfit
    | pop maxSize deleteRecord => exact h.pop maxSize deleteRecord
    | setOverflovBehavior d dropIsOk =>
      obtain ⟨-, pos, hrep⟩ := h.refines
      exact ⟨_, rfl, ⟨⟨rfl, pos, hrep.setOverflovBehavior d dropIsOk⟩, h.conserved,
        h.totalCount_eq, h.totalDropCount_eq, h.msgCount, h.msgVolume, h.dropCount, h.dropVolume⟩⟩

end Books

/-- Two registers hold an amount: in 64-bit arithmetic, and exactly while it
fits a signed word. -/
def AddUp (history : Int) (waiting amount : Nat) : Prop :=
  i64 (history + waiting) = i64 amount ∧ (amount < 2 ^ 63 → history + waiting = amount)

theorem Booked.addUp {history : Int} {waiting amount : Nat} (h : Booked history waiting amount) :
    AddUp history waiting amount :=
  ⟨h.word, h.exact⟩

structure Balanced (b : ShmBufferEx) (l : Ledger) : Prop where
  totalCount : b.data.totalCount = u64 (b.data.count + l.popped + l.evicted.length)
  totalDropCount : b.data.totalDropCount = u64 (l.evicted.length + l.ignored.length)
  msgTotal : i64 (b.cMsgHistory.totalCount + b.data.tmpCount) = i64 b.data.totalCount
  msgCount : AddUp b.cMsgHistory.totalCount b.data.tmpCount l.accepted.length
  msgVolume : AddUp b.cMsgHistory.totalSumm b.data.tmpVolume (total recSize l.accepted)
  dropTotal : i64 (b.cDropHistory.totalCount + b.data.tmpDropCount) = i64 b.data.totalDropCount
  dropCount : AddUp b.cDropHistory.totalCount b.data.tmpDropCount
    (l.evicted.length + l.ignored.length)
  dropVolume : AddUp b.cDropHistory.totalSumm b.data.tmpDropVolume
    (total recSize (l.evicted ++ l.ignored))

theorem Books.balanced {size : Nat} {b : ShmBufferEx} {l : Ledger} (h : Books size b l) :
    Balanced b l := by
  obtain ⟨-, pos, hrep⟩ := h.refines
  refine ⟨?_, h.totalDropCount_eq, ?_, h.msgCount.addUp, h.msgVolume.addUp, ?_,
    h.dropCount.addUp, ?_⟩
  · rw [h.totalCount_eq, h.conserved, hrep.count_eq]
  · rw [h.msgCount.word, h.totalCount_eq, i64_u64]
  · rw [h.dropCount.word, h.totalDropCount_eq, i64_u64]
  · rw [total_append]
    exact h.dropVolume.addUp

/-- After every run each message let in is queued, was popped or was dropped,
and the tallies account for all messages and bytes; the outputs, which the
ledger counts the pops by, are those of the code. -/
theorem run_balanced (raw : ShmBufferExData) (size : Nat) (name : String) (clock : TransferClock)
    (hpos : 0 < size) (hsize : size ≤ 2 ^ 31) {trace : List (BufferOp × Option Out)}
    {b : ShmBufferEx}
    (run : Run step (fun _ => BufferOp.Fits size) (opened raw size name clock) trace b) :
    let ledger := exec (Ledger.step (size - 1)) .fresh (trace.map Prod.fst)
    trace.map Prod.snd = ledger.1 ∧ Balanced b ledger.2 := by
  obtain ⟨houts, hbooks⟩ := run.refines (Books.init raw name clock hpos hsize) Books.next
  exact ⟨houts, hbooks.balanced⟩

theorem run_balanced_short :
    ∃ trace b, trace.map Prod.fst = [.queue (.push (.single [7, 8, 9] (by decide))),
        .queue (.pop 100 true), .updateCounters ⟨5000, 5000, 5000⟩] ∧
      Run step (fun _ => BufferOp.Fits 4096) (opened blank 4096 "q" ⟨0, 0, 0⟩) trace b ∧
      trace.map Prod.snd = [some (.pushed true), some (.popped ⟨true, 3, some [7, 8, 9]⟩), none] ∧
      b.cMsgHistory.totalCount + b.data.tmpCount = 1 := by
  have hinit : Books 4096 (opened blank 4096 "q" ⟨0, 0, 0⟩) .fresh :=
    Books.init blank "q" ⟨0, 0, 0⟩ (by decide) (by decide)
  have hpush : BufferOp.Fits 4096 (.queue (.push (.single [7, 8, 9] (by decide)))) := by
    change recSize _ ≤ _
    decide
  have hpop : BufferOp.Fits 4096 (.queue (.pop 100 true)) := trivial
  have hupdate : BufferOp.Fits 4096 (.updateCounters ⟨5000, 5000, 5000⟩) := trivial
  obtain ⟨trace, b, hinputs, run⟩ := Run.exists_run hinit Books.next (List.forall_mem_cons.mpr
    ⟨hpush, List.forall_mem_cons.mpr ⟨hpop, List.forall_mem_singleton.mpr hupdate⟩⟩)
  obtain ⟨houts, hbalanced⟩ := run_balanced blank 4096 "q" ⟨0, 0, 0⟩ (by decide) (by decide) run
  rw [hinputs] at houts hbalanced
  exact ⟨trace, b, hinputs, run, houts.trans (by decide), hbalanced.msgCount.2 (by decide)⟩

end HiloUtils.Conservation
