import HiloUtils.MessageQueue

/-! The queue as a window over all payloads it ever accepted. A payload keeps
its place in the log for good, and its stream position is the volume of the
payloads before it; the oldest `gone` of them have left the queue. -/

namespace HiloUtils.MessageStream

open Word MirrorRing BoundedFifo RecordQueue MessageQueue

structure Stream where
  mode : OnOverflov
  log : List Payload
  gone : Nat

/-- The stream position of the record with number `n`. -/
def startOf (log : List Payload) (n : Nat) : Nat := total recSize (log.take n)

theorem startOf_length (log : List Payload) : startOf log log.length = total recSize log := by
  rw [startOf, List.take_length]

theorem startOf_add (log : List Payload) (n k : Nat) :
    startOf log (n + k) = startOf log n + total recSize ((log.drop n).take k) := by
  rw [startOf, startOf, List.take_add, total_append]

theorem startOf_append {log : List Payload} {n : Nat} (h : n ≤ log.length) (p : Payload) :
    startOf (log ++ [p]) n = startOf log n := by
  rw [startOf, startOf, List.take_append_of_le_length h]

theorem startOf_le (log : List Payload) (n : Nat) : startOf log n ≤ total recSize log := by
  have := total_take_add_drop recSize n log
  rw [startOf]
  omega

theorem startOf_add_drop (log : List Payload) (n : Nat) :
    startOf log n + total recSize (log.drop n) = total recSize log :=
  total_take_add_drop recSize n log

namespace Stream

def live (st : Stream) : List Payload := st.log.drop st.gone

def volume (st : Stream) : Nat := total recSize st.log

def fresh : Stream := ⟨.returnError, [], 0⟩

def push (cap : Nat) (st : Stream) (p : Payload) : Out × Stream :=
  match verdict cap st.mode st.live p with
  | .accepted evicted =>
    (.pushed true, { st with log := st.log ++ [p], gone := st.gone + evicted })
  | .ignored => (.pushed true, st)
  | .refused => (.pushed false, st)

def pop (st : Stream) (maxSize : Nat) (deleteRecord : Bool) : Out × Stream :=
  match st.live with
  | [] => (.popped ⟨false, 0, none⟩, st)
  | p :: _ =>
    if maxSize < p.length then (.popped ⟨false, p.length, none⟩, st)
    else
      (.popped ⟨true, p.length, some p⟩,
        if deleteRecord then { st with gone := st.gone + 1 } else st)

def step (cap : Nat) (st : Stream) : Op → Out × Stream
  | .push chunks => st.push cap chunks.payload
  | .pop maxSize deleteRecord => st.pop maxSize deleteRecord
  | .setOverflovBehavior d _ => (.set, { st with mode := d })

theorem step_grows (cap : Nat) (st : Stream) (op : Op) :
    st.gone ≤ (st.step cap op).2.gone ∧
      ((st.step cap op).2.log = st.log ∨ ∃ p, (st.step cap op).2.log = st.log ++ [p]) := by
  cases op with
  | push chunks =>
    change _ ≤ (st.push cap chunks.payload).2.gone ∧ _
    simp only [step, push]
    split
    · exact ⟨Nat.le_add_right _ _, Or.inr ⟨_, rfl⟩⟩
    · exact ⟨Nat.le_refl _, Or.inl rfl⟩
    · exact ⟨Nat.le_refl _, Or.inl rfl⟩
  | pop maxSize deleteRecord =>
    simp only [step, pop]
    split
    · exact ⟨Nat.le_refl _, Or.inl rfl⟩
    · split
      · exact ⟨Nat.le_refl _, Or.inl rfl⟩
      · cases deleteRecord with
        | false => exact ⟨Nat.le_refl _, Or.inl rfl⟩
        | true => exact ⟨Nat.le_succ _, Or.inl rfl⟩
  | setOverflovBehavior d dropIsOk => exact ⟨Nat.le_refl _, Or.inl rfl⟩

theorem step_gone_le (cap : Nat) {st : Stream} (h : st.gone ≤ st.log.length) (op : Op) :
    (st.step cap op).2.gone ≤ st.log.length := by
  cases op with
  | push chunks =>
    change (st.push cap chunks.payload).2.gone ≤ _
    rw [push]
    cases hv : verdict cap st.mode st.live chunks.payload with
    | accepted k =>
      have hk := evicted_le hv
      rw [live, List.length_drop] at hk
      change st.gone + k ≤ _
      omega
    | ignored => exact h
    | refused => exact h
  | pop maxSize deleteRecord =>
    change (st.pop maxSize deleteRecord).2.gone ≤ _
    rw [pop]
    cases hlive : st.live with
    | nil => exact h
    | cons p rest =>
      have hdrop := congrArg List.length hlive
      rw [live, List.length_drop, List.length_cons] at hdrop
      by_cases hsize : maxSize < p.length
      · simp only [if_pos hsize]
        exact h
      · simp only [if_neg hsize]
        cases deleteRecord with
        | false => exact h
        | true =>
          change st.gone + 1 ≤ _
          omega
  | setOverflovBehavior d dropIsOk => exact h

theorem volume_le_step (cap : Nat) (st : Stream) (op : Op) :
    st.volume ≤ (st.step cap op).2.volume := by
  unfold volume
  rcases (st.step_grows cap op).2 with hlog | ⟨p, hlog⟩
  · rw [hlog]
  · rw [hlog, total_append]
    exact Nat.le_add_right _ _

end Stream

/-- The queue of a ring of any size, as long as its cursors do not wrap. -/
structure Follows (size : Nat) (s : ShmBufferExData) (st : Stream) : Prop where
  mode_eq : s.onOverflow = st.mode
  gone_le : st.gone ≤ st.log.length
  laidOut : LaidOut size s (startOf st.log st.gone) st.live

namespace Follows

variable {size : Nat} {s : ShmBufferExData} {st : Stream}

theorem init (raw : ShmBufferExData) (hpos : 0 < size) (hsize : size < 2 ^ 64) :
    Follows size (raw.init (size + ShmBufferExData.sizeof)) .fresh :=
  ⟨rfl, Nat.le_refl _, LaidOut.init raw hpos hsize⟩

/-- The state of the queue after the step is a window over the grown log, and
the reader records are left alone. -/
theorem push (h : Follows size s st) (chunks : ShmChunks)
    (hfit : recSize chunks.payload ≤ size - 1) (hsmall : recSize chunks.payload < 2 ^ 32)
    (hlt : Stores s (recSize chunks.payload) → s.tail + recSize chunks.payload < 2 ^ 32) :
    ∃ s', MessageQueue.step s (.push chunks) = some ((st.push (size - 1) chunks.payload).1, s') ∧
      Follows size s' (st.push (size - 1) chunks.payload).2 ∧ s'.reader = s.reader := by
  have hgone := h.gone_le
  have hpush := h.laidOut.push chunks hfit hsmall hlt
  rw [h.mode_eq] at hpush
  simp only [MessageQueue.step, Stream.push]
  cases hv : verdict (size - 1) st.mode st.live chunks.payload with
  | accepted k =>
    have hk := evicted_le hv
    rw [hv] at hpush
    obtain ⟨heq, hrep⟩ := hpush
    have hlen : st.gone + k ≤ st.log.length := by
      rw [Stream.live, List.length_drop] at hk
      omega
    refine ⟨_, by rw [heq]; rfl, ⟨by simpa using h.mode_eq, ?_, ?_⟩, by simp⟩
    · change st.gone + k ≤ (st.log ++ [chunks.payload]).length
      rw [List.length_append]
      omega
    · have hstart : startOf (st.log ++ [chunks.payload]) (st.gone + k) =
          startOf st.log st.gone + total recSize (st.live.take k) := by
        rw [startOf_append hlen, startOf_add]
        rfl
      have hlive : (st.log ++ [chunks.payload]).drop (st.gone + k) =
          st.live.drop k ++ [chunks.payload] := by
        rw [List.drop_append_of_le_length hlen, Stream.live, List.drop_drop]
      change LaidOut size _ (startOf (st.log ++ [chunks.payload]) (st.gone + k))
        ((st.log ++ [chunks.payload]).drop (st.gone + k))
      rw [hstart, hlive]
      exact hrep
  | ignored =>
    rw [hv] at hpush
    exact ⟨s.dropNewRecord _, by rw [hpush]; rfl,
      ⟨h.mode_eq, hgone, h.laidOut.dropNewRecord _⟩, rfl⟩
  | refused =>
    rw [hv] at hpush
    exact ⟨s, by rw [hpush]; rfl, h, rfl⟩

theorem pop (h : Follows size s st) (maxSize : Nat) (deleteRecord : Bool) :
    ∃ s', MessageQueue.step s (.pop maxSize deleteRecord) =
        some ((st.pop maxSize deleteRecord).1, s') ∧
      Follows size s' (st.pop maxSize deleteRecord).2 ∧ s'.reader = s.reader := by
  have hrep := h.laidOut
  simp only [MessageQueue.step, Stream.pop]
  cases hlive : st.live with
  | nil =>
    rw [hlive] at hrep
    exact ⟨s, by rw [hrep.pop_nil]; rfl, h, rfl⟩
  | cons p rest =>
    rw [hlive] at hrep
    have hlen : st.gone + 1 ≤ st.log.length := by
      have hdrop := congrArg List.length hlive
      rw [Stream.live, List.length_drop, List.length_cons] at hdrop
      omega
    rw [hrep.pop_cons]
    by_cases hsize : maxSize < p.length
    · simp only [if_pos hsize, Option.map_some]
      exact ⟨s, rfl, h, rfl⟩
    · simp only [if_neg hsize, Option.map_some]
      cases deleteRecord with
      | false => exact ⟨s, rfl, h, rfl⟩
      | true =>
        refine ⟨_, rfl, ⟨h.mode_eq, hlen, ?_⟩, rfl⟩
        have hstart : startOf st.log (st.gone + 1) = startOf st.log st.gone + recSize p := by
          rw [startOf_add]
          change _ + total recSize (st.live.take 1) = _
          rw [hlive]
          simp
        have hrest : st.log.drop (st.gone + 1) = rest := by
          rw [← List.drop_drop]
          change st.live.drop 1 = rest
          rw [hlive]
          rfl
        change LaidOut size _ (startOf st.log (st.gone + 1)) (st.log.drop (st.gone + 1))
        rw [hstart, hrest]
        exact hrep.delete

end Follows

structure Tracks (size : Nat) (s : ShmBufferExData) (st : Stream) : Prop where
  mode_eq : s.onOverflow = st.mode
  gone_le : st.gone ≤ st.log.length
  represents : Represents size s (startOf st.log st.gone) st.live

namespace Tracks

variable {size : Nat} {s : ShmBufferExData} {st : Stream}

theorem follows (h : Tracks size s st) : Follows size s st :=
  ⟨h.mode_eq, h.gone_le, h.represents.laidOut⟩

theorem of_follows (h : Follows size s st) (hsize : size ≤ 2 ^ 31) : Tracks size s st :=
  ⟨h.mode_eq, h.gone_le, .of_laidOut h.laidOut hsize⟩

theorem init (raw : ShmBufferExData) (hpos : 0 < size) (hsize : size ≤ 2 ^ 31) :
    Tracks size (raw.init (size + ShmBufferExData.sizeof)) .fresh :=
  ⟨rfl, Nat.le_refl _, Represents.init raw hpos hsize⟩

theorem push (h : Tracks size s st) (chunks : ShmChunks)
    (hfit : recSize chunks.payload ≤ size - 1) :
    ∃ s', MessageQueue.step s (.push chunks) = some ((st.push (size - 1) chunks.payload).1, s') ∧
      Tracks size s' (st.push (size - 1) chunks.payload).2 ∧ s'.reader = s.reader := by
  have hsize := h.represents.size_le
  have hle := h.represents.tail.le
  obtain ⟨s', hs', hfollows, hreader⟩ :=
    h.follows.push chunks hfit (by omega) fun _ => by omega
  exact ⟨s', hs', of_follows hfollows hsize, hreader⟩

theorem pop (h : Tracks size s st) (maxSize : Nat) (deleteRecord : Bool) :
    ∃ s', MessageQueue.step s (.pop maxSize deleteRecord) =
        some ((st.pop maxSize deleteRecord).1, s') ∧
      Tracks size s' (st.pop maxSize deleteRecord).2 ∧ s'.reader = s.reader := by
  obtain ⟨s', hs', hfollows, hreader⟩ := h.follows.pop maxSize deleteRecord
  exact ⟨s', hs', of_follows hfollows h.represents.size_le, hreader⟩

theorem step (h : Tracks size s st) (op : Op) (hfit : op.Fits size) :
    ∃ s', MessageQueue.step s op = some ((st.step (size - 1) op).1, s') ∧
      Tracks size s' (st.step (size - 1) op).2 ∧ s'.reader = s.reader := by
  cases op with
  | push chunks => exact h.push chunks hfit
  | pop maxSize deleteRecord => exact h.pop maxSize deleteRecord
  | setOverflovBehavior d dropIsOk =>
    exact ⟨_, rfl, ⟨rfl, h.gone_le, h.represents.setOverflovBehavior d dropIsOk⟩, rfl⟩

end Tracks

theorem run_tracks (raw : ShmBufferExData) {size : Nat} (hpos : 0 < size) (hsize : size ≤ 2 ^ 31)
    {trace : List (Op × Out)} {s : ShmBufferExData}
    (run : Run MessageQueue.step (fun _ => Op.Fits size)
      (raw.init (size + ShmBufferExData.sizeof)) trace s) :
    trace.map Prod.snd = (exec (Stream.step (size - 1)) .fresh (trace.map Prod.fst)).1 ∧
      Tracks size s (exec (Stream.step (size - 1)) .fresh (trace.map Prod.fst)).2 := by
  refine run.refines (Tracks.init raw hpos hsize) fun s st op h hfit => ?_
  obtain ⟨s', hs', htracks, -⟩ := h.step op hfit
  exact ⟨s', hs', htracks⟩

end HiloUtils.MessageStream
