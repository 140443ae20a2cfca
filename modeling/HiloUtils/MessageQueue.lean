import HiloUtils.Run
import HiloUtils.RecordQueue

/-! The message queue as a first-in first-out list of payloads, and the proof
that the code's queue is one over every run. -/

namespace HiloUtils.MessageQueue

open Word BoundedFifo RecordQueue

inductive Op
  | push (chunks : ShmChunks)
  | pop (maxSize : Nat) (deleteRecord : Bool)
  | setOverflovBehavior (d : OnOverflov) (dropIsOk : Bool)

inductive Out
  | pushed (ok : Bool)
  | popped (fetch : Fetch)
  | set
  deriving DecidableEq

def step (s : ShmBufferExData) : Op → Option (Out × ShmBufferExData)
  | .push chunks => (s.push chunks).map fun r => (.pushed r.1, r.2)
  | .pop maxSize deleteRecord => (s.pop maxSize deleteRecord).map fun r => (.popped r.1, r.2)
  | .setOverflovBehavior d dropIsOk => some (.set, s.setOverflovBehavior d dropIsOk)

def Op.Fits (size : Nat) : Op → Prop
  | .push chunks => recSize chunks.payload ≤ size - 1
  | _ => True

/-- What the queue is for: the live payloads, oldest first. -/
structure Fifo where
  mode : OnOverflov
  live : List Payload
  deriving DecidableEq

namespace Fifo

def push (cap : Nat) (f : Fifo) (p : Payload) : Out × Fifo :=
  match verdict cap f.mode f.live p with
  | .accepted evicted => (.pushed true, { f with live := f.live.drop evicted ++ [p] })
  | .ignored => (.pushed true, f)
  | .refused => (.pushed false, f)

def pop (f : Fifo) (maxSize : Nat) (deleteRecord : Bool) : Out × Fifo :=
  match f.live with
  | [] => (.popped ⟨false, 0, none⟩, f)
  | p :: rest =>
    if maxSize < p.length then (.popped ⟨false, p.length, none⟩, f)
    else (.popped ⟨true, p.length, some p⟩, if deleteRecord then { f with live := rest } else f)

def step (cap : Nat) (f : Fifo) : Op → Out × Fifo
  | .push chunks => f.push cap chunks.payload
  | .pop maxSize deleteRecord => f.pop maxSize deleteRecord
  | .setOverflovBehavior d _ => (.set, { f with mode := d })

def fresh : Fifo := ⟨.returnError, []⟩

end Fifo

theorem Fifo.push_dropOld {cap : Nat} {f : Fifo} {p : Payload} (hmode : f.mode = .dropOld)
    (hfit : recSize p ≤ cap) :
    ∃ k, f.push cap p = (.pushed true, { f with live := f.live.drop k ++ [p] }) ∧
      total recSize (f.live.drop k) + recSize p ≤ cap ∧
      ∀ j < k, ¬ total recSize (f.live.drop j) + recSize p ≤ cap := by
  refine ⟨evictions recSize cap (recSize p) f.live, ?_, evictions_fit _ _ hfit _,
    fun j hj => evictions_least _ _ hj⟩
  by_cases hroom : total recSize f.live + recSize p ≤ cap
  · simp [Fifo.push, verdict, hroom, evictions_eq_zero _ _ hroom]
  · simp [Fifo.push, verdict, hroom, hmode]

/-- The code's queue and the list it stands for. -/
def Refines (size : Nat) (s : ShmBufferExData) (f : Fifo) : Prop :=
  s.onOverflow = f.mode ∧ ∃ pos, Represents size s pos f.live

theorem Refines.push {size : Nat} {s : ShmBufferExData} {f : Fifo} (h : Refines size s f)
    (chunks : ShmChunks) (hfit : recSize chunks.payload ≤ size - 1) :
    ∃ s', step s (.push chunks) = some ((f.push (size - 1) chunks.payload).1, s') ∧
      Refines size s' (f.push (size - 1) chunks.payload).2 := by
  obtain ⟨hmode, pos, hrep⟩ := h
  have hpush := hrep.push chunks hfit
  rw [hmode] at hpush
  simp only [step, Fifo.push]
  cases hv : verdict (size - 1) f.mode f.live chunks.payload with
  | accepted evicted =>
    rw [hv] at hpush
    obtain ⟨heq, hrep'⟩ := hpush
    exact ⟨_, by rw [heq]; rfl, by simpa using hmode, _, hrep'⟩
  | ignored =>
    rw [hv] at hpush
    exact ⟨s.dropNewRecord _, by rw [hpush]; rfl, hmode, pos, hrep.dropNewRecord _⟩
  | refused =>
    rw [hv] at hpush
    exact ⟨s, by rw [hpush]; rfl, hmode, pos, hrep⟩

theorem Refines.pop {size : Nat} {s : ShmBufferExData} {f : Fifo} (h : Refines size s f)
    (maxSize : Nat) (deleteRecord : Bool) :
    ∃ s', step s (.pop maxSize deleteRecord) = some ((f.pop maxSize deleteRecord).1, s') ∧
      Refines size s' (f.pop maxSize deleteRecord).2 := by
  obtain ⟨mode, live⟩ := f
  obtain ⟨hmode, pos, hrep⟩ := h
  cases live with
  | nil => exact ⟨s, by rw [step, hrep.laidOut.pop_nil]; rfl, hmode, pos, hrep⟩
  | cons p rest =>
    simp only [step, hrep.laidOut.pop_cons, Fifo.pop, Option.map_some]
    by_cases hsize : maxSize < p.length
    · exact ⟨s, by simp only [if_pos hsize], by simpa [hsize] using hmode, pos,
        by simpa [hsize] using hrep⟩
    · simp only [if_neg hsize]
      cases deleteRecord with
      | false => exact ⟨s, rfl, hmode, pos, hrep⟩
      | true => exact ⟨_, rfl, hmode, _, hrep.delete⟩

theorem Refines.step {size : Nat} {s : ShmBufferExData} {f : Fifo} (h : Refines size s f)
    (op : Op) (hfit : op.Fits size) :
    ∃ s', MessageQueue.step s op = some ((f.step (size - 1) op).1, s') ∧
      Refines size s' (f.step (size - 1) op).2 := by
  cases op with
  | push chunks => exact h.push chunks hfit
  | pop maxSize deleteRecord => exact h.pop maxSize deleteRecord
  | setOverflovBehavior d dropIsOk =>
    obtain ⟨-, pos, hrep⟩ := h
    exact ⟨_, rfl, rfl, pos, hrep.setOverflovBehavior d dropIsOk⟩

theorem push_room {size pos : Nat} {s : ShmBufferExData} {q : List Payload}
    (h : Represents size s pos q) (chunks : ShmChunks)
    (hroom : total recSize q + recSize chunks.payload ≤ size - 1) :
    ∃ s', step s (.push chunks) = some (.pushed true, s') ∧
      Represents size s' pos (q ++ [chunks.payload]) ∧ s'.reader = s.reader := by
  have hpush := h.push chunks (by omega)
  have hv : verdict (size - 1) s.onOverflow q chunks.payload = .accepted 0 := by
    simp [verdict, hroom]
  rw [hv] at hpush
  obtain ⟨heq, hrep⟩ := hpush
  exact ⟨_, by rw [step, heq]; rfl, hrep, rfl⟩

theorem push_empty {size pos : Nat} {s : ShmBufferExData} (h : Represents size s pos [])
    (chunks : ShmChunks) (hfit : recSize chunks.payload ≤ size - 1) :
    ∃ s', step s (.push chunks) = some (.pushed true, s') ∧
      Represents size s' pos [chunks.payload] ∧ s'.reader = s.reader ∧
      s'.tail = if size < s.tail + recSize chunks.payload
        then s.tail + recSize chunks.payload - size else s.tail + recSize chunks.payload := by
  have hsize := h.size_le
  have hle := h.tail.le
  have hpush := h.push chunks hfit
  have hv : verdict (size - 1) s.onOverflow [] chunks.payload = .accepted 0 := by
    simp [verdict, hfit]
  rw [hv] at hpush
  obtain ⟨heq, hrep⟩ := hpush
  have hu : u32 (s.tail + recSize chunks.payload) = s.tail + recSize chunks.payload :=
    u32_of_lt (by omega)
  refine ⟨_, by rw [step, heq]; rfl, hrep, rfl, ?_⟩
  change (if s.bufferSize < u32 (s.tail + recSize chunks.payload) then
      u32 (s.tail + recSize chunks.payload) - s.bufferSize
    else u32 (s.tail + recSize chunks.payload)) = _
  rw [hu, h.bufferSize_eq]

theorem push_pop {size pos : Nat} {s : ShmBufferExData} (h : Represents size s pos [])
    (chunks : ShmChunks) (hfit : recSize chunks.payload ≤ size - 1) :
    ∃ s₁ s₂, step s (.push chunks) = some (.pushed true, s₁) ∧
      step s₁ (.pop chunks.payload.length true) =
        some (.popped ⟨true, chunks.payload.length, some chunks.payload⟩, s₂) ∧
      Represents size s₂ (pos + recSize chunks.payload) [] ∧ s₂.reader = s.reader ∧
      s₂.tail = if size < s.tail + recSize chunks.payload
        then s.tail + recSize chunks.payload - size else s.tail + recSize chunks.payload := by
  obtain ⟨s₁, hpush, hrep, hreader, htail⟩ := push_empty h chunks hfit
  have hpop := hrep.laidOut.pop_cons chunks.payload.length true
  rw [if_neg (Nat.lt_irrefl _)] at hpop
  exact ⟨s₁, _, hpush, by rw [step, hpop]; rfl, hrep.delete, hreader, htail⟩

theorem cycles {size : Nat} {s : ShmBufferExData} (h : Represents size s 0 [])
    (chunks : ShmChunks) (hfit : recSize chunks.payload ≤ size - 1) (n : Nat) :
    ∃ trace s', Run step (fun _ => Op.Fits size) s trace s' ∧
      Represents size s' (n * recSize chunks.payload) [] ∧ s'.reader = s.reader ∧
      ∀ c, .push c ∈ trace.map Prod.fst → c = chunks := by
  induction n with
  | zero => exact ⟨[], s, .start, by rw [Nat.zero_mul]; exact h, rfl, by simp⟩
  | succ n ih =>
    obtain ⟨trace, s', run, hrep, hreader, hpushed⟩ := ih
    obtain ⟨s₁, s₂, hpush, hpop, hrep', hreader', -⟩ := push_pop hrep chunks hfit
    refine ⟨_, s₂, .next (i := Op.pop chunks.payload.length true)
      (.next (i := Op.push chunks) run hfit hpush) trivial hpop, ?_, hreader'.trans hreader, ?_⟩
    · rw [Nat.succ_mul]
      exact hrep'
    · intro c hc
      simp only [List.map_append, List.mem_append, List.map_cons, List.map_nil,
        List.mem_singleton] at hc
      rcases hc with (hc | hc) | hc
      · exact hpushed c hc
      · exact Op.push.inj hc
      · exact absurd hc (by simp)

theorem Refines.init (raw : ShmBufferExData) {size : Nat} (hpos : 0 < size)
    (hsize : size ≤ 2 ^ 31) :
    Refines size (raw.init (size + ShmBufferExData.sizeof)) Fifo.fresh :=
  ⟨rfl, 0, Represents.init raw hpos hsize⟩

theorem run_refines (raw : ShmBufferExData) {size : Nat} (hpos : 0 < size) (hsize : size ≤ 2 ^ 31)
    {trace : List (Op × Out)} {s : ShmBufferExData}
    (run : Run step (fun _ => Op.Fits size) (raw.init (size + ShmBufferExData.sizeof)) trace s) :
    trace.map Prod.snd = (exec (Fifo.step (size - 1)) Fifo.fresh (trace.map Prod.fst)).1 ∧
      Refines size s (exec (Fifo.step (size - 1)) Fifo.fresh (trace.map Prod.fst)).2 :=
  run.refines (Refines.init raw hpos hsize) fun _ _ op h hfit => h.step op hfit

/-- Over every run the code's queue answers as the first-in first-out list
does, and no call is left without a result. -/
theorem run_refines_fifo (raw : ShmBufferExData) (size : Nat) (hpos : 0 < size)
    (hsize : size ≤ 2 ^ 31) {trace : List (Op × Out)} {s : ShmBufferExData}
    (run : Run step (fun _ => Op.Fits size) (raw.init (size + ShmBufferExData.sizeof)) trace s) :
    trace.map Prod.snd = (exec (Fifo.step (size - 1)) Fifo.fresh (trace.map Prod.fst)).1 ∧
      Refines size s (exec (Fifo.step (size - 1)) Fifo.fresh (trace.map Prod.fst)).2 ∧
      ∀ op, op.Fits size → ∃ o s', step s op = some (o, s') := by
  obtain ⟨houts, hrel⟩ := run_refines raw hpos hsize run
  refine ⟨houts, hrel, fun op hfit => ?_⟩
  obtain ⟨s', hs', -⟩ := hrel.step op hfit
  exact ⟨_, s', hs'⟩

def blank : ShmBufferExData where
  bufferSize := 0
  head := 0
  tail := 0
  headOffset := 0
  tailOffset := 0
  lastRecordSize := 0
  totalDropCount := 0
  totalErrorCount := 0
  tmpDropCount := 0
  tmpDropVolume := 0
  tmpCount := 0
  tmpVolume := 0
  count := 0
  totalCount := 0
  onOverflow := .dropNew
  reader := fun _ => ⟨0, 0⟩
  dropIsOk := false
  circularData := fun _ => 0

theorem exists_page_message (byte : UInt8) :
    ∃ chunks : ShmChunks, recSize chunks.payload = 4096 ∧ chunks.payload.head? = some byte := by
  refine ⟨.single (List.replicate 4088 byte) (by rw [List.length_replicate]; decide), ?_⟩
  rw [recSize, ShmChunks.payload, ShmChunks.single, List.flatten_singleton, List.length_replicate]
  exact ⟨rfl, rfl⟩

theorem exists_short_run :
    ∃ trace s, trace.map Prod.fst = [.push (.single [7] (by decide)),
        .push (.single [8, 9] (by decide)), .pop 100 true] ∧
      Run step (fun _ => Op.Fits 4096) (blank.init (4096 + ShmBufferExData.sizeof)) trace s := by
  have hinit : Refines 4096 (blank.init (4096 + ShmBufferExData.sizeof)) Fifo.fresh :=
    Refines.init blank (by decide) (by decide)
  have hfirst : Op.Fits 4096 (.push (.single [7] (by decide))) := by change recSize _ ≤ _; decide
  have hsecond : Op.Fits 4096 (.push (.single [8, 9] (by decide))) := by
    change recSize _ ≤ _
    decide
  have hpop : Op.Fits 4096 (.pop 100 true) := trivial
  exact Run.exists_run hinit (fun _ _ op h hfit => Refines.step h op hfit)
    (List.forall_mem_cons.mpr
      ⟨hfirst, List.forall_mem_cons.mpr ⟨hsecond, List.forall_mem_singleton.mpr hpop⟩⟩)

theorem run_refines_fifo_short :
    ∃ trace s, trace.map Prod.fst = [.push (.single [7, 8, 9] (by decide)), .pop 100 true] ∧
      Run step (fun _ => Op.Fits 4096) (blank.init (4096 + ShmBufferExData.sizeof)) trace s ∧
      trace.map Prod.snd = [.pushed true, .popped ⟨true, 3, some [7, 8, 9]⟩] := by
  have push : Run step (fun _ => Op.Fits 4096) (blank.init (4096 + ShmBufferExData.sizeof)) _ _ :=
    .next (i := Op.push (.single [7, 8, 9] (by decide))) .start
      (by change recSize _ ≤ _; decide) rfl
  obtain ⟨s, hpop, -⟩ := (run_refines blank (by decide) (by decide) push).2.pop 100 true
  have run := push.next (i := Op.pop 100 true) trivial hpop
  obtain ⟨houts, -, -⟩ := run_refines_fifo blank 4096 (by decide) (by decide) run
  exact ⟨_, _, rfl, run, houts.trans (by decide)⟩

end HiloUtils.MessageQueue
