import HiloUtils.LogBase
import HiloUtils.MessageQueue
import HiloUtils.Processes

/-! `log_write_record` of `LogStorage.cpp`: every message becomes a packed
record in one queue that all processes share and that drops its oldest records
when it is full. -/

namespace HiloUtils.LogStorage

open Word CString BoundedFifo RecordQueue MessageQueue

def leBytes : Nat → Nat → List UInt8
  | 0, _ => []
  | width + 1, n => UInt8.ofNat n :: leBytes width (n / 256)

@[simp] theorem leBytes_length (width n : Nat) : (leBytes width n).length = width := by
  induction width generalizing n with
  | zero => rfl
  | succ width ih => rw [leBytes, List.length_cons, ih]

/-- `log_record_t`; a chunk is shorter than `2 ^ 32`. -/
structure LogRecord where
  timestampUs : UInt64
  pid : Int32
  source : Int16
  level : UInt8
  message : List UInt8
  message_lt : message.length < 2 ^ 32

namespace LogRecord

def sizeof : Nat := 15

def hdr (r : LogRecord) : List UInt8 :=
  leBytes 8 r.timestampUs.toNat ++ leBytes 4 r.pid.toUInt32.toNat ++
    leBytes 2 r.source.toUInt16.toNat ++ leBytes 1 r.level.toNat

def image (r : LogRecord) : List UInt8 := r.hdr ++ r.message

theorem hdr_length (r : LogRecord) : r.hdr.length = sizeof := by
  simp only [hdr, List.length_append, leBytes_length]
  rfl

theorem image_length (r : LogRecord) : r.image.length = sizeof + r.message.length := by
  rw [image, List.length_append, hdr_length]

def chunks (r : LogRecord) : ShmChunks where
  chunks := [r.hdr, r.message]
  count_le := by simp
  size_lt := by
    simp only [List.mem_cons, List.not_mem_nil, or_false, forall_eq_or_imp, forall_eq]
    rw [hdr_length]
    exact ⟨by decide, r.message_lt⟩

theorem chunks_payload (r : LogRecord) : r.chunks.payload = r.image := by
  simp [chunks, ShmChunks.payload, image]

end LogRecord

/-- A call with what the system tells it. `added` is what
`LogCounters().Add(log_get_worker_name())` returns if it is asked. -/
structure LogCall where
  level : UInt32
  message : CName
  len : Int32
  timeUs : Int64
  pid : Int32
  added : Int32

structure LogProcess where
  inLogWrite : Bool
  logSource : Int16

def nextSource (logSource : Int16) (added : Int32) : Int16 :=
  if logSource = -1 then added.toInt16 else logSource

theorem text_lt {call : LogCall} {text : List UInt8}
    (h : LogBase.logWriteRecord call.message call.len.toInt = some text) :
    text.length < 2 ^ 32 := by
  have hle := LogBase.record_length h
  have hgiven : LogBase.givenLength call.message call.len.toInt < 2 ^ 31 := by
    rw [LogBase.givenLength]
    split
    · simp only [i32]
      omega
    · exact call.len.toInt_lt
  omega

def LogCall.record (call : LogCall) (source : Int16) : Option LogRecord :=
  match h : LogBase.logWriteRecord call.message call.len.toInt with
  | none => none
  | some text =>
    some ⟨call.timeUs.toUInt64, call.pid, source, call.level.toUInt8, text, text_lt h⟩

/-- `none` if the length lies outside the string. -/
def logWriteRecord (storage : ShmBufferExData) (p : LogProcess) (call : LogCall) :
    Option (Bool × ShmBufferExData × LogProcess) :=
  if p.inLogWrite then some (false, storage, p)
  else
    let logSource := nextSource p.logSource call.added
    (call.record logSource).bind fun r =>
      (storage.push r.chunks).map fun pushed => (pushed.1, pushed.2, ⟨false, logSource⟩)

variable {P : Type*}

abbrev System (P : Type*) := Processes P ShmBufferExData LogProcess

def opened (raw : ShmBufferExData) (size : Nat) : System P :=
  ⟨(raw.init (size + ShmBufferExData.sizeof)).setOverflovBehavior .dropOld true,
    fun _ => ⟨false, -1⟩⟩

def LogCall.Fits (size : Nat) (call : LogCall) : Prop :=
  ∃ text, LogBase.logWriteRecord call.message call.len.toInt = some text ∧
    recSize text + LogRecord.sizeof ≤ size - 1

structure Log (P : Type*) where
  logSource : P → Int16
  records : List LogRecord

def Log.fresh : Log P := ⟨fun _ => -1, []⟩

theorem record_eq {call : LogCall} {text : List UInt8}
    (h : LogBase.logWriteRecord call.message call.len.toInt = some text) (source : Int16) :
    call.record source =
      some ⟨call.timeUs.toUInt64, call.pid, source, call.level.toUInt8, text, text_lt h⟩ := by
  unfold LogCall.record
  split
  · next hnone => exact absurd (h.symm.trans hnone) (by simp)
  · next text' hsome =>
    obtain rfl := Option.some.inj (h.symm.trans hsome)
    rfl

section

variable [DecidableEq P]

def step (g : System P) : P × LogCall → Option (Bool × System P) :=
  Processes.step (fun _ => logWriteRecord) g

def Log.write (log : Log P) : P × LogCall → Log P
  | (p, call) =>
    let source := nextSource (log.logSource p) call.added
    ⟨Function.update log.logSource p source, log.records ++ (call.record source).toList⟩

end

def weight (r : LogRecord) : Nat := recSize r.image

/-- Of all records written the storage keeps the last ones that fit. -/
structure Keeps (size : Nat) (g : System P) (log : Log P) : Prop where
  mode_eq : g.shared.onOverflow = .dropOld
  process_eq : ∀ p, g.pc p = ⟨false, log.logSource p⟩
  represents : ∃ pos,
    Represents size g.shared pos ((lastFit weight (size - 1) log.records).map LogRecord.image)

theorem Keeps.init (raw : ShmBufferExData) {size : Nat} (hpos : 0 < size) (hsize : size ≤ 2 ^ 31) :
    Keeps size (opened raw size : System P) .fresh where
  mode_eq := rfl
  process_eq _ := rfl
  represents := ⟨0, (Represents.init raw hpos hsize).setOverflovBehavior .dropOld true⟩

theorem push_lastFit {size pos : Nat} {s : ShmBufferExData} {live : List Payload}
    (h : Represents size s pos live) (hmode : s.onOverflow = .dropOld) (chunks : ShmChunks)
    (hfit : recSize chunks.payload ≤ size - 1) :
    ∃ s' pos', s.push chunks = some (true, s') ∧ s'.onOverflow = .dropOld ∧
      Represents size s' pos' (lastFit recSize (size - 1) (live ++ [chunks.payload])) := by
  have hverdict : verdict (size - 1) s.onOverflow live chunks.payload =
      .accepted (evictions recSize (size - 1) (recSize chunks.payload) live) := by
    by_cases hroom : total recSize live + recSize chunks.payload ≤ size - 1
    · simp only [verdict, if_pos hroom, evictions_eq_zero _ _ hroom]
    · simp only [verdict, if_neg hroom, hmode]
  have hpush := h.push chunks hfit
  rw [hverdict] at hpush
  obtain ⟨heq, hrep⟩ := hpush
  rw [← lastFit_append_one recSize (size - 1) hfit] at hrep
  exact ⟨_, _, heq, by simpa using hmode, hrep⟩

theorem Keeps.write [DecidableEq P] {size : Nat} {g : System P} {log : Log P}
    (h : Keeps size g log) (p : P) (call : LogCall) (hfit : call.Fits size) :
    ∃ g', step g (p, call) = some (true, g') ∧ Keeps size g' (log.write (p, call)) := by
  obtain ⟨text, htext, hroom⟩ := hfit
  obtain ⟨pos, hrep⟩ := h.represents
  have hrecord := record_eq htext (nextSource (log.logSource p) call.added)
  obtain ⟨r, hr⟩ : ∃ r, call.record (nextSource (log.logSource p) call.added) = some r :=
    ⟨_, hrecord⟩
  have hmessage : r.message = text := by
    rw [hr] at hrecord
    rw [Option.some.inj hrecord]
  have hweight : recSize r.chunks.payload ≤ size - 1 := by
    have hlen := r.image_length
    rw [hmessage] at hlen
    rw [r.chunks_payload, recSize, ShmBufferRecord.recordSize]
    rw [recSize, ShmBufferRecord.recordSize] at hroom
    omega
  obtain ⟨s', pos', hpush, hmode, hrep'⟩ := push_lastFit hrep h.mode_eq r.chunks hweight
  have hact : logWriteRecord g.shared (g.pc p) call =
      some (true, s', ⟨false, nextSource (log.logSource p) call.added⟩) := by
    rw [h.process_eq p]
    simp only [logWriteRecord, Bool.false_eq_true, if_false, hr, Option.bind_some, hpush,
      Option.map_some]
  refine ⟨g.put p (s', ⟨false, nextSource (log.logSource p) call.added⟩), ?_, hmode, ?_, pos', ?_⟩
  · rw [step, Processes.step, hact, Option.map_some]
  · intro q
    simp only [Log.write]
    rcases eq_or_ne q p with rfl | hne
    · rw [Processes.put_pc_self, Function.update_self]
    · rw [Processes.put_pc_of_ne g hne, Function.update_of_ne hne]
      exact h.process_eq q
  · have hone : (lastFit weight (size - 1) log.records).map LogRecord.image ++ [r.chunks.payload] =
        (lastFit weight (size - 1) log.records ++ [r]).map LogRecord.image := by
      rw [List.map_append, r.chunks_payload, List.map_singleton]
    rw [hone, lastFit_map] at hrep'
    have hlast := lastFit_lastFit_append weight (size - 1) log.records r
    simp only [Log.write, hr, Option.toList_some, ← hlast]
    exact hrep'

def notice : LogCall := ⟨5, ⟨[104, 105], by decide⟩, -1, 1000000, 42, 7⟩

end HiloUtils.LogStorage
