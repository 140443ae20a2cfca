import HiloUtils.ShmBuffer
import HiloUtils.ShmBufferExData
import HiloUtils.MessageQueue

/-! The byte interface of the queue memory, `write`, `read` and `free_head`,
beside the one of `ShmBufferData`: the same code over the same ring, with a lap
offset beside either cursor. -/

namespace HiloUtils.RawBytes

open Word MirrorRing RecordQueue

def write (s : ShmBufferExData) (d : List UInt8) : Bool × ShmBufferExData :=
  if s.freeSize < d.length then (false, s)
  else
    let tail := u32 (s.tail + d.length)
    (true, { s with
      circularData := store s.bufferSize s.circularData s.tail d
      tail := if s.bufferSize < tail then tail - s.bufferSize else tail
      tailOffset :=
        if s.bufferSize < tail then u64 (s.tailOffset + s.bufferSize) else s.tailOffset })

def read (s : ShmBufferExData) (dataSize : Nat) : List UInt8 × ShmBufferExData :=
  let readSize := min dataSize s.dataSize
  (load s.bufferSize s.circularData s.head readSize, s.freeHead readSize)

def step (s : ShmBufferExData) : ShmBuffer.Op → Option (ShmBuffer.Out × ShmBufferExData)
  | .write d => some (.wrote (write s d).1, (write s d).2)
  | .read n => some (.got (read s n).1, (read s n).2)
  | .free n => some (.freed, s.freeHead n)

theorem step_write {s : ShmBufferExData} {d : List UInt8} {ok : Bool} (h : (write s d).1 = ok) :
    step s (.write d) = some (.wrote ok, (write s d).2) := by
  rw [← h, step]

def ring (s : ShmBufferExData) : ShmBuffer.ShmBufferData :=
  ⟨s.bufferSize, s.head, s.tail, s.circularData⟩

theorem init_ring (s : ShmBufferExData) (size : Nat) :
    ring (s.init size) = (ring s).init size := by
  have hsizeof : ShmBufferExData.sizeof = ShmBuffer.sizeofShmBufferData := rfl
  rw [ring, ShmBufferExData.init, hsizeof]
  rfl

theorem dataSize_ring (s : ShmBufferExData) : (ring s).dataSize = s.dataSize := rfl

theorem freeSize_ring (s : ShmBufferExData) : (ring s).freeSize = s.freeSize := by
  rw [ShmBuffer.ShmBufferData.freeSize, dataSize_ring]
  rfl

theorem write_ring (s : ShmBufferExData) (d : List UInt8) :
    (ring s).write d = ((write s d).1, ring (write s d).2) := by
  have hfree := freeSize_ring s
  unfold ShmBuffer.ShmBufferData.write write
  by_cases hfull : s.freeSize < d.length
  · rw [if_pos (by rw [hfree]; exact hfull), if_pos hfull]
  · rw [if_neg (by rw [hfree]; exact hfull), if_neg hfull]
    rfl

theorem freeHead_ring (s : ShmBufferExData) (n : Nat) :
    ring (s.freeHead n) = (ring s).free n := rfl

theorem read_ring (s : ShmBufferExData) (n : Nat) :
    (ring s).read n = ((read s n).1, ring (read s n).2) := by
  rw [ShmBuffer.ShmBufferData.read, dataSize_ring, ← freeHead_ring]
  rfl

/-- The queue memory as a stream of bytes, `gone` of them removed: the ring holds
the live ones, and a cursor with its lap offset is the number of bytes behind it. -/
structure Follows (size : Nat) (s : ShmBufferExData) (gone : Nat) (live : List UInt8) :
    Prop where
  represents : ShmBuffer.Represents size (ring s) gone live
  head_le : s.head ≤ gone
  headOffset_eq : s.headOffset = u64 (gone - s.head)
  tail_le : s.tail ≤ gone + live.length
  tailOffset_eq : s.tailOffset = u64 (gone + live.length - s.tail)

namespace Follows

variable {size gone : Nat} {s : ShmBufferExData} {live : List UInt8}

theorem init (raw : ShmBufferExData) (hpos : 0 < size) (hsize : size ≤ 2 ^ 31) :
    Follows size (raw.init (size + ShmBufferExData.sizeof)) 0 [] where
  represents := by
    rw [init_ring]
    exact ShmBuffer.Represents.init (ring raw) hpos hsize
  head_le := Nat.le_refl 0
  headOffset_eq := rfl
  tail_le := Nat.le_refl 0
  tailOffset_eq := rfl

theorem write_full (h : Follows size s gone live) {d : List UInt8}
    (hfull : ¬ live.length + d.length ≤ size - 1) : RawBytes.write s d = (false, s) := by
  have hfits := h.represents.fits
  have hfree := h.represents.freeSize_eq
  rw [freeSize_ring] at hfree
  rw [RawBytes.write, if_pos]
  omega

theorem freeSize_not_lt (h : Follows size s gone live) {d : List UInt8}
    (hfit : live.length + d.length ≤ size - 1) : ¬ s.freeSize < d.length := by
  have hfits := h.represents.fits
  have hfree := h.represents.freeSize_eq
  rw [freeSize_ring] at hfree
  omega

theorem write_fst (h : Follows size s gone live) {d : List UInt8}
    (hfit : live.length + d.length ≤ size - 1) : (RawBytes.write s d).1 = true := by
  rw [RawBytes.write, if_neg (h.freeSize_not_lt hfit)]

theorem write (h : Follows size s gone live) {d : List UInt8}
    (hfit : live.length + d.length ≤ size - 1) :
    Follows size (RawBytes.write s d).2 gone (live ++ d) := by
  have hrep := h.represents
  have hsize := hrep.size_le
  have hle : s.tail ≤ size := hrep.tail.le
  have hfits := hrep.fits
  have hbuf : s.bufferSize = size := hrep.size_eq
  have hroom := h.freeSize_not_lt hfit
  have hring : ring (RawBytes.write s d).2 = ((ring s).write d).2 := by rw [write_ring]
  have hwrite := (hrep.write_accept hfit).2
  rw [← hring] at hwrite
  have hu : u32 (s.tail + d.length) = s.tail + d.length := u32_of_lt (by omega)
  obtain ⟨hcursor, hlap⟩ := lap_advance (c := size < s.tail + d.length) h.tail_le Nat.le_of_lt
  have hend : gone + live.length + d.length = gone + (live ++ d).length := by
    rw [List.length_append, Nat.add_assoc]
  rw [hend] at hcursor hlap
  rw [← h.tailOffset_eq] at hlap
  refine ⟨hwrite, ?_, ?_, ?_, ?_⟩
  all_goals simp only [RawBytes.write, if_neg hroom, hu, hbuf]
  · exact h.head_le
  · exact h.headOffset_eq
  · exact hcursor
  · exact hlap

theorem free (h : Follows size s gone live) {n : Nat} (hn : n ≤ live.length)
    (hend : s.tail = size → n < live.length) :
    Follows size (s.freeHead n) (gone + n) (live.drop n) := by
  have hrep := h.represents
  have hsize := hrep.size_le
  have hlt : s.head < size := hrep.head.lt
  have hfits := hrep.fits
  have hbuf : s.bufferSize = size := hrep.size_eq
  have hu : u32 (s.head + n) = s.head + n := u32_of_lt (by omega)
  obtain ⟨hcursor, hlap⟩ := lap_advance (c := size ≤ s.head + n) h.head_le id
  rw [← h.headOffset_eq] at hlap
  have hlive : gone + n + (live.drop n).length = gone + live.length := by
    rw [List.length_drop]
    omega
  refine ⟨by rw [freeHead_ring]; exact hrep.free hn hend, ?_, ?_, ?_, ?_⟩
  all_goals simp only [ShmBufferExData.freeHead, hu, hbuf]
  · exact hcursor
  · exact hlap
  · rw [hlive]
    exact h.tail_le
  · rw [hlive]
    exact h.tailOffset_eq

theorem read_fst (h : Follows size s gone live) {n : Nat} (hend : s.tail = size → n < live.length) :
    (RawBytes.read s n).1 = live.take n := by
  have hring := congrArg Prod.fst (read_ring s n)
  rw [(h.represents.read hend).1] at hring
  exact hring.symm

theorem read (h : Follows size s gone live) {n : Nat} (hend : s.tail = size → n < live.length) :
    Follows size (RawBytes.read s n).2 (gone + min n live.length) (live.drop n) := by
  have hdata := h.represents.dataSize_eq
  rw [dataSize_ring] at hdata
  have hdrop : live.drop n = live.drop (min n live.length) := by
    rcases Nat.le_total n live.length with hle | hle
    · rw [min_eq_left hle]
    · rw [min_eq_right hle, List.drop_of_length_le hle, List.drop_length]
  have hfree : (RawBytes.read s n).2 = s.freeHead (min n live.length) := by
    rw [RawBytes.read, hdata]
  rw [hfree, hdrop]
  exact h.free (Nat.min_le_right _ _) fun hs => by have := hend hs; omega

end Follows

def accepted : ShmBuffer.Op × ShmBuffer.Out → List UInt8
  | (.write d, .wrote true) => d
  | _ => []

/-- Of all bytes accepted the last ones are live. -/
def Streams (size : Nat) (all : List UInt8) (s : ShmBufferExData) (live : List UInt8) : Prop :=
  ∃ past, past ++ live = all ∧ Follows size s past.length live

theorem Streams.step {size : Nat} {all live : List UInt8} {s : ShmBufferExData}
    (h : Streams size all s live) (op : ShmBuffer.Op)
    (hok : ShmBuffer.NotDrainedAtEnd (ring s) op) :
    ∃ s', RawBytes.step s op = some ((ShmBuffer.spec (size - 1) live op).1, s') ∧
      Streams size (all ++ accepted (op, (ShmBuffer.spec (size - 1) live op).1)) s'
        (ShmBuffer.spec (size - 1) live op).2 := by
  obtain ⟨past, rfl, hf⟩ := h
  have hsize : (ring s).size = size := hf.represents.size_eq
  have hdata := hf.represents.dataSize_eq
  cases op with
  | write d =>
    by_cases hfit : live.length + d.length ≤ size - 1
    · rw [ShmBuffer.spec, if_pos hfit]
      refine ⟨_, step_write (hf.write_fst hfit), past, ?_, hf.write hfit⟩
      rw [accepted, List.append_assoc]
    · rw [ShmBuffer.spec, if_neg hfit]
      refine ⟨s, by rw [RawBytes.step, hf.write_full hfit], past, ?_, hf⟩
      rw [accepted, List.append_nil]
      simp
  | read n =>
    rw [ShmBuffer.NotDrainedAtEnd, hsize, hdata] at hok
    refine ⟨_, by rw [RawBytes.step, hf.read_fst hok]; rfl, past ++ live.take n, ?_, ?_⟩
    · rw [accepted, List.append_nil, List.append_assoc]
      · exact congrArg (past ++ ·) (List.take_append_drop n live)
      · simp
    · rw [List.length_append, List.length_take]
      exact hf.read hok
  | free n =>
    rw [ShmBuffer.NotDrainedAtEnd, hsize, hdata] at hok
    refine ⟨_, rfl, past ++ live.take n, ?_, ?_⟩
    · rw [accepted, List.append_nil, List.append_assoc]
      · exact congrArg (past ++ ·) (List.take_append_drop n live)
      · simp
    · rw [List.length_append, List.length_take, Nat.min_eq_left hok.1]
      exact hf.free hok.1 hok.2

/-- In every run that never drains the ring while the tail rests at its end,
the byte interface is a bounded first-in first-out byte list, the mapped bytes
from the head on are the last ones accepted, and the positions of both ends
count all the bytes that ever passed. -/
theorem run_streams (raw : ShmBufferExData) (size : Nat) (hpos : 0 < size)
    (hsize : size ≤ 2 ^ 31) {trace : List (ShmBuffer.Op × ShmBuffer.Out)} {s : ShmBufferExData}
    (run : Run step (fun s => ShmBuffer.NotDrainedAtEnd (ring s))
      (raw.init (size + ShmBufferExData.sizeof)) trace s) :
    let all := trace.flatMap accepted
    trace.map Prod.snd = (exec (ShmBuffer.spec (size - 1)) [] (trace.map Prod.fst)).1 ∧
      s.getEndVptr = i64 all.length ∧
      s.getBeginVptr = i64 (all.length - s.dataSize : Nat) ∧
      load size s.circularData s.head s.dataSize = all.drop (all.length - s.dataSize) := by
  obtain ⟨houts, past, hall, hf⟩ := run.refines_trace
    (R := fun trace s live => Streams size (trace.flatMap accepted) s live)
    (B := fun _ => True) ⟨[], rfl, .init raw hpos hsize⟩ (fun _ _ _ => trivial)
    (fun trace s live op h hok _ => by
      obtain ⟨s', hs, h'⟩ := h.step op hok
      refine ⟨s', hs, ?_⟩
      rw [List.flatMap_append, List.flatMap_singleton]
      exact h') trivial
  have hdata := hf.represents.dataSize_eq
  rw [dataSize_ring] at hdata
  have hgone : past.length + s.dataSize = (trace.flatMap accepted).length := by
    rw [← hall, List.length_append, hdata]
  have hend := hf.tail_le
  refine ⟨houts, ?_, ?_, ?_⟩
  · rw [ShmBufferExData.getEndVptr, hf.tailOffset_eq, i64_u64, Int.natCast_add, i64_add_u64,
      ← Int.natCast_add, Nat.add_sub_cancel' hend, ← hdata, hgone]
  · rw [ShmBufferExData.getBeginVptr, hf.headOffset_eq, i64_u64, Int.natCast_add, i64_add_u64,
      ← Int.natCast_add, Nat.add_sub_cancel' hf.head_le]
    congr 2
    omega
  · have hbytes : load size s.circularData s.head s.dataSize = _ :=
      hf.represents.bytes.load_alias hf.represents.head.mod hdata
    have hpast : (trace.flatMap accepted).length - s.dataSize = past.length := by omega
    rw [hbytes, hpast, ← hall, List.drop_left]

theorem run_streams_short :
    ∃ trace s, trace.map Prod.fst = [.write [1, 2, 3], .read 2] ∧
      Run step (fun s => ShmBuffer.NotDrainedAtEnd (ring s))
        (MessageQueue.blank.init (4096 + ShmBufferExData.sizeof)) trace s ∧
      trace.map Prod.snd = [.wrote true, .got [1, 2]] ∧ s.getEndVptr = 3 := by
  have hstart : Streams 4096 [] (MessageQueue.blank.init (4096 + ShmBufferExData.sizeof)) [] :=
    ⟨[], rfl, .init MessageQueue.blank (by decide) (by decide)⟩
  obtain ⟨s, hs, h⟩ := hstart.step (.write [1, 2, 3]) trivial
  have hok : ShmBuffer.NotDrainedAtEnd (ring s) (.read 2) := by
    obtain ⟨past, hall, hf⟩ := h
    have htail : s.tail ≤ 3 := by
      have hle := hf.tail_le
      rwa [← List.length_append, hall] at hle
    intro (hend : s.tail = s.bufferSize)
    have hsize : s.bufferSize = 4096 := hf.represents.size_eq
    omega
  obtain ⟨s', hs', -⟩ := h.step (.read 2) hok
  have run : Run step (fun s => ShmBuffer.NotDrainedAtEnd (ring s)) _ _ s' :=
    (Run.single (by trivial) hs).next hok hs'
  obtain ⟨houts, hend, -⟩ := run_streams MessageQueue.blank 4096 (by decide) (by decide) run
  exact ⟨_, s', rfl, run, houts.trans (by decide), hend.trans (by decide)⟩

end HiloUtils.RawBytes
