import HiloUtils.Word
import HiloUtils.MirrorRing

/-! A message is handed to the queue as at most ten chunks and is stored as one
record: its size, the size of the record before it, and the joined payload. -/

namespace HiloUtils

open Word MirrorRing

namespace ShmBufferRecord

def sizeof : Nat := 8

def recordSize (s : Nat) : Nat := s + sizeof

def image (size prev : Nat) (data : List UInt8) : List UInt8 := le32 size ++ le32 prev ++ data

@[simp] theorem image_length (size prev : Nat) (data : List UInt8) :
    (image size prev data).length = recordSize data.length := by
  simp only [image, recordSize, sizeof, List.length_append, le32_length]
  omega

end ShmBufferRecord

structure ShmChunks where
  chunks : List (List UInt8)
  count_le : chunks.length ≤ 10
  size_lt : ∀ c ∈ chunks, c.length < 2 ^ 32

namespace ShmChunks

def single (data : List UInt8) (h : data.length < 2 ^ 32) : ShmChunks where
  chunks := [data]
  count_le := by simp
  size_lt := by simpa using h

/-- The chunk sizes are summed in 32 bits. -/
def size (c : ShmChunks) : Nat := c.chunks.foldl (fun s chunk => u32 (s + chunk.length)) 0

def payload (c : ShmChunks) : List UInt8 := c.chunks.flatten

/-- Each chunk is copied behind the one before it. -/
def writeTo (c : ShmChunks) (bufferSize : Nat) (cells : Nat → UInt8) (dst : Nat) : Nat → UInt8 :=
  (c.chunks.foldl (fun (m : (Nat → UInt8) × Nat) chunk =>
    (store bufferSize m.1 m.2 chunk, m.2 + chunk.length)) (cells, dst)).1

theorem foldl_size (chunks : List (List UInt8)) (s : Nat) :
    chunks.foldl (fun s chunk => u32 (s + chunk.length)) (u32 s) =
      u32 (s + chunks.flatten.length) := by
  induction chunks generalizing s with
  | nil => rfl
  | cons chunk chunks ih =>
    have hstep : u32 (u32 s + chunk.length) = u32 (s + chunk.length) := by
      simp only [u32]
      omega
    rw [List.foldl_cons, hstep, ih, List.flatten_cons, List.length_append, Nat.add_assoc]

theorem size_eq (c : ShmChunks) : c.size = u32 c.payload.length := by
  simpa [size, payload, u32] using foldl_size c.chunks 0

theorem foldl_writeTo (bufferSize : Nat) (chunks : List (List UInt8)) (cells : Nat → UInt8)
    (dst : Nat) :
    (chunks.foldl (fun (m : (Nat → UInt8) × Nat) chunk =>
      (store bufferSize m.1 m.2 chunk, m.2 + chunk.length)) (cells, dst)).1 =
      store bufferSize cells dst chunks.flatten := by
  induction chunks generalizing cells dst with
  | nil => rfl
  | cons chunk chunks ih => rw [List.foldl_cons, ih, List.flatten_cons, store_append]

theorem writeTo_eq (c : ShmChunks) (bufferSize : Nat) (cells : Nat → UInt8) (dst : Nat) :
    c.writeTo bufferSize cells dst = store bufferSize cells dst c.payload :=
  foldl_writeTo bufferSize c.chunks cells dst

end ShmChunks

end HiloUtils
