import HiloUtils.Oversized

/-! The size a push reserves. The chunk sizes and the header are added up in 32
bits, the chunks are copied in full, so that a message of `2 ^ 32 - 8` bytes or
more gets a record that is too short. -/

namespace HiloUtils.Reservation

open Word MirrorRing BoundedFifo RecordQueue MessageQueue Occupancy Oversized

def Stored (s s' : ShmBufferExData) : Prop := s'.totalCount ≠ s.totalCount

/-- A stored record lies within the two mappings of the ring and has the size of
its message, and the message of a push that returns true is stored or counted as
dropped. -/
structure Exact (s : ShmBufferExData) (chunks : ShmChunks) : Prop where
  stored : ∀ ok s', s.push chunks = some (ok, s') → Stored s s' →
    s.tail + recSize chunks.payload ≤ 2 * s.bufferSize ∧
      s'.lastRecordSize = recSize chunks.payload ∧
      s'.recordSizeAt s.tail = recSize chunks.payload
  accounted : ∀ s', s.push chunks = some (true, s') →
    Stored s s' ∨ s'.totalDropCount = u64 (s.totalDropCount + 1)

/-- A push of a record of `n` bytes finds room, or makes it; with the tail at the
end of the ring, even for a record larger than the ring. -/
def HasRoom (s : ShmBufferExData) (n : Nat) : Prop :=
  n ≤ s.freeSize ∨ s.onOverflow = .dropOld ∧ (n ≤ s.capacity ∨ s.tail = s.bufferSize)

section

variable {size pos : Nat} {s : ShmBufferExData} {q : List Payload}

end

end HiloUtils.Reservation
