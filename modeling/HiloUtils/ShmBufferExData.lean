import HiloUtils.ShmChunks

/-! The message queue `ShmBufferExData` as the code computes it: head and tail
are 32-bit ring offsets with separate 64-bit lap offsets, counters are 64-bit,
and positions (`vptr_t`) are signed 64-bit. A result `none` is a call that does
not return normally: a null record is dereferenced, or the drop loop goes on
after as many rounds as there are records. -/

namespace HiloUtils

open Word MirrorRing

inductive OnOverflov
  | dropNew
  | dropOld
  | returnError
  deriving DecidableEq

structure ReaderInfo where
  pos : Int
  lost : Int
  deriving DecidableEq

def maxReaderCount : Nat := 3

structure Fetch where
  ok : Bool
  size : Nat
  copied : Option (List UInt8)
  deriving DecidableEq

structure ShmBufferExData where
  bufferSize : Nat
  head : Nat
  tail : Nat
  headOffset : Nat
  tailOffset : Nat
  lastRecordSize : Nat
  totalDropCount : Nat
  totalErrorCount : Nat
  tmpDropCount : Nat
  tmpDropVolume : Nat
  tmpCount : Nat
  tmpVolume : Nat
  count : Nat
  totalCount : Nat
  onOverflow : OnOverflov
  reader : Fin maxReaderCount → ReaderInfo
  dropIsOk : Bool
  circularData : Nat → UInt8

namespace ShmBufferExData

/-- The header is padded to one page; the ring follows it. -/
def sizeof : Nat := 4096

/-- `drop_is_ok` and the ring keep what the segment held. -/
def init (s : ShmBufferExData) (size : Nat) : ShmBufferExData where
  bufferSize := subU64 size sizeof
  head := 0
  tail := 0
  headOffset := 0
  tailOffset := 0
  lastRecordSize := 0
  totalDropCount := 0
  totalErrorCount := 0
  tmpDropCount := 0
  tmpDropVolume := 0
  tmpCount := 0
  tmpVolume := 0
  count := 0
  totalCount := 0
  onOverflow := .returnError
  reader := fun _ => ⟨0, 0⟩
  dropIsOk := s.dropIsOk
  circularData := s.circularData

def setOverflovBehavior (s : ShmBufferExData) (d : OnOverflov) (dropIsOk : Bool) :
    ShmBufferExData :=
  { s with onOverflow := d, dropIsOk := dropIsOk }

def commit (s : ShmBufferExData) (dataSize : Nat) : ShmBufferExData :=
  let tail := u32 (s.tail + dataSize)
  { s with
    tail := if s.bufferSize < tail then tail - s.bufferSize else tail
    tailOffset :=
      if s.bufferSize < tail then u64 (s.tailOffset + s.bufferSize) else s.tailOffset }

def isEmpty (s : ShmBufferExData) : Bool := s.head == s.tail

/-- The ring index of the oldest byte, `none` for the null pointer. -/
def peek (s : ShmBufferExData) : Option Nat := if s.isEmpty then none else some s.head

def freeHead (s : ShmBufferExData) (size : Nat) : ShmBufferExData :=
  let head := u32 (s.head + size)
  { s with
    head := if s.bufferSize ≤ head then head - s.bufferSize else head
    headOffset :=
      if s.bufferSize ≤ head then u64 (s.headOffset + s.bufferSize) else s.headOffset }

def capacity (s : ShmBufferExData) : Nat := subU64 s.bufferSize 1

def dataSize (s : ShmBufferExData) : Nat :=
  if s.head ≤ s.tail then s.tail - s.head else subU64 s.bufferSize (s.head - s.tail)

def getUsedBp (s : ShmBufferExData) : Nat := u64 (s.dataSize * 10000) / s.capacity

def freeSize (s : ShmBufferExData) : Nat := subU64 s.capacity s.dataSize

/-! Fields of the record at a ring index. -/

def recordSizeAt (s : ShmBufferExData) (i : Nat) : Nat :=
  ofLe (load s.bufferSize s.circularData i 4)

def prevSizeAt (s : ShmBufferExData) (i : Nat) : Nat :=
  ofLe (load s.bufferSize s.circularData (i + 4) 4)

def dataSizeAt (s : ShmBufferExData) (i : Nat) : Nat :=
  u32 (subU64 (s.recordSizeAt i) ShmBufferRecord.sizeof)

def dataAt (s : ShmBufferExData) (i size : Nat) : List UInt8 :=
  load s.bufferSize s.circularData (i + ShmBufferRecord.sizeof) size

def discard (s : ShmBufferExData) (size : Nat) : ShmBufferExData :=
  { s with
    tmpDropCount := u64 (s.tmpDropCount + 1)
    tmpDropVolume := u64 (s.tmpDropVolume + size)
    count := subU64 s.count 1
    totalDropCount := u64 (s.totalDropCount + 1)
    totalErrorCount := if s.dropIsOk then s.totalErrorCount else u64 (s.totalErrorCount + 1)
    : ShmBufferExData }.freeHead size

def dropFirstRecord (s : ShmBufferExData) : Bool × ShmBufferExData :=
  match s.peek with
  | none => (false, s)
  | some rec => (true, s.discard (s.recordSizeAt rec))

def dropLoop (forSize : Nat) : Nat → ShmBufferExData → Option (Bool × ShmBufferExData)
  | 0, _ => none
  | rounds + 1, s =>
    if s.freeSize < forSize then
      match s.dropFirstRecord with
      | (false, s) => some (false, s)
      | (true, s) => dropLoop forSize rounds s
    else some (true, s)

/-- Every round of the loop drops one of `count` records. -/
def dropFirstRecords (s : ShmBufferExData) (forSize : Nat) : Option (Bool × ShmBufferExData) :=
  dropLoop forSize (s.count + 1) s

def dropNewRecord (s : ShmBufferExData) (recSize : Nat) : ShmBufferExData :=
  { s with
    tmpDropCount := u64 (s.tmpDropCount + 1)
    totalDropCount := u64 (s.totalDropCount + 1)
    totalErrorCount := if s.dropIsOk then s.totalErrorCount else u64 (s.totalErrorCount + 1)
    tmpDropVolume := u64 (s.tmpDropVolume + recSize) }

/-- The part of `Push` after the overflow check: the record is written at the
tail, committed and counted. -/
def storeRecord (s : ShmBufferExData) (chunks : ShmChunks) (recSize : Nat) : ShmBufferExData :=
  let prev := if s.count = 0 then 0 else s.lastRecordSize
  let cells := store s.bufferSize s.circularData s.tail (le32 recSize)
  let cells := store s.bufferSize cells (s.tail + 4) (le32 prev)
  let cells := chunks.writeTo s.bufferSize cells (s.tail + ShmBufferRecord.sizeof)
  let s := { s with
    lastRecordSize := recSize
    circularData := cells
    : ShmBufferExData }.commit recSize
  { s with
    count := u64 (s.count + 1)
    totalCount := u64 (s.totalCount + 1)
    tmpCount := u64 (s.tmpCount + 1)
    tmpVolume := u64 (s.tmpVolume + recSize) }

def push (s : ShmBufferExData) (chunks : ShmChunks) : Option (Bool × ShmBufferExData) :=
  let recSize := u32 (ShmBufferRecord.recordSize chunks.size)
  if recSize = 0 then some (true, s)
  else if s.freeSize < recSize then
    match s.onOverflow with
    | .returnError => some (false, s)
    | .dropNew => some (true, s.dropNewRecord recSize)
    | .dropOld =>
      match s.dropFirstRecords recSize with
      | none => none
      | some (false, s) => some (false, s)
      | some (true, s) => some (true, s.storeRecord chunks recSize)
  else some (true, s.storeRecord chunks recSize)

def pop (s : ShmBufferExData) (maxSize : Nat) (deleteRecord : Bool) :
    Option (Fetch × ShmBufferExData) :=
  if s.count = 0 then some (⟨false, 0, none⟩, s)
  else
    match s.peek with
    | none => none
    | some r =>
      let size := s.dataSizeAt r
      if maxSize < size then some (⟨false, size, none⟩, s)
      else
        some (⟨true, size, some (s.dataAt r size)⟩,
          if deleteRecord then
            { s.freeHead (s.recordSizeAt r) with count := subU64 s.count 1 }
          else s)

/-! Stream positions. -/

def getBeginVptr (s : ShmBufferExData) : Int := i64 (u64 (s.head + s.headOffset))

def getEndVptr (s : ShmBufferExData) : Int := i64 (u64 (s.tail + s.tailOffset))

def getLastVptr (s : ShmBufferExData) : Int :=
  i64 (subU64 (u64 (s.tail + s.tailOffset)) s.lastRecordSize)

def getRecord (s : ShmBufferExData) (vptr : Int) : Nat := subU64 (ofI64 vptr) s.headOffset

def getNextVptr (s : ShmBufferExData) (pos : Int) : Int :=
  if pos < s.getBeginVptr then s.getBeginVptr
  else if s.getEndVptr ≤ pos then s.getEndVptr
  else i64 (pos + s.recordSizeAt (s.getRecord pos))

def getPrevVptr (s : ShmBufferExData) (pos : Int) : Int :=
  if pos ≤ s.getBeginVptr then -1
  else if s.getEndVptr < pos then s.getEndVptr
  else if pos = s.getEndVptr then i64 (pos - s.lastRecordSize)
  else i64 (pos - s.prevSizeAt (s.getRecord pos))

/-- A reader that fell behind the oldest record is moved to it. -/
def catchUp (s : ShmBufferExData) (r : ReaderInfo) : ReaderInfo :=
  if r.pos < s.getBeginVptr then
    ⟨s.getBeginVptr, i64 (r.lost + (s.getBeginVptr - r.pos))⟩
  else r

theorem dropLoop_cases {forSize rounds : Nat} {s t : ShmBufferExData} {ok : Bool}
    (h : dropLoop forSize (rounds + 1) s = some (ok, t)) :
    (forSize ≤ s.freeSize ∧ ok = true ∧ t = s) ∨
    (s.freeSize < forSize ∧ s.peek = none ∧ ok = false ∧ t = s) ∨
    ∃ rec, s.freeSize < forSize ∧ s.peek = some rec ∧
      dropLoop forSize rounds (s.discard (s.recordSizeAt rec)) = some (ok, t) := by
  rw [dropLoop] at h
  by_cases hfree : s.freeSize < forSize
  · rw [if_pos hfree] at h
    unfold dropFirstRecord at h
    cases hpeek : s.peek with
    | none =>
      rw [hpeek] at h
      obtain ⟨rfl, rfl⟩ := Prod.mk.inj (Option.some.inj h)
      exact .inr (.inl ⟨hfree, rfl, rfl, rfl⟩)
    | some rec =>
      rw [hpeek] at h
      exact .inr (.inr ⟨rec, hfree, rfl, h⟩)
  · rw [if_neg hfree] at h
    obtain ⟨rfl, rfl⟩ := Prod.mk.inj (Option.some.inj h)
    exact .inl ⟨Nat.le_of_not_lt hfree, rfl, rfl⟩

theorem toNat_lt_maxReaderCount {readerIndex : Int}
    (h : ¬ (readerIndex < 0 ∨ (maxReaderCount : Int) ≤ readerIndex)) :
    readerIndex.toNat < maxReaderCount := by omega

def getByReader (s : ShmBufferExData) (readerIndex : Int) (maxSize : Nat) :
    Fetch × ShmBufferExData :=
  if h : readerIndex < 0 ∨ (maxReaderCount : Int) ≤ readerIndex then (⟨false, 0, none⟩, s)
  else if s.count = 0 then (⟨false, 0, none⟩, s)
  else
    let i : Fin maxReaderCount := ⟨readerIndex.toNat, toNat_lt_maxReaderCount h⟩
    let r := s.catchUp (s.reader i)
    if s.getLastVptr < r.pos then
      (⟨false, 0, none⟩, { s with reader := Function.update s.reader i r })
    else
      let size := s.dataSizeAt (s.getRecord r.pos)
      if maxSize < size then
        (⟨true, 0, none⟩, { s with
          reader := Function.update s.reader i ⟨s.getNextVptr r.pos, i64 (r.lost + size)⟩ })
      else
        (⟨true, size, some (s.dataAt (s.getRecord r.pos) size)⟩, { s with
          reader := Function.update s.reader i ⟨s.getNextVptr r.pos, r.lost⟩ })

end ShmBufferExData

end HiloUtils
