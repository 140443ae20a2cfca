import HiloUtils.ShmBufferExData

/-! The reading calls that take a position, and the ring bytes every call reads
and writes. A byte is named by its index behind `circular_data`, before any
wrap: the mapping repeats the ring once. -/

namespace HiloUtils

open Word MirrorRing

structure Extent where
  start : Nat
  length : Nat

instance : Membership Nat Extent where
  mem e i := e.start ≤ i ∧ i < e.start + e.length

def Extent.Within (e : Extent) (i n : Nat) : Prop := ∀ j ∈ e, i ≤ j ∧ j < i + n

def Extent.Below (e : Extent) (limit : Nat) : Prop := ∀ j ∈ e, j < limit

theorem Extent.Within.below {e : Extent} {i n limit : Nat} (h : e.Within i n)
    (hlimit : i + n ≤ limit) : e.Below limit := fun j hj => by
  have := (h j hj).2
  omega

inductive Direction
  | none
  | next
  | prev

namespace ShmBufferExData

def getAt (s : ShmBufferExData) (pos : Int) (dir : Direction) (maxSize : Nat) : Fetch × Int :=
  if s.count = 0 then (⟨false, 0, none⟩, pos)
  else if pos < s.getBeginVptr then (⟨false, 0, none⟩, pos)
  else if s.getLastVptr < pos then (⟨false, 0, none⟩, pos)
  else
    let r := s.getRecord pos
    let size := s.recordSizeAt r
    if maxSize < size then (⟨false, size, none⟩, pos)
    else
      (⟨true, size, some (s.dataAt r (s.recordSizeAt r))⟩,
        match dir with
        | .none => pos
        | .next => s.getNextVptr pos
        | .prev => s.getPrevVptr pos)

/-- `Get` by position with what was lost before it. -/
def getWithLoss (s : ShmBufferExData) (pos : Int) (maxSize : Nat) : Fetch × ReaderInfo :=
  if s.count = 0 then (⟨false, 0, none⟩, ⟨pos, 0⟩)
  else
    let r := s.catchUp ⟨pos, 0⟩
    if s.getLastVptr < r.pos then (⟨false, 0, none⟩, r)
    else
      let size := s.dataSizeAt (s.getRecord r.pos)
      if maxSize < size then (⟨true, 0, none⟩, ⟨s.getNextVptr r.pos, i64 (r.lost + size)⟩)
      else (⟨true, size, some (s.dataAt (s.getRecord r.pos) size)⟩, ⟨s.getNextVptr r.pos, r.lost⟩)

/-! Where the fields of the record at a ring index are. -/

def sizeBytes (i : Nat) : Extent := ⟨i, 4⟩

def prevSizeBytes (i : Nat) : Extent := ⟨i + 4, 4⟩

def dataBytes (i size : Nat) : Extent := ⟨i + ShmBufferRecord.sizeof, size⟩

/-! The bytes a call reads, following the call. -/

def popReads (s : ShmBufferExData) (maxSize : Nat) (deleteRecord : Bool) : List Extent :=
  if s.count = 0 then []
  else
    match s.peek with
    | none => []
    | some r =>
      if maxSize < s.dataSizeAt r then [sizeBytes r]
      else
        [sizeBytes r, dataBytes r (s.dataSizeAt r)] ++ if deleteRecord then [sizeBytes r] else []

def getNextVptrReads (s : ShmBufferExData) (pos : Int) : List Extent :=
  if pos < s.getBeginVptr then []
  else if s.getEndVptr ≤ pos then []
  else [sizeBytes (s.getRecord pos)]

def getPrevVptrReads (s : ShmBufferExData) (pos : Int) : List Extent :=
  if pos ≤ s.getBeginVptr then []
  else if s.getEndVptr < pos then []
  else if pos = s.getEndVptr then []
  else [prevSizeBytes (s.getRecord pos)]

def getAtReads (s : ShmBufferExData) (pos : Int) (dir : Direction) (maxSize : Nat) :
    List Extent :=
  if s.count = 0 then []
  else if pos < s.getBeginVptr then []
  else if s.getLastVptr < pos then []
  else
    let r := s.getRecord pos
    if maxSize < s.recordSizeAt r then [sizeBytes r]
    else
      [sizeBytes r, dataBytes r (s.recordSizeAt r)] ++
        match dir with
        | .none => []
        | .next => s.getNextVptrReads pos
        | .prev => s.getPrevVptrReads pos

/-- The part both loss-tracking calls share, at a position they found readable. -/
def fetchReads (s : ShmBufferExData) (pos : Int) (maxSize : Nat) : List Extent :=
  let r := s.getRecord pos
  (if maxSize < s.dataSizeAt r then [sizeBytes r]
    else [sizeBytes r, dataBytes r (s.dataSizeAt r)]) ++ s.getNextVptrReads pos

def getWithLossReads (s : ShmBufferExData) (pos : Int) (maxSize : Nat) : List Extent :=
  if s.count = 0 then []
  else
    let r := s.catchUp ⟨pos, 0⟩
    if s.getLastVptr < r.pos then [] else s.fetchReads r.pos maxSize

def getByReaderReads (s : ShmBufferExData) (readerIndex : Int) (maxSize : Nat) : List Extent :=
  if h : readerIndex < 0 ∨ (maxReaderCount : Int) ≤ readerIndex then []
  else if s.count = 0 then []
  else
    let r := s.catchUp (s.reader ⟨readerIndex.toNat, toNat_lt_maxReaderCount h⟩)
    if s.getLastVptr < r.pos then [] else s.fetchReads r.pos maxSize

def dropLoopReads (forSize : Nat) : Nat → ShmBufferExData → List Extent
  | 0, _ => []
  | rounds + 1, s =>
    if s.freeSize < forSize then
      match s.peek with
      | none => []
      | some rec => sizeBytes rec :: dropLoopReads forSize rounds s.dropFirstRecord.2
    else []

def pushReads (s : ShmBufferExData) (chunks : ShmChunks) : List Extent :=
  let recSize := u32 (ShmBufferRecord.recordSize chunks.size)
  if recSize = 0 then []
  else if s.freeSize < recSize then
    match s.onOverflow with
    | .returnError => []
    | .dropNew => []
    | .dropOld => dropLoopReads recSize (s.count + 1) s
  else []

/-! The bytes `Push` writes. -/

def chunkWrites : Nat → List (List UInt8) → List Extent
  | _, [] => []
  | dst, chunk :: chunks => ⟨dst, chunk.length⟩ :: chunkWrites (dst + chunk.length) chunks

def storeWrites (s : ShmBufferExData) (chunks : ShmChunks) : List Extent :=
  sizeBytes s.tail :: prevSizeBytes s.tail ::
    chunkWrites (s.tail + ShmBufferRecord.sizeof) chunks.chunks

def pushWrites (s : ShmBufferExData) (chunks : ShmChunks) : List Extent :=
  let recSize := u32 (ShmBufferRecord.recordSize chunks.size)
  if recSize = 0 then []
  else if s.freeSize < recSize then
    match s.onOverflow with
    | .returnError => []
    | .dropNew => []
    | .dropOld =>
      match s.dropFirstRecords recSize with
      | none => []
      | some (false, _) => []
      | some (true, s) => s.storeWrites chunks
  else s.storeWrites chunks

/-! The lists are complete: a cell none of the writes leads to is unchanged. -/

theorem mem_chunkWrites {i dst : Nat} {chunks : List (List UInt8)} :
    (∃ e ∈ chunkWrites dst chunks, i ∈ e) ↔ dst ≤ i ∧ i < dst + chunks.flatten.length := by
  induction chunks generalizing dst with
  | nil =>
    simp only [chunkWrites, List.not_mem_nil, false_and, exists_false, List.flatten_nil,
      List.length_nil, false_iff]
    omega
  | cons chunk chunks ih =>
    rw [chunkWrites, List.flatten_cons, List.length_append]
    simp only [List.mem_cons, exists_eq_or_imp, ih]
    change (dst ≤ i ∧ i < dst + chunk.length) ∨ _ ↔ _
    omega

theorem mem_storeWrites {s : ShmBufferExData} {chunks : ShmChunks} {i : Nat} :
    (∃ e ∈ s.storeWrites chunks, i ∈ e) ↔
      s.tail ≤ i ∧ i < s.tail + ShmBufferRecord.recordSize chunks.payload.length := by
  simp only [storeWrites, List.mem_cons, exists_eq_or_imp, mem_chunkWrites]
  change (s.tail ≤ i ∧ i < s.tail + 4) ∨ (s.tail + 4 ≤ i ∧ i < s.tail + 4 + 4) ∨
    (s.tail + 8 ≤ i ∧ i < s.tail + 8 + chunks.payload.length) ↔
    s.tail ≤ i ∧ i < s.tail + (chunks.payload.length + 8)
  omega

theorem storeRecord_frame {s : ShmBufferExData} {chunks : ShmChunks} {cell : Nat} (n : Nat)
    (h : ∀ e ∈ s.storeWrites chunks, ∀ i ∈ e, i % s.bufferSize ≠ cell) :
    (s.storeRecord chunks n).circularData cell = s.circularData cell := by
  have houtside {i : Nat} (hl : s.tail ≤ i)
      (hu : i < s.tail + ShmBufferRecord.recordSize chunks.payload.length) :
      i % s.bufferSize ≠ cell := by
    obtain ⟨e, he, hi⟩ := mem_storeWrites.mpr ⟨hl, hu⟩
    exact h e he i hi
  change chunks.writeTo s.bufferSize _ (s.tail + ShmBufferRecord.sizeof) cell = _
  rw [ShmBufferRecord.recordSize, ShmBufferRecord.sizeof] at houtside
  rw [chunks.writeTo_eq, store_apply_of_ne, store_apply_of_ne, store_apply_of_ne]
  all_goals
    intro k hk
    apply houtside
    all_goals
      simp only [le32_length, ShmBufferRecord.sizeof] at hk ⊢
      omega

theorem dropLoop_frame {forSize rounds : Nat} {s s' : ShmBufferExData} {ok : Bool}
    (h : dropLoop forSize rounds s = some (ok, s')) :
    s'.circularData = s.circularData ∧ s'.bufferSize = s.bufferSize := by
  induction rounds generalizing s with
  | zero => cases h
  | succ rounds ih =>
    rw [dropLoop] at h
    by_cases hfree : s.freeSize < forSize
    · rw [if_pos hfree, dropFirstRecord] at h
      cases hpeek : s.peek with
      | none =>
        rw [hpeek] at h
        obtain rfl : s = s' := congrArg Prod.snd (Option.some_inj.mp h)
        exact ⟨rfl, rfl⟩
      | some rec =>
        rw [hpeek] at h
        exact ih (s := s.discard (s.recordSizeAt rec)) h
    · rw [if_neg hfree] at h
      obtain rfl : s = s' := congrArg Prod.snd (Option.some_inj.mp h)
      exact ⟨rfl, rfl⟩

theorem push_frame {s s' : ShmBufferExData} {chunks : ShmChunks} {ok : Bool} {cell : Nat}
    (hpush : s.push chunks = some (ok, s'))
    (h : ∀ e ∈ s.pushWrites chunks, ∀ i ∈ e, i % s.bufferSize ≠ cell) :
    s'.circularData cell = s.circularData cell := by
  unfold push at hpush
  unfold pushWrites at h
  generalize u32 (ShmBufferRecord.recordSize chunks.size) = recSize at h hpush
  by_cases hzero : recSize = 0
  · rw [if_pos hzero] at hpush
    obtain rfl : s = s' := congrArg Prod.snd (Option.some_inj.mp hpush)
    rfl
  simp only [if_neg hzero] at h hpush
  by_cases hfree : s.freeSize < recSize
  · rw [if_pos hfree] at h hpush
    cases hmode : s.onOverflow with
    | returnError =>
      rw [hmode] at hpush
      obtain rfl : s = s' := congrArg Prod.snd (Option.some_inj.mp hpush)
      rfl
    | dropNew =>
      rw [hmode] at hpush
      obtain rfl : s.dropNewRecord recSize = s' := congrArg Prod.snd (Option.some_inj.mp hpush)
      rfl
    | dropOld =>
      rw [hmode] at h hpush
      cases hdrop : s.dropFirstRecords recSize with
      | none =>
        rw [hdrop] at hpush
        cases hpush
      | some r =>
        obtain ⟨dropped, t⟩ := r
        rw [hdrop] at h hpush
        obtain ⟨hcells, hbuf⟩ := dropLoop_frame hdrop
        cases dropped with
        | false =>
          obtain rfl : t = s' := congrArg Prod.snd (Option.some_inj.mp hpush)
          rw [hcells]
        | true =>
          obtain rfl : t.storeRecord chunks recSize = s' :=
            congrArg Prod.snd (Option.some_inj.mp hpush)
          rw [← hbuf] at h
          rw [storeRecord_frame recSize h, hcells]
  · rw [if_neg hfree] at h hpush
    obtain rfl : s.storeRecord chunks recSize = s' :=
      congrArg Prod.snd (Option.some_inj.mp hpush)
    exact storeRecord_frame recSize h

end ShmBufferExData

end HiloUtils
