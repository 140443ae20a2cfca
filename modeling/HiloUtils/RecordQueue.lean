import HiloUtils.ShmBufferExData
import HiloUtils.BoundedFifo

/-! The ring contents as a queue of payloads. `pos` counts the bytes of all
records that ever left, so the live records lie at the stream positions from
`pos` on; the cursors and lap offsets are residues and multiples of these. -/

namespace HiloUtils.RecordQueue

open Word MirrorRing BoundedFifo ShmBufferRecord

abbrev Payload := List UInt8

def recSize (p : Payload) : Nat := recordSize p.length

theorem recSize_pos (p : Payload) : 0 < recSize p := Nat.succ_pos _

theorem recordSize_eq (chunks : ShmChunks) :
    u32 (recordSize chunks.size) = u32 (recSize chunks.payload) := by
  simp only [ShmChunks.size_eq, recSize, recordSize, sizeof, u32]
  omega

theorem recordSize_chunks {chunks : ShmChunks} (h : recSize chunks.payload < 2 ^ 32) :
    u32 (recordSize chunks.size) = recSize chunks.payload := by
  rw [recordSize_eq, u32_of_lt h]

def lastSize : Nat → List Payload → Nat
  | prev, [] => prev
  | _, p :: q => lastSize (recSize p) q

/-- Consecutive records, each with the size of the one before it. -/
def images : Nat → List Payload → List UInt8
  | _, [] => []
  | prev, p :: q => image (recSize p) prev p ++ images (recSize p) q

@[simp] theorem images_length (prev : Nat) (q : List Payload) :
    (images prev q).length = total recSize q := by
  induction q generalizing prev with
  | nil => rfl
  | cons p q ih => rw [images, List.length_append, image_length, ih, total_cons]; rfl

theorem images_append (prev : Nat) (a b : List Payload) :
    images prev (a ++ b) = images prev a ++ images (lastSize prev a) b := by
  induction a generalizing prev with
  | nil => rfl
  | cons p a ih => rw [List.cons_append, images, ih, images, lastSize, List.append_assoc]

theorem lastSize_append_one (prev : Nat) (q : List Payload) (p : Payload) :
    lastSize prev (q ++ [p]) = recSize p := by
  induction q generalizing prev with
  | nil => rfl
  | cons x q ih => rw [List.cons_append, lastSize, ih]

theorem lastSize_of_ne_nil {q : List Payload} (h : q ≠ []) (a b : Nat) :
    lastSize a q = lastSize b q := by
  cases q with
  | nil => exact absurd rfl h
  | cons p q => rfl

/-- A cursor that is moved on, a lap back if it wraps, stays behind its position,
and its lap offset is what is missing to it. -/
theorem lap_advance {size cursor pos n : Nat} {c : Prop} [Decidable c]
    (hle : cursor ≤ pos) (hwrap : c → size ≤ cursor + n) :
    (if c then cursor + n - size else cursor + n) ≤ pos + n ∧
      (if c then u64 (u64 (pos - cursor) + size) else u64 (pos - cursor)) =
        u64 (pos + n - if c then cursor + n - size else cursor + n) := by
  by_cases hc : c
  · have := hwrap hc
    simp only [if_pos hc, u64_u64_add]
    refine ⟨by omega, ?_⟩
    congr 1
    omega
  · simp only [if_neg hc]
    refine ⟨by omega, ?_⟩
    congr 1
    omega

/-- No record ends at 32 bits or more from the start of its lap. -/
def Unwrapped (size : Nat) : Nat → List Payload → Prop
  | _, [] => True
  | pos, p :: q => pos % size + recSize p < 2 ^ 32 ∧ Unwrapped size (pos + recSize p) q

theorem unwrapped_append {size pos : Nat} {a b : List Payload} :
    Unwrapped size pos (a ++ b) ↔
      Unwrapped size pos a ∧ Unwrapped size (pos + total recSize a) b := by
  induction a generalizing pos with
  | nil => simp [Unwrapped]
  | cons p a ih => rw [List.cons_append, Unwrapped, ih, Unwrapped, total_cons, Nat.add_assoc,
      and_assoc]

theorem unwrapped_of_le {size pos : Nat} {q : List Payload} (hsize : size ≤ 2 ^ 31)
    (hfits : total recSize q < size) : Unwrapped size pos q := by
  induction q generalizing pos with
  | nil => trivial
  | cons p q ih =>
    rw [total_cons] at hfits
    have hlt : pos % size < size := Nat.mod_lt _ (by omega)
    exact ⟨by omega, ih (by omega)⟩

theorem Unwrapped.recSize_lt {size pos : Nat} {a b : List Payload} {p : Payload}
    (h : Unwrapped size pos (a ++ p :: b)) : recSize p < 2 ^ 32 := by
  have hp := (unwrapped_append.mp h).2.1
  omega

theorem Unwrapped.lastSize_lt {size pos : Nat} {q : List Payload} (h : Unwrapped size pos q) :
    lastSize 0 q < 2 ^ 32 := by
  rcases List.eq_nil_or_concat q with rfl | ⟨a, p, rfl⟩
  · decide
  · rw [List.concat_eq_append] at h ⊢
    rw [lastSize_append_one]
    exact h.recSize_lt

/-- The live records of a ring of any size, as long as its cursors do not wrap. -/
structure LaidOut (size : Nat) (s : ShmBufferExData) (pos : Nat) (q : List Payload) : Prop where
  bufferSize_eq : s.bufferSize = size
  size_lt : size < 2 ^ 64
  fits : total recSize q < size
  unwrapped : Unwrapped size pos q
  head : HeadAt size s.head pos
  head_le : s.head ≤ pos
  headOffset_eq : s.headOffset = u64 (pos - s.head)
  tail : TailAt size s.tail (pos + total recSize q)
  tail_le : s.tail ≤ pos + total recSize q
  tailOffset_eq : s.tailOffset = u64 (pos + total recSize q - s.tail)
  bytes : ∃ prev < 2 ^ 32, Holds size s.circularData pos (images prev q)
  count_eq : s.count = q.length
  last_eq : q ≠ [] → s.lastRecordSize = lastSize 0 q

namespace LaidOut

variable {size pos : Nat} {s : ShmBufferExData} {q : List Payload} {p : Payload}

theorem length_lt (h : LaidOut size s pos q) : q.length < 2 ^ 64 := by
  have hlen := length_le_total recSize recSize_pos q
  have hfits := h.fits
  have hsize := h.size_lt
  omega

theorem count_eq_zero_iff (h : LaidOut size s pos q) : s.count = 0 ↔ q = [] := by
  rw [h.count_eq, List.length_eq_zero_iff]

/-- The reported size is the volume of the live records, except for an empty
queue whose tail was left at the end of the ring. -/
theorem dataSize_cases (h : LaidOut size s pos q) :
    s.dataSize = total recSize q ∨ (q = [] ∧ s.head = 0 ∧ s.tail = size) := by
  have hlt := h.head.lt
  have hle := h.tail.le
  have hsize := h.size_lt
  simp only [ShmBufferExData.dataSize, h.bufferSize_eq, subU64]
  rcases cursors h.head h.tail h.fits with hc | hc | ⟨hq, hhead, htail⟩
  · left
    rw [if_pos hc.1, hc.2]
  · left
    rw [if_neg (by omega)]
    omega
  · right
    have hlen := length_le_total recSize recSize_pos q
    exact ⟨List.length_eq_zero_iff.mp (by omega), hhead, htail⟩

theorem dataSize_drained (hhead : s.head = 0) (htail : s.tail = size) : s.dataSize = size := by
  simp [ShmBufferExData.dataSize, hhead, htail]

/-- A record of at most the capacity is let in exactly if it fits: the wrapped
free size of the drained ring makes no difference. -/
theorem freeSize_lt_iff (h : LaidOut size s pos q) {n : Nat} (hn : n ≤ size - 1) :
    s.freeSize < n ↔ ¬ total recSize q + n ≤ size - 1 := by
  have hfits := h.fits
  have hsize := h.size_lt
  simp only [ShmBufferExData.freeSize, ShmBufferExData.capacity, h.bufferSize_eq, subU64]
  rcases h.dataSize_cases with hd | ⟨hq, hhead, htail⟩
  · rw [hd]
    omega
  · rw [dataSize_drained hhead htail, hq, total_nil]
    omega

theorem peek_eq (h : LaidOut size s pos (p :: q)) : s.peek = some s.head := by
  have hfits := h.fits
  have hpos := recSize_pos p
  have hlt := h.head.lt
  have hle := h.tail.le
  have hne : s.head ≠ s.tail := by
    rcases cursors h.head h.tail h.fits with hc | hc | hc <;>
      rw [total_cons] at hc <;> omega
  simp [ShmBufferExData.peek, ShmBufferExData.isEmpty, hne]

theorem init (raw : ShmBufferExData) (hpos : 0 < size) (hsize : size < 2 ^ 64) :
    LaidOut size (raw.init (size + ShmBufferExData.sizeof)) 0 [] where
  bufferSize_eq := by
    simp only [ShmBufferExData.init, subU64, ShmBufferExData.sizeof]
    omega
  size_lt := hsize
  fits := hpos
  unwrapped := trivial
  head := ⟨hpos, rfl⟩
  head_le := Nat.le_refl _
  headOffset_eq := rfl
  tail := ⟨Nat.zero_le _, rfl⟩
  tail_le := Nat.le_refl _
  tailOffset_eq := rfl
  bytes := ⟨0, by decide, .empty _ _⟩
  count_eq := rfl
  last_eq h := absurd rfl h

theorem record_at (h : LaidOut size s pos q) {a b : List Payload} (hq : q = a ++ p :: b)
    {i : Nat} (hi : i % size = (pos + total recSize a) % size) :
    s.recordSizeAt i = recSize p ∧ (a ≠ [] → s.prevSizeAt i = lastSize 0 a) ∧
      s.dataSizeAt i = p.length ∧ s.dataAt i p.length = p := by
  subst hq
  obtain ⟨prev, -, hbytes⟩ := h.bytes
  have hlt := h.unwrapped.recSize_lt
  rw [images_append, images] at hbytes
  have himage := hbytes.back.front
  rw [images_length] at himage
  have hload := himage.load_alias hi (image_length _ _ _).symm
  rw [recordSize, sizeof, Nat.add_comm, load_add, show 8 = 4 + 4 from rfl, load_add,
    image] at hload
  obtain ⟨hheader, hdata⟩ := List.append_inj hload (by simp)
  obtain ⟨hsz, hprev⟩ := List.append_inj hheader (by simp)
  have hrec : s.recordSizeAt i = recSize p := by
    rw [ShmBufferExData.recordSizeAt, h.bufferSize_eq, hsz, ofLe_le32 hlt]
  refine ⟨hrec, fun ha => ?_, ?_, ?_⟩
  · rw [ShmBufferExData.prevSizeAt, h.bufferSize_eq, hprev, lastSize_of_ne_nil ha prev 0,
      ofLe_le32 (unwrapped_append.mp h.unwrapped).1.lastSize_lt]
  · rw [ShmBufferExData.dataSizeAt, hrec, recSize, recordSize]
    rw [recSize, recordSize, sizeof] at hlt
    simp only [sizeof, subU64, u32]
    omega
  · rw [ShmBufferExData.dataAt, h.bufferSize_eq]
    exact hdata

theorem first_record (h : LaidOut size s pos (p :: q)) :
    s.recordSizeAt s.head = recSize p ∧ s.dataSizeAt s.head = p.length ∧
      s.dataAt s.head p.length = p := by
  obtain ⟨hrec, -, hdata⟩ := h.record_at (a := []) rfl (i := s.head) (by simpa using h.head.mod)
  exact ⟨hrec, hdata⟩

theorem head_add_lt (h : LaidOut size s pos (p :: q)) : s.head + recSize p < 2 ^ 32 := by
  have hmod := h.head.mod
  rw [Nat.mod_eq_of_lt h.head.lt] at hmod
  rw [hmod]
  exact h.unwrapped.1

theorem discard (h : LaidOut size s pos (p :: q)) :
    LaidOut size (s.discard (recSize p)) (pos + recSize p) q := by
  have hfits := h.fits
  have hsize := h.size_lt
  have hlt := h.head.lt
  have hle := h.head_le
  have hlen := h.length_lt
  have hbuf := h.bufferSize_eq
  rw [total_cons] at hfits
  rw [List.length_cons] at hlen
  have hend : pos + total recSize (p :: q) = pos + recSize p + total recSize q := by
    rw [total_cons, Nat.add_assoc]
  have hu : u32 (s.head + recSize p) = s.head + recSize p := u32_of_lt h.head_add_lt
  have hadv := h.head.advance (n := recSize p) (by omega)
  simp only [ShmBufferExData.discard, ShmBufferExData.freeHead, hu, hbuf]
  obtain ⟨hcursor, hlap⟩ := lap_advance (c := size ≤ s.head + recSize p) hle id
  refine ⟨rfl, hsize, by omega, h.unwrapped.2, hadv, hcursor, ?_, hend ▸ h.tail,
    hend ▸ h.tail_le, hend ▸ h.tailOffset_eq, ?_, ?_, ?_⟩
  · rw [← hlap, ← h.headOffset_eq]
  · obtain ⟨prev, -, hbytes⟩ := h.bytes
    rw [images] at hbytes
    have hback := hbytes.back
    rw [image_length] at hback
    exact ⟨recSize p, h.unwrapped.recSize_lt (a := []), hback⟩
  · change subU64 s.count 1 = q.length
    rw [h.count_eq, List.length_cons, subU64_of_le (by omega) (by omega)]
    omega
  · intro hne
    have hlast := h.last_eq (List.cons_ne_nil p q)
    rw [lastSize, lastSize_of_ne_nil hne _ 0] at hlast
    exact hlast

theorem delete (h : LaidOut size s pos (p :: q)) :
    LaidOut size { s.freeHead (recSize p) with count := subU64 s.count 1 }
      (pos + recSize p) q := by
  have hd := h.discard
  exact ⟨hd.bufferSize_eq, hd.size_lt, hd.fits, hd.unwrapped, hd.head, hd.head_le,
    hd.headOffset_eq, hd.tail, hd.tail_le, hd.tailOffset_eq, hd.bytes, hd.count_eq, hd.last_eq⟩

theorem dropNewRecord (h : LaidOut size s pos q) (n : Nat) :
    LaidOut size (s.dropNewRecord n) pos q :=
  ⟨h.bufferSize_eq, h.size_lt, h.fits, h.unwrapped, h.head, h.head_le, h.headOffset_eq, h.tail,
    h.tail_le, h.tailOffset_eq, h.bytes, h.count_eq, h.last_eq⟩

theorem setOverflovBehavior (h : LaidOut size s pos q) (d : OnOverflov) (dropIsOk : Bool) :
    LaidOut size (s.setOverflovBehavior d dropIsOk) pos q :=
  ⟨h.bufferSize_eq, h.size_lt, h.fits, h.unwrapped, h.head, h.head_le, h.headOffset_eq, h.tail,
    h.tail_le, h.tailOffset_eq, h.bytes, h.count_eq, h.last_eq⟩

theorem setReader (h : LaidOut size s pos q) (reader : Fin maxReaderCount → ReaderInfo) :
    LaidOut size { s with reader := reader } pos q :=
  ⟨h.bufferSize_eq, h.size_lt, h.fits, h.unwrapped, h.head, h.head_le, h.headOffset_eq, h.tail,
    h.tail_le, h.tailOffset_eq, h.bytes, h.count_eq, h.last_eq⟩

theorem storeRecord (h : LaidOut size s pos q) (chunks : ShmChunks)
    (hfit : total recSize q + recSize chunks.payload ≤ size - 1)
    (hlt : s.tail + recSize chunks.payload < 2 ^ 32) :
    LaidOut size (s.storeRecord chunks (recSize chunks.payload)) pos
      (q ++ [chunks.payload]) := by
  have hfits := h.fits
  have hsize := h.size_lt
  have hle := h.tail.le
  have htle := h.tail_le
  have hlen := length_le_total recSize recSize_pos q
  have hpos := recSize_pos chunks.payload
  have hbuf := h.bufferSize_eq
  have hend : pos + total recSize q + recSize chunks.payload =
      pos + total recSize (q ++ [chunks.payload]) := by
    simp [Nat.add_assoc]
  have hu : u32 (s.tail + recSize chunks.payload) = s.tail + recSize chunks.payload :=
    u32_of_lt hlt
  have hadv := h.tail.advance (n := recSize chunks.payload) (by omega)
  rw [hend] at hadv
  simp only [ShmBufferExData.storeRecord, ShmBufferExData.commit, ShmChunks.writeTo_eq, hu, hbuf]
  obtain ⟨hcursor, hlap⟩ :=
    lap_advance (c := size < s.tail + recSize chunks.payload) htle Nat.le_of_lt
  refine ⟨rfl, hsize, by simp; omega, ?_, h.head, h.head_le, h.headOffset_eq, hadv, ?_, ?_, ?_, ?_,
    ?_⟩
  · have hmod : (pos + total recSize q) % size ≤ s.tail := by
      rw [← h.tail.mod]
      exact Nat.mod_le _ _
    exact unwrapped_append.mpr ⟨h.unwrapped, by omega, trivial⟩
  · rw [← hend]
    exact hcursor
  · rw [← hend, ← hlap, ← h.tailOffset_eq]
  · -- the stored back link is the size of the record before, 0 in front
    have hlink : ∃ prev < 2 ^ 32, Holds size s.circularData pos (images prev q) ∧
        (if s.count = 0 then 0 else s.lastRecordSize) = lastSize prev q := by
      rcases eq_or_ne q [] with rfl | hne
      · exact ⟨0, by decide, .empty _ _, by rw [if_pos (by rw [h.count_eq]; rfl)]; rfl⟩
      · obtain ⟨prev, hprev, hbytes⟩ := h.bytes
        have hcount : s.count ≠ 0 := fun hc => hne (h.count_eq_zero_iff.mp hc)
        exact ⟨prev, hprev, hbytes, by rw [if_neg hcount, h.last_eq hne, lastSize_of_ne_nil hne]⟩
    obtain ⟨prev, hprev, hbytes, hlast⟩ := hlink
    have happ := hbytes.append (image (recSize chunks.payload) (lastSize prev q) chunks.payload)
      (by rw [images_length, image_length]; change _ + recSize _ ≤ _; omega)
    rw [images_length, ← store_alias _ h.tail.mod, image, store_append, store_append] at happ
    refine ⟨prev, hprev, ?_⟩
    rw [images_append, images, images, List.append_nil, hlast]
    exact happ
  · change u64 (s.count + 1) = (q ++ [chunks.payload]).length
    rw [h.count_eq, List.length_append, u64_of_lt (by omega)]
    rfl
  · intro _
    exact (lastSize_append_one 0 q chunks.payload).symm

end LaidOut

def discardAll (s : ShmBufferExData) (dropped : List Payload) : ShmBufferExData :=
  dropped.foldl (fun s p => s.discard (recSize p)) s

@[simp] theorem discardAll_nil (s : ShmBufferExData) : discardAll s [] = s := rfl

@[simp] theorem discardAll_cons (s : ShmBufferExData) (p : Payload) (dropped : List Payload) :
    discardAll s (p :: dropped) = discardAll (s.discard (recSize p)) dropped := rfl

/-- What a single drop leaves alone, any number of them does. -/
theorem discardAll_frame {β : Type} (f : ShmBufferExData → β)
    (hf : ∀ s size, f (ShmBufferExData.discard s size) = f s) (s : ShmBufferExData)
    (dropped : List Payload) : f (discardAll s dropped) = f s := by
  induction dropped generalizing s with
  | nil => rfl
  | cons p dropped ih => rw [discardAll_cons, ih, hf]

@[simp] theorem discardAll_onOverflow (s : ShmBufferExData) (dropped : List Payload) :
    (discardAll s dropped).onOverflow = s.onOverflow :=
  discardAll_frame ShmBufferExData.onOverflow (fun _ _ => rfl) s dropped

@[simp] theorem discardAll_reader (s : ShmBufferExData) (dropped : List Payload) :
    (discardAll s dropped).reader = s.reader :=
  discardAll_frame ShmBufferExData.reader (fun _ _ => rfl) s dropped

@[simp] theorem discardAll_totalCount (s : ShmBufferExData) (dropped : List Payload) :
    (discardAll s dropped).totalCount = s.totalCount :=
  discardAll_frame ShmBufferExData.totalCount (fun _ _ => rfl) s dropped

@[simp] theorem discardAll_tail (s : ShmBufferExData) (dropped : List Payload) :
    (discardAll s dropped).tail = s.tail :=
  discardAll_frame ShmBufferExData.tail (fun _ _ => rfl) s dropped

@[simp] theorem discardAll_tailOffset (s : ShmBufferExData) (dropped : List Payload) :
    (discardAll s dropped).tailOffset = s.tailOffset :=
  discardAll_frame ShmBufferExData.tailOffset (fun _ _ => rfl) s dropped

@[simp] theorem storeRecord_totalCount (s : ShmBufferExData) (chunks : ShmChunks) (n : Nat) :
    (s.storeRecord chunks n).totalCount = u64 (s.totalCount + 1) := rfl

@[simp] theorem storeRecord_onOverflow (s : ShmBufferExData) (chunks : ShmChunks) (n : Nat) :
    (s.storeRecord chunks n).onOverflow = s.onOverflow := rfl

@[simp] theorem storeRecord_reader (s : ShmBufferExData) (chunks : ShmChunks) (n : Nat) :
    (s.storeRecord chunks n).reader = s.reader := rfl

/-- What becomes of a new payload, and of how many of the oldest records. -/
inductive Verdict
  | accepted (evicted : Nat)
  | ignored
  | refused
  deriving DecidableEq

def verdict (cap : Nat) (mode : OnOverflov) (live : List Payload) (p : Payload) : Verdict :=
  if total recSize live + recSize p ≤ cap then .accepted 0
  else
    match mode with
    | .returnError => .refused
    | .dropNew => .ignored
    | .dropOld => .accepted (evictions recSize cap (recSize p) live)

theorem evicted_le {cap : Nat} {mode : OnOverflov} {live : List Payload} {p : Payload} {k : Nat}
    (h : verdict cap mode live p = .accepted k) : k ≤ live.length := by
  unfold verdict at h
  split at h
  · rw [← Verdict.accepted.inj h]
    exact Nat.zero_le _
  · cases mode with
    | dropNew => exact absurd h (by simp)
    | returnError => exact absurd h (by simp)
    | dropOld =>
      rw [← Verdict.accepted.inj h]
      exact evictions_le _ _ _ _

def Stores (s : ShmBufferExData) (n : Nat) : Prop :=
  n ≠ 0 ∧ (s.freeSize < n → s.onOverflow = .dropOld)

theorem push_not_stored {s : ShmBufferExData} {chunks : ShmChunks} {n : Nat}
    (hn : u32 (recordSize chunks.size) = n) (h : ¬ Stores s n) :
    ∃ ok s', s.push chunks = some (ok, s') ∧ (s' = s ∨ s' = s.dropNewRecord n) := by
  rw [ShmBufferExData.push, hn]
  by_cases hzero : n = 0
  · exact ⟨true, s, if_pos hzero, .inl rfl⟩
  · simp only [Stores, Classical.not_and_iff_not_or_not, Classical.not_imp, not_not] at h
    obtain ⟨hfree, hmode⟩ := h.resolve_left hzero
    simp only [if_neg hzero, if_pos hfree]
    cases hover : s.onOverflow with
    | returnError => exact ⟨false, s, rfl, .inl rfl⟩
    | dropNew => exact ⟨true, s.dropNewRecord n, rfl, .inr rfl⟩
    | dropOld => exact absurd hover hmode

namespace LaidOut

variable {size pos : Nat} {s : ShmBufferExData} {q : List Payload} {p : Payload}

theorem dropLoop (h : LaidOut size s pos q) {need : Nat} (hneed : need ≤ size - 1)
    {rounds : Nat} (hrounds : q.length < rounds) :
    ShmBufferExData.dropLoop need rounds s =
        some (true, discardAll s (q.take (evictions recSize (size - 1) need q))) ∧
      LaidOut size (discardAll s (q.take (evictions recSize (size - 1) need q)))
        (pos + total recSize (q.take (evictions recSize (size - 1) need q)))
        (q.drop (evictions recSize (size - 1) need q)) := by
  induction q generalizing s pos rounds with
  | nil =>
    obtain ⟨rounds, rfl⟩ := Nat.exists_eq_add_one.mpr hrounds
    refine ⟨?_, by simpa [evictions] using h⟩
    rw [ShmBufferExData.dropLoop, if_neg]
    · rfl
    · rw [h.freeSize_lt_iff hneed]
      simpa using hneed
  | cons p q ih =>
    obtain ⟨rounds, rfl⟩ := Nat.exists_eq_add_one.mpr (Nat.zero_lt_of_lt hrounds)
    rw [ShmBufferExData.dropLoop]
    by_cases hfit : total recSize (p :: q) + need ≤ size - 1
    · rw [if_neg (by rw [h.freeSize_lt_iff hneed]; exact not_not.mpr hfit),
        evictions_eq_zero _ _ hfit]
      exact ⟨rfl, by simpa using h⟩
    · have hfirst := h.first_record.1
      have hrest := ih h.discard (Nat.lt_of_succ_lt_succ hrounds)
      rw [if_pos ((h.freeSize_lt_iff hneed).mpr hfit), evictions, if_neg hfit]
      simp only [ShmBufferExData.dropFirstRecord, h.peek_eq, hfirst, List.take_succ_cons,
        List.drop_succ_cons, discardAll_cons, total_cons, ← Nat.add_assoc]
      exact hrest

theorem without {a b : List Payload} (h : LaidOut size s pos (a ++ b)) :
    LaidOut size (discardAll s a) (pos + total recSize a) b := by
  induction a generalizing s pos with
  | nil => exact h
  | cons p a ih =>
    rw [discardAll_cons, total_cons, ← Nat.add_assoc]
    exact ih h.discard

theorem push_stored (h : LaidOut size s pos q) {chunks : ShmChunks} {n : Nat}
    (hn : u32 (recordSize chunks.size) = n) (hfit : n ≤ size - 1) (hstores : Stores s n) :
    s.push chunks = some (true,
        (discardAll s (q.take (evictions recSize (size - 1) n q))).storeRecord chunks n) ∧
      LaidOut size (discardAll s (q.take (evictions recSize (size - 1) n q)))
        (pos + total recSize (q.take (evictions recSize (size - 1) n q)))
        (q.drop (evictions recSize (size - 1) n q)) := by
  obtain ⟨hpos, hmode⟩ := hstores
  by_cases hfree : s.freeSize < n
  · have hrounds : q.length < s.count + 1 := by
      rw [h.count_eq]
      exact Nat.lt_succ_self _
    obtain ⟨hloop, hrest⟩ := h.dropLoop hfit hrounds
    have hdrop : s.dropFirstRecords n = _ := hloop
    refine ⟨?_, hrest⟩
    simp only [ShmBufferExData.push, hn, if_neg hpos, if_pos hfree]
    rw [hmode hfree, hdrop]
  · have hroom : total recSize q + n ≤ size - 1 := by
      rw [h.freeSize_lt_iff hfit] at hfree
      exact not_not.mp hfree
    rw [evictions_eq_zero _ _ hroom]
    refine ⟨?_, by simpa using h⟩
    simp only [ShmBufferExData.push, hn, if_neg hpos, if_neg hfree, List.take_zero, discardAll_nil]

theorem verdict_of_stores (h : LaidOut size s pos q) (hfit : recSize p ≤ size - 1)
    (hstores : Stores s (recSize p)) :
    verdict (size - 1) s.onOverflow q p =
      .accepted (evictions recSize (size - 1) (recSize p) q) := by
  by_cases hroom : total recSize q + recSize p ≤ size - 1
  · simp only [verdict, if_pos hroom, evictions_eq_zero _ _ hroom]
  · simp only [verdict, if_neg hroom, hstores.2 ((h.freeSize_lt_iff hfit).mpr hroom)]

theorem verdict_of_not_stores (h : LaidOut size s pos q) (hfit : recSize p ≤ size - 1)
    (hstores : ¬ Stores s (recSize p)) :
    s.freeSize < recSize p ∧
      (s.onOverflow = .dropNew ∧ verdict (size - 1) s.onOverflow q p = .ignored ∨
        s.onOverflow = .returnError ∧ verdict (size - 1) s.onOverflow q p = .refused) := by
  have hpos := recSize_pos p
  simp only [Stores, Classical.not_and_iff_not_or_not, Classical.not_imp, not_not] at hstores
  obtain ⟨hfree, hmode⟩ := hstores.resolve_left hpos.ne'
  simp only [verdict, if_neg ((h.freeSize_lt_iff hfit).mp hfree)]
  refine ⟨hfree, ?_⟩
  cases hover : s.onOverflow with
  | dropNew => exact .inl ⟨rfl, rfl⟩
  | returnError => exact .inr ⟨rfl, rfl⟩
  | dropOld => exact absurd hover hmode

/-- `Push` of a record that can fit does what the verdict says, if the tail does
not wrap on storing it. -/
theorem push (h : LaidOut size s pos q) (chunks : ShmChunks)
    (hfit : recSize chunks.payload ≤ size - 1) (hsmall : recSize chunks.payload < 2 ^ 32)
    (hlt : Stores s (recSize chunks.payload) → s.tail + recSize chunks.payload < 2 ^ 32) :
    match verdict (size - 1) s.onOverflow q chunks.payload with
    | .accepted k =>
      s.push chunks = some (true,
          (discardAll s (q.take k)).storeRecord chunks (recSize chunks.payload)) ∧
        LaidOut size ((discardAll s (q.take k)).storeRecord chunks (recSize chunks.payload))
          (pos + total recSize (q.take k)) (q.drop k ++ [chunks.payload])
    | .ignored => s.push chunks = some (true, s.dropNewRecord (recSize chunks.payload))
    | .refused => s.push chunks = some (false, s) := by
  have hpos := recSize_pos chunks.payload
  have hrec := recordSize_chunks hsmall
  by_cases hstores : Stores s (recSize chunks.payload)
  · obtain ⟨hpush, hrest⟩ := h.push_stored hrec hfit hstores
    rw [h.verdict_of_stores hfit hstores]
    refine ⟨hpush, hrest.storeRecord chunks (evictions_fit _ _ hfit q) ?_⟩
    rw [discardAll_tail]
    exact hlt hstores
  · obtain ⟨hfree, ⟨hmode, hv⟩ | ⟨hmode, hv⟩⟩ := h.verdict_of_not_stores hfit hstores
    all_goals
      rw [hv]
      simp only [ShmBufferExData.push, hrec, if_neg hpos.ne', if_pos hfree, hmode]

theorem pop_nil (h : LaidOut size s pos []) (maxSize : Nat) (deleteRecord : Bool) :
    s.pop maxSize deleteRecord = some (⟨false, 0, none⟩, s) := by
  rw [ShmBufferExData.pop, if_pos (by rw [h.count_eq]; rfl)]

theorem pop_cons (h : LaidOut size s pos (p :: q)) (maxSize : Nat) (deleteRecord : Bool) :
    s.pop maxSize deleteRecord = some (
      if maxSize < p.length then (⟨false, p.length, none⟩, s)
      else (⟨true, p.length, some p⟩,
        if deleteRecord then { s.freeHead (recSize p) with count := subU64 s.count 1 }
        else s)) := by
  obtain ⟨hrec, hsize, hdata⟩ := h.first_record
  have hcount : s.count ≠ 0 := by
    rw [h.count_eq]
    exact Nat.succ_ne_zero _
  rw [ShmBufferExData.pop, if_neg hcount]
  simp only [h.peek_eq, hrec, hsize, hdata]
  split <;> rfl

end LaidOut

structure Represents (size : Nat) (s : ShmBufferExData) (pos : Nat) (q : List Payload) :
    Prop where
  bufferSize_eq : s.bufferSize = size
  size_le : size ≤ 2 ^ 31
  fits : total recSize q < size
  head : HeadAt size s.head pos
  head_le : s.head ≤ pos
  headOffset_eq : s.headOffset = u64 (pos - s.head)
  tail : TailAt size s.tail (pos + total recSize q)
  tail_le : s.tail ≤ pos + total recSize q
  tailOffset_eq : s.tailOffset = u64 (pos + total recSize q - s.tail)
  bytes : ∃ prev < 2 ^ 32, Holds size s.circularData pos (images prev q)
  count_eq : s.count = q.length
  last_eq : q ≠ [] → s.lastRecordSize = lastSize 0 q

namespace Represents

variable {size pos : Nat} {s : ShmBufferExData} {q : List Payload} {p : Payload}

theorem laidOut (h : Represents size s pos q) : LaidOut size s pos q where
  bufferSize_eq := h.bufferSize_eq
  size_lt := Nat.lt_of_le_of_lt h.size_le (by decide)
  fits := h.fits
  unwrapped := unwrapped_of_le h.size_le h.fits
  head := h.head
  head_le := h.head_le
  headOffset_eq := h.headOffset_eq
  tail := h.tail
  tail_le := h.tail_le
  tailOffset_eq := h.tailOffset_eq
  bytes := h.bytes
  count_eq := h.count_eq
  last_eq := h.last_eq

theorem of_laidOut (h : LaidOut size s pos q) (hsize : size ≤ 2 ^ 31) :
    Represents size s pos q where
  bufferSize_eq := h.bufferSize_eq
  size_le := hsize
  fits := h.fits
  head := h.head
  head_le := h.head_le
  headOffset_eq := h.headOffset_eq
  tail := h.tail
  tail_le := h.tail_le
  tailOffset_eq := h.tailOffset_eq
  bytes := h.bytes
  count_eq := h.count_eq
  last_eq := h.last_eq

theorem init (raw : ShmBufferExData) (hpos : 0 < size) (hsize : size ≤ 2 ^ 31) :
    Represents size (raw.init (size + ShmBufferExData.sizeof)) 0 [] :=
  of_laidOut (.init raw hpos (Nat.lt_of_le_of_lt hsize (by decide))) hsize

theorem discard (h : Represents size s pos (p :: q)) :
    Represents size (s.discard (recSize p)) (pos + recSize p) q :=
  of_laidOut h.laidOut.discard h.size_le

theorem delete (h : Represents size s pos (p :: q)) :
    Represents size { s.freeHead (recSize p) with count := subU64 s.count 1 }
      (pos + recSize p) q :=
  of_laidOut h.laidOut.delete h.size_le

theorem dropNewRecord (h : Represents size s pos q) (n : Nat) :
    Represents size (s.dropNewRecord n) pos q :=
  of_laidOut (h.laidOut.dropNewRecord n) h.size_le

theorem setOverflovBehavior (h : Represents size s pos q) (d : OnOverflov) (dropIsOk : Bool) :
    Represents size (s.setOverflovBehavior d dropIsOk) pos q :=
  of_laidOut (h.laidOut.setOverflovBehavior d dropIsOk) h.size_le

theorem setReader (h : Represents size s pos q) (reader : Fin maxReaderCount → ReaderInfo) :
    Represents size { s with reader := reader } pos q :=
  of_laidOut (h.laidOut.setReader reader) h.size_le

theorem dropLoop (h : Represents size s pos q) {need : Nat} (hneed : need ≤ size - 1)
    {rounds : Nat} (hrounds : q.length < rounds) :
    ShmBufferExData.dropLoop need rounds s =
        some (true, discardAll s (q.take (evictions recSize (size - 1) need q))) ∧
      Represents size (discardAll s (q.take (evictions recSize (size - 1) need q)))
        (pos + total recSize (q.take (evictions recSize (size - 1) need q)))
        (q.drop (evictions recSize (size - 1) need q)) := by
  obtain ⟨hloop, hrest⟩ := h.laidOut.dropLoop hneed hrounds
  exact ⟨hloop, of_laidOut hrest h.size_le⟩

theorem push (h : Represents size s pos q) (chunks : ShmChunks)
    (hfit : recSize chunks.payload ≤ size - 1) :
    match verdict (size - 1) s.onOverflow q chunks.payload with
    | .accepted k =>
      s.push chunks = some (true,
          (discardAll s (q.take k)).storeRecord chunks (recSize chunks.payload)) ∧
        Represents size ((discardAll s (q.take k)).storeRecord chunks (recSize chunks.payload))
          (pos + total recSize (q.take k)) (q.drop k ++ [chunks.payload])
    | .ignored => s.push chunks = some (true, s.dropNewRecord (recSize chunks.payload))
    | .refused => s.push chunks = some (false, s) := by
  have hsize := h.size_le
  have hle := h.tail.le
  have hpush := h.laidOut.push chunks hfit (by omega) fun _ => by omega
  cases hv : verdict (size - 1) s.onOverflow q chunks.payload with
  | accepted k =>
    rw [hv] at hpush
    exact ⟨hpush.1, of_laidOut hpush.2 hsize⟩
  | ignored =>
    rw [hv] at hpush
    exact hpush
  | refused =>
    rw [hv] at hpush
    exact hpush

theorem push_ignored (h : Represents size s pos q) (chunks : ShmChunks)
    (hfit : recSize chunks.payload ≤ size - 1)
    (hv : verdict (size - 1) s.onOverflow q chunks.payload = .ignored) :
    s.push chunks = some (true, s.dropNewRecord (recSize chunks.payload)) := by
  have hpush := h.push chunks hfit
  rw [hv] at hpush
  exact hpush

end Represents

end HiloUtils.RecordQueue
