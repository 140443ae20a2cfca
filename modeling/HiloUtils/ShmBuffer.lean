import HiloUtils.Word
import HiloUtils.Run
import HiloUtils.MirrorRing

/-! The byte buffer `ShmBufferData` over a mirrored ring. Its head wraps when it
reaches the end of the ring, its tail only when it passes it, so a write that
ends exactly there leaves the tail at `size`. -/

namespace HiloUtils.ShmBuffer

open Word MirrorRing

def memPageSize : Nat := 4096

/-- The header is padded to one page; the ring follows it. -/
def sizeofShmBufferData : Nat := memPageSize

/-- `circularData` holds the `size` physical bytes; an index of the mirrored
mapping is reduced by `MirrorRing.load` and `MirrorRing.store`. -/
structure ShmBufferData where
  size : Nat
  head : Nat
  tail : Nat
  circularData : Nat → UInt8

namespace ShmBufferData

def init (b : ShmBufferData) (size : Nat) : ShmBufferData :=
  { b with size := subU64 size sizeofShmBufferData, head := 0, tail := 0 }

def capacity (b : ShmBufferData) : Nat := subU64 b.size 1

def dataSize (b : ShmBufferData) : Nat :=
  if b.head ≤ b.tail then b.tail - b.head else subU64 b.size (b.head - b.tail)

def freeSize (b : ShmBufferData) : Nat := subU64 b.capacity b.dataSize

def isEmpty (b : ShmBufferData) : Bool := b.head == b.tail

def free (b : ShmBufferData) (size : Nat) : ShmBufferData :=
  let head := u32 (b.head + size)
  { b with head := if b.size ≤ head then head - b.size else head }

def write (b : ShmBufferData) (d : List UInt8) : Bool × ShmBufferData :=
  if b.freeSize < d.length then (false, b)
  else
    let tail := u32 (b.tail + d.length)
    (true, { b with
      circularData := store b.size b.circularData b.tail d
      tail := if b.size < tail then tail - b.size else tail })

def read (b : ShmBufferData) (dataSize : Nat) : List UInt8 × ShmBufferData :=
  let readSize := min dataSize b.dataSize
  (load b.size b.circularData b.head readSize, b.free readSize)

end ShmBufferData

inductive Op
  | write (d : List UInt8)
  | read (n : Nat)
  | free (n : Nat)

inductive Out
  | wrote (ok : Bool)
  | got (bytes : List UInt8)
  | freed
  deriving DecidableEq

def step (b : ShmBufferData) : Op → Option (Out × ShmBufferData)
  | .write d => some (.wrote (b.write d).1, (b.write d).2)
  | .read n => some (.got (b.read n).1, (b.read n).2)
  | .free n => some (.freed, b.free n)

/-- What the buffer is for: a first-in first-out byte list of bounded length. -/
def spec (capacity : Nat) (q : List UInt8) : Op → Out × List UInt8
  | .write d =>
    if q.length + d.length ≤ capacity then (.wrote true, q ++ d) else (.wrote false, q)
  | .read n => (.got (q.take n), q.drop n)
  | .free n => (.freed, q.drop n)

def FreeFits (b : ShmBufferData) : Op → Prop
  | .free n => n ≤ b.dataSize
  | _ => True

/-- Besides, no step takes the last byte while the tail rests at the end. -/
def NotDrainedAtEnd (b : ShmBufferData) : Op → Prop
  | .write _ => True
  | .read n => b.tail = b.size → n < b.dataSize
  | .free n => n ≤ b.dataSize ∧ (b.tail = b.size → n < b.dataSize)

/-- `q` is the unread data and `pos` the number of bytes ever removed. -/
structure Represents (size : Nat) (b : ShmBufferData) (pos : Nat) (q : List UInt8) : Prop where
  size_eq : b.size = size
  size_le : size ≤ 2 ^ 31
  fits : q.length < size
  head : HeadAt size b.head pos
  tail : TailAt size b.tail (pos + q.length)
  bytes : Holds size b.circularData pos q
  aligned : q = [] → b.head = b.tail

namespace Represents

variable {size pos : Nat} {b : ShmBufferData} {q : List UInt8}

theorem dataSize_eq (h : Represents size b pos q) : b.dataSize = q.length := by
  have hlt := h.head.lt
  have hle := h.tail.le
  have hsize := h.size_le
  simp only [ShmBufferData.dataSize, h.size_eq, subU64]
  rcases cursors h.head h.tail h.fits with hc | hc | ⟨hq, hhead, htail⟩
  · rw [if_pos hc.1, hc.2]
  · rw [if_neg (by omega)]
    omega
  · have := h.aligned (List.length_eq_zero_iff.mp hq)
    omega

theorem freeSize_eq (h : Represents size b pos q) : b.freeSize = size - 1 - q.length := by
  have hsize := h.size_le
  have hfits := h.fits
  simp only [ShmBufferData.freeSize, ShmBufferData.capacity, h.dataSize_eq, h.size_eq, subU64]
  omega

theorem isEmpty_iff (h : Represents size b pos q) : b.isEmpty = true ↔ q = [] := by
  simp only [ShmBufferData.isEmpty, beq_iff_eq]
  refine ⟨fun heq => ?_, h.aligned⟩
  have hd := h.dataSize_eq
  rw [ShmBufferData.dataSize, if_pos heq.le, heq, Nat.sub_self] at hd
  exact List.length_eq_zero_iff.mp hd.symm

theorem init (raw : ShmBufferData) (hpos : 0 < size) (hsize : size ≤ 2 ^ 31) :
    Represents size (raw.init (size + sizeofShmBufferData)) 0 [] where
  size_eq := by
    simp only [ShmBufferData.init, subU64, sizeofShmBufferData, memPageSize]
    omega
  size_le := hsize
  fits := hpos
  head := ⟨hpos, rfl⟩
  tail := ⟨Nat.zero_le _, rfl⟩
  bytes := .empty _ _
  aligned _ := rfl

theorem write_accept (h : Represents size b pos q) {d : List UInt8}
    (hfit : q.length + d.length ≤ size - 1) :
    (b.write d).1 = true ∧ Represents size (b.write d).2 pos (q ++ d) := by
  have hsize := h.size_le
  have hfits := h.fits
  have hle := h.tail.le
  have hroom : ¬ b.freeSize < d.length := by
    rw [h.freeSize_eq]
    omega
  have hu : u32 (b.tail + d.length) = b.tail + d.length := u32_of_lt (by omega)
  have htail := h.tail.advance (n := d.length) (by omega)
  rw [Nat.add_assoc, ← List.length_append] at htail
  refine ⟨by simp only [ShmBufferData.write, if_neg hroom], ?_⟩
  simp only [ShmBufferData.write, if_neg hroom, hu, h.size_eq]
  refine ⟨rfl, hsize, by rw [List.length_append]; omega, h.head, htail, ?_, ?_⟩
  · have hb := h.bytes.append d (by omega)
    rwa [← store_alias _ h.tail.mod] at hb
  · intro hnil
    obtain ⟨rfl, rfl⟩ := List.append_eq_nil_iff.mp hnil
    have heq := h.aligned rfl
    have hlt := h.head.lt
    change b.head = _
    rw [List.length_nil, Nat.add_zero, if_neg (by omega)]
    exact heq

theorem write_reject (h : Represents size b pos q) {d : List UInt8}
    (hfull : ¬ q.length + d.length ≤ size - 1) : b.write d = (false, b) := by
  have hfits := h.fits
  rw [ShmBufferData.write, if_pos]
  rw [h.freeSize_eq]
  omega

theorem free (h : Represents size b pos q) {n : Nat} (hn : n ≤ q.length)
    (hend : b.tail = size → n < q.length) :
    Represents size (b.free n) (pos + n) (q.drop n) := by
  have hsize := h.size_le
  have hfits := h.fits
  have hlt := h.head.lt
  have hu : u32 (b.head + n) = b.head + n := u32_of_lt (by omega)
  have hsplit : pos + q.length = pos + n + (q.drop n).length := by
    rw [List.length_drop]
    omega
  have hhead := h.head.advance (n := n) (by omega)
  simp only [ShmBufferData.free, hu, h.size_eq]
  refine ⟨rfl, hsize, by rw [List.length_drop]; omega, hhead, hsplit ▸ h.tail, ?_, ?_⟩
  · have hb := h.bytes
    rw [← List.take_append_drop n q] at hb
    have := hb.back
    rwa [List.length_take, min_eq_left hn] at this
  · intro hnil
    have hlen : q.length ≤ n := List.drop_eq_nil_iff.mp hnil
    rw [hnil] at hsplit
    have htail : TailAt size b.tail (pos + n + 0) := by
      simpa [hsplit] using h.tail
    change (if size ≤ b.head + n then b.head + n - size else b.head + n) = b.tail
    generalize (if size ≤ b.head + n then b.head + n - size else b.head + n) = head at hhead ⊢
    -- the drained cursors meet because the tail is not at the end of the ring
    rcases cursors hhead htail (by omega) with hc | hc | hc
    · omega
    · have := hhead.lt
      omega
    · have := hend hc.2.2
      omega

theorem read (h : Represents size b pos q) {n : Nat} (hend : b.tail = size → n < q.length) :
    (b.read n).1 = q.take n ∧
      Represents size (b.read n).2 (pos + min n q.length) (q.drop n) := by
  have hmin : min n b.dataSize = min n q.length := by rw [h.dataSize_eq]
  have hdrop : q.drop n = q.drop (min n q.length) := by
    rcases Nat.le_total n q.length with hle | hle
    · rw [min_eq_left hle]
    · rw [min_eq_right hle, List.drop_of_length_le hle, List.drop_length]
  refine ⟨?_, ?_⟩
  · have hb := h.bytes
    rw [← List.take_append_drop n q] at hb
    simp only [ShmBufferData.read, hmin, h.size_eq]
    exact hb.front.load_alias h.head.mod (by rw [List.length_take])
  · simp only [ShmBufferData.read, hmin, hdrop]
    exact h.free (by omega) (fun hb => by have := hend hb; omega)

theorem step (h : Represents size b pos q) (i : Op) (hok : NotDrainedAtEnd b i) :
    ∃ b', ShmBuffer.step b i = some ((spec (size - 1) q i).1, b') ∧
      ∃ pos', Represents size b' pos' (spec (size - 1) q i).2 := by
  cases i with
  | write d =>
    by_cases hfit : q.length + d.length ≤ size - 1
    · obtain ⟨hout, hrep⟩ := h.write_accept hfit
      refine ⟨_, by rw [ShmBuffer.step, hout, spec, if_pos hfit], pos, ?_⟩
      rwa [spec, if_pos hfit]
    · refine ⟨_, by rw [ShmBuffer.step, h.write_reject hfit, spec, if_neg hfit], pos, ?_⟩
      rwa [spec, if_neg hfit]
  | read n =>
    rw [NotDrainedAtEnd, h.size_eq, h.dataSize_eq] at hok
    obtain ⟨hout, hrep⟩ := h.read hok
    exact ⟨_, by rw [ShmBuffer.step, hout]; rfl, _, hrep⟩
  | free n =>
    rw [NotDrainedAtEnd, h.size_eq, h.dataSize_eq] at hok
    exact ⟨_, rfl, _, h.free hok.1 hok.2⟩

end Represents

/-- In every run that never drains the ring while the tail rests at its end,
the buffer is the bounded byte list and its getters describe that list. -/
theorem run_refines_bytes (raw : ShmBufferData) (size : Nat)
    (hpos : 0 < size) (hsize : size ≤ 2 ^ 31) {trace : List (Op × Out)} {b : ShmBufferData}
    (run : Run step NotDrainedAtEnd (raw.init (size + sizeofShmBufferData)) trace b) :
    trace.map Prod.snd = (exec (spec (size - 1)) [] (trace.map Prod.fst)).1 ∧
      b.dataSize = (exec (spec (size - 1)) [] (trace.map Prod.fst)).2.length ∧
      b.freeSize = size - 1 - (exec (spec (size - 1)) [] (trace.map Prod.fst)).2.length ∧
      (b.isEmpty = true ↔ (exec (spec (size - 1)) [] (trace.map Prod.fst)).2 = []) := by
  obtain ⟨houts, pos, hrep⟩ := run.refines (R := fun b q => ∃ pos, Represents size b pos q)
    ⟨0, Represents.init raw hpos hsize⟩ fun _ _ i ⟨_, h⟩ hok => h.step i hok
  exact ⟨houts, hrep.dataSize_eq, hrep.freeSize_eq, hrep.isEmpty_iff⟩

/-- Why the condition is needed: draining at the end of the ring leaves the
head at its beginning, and the whole ring then counts as unread. -/
theorem Represents.drained_at_end {size pos : Nat} {b : ShmBufferData} {q : List UInt8}
    (h : Represents size b pos q) (hend : b.tail = size) {n : Nat} (hn : q.length ≤ n) :
    (b.read n).2.dataSize = size := by
  have hsize := h.size_le
  have hlt := h.head.lt
  have hd := h.dataSize_eq
  have hle : b.head ≤ b.tail := by omega
  rw [ShmBufferData.dataSize, if_pos hle] at hd
  have hmin : min n b.dataSize = size - b.head := by
    rw [h.dataSize_eq]
    omega
  have hu : u32 (b.head + (size - b.head)) = size := by
    rw [Nat.add_sub_cancel' (by omega)]
    exact u32_of_lt (by omega)
  simp only [ShmBufferData.read, hmin, ShmBufferData.free, hu, h.size_eq]
  simp [ShmBufferData.dataSize, hend]

def emptyPage : ShmBufferData := ⟨0, 0, 0, fun _ => 0⟩

/-- A write that ends at the end of the ring, drained: nothing is left to read,
but the buffer reports 4096 bytes. -/
theorem run_drained_at_end_misreports :
    ¬ ∀ (raw : ShmBufferData) (size : Nat) (trace : List (Op × Out)) (b : ShmBufferData),
      memPageSize ∣ size → 0 < size → size ≤ 2 ^ 31 →
      Run step FreeFits (raw.init (size + sizeofShmBufferData)) trace b →
      b.dataSize = (exec (spec (size - 1)) [] (trace.map Prod.fst)).2.length := by
  intro hall
  obtain ⟨d, hd⟩ : ∃ d : List UInt8, d.length = 96 := ⟨List.replicate 96 0, List.length_replicate⟩
  obtain ⟨e, he⟩ : ∃ e : List UInt8, e.length = 4000 :=
    ⟨List.replicate 4000 0, List.length_replicate⟩
  have run : Run step FreeFits (emptyPage.init (4096 + sizeofShmBufferData)) _ _ :=
    .next (i := Op.read 4000) (.next (i := Op.write e) (.next (i := Op.read 96)
      (.next (i := Op.write d) .start trivial rfl) trivial rfl) trivial rfl) trivial rfl
  have hsize := hall _ _ _ _ (dvd_refl _) (by decide) (by decide) run
  revert hsize
  simp [exec, spec, hd, he, emptyPage, ShmBufferData.init, ShmBufferData.write,
    ShmBufferData.read, ShmBufferData.free, ShmBufferData.dataSize, ShmBufferData.freeSize,
    ShmBufferData.capacity, subU64, u32, sizeofShmBufferData, memPageSize]

theorem run_refines_bytes_short :
    ∃ trace b, trace.map Prod.fst = [.write [1, 2, 3], .read 2] ∧
      Run step NotDrainedAtEnd (emptyPage.init (4096 + sizeofShmBufferData)) trace b ∧
      trace.map Prod.snd = [.wrote true, .got [1, 2]] ∧ b.dataSize = 1 := by
  have run : Run step NotDrainedAtEnd (emptyPage.init (4096 + sizeofShmBufferData)) _ _ :=
    .next (i := Op.read 2) (.next (i := Op.write [1, 2, 3]) .start trivial rfl)
      (fun h => absurd h (by decide)) rfl
  obtain ⟨houts, hsize, -⟩ := run_refines_bytes emptyPage 4096 (by decide) (by decide) run
  exact ⟨_, _, rfl, run, houts.trans (by decide), hsize.trans (by decide)⟩

end HiloUtils.ShmBuffer
