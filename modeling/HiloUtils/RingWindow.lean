import HiloUtils.RingAccess
import HiloUtils.Readers

/-! Where the accesses of the queue fall. Live records lie within one lap from
the head and a new one within one lap from the tail, so no access passes the
end of the second mapping, and a new record shares no cell with a live one. -/

namespace HiloUtils.RingWindow

open Word MirrorRing BoundedFifo RecordQueue MessageQueue MessageStream StreamPosition Readers
open ShmBufferExData (sizeBytes dataBytes dropLoopReads)

variable {size pos : Nat} {s : ShmBufferExData} {q a b : List Payload} {p : Payload}

theorem sizeBytes_within (i : Nat) (p : Payload) : (sizeBytes i).Within i (recSize p) := by
  rintro j ⟨hl, hu⟩
  change i ≤ j at hl
  change j < i + 4 at hu
  rw [recSize, ShmBufferRecord.recordSize, ShmBufferRecord.sizeof]
  omega

theorem dataBytes_within (i : Nat) (p : Payload) :
    (dataBytes i p.length).Within i (recSize p) := by
  rintro j ⟨hl, hu⟩
  change i + 8 ≤ j at hl
  change j < i + 8 + p.length at hu
  rw [recSize, ShmBufferRecord.recordSize, ShmBufferRecord.sizeof]
  omega

theorem getRecord_add_le (h : Represents size s pos (a ++ p :: b)) :
    s.getRecord (i64 (pos + total recSize a : Nat)) + recSize p ≤ 2 * size := by
  have hfits := h.fits
  have hlt := h.head.lt
  rw [total_append, total_cons] at hfits
  rw [getRecord_eq h (Nat.le_add_right _ _) (by rw [total_append]; omega)]
  omega

theorem getNextVptrReads_within (s : ShmBufferExData) (v : Int) (p : Payload) :
    ∀ e ∈ s.getNextVptrReads v, e.Within (s.getRecord v) (recSize p) := by
  intro e he
  rw [ShmBufferExData.getNextVptrReads] at he
  split at he
  · exact absurd he List.not_mem_nil
  · split at he
    · exact absurd he List.not_mem_nil
    · rw [List.mem_singleton.mp he]
      exact sizeBytes_within _ p

theorem fetchReads_within (h : Represents size s pos (a ++ p :: b)) (maxSize : Nat) :
    ∀ e ∈ s.fetchReads (i64 (pos + total recSize a : Nat)) maxSize,
      e.Within (s.getRecord (i64 (pos + total recSize a : Nat))) (recSize p) := by
  obtain ⟨-, -, hsize, -⟩ := record_at_vptr h
  intro e he
  rw [ShmBufferExData.fetchReads, hsize] at he
  rcases List.mem_append.mp he with he | he
  · split at he
    · rw [List.mem_singleton.mp he]
      exact sizeBytes_within _ p
    · rcases List.mem_cons.mp he with rfl | he
      · exact sizeBytes_within _ p
      · rw [List.mem_singleton.mp he]
        exact dataBytes_within _ p
  · exact getNextVptrReads_within s _ p e he

theorem fetchReads_below (h : Represents size s pos (a ++ p :: b)) (maxSize : Nat) :
    ∀ e ∈ s.fetchReads (i64 (pos + total recSize a : Nat)) maxSize, e.Below (2 * size) :=
  fun e he => (fetchReads_within h maxSize e he).below (getRecord_add_le h)

theorem head_add_le (h : Represents size s pos (p :: q)) : s.head + recSize p ≤ 2 * size := by
  have hfits := h.fits
  have hlt := h.head.lt
  rw [total_cons] at hfits
  omega

theorem popReads_below (h : Represents size s pos q) (maxSize : Nat) (deleteRecord : Bool) :
    ∀ e ∈ s.popReads maxSize deleteRecord, e.Below (2 * size) := by
  intro e he
  cases q with
  | nil =>
    rw [ShmBufferExData.popReads, if_pos (h.laidOut.count_eq_zero_iff.mpr rfl)] at he
    exact absurd he List.not_mem_nil
  | cons p q =>
    have hcount : s.count ≠ 0 := by
      rw [h.count_eq]
      exact Nat.succ_ne_zero _
    obtain ⟨-, hsize, -⟩ := h.laidOut.first_record
    have hle := head_add_le h
    have hsizeBytes : (sizeBytes s.head).Below (2 * size) := (sizeBytes_within _ p).below hle
    rw [ShmBufferExData.popReads, if_neg hcount, h.laidOut.peek_eq] at he
    simp only [hsize] at he
    split at he
    · rw [List.mem_singleton.mp he]
      exact hsizeBytes
    · rcases List.mem_append.mp he with he | he
      · rcases List.mem_cons.mp he with rfl | he
        · exact hsizeBytes
        · rw [List.mem_singleton.mp he]
          exact (dataBytes_within _ p).below hle
      · split at he
        · rw [List.mem_singleton.mp he]
          exact hsizeBytes
        · exact absurd he List.not_mem_nil

theorem dropLoopReads_below (h : Represents size s pos q) {need : Nat} (hneed : need ≤ size - 1)
    (rounds : Nat) : ∀ e ∈ dropLoopReads need rounds s, e.Below (2 * size) := by
  induction rounds generalizing s pos q with
  | zero => exact fun e he => absurd he List.not_mem_nil
  | succ rounds ih =>
    intro e he
    rw [dropLoopReads] at he
    by_cases hfree : s.freeSize < need
    · cases q with
      | nil =>
        rw [h.laidOut.freeSize_lt_iff hneed, total_nil] at hfree
        omega
      | cons p q =>
        rw [if_pos hfree, ShmBufferExData.dropFirstRecord, h.laidOut.peek_eq] at he
        rcases List.mem_cons.mp he with rfl | he
        · exact (sizeBytes_within _ p).below (head_add_le h)
        · have hnext : (s.discard (s.recordSizeAt s.head)) = s.discard (recSize p) := by
            rw [h.laidOut.first_record.1]
          exact ih (hnext ▸ h.discard) e he
    · rw [if_neg hfree] at he
      exact absurd he List.not_mem_nil

theorem pushReads_below (h : Represents size s pos q) (chunks : ShmChunks)
    (hfit : recSize chunks.payload ≤ size - 1) :
    ∀ e ∈ s.pushReads chunks, e.Below (2 * size) := by
  have hsize := h.size_le
  have hrec := @recordSize_chunks chunks (by omega)
  intro e he
  simp only [ShmBufferExData.pushReads, hrec] at he
  split at he
  · exact absurd he List.not_mem_nil
  · split at he
    · cases hmode : s.onOverflow with
      | returnError =>
        rw [hmode] at he
        exact absurd he List.not_mem_nil
      | dropNew =>
        rw [hmode] at he
        exact absurd he List.not_mem_nil
      | dropOld =>
        rw [hmode] at he
        exact dropLoopReads_below h hfit _ e he
    · exact absurd he List.not_mem_nil

theorem pushWrites_eq (h : Represents size s pos q) (chunks : ShmChunks)
    (hfit : recSize chunks.payload ≤ size - 1) :
    match verdict (size - 1) s.onOverflow q chunks.payload with
    | .accepted k =>
      s.pushWrites chunks = (discardAll s (q.take k)).storeWrites chunks ∧
        Represents size (discardAll s (q.take k)) (pos + total recSize (q.take k)) (q.drop k) ∧
        total recSize (q.drop k) + recSize chunks.payload ≤ size - 1
    | .ignored => s.pushWrites chunks = []
    | .refused => s.pushWrites chunks = [] := by
  have hsize := h.size_le
  have hpos := recSize_pos chunks.payload
  have hrec := @recordSize_chunks chunks (by omega)
  by_cases hroom : total recSize q + recSize chunks.payload ≤ size - 1
  · have hfree : ¬ s.freeSize < recSize chunks.payload := by
      rw [h.laidOut.freeSize_lt_iff hfit]
      exact not_not.mpr hroom
    simp only [verdict, if_pos hroom, ShmBufferExData.pushWrites, hrec, if_neg hpos.ne',
      if_neg hfree, List.take_zero, discardAll_nil, List.drop_zero, total_nil, Nat.add_zero,
      true_and]
    exact ⟨h, hroom⟩
  · have hfree := (h.laidOut.freeSize_lt_iff hfit).mpr hroom
    simp only [verdict, if_neg hroom, ShmBufferExData.pushWrites, hrec, if_neg hpos.ne',
      if_pos hfree]
    cases hmode : s.onOverflow with
    | returnError => dsimp only
    | dropNew => dsimp only
    | dropOld =>
      have hrounds : q.length < s.count + 1 := by
        rw [h.count_eq]
        exact Nat.lt_succ_self _
      obtain ⟨hloop, hrep⟩ := h.dropLoop hfit hrounds
      have hdrop : s.dropFirstRecords (recSize chunks.payload) = _ := hloop
      rw [hdrop]
      exact ⟨rfl, hrep, evictions_fit _ _ hfit q⟩

theorem storeWrites_at (h : Represents size s pos q) {chunks : ShmChunks}
    (hfit : total recSize q + recSize chunks.payload ≤ size - 1) {e : Extent}
    (he : e ∈ s.storeWrites chunks) {i : Nat} (hi : i ∈ e) :
    i < 2 * size ∧ ∃ j < recSize chunks.payload, i % size = (pos + total recSize q + j) % size := by
  obtain ⟨hl, hu⟩ := ShmBufferExData.mem_storeWrites.mp ⟨e, he, hi⟩
  change i < s.tail + recSize chunks.payload at hu
  have hle := h.tail.le
  refine ⟨by omega, i - s.tail, by omega, ?_⟩
  rw [Nat.add_mod, ← h.tail.mod, ← Nat.add_mod, Nat.add_sub_cancel' hl]

section

variable {st : Stream} {k n : Nat} {r : ReaderInfo}

theorem fetchReads_live (h : Tracks size s st) (hn : st.gone ≤ n) (hp : st.log[n]? = some p)
    (maxSize : Nat) : ∀ e ∈ s.fetchReads (i64 (startOf st.log n)) maxSize, e.Below (2 * size) := by
  obtain ⟨a, b, hlive, hstart⟩ := live_at hn hp
  have hrep := h.represents
  rw [hlive] at hrep
  rw [hstart]
  exact fetchReads_below hrep maxSize

theorem gone_lt_length (hlive : st.live ≠ []) : st.gone < st.log.length := by
  have hlen := List.length_pos_of_ne_nil hlive
  rw [Stream.live, List.length_drop] at hlen
  omega

/-- Below `2 ^ 64` a reader that is let read stands on a live record: a
position with the other sign than the window's is behind its end. -/
theorem catchUp_live (h : Tracks size s st) (hvolume : st.volume < 2 ^ 64)
    (hlive : st.live ≠ []) (hk : k ≤ st.log.length) (hr : r.pos = i64 (startOf st.log k))
    (hlast : ¬ s.getLastVptr < (s.catchUp r).pos) :
    ∃ n, st.gone ≤ n ∧ n < st.log.length ∧ (s.catchUp r).pos = i64 (startOf st.log n) := by
  have hbegin : s.getBeginVptr = i64 (startOf st.log st.gone) :=
    getBeginVptr_eq h.represents.laidOut
  have hgone := gone_lt_length hlive
  have hfits := h.represents.fits
  have hsize := h.represents.size_le
  have hend := startOf_add_drop st.log st.gone
  change startOf st.log st.gone + total recSize st.live = _ at hend
  rw [getLastVptr_log h hlive] at hlast
  unfold ShmBufferExData.catchUp at hlast ⊢
  rw [hbegin, hr] at hlast ⊢
  by_cases hbehind : i64 (startOf st.log k) < i64 (startOf st.log st.gone)
  · rw [if_pos hbehind]
    exact ⟨st.gone, Nat.le_refl _, hgone, rfl⟩
  · rw [if_neg hbehind, hr] at hlast
    rw [if_neg hbehind]
    have hlower := @startOf_mono st.log _ _ (Nat.le_sub_one_of_lt hgone)
    have hle := startOf_le st.log (st.log.length - 1)
    have hkle := startOf_le st.log k
    rw [Stream.volume] at hvolume
    have hwindow : startOf st.log st.gone ≤ startOf st.log k ∧
        startOf st.log k ≤ startOf st.log (st.log.length - 1) := by
      simp only [i64] at hlast hbehind
      omega
    refine ⟨k, ?_, ?_, hr⟩
    · by_contra hlt
      have := startOf_lt (Nat.lt_of_not_le hlt) hgone.le
      omega
    · rcases Nat.lt_or_eq_of_le hk with hlt | heq
      · exact hlt
      · have := @startOf_lt st.log _ _ (Nat.sub_one_lt (Nat.ne_of_gt (Nat.zero_lt_of_lt hgone)))
          (Nat.le_refl _)
        rw [heq] at hwindow
        omega

theorem getNextVptr_start (h : Tracks size s st) (hn : st.gone ≤ n) (hp : st.log[n]? = some p) :
    ∃ k ≤ st.log.length, s.getNextVptr (i64 (startOf st.log n)) = i64 (startOf st.log k) := by
  obtain ⟨hlt, -⟩ := List.getElem?_eq_some_iff.mp hp
  obtain ⟨hsize, -, -⟩ := record_at_log h hn hp
  have hend : s.getEndVptr = i64 (startOf st.log st.log.length) := by
    rw [getEndVptr_eq h.represents.laidOut, Stream.live, startOf_add_drop, startOf_length]
  unfold ShmBufferExData.getNextVptr
  split
  · exact ⟨st.gone, h.gone_le, getBeginVptr_eq h.represents.laidOut⟩
  · split
    · exact ⟨st.log.length, Nat.le_refl _, hend⟩
    · refine ⟨n + 1, hlt, ?_⟩
      rw [hsize, i64_i64_add, startOf_succ hp, Int.natCast_add]

def Aligned (s : ShmBufferExData) (st : Stream) : Prop :=
  ∀ i, ∃ k ≤ st.log.length, (s.reader i).pos = i64 (startOf st.log k)

theorem catchUp_start (h : Tracks size s st) (hk : k ≤ st.log.length)
    (hr : r.pos = i64 (startOf st.log k)) :
    ∃ k ≤ st.log.length, (s.catchUp r).pos = i64 (startOf st.log k) := by
  unfold ShmBufferExData.catchUp
  split
  · exact ⟨st.gone, h.gone_le, getBeginVptr_eq h.represents.laidOut⟩
  · exact ⟨k, hk, hr⟩

theorem Aligned.update (ha : Aligned s st) (i : Fin maxReaderCount) (hk : k ≤ st.log.length)
    (hr : r.pos = i64 (startOf st.log k)) :
    Aligned { s with reader := Function.update s.reader i r } st := by
  intro j
  rcases eq_or_ne j i with rfl | hne
  · simp only [Function.update_self]
    exact ⟨k, hk, hr⟩
  · simp only [Function.update_of_ne hne]
    exact ha j

theorem Aligned.get (h : Tracks size s st) (hvolume : st.volume < 2 ^ 64) (ha : Aligned s st)
    (readerIndex : Int) (maxSize : Nat) : Aligned (s.getByReader readerIndex maxSize).2 st := by
  unfold ShmBufferExData.getByReader
  by_cases hindex : readerIndex < 0 ∨ (maxReaderCount : Int) ≤ readerIndex
  · rw [dif_pos hindex]
    exact ha
  rw [dif_neg hindex]
  by_cases hcount : s.count = 0
  · rw [if_pos hcount]
    exact ha
  rw [if_neg hcount]
  have hlive : st.live ≠ [] := fun hnil => hcount (h.represents.laidOut.count_eq_zero_iff.mpr hnil)
  obtain ⟨k, hk, hr⟩ := ha ⟨readerIndex.toNat, by omega⟩
  by_cases hlast : s.getLastVptr < (s.catchUp (s.reader ⟨readerIndex.toNat, by omega⟩)).pos
  · obtain ⟨m, hm, hpos⟩ := catchUp_start h hk hr
    simp only [if_pos hlast]
    exact ha.update _ hm hpos
  · obtain ⟨n, hn, hlt, hpos⟩ := catchUp_live h hvolume hlive hk hr hlast
    obtain ⟨m, hm, hnext⟩ := getNextVptr_start h hn (List.getElem?_eq_getElem hlt)
    rw [← hpos] at hnext
    simp only [if_neg hlast, hnext]
    split
    · exact ha.update _ hm rfl
    · exact ha.update _ hm rfl

theorem Aligned.grow {s' : ShmBufferExData} {st' : Stream} (ha : Aligned s st)
    (hreader : s'.reader = s.reader)
    (hlog : st'.log = st.log ∨ ∃ p, st'.log = st.log ++ [p]) : Aligned s' st' := by
  intro i
  obtain ⟨k, hk, hr⟩ := ha i
  rw [hreader]
  rcases hlog with hlog | ⟨p, hlog⟩
  · exact ⟨k, by rw [hlog]; exact hk, by rw [hlog]; exact hr⟩
  · refine ⟨k, ?_, by rw [hlog, startOf_append hk]; exact hr⟩
    rw [hlog, List.length_append]
    omega

end

/-- No access leaves the window, and `Push` spares the records its drops leave. -/
structure Bounded (size : Nat) (s : ShmBufferExData) (st : Stream) : Prop where
  pushed : ∀ chunks, recSize chunks.payload ≤ size - 1 → ∃ ok s',
    s.push chunks = some (ok, s') ∧ Tracks size s' (st.push (size - 1) chunks.payload).2
  push : ∀ chunks, recSize chunks.payload ≤ size - 1 →
    ∀ e ∈ s.pushReads chunks ++ s.pushWrites chunks, e.Below (2 * size)
  disjoint : ∀ chunks, recSize chunks.payload ≤ size - 1 →
    ∀ e ∈ s.pushWrites chunks, ∀ i ∈ e, ∀ n p,
      (st.push (size - 1) chunks.payload).2.gone ≤ n → st.log[n]? = some p →
        ∀ j < recSize p, i % size ≠ (startOf st.log n + j) % size
  pop : ∀ maxSize deleteRecord, ∀ e ∈ s.popReads maxSize deleteRecord, e.Below (2 * size)
  getWithLoss : ∀ n p, st.gone ≤ n → st.log[n]? = some p → ∀ maxSize,
    ∀ e ∈ s.getWithLossReads (i64 (startOf st.log n)) maxSize, e.Below (2 * size)
  getWithLoss_past : st.volume < 2 ^ 64 → ∀ n ≤ st.log.length, ∀ maxSize,
    ∀ e ∈ s.getWithLossReads (i64 (startOf st.log n)) maxSize, e.Below (2 * size)
  getByReader : st.volume < 2 ^ 64 → ∀ readerIndex maxSize,
    ∀ e ∈ s.getByReaderReads readerIndex maxSize, e.Below (2 * size)

section

variable {st : Stream}

theorem getWithLossReads_below (h : Tracks size s st) {n : Nat} (hn : st.gone ≤ n)
    (hp : st.log[n]? = some p) (maxSize : Nat) :
    ∀ e ∈ s.getWithLossReads (i64 (startOf st.log n)) maxSize, e.Below (2 * size) := by
  intro e he
  obtain ⟨hlt, -⟩ := List.getElem?_eq_some_iff.mp hp
  have hfirst : st.log[st.gone]? = some st.log[st.gone] :=
    List.getElem?_eq_getElem (Nat.lt_of_le_of_lt hn hlt)
  have hbegin : s.getBeginVptr = i64 (startOf st.log st.gone) :=
    getBeginVptr_eq h.represents.laidOut
  rw [ShmBufferExData.getWithLossReads] at he
  split at he
  · exact absurd he List.not_mem_nil
  · dsimp only at he
    split at he
    · exact absurd he List.not_mem_nil
    · rw [ShmBufferExData.catchUp] at he
      split at he
      · rw [hbegin] at he
        exact fetchReads_live h (Nat.le_refl _) hfirst maxSize e he
      · exact fetchReads_live h hn hp maxSize e he

theorem caughtReads_below (h : Tracks size s st) (hvolume : st.volume < 2 ^ 64)
    (hcount : s.count ≠ 0) (hk : k ≤ st.log.length) (hr : r.pos = i64 (startOf st.log k))
    (maxSize : Nat) :
    ∀ e ∈ if s.getLastVptr < (s.catchUp r).pos then [] else s.fetchReads (s.catchUp r).pos maxSize,
      e.Below (2 * size) := by
  intro e he
  have hlive : st.live ≠ [] := fun hnil => hcount (h.represents.laidOut.count_eq_zero_iff.mpr hnil)
  by_cases hlast : s.getLastVptr < (s.catchUp r).pos
  · rw [if_pos hlast] at he
    exact absurd he List.not_mem_nil
  · obtain ⟨n, hn, hlt, hpos⟩ := catchUp_live h hvolume hlive hk hr hlast
    rw [if_neg hlast, hpos] at he
    exact fetchReads_live h hn (List.getElem?_eq_getElem hlt) maxSize e he

theorem getWithLossReads_past (h : Tracks size s st) (hvolume : st.volume < 2 ^ 64) {n : Nat}
    (hn : n ≤ st.log.length) (maxSize : Nat) :
    ∀ e ∈ s.getWithLossReads (i64 (startOf st.log n)) maxSize, e.Below (2 * size) := by
  intro e he
  rw [ShmBufferExData.getWithLossReads] at he
  by_cases hcount : s.count = 0
  · rw [if_pos hcount] at he
    exact absurd he List.not_mem_nil
  rw [if_neg hcount] at he
  exact caughtReads_below (r := ⟨i64 (startOf st.log n), 0⟩) h hvolume hcount hn rfl maxSize e he

theorem getByReaderReads_below (h : Tracks size s st) (hvolume : st.volume < 2 ^ 64)
    (ha : Aligned s st) (readerIndex : Int) (maxSize : Nat) :
    ∀ e ∈ s.getByReaderReads readerIndex maxSize, e.Below (2 * size) := by
  intro e he
  rw [ShmBufferExData.getByReaderReads] at he
  by_cases hindex : readerIndex < 0 ∨ (maxReaderCount : Int) ≤ readerIndex
  · rw [dif_pos hindex] at he
    exact absurd he List.not_mem_nil
  rw [dif_neg hindex] at he
  by_cases hcount : s.count = 0
  · rw [if_pos hcount] at he
    exact absurd he List.not_mem_nil
  rw [if_neg hcount] at he
  obtain ⟨k, hk, hr⟩ := ha ⟨readerIndex.toNat, ShmBufferExData.toNat_lt_maxReaderCount hindex⟩
  exact caughtReads_below h hvolume hcount hk hr maxSize e he

theorem pushWrites_apart (h : Tracks size s st) (chunks : ShmChunks)
    (hfit : recSize chunks.payload ≤ size - 1) {e : Extent} (he : e ∈ s.pushWrites chunks)
    {i : Nat} (hi : i ∈ e) :
    i < 2 * size ∧ ∀ n p, (st.push (size - 1) chunks.payload).2.gone ≤ n →
      st.log[n]? = some p → ∀ j < recSize p, i % size ≠ (startOf st.log n + j) % size := by
  have hwrites := pushWrites_eq h.represents chunks hfit
  rw [h.mode_eq] at hwrites
  simp only [Stream.push]
  cases hv : verdict (size - 1) st.mode st.live chunks.payload with
  | accepted k =>
    rw [hv] at hwrites
    obtain ⟨heq, hrep, hroom⟩ := hwrites
    rw [heq] at he
    have hk := evicted_le hv
    have hfits := hrep.fits
    have hstart : startOf st.log st.gone + total recSize (st.live.take k) =
        startOf st.log (st.gone + k) := (startOf_add st.log st.gone k).symm
    have hend : startOf st.log (st.gone + k) + total recSize (st.live.drop k) = st.volume := by
      rw [Stream.live, List.drop_drop]
      exact startOf_add_drop st.log (st.gone + k)
    rw [hstart] at hrep
    obtain ⟨hlimit, l, hl, hat⟩ := storeWrites_at hrep hroom he hi
    refine ⟨hlimit, fun n p hn hp j hj => ?_⟩
    obtain ⟨hlt, -⟩ := List.getElem?_eq_some_iff.mp hp
    have hlower : startOf st.log (st.gone + k) ≤ startOf st.log n := startOf_mono hn
    have hupper := startOf_le st.log (n + 1)
    rw [startOf_succ hp] at hupper
    rw [Stream.volume] at hend
    rw [hat]
    exact (mod_ne_of_window (by omega) (by omega)).symm
  | ignored =>
    rw [hv] at hwrites
    rw [hwrites] at he
    exact absurd he List.not_mem_nil
  | refused =>
    rw [hv] at hwrites
    rw [hwrites] at he
    exact absurd he List.not_mem_nil

theorem bounded (h : Tracks size s st) (ha : st.volume < 2 ^ 64 → Aligned s st) :
    Bounded size s st where
  pushed chunks hfit := by
    obtain ⟨s', hs, htracks, -⟩ := h.push chunks hfit
    obtain ⟨r, hpush, heq⟩ := Option.map_eq_some_iff.mp hs
    obtain ⟨-, rfl⟩ := Prod.mk.inj heq
    exact ⟨r.1, r.2, hpush, htracks⟩
  push chunks hfit e he := by
    rcases List.mem_append.mp he with he | he
    · exact pushReads_below h.represents chunks hfit e he
    · exact fun i hi => (pushWrites_apart h chunks hfit he hi).1
  disjoint chunks hfit e he i hi := (pushWrites_apart h chunks hfit he hi).2
  pop := popReads_below h.represents
  getWithLoss n p hn hp maxSize := getWithLossReads_below h hn hp maxSize
  getWithLoss_past hvolume n hn := getWithLossReads_past h hvolume hn
  getByReader hvolume := getByReaderReads_below h hvolume (ha hvolume)

/-- The stream of a run, and its readers as long as positions do not repeat. -/
structure Located (size : Nat) (s : ShmBufferExData) (st : Stream) : Prop where
  tracks : Tracks size s st
  aligned : st.volume < 2 ^ 64 → Aligned s st

theorem Located.step (h : Located size s st) {op : ReadOp} {o : ReadOut} {s' : ShmBufferExData}
    (hfit : op.Fits size) (hs : Readers.step s op = some (o, s')) (fates) :
    Located size s' (Audience.step (size - 1) ⟨st, fates⟩ op).2.stream := by
  cases op with
  | queue op =>
    obtain ⟨r, hqueue, heq⟩ := Option.map_eq_some_iff.mp hs
    obtain ⟨-, rfl⟩ := Prod.mk.inj heq
    obtain ⟨s', hs', htracks, hreader⟩ := h.tracks.step op hfit
    rw [hqueue] at hs'
    obtain rfl : r.2 = s' := Run.state_eq hs'
    have hgrows := (st.step_grows (size - 1) op).2
    refine ⟨htracks, fun hvolume => ?_⟩
    exact (h.aligned (Nat.lt_of_le_of_lt (Stream.volume_le_step _ st op) hvolume)).grow hreader
      hgrows
  | get readerIndex maxSize =>
    obtain rfl : (s.getByReader readerIndex maxSize).2 = s' :=
      Run.state_eq hs
    have hsame : (Audience.step (size - 1) ⟨st, fates⟩ (.get readerIndex maxSize)).2.stream = st :=
      Audience.get_stream _ _ _
    rw [hsame]
    refine ⟨?_, fun hvolume => Aligned.get h.tracks hvolume (h.aligned hvolume) _ _⟩
    rw [(getByReader_frame s readerIndex maxSize).1]
    exact ⟨h.tracks.mode_eq, h.tracks.gone_le, h.tracks.represents.setReader _⟩

end

/-- In every state a run of the queue and its readers reaches, all accesses
stay within the two mappings. -/
theorem run_bounded (raw : ShmBufferExData) (size : Nat) (hpos : 0 < size) (hsize : size ≤ 2 ^ 31)
    {trace : List (ReadOp × ReadOut)} {s : ShmBufferExData}
    (run : Run Readers.step (fun _ => ReadOp.Fits size)
      (raw.init (size + ShmBufferExData.sizeof)) trace s) :
    Bounded size s
      (exec (Audience.step (size - 1)) .fresh (trace.map Prod.fst)).2.stream := by
  have h : Located size s
      (exec (Audience.step (size - 1)) .fresh (trace.map Prod.fst)).2.stream := by
    refine run.invariant_trace (I := fun trace s => Located size s
      (exec (Audience.step (size - 1)) .fresh (trace.map Prod.fst)).2.stream) ?_ ?_
    · refine ⟨Tracks.init raw hpos hsize, fun _ i => ⟨0, Nat.le_refl _, ?_⟩⟩
      exact (i64_natCast (n := 0) (by decide)).symm
    · intro trace s op o s' h hfit hs
      rw [List.map_append, List.map_singleton, exec_append_one]
      exact h.step hfit hs _
  exact bounded h.tracks h.aligned

def sizeInside : Payload := List.replicate 8 0 ++ ([255, 255, 255, 255] ++ List.replicate 4 0)

theorem getByReaderReads_inside {p : Payload} (h : Represents size s pos [sizeInside, p])
    (hpos : pos + 16 = 2 ^ 64)
    (hreader : (s.reader ⟨(0 : Int).toNat, by decide⟩).pos = 0) :
    ∃ i, dataBytes i (2 ^ 32 - 9) ∈ s.getByReaderReads 0 (2 ^ 32 - 1) := by
  have hindex : ¬ ((0 : Int) < 0 ∨ (maxReaderCount : Int) ≤ 0) := by decide
  have hcount : s.count ≠ 0 := by
    rw [h.count_eq]
    exact Nat.succ_ne_zero _
  have hbegin : s.getBeginVptr = -16 := by
    rw [getBeginVptr_eq h.laidOut]
    simp only [i64]
    omega
  have hlast : s.getLastVptr = 8 := by
    have hsize : total recSize [sizeInside] = 24 := by decide
    rw [getLastVptr_eq (a := [sizeInside]) h, hsize]
    simp only [i64]
    omega
  have hcatch : (s.catchUp (s.reader ⟨(0 : Int).toNat, by decide⟩)).pos = 0 := by
    rw [ShmBufferExData.catchUp, if_neg (by rw [hreader, hbegin]; decide), hreader]
  have hrecord : s.getRecord 0 = s.head + 16 := by
    have hzero : i64 ((2 ^ 64 : Nat) : Int) = 0 := by decide
    have htotal : 24 ≤ total recSize [sizeInside, p] := by
      rw [total_cons]
      exact Nat.le_add_right _ _
    rw [← hzero, getRecord_eq h (by omega) (by omega)]
    omega
  have hfield : s.recordSizeAt (s.head + 16) = 2 ^ 32 - 1 := by
    have hdata : load s.bufferSize s.circularData (s.head + 8) (8 + (4 + 4)) = sizeInside :=
      h.laidOut.first_record.2.2
    rw [load_add, load_add, sizeInside] at hdata
    have hrest := (List.append_inj hdata (by simp)).2
    have hfour := (List.append_inj hrest (by simp)).1
    rw [ShmBufferExData.recordSizeAt, hfour]
    decide
  have hsize : s.dataSizeAt (s.head + 16) = 2 ^ 32 - 9 := by
    rw [ShmBufferExData.dataSizeAt, hfield]
    decide
  refine ⟨s.head + 16, ?_⟩
  rw [ShmBufferExData.getByReaderReads, dif_neg hindex, if_neg hcount]
  simp only [hcatch, hlast, ShmBufferExData.fetchReads, hrecord, hsize]
  simp

/-- Once positions repeat, a reader reads a record size out of a payload. -/
theorem run_overflow_leaves_window :
    ¬ ∀ (raw : ShmBufferExData) (size : Nat) (trace : List (Op × Out)) (s : ShmBufferExData)
      (readerIndex : Int) (maxSize : Nat), 4096 ∣ size → 0 < size → size ≤ 2 ^ 31 →
      Run MessageQueue.step (fun _ => Op.Fits size) (raw.init (size + ShmBufferExData.sizeof))
        trace s → ∀ e ∈ s.getByReaderReads readerIndex maxSize, e.Below (2 * size) := by
  intro hall
  obtain ⟨c, hc, -⟩ := exists_page_message 0
  obtain ⟨d, hd⟩ : ∃ d : ShmChunks, recSize d.payload = 4080 := by
    refine ⟨.single (List.replicate 4072 0) (by rw [List.length_replicate]; decide), ?_⟩
    rw [recSize, ShmChunks.payload, ShmChunks.single, List.flatten_singleton,
      List.length_replicate]
    rfl
  let x : ShmChunks := .single sizeInside (by decide)
  have hx : recSize x.payload = 24 := by decide
  have hinit : Represents 8192 (blank.init (8192 + ShmBufferExData.sizeof)) 0 [] :=
    Represents.init blank (by decide) (by decide)
  obtain ⟨trace, s₁, run₁, hrep₁, hreader₁, -⟩ := cycles hinit c (by omega) (2 ^ 52 - 1)
  obtain ⟨s₂, s₃, hpush, hpop, hrep₃, hreader₃, -⟩ := push_pop hrep₁ d (by omega)
  obtain ⟨s₄, hpush₄, hrep₄, hreader₄⟩ := push_room hrep₃ x (by rw [hx]; decide)
  obtain ⟨s₅, hpush₅, hrep₅, hreader₅⟩ := push_room hrep₄ x (by
    rw [List.nil_append, total_cons, total_nil, hx]
    decide)
  have hfits : Op.Fits 8192 (.push x) := by
    change recSize x.payload ≤ _
    omega
  have run := (((run₁.next (i := Op.push d) (by change recSize _ ≤ _; omega) hpush).next
    (i := Op.pop d.payload.length true) trivial hpop).next (i := Op.push x) hfits hpush₄).next
    (i := Op.push x) hfits hpush₅
  have hreader : s₅.reader = fun _ => ⟨0, 0⟩ := by
    rw [hreader₅, hreader₄, hreader₃, hreader₁]
    rfl
  have hpos : (2 ^ 52 - 1) * recSize c.payload + recSize d.payload + 16 = 2 ^ 64 := by
    rw [hc, hd]
    rfl
  obtain ⟨i, hmem⟩ := getByReaderReads_inside hrep₅ hpos (by rw [hreader])
  have hbelow := hall blank 8192 _ s₅ 0 (2 ^ 32 - 1) (by decide) (by decide) (by decide) run
    _ hmem (i + 8 + 16384)
  have hlast : i + 8 + 16384 < 2 * 8192 := hbelow ⟨by
    change i + 8 ≤ _
    omega, by
    change _ < i + 8 + (2 ^ 32 - 9)
    omega⟩
  omega

theorem run_bounded_short :
    ∃ trace s, trace.map Prod.fst = [.queue (.push (.single [7] (by decide))),
        .queue (.push (.single [8, 9] (by decide))), .queue (.pop 100 true)] ∧
      Run Readers.step (fun _ => ReadOp.Fits 4096) (blank.init (4096 + ShmBufferExData.sizeof))
        trace s ∧ ∀ e ∈ s.getByReaderReads 1 100, e.Below (2 * 4096) := by
  obtain ⟨trace, s, hinputs, run⟩ := exists_short_run
  have hinputs' : (trace.map (Prod.map ReadOp.queue ReadOut.queue)).map Prod.fst =
      [.queue (.push (.single [7] (by decide))), .queue (.push (.single [8, 9] (by decide))),
        .queue (.pop 100 true)] := by
    rw [map_fst_queue, hinputs]
    rfl
  have hbounded := run_bounded blank 4096 (by decide) (by decide) (run_queue run)
  rw [hinputs'] at hbounded
  exact ⟨_, s, hinputs', run_queue run, hbounded.getByReader (by decide) 1 100⟩

end HiloUtils.RingWindow
