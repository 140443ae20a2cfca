import HiloUtils.MessageStream

/-! The `vptr_t` arithmetic of the queue. Positions are unbounded on the side
of the records and signed 64-bit words in the code; the ring index of a record
is exact in either case, comparisons of positions are so below `2 ^ 63`. -/

namespace HiloUtils.StreamPosition

open Word MirrorRing BoundedFifo RecordQueue

variable {size pos : Nat} {s : ShmBufferExData} {q a b : List Payload} {p : Payload}

theorem getBeginVptr_eq (h : LaidOut size s pos q) : s.getBeginVptr = i64 pos := by
  have hle := h.head_le
  unfold ShmBufferExData.getBeginVptr
  rw [i64_u64, h.headOffset_eq, Int.natCast_add, i64_add_u64, ← Int.natCast_add,
    Nat.add_sub_cancel' hle]

theorem getEndVptr_eq (h : LaidOut size s pos q) :
    s.getEndVptr = i64 (pos + total recSize q : Nat) := by
  have hle := h.tail_le
  unfold ShmBufferExData.getEndVptr
  rw [i64_u64, h.tailOffset_eq, Int.natCast_add, i64_add_u64, ← Int.natCast_add,
    Nat.add_sub_cancel' hle]

theorem getLastVptr_eq (h : Represents size s pos (a ++ [p])) :
    s.getLastVptr = i64 (pos + total recSize a : Nat) := by
  have hend := getEndVptr_eq h.laidOut
  have hfits := h.fits
  have hsize := h.size_le
  have hlast : s.lastRecordSize = recSize p := by
    rw [h.last_eq (by simp), lastSize_append_one]
  rw [total_append, total_cons, total_nil] at hend hfits
  have hdiff : ((pos + (total recSize a + (recSize p + 0)) : Nat) : Int) - recSize p =
      (pos + total recSize a : Nat) := by omega
  unfold ShmBufferExData.getEndVptr at hend
  unfold ShmBufferExData.getLastVptr
  rw [i64_subU64 _ (by omega), ← i64_i64_sub, hend, i64_i64_sub, hlast, hdiff]

/-- The ring index of a position in the window, counted from the head. -/
theorem getRecord_eq (h : Represents size s pos q) {n : Nat} (hl : pos ≤ n)
    (hu : n ≤ pos + total recSize q) : s.getRecord (i64 n) = s.head + (n - pos) := by
  have hfits := h.fits
  have hsize := h.size_le
  have hhead := h.head_le
  have hlt := h.head.lt
  have hindex : n - (pos - s.head) = s.head + (n - pos) := by omega
  unfold ShmBufferExData.getRecord
  rw [ofI64_i64, h.headOffset_eq, subU64_u64 (by omega), hindex, u64_of_lt (by omega)]

theorem getRecord_mod (h : Represents size s pos q) {n : Nat} (hl : pos ≤ n)
    (hu : n ≤ pos + total recSize q) : s.getRecord (i64 n) % size = n % size := by
  rw [getRecord_eq h hl hu, Nat.add_mod, h.head.mod, ← Nat.add_mod, Nat.add_sub_cancel' hl]

theorem record_at_vptr (h : Represents size s pos (a ++ p :: b)) :
    s.recordSizeAt (s.getRecord (i64 (pos + total recSize a : Nat))) = recSize p ∧
      (a ≠ [] → s.prevSizeAt (s.getRecord (i64 (pos + total recSize a : Nat))) = lastSize 0 a) ∧
      s.dataSizeAt (s.getRecord (i64 (pos + total recSize a : Nat))) = p.length ∧
      s.dataAt (s.getRecord (i64 (pos + total recSize a : Nat))) p.length = p := by
  apply h.laidOut.record_at rfl
  apply getRecord_mod h
  · exact Nat.le_add_right _ _
  · rw [total_append]
    omega

section

variable (h : Represents size s pos q) (hbound : pos + total recSize q < 2 ^ 63)

include h hbound

theorem getBeginVptr_exact : s.getBeginVptr = pos := by
  rw [getBeginVptr_eq h.laidOut, i64_natCast (by omega)]

theorem getEndVptr_exact : s.getEndVptr = (pos + total recSize q : Nat) := by
  rw [getEndVptr_eq h.laidOut, i64_natCast hbound]

theorem getPrevVptr_begin : s.getPrevVptr pos = -1 := by
  unfold ShmBufferExData.getPrevVptr
  rw [if_pos (getBeginVptr_exact h hbound).ge]

end

theorem getNextVptr_exact (h : Represents size s pos (a ++ p :: b))
    (hbound : pos + total recSize (a ++ p :: b) < 2 ^ 63) :
    s.getNextVptr (pos + total recSize a : Nat) = (pos + total recSize (a ++ [p]) : Nat) := by
  have hbegin := getBeginVptr_exact h hbound
  have hend := getEndVptr_exact h hbound
  have hpos := recSize_pos p
  have hrec := (record_at_vptr h).1
  simp only [total_append, total_cons, total_nil] at hbound hend ⊢
  rw [i64_natCast (by omega)] at hrec
  unfold ShmBufferExData.getNextVptr
  rw [hbegin, hend, if_neg (by omega), if_neg (by omega), hrec, ← Int.natCast_add,
    i64_natCast (by omega), Nat.add_zero, Nat.add_assoc]

theorem getPrevVptr_exact (h : Represents size s pos (a ++ p :: b))
    (hbound : pos + total recSize (a ++ p :: b) < 2 ^ 63) :
    s.getPrevVptr (pos + total recSize (a ++ [p]) : Nat) = (pos + total recSize a : Nat) := by
  have hbegin := getBeginVptr_exact h hbound
  have hend := getEndVptr_exact h hbound
  have hpos := recSize_pos p
  have hlast : lastSize 0 (a ++ [p]) = recSize p := lastSize_append_one 0 a p
  unfold ShmBufferExData.getPrevVptr
  cases b with
  | nil =>
    rw [hbegin, hend, if_neg, if_neg (Int.lt_irrefl _), if_pos rfl, h.last_eq (by simp), hlast]
    · rw [i64_of_bounds]
      all_goals
        simp only [total_append, total_cons, total_nil] at hbound ⊢
        omega
    · simp only [total_append, total_cons, total_nil]
      omega
  | cons x b =>
    have hx := recSize_pos x
    have hnext : Represents size s pos ((a ++ [p]) ++ x :: b) := by simpa using h
    have hprev := (record_at_vptr hnext).2.1 (by simp)
    rw [hlast] at hprev
    simp only [total_append, total_cons, total_nil] at hbound hend hprev ⊢
    rw [i64_natCast (by omega)] at hprev
    rw [hbegin, hend, if_neg (by omega), if_neg (by omega), if_neg (by omega), hprev,
      i64_of_bounds (by omega) (by omega)]
    omega

end HiloUtils.StreamPosition
