import HiloUtils.StreamPosition
import Mathlib.Data.List.Iterate

/-! The walks over the queue by `GetNextVptr` and `GetPrevVptr`: both visit
exactly the live records as long as stream positions stay in a signed word. -/

namespace HiloUtils.Traversal

open Word BoundedFifo RecordQueue MessageQueue MessageStream StreamPosition

def starts : Nat → List Payload → List Int
  | _, [] => []
  | start, p :: q => (start : Int) :: starts (start + recSize p) q

@[simp] theorem starts_length (start : Nat) (q : List Payload) :
    (starts start q).length = q.length := by
  induction q generalizing start with
  | nil => rfl
  | cons p q ih => rw [starts, List.length_cons, ih, List.length_cons]

theorem starts_append (start : Nat) (a b : List Payload) :
    starts start (a ++ b) = starts start a ++ starts (start + total recSize a) b := by
  induction a generalizing start with
  | nil => rfl
  | cons p a ih => rw [List.cons_append, starts, ih, starts, total_cons, Nat.add_assoc]; rfl

theorem mem_starts {start : Nat} {q : List Payload} {v : Int} (hv : v ∈ starts start q) :
    ∃ a p b, q = a ++ p :: b ∧ v = (start + total recSize a : Nat) := by
  induction q generalizing start with
  | nil => exact absurd hv List.not_mem_nil
  | cons p q ih =>
    rcases List.mem_cons.mp hv with rfl | hv
    · exact ⟨[], p, q, rfl, rfl⟩
    · obtain ⟨a, x, b, hq, heq⟩ := ih hv
      exact ⟨p :: a, x, b, by rw [hq]; rfl, by rw [heq, total_cons, Nat.add_assoc]⟩

theorem starts_ge {start : Nat} {q : List Payload} {v : Int} (hv : v ∈ starts start q) :
    (start : Int) ≤ v := by
  obtain ⟨a, p, b, -, rfl⟩ := mem_starts hv
  omega

theorem starts_increasing (start : Nat) (q : List Payload) :
    (starts start q).Pairwise (· < ·) := by
  induction q generalizing start with
  | nil => exact List.Pairwise.nil
  | cons p q ih =>
    refine List.Pairwise.cons (fun v hv => ?_) (ih _)
    have hge := starts_ge hv
    have hpos := recSize_pos p
    omega

section

variable {size pos : Nat} {s : ShmBufferExData}

theorem forward {a b : List Payload} (h : Represents size s pos (a ++ b))
    (hbound : pos + total recSize (a ++ b) < 2 ^ 63) :
    List.iterate s.getNextVptr (pos + total recSize a : Nat) (b.length + 1) =
      starts (pos + total recSize a) b ++ [s.getEndVptr] := by
  induction b generalizing a with
  | nil =>
    rw [getEndVptr_exact h hbound, List.append_nil]
    rfl
  | cons p b ih =>
    have hsplit : a ++ p :: b = (a ++ [p]) ++ b := by simp
    have hnext := getNextVptr_exact h hbound
    rw [hsplit] at h hbound
    have hrest := ih h hbound
    rw [List.length_cons, List.iterate, hnext, hrest, starts, List.cons_append, total_append,
      total_cons, total_nil, Nat.add_zero, ← Nat.add_assoc]

theorem backward {a b : List Payload} (h : Represents size s pos (a ++ b))
    (hbound : pos + total recSize (a ++ b) < 2 ^ 63) :
    List.iterate s.getPrevVptr (s.getPrevVptr (pos + total recSize a : Nat)) (a.length + 1) =
      (starts pos a).reverse ++ [-1] := by
  induction a using List.reverseRecOn generalizing b with
  | nil =>
    rw [total_nil, Nat.add_zero, getPrevVptr_begin h hbound]
    rfl
  | append_singleton a p ih =>
    rw [List.append_assoc] at h hbound
    have hrest := ih h hbound
    rw [getPrevVptr_exact h hbound, List.length_append, List.iterate]
    change _ :: List.iterate s.getPrevVptr _ (a.length + 1) = _
    rw [hrest, starts_append, List.reverse_append]
    rfl

end

/-- The walks from either end visit the live records, which the record
positions lead to. -/
structure Enumerates (s : ShmBufferExData) (start : Nat) (live : List Payload) : Prop where
  next : List.iterate s.getNextVptr s.getBeginVptr (s.count + 1) =
    starts start live ++ [s.getEndVptr]
  prev : List.iterate s.getPrevVptr (s.getPrevVptr s.getEndVptr) (s.count + 1) =
    (starts start live).reverse ++ [-1]
  count_eq : (starts start live).length = s.count
  increasing : (starts start live).Pairwise (· < ·)
  prev_next : ∀ v ∈ starts start live, s.getPrevVptr (s.getNextVptr v) = v
  payloads : (starts start live).map
    (fun v => s.dataAt (s.getRecord v) (s.dataSizeAt (s.getRecord v))) = live

theorem payloads_at {size pos : Nat} {s : ShmBufferExData} {a b : List Payload}
    (h : Represents size s pos (a ++ b)) (hbound : pos + total recSize (a ++ b) < 2 ^ 63) :
    (starts (pos + total recSize a) b).map
      (fun v => s.dataAt (s.getRecord v) (s.dataSizeAt (s.getRecord v))) = b := by
  induction b generalizing a with
  | nil => rfl
  | cons p b ih =>
    have hsplit : a ++ p :: b = (a ++ [p]) ++ b := by simp
    obtain ⟨-, -, hsize, hdata⟩ := record_at_vptr h
    rw [i64_natCast (by rw [total_append] at hbound; omega)] at hsize hdata
    rw [hsplit] at h hbound
    have hrest := ih h hbound
    rw [total_append, total_cons, total_nil, Nat.add_zero, ← Nat.add_assoc] at hrest
    rw [starts, List.map_cons, hrest, hsize, hdata]

theorem enumerates {size pos : Nat} {s : ShmBufferExData} {q : List Payload}
    (h : Represents size s pos q) (hbound : pos + total recSize q < 2 ^ 63) :
    Enumerates s pos q := by
  refine ⟨?_, ?_, by rw [starts_length, h.count_eq], starts_increasing pos q, ?_,
    payloads_at (a := []) h hbound⟩
  · rw [getBeginVptr_exact h hbound, h.count_eq]
    exact forward (a := []) h hbound
  · rw [getEndVptr_exact h hbound, h.count_eq]
    rw [← List.append_nil q] at h hbound
    exact backward h hbound
  · intro v hv
    obtain ⟨a, p, b, rfl, rfl⟩ := mem_starts hv
    rw [getNextVptr_exact h hbound, getPrevVptr_exact h hbound]

/-- In every run that has accepted less than `2 ^ 63` bytes of records the
walks enumerate the live records. -/
theorem run_enumerates (raw : ShmBufferExData) (size : Nat) (hpos : 0 < size)
    (hsize : size ≤ 2 ^ 31) {trace : List (Op × Out)} {s : ShmBufferExData}
    (run : Run step (fun _ => Op.Fits size) (raw.init (size + ShmBufferExData.sizeof)) trace s)
    (hvolume : (exec (Stream.step (size - 1)) .fresh (trace.map Prod.fst)).2.volume < 2 ^ 63) :
    let st := (exec (Stream.step (size - 1)) .fresh (trace.map Prod.fst)).2
    Enumerates s (startOf st.log st.gone) st.live := by
  obtain ⟨-, htracks⟩ := run_tracks raw hpos hsize run
  apply enumerates htracks.represents
  rw [Stream.live, startOf_add_drop]
  exact hvolume

theorem run_enumerates_short :
    ∃ trace s, trace.map Prod.fst = [.push (.single [7] (by decide)),
        .push (.single [8, 9] (by decide)), .pop 100 true] ∧
      Run step (fun _ => Op.Fits 4096) (blank.init (4096 + ShmBufferExData.sizeof)) trace s ∧
      List.iterate s.getNextVptr s.getBeginVptr (s.count + 1) = [9, s.getEndVptr] := by
  obtain ⟨trace, s, hinputs, run⟩ := exists_short_run
  have henum := run_enumerates blank 4096 (by decide) (by decide) run
    (by rw [hinputs]; decide)
  rw [hinputs] at henum
  exact ⟨trace, s, hinputs, run, henum.next.trans rfl⟩

/-- At `2 ^ 63` the end position turns negative: the walk back from it stops at
once, although a record is queued. -/
theorem run_overflow_hides_record :
    ¬ ∀ (raw : ShmBufferExData) (size : Nat) (trace : List (Op × Out)) (s : ShmBufferExData),
      4096 ∣ size → 0 < size → size ≤ 2 ^ 31 →
      Run step (fun _ => Op.Fits size) (raw.init (size + ShmBufferExData.sizeof)) trace s →
      Enumerates s
        (startOf (exec (Stream.step (size - 1)) .fresh (trace.map Prod.fst)).2.log
          (exec (Stream.step (size - 1)) .fresh (trace.map Prod.fst)).2.gone)
        (exec (Stream.step (size - 1)) .fresh (trace.map Prod.fst)).2.live := by
  intro hall
  obtain ⟨chunks, hrec, -⟩ := exists_page_message 0
  have hinit : Represents 8192 (blank.init (8192 + ShmBufferExData.sizeof)) 0 [] :=
    Represents.init blank (by decide) (by decide)
  obtain ⟨trace, s, run, hrep, -⟩ := cycles hinit chunks (by omega) (2 ^ 51 - 1)
  obtain ⟨s', hpush, hrep', -⟩ := push_empty hrep chunks (by omega)
  have run' := run.next (i := Op.push chunks) (by change recSize _ ≤ _; omega) hpush
  have henum := hall blank 8192 _ s' (by decide) (by decide) (by decide) run'
  have hstop : s'.getPrevVptr s'.getEndVptr = -1 := by
    unfold ShmBufferExData.getPrevVptr
    rw [if_pos]
    rw [getBeginVptr_eq hrep'.laidOut, getEndVptr_eq hrep'.laidOut, total_cons, total_nil, hrec]
    simp only [i64]
    omega
  have hcount : s'.count = 1 := hrep'.count_eq
  have hprev := henum.prev
  have hlen := henum.count_eq
  rw [hcount] at hprev hlen
  obtain ⟨v, hv⟩ := List.length_eq_one_iff.mp hlen
  have hnonneg := starts_ge (hv ▸ List.mem_singleton_self v)
  rw [hstop, hv] at hprev
  have hhead : (-1 : Int) = v := (List.cons.inj hprev).1
  omega

end HiloUtils.Traversal
