import HiloUtils.StreamPosition

/-! The persistent readers. A reader has a fate for every record below its
position: it was delivered, skipped because it was too long, or had left the
queue. The reader's record in the code is the summary of these fates. -/

namespace HiloUtils.Readers

open Word MirrorRing BoundedFifo RecordQueue MessageQueue MessageStream StreamPosition

inductive ReadOp
  | queue (op : Op)
  | get (readerIndex : Int) (maxSize : Nat)

inductive ReadOut
  | queue (out : Out)
  | got (fetch : Fetch)
  deriving DecidableEq

def step (s : ShmBufferExData) : ReadOp → Option (ReadOut × ShmBufferExData)
  | .queue op => (MessageQueue.step s op).map fun r => (.queue r.1, r.2)
  | .get readerIndex maxSize =>
    some (.got (s.getByReader readerIndex maxSize).1, (s.getByReader readerIndex maxSize).2)

def ReadOp.Fits (size : Nat) : ReadOp → Prop
  | .queue op => op.Fits size
  | .get _ _ => True

/-- What became of a record when a reader passed it; a skipped one was longer
than `maxSize`. -/
inductive Fate
  | delivered
  | skipped (maxSize : Nat)
  | gone
  deriving DecidableEq

def Fate.loss (p : Payload) : Fate → Nat
  | .delivered => 0
  | .skipped _ => p.length
  | .gone => recSize p

def lostOf : List Payload → List Fate → Nat
  | p :: log, fate :: fates => fate.loss p + lostOf log fates
  | _, _ => 0

def deliveredOf : List Payload → List Fate → List Payload
  | p :: log, .delivered :: fates => p :: deliveredOf log fates
  | _ :: log, _ :: fates => deliveredOf log fates
  | _, _ => []

/-! A reader that falls behind finds the records in between gone; a reading
call then decides the fate of at most one record. -/

def caughtUp (st : Stream) (fates : List Fate) : List Fate :=
  fates ++ List.replicate (st.gone - fates.length) .gone

def read (st : Stream) (fates : List Fate) (maxSize : Nat) : Fetch × List Fate :=
  if st.live = [] then (⟨false, 0, none⟩, fates)
  else
    match st.log[(caughtUp st fates).length]? with
    | none => (⟨false, 0, none⟩, caughtUp st fates)
    | some p =>
      if maxSize < p.length then (⟨true, 0, none⟩, caughtUp st fates ++ [.skipped maxSize])
      else (⟨true, p.length, some p⟩, caughtUp st fates ++ [.delivered])

section

variable {st : Stream} {fates : List Fate} {p : Payload} {maxSize : Nat}

theorem read_empty (hlive : st.live = []) : read st fates maxSize = (⟨false, 0, none⟩, fates) := by
  rw [read, if_pos hlive]

theorem read_end (hlive : st.live ≠ []) (hp : st.log[(caughtUp st fates).length]? = none) :
    read st fates maxSize = (⟨false, 0, none⟩, caughtUp st fates) := by
  rw [read, if_neg hlive, hp]

theorem read_skipped (hlive : st.live ≠ []) (hp : st.log[(caughtUp st fates).length]? = some p)
    (hlong : maxSize < p.length) :
    read st fates maxSize = (⟨true, 0, none⟩, caughtUp st fates ++ [.skipped maxSize]) := by
  simp only [read, if_neg hlive, hp, if_pos hlong]

theorem read_delivered (hlive : st.live ≠ []) (hp : st.log[(caughtUp st fates).length]? = some p)
    (hlong : ¬ maxSize < p.length) :
    read st fates maxSize = (⟨true, p.length, some p⟩, caughtUp st fates ++ [.delivered]) := by
  simp only [read, if_neg hlive, hp, if_neg hlong]

end

structure Audience where
  stream : Stream
  fates : Fin maxReaderCount → List Fate

namespace Audience

def fresh : Audience := ⟨.fresh, fun _ => []⟩

def get (a : Audience) (readerIndex : Int) (maxSize : Nat) : Fetch × Audience :=
  if h : readerIndex < 0 ∨ (maxReaderCount : Int) ≤ readerIndex then (⟨false, 0, none⟩, a)
  else
    let i : Fin maxReaderCount := ⟨readerIndex.toNat, ShmBufferExData.toNat_lt_maxReaderCount h⟩
    ((read a.stream (a.fates i) maxSize).1,
      { a with fates := Function.update a.fates i (read a.stream (a.fates i) maxSize).2 })

def step (cap : Nat) (a : Audience) : ReadOp → ReadOut × Audience
  | .queue op => (.queue (a.stream.step cap op).1, { a with stream := (a.stream.step cap op).2 })
  | .get readerIndex maxSize =>
    (.got (a.get readerIndex maxSize).1, (a.get readerIndex maxSize).2)

end Audience

theorem Audience.get_stream (a : Audience) (readerIndex : Int) (maxSize : Nat) :
    (a.get readerIndex maxSize).2.stream = a.stream := by
  unfold Audience.get
  split <;> rfl

theorem lostOf_append (log : List Payload) (a b : List Fate) :
    lostOf log (a ++ b) = lostOf log a + lostOf (log.drop a.length) b := by
  induction a generalizing log with
  | nil =>
    cases b with
    | nil => cases log <;> rfl
    | cons f b => cases log <;> simp [lostOf]
  | cons f a ih =>
    cases log with
    | nil => simp [lostOf]
    | cons p log => simp [lostOf, ih, Nat.add_assoc]

theorem lostOf_gone (log : List Payload) (n : Nat) :
    lostOf log (List.replicate n .gone) = total recSize (log.take n) := by
  induction n generalizing log with
  | zero => cases log <;> rfl
  | succ n ih =>
    cases log with
    | nil => rfl
    | cons p log => rw [List.replicate_succ, lostOf, ih, List.take_succ_cons, total_cons]; rfl

theorem lostOf_log_append {log : List Payload} {fates : List Fate}
    (h : fates.length ≤ log.length) (p : Payload) :
    lostOf (log ++ [p]) fates = lostOf log fates := by
  induction fates generalizing log with
  | nil => cases log <;> rfl
  | cons f fates ih =>
    cases log with
    | nil => exact absurd h (by simp)
    | cons x log => rw [List.cons_append, lostOf, lostOf, ih (Nat.le_of_succ_le_succ h)]

theorem lostOf_le (log : List Payload) (fates : List Fate) :
    lostOf log fates ≤ startOf log fates.length := by
  induction fates generalizing log with
  | nil => cases log <;> exact Nat.zero_le _
  | cons f fates ih =>
    cases log with
    | nil => exact Nat.zero_le _
    | cons p log =>
      have hrest := ih log
      have hloss : f.loss p ≤ recSize p := by
        cases f with
        | delivered => exact Nat.zero_le _
        | skipped maxSize => exact Nat.le_add_right _ _
        | gone => exact Nat.le_refl _
      rw [startOf] at hrest ⊢
      rw [lostOf, List.length_cons, List.take_succ_cons, total_cons]
      omega

theorem deliveredOf_append (log : List Payload) (a b : List Fate) :
    deliveredOf log (a ++ b) = deliveredOf log a ++ deliveredOf (log.drop a.length) b := by
  induction a generalizing log with
  | nil =>
    cases b with
    | nil => cases log <;> rfl
    | cons f b => cases log <;> cases f <;> simp [deliveredOf]
  | cons f a ih =>
    cases log with
    | nil => cases f <;> simp [deliveredOf]
    | cons p log => cases f <;> simp [deliveredOf, ih]

theorem deliveredOf_gone (log : List Payload) (n : Nat) :
    deliveredOf log (List.replicate n .gone) = [] := by
  induction n generalizing log with
  | zero => cases log <;> rfl
  | succ n ih =>
    cases log with
    | nil => rfl
    | cons p log => exact ih log

theorem deliveredOf_log_append {log : List Payload} {fates : List Fate}
    (h : fates.length ≤ log.length) (p : Payload) :
    deliveredOf (log ++ [p]) fates = deliveredOf log fates := by
  induction fates generalizing log with
  | nil => cases log <;> rfl
  | cons f fates ih =>
    cases log with
    | nil => exact absurd h (by simp)
    | cons x log =>
      cases f <;> simp [deliveredOf, ih (Nat.le_of_succ_le_succ h)]

theorem deliveredOf_sublist (log : List Payload) (fates : List Fate) :
    (deliveredOf log fates).Sublist log := by
  induction fates generalizing log with
  | nil => cases log <;> exact List.nil_sublist _
  | cons f fates ih =>
    cases log with
    | nil => exact List.Sublist.slnil
    | cons p log =>
      cases f with
      | delivered => exact (ih log).cons_cons p
      | skipped maxSize => exact (ih log).cons p
      | gone => exact (ih log).cons p

/-- A reader record sums up the fates of the records below its position. -/
structure ReaderAt (r : ReaderInfo) (st : Stream) (fates : List Fate) : Prop where
  length_le : fates.length ≤ st.log.length
  pos_eq : r.pos = startOf st.log fates.length
  lost_eq : r.lost = lostOf st.log fates
  gone_lt : ∀ k : Nat, fates[k]? = some Fate.gone → k < st.gone
  skipped_lt : ∀ k maxSize : Nat, fates[k]? = some (Fate.skipped maxSize) →
    ∃ p : Payload, st.log[k]? = some p ∧ maxSize < p.length

theorem startOf_lt {log : List Payload} {m n : Nat} (h : m < n) (hn : n ≤ log.length) :
    startOf log m < startOf log n := by
  have hsplit := startOf_add log m (n - m)
  have hlen := length_le_total recSize recSize_pos ((log.drop m).take (n - m))
  rw [List.length_take, List.length_drop] at hlen
  rw [Nat.add_sub_cancel' h.le] at hsplit
  omega

theorem startOf_mono {log : List Payload} {m n : Nat} (h : m ≤ n) :
    startOf log m ≤ startOf log n := by
  have hsplit := startOf_add log m (n - m)
  rw [Nat.add_sub_cancel' h] at hsplit
  omega

theorem startOf_succ {log : List Payload} {m : Nat} {p : Payload} (h : log[m]? = some p) :
    startOf log (m + 1) = startOf log m + recSize p := by
  obtain ⟨hlt, hp⟩ := List.getElem?_eq_some_iff.mp h
  have hdrop : log.drop m = p :: log.drop (m + 1) := by
    rw [← hp]
    exact List.drop_eq_getElem_cons hlt
  rw [startOf_add, hdrop]
  simp

namespace ReaderAt

variable {r : ReaderInfo} {st : Stream} {fates : List Fate}

theorem fresh : ReaderAt ⟨0, 0⟩ .fresh [] :=
  ⟨Nat.le_refl _, rfl, rfl, by simp, by simp⟩

theorem mono {st' : Stream} (h : ReaderAt r st fates) (hgone : st.gone ≤ st'.gone)
    (hlog : st'.log = st.log ∨ ∃ p, st'.log = st.log ++ [p]) : ReaderAt r st' fates := by
  have hlen := h.length_le
  rcases hlog with hlog | ⟨p, hlog⟩
  · exact ⟨by rw [hlog]; exact hlen, by rw [hlog]; exact h.pos_eq, by rw [hlog]; exact h.lost_eq,
      fun k hk => Nat.lt_of_lt_of_le (h.gone_lt k hk) hgone,
      fun k m hk => by rw [hlog]; exact h.skipped_lt k m hk⟩
  · refine ⟨?_, ?_, ?_, fun k hk => Nat.lt_of_lt_of_le (h.gone_lt k hk) hgone, ?_⟩
    · rw [hlog, List.length_append]
      omega
    · rw [hlog, startOf_append hlen]
      exact h.pos_eq
    · rw [hlog, lostOf_log_append hlen]
      exact h.lost_eq
    · intro k m hk
      obtain ⟨x, hx, hlt⟩ := h.skipped_lt k m hk
      obtain ⟨hk', -⟩ := List.getElem?_eq_some_iff.mp hx
      exact ⟨x, by rw [hlog, List.getElem?_append_left hk']; exact hx, hlt⟩

theorem pass (h : ReaderAt r st fates) {p : Payload} (fate : Fate)
    (hp : st.log[fates.length]? = some p) (hgone : fate ≠ .gone)
    (hskip : ∀ maxSize, fate = .skipped maxSize → maxSize < p.length) :
    ReaderAt ⟨startOf st.log (fates.length + 1), r.lost + fate.loss p⟩ st (fates ++ [fate]) := by
  obtain ⟨hlt, -⟩ := List.getElem?_eq_some_iff.mp hp
  have hdrop : st.log.drop fates.length = p :: st.log.drop (fates.length + 1) := by
    rw [List.drop_eq_getElem_cons hlt, (List.getElem?_eq_some_iff.mp hp).2]
  refine ⟨?_, ?_, ?_, ?_, ?_⟩
  · rw [List.length_append]
    exact hlt
  · rw [List.length_append]
    rfl
  · rw [lostOf_append, hdrop, h.lost_eq]
    simp [lostOf]
  · intro k hk
    rcases Nat.lt_or_ge k fates.length with hlt' | hge
    · rw [List.getElem?_append_left hlt'] at hk
      exact h.gone_lt k hk
    · rw [List.getElem?_append_right hge, List.getElem?_singleton] at hk
      split at hk
      · exact absurd (Option.some.inj hk) hgone
      · exact absurd hk (by simp)
  · intro k m hk
    rcases Nat.lt_or_ge k fates.length with hlt' | hge
    · rw [List.getElem?_append_left hlt'] at hk
      exact h.skipped_lt k m hk
    · rw [List.getElem?_append_right hge, List.getElem?_singleton] at hk
      split at hk
      · next hzero =>
        have hk' : k = fates.length := by omega
        exact ⟨p, hk' ▸ hp, hskip m (Option.some.inj hk)⟩
      · exact absurd hk (by simp)

end ReaderAt

section

variable {size : Nat} {s : ShmBufferExData} {st : Stream} {r : ReaderInfo} {fates : List Fate}

theorem gone_le_caughtUp (st : Stream) (fates : List Fate) :
    st.gone ≤ (caughtUp st fates).length := by
  rw [caughtUp, List.length_append, List.length_replicate]
  omega

theorem catchUp_readerAt (h : Tracks size s st) (hvolume : st.volume < 2 ^ 63)
    (hr : ReaderAt r st fates) : ReaderAt (s.catchUp r) st (caughtUp st fates) := by
  have hbegin := getBeginVptr_exact h.represents
    (by rw [Stream.live, startOf_add_drop]; exact hvolume)
  have hgone := h.gone_le
  have hlen := hr.length_le
  unfold ShmBufferExData.catchUp
  rw [hbegin, hr.pos_eq]
  rcases Nat.lt_or_ge fates.length st.gone with hlt | hge
  · have hstart := startOf_lt hlt hgone
    have hsum := startOf_add st.log fates.length (st.gone - fates.length)
    rw [Nat.add_sub_cancel' hlt.le] at hsum
    have hle := startOf_le st.log st.gone
    have hlost := lostOf_le st.log fates
    rw [if_pos (by omega)]
    have hlength : (caughtUp st fates).length = st.gone := by
      rw [caughtUp, List.length_append, List.length_replicate]
      omega
    refine ⟨by rw [hlength]; exact hgone, by rw [hlength], ?_, ?_, ?_⟩
    · change i64 (r.lost + _) = _
      rw [caughtUp, lostOf_append, lostOf_gone, hr.lost_eq, i64_of_bounds]
      · omega
      · omega
      · rw [Stream.volume] at hvolume
        omega
    · intro k hk
      obtain ⟨hk', -⟩ := List.getElem?_eq_some_iff.mp hk
      omega
    · intro k m hk
      rcases Nat.lt_or_ge k fates.length with hlt' | hge
      · rw [caughtUp, List.getElem?_append_left hlt'] at hk
        exact hr.skipped_lt k m hk
      · rw [caughtUp, List.getElem?_append_right hge, List.getElem?_replicate] at hk
        split at hk
        · exact absurd (Option.some.inj hk) (by simp)
        · exact absurd hk (by simp)
  · have hstart : startOf st.log st.gone ≤ startOf st.log fates.length := by
      rcases Nat.lt_or_eq_of_le hge with hlt | heq
      · exact (startOf_lt hlt hlen).le
      · rw [heq]
    have hnone : caughtUp st fates = fates := by
      rw [caughtUp, Nat.sub_eq_zero_of_le hge, List.replicate_zero, List.append_nil]
    rw [if_neg (by omega), hnone]
    exact hr

theorem live_at {m : Nat} {p : Payload} (hm : st.gone ≤ m) (hp : st.log[m]? = some p) :
    ∃ a b, st.live = a ++ p :: b ∧ startOf st.log m = startOf st.log st.gone + total recSize a := by
  obtain ⟨hlt, heq⟩ := List.getElem?_eq_some_iff.mp hp
  refine ⟨st.live.take (m - st.gone), st.log.drop (m + 1), ?_, ?_⟩
  · have hdrop : st.live.drop (m - st.gone) = p :: st.log.drop (m + 1) := by
      rw [Stream.live, List.drop_drop, Nat.add_sub_cancel' hm, List.drop_eq_getElem_cons hlt, heq]
    rw [← hdrop, List.take_append_drop]
  · have hsum := startOf_add st.log st.gone (m - st.gone)
    rw [Nat.add_sub_cancel' hm] at hsum
    exact hsum

theorem record_at_log (h : Tracks size s st) {m : Nat} {p : Payload} (hm : st.gone ≤ m)
    (hp : st.log[m]? = some p) :
    s.recordSizeAt (s.getRecord (i64 (startOf st.log m))) = recSize p ∧
      s.dataSizeAt (s.getRecord (i64 (startOf st.log m))) = p.length ∧
      s.dataAt (s.getRecord (i64 (startOf st.log m))) p.length = p := by
  have hrep := h.represents
  obtain ⟨a, b, hsplit, hstart⟩ := live_at hm hp
  rw [hsplit] at hrep
  obtain ⟨hrec, -, hsize, hdata⟩ := record_at_vptr hrep
  rw [hstart]
  exact ⟨hrec, hsize, hdata⟩

theorem getNextVptr_log (h : Tracks size s st) (hvolume : st.volume < 2 ^ 63) {m : Nat}
    {p : Payload} (hm : st.gone ≤ m) (hp : st.log[m]? = some p) :
    s.getNextVptr (startOf st.log m) = startOf st.log (m + 1) := by
  have hrep := h.represents
  have hbound : startOf st.log st.gone + total recSize st.live < 2 ^ 63 := by
    rw [Stream.live, startOf_add_drop]
    exact hvolume
  obtain ⟨a, b, hsplit, hstart⟩ := live_at hm hp
  rw [hsplit] at hrep hbound
  have hnext := getNextVptr_exact hrep hbound
  rwa [total_append, total_cons, total_nil, Nat.add_zero, ← Nat.add_assoc, ← hstart,
    ← startOf_succ hp] at hnext

theorem getLastVptr_log (h : Tracks size s st) (hlive : st.live ≠ []) :
    s.getLastVptr = i64 (startOf st.log (st.log.length - 1)) := by
  have hgone := h.gone_le
  have hrep := h.represents
  have hsum := startOf_add st.log st.gone (st.log.length - 1 - st.gone)
  obtain ⟨a, p, hsplit⟩ := (List.eq_nil_or_concat' st.live).resolve_left hlive
  have hlen := congrArg List.length hsplit
  rw [Stream.live, List.length_drop, List.length_append, List.length_singleton] at hlen
  have htake : (st.log.drop st.gone).take (st.log.length - 1 - st.gone) = a := by
    change st.live.take _ = a
    have hcount : st.log.length - 1 - st.gone = a.length := by omega
    rw [hsplit, hcount, List.take_left]
  rw [htake, Nat.add_sub_cancel' (by omega)] at hsum
  rw [hsplit] at hrep
  rw [getLastVptr_eq hrep, ← hsum]

theorem getLastVptr_exact (h : Tracks size s st) (hvolume : st.volume < 2 ^ 63)
    (hlive : st.live ≠ []) : s.getLastVptr = startOf st.log (st.log.length - 1) := by
  rw [getLastVptr_log h hlive, i64_natCast (Nat.lt_of_le_of_lt (startOf_le _ _) hvolume)]

theorem getByReader_eq (h : Tracks size s st) (hvolume : st.volume < 2 ^ 63)
    {readerIndex : Int} (hindex : ¬ (readerIndex < 0 ∨ (maxReaderCount : Int) ≤ readerIndex))
    (hr : ReaderAt (s.reader ⟨readerIndex.toNat, by omega⟩) st fates) (maxSize : Nat) :
    ∃ r', s.getByReader readerIndex maxSize = ((read st fates maxSize).1,
        { s with reader := Function.update s.reader ⟨readerIndex.toNat, by omega⟩ r' }) ∧
      ReaderAt r' st (read st fates maxSize).2 := by
  have hrep := h.represents
  unfold ShmBufferExData.getByReader
  rw [dif_neg hindex]
  by_cases hlive : st.live = []
  · have hcount := hrep.laidOut.count_eq_zero_iff.mpr hlive
    refine ⟨s.reader ⟨readerIndex.toNat, by omega⟩, ?_, ?_⟩
    · rw [if_pos hcount, read_empty hlive, Function.update_eq_self]
    · rw [read_empty hlive]
      exact hr
  · have hcount : s.count ≠ 0 := fun hc => hlive (hrep.laidOut.count_eq_zero_iff.mp hc)
    have hcatch := catchUp_readerAt h hvolume hr
    have hgone := gone_le_caughtUp st fates
    have hlen := hcatch.length_le
    have hlast := getLastVptr_exact h hvolume hlive
    rw [if_neg hcount]
    simp only [hlast, hcatch.pos_eq]
    cases hp : st.log[(caughtUp st fates).length]? with
    | none =>
      have hend := List.getElem?_eq_none_iff.mp hp
      have hpositive : 0 < st.log.length := by
        have hlength := List.length_pos_of_ne_nil hlive
        rw [Stream.live, List.length_drop] at hlength
        omega
      have hlt : startOf st.log (st.log.length - 1) < startOf st.log (caughtUp st fates).length :=
        startOf_lt (by omega) hlen
      rw [if_pos (Int.ofNat_lt.mpr hlt), read_end hlive hp]
      exact ⟨_, rfl, hcatch⟩
    | some p =>
      obtain ⟨hlt, -⟩ := List.getElem?_eq_some_iff.mp hp
      have hle : startOf st.log (caughtUp st fates).length ≤ startOf st.log (st.log.length - 1) :=
        startOf_mono (Nat.le_sub_one_of_lt hlt)
      have hread : ¬ (startOf st.log (st.log.length - 1) : Int) <
          startOf st.log (caughtUp st fates).length := by omega
      obtain ⟨-, hsize, hdata⟩ := record_at_log h hgone hp
      rw [i64_natCast (Nat.lt_of_le_of_lt (startOf_le _ _) hvolume)] at hsize hdata
      rw [if_neg hread, hsize, hdata, getNextVptr_log h hvolume hgone hp]
      by_cases hlong : maxSize < p.length
      · rw [if_pos hlong, read_skipped hlive hp hlong]
        have hlost : i64 ((s.catchUp (s.reader ⟨readerIndex.toNat, by omega⟩)).lost + p.length) =
            (s.catchUp (s.reader ⟨readerIndex.toNat, by omega⟩)).lost + p.length := by
          have hlost := lostOf_le st.log (caughtUp st fates)
          have hnextBound := startOf_le st.log ((caughtUp st fates).length + 1)
          rw [startOf_succ hp, recSize, ShmBufferRecord.recordSize] at hnextBound
          rw [Stream.volume] at hvolume
          rw [hcatch.lost_eq]
          apply i64_of_bounds <;> omega
        have hpass := hcatch.pass (.skipped maxSize) hp (by simp) fun m hm => by
          rw [← Fate.skipped.inj hm]
          exact hlong
        rw [hlost]
        exact ⟨_, rfl, hpass⟩
      · rw [if_neg hlong, read_delivered hlive hp hlong]
        have hpass := hcatch.pass .delivered hp (by simp) (by simp)
        rw [Fate.loss, Int.natCast_zero, Int.add_zero] at hpass
        exact ⟨_, rfl, hpass⟩

end

def received (i : Fin maxReaderCount) : ReadOp × ReadOut → Option Payload
  | (.get readerIndex _, .got fetch) => if readerIndex = i then fetch.copied else none
  | _ => none

theorem deliveredOf_caughtUp (st : Stream) (fates : List Fate) :
    deliveredOf st.log (caughtUp st fates) = deliveredOf st.log fates := by
  rw [caughtUp, deliveredOf_append, deliveredOf_gone, List.append_nil]

theorem deliveredOf_read (st : Stream) (fates : List Fate) (maxSize : Nat) :
    deliveredOf st.log (read st fates maxSize).2 =
      deliveredOf st.log fates ++ (read st fates maxSize).1.copied.toList := by
  by_cases hlive : st.live = []
  · rw [read_empty hlive]
    simp
  · cases hp : st.log[(caughtUp st fates).length]? with
    | none =>
      rw [read_end hlive hp, deliveredOf_caughtUp]
      simp
    | some p =>
      obtain ⟨hlt, heq⟩ := List.getElem?_eq_some_iff.mp hp
      have hdrop : st.log.drop (caughtUp st fates).length =
          p :: st.log.drop ((caughtUp st fates).length + 1) := by
        rw [List.drop_eq_getElem_cons hlt, heq]
      by_cases hlong : maxSize < p.length
      · rw [read_skipped hlive hp hlong, deliveredOf_append, hdrop, deliveredOf_caughtUp]
        simp [deliveredOf]
      · rw [read_delivered hlive hp hlong, deliveredOf_append, hdrop, deliveredOf_caughtUp]
        simp [deliveredOf]

/-- The queue and its readers after a run. -/
structure Follows (size : Nat) (trace : List (ReadOp × ReadOut)) (s : ShmBufferExData)
    (a : Audience) : Prop where
  tracks : Tracks size s a.stream
  readerAt : ∀ i, ReaderAt (s.reader i) a.stream (a.fates i)
  received_eq : ∀ i, trace.filterMap (received i) = deliveredOf a.stream.log (a.fates i)

namespace Follows

variable {size : Nat} {trace : List (ReadOp × ReadOut)} {s : ShmBufferExData} {a : Audience}

theorem init (raw : ShmBufferExData) (hpos : 0 < size) (hsize : size ≤ 2 ^ 31) :
    Follows size [] (raw.init (size + ShmBufferExData.sizeof)) .fresh :=
  ⟨Tracks.init raw hpos hsize, fun _ => ReaderAt.fresh, fun _ => rfl⟩

theorem queue (h : Follows size trace s a) (op : Op) (hfit : op.Fits size) :
    ∃ s', Readers.step s (.queue op) = some ((a.step (size - 1) (.queue op)).1, s') ∧
      Follows size (trace ++ [(.queue op, (a.step (size - 1) (.queue op)).1)]) s'
        (a.step (size - 1) (.queue op)).2 := by
  obtain ⟨s', hs', htracks, hreader⟩ := h.tracks.step op hfit
  obtain ⟨hgone, hlog⟩ := a.stream.step_grows (size - 1) op
  refine ⟨s', by rw [Readers.step, hs']; rfl, htracks, fun i => ?_, fun i => ?_⟩
  · rw [hreader]
    exact (h.readerAt i).mono hgone hlog
  · rw [List.filterMap_append, h.received_eq i]
    change deliveredOf a.stream.log (a.fates i) ++ [] =
      deliveredOf (a.stream.step (size - 1) op).2.log (a.fates i)
    rcases hlog with hlog | ⟨p, hlog⟩
    · rw [hlog, List.append_nil]
    · rw [hlog, List.append_nil, deliveredOf_log_append (h.readerAt i).length_le]

theorem get (h : Follows size trace s a) (hvolume : a.stream.volume < 2 ^ 63) (readerIndex : Int)
    (maxSize : Nat) :
    ∃ s', Readers.step s (.get readerIndex maxSize) =
        some ((a.step (size - 1) (.get readerIndex maxSize)).1, s') ∧
      Follows size
        (trace ++ [(.get readerIndex maxSize, (a.step (size - 1) (.get readerIndex maxSize)).1)]) s'
        (a.step (size - 1) (.get readerIndex maxSize)).2 := by
  by_cases hindex : readerIndex < 0 ∨ (maxReaderCount : Int) ≤ readerIndex
  · have hcode : s.getByReader readerIndex maxSize = (⟨false, 0, none⟩, s) := by
      rw [ShmBufferExData.getByReader, dif_pos hindex]
    have hspec : a.get readerIndex maxSize = (⟨false, 0, none⟩, a) := by
      rw [Audience.get, dif_pos hindex]
    simp only [Readers.step, Audience.step, hcode, hspec]
    refine ⟨s, rfl, h.tracks, h.readerAt, fun i => ?_⟩
    rw [List.filterMap_append, h.received_eq i]
    simp [received]
  · have hlt := ShmBufferExData.toNat_lt_maxReaderCount hindex
    obtain ⟨r', hcode, hr'⟩ := getByReader_eq h.tracks hvolume hindex
      (h.readerAt ⟨readerIndex.toNat, hlt⟩) maxSize
    have hspec : a.get readerIndex maxSize =
        ((read a.stream (a.fates ⟨readerIndex.toNat, hlt⟩) maxSize).1,
          ⟨a.stream, Function.update a.fates ⟨readerIndex.toNat, hlt⟩
            (read a.stream (a.fates ⟨readerIndex.toNat, hlt⟩) maxSize).2⟩) := by
      rw [Audience.get, dif_neg hindex]
    simp only [Readers.step, Audience.step, hcode, hspec]
    refine ⟨_, rfl, ⟨h.tracks.mode_eq, h.tracks.gone_le, h.tracks.represents.setReader _⟩,
      fun i => ?_, fun i => ?_⟩
    · rcases eq_or_ne i ⟨readerIndex.toNat, hlt⟩ with rfl | hne
      · simp only [Function.update_self]
        exact hr'
      · simp only [Function.update_of_ne hne]
        exact h.readerAt i
    · rw [List.filterMap_append, h.received_eq i]
      rcases eq_or_ne i ⟨readerIndex.toNat, hlt⟩ with rfl | hne
      · have hself : readerIndex = (readerIndex.toNat : Int) := by omega
        have hreceived : ∀ fetch : Fetch,
            received ⟨readerIndex.toNat, hlt⟩ (.get readerIndex maxSize, .got fetch) =
              fetch.copied := fun fetch => if_pos hself
        simp only [Function.update_self, deliveredOf_read, List.filterMap_cons,
          List.filterMap_nil, hreceived]
        cases (read a.stream (a.fates ⟨readerIndex.toNat, hlt⟩) maxSize).1.copied <;> rfl
      · have hother : readerIndex ≠ (i : Nat) := by
          intro heq
          apply hne
          apply Fin.ext
          change (i : Nat) = readerIndex.toNat
          omega
        simp only [Function.update_of_ne hne]
        simp [received, hother]

end Follows

/-- What reader `i` has got from the stream. A fate stands for each accepted
record below its position, in push order. -/
structure Accounts (s : ShmBufferExData) (trace : List (ReadOp × ReadOut)) (st : Stream)
    (fates : List Fate) (i : Fin maxReaderCount) : Prop where
  length_le : fates.length ≤ st.log.length
  pos_eq : (s.reader i).pos = startOf st.log fates.length
  pos_end : fates.length = st.log.length → (s.reader i).pos = s.getEndVptr
  received_eq : trace.filterMap (received i) = deliveredOf st.log fates
  received_once : (trace.filterMap (received i)).Sublist st.log
  skipped_lt : ∀ k maxSize : Nat, fates[k]? = some (Fate.skipped maxSize) →
    ∃ p : Payload, st.log[k]? = some p ∧ maxSize < p.length
  gone_lt : ∀ k : Nat, fates[k]? = some Fate.gone → k < st.gone
  lost_eq : (s.reader i).lost = lostOf st.log fates

theorem getByReader_frame (s : ShmBufferExData) (readerIndex : Int) (maxSize : Nat) :
    (s.getByReader readerIndex maxSize).2 =
        { s with reader := (s.getByReader readerIndex maxSize).2.reader } ∧
      ∀ j : Fin maxReaderCount, (j : Int) ≠ readerIndex →
        (s.getByReader readerIndex maxSize).2.reader j = s.reader j := by
  by_cases hindex : readerIndex < 0 ∨ (maxReaderCount : Int) ≤ readerIndex
  · rw [ShmBufferExData.getByReader, dif_pos hindex]
    exact ⟨rfl, fun _ _ => rfl⟩
  · have hlt := ShmBufferExData.toNat_lt_maxReaderCount hindex
    obtain ⟨r, hr⟩ : ∃ r, (s.getByReader readerIndex maxSize).2 =
        { s with reader := Function.update s.reader ⟨readerIndex.toNat, hlt⟩ r } := by
      unfold ShmBufferExData.getByReader
      by_cases hcount : s.count = 0
      · exact ⟨s.reader ⟨readerIndex.toNat, hlt⟩, by
          rw [dif_neg hindex, if_pos hcount, Function.update_eq_self]⟩
      · rw [dif_neg hindex, if_neg hcount]
        by_cases hend : s.getLastVptr < (s.catchUp (s.reader ⟨readerIndex.toNat, hlt⟩)).pos
        · simp only [if_pos hend]
          exact ⟨_, rfl⟩
        · simp only [if_neg hend]
          split
          · exact ⟨_, rfl⟩
          · exact ⟨_, rfl⟩
    rw [hr]
    refine ⟨rfl, fun j hj => Function.update_of_ne (fun heq => hj ?_) _ _⟩
    rw [heq]
    change (readerIndex.toNat : Int) = readerIndex
    omega

theorem Follows.accounts {size : Nat} {trace : List (ReadOp × ReadOut)} {s : ShmBufferExData}
    {a : Audience} (h : Follows size trace s a) (hvolume : a.stream.volume < 2 ^ 63)
    (i : Fin maxReaderCount) : Accounts s trace a.stream (a.fates i) i := by
  have hr := h.readerAt i
  refine ⟨hr.length_le, hr.pos_eq, fun hend => ?_, h.received_eq i, ?_, hr.skipped_lt, hr.gone_lt,
    hr.lost_eq⟩
  · have hlast := getEndVptr_exact h.tracks.represents
      (by rw [Stream.live, startOf_add_drop]; exact hvolume)
    rw [hr.pos_eq, hend, startOf_length, hlast, Stream.live, startOf_add_drop]
  · rw [h.received_eq i]
    exact deliveredOf_sublist _ _

/-- Every run that has accepted less than `2 ^ 63` bytes of records answers as
the stream with its readers does, every reader accounts for all records below
its position, and a reading call leaves the queue and the other readers alone. -/
theorem run_accounts (raw : ShmBufferExData) (size : Nat) (hpos : 0 < size)
    (hsize : size ≤ 2 ^ 31) {trace : List (ReadOp × ReadOut)} {s : ShmBufferExData}
    (run : Run step (fun _ => ReadOp.Fits size) (raw.init (size + ShmBufferExData.sizeof)) trace s)
    (hvolume :
      (exec (Audience.step (size - 1)) .fresh (trace.map Prod.fst)).2.stream.volume < 2 ^ 63) :
    let audience := exec (Audience.step (size - 1)) .fresh (trace.map Prod.fst)
    trace.map Prod.snd = audience.1 ∧
      (∀ i, Accounts s trace audience.2.stream (audience.2.fates i) i) ∧
      ∀ readerIndex maxSize,
        (s.getByReader readerIndex maxSize).2 =
            { s with reader := (s.getByReader readerIndex maxSize).2.reader } ∧
          ∀ j : Fin maxReaderCount, (j : Int) ≠ readerIndex →
            (s.getByReader readerIndex maxSize).2.reader j = s.reader j := by
  have hgrows : ∀ (a : Audience) (op : ReadOp),
      (a.step (size - 1) op).2.stream.volume < 2 ^ 63 → a.stream.volume < 2 ^ 63 := by
    intro a op hbound
    cases op with
    | queue op => exact Nat.lt_of_le_of_lt (a.stream.volume_le_step (size - 1) op) hbound
    | get readerIndex maxSize =>
      rw [← a.get_stream readerIndex maxSize]
      exact hbound
  have hstep : ∀ trace s (a : Audience) (op : ReadOp), Follows size trace s a → op.Fits size →
      (a.step (size - 1) op).2.stream.volume < 2 ^ 63 →
      ∃ s', step s op = some ((a.step (size - 1) op).1, s') ∧
        Follows size (trace ++ [(op, (a.step (size - 1) op).1)]) s' (a.step (size - 1) op).2 := by
    intro trace s a op h hfit hbound
    cases op with
    | queue op => exact h.queue op hfit
    | get readerIndex maxSize => exact h.get (hgrows a _ hbound) readerIndex maxSize
  obtain ⟨houts, hfollows⟩ := run.refines_trace (B := fun a => a.stream.volume < 2 ^ 63)
    (Follows.init raw hpos hsize) hgrows hstep hvolume
  exact ⟨houts, hfollows.accounts hvolume, fun _ _ => getByReader_frame s _ _⟩

theorem getByReader_behind {size pos : Nat} {s : ShmBufferExData} {p : Payload}
    (h : Represents size s pos [p]) (hpos : pos < 2 ^ 63) {readerIndex : Int}
    (hindex : ¬ (readerIndex < 0 ∨ (maxReaderCount : Int) ≤ readerIndex))
    (hbehind : (s.reader ⟨readerIndex.toNat, by omega⟩).pos < pos) :
    ∃ lost, s.getByReader readerIndex p.length = (⟨true, p.length, some p⟩, { s with
      reader := Function.update s.reader ⟨readerIndex.toNat, by omega⟩
        ⟨s.getNextVptr pos, lost⟩ }) := by
  have hbegin := getBeginVptr_eq h.laidOut
  have hlast : s.getLastVptr = i64 (pos + total recSize [] : Nat) :=
    getLastVptr_eq (a := []) h
  obtain ⟨-, -, hsize, hdata⟩ := record_at_vptr (a := []) h
  rw [total_nil, Nat.add_zero, i64_natCast hpos] at hlast hsize hdata
  rw [i64_natCast hpos] at hbegin
  have hcount : s.count ≠ 0 := by
    rw [h.count_eq]
    exact Nat.succ_ne_zero _
  have hcatch : (s.catchUp (s.reader ⟨readerIndex.toNat, by omega⟩)).pos = pos := by
    rw [ShmBufferExData.catchUp, hbegin, if_pos hbehind]
  unfold ShmBufferExData.getByReader
  rw [dif_neg hindex, if_neg hcount]
  simp only [hcatch, hlast, hsize, hdata, Int.lt_irrefl, Nat.lt_irrefl, if_false]
  exact ⟨_, rfl⟩

theorem run_queue {size : Nat} {init s : ShmBufferExData} {trace : List (Op × Out)}
    (run : Run MessageQueue.step (fun _ => Op.Fits size) init trace s) :
    Run step (fun _ => ReadOp.Fits size) init (trace.map (Prod.map ReadOp.queue ReadOut.queue)) s :=
  run.embed ReadOp.queue ReadOut.queue (fun _ _ hok => hok) fun _ _ _ _ hs => by
    rw [step, hs]
    rfl

theorem map_fst_queue (trace : List (Op × Out)) :
    (trace.map (Prod.map ReadOp.queue ReadOut.queue)).map Prod.fst =
      (trace.map Prod.fst).map ReadOp.queue := by
  rw [List.map_map, List.map_map]
  rfl

def pushed : ReadOp × ReadOut → Option Payload
  | (.queue (.push chunks), .queue (.pushed true)) => some chunks.payload
  | _ => none

/-- At `2 ^ 63` the position of a reader turns negative: it is moved back and
gets the record again. -/
theorem run_overflow_repeats :
    ¬ ∀ (raw : ShmBufferExData) (size : Nat) (trace : List (ReadOp × ReadOut))
      (s : ShmBufferExData) (i : Fin maxReaderCount), 4096 ∣ size → 0 < size → size ≤ 2 ^ 31 →
      Run step (fun _ => ReadOp.Fits size) (raw.init (size + ShmBufferExData.sizeof)) trace s →
      (trace.filterMap (received i)).Sublist (trace.filterMap pushed) := by
  intro hall
  obtain ⟨c, hc, hc0⟩ := exists_page_message 0
  obtain ⟨d, hd, hd1⟩ := exists_page_message 1
  have hinit : Represents 8192 (blank.init (8192 + ShmBufferExData.sizeof)) 0 [] :=
    Represents.init blank (by decide) (by decide)
  obtain ⟨trace, s, run, hrep, hreader, honly⟩ := cycles hinit c (by omega) (2 ^ 51 - 1)
  obtain ⟨s₁, hpush, hrep₁, hreader₁, -⟩ := push_empty hrep d (by omega)
  rw [hc] at hrep₁
  have run₁ := run_queue (run.next (i := Op.push d) (by change recSize _ ≤ _; omega) hpush)
  have hindex : ¬ ((0 : Int) < 0 ∨ (maxReaderCount : Int) ≤ 0) := by decide
  have hbound : (2 ^ 51 - 1) * 4096 < 2 ^ 63 := by decide
  -- the end position is 2 ^ 63 and reads as negative
  have hnext : s₁.getNextVptr ((2 ^ 51 - 1) * 4096 : Nat) = -2 ^ 63 := by
    unfold ShmBufferExData.getNextVptr
    rw [getBeginVptr_eq hrep₁.laidOut, getEndVptr_eq hrep₁.laidOut, total_cons, total_nil, hd]
    rfl
  obtain ⟨lost, hget₁⟩ := getByReader_behind hrep₁ hbound hindex (by
    rw [hreader₁, hreader]
    change (0 : Int) < ((2 ^ 51 - 1) * 4096 : Nat)
    decide)
  rw [hnext] at hget₁
  have hlt : (0 : Int).toNat < maxReaderCount := Nat.zero_lt_succ 2
  have hrep₂ := hrep₁.setReader (Function.update s₁.reader ⟨(0 : Int).toNat, hlt⟩
    ⟨-2 ^ 63, lost⟩)
  obtain ⟨lost', hget₂⟩ := getByReader_behind hrep₂ hbound hindex (by
    simp only [Function.update_self]
    decide)
  have run₂ := (run₁.next (i := ReadOp.get 0 d.payload.length) trivial
    (by rw [step, hget₁])).next (i := ReadOp.get 0 d.payload.length) trivial (by rw [step, hget₂])
  have hsublist := hall blank 8192 _ _ ⟨(0 : Int).toNat, hlt⟩ (by decide) (by decide) (by decide)
    run₂
  have hcount := hsublist.count_le d.payload
  have hnone : (trace.map (Prod.map ReadOp.queue ReadOut.queue)).filterMap
      (received ⟨(0 : Int).toNat, hlt⟩) = [] := by
    rw [List.filterMap_map]
    exact List.filterMap_eq_nil_iff.mpr fun e _ => rfl
  have hother : d.payload ∉ (trace.map (Prod.map ReadOp.queue ReadOut.queue)).filterMap pushed := by
    intro hmem
    obtain ⟨e, he, hpayload⟩ := List.mem_filterMap.mp hmem
    obtain ⟨⟨op, out⟩, hop, rfl⟩ := List.mem_map.mp he
    cases op with
    | push chunks =>
      rw [honly chunks (List.mem_map_of_mem hop)] at hpayload
      cases out with
      | pushed ok =>
        cases ok with
        | true =>
          rw [← Option.some.inj hpayload, hc0] at hd1
          exact absurd hd1 (by decide)
        | false => exact absurd hpayload (by simp [pushed])
      | popped fetch => exact absurd hpayload (by simp [pushed])
      | set => exact absurd hpayload (by simp [pushed])
    | pop maxSize deleteRecord => exact absurd hpayload (by simp [pushed])
    | setOverflovBehavior mode dropIsOk => exact absurd hpayload (by simp [pushed])
  simp only [List.map_append, List.filterMap_append, hnone, List.count_append,
    List.count_eq_zero_of_not_mem hother] at hcount
  simp [received, pushed, List.filterMap_cons] at hcount

theorem run_accounts_short :
    ∃ trace s, trace.map Prod.fst = [.queue (.push (.single [7] (by decide))),
        .queue (.push (.single [8, 9] (by decide))), .queue (.pop 100 true), .get 1 100] ∧
      Run step (fun _ => ReadOp.Fits 4096) (blank.init (4096 + ShmBufferExData.sizeof)) trace s ∧
      trace.filterMap (received ⟨1, by decide⟩) = [[8, 9]] ∧
      (s.reader ⟨1, by decide⟩).lost = 9 := by
  obtain ⟨trace, s, hinputs, run⟩ := exists_short_run
  have run' := (run_queue run).next (i := ReadOp.get 1 100) trivial rfl
  have hinputs' : (trace.map (Prod.map ReadOp.queue ReadOut.queue) ++ [(ReadOp.get 1 100,
      ReadOut.got (s.getByReader 1 100).1)]).map Prod.fst =
      [.queue (.push (.single [7] (by decide))), .queue (.push (.single [8, 9] (by decide))),
        .queue (.pop 100 true), .get 1 100] := by
    rw [List.map_append, map_fst_queue, hinputs]
    rfl
  obtain ⟨-, haccounts, -⟩ := run_accounts blank 4096 (by decide) (by decide) run'
    (by rw [hinputs']; decide)
  rw [hinputs'] at haccounts
  have hreader := haccounts ⟨1, by decide⟩
  exact ⟨_, _, hinputs', run', hreader.received_eq.trans (by decide),
    hreader.lost_eq.trans (by decide)⟩

end HiloUtils.Readers
