import HiloUtils.CriticalSection
import HiloUtils.Readers

/-! `ShmBufferEx` shared by any number of processes. `Pop` and `Get` look at
`count` before they take the lock. Under it every call is done in one step,
except that a `Push` which drops old records takes a step for each of them:
`count` is visible in between. -/

namespace HiloUtils.QueueProcesses

open Word BoundedFifo RecordQueue MessageQueue MessageStream Readers CriticalSection

inductive Stage
  | start (op : ReadOp)
  | dropping (chunks : ShmChunks) (recSize : Nat)

def look (s : ShmBufferExData) : ReadOp → Option ReadOut
  | .queue (.pop _ _) => if s.count = 0 then some (.queue (.popped ⟨false, 0, none⟩)) else none
  | .get _ _ => if s.count = 0 then some (.got ⟨false, 0, none⟩) else none
  | _ => none

def answer (ok : Bool) : Stage ⊕ ReadOut := .inr (.queue (.pushed ok))

def startPush (chunks : ShmChunks) (s : ShmBufferExData) : (Stage ⊕ ReadOut) × ShmBufferExData :=
  let recSize := u32 (ShmBufferRecord.recordSize chunks.size)
  if recSize = 0 then (answer true, s)
  else if s.freeSize < recSize then
    match s.onOverflow with
    | .returnError => (answer false, s)
    | .dropNew => (answer true, s.dropNewRecord recSize)
    | .dropOld => (.inl (.dropping chunks recSize), s)
  else (answer true, s.storeRecord chunks recSize)

def dropRound (chunks : ShmChunks) (recSize : Nat) (s : ShmBufferExData) :
    (Stage ⊕ ReadOut) × ShmBufferExData :=
  if s.freeSize < recSize then
    match s.dropFirstRecord with
    | (false, s) => (answer false, s)
    | (true, s) => (.inl (.dropping chunks recSize), s)
  else (answer true, s.storeRecord chunks recSize)

def work : Stage → ShmBufferExData → Option ((Stage ⊕ ReadOut) × ShmBufferExData)
  | .start (.queue (.push chunks)), s => some (startPush chunks s)
  | .start op, s => (Readers.step s op).map fun r => (.inr r.1, r.2)
  | .dropping chunks recSize, s => some (dropRound chunks recSize s)

def queue : LockedObject ShmBufferExData ReadOp ReadOut Stage := ⟨look, .start, work⟩

theorem work_start (op : ReadOp) :
    (∃ chunks, op = .queue (.push chunks)) ∨
    ∀ s, queue.work (.start op) s = (Readers.step s op).map fun r => (.inr r.1, r.2) := by
  match op with
  | .queue (.push chunks) => exact .inl ⟨chunks, rfl⟩
  | .queue (.pop _ _) => exact .inr fun _ => rfl
  | .queue (.setOverflovBehavior _ _) => exact .inr fun _ => rfl
  | .get _ _ => exact .inr fun _ => rfl

theorem discardAll_append (s : ShmBufferExData) (a b : List Payload) :
    discardAll s (a ++ b) = discardAll (discardAll s a) b := List.foldl_append

section

variable {size pos n : Nat} {s t : ShmBufferExData} {q : List Payload} {chunks : ShmChunks}

theorem without_take (h : Represents size s pos q) (n : Nat) :
    LaidOut size (discardAll s (q.take n)) (pos + total recSize (q.take n)) (q.drop n) :=
  LaidOut.without (by rw [List.take_append_drop]; exact h.laidOut)

theorem count_discardAll (h : Represents size s pos q) (n : Nat) :
    (discardAll s (q.take n)).count = q.length - n := by
  rw [(without_take h n).count_eq, List.length_drop]

/-- The loop after `n` records: it goes on exactly while fewer are dropped than
have to be. -/
theorem dropRound_eq (h : Represents size s pos q) (hfit : recSize chunks.payload ≤ size - 1)
    (hn : n ≤ evictions recSize (size - 1) (recSize chunks.payload) q) :
    dropRound chunks (recSize chunks.payload) (discardAll s (q.take n)) =
      if n < evictions recSize (size - 1) (recSize chunks.payload) q then
        (.inl (.dropping chunks (recSize chunks.payload)), discardAll s (q.take (n + 1)))
      else (answer true,
        (discardAll s (q.take n)).storeRecord chunks (recSize chunks.payload)) := by
  have hle := evictions_le recSize (size - 1) (recSize chunks.payload) q
  have hrest := without_take h n
  have hfree := hrest.freeSize_lt_iff hfit
  by_cases hlt : n < evictions recSize (size - 1) (recSize chunks.payload) q
  · have hnlen : n < q.length := by omega
    have hdrop : q.drop n = q[n] :: q.drop (n + 1) := List.drop_eq_getElem_cons hnlen
    rw [hdrop] at hrest
    rw [dropRound, if_pos (hfree.mpr (evictions_least _ _ hlt)), if_pos hlt,
      List.take_add_one, List.getElem?_eq_getElem hnlen, Option.toList_some, discardAll_append]
    simp only [ShmBufferExData.dropFirstRecord, hrest.peek_eq, hrest.first_record.1]
    rfl
  · obtain rfl : n = evictions recSize (size - 1) (recSize chunks.payload) q := by omega
    have hroom := evictions_fit recSize (size - 1) hfit q
    rw [dropRound, if_neg fun hc => hfree.mp hc hroom, if_neg hlt]

theorem recordSize_fits (h : Represents size s pos q)
    (hfit : recSize chunks.payload ≤ size - 1) :
    u32 (ShmBufferRecord.recordSize chunks.size) = recSize chunks.payload := by
  have hsize := h.size_le
  exact recordSize_chunks (by omega)

theorem startPush_goes_on (h : Represents size s pos q)
    (hfit : recSize chunks.payload ≤ size - 1) {k : Stage}
    (heq : startPush chunks s = (.inl k, t)) :
    k = .dropping chunks (recSize chunks.payload) ∧ s.onOverflow = .dropOld ∧
      s.freeSize < recSize chunks.payload ∧ t = s := by
  simp only [startPush, recordSize_fits h hfit, if_neg (recSize_pos chunks.payload).ne'] at heq
  split at heq
  · next hfree =>
    split at heq
    · cases heq
    · cases heq
    · next hmode =>
      obtain ⟨hk, rfl⟩ := Prod.mk.inj heq
      exact ⟨(Sum.inl.inj hk).symm, hmode, hfree, rfl⟩
  · cases heq

theorem dropRound_goes_on (h : Represents size s pos q)
    (hfit : recSize chunks.payload ≤ size - 1)
    (hn : n ≤ evictions recSize (size - 1) (recSize chunks.payload) q) {k : Stage}
    (heq : dropRound chunks (recSize chunks.payload) (discardAll s (q.take n)) = (.inl k, t)) :
    k = .dropping chunks (recSize chunks.payload) ∧
      n < evictions recSize (size - 1) (recSize chunks.payload) q ∧
      t = discardAll s (q.take (n + 1)) := by
  rw [dropRound_eq h hfit hn] at heq
  split at heq
  · next hlt =>
    obtain ⟨hk, rfl⟩ := Prod.mk.inj heq
    exact ⟨(Sum.inl.inj hk).symm, hlt, rfl⟩
  · cases heq

/-- A call is at its start, or it is a push that drops old records and has
dropped `n` of them. -/
theorem reaches_cases {op : ReadOp} {k : Stage} (h : Represents size s pos q)
    (hfit : op.Fits size) (hr : Reaches queue op s k t) :
    (k = .start op ∧ t = s) ∨
    ∃ chunks n, op = .queue (.push chunks) ∧
      k = .dropping chunks (recSize chunks.payload) ∧ s.onOverflow = .dropOld ∧
      s.freeSize < recSize chunks.payload ∧
      n ≤ evictions recSize (size - 1) (recSize chunks.payload) q ∧
      t = discardAll s (q.take n) := by
  induction hr with
  | enter => exact .inl ⟨rfl, rfl⟩
  | @work k k' t t' _ hwork ih =>
    obtain ⟨rfl, rfl⟩ | ⟨chunks, n, rfl, rfl, hmode, hfree, hn, rfl⟩ := ih
    · right
      obtain ⟨chunks, rfl⟩ | hone := work_start op
      · obtain ⟨rfl, hmode, hfree, rfl⟩ := startPush_goes_on h hfit (Option.some.inj hwork)
        exact ⟨chunks, 0, rfl, rfl, hmode, hfree, Nat.zero_le _, rfl⟩
      · rw [hone] at hwork
        obtain ⟨r, -, hr⟩ := Option.map_eq_some_iff.mp hwork
        cases hr
    · obtain ⟨rfl, hlt, rfl⟩ := dropRound_goes_on h hfit hn (Option.some.inj hwork)
      exact .inr ⟨chunks, n + 1, rfl, rfl, hmode, hfree, hlt, rfl⟩

theorem whole (h : Represents size s pos q) {op : ReadOp} (hfit : op.Fits size) :
    Whole queue Readers.step s op := by
  intro k t o t' hr hwork
  obtain ⟨rfl, rfl⟩ | ⟨chunks, n, rfl, rfl, hmode, hfree, hn, rfl⟩ := reaches_cases h hfit hr
  · obtain ⟨chunks, rfl⟩ | hone := work_start op
    · have heq : startPush chunks t = (.inr o, t') := Option.some.inj hwork
      change ((t.push chunks).map _).map _ = _
      rw [startPush] at heq
      rw [ShmBufferExData.push]
      split at heq
      · next hzero =>
        obtain ⟨ho, rfl⟩ := Prod.mk.inj heq
        simp only [if_pos hzero, Option.map_some, ← Sum.inr.inj ho]
      · next hzero =>
        split at heq
        · next hfree =>
          cases hmode : t.onOverflow with
          | returnError =>
            rw [hmode] at heq
            obtain ⟨ho, rfl⟩ := Prod.mk.inj heq
            simp only [if_neg hzero, if_pos hfree, Option.map_some, ← Sum.inr.inj ho]
          | dropNew =>
            rw [hmode] at heq
            obtain ⟨ho, rfl⟩ := Prod.mk.inj heq
            simp only [if_neg hzero, if_pos hfree, Option.map_some, ← Sum.inr.inj ho]
          | dropOld =>
            rw [hmode] at heq
            cases heq
        · next hfree =>
          obtain ⟨ho, rfl⟩ := Prod.mk.inj heq
          simp only [if_neg hzero, if_neg hfree, Option.map_some, ← Sum.inr.inj ho]
    · rw [hone] at hwork
      obtain ⟨r, hstep, hr⟩ := Option.map_eq_some_iff.mp hwork
      obtain ⟨ho, rfl⟩ := Prod.mk.inj hr
      rw [hstep, ← Sum.inr.inj ho]
  · have heq : dropRound chunks (recSize chunks.payload) (discardAll s (q.take n)) =
        (.inr o, t') := Option.some.inj hwork
    rw [dropRound_eq h hfit hn] at heq
    split at heq
    · cases heq
    · next hge =>
      obtain ⟨ho, rfl⟩ := Prod.mk.inj heq
      obtain rfl : n = evictions recSize (size - 1) (recSize chunks.payload) q := by omega
      have hpush := (h.laidOut.push_stored (recordSize_fits h hfit) hfit
        ⟨(recSize_pos _).ne', fun _ => hmode⟩).1
      change ((s.push chunks).map _).map _ = _
      rw [hpush, ← Sum.inr.inj ho]
      rfl

theorem look_eq {op : ReadOp} {o : ReadOut} (hlook : look s op = some o) :
    Readers.step s op = some (o, s) ∧ s.count = 0 := by
  match op with
  | .queue (.pop maxSize deleteRecord) =>
    obtain ⟨hcount, ho⟩ := Option.ite_none_right_eq_some.mp hlook
    refine ⟨?_, hcount⟩
    change ((s.pop maxSize deleteRecord).map _).map _ = _
    rw [ShmBufferExData.pop, if_pos hcount, ← Option.some.inj ho]
    rfl
  | .get readerIndex maxSize =>
    obtain ⟨hcount, ho⟩ := Option.ite_none_right_eq_some.mp hlook
    refine ⟨?_, hcount⟩
    have hget : s.getByReader readerIndex maxSize = (⟨false, 0, none⟩, s) := by
      rw [ShmBufferExData.getByReader]
      split
      · rfl
      · rfl
    rw [Readers.step, hget, ← Option.some.inj ho]
  | .queue (.push _) => cases hlook
  | .queue (.setOverflovBehavior _ _) => cases hlook

/-- How often a call can go on: into the loop, and around it for each record. -/
def left : Stage → ShmBufferExData → Nat
  | .start _, s => s.count + 1
  | .dropping _ _, s => s.count

theorem ends (h : Represents size s pos q) {op : ReadOp} (hfit : op.Fits size)
    (hstep : ∃ r, Readers.step s op = some r) : Ends queue left s op where
  works k t hr := by
    obtain ⟨rfl, rfl⟩ | ⟨chunks, n, rfl, rfl, -⟩ := reaches_cases h hfit hr
    · obtain ⟨chunks, rfl⟩ | hone := work_start op
      · exact ⟨_, rfl⟩
      · obtain ⟨r, hr⟩ := hstep
        exact ⟨_, by rw [hone, hr]; rfl⟩
    · exact ⟨_, rfl⟩
  falls k t k' t' hr hwork := by
    obtain ⟨rfl, rfl⟩ | ⟨chunks, n, rfl, rfl, -, -, hn, rfl⟩ := reaches_cases h hfit hr
    · obtain ⟨chunks, rfl⟩ | hone := work_start op
      · obtain ⟨rfl, -, -, rfl⟩ := startPush_goes_on h hfit (Option.some.inj hwork)
        exact Nat.lt_succ_self _
      · rw [hone] at hwork
        obtain ⟨r, -, hr⟩ := Option.map_eq_some_iff.mp hwork
        cases hr
    · obtain ⟨rfl, hlt, rfl⟩ := dropRound_goes_on h hfit hn (Option.some.inj hwork)
      have hle := evictions_le recSize (size - 1) (recSize chunks.payload) q
      simp only [left, count_discardAll h]
      omega

end

/-! The calls of the queue itself among all calls, and what they hand out. -/

def queueCall : ReadOp × ReadOut → Option (Op × Out)
  | (.queue op, .queue out) => some (op, out)
  | _ => none

def delivered : ReadOp × ReadOut → Option Payload
  | (.queue (.pop _ true), .queue (.popped fetch)) => if fetch.ok then fetch.copied else none
  | _ => none

def Refusing : ReadOp → Prop
  | .queue (.setOverflovBehavior d _) => d = .returnError
  | _ => True

def KeepsOld : ReadOp → Prop
  | .queue (.setOverflovBehavior d _) => d ≠ .dropOld
  | _ => True

theorem Refusing.keepsOld {op : ReadOp} (h : Refusing op) : KeepsOld op := by
  match op, h with
  | .queue (.push _), _ => trivial
  | .queue (.pop _ _), _ => trivial
  | .queue (.setOverflovBehavior _ _), rfl => exact fun h => by cases h
  | .get _ _, _ => trivial

section

variable {st : Stream} (cap : Nat)

theorem pop_delivers (st : Stream) (maxSize : Nat) (deleteRecord : Bool) :
    (st.step cap (.pop maxSize deleteRecord)).2.log.take
        (st.step cap (.pop maxSize deleteRecord)).2.gone =
      st.log.take st.gone ++ (delivered (.queue (.pop maxSize deleteRecord),
        .queue (st.step cap (.pop maxSize deleteRecord)).1)).toList ∧
      (st.step cap (.pop maxSize deleteRecord)).2.log = st.log := by
  simp only [Stream.step, Stream.pop]
  cases hlive : st.live with
  | nil => cases deleteRecord <;> exact ⟨by simp [delivered], rfl⟩
  | cons p rest =>
    have hp : st.log[st.gone]? = some p := by
      rw [← List.head?_drop, ← Stream.live, hlive, List.head?_cons]
    by_cases hsize : maxSize < p.length
    · simp only [if_pos hsize]
      cases deleteRecord <;> exact ⟨by simp [delivered], trivial⟩
    · simp only [if_neg hsize]
      cases deleteRecord with
      | false => exact ⟨by simp [delivered], rfl⟩
      | true =>
        refine ⟨?_, rfl⟩
        simp only [if_true, delivered, Option.toList_some]
        rw [List.take_add_one, hp, Option.toList_some]

theorem stream_step (hgone : st.gone ≤ st.log.length) (op : Op) :
    (st.log.take st.gone ++ (delivered (.queue op, .queue (st.step cap op).1)).toList).Sublist
        ((st.step cap op).2.log.take (st.step cap op).2.gone) ∧
      (st.step cap op).2.log.Sublist
        (st.log ++ (pushed (.queue op, .queue (st.step cap op).1)).toList) := by
  cases op with
  | push chunks =>
    simp only [Stream.step, Stream.push]
    cases hv : verdict cap st.mode st.live chunks.payload with
    | accepted k =>
      have hk := evicted_le hv
      rw [Stream.live, List.length_drop] at hk
      simp only [delivered, pushed, Option.toList_none, Option.toList_some, List.append_nil]
      refine ⟨?_, List.Sublist.refl _⟩
      rw [List.take_append_of_le_length (by omega)]
      exact List.take_sublist_take_left (Nat.le_add_right _ _)
    | ignored =>
      simp only [delivered, Option.toList_none, List.append_nil]
      exact ⟨List.Sublist.refl _, List.sublist_append_left _ _⟩
    | refused =>
      simp only [delivered, Option.toList_none, List.append_nil]
      exact ⟨List.Sublist.refl _, List.sublist_append_left _ _⟩
  | pop maxSize deleteRecord =>
    have hpop := pop_delivers cap st maxSize deleteRecord
    rw [hpop.1, hpop.2]
    exact ⟨List.Sublist.refl _, List.sublist_append_left _ _⟩
  | setOverflovBehavior d dropIsOk =>
    simp only [Stream.step, delivered, pushed, Option.toList_none, List.append_nil]
    exact ⟨List.Sublist.refl _, List.Sublist.refl _⟩

theorem stream_step_refusing (hgone : st.gone ≤ st.log.length) (hmode : st.mode = .returnError)
    {op : Op} (hop : Refusing (.queue op)) :
    (st.step cap op).2.mode = .returnError ∧
      (st.step cap op).2.log.take (st.step cap op).2.gone =
        st.log.take st.gone ++ (delivered (.queue op, .queue (st.step cap op).1)).toList ∧
      (st.step cap op).2.log =
        st.log ++ (pushed (.queue op, .queue (st.step cap op).1)).toList := by
  cases op with
  | push chunks =>
    simp only [Stream.step, Stream.push, verdict, hmode]
    by_cases hroom : total recSize st.live + recSize chunks.payload ≤ cap
    · simp only [if_pos hroom, delivered, pushed, Option.toList_none, Option.toList_some,
        List.append_nil, Nat.add_zero]
      exact ⟨trivial, List.take_append_of_le_length hgone, trivial⟩
    · simp only [if_neg hroom, delivered, pushed, Option.toList_none, List.append_nil]
      exact ⟨hmode, trivial, trivial⟩
  | pop maxSize deleteRecord =>
    obtain ⟨hout, hlog⟩ := pop_delivers cap st maxSize deleteRecord
    refine ⟨?_, hout, by rw [hlog]; exact (List.append_nil _).symm⟩
    simp only [Stream.step, Stream.pop]
    split
    · exact hmode
    · split
      · exact hmode
      · split
        · exact hmode
        · exact hmode
  | setOverflovBehavior d dropIsOk =>
    exact ⟨hop, (List.append_nil _).symm, (List.append_nil _).symm⟩

end

/-- What the calls of a run have told the callers about the stream. -/
structure Served (size : Nat) (trace : List (ReadOp × ReadOut)) (s : ShmBufferExData)
    (st : Stream) : Prop where
  tracks : Tracks size s st
  outs : (trace.filterMap queueCall).map Prod.snd =
    (exec (Stream.step (size - 1)) .fresh ((trace.filterMap queueCall).map Prod.fst)).1
  stream_eq : st =
    (exec (Stream.step (size - 1)) .fresh ((trace.filterMap queueCall).map Prod.fst)).2
  handed_out : (trace.filterMap delivered).Sublist (st.log.take st.gone)
  let_in : st.log.Sublist (trace.filterMap pushed)

namespace Served

variable {size : Nat} {trace : List (ReadOp × ReadOut)} {s s' : ShmBufferExData} {st : Stream}

theorem init (raw : ShmBufferExData) (hpos : 0 < size) (hsize : size ≤ 2 ^ 31) :
    Served size [] (raw.init (size + ShmBufferExData.sizeof)) .fresh :=
  ⟨Tracks.init raw hpos hsize, rfl, rfl, List.Sublist.refl _, List.Sublist.refl _⟩

theorem queue (h : Served size trace s st) {op : Op} (hfit : op.Fits size) :
    ∃ s', Readers.step s (.queue op) = some (.queue (st.step (size - 1) op).1, s') ∧
      Served size (trace ++ [(.queue op, .queue (st.step (size - 1) op).1)]) s'
        (st.step (size - 1) op).2 := by
  obtain ⟨s', hs', htracks, -⟩ := h.tracks.step op hfit
  obtain ⟨hout, hin⟩ := stream_step (size - 1) h.tracks.gone_le op
  have hcalls : (trace ++ [(ReadOp.queue op, ReadOut.queue (st.step (size - 1) op).1)]).filterMap
      queueCall = trace.filterMap queueCall ++ [(op, (st.step (size - 1) op).1)] :=
    filterMap_append_one _ _ _
  refine ⟨s', by rw [Readers.step, hs']; rfl, htracks, ?_, ?_, ?_, ?_⟩
  · rw [hcalls, List.map_append, List.map_append, List.map_singleton, List.map_singleton,
      exec_append_one, h.outs, ← h.stream_eq]
  · rw [hcalls, List.map_append, List.map_singleton, exec_append_one, ← h.stream_eq]
  · rw [filterMap_append_one]
    exact (h.handed_out.append (List.Sublist.refl _)).trans hout
  · rw [filterMap_append_one]
    exact hin.trans (h.let_in.append (List.Sublist.refl _))

theorem get (h : Served size trace s st) (readerIndex : Int) (maxSize : Nat) :
    Served size (trace ++ [(.get readerIndex maxSize, .got (s.getByReader readerIndex maxSize).1)])
      (s.getByReader readerIndex maxSize).2 st := by
  have hframe := (getByReader_frame s readerIndex maxSize).1
  refine ⟨?_, ?_, ?_, ?_, ?_⟩
  · rw [hframe]
    exact ⟨h.tracks.mode_eq, h.tracks.gone_le, h.tracks.represents.setReader _⟩
  all_goals rw [filterMap_append_one]
  · simpa [queueCall] using h.outs
  · simpa [queueCall] using h.stream_eq
  · simpa [delivered] using h.handed_out
  · simpa [pushed] using h.let_in

end Served

/-- A run of calls has told the callers about a stream that the queue follows,
and of which `K` holds if every call keeps it. -/
theorem run_served (raw : ShmBufferExData) {size : Nat} (hpos : 0 < size) (hsize : size ≤ 2 ^ 31)
    {Q : ReadOp → Prop} (hfits : ∀ op, Q op → op.Fits size)
    {K : List (ReadOp × ReadOut) → Stream → Prop} (h0 : K [] .fresh)
    (hqueue : ∀ trace st op, K trace st → st.gone ≤ st.log.length → Q (.queue op) →
      K (trace ++ [(.queue op, .queue (st.step (size - 1) op).1)]) (st.step (size - 1) op).2)
    (hget : ∀ trace st readerIndex maxSize fetch, K trace st →
      K (trace ++ [(.get readerIndex maxSize, .got fetch)]) st)
    {trace : List (ReadOp × ReadOut)} {s : ShmBufferExData}
    (run : Run Readers.step (fun _ => Q) (raw.init (size + ShmBufferExData.sizeof)) trace s) :
    ∃ st, Served size trace s st ∧ K trace st := by
  refine run.invariant_trace (I := fun trace s => ∃ st, Served size trace s st ∧ K trace st)
    ⟨_, Served.init raw hpos hsize, h0⟩ ?_
  rintro trace s op o s' ⟨st, h, hK⟩ hop hs
  cases op with
  | queue op =>
    obtain ⟨t, ht, hserved⟩ := h.queue (hfits _ hop)
    obtain ⟨rfl, rfl⟩ := Prod.mk.inj (Option.some.inj (hs.symm.trans ht))
    exact ⟨_, hserved, hqueue _ _ _ hK h.tracks.gone_le hop⟩
  | get readerIndex maxSize =>
    obtain ⟨rfl, rfl⟩ := Prod.mk.inj (Option.some.inj hs)
    exact ⟨_, h.get readerIndex maxSize, hget _ _ _ _ _ hK⟩

theorem stream_mode (cap : Nat) (st : Stream) (op : Op) :
    (st.step cap op).2.mode = match op with
      | .setOverflovBehavior d _ => d
      | _ => st.mode := by
  cases op with
  | push chunks =>
    simp only [Stream.step, Stream.push]
    split <;> rfl
  | pop maxSize deleteRecord =>
    simp only [Stream.step, Stream.pop]
    split
    · rfl
    · split
      · rfl
      · split <;> rfl
  | setOverflovBehavior d dropIsOk => rfl

section

variable {P : Type*} [DecidableEq P]

abbrev Interleaving (Q : ReadOp → Prop) (raw : ShmBufferExData) (size : Nat)
    (trace : List ((P × Move ReadOp) × Option (Event ReadOp ReadOut)))
    (g : System P ShmBufferExData ReadOp ReadOut Stage) : Prop :=
  Run (CriticalSection.step queue) (fun _ i => i.2.Calls Q)
    (opened (raw.init (size + ShmBufferExData.sizeof))) trace g

variable {raw : ShmBufferExData} {size : Nat}
  {trace : List ((P × Move ReadOp) × Option (Event ReadOp ReadOut))}
  {g : System P ShmBufferExData ReadOp ReadOut Stage}

theorem run_whole (hpos : 0 < size) (hsize : size ≤ 2 ^ 31) {Q : ReadOp → Prop}
    (hfits : ∀ op, Q op → op.Fits size) (trace : List (ReadOp × ReadOut)) (s : ShmBufferExData)
    (op : ReadOp)
    (run : Run Readers.step (fun _ => Q) (raw.init (size + ShmBufferExData.sizeof)) trace s)
    (hop : Q op) : Whole queue Readers.step s op := by
  obtain ⟨st, hserved, -⟩ := run_served raw hpos hsize hfits (K := fun _ _ => True) trivial
    (fun _ _ _ _ _ _ => trivial) (fun _ _ _ _ _ _ => trivial) run
  exact whole hserved.tracks.represents (hfits op hop)

/-- In any interleaving of any number of processes, in any overflow mode, the
calls that took the lock are served one after the other: a message is handed
out to one `Pop` at most, in the order of the pushes. -/
theorem run_serves (hpos : 0 < size) (hsize : size ≤ 2 ^ 31)
    (run : Interleaving (ReadOp.Fits size) raw size trace g) :
    ∃ s st, Run Readers.step (fun _ => ReadOp.Fits size)
        (raw.init (size + ShmBufferExData.sizeof)) (calls false trace) s ∧
      Settled queue (ReadOp.Fits size) g s ∧ Served size (calls false trace) s st := by
  obtain ⟨s, hrun, hset⟩ := run_settled false (run_whole hpos hsize fun _ h => h) (by simp) run
  obtain ⟨st, hserved, -⟩ := run_served raw hpos hsize (fun _ h => h) (K := fun _ _ => True)
    trivial (fun _ _ _ _ _ _ => trivial) (fun _ _ _ _ _ _ => trivial) hrun
  exact ⟨s, st, hrun, hset, hserved⟩

theorem run_honest (hpos : 0 < size) (hsize : size ≤ 2 ^ 31) {Q : ReadOp → Prop}
    (hfits : ∀ op, Q op → op.Fits size) (hkeeps : ∀ op, Q op → KeepsOld op)
    (trace : List (ReadOp × ReadOut)) (s : ShmBufferExData)
    (run : Run Readers.step (fun _ => Q) (raw.init (size + ShmBufferExData.sizeof)) trace s) :
    Honest queue Readers.step Q s := by
  have hmode : ∀ (trace : List (ReadOp × ReadOut)) (st : Stream) (op : Op), st.mode ≠ .dropOld →
      st.gone ≤ st.log.length → Q (.queue op) → (st.step (size - 1) op).2.mode ≠ .dropOld := by
    intro _ st op hmode _ hop
    rw [stream_mode]
    cases op with
    | push chunks => exact hmode
    | pop maxSize deleteRecord => exact hmode
    | setOverflovBehavior d dropIsOk => exact hkeeps _ hop
  obtain ⟨st, hserved, hkept⟩ := run_served raw hpos hsize hfits
    (K := fun _ st => st.mode ≠ .dropOld) (by decide) hmode (fun _ _ _ _ _ h => h) run
  intro j o t _ ht hlook
  obtain rfl | ⟨i, k, hi, hreach⟩ := ht
  · exact (look_eq hlook).1
  · obtain ⟨-, rfl⟩ | ⟨chunks, n, -, -, hold, -⟩ :=
      reaches_cases hserved.tracks.represents (hfits _ hi) hreach
    · exact (look_eq hlook).1
    · exact absurd (hserved.tracks.mode_eq.symm.trans hold) hkept

/-- Unless a process asks for `drop_old`, all calls are served one after the
other, also those that took no lock. -/
theorem run_linearizes (hpos : 0 < size) (hsize : size ≤ 2 ^ 31)
    (run : Interleaving (fun op => op.Fits size ∧ KeepsOld op) raw size trace g) :
    ∃ s, Run Readers.step (fun _ op => op.Fits size ∧ KeepsOld op)
        (raw.init (size + ShmBufferExData.sizeof)) (calls true trace) s ∧
      Settled queue (fun op => op.Fits size ∧ KeepsOld op) g s :=
  run_settled true (run_whole hpos hsize fun _ h => h.1)
    (fun _ => run_honest hpos hsize (fun _ h => h.1) fun _ h => h.2) run

/-- As long as the queue refuses what does not fit, what was pushed is what was
popped, in the same order, and what is still there. -/
theorem run_loses_nothing (hpos : 0 < size) (hsize : size ≤ 2 ^ 31)
    (run : Interleaving (fun op => op.Fits size ∧ Refusing op) raw size trace g) :
    ∃ s st, Settled queue (fun op => op.Fits size ∧ Refusing op) g s ∧ Tracks size s st ∧
      (calls true trace).filterMap pushed = (calls true trace).filterMap delivered ++ st.live := by
  obtain ⟨s, hrun, hset⟩ := run_settled true (run_whole hpos hsize fun _ h => h.1)
    (fun _ => run_honest hpos hsize (fun _ h => h.1) fun _ h => h.2.keepsOld) run
  obtain ⟨st, hserved, -, hout, hin⟩ := run_served raw hpos hsize (fun _ h => h.1)
    (K := fun trace st => st.mode = .returnError ∧
      trace.filterMap delivered = st.log.take st.gone ∧ trace.filterMap pushed = st.log)
    ⟨rfl, rfl, rfl⟩ (by
      rintro trace st op ⟨hmode, hout, hin⟩ hgone ⟨-, hop⟩
      obtain ⟨hmode', hout', hin'⟩ := stream_step_refusing (size - 1) hgone hmode hop
      rw [filterMap_append_one, filterMap_append_one, hout, hin]
      exact ⟨hmode', hout'.symm, hin'.symm⟩) (by
      rintro trace st readerIndex maxSize fetch ⟨hmode, hout, hin⟩
      rw [filterMap_append_one, filterMap_append_one, hout, hin]
      exact ⟨hmode, List.append_nil _, List.append_nil _⟩) hrun
  refine ⟨s, st, hset, hserved.tracks, ?_⟩
  rw [hout, hin, Stream.live, List.take_append_drop]

/-- When a look at `count` finds the queue empty: it is empty, or a push is
under way that drops every record of it. -/
theorem run_seen_empty_iff (hpos : 0 < size) (hsize : size ≤ 2 ^ 31)
    (run : Interleaving (ReadOp.Fits size) raw size trace g) :
    ∃ s st, Run Readers.step (fun _ => ReadOp.Fits size)
        (raw.init (size + ShmBufferExData.sizeof)) (calls false trace) s ∧
      Settled queue (ReadOp.Fits size) g s ∧ Tracks size s st ∧
      (g.shared.data.count = 0 ↔ st.live = [] ∨ ∃ p chunks,
        g.pc p = .inside (.queue (.push chunks)) (.dropping chunks (recSize chunks.payload)) ∧
        st.mode = .dropOld ∧ g.shared.data = discardAll s st.live ∧
        evictions recSize (size - 1) (recSize chunks.payload) st.live = st.live.length) := by
  obtain ⟨s, st, hrun, hset, hserved⟩ := run_serves hpos hsize run
  have hrep := hserved.tracks.represents
  refine ⟨s, st, hrun, hset, hserved.tracks, ?_⟩
  constructor
  · intro hzero
    obtain heq | ⟨p, op, k, hpc, hop, hreach⟩ := hset.data_cases
    · rw [heq, hrep.count_eq] at hzero
      exact .inl (List.length_eq_zero_iff.mp hzero)
    · obtain ⟨-, heq⟩ | ⟨chunks, n, rfl, rfl, hmode, -, hn, heq⟩ := reaches_cases hrep hop hreach
      · rw [heq, hrep.count_eq] at hzero
        exact .inl (List.length_eq_zero_iff.mp hzero)
      · have hle := evictions_le recSize (size - 1) (recSize chunks.payload) st.live
        rw [heq, count_discardAll hrep] at hzero
        obtain rfl : n = st.live.length := by omega
        rw [List.take_length] at heq
        exact .inr ⟨p, chunks, hpc, hserved.tracks.mode_eq.symm.trans hmode, heq, by omega⟩
  · rintro (hlive | ⟨p, chunks, -, -, heq, -⟩)
    · obtain heq | ⟨p, op, k, hpc, hop, hreach⟩ := hset.data_cases
      · rw [heq, hrep.count_eq, hlive]
        rfl
      · obtain ⟨-, heq⟩ | ⟨chunks, n, rfl, rfl, -, -, -, heq⟩ := reaches_cases hrep hop hreach
        · rw [heq, hrep.count_eq, hlive]
          rfl
        · rw [heq, count_discardAll hrep, hlive]
          exact Nat.zero_sub _
    · have hcount := count_discardAll hrep st.live.length
      rw [List.take_length, Nat.sub_self] at hcount
      rw [heq, hcount]

/-- Every call can be completed without a new one, and the holder of the lock
leaves after at most one step for each record and three more. -/
theorem run_completes (hpos : 0 < size) (hsize : size ≤ 2 ^ 31)
    (run : Interleaving (ReadOp.Fits size) raw size trace g) (p : P) :
    (∃ trace' g', Run (CriticalSection.step queue) GoesOn g trace' g' ∧ g'.pc p = .idle) ∧
      ((g.pc p).Holds → ∃ g', Left queue p g g' (g.shared.data.count + 3)) := by
  have hends : ∀ trace s op, Run Readers.step (fun _ => ReadOp.Fits size)
      (raw.init (size + ShmBufferExData.sizeof)) trace s → op.Fits size →
      Ends queue left s op := by
    intro trace s op hrun hop
    obtain ⟨st, hserved, -⟩ := run_served raw hpos hsize (fun _ h => h) (K := fun _ _ => True)
      trivial (fun _ _ _ _ _ _ => trivial) (fun _ _ _ _ _ _ => trivial) hrun
    refine ends hserved.tracks.represents hop ?_
    cases op with
    | queue op =>
      obtain ⟨s', hs', -⟩ := hserved.queue hop
      exact ⟨_, hs'⟩
    | get readerIndex maxSize => exact ⟨_, rfl⟩
  refine ⟨exists_completion (run_whole hpos hsize fun _ h => h) hends run p, fun hholds => ?_⟩
  obtain ⟨s, st, hrun, hset, -⟩ := run_serves hpos hsize run
  have hcalls := hset.calls p
  have hbetween := hset.busy p ((hset.owner_iff p).mp hholds)
  cases hpc : g.pc p with
  | idle =>
    rw [hpc] at hholds
    exact hholds.elim
  | waiting op =>
    rw [hpc] at hholds
    exact hholds.elim
  | leaving op o => exact ⟨_, (Left.unlock hpc).mono (Nat.le_add_left 1 _)⟩
  | inside op k =>
    rw [hpc] at hcalls hbetween
    obtain ⟨g', hleft⟩ := exists_left (hends _ _ _ hrun hcalls) hpc hbetween
    refine ⟨g', hleft.mono ?_⟩
    cases k with
    | start op => exact Nat.le_refl _
    | dropping chunks n => exact Nat.add_le_add_right (Nat.le_succ _) 2

theorem Interleaving.mono {Q R : ReadOp → Prop} (hQ : ∀ op, Q op → R op)
    (run : Interleaving Q raw size trace g) : Interleaving R raw size trace g := by
  refine run.weaken fun _ i hi => ?_
  obtain ⟨p, move⟩ := i
  cases move with
  | call op => exact hQ op hi
  | lock => trivial
  | work => trivial
  | unlock => trivial

def alone (p : P) (m : Memory P ShmBufferExData) (phase : Phase ReadOp ReadOut Stage) :
    System P ShmBufferExData ReadOp ReadOut Stage :=
  ⟨m, Function.update (fun _ => .idle) p phase⟩

theorem alone_idle (p : P) (s : ShmBufferExData) : alone p ⟨s, none⟩ .idle = opened s := by
  rw [alone, Function.update_eq_self_iff.mpr rfl, opened]

theorem alone_pc_of_ne {p q : P} (hne : q ≠ p) (m : Memory P ShmBufferExData)
    (phase : Phase ReadOp ReadOut Stage) : (alone p m phase).pc q = .idle := by
  simp [alone, hne]

theorem alone_step {p : P} {m m' : Memory P ShmBufferExData}
    {phase phase' : Phase ReadOp ReadOut Stage} {move : Move ReadOp}
    {e : Option (Event ReadOp ReadOut)}
    (h : act queue p m phase move = some (e, m', phase')) :
    CriticalSection.step queue (alone p m phase) (p, move) = some (e, alone p m' phase') := by
  simp only [CriticalSection.step, Processes.step, alone, Function.update_self, h, Option.map_some,
    Processes.put, Function.update_idem]

theorem exists_dropping {s : ShmBufferExData} {st : Stream} (h : Tracks size s st)
    (hmode : st.mode = .dropOld) {chunks : ShmChunks} (hfit : recSize chunks.payload ≤ size - 1)
    (hroom : ¬ total recSize st.live + recSize chunks.payload ≤ size - 1) (p : P) (n : Nat)
    (hn : n ≤ evictions recSize (size - 1) (recSize chunks.payload) st.live) :
    ∃ trace, Run (CriticalSection.step queue) (fun _ i => i.2.Calls (ReadOp.Fits size)) (opened s)
        trace (alone p ⟨discardAll s (st.live.take n), some p⟩
          (.inside (.queue (.push chunks)) (.dropping chunks (recSize chunks.payload)))) ∧
      calls true trace = [] := by
  have hrep := h.represents
  induction n with
  | zero =>
    have hstart : queue.work (.start (.queue (.push chunks))) s =
        some (.inl (.dropping chunks (recSize chunks.payload)), s) := by
      change some (startPush chunks s) = _
      simp only [startPush, recordSize_fits hrep hfit, if_neg (recSize_pos _).ne',
        if_pos ((hrep.laidOut.freeSize_lt_iff hfit).mpr hroom), h.mode_eq.trans hmode]
    have hcall : CriticalSection.step queue (opened s) (p, .call (.queue (.push chunks))) =
        some (none, alone p ⟨s, none⟩ (.waiting (.queue (.push chunks)))) := by
      rw [← alone_idle p]
      exact alone_step rfl
    have hlock : CriticalSection.step queue (alone p ⟨s, none⟩ (.waiting (.queue (.push chunks))))
        (p, .lock) = some (none, alone p ⟨s, some p⟩
          (.inside (.queue (.push chunks)) (.start (.queue (.push chunks))))) :=
      alone_step (act_lock rfl)
    have hwork : act queue p ⟨s, some p⟩
        (.inside (.queue (.push chunks)) (.start (.queue (.push chunks)))) .work = some (none,
          ⟨s, some p⟩, .inside (.queue (.push chunks))
            (.dropping chunks (recSize chunks.payload))) := act_goes_on hstart
    have called : Run (CriticalSection.step queue) (fun _ i => i.2.Calls (ReadOp.Fits size))
        (opened s) _ _ :=
      Run.start.next (i := (p, Move.call (ReadOp.queue (.push chunks)))) hfit hcall
    exact ⟨_, (called.next (i := (p, Move.lock)) trivial hlock).next (i := (p, Move.work)) trivial
      (alone_step hwork), rfl⟩
  | succ n ih =>
    obtain ⟨trace, run, hcalls⟩ := ih (by omega)
    have hround := dropRound_eq hrep hfit (Nat.le_of_lt hn)
    rw [if_pos (Nat.lt_of_succ_le hn)] at hround
    have hworks : queue.work (.dropping chunks (recSize chunks.payload))
        (discardAll s (st.live.take n)) = some (.inl (.dropping chunks (recSize chunks.payload)),
          discardAll s (st.live.take (n + 1))) := congrArg some hround
    have hwork : act queue p ⟨discardAll s (st.live.take n), some p⟩
        (.inside (.queue (.push chunks)) (.dropping chunks (recSize chunks.payload))) .work =
          some (none, ⟨discardAll s (st.live.take (n + 1)), some p⟩,
            .inside (.queue (.push chunks)) (.dropping chunks (recSize chunks.payload))) :=
      act_goes_on hworks
    refine ⟨_, run.next (i := (p, Move.work)) trivial (alone_step hwork), ?_⟩
    rw [calls_append_one, hcalls]
    rfl

/-- A push that has to drop the whole queue lets another process find it empty,
while no call that took the lock has been served. -/
theorem exists_seen_empty {s : ShmBufferExData} {st : Stream} (h : Tracks size s st)
    (hmode : st.mode = .dropOld) (hlive : st.live ≠ []) (chunks : ShmChunks)
    (hfit : recSize chunks.payload ≤ size - 1)
    (hall : evictions recSize (size - 1) (recSize chunks.payload) st.live = st.live.length)
    {p q : P} (hne : q ≠ p) (maxSize : Nat) (deleteRecord : Bool) :
    ∃ trace g', Run (CriticalSection.step queue) (fun _ i => i.2.Calls (ReadOp.Fits size))
        (opened (P := P) s) trace g' ∧
      calls true trace = [(.queue (.pop maxSize deleteRecord),
        .queue (.popped ⟨false, 0, none⟩))] := by
  have hroom : ¬ total recSize st.live + recSize chunks.payload ≤ size - 1 := by
    intro hroom
    rw [evictions_eq_zero _ _ hroom] at hall
    exact hlive (List.length_eq_zero_iff.mp hall.symm)
  obtain ⟨trace, run, hcalls⟩ := exists_dropping h hmode hfit hroom p st.live.length (by omega)
  have hcount : (discardAll s (st.live.take st.live.length)).count = 0 := by
    rw [count_discardAll h.represents, Nat.sub_self]
  have hlook : queue.look (discardAll s (st.live.take st.live.length))
      (.queue (.pop maxSize deleteRecord)) = some (.queue (.popped ⟨false, 0, none⟩)) :=
    if_pos hcount
  have hidle : (alone p ⟨discardAll s (st.live.take st.live.length), some p⟩
      (.inside (.queue (.push chunks)) (.dropping chunks (recSize chunks.payload)))).pc q =
        .idle := alone_pc_of_ne hne _ _
  refine ⟨_, _, run.next (i := (q, Move.call (ReadOp.queue (.pop maxSize deleteRecord)))) trivial
    (step_of_act hidle (act_seen hlook)), ?_⟩
  rw [calls_append_one, hcalls]
  rfl

end

def small : ShmChunks := .single [7, 8, 9] (by decide)

theorem exists_handover :
    ∃ trace g, Interleaving (P := Bool) (fun op => op.Fits 4096 ∧ Refusing op) blank 4096 trace g ∧
      (calls true trace).map Prod.fst = [.queue (.pop 100 true), .queue (.push small),
        .queue (.pop 100 true)] ∧
      (calls true trace).filterMap pushed = [[7, 8, 9]] ∧ (g.pc true).Holds ∧
      g.shared.data.count = 0 := by
  have hfit : ReadOp.Fits 4096 (.queue (.push small)) := by
    change recSize _ ≤ _
    decide
  have early : Interleaving (P := Bool) (fun op => op.Fits 4096 ∧ Refusing op) blank 4096 _ _ :=
    (Run.start.next (i := (false, Move.call (ReadOp.queue (.push small)))) ⟨hfit, trivial⟩ rfl).next
      (i := (true, Move.call (ReadOp.queue (.pop 100 true)))) ⟨trivial, trivial⟩ rfl
  have stored := (early.next (i := (false, Move.lock)) trivial rfl).next (i := (false, Move.work))
    trivial rfl
  have waiting := (stored.next (i := (true, Move.call (ReadOp.queue (.pop 100 true))))
    ⟨trivial, trivial⟩ rfl).next (i := (false, Move.unlock)) trivial rfl
  have popped := (waiting.next (i := (true, Move.lock)) trivial rfl).next (i := (true, Move.work))
    trivial rfl
  exact ⟨_, _, popped, rfl, rfl, trivial, rfl⟩

theorem run_serves_handover :
    ∃ trace g s st, Interleaving (P := Bool) (ReadOp.Fits 4096) blank 4096 trace g ∧
      Settled queue (ReadOp.Fits 4096) g s ∧ Served 4096 (calls false trace) s st := by
  obtain ⟨trace, g, run, -⟩ := exists_handover
  have run' := Interleaving.mono (R := ReadOp.Fits 4096) (fun _ h => h.1) run
  obtain ⟨s, st, -, hset, hserved⟩ := run_serves (by decide) (by decide) run'
  exact ⟨trace, g, s, st, run', hset, hserved⟩

theorem run_linearizes_handover :
    ∃ trace s, Run Readers.step (fun _ op => op.Fits 4096 ∧ KeepsOld op)
        (blank.init (4096 + ShmBufferExData.sizeof)) trace s ∧
      trace.map Prod.fst = [.queue (.pop 100 true), .queue (.push small),
        .queue (.pop 100 true)] := by
  obtain ⟨trace, g, run, hcalls, -⟩ := exists_handover
  obtain ⟨s, hrun, -⟩ := run_linearizes (by decide) (by decide)
    (run.mono fun _ h => ⟨h.1, h.2.keepsOld⟩)
  exact ⟨_, s, hrun, hcalls⟩

theorem run_loses_nothing_handover :
    ∃ trace g s st, Interleaving (P := Bool) (fun op => op.Fits 4096 ∧ Refusing op) blank 4096
        trace g ∧ Tracks 4096 s st ∧
      [[7, 8, 9]] = (calls true trace).filterMap delivered ++ st.live := by
  obtain ⟨trace, g, run, -, hpushed, -, -⟩ := exists_handover
  obtain ⟨s, st, -, htracks, heq⟩ := run_loses_nothing (by decide) (by decide) run
  exact ⟨trace, g, s, st, run, htracks, hpushed ▸ heq⟩

theorem run_seen_empty_iff_handover :
    ∃ trace g s st, Interleaving (P := Bool) (ReadOp.Fits 4096) blank 4096 trace g ∧
      Tracks 4096 s st ∧ (st.live = [] ∨ st.mode = .dropOld) := by
  obtain ⟨trace, g, run, -, -, -, hcount⟩ := exists_handover
  have run' := Interleaving.mono (R := ReadOp.Fits 4096) (fun _ h => h.1) run
  obtain ⟨s, st, -, -, htracks, hiff⟩ := run_seen_empty_iff (by decide) (by decide) run'
  refine ⟨trace, g, s, st, run', htracks, ?_⟩
  obtain hlive | ⟨p, chunks, -, hmode, -⟩ := hiff.mp hcount
  · exact .inl hlive
  · exact .inr hmode

theorem run_completes_handover :
    ∃ trace g, Interleaving (P := Bool) (ReadOp.Fits 4096) blank 4096 trace g ∧
      (∃ trace' g', Run (CriticalSection.step queue) GoesOn g trace' g' ∧ g'.pc true = .idle) ∧
      ∃ g', Left queue true g g' 3 := by
  obtain ⟨trace, g, run, -, -, hholds, hcount⟩ := exists_handover
  have run' := Interleaving.mono (R := ReadOp.Fits 4096) (fun _ h => h.1) run
  obtain ⟨hidle, hleft⟩ := run_completes (by decide) (by decide) run' true
  obtain ⟨g', hleft⟩ := hleft hholds
  rw [hcount] at hleft
  exact ⟨trace, g, run', hidle, g', hleft⟩

theorem exists_seen_empty_page :
    ∃ s : ShmBufferExData, s.count = 1 ∧ ∃ trace g',
      Run (CriticalSection.step queue) (fun _ i => i.2.Calls (ReadOp.Fits 4096))
        (opened (P := Bool) s) trace g' ∧
      calls true trace = [(.queue (.pop 100 true), .queue (.popped ⟨false, 0, none⟩))] := by
  have queued : Run MessageQueue.step (fun _ => Op.Fits 4096)
      (blank.init (4096 + ShmBufferExData.sizeof)) _ _ :=
    (Run.start.next (i := Op.setOverflovBehavior .dropOld false) trivial rfl).next
      (i := Op.push small) (by change recSize _ ≤ _; decide) rfl
  obtain ⟨-, htracks⟩ := run_tracks blank (by decide) (by decide) queued
  have hrec : recSize (ShmChunks.single (List.replicate 4087 1)
      (by rw [List.length_replicate]; decide)).payload = 4095 := by
    rw [recSize, ShmChunks.payload, ShmChunks.single, List.flatten_singleton, List.length_replicate]
    rfl
  obtain ⟨trace, g', run, hcalls⟩ := exists_seen_empty htracks rfl (by decide) _
    (Nat.le_of_eq hrec) (by rw [hrec]; decide) (p := false) (q := true) (by decide) 100 true
  exact ⟨_, rfl, trace, g', run, hcalls⟩

end HiloUtils.QueueProcesses
