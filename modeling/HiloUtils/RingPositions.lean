import HiloUtils.StreamPosition

/-! The positions of a ring of any size. The cursors have 32 bits however large
the ring is, so there are records whose end the tail cannot hold. The positions
count the bytes of the stream until the first such record is stored. -/

namespace HiloUtils.RingPositions

open Word BoundedFifo RecordQueue MessageQueue MessageStream StreamPosition

/-- The tail and a position can hold the end of a new record. A record of
`2 ^ 32` bytes or more is taken for one of the size that 32 bits keep of it. -/
def Clear (s : ShmBufferExData) : Op → Prop
  | .push chunks =>
    Stores s (recSize chunks.payload) ∨ Stores s (u32 (recSize chunks.payload)) →
      s.tail + recSize chunks.payload < 2 ^ 32 ∧
        s.tail + s.tailOffset + recSize chunks.payload < 2 ^ 63
  | _ => True

/-- A call moves the positions by the records that it adds to the stream and
removes from the queue, no cursor wraps, and each single drop or deletion of an
oldest record counts its size. -/
structure Exact (st st' : Stream) (s s' : ShmBufferExData) : Prop where
  endVptr : s'.getEndVptr = s.getEndVptr + total recSize (st'.log.drop st.log.length)
  beginVptr : s'.getBeginVptr =
    s.getBeginVptr + total recSize (st.live.take (st'.gone - st.gone))
  tail : ∀ p, st'.log = st.log ++ [p] → s.tail + recSize p < 2 ^ 32
  drops : ∀ a p b, st.live = a ++ p :: b →
    (discardAll s a).head + recSize p < 2 ^ 32 ∧
      (discardAll s (a ++ [p])).getBeginVptr = (discardAll s a).getBeginVptr + recSize p

theorem getEndVptr_storeRecord (s : ShmBufferExData) (chunks : ShmChunks) (n : Nat) :
    (s.storeRecord chunks n).getEndVptr = i64 (u32 (s.tail + n) + s.tailOffset : Nat) := by
  have htail : (s.storeRecord chunks n).tail = (s.commit n).tail := rfl
  have hoffset : (s.storeRecord chunks n).tailOffset = (s.commit n).tailOffset := rfl
  rw [ShmBufferExData.getEndVptr, htail, hoffset, i64_u64, i64_inj]
  simp only [ShmBufferExData.commit]
  split
  · rw [Nat.add_comm, u64_u64_add]
    congr 1
    omega
  · rfl

section

variable {size pos : Nat} {s s' : ShmBufferExData} {q : List Payload} {st st' : Stream}

theorem drops_exact (h : LaidOut size s pos q) (hbound : pos + total recSize q < 2 ^ 63)
    {a b : List Payload} {p : Payload} (hq : q = a ++ p :: b) :
    (discardAll s a).head + recSize p < 2 ^ 32 ∧
      (discardAll s (a ++ [p])).getBeginVptr = (discardAll s a).getBeginVptr + recSize p := by
  subst hq
  have hbefore := h.without
  have hafter : LaidOut size (discardAll s (a ++ [p])) (pos + total recSize (a ++ [p])) b :=
    LaidOut.without (by rwa [List.append_assoc])
  simp only [total_append, total_cons, total_nil] at hbound hafter
  refine ⟨hbefore.head_add_lt, ?_⟩
  rw [getBeginVptr_eq hbefore, getBeginVptr_eq hafter, i64_natCast (by omega),
    i64_natCast (by omega)]
  omega

theorem live_end (st : Stream) :
    startOf st.log st.gone + total recSize st.live = st.volume :=
  startOf_add_drop st.log st.gone

theorem getEndVptr_of_follows (h : Follows size s st) (hvolume : st.volume < 2 ^ 63) :
    s.getEndVptr = st.volume := by
  rw [getEndVptr_eq h.laidOut, live_end, i64_natCast hvolume]

theorem getBeginVptr_of_follows (h : Follows size s st) (hvolume : st.volume < 2 ^ 63) :
    s.getBeginVptr = startOf st.log st.gone := by
  have hle := startOf_le st.log st.gone
  rw [getBeginVptr_eq h.laidOut, i64_natCast (Nat.lt_of_le_of_lt hle hvolume)]

theorem tail_add_tailOffset (h : Follows size s st) (hvolume : st.volume < 2 ^ 63) :
    s.tail + s.tailOffset = st.volume := by
  have hle := h.laidOut.tail_le
  have hoffset := h.laidOut.tailOffset_eq
  rw [live_end] at hle hoffset
  rw [hoffset, u64_of_lt (by omega), Nat.add_sub_cancel' hle]

theorem exact_of_follows (h : Follows size s st) (h' : Follows size s' st')
    (hgrow : st.gone ≤ st'.gone) (hgone : st'.gone ≤ st.log.length) {new : List Payload}
    (hlog : st'.log = st.log ++ new) (hvolume : st'.volume < 2 ^ 63)
    (htail : ∀ p, st'.log = st.log ++ [p] → s.tail + recSize p < 2 ^ 32) :
    Exact st st' s s' := by
  have hsum : st'.volume = st.volume + total recSize new := by
    rw [Stream.volume, hlog, total_append]
    rfl
  have hold : st.volume < 2 ^ 63 := by omega
  have hstart : startOf st'.log st'.gone =
      startOf st.log st.gone + total recSize (st.live.take (st'.gone - st.gone)) := by
    rw [Stream.live, ← startOf_add, Nat.add_sub_cancel' hgrow, hlog, startOf, startOf,
      List.take_append_of_le_length hgone]
  refine ⟨?_, ?_, htail, fun a p b hlive => ?_⟩
  · rw [getEndVptr_of_follows h hold, getEndVptr_of_follows h' hvolume, hsum, hlog,
      List.drop_left, Int.natCast_add]
  · rw [getBeginVptr_of_follows h hold, getBeginVptr_of_follows h' hvolume, hstart,
      Int.natCast_add]
  · exact drops_exact h.laidOut (by rw [live_end]; exact hold) hlive

theorem push_of_stores (h : Follows size s st) {p : Payload} (hfit : recSize p ≤ size - 1)
    (hstores : Stores s (recSize p)) :
    ∃ k, (st.push (size - 1) p).2 = { st with log := st.log ++ [p], gone := st.gone + k } := by
  have hv := h.laidOut.verdict_of_stores hfit hstores
  rw [h.mode_eq] at hv
  rw [Stream.push, hv]
  exact ⟨_, rfl⟩

theorem push_of_not_stores (h : Follows size s st) {p : Payload} (hfit : recSize p ≤ size - 1)
    (hstores : ¬ Stores s (recSize p)) : (st.push (size - 1) p).2 = st := by
  obtain ⟨-, ⟨-, hv⟩ | ⟨-, hv⟩⟩ := h.laidOut.verdict_of_not_stores hfit hstores
  all_goals
    rw [h.mode_eq] at hv
    rw [Stream.push, hv]

theorem push_clear (h : Follows size s st) (hvolume : st.volume < 2 ^ 63) {chunks : ShmChunks}
    (hfit : recSize chunks.payload ≤ size - 1) (hclear : Clear s (.push chunks)) :
    ∃ o s', step s (.push chunks) = some (o, s') ∧
      Follows size s' (st.push (size - 1) chunks.payload).2 ∧
      (st.push (size - 1) chunks.payload).2.volume < 2 ^ 63 ∧
      ∀ p, (st.push (size - 1) chunks.payload).2.log = st.log ++ [p] →
        s.tail + recSize p < 2 ^ 32 := by
  by_cases hstores : Stores s (recSize chunks.payload)
  · obtain ⟨htail, hend⟩ := hclear (.inl hstores)
    obtain ⟨s', hs', hfollows, -⟩ := h.push chunks hfit (by omega) fun _ => htail
    refine ⟨_, s', hs', hfollows, ?_⟩
    obtain ⟨k, hst⟩ := push_of_stores h hfit hstores
    rw [tail_add_tailOffset h hvolume] at hend
    rw [hst]
    constructor
    · rw [Stream.volume, total_append, total_cons, total_nil]
      change st.volume + _ < _
      omega
    · intro p hp
      rw [← List.singleton_inj.mp (List.append_cancel_left hp)]
      exact htail
  · have htruncated : ¬ Stores s (u32 (recSize chunks.payload)) := by
      intro hn
      have hlt := (hclear (.inr hn)).1
      rw [u32_of_lt (by omega)] at hn
      exact hstores hn
    obtain ⟨ok, s', hpush, hsame⟩ := push_not_stored (recordSize_eq chunks) htruncated
    refine ⟨.pushed ok, s', by rw [step, hpush]; rfl, ?_⟩
    rw [push_of_not_stores h hfit hstores]
    refine ⟨?_, hvolume, fun p hp => absurd hp (by simp)⟩
    rcases hsame with rfl | rfl
    · exact h
    · exact ⟨h.mode_eq, h.gone_le, h.laidOut.dropNewRecord _⟩

theorem push_not_clear (h : Follows size s st) (hvolume : st.volume < 2 ^ 63) {chunks : ShmChunks}
    (hfit : recSize chunks.payload ≤ size - 1) (hclear : ¬ Clear s (.push chunks)) :
    ∃ o s', step s (.push chunks) = some (o, s') ∧
      ¬ Exact st (st.push (size - 1) chunks.payload).2 s s' := by
  obtain ⟨hstores, hwrap⟩ := Classical.not_imp.mp hclear
  have hend := getEndVptr_of_follows h hvolume
  have hpos := recSize_pos chunks.payload
  have hvptr := tail_add_tailOffset h hvolume
  by_cases hn : Stores s (u32 (recSize chunks.payload))
  · have hfit' : u32 (recSize chunks.payload) ≤ size - 1 :=
      Nat.le_trans (Nat.mod_le _ _) hfit
    obtain ⟨hpush, -⟩ := h.laidOut.push_stored (recordSize_eq chunks) hfit' hn
    refine ⟨_, _, by rw [step, hpush]; rfl, fun hexact => hwrap ?_⟩
    have hmoved := hexact.endVptr
    rw [getEndVptr_storeRecord, discardAll_tail, discardAll_tailOffset, hend] at hmoved
    by_cases htrue : Stores s (recSize chunks.payload)
    · obtain ⟨k, hst⟩ := push_of_stores h hfit htrue
      rw [hst, List.drop_left, total_cons, total_nil] at hmoved
      simp only [i64, u32] at hmoved
      omega
    · have hne : u32 (recSize chunks.payload) ≠ recSize chunks.payload := by
        intro heq
        rw [heq] at hn
        exact htrue hn
      have hzero := hn.1
      rw [push_of_not_stores h hfit htrue, List.drop_length, total_nil] at hmoved
      simp only [i64, u32] at hmoved hne hzero
      omega
  · have htrue := hstores.resolve_right hn
    have hzero : u32 (recSize chunks.payload) = 0 := by
      by_contra hpos'
      have hle : u32 (recSize chunks.payload) ≤ recSize chunks.payload := Nat.mod_le _ _
      exact hn ⟨hpos', fun hfree => htrue.2 (Nat.lt_of_lt_of_le hfree hle)⟩
    obtain ⟨ok, s', hpush, hsame⟩ := push_not_stored (recordSize_eq chunks) hn
    refine ⟨.pushed ok, s', by rw [step, hpush]; rfl, fun hexact => ?_⟩
    have hmoved := hexact.endVptr
    have hkept : s'.getEndVptr = s.getEndVptr := by
      rcases hsame with rfl | rfl <;> rfl
    obtain ⟨k, hst⟩ := push_of_stores h hfit htrue
    rw [hkept, hst, List.drop_left, total_cons, total_nil] at hmoved
    omega

theorem pop_log (st : Stream) (maxSize : Nat) (deleteRecord : Bool) :
    (st.pop maxSize deleteRecord).2.log = st.log := by
  rw [Stream.pop]
  split
  · rfl
  · split
    · rfl
    · cases deleteRecord <;> rfl

theorem step_clear (h : Follows size s st) (hvolume : st.volume < 2 ^ 63) (op : Op)
    (hfit : op.Fits size) (hclear : Clear s op) :
    ∃ o s', step s op = some (o, s') ∧ Follows size s' (st.step (size - 1) op).2 ∧
      (st.step (size - 1) op).2.volume < 2 ^ 63 ∧ Exact st (st.step (size - 1) op).2 s s' := by
  have hsame : ∀ {st' : Stream}, st'.log = st.log →
      st'.volume < 2 ^ 63 ∧ ∀ p, st'.log = st.log ++ [p] → s.tail + recSize p < 2 ^ 32 := by
    intro st' hlog
    rw [Stream.volume, hlog]
    exact ⟨hvolume, fun p hp => absurd hp (by simp)⟩
  have hstep : ∃ o s', step s op = some (o, s') ∧ Follows size s' (st.step (size - 1) op).2 ∧
      (st.step (size - 1) op).2.volume < 2 ^ 63 ∧
      ∀ p, (st.step (size - 1) op).2.log = st.log ++ [p] → s.tail + recSize p < 2 ^ 32 := by
    cases op with
    | push chunks => exact push_clear h hvolume hfit hclear
    | pop maxSize deleteRecord =>
      obtain ⟨s', hs', hfollows, -⟩ := h.pop maxSize deleteRecord
      exact ⟨_, s', hs', hfollows, hsame (pop_log st maxSize deleteRecord)⟩
    | setOverflovBehavior d dropIsOk =>
      exact ⟨_, _, rfl, ⟨rfl, h.gone_le, h.laidOut.setOverflovBehavior d dropIsOk⟩, hsame rfl⟩
  obtain ⟨o, s', hs', hfollows, hbound, htail⟩ := hstep
  obtain ⟨hgrow, hlog⟩ := st.step_grows (size - 1) op
  have hgone := Stream.step_gone_le (size - 1) h.gone_le op
  have hnew : ∃ new, (st.step (size - 1) op).2.log = st.log ++ new := by
    rcases hlog with hlog | ⟨p, hlog⟩
    · exact ⟨[], by rw [hlog, List.append_nil]⟩
    · exact ⟨[p], hlog⟩
  obtain ⟨new, hnew⟩ := hnew
  exact ⟨o, s', hs', hfollows, hbound, exact_of_follows h hfollows hgrow hgone hnew hbound htail⟩

theorem step_exact_iff (h : Follows size s st) (hvolume : st.volume < 2 ^ 63) (op : Op)
    (hfit : op.Fits size) :
    ∃ o s', step s op = some (o, s') ∧
      (Exact st (st.step (size - 1) op).2 s s' ↔ Clear s op) := by
  by_cases hclear : Clear s op
  · obtain ⟨o, s', hs', -, -, hexact⟩ := step_clear h hvolume op hfit hclear
    exact ⟨o, s', hs', fun _ => hclear, fun _ => hexact⟩
  · cases op with
    | push chunks =>
      obtain ⟨o, s', hs', hinexact⟩ := push_not_clear h hvolume hfit hclear
      exact ⟨o, s', hs', fun hexact => absurd hexact hinexact, fun hc => absurd hc hclear⟩
    | pop maxSize deleteRecord => exact absurd trivial hclear
    | setOverflovBehavior d dropIsOk => exact absurd trivial hclear

theorem clear_of_le (h : Follows size s st) (hsize : size ≤ 2 ^ 31) (op : Op)
    (hfit : op.Fits size) (hvolume : (st.step (size - 1) op).2.volume < 2 ^ 63) : Clear s op := by
  cases op with
  | pop maxSize deleteRecord => trivial
  | setOverflovBehavior d dropIsOk => trivial
  | push chunks =>
    change recSize chunks.payload ≤ size - 1 at hfit
    have hle := h.laidOut.tail.le
    have hpos := recSize_pos chunks.payload
    intro hstores
    rw [u32_of_lt (by omega), or_self] at hstores
    obtain ⟨k, hst⟩ := push_of_stores h hfit hstores
    have hsum : (st.push (size - 1) chunks.payload).2.volume =
        st.volume + recSize chunks.payload := by
      rw [hst, Stream.volume, total_append, total_cons, total_nil]
      rfl
    change (st.push (size - 1) chunks.payload).2.volume < 2 ^ 63 at hvolume
    rw [tail_add_tailOffset h (by omega)]
    constructor <;> omega

def streamOf (size : Nat) (trace : List (Op × Out)) : Stream :=
  (exec (Stream.step (size - 1)) .fresh (trace.map Prod.fst)).2

theorem streamOf_append_one (size : Nat) (trace : List (Op × Out)) (op : Op) (o : Out) :
    streamOf size (trace ++ [(op, o)]) = ((streamOf size trace).step (size - 1) op).2 := by
  rw [streamOf, List.map_append, List.map_singleton, exec_append_one]
  rfl

theorem run_follows (raw : ShmBufferExData) (hpos : 0 < size)
    (hsize : size + ShmBufferExData.sizeof < 2 ^ 64) {trace : List (Op × Out)}
    (run : Run step (fun s op => op.Fits size ∧ Clear s op)
      (raw.init (size + ShmBufferExData.sizeof)) trace s) :
    Follows size s (streamOf size trace) ∧ (streamOf size trace).volume < 2 ^ 63 := by
  refine run.invariant_trace
    (I := fun trace s => Follows size s (streamOf size trace) ∧
      (streamOf size trace).volume < 2 ^ 63)
    ⟨Follows.init raw hpos (by omega), Nat.two_pow_pos 63⟩ fun trace s op o s' hI hok hs => ?_
  obtain ⟨o', t, ht, hfollows, hbound, -⟩ := step_clear hI.1 hI.2 op hok.1 hok.2
  obtain rfl := Run.state_eq (ht.symm.trans hs)
  rw [streamOf_append_one]
  exact ⟨hfollows, hbound⟩

end

/-- In a ring of any size and a run of which every message is clear, the
positions are the bytes of the records that came and left, and the next call
moves them exactly if it is clear too. -/
theorem positions_exact_iff (raw : ShmBufferExData) (size : Nat) (hpos : 0 < size)
    (hsize : size + ShmBufferExData.sizeof < 2 ^ 64) {trace : List (Op × Out)}
    {s : ShmBufferExData}
    (run : Run step (fun s op => op.Fits size ∧ Clear s op)
      (raw.init (size + ShmBufferExData.sizeof)) trace s) :
    s.getEndVptr = total recSize (streamOf size trace).log ∧
      s.getBeginVptr = total recSize ((streamOf size trace).log.take (streamOf size trace).gone) ∧
      ∀ op : Op, op.Fits size → ∃ o s', step s op = some (o, s') ∧
        (Exact (streamOf size trace) ((streamOf size trace).step (size - 1) op).2 s s' ↔
          Clear s op) := by
  obtain ⟨h, hvolume⟩ := run_follows raw hpos hsize run
  exact ⟨getEndVptr_of_follows h hvolume, getBeginVptr_of_follows h hvolume,
    fun op hfit => step_exact_iff h hvolume op hfit⟩

theorem positions_exact_iff_short :
    ∃ trace s, trace.map Prod.fst = [.push (.single [7, 8, 9] (by decide))] ∧
      Run step (fun s op => op.Fits 4096 ∧ Clear s op)
        (blank.init (4096 + ShmBufferExData.sizeof)) trace s ∧
      s.getEndVptr = 11 ∧ s.getBeginVptr = 0 := by
  have hfits : (Op.push (.single [7, 8, 9] (by decide))).Fits 4096 := by
    change recSize _ ≤ _
    decide
  have hinit : Follows 4096 (blank.init (4096 + ShmBufferExData.sizeof)) .fresh :=
    Follows.init blank (by decide) (by decide)
  have hclear := clear_of_le hinit (by decide) _ hfits (by decide)
  have run : Run step (fun s op => op.Fits 4096 ∧ Clear s op)
      (blank.init (4096 + ShmBufferExData.sizeof)) _ _ :=
    .next (i := Op.push (.single [7, 8, 9] (by decide))) .start ⟨hfits, hclear⟩ rfl
  obtain ⟨hend, hbegin, -⟩ := positions_exact_iff blank 4096 (by decide) (by decide) run
  exact ⟨_, _, rfl, run, hend.trans (by decide), hbegin.trans (by decide)⟩

theorem exists_half_message : ∃ chunks : ShmChunks, recSize chunks.payload = 2 ^ 31 := by
  refine ⟨.single (List.replicate 2147483640 0) (by rw [List.length_replicate]; decide), ?_⟩
  rw [recSize, ShmChunks.payload, ShmChunks.single, List.flatten_singleton, List.length_replicate,
    ShmBufferRecord.recordSize, ShmBufferRecord.sizeof]
  rfl

section

variable {size : Nat} {raw s : ShmBufferExData} {st : Stream} {chunks : ShmChunks}

theorem run_pass (hfit : recSize chunks.payload ≤ size - 1)
    (hsize : size + ShmBufferExData.sizeof < 2 ^ 64)
    (hclear : Clear (raw.init (size + ShmBufferExData.sizeof)) (.push chunks)) :
    ∃ trace s, Run step (fun s op => op.Fits size ∧ Clear s op)
        (raw.init (size + ShmBufferExData.sizeof)) trace s ∧
      streamOf size trace = ⟨.returnError, [chunks.payload], 1⟩ := by
  have hpos := recSize_pos chunks.payload
  have hinit : Follows size (raw.init (size + ShmBufferExData.sizeof)) .fresh :=
    Follows.init raw (by omega) (by omega)
  have hpush : (Stream.fresh.step (size - 1) (.push chunks)).2 =
      ⟨.returnError, [chunks.payload], 0⟩ := by
    simp [Stream.step, Stream.push, Stream.fresh, Stream.live, verdict, hfit]
  have hpop : (Stream.step (size - 1) ⟨.returnError, [chunks.payload], 0⟩
      (.pop chunks.payload.length true)).2 = ⟨.returnError, [chunks.payload], 1⟩ := by
    simp [Stream.step, Stream.pop, Stream.live]
  obtain ⟨o₁, s₁, hs₁, h₁, hvolume₁, -⟩ :=
    step_clear hinit (Nat.two_pow_pos 63) (.push chunks) hfit hclear
  rw [hpush] at h₁ hvolume₁
  obtain ⟨o₂, s₂, hs₂, -⟩ :=
    step_clear h₁ hvolume₁ (.pop chunks.payload.length true) trivial trivial
  have run : Run step (fun s op => op.Fits size ∧ Clear s op)
      (raw.init (size + ShmBufferExData.sizeof)) _ s₂ :=
    .next (i := Op.pop chunks.payload.length true)
      (.next (i := Op.push chunks) .start ⟨hfit, hclear⟩ hs₁) ⟨trivial, trivial⟩ hs₂
  refine ⟨_, s₂, run, ?_⟩
  rw [streamOf_append_one, streamOf_append_one]
  change ((Stream.fresh.step (size - 1) (.push chunks)).2.step (size - 1) _).2 = _
  rw [hpush, hpop]

theorem tail_of_lt (h : Follows size s st) (hlt : st.volume < size) : s.tail = st.volume := by
  have hle := h.laidOut.tail_le
  have hmod := h.laidOut.tail.mod
  rw [live_end] at hle hmod
  rw [Nat.mod_eq_of_lt hlt] at hmod
  have := Nat.mod_le s.tail size
  omega

theorem not_clear_of_wrap (h : Follows size s st) (hlive : st.live = [])
    (hfit : recSize chunks.payload ≤ size - 1)
    (hwrap : 2 ^ 32 ≤ s.tail + recSize chunks.payload) : ¬ Clear s (.push chunks) := by
  intro hclear
  have hlaid := h.laidOut
  rw [hlive] at hlaid
  have hstores : Stores s (recSize chunks.payload) := by
    refine ⟨(recSize_pos _).ne', fun hfree => ?_⟩
    rw [hlaid.freeSize_lt_iff hfit, total_nil, Nat.zero_add] at hfree
    exact absurd hfit hfree
  have hlt := (hclear (.inl hstores)).1
  omega

end

/-- In a larger ring such a message can pass, and the next one does not move
the end position as it should. -/
theorem run_half (raw : ShmBufferExData) (size : Nat) (hlarge : 2 ^ 31 < size)
    (hsize : size + ShmBufferExData.sizeof < 2 ^ 64) :
    ∃ trace s op o s', Run step (fun _ => Op.Fits size)
        (raw.init (size + ShmBufferExData.sizeof)) trace s ∧
      op.Fits size ∧ ((streamOf size trace).step (size - 1) op).2.volume < 2 ^ 63 ∧
      step s op = some (o, s') ∧
      ¬ Exact (streamOf size trace) ((streamOf size trace).step (size - 1) op).2 s s' := by
  obtain ⟨chunks, hchunks⟩ := exists_half_message
  have hfit : recSize chunks.payload ≤ size - 1 := by omega
  have hclear : Clear (raw.init (size + ShmBufferExData.sizeof)) (.push chunks) := by
    intro _
    rw [hchunks]
    exact ⟨by change 0 + 2 ^ 31 < 2 ^ 32; decide, by change 0 + 0 + 2 ^ 31 < 2 ^ 63; decide⟩
  obtain ⟨trace, s, run, hstream⟩ := run_pass hfit hsize hclear
  obtain ⟨h, hbound⟩ := run_follows raw (by omega) hsize run
  have hvolume : (streamOf size trace).volume = 2 ^ 31 := by
    rw [hstream, Stream.volume, total_cons, total_nil, hchunks, Nat.add_zero]
  have hlive : (streamOf size trace).live = [] := by rw [hstream]; rfl
  have htail := tail_of_lt h (by omega)
  have hwrap := not_clear_of_wrap h hlive hfit (by omega)
  obtain ⟨o, s', hs', hinexact⟩ := push_not_clear h hbound hfit hwrap
  have hnext : ((streamOf size trace).push (size - 1) chunks.payload).2.volume < 2 ^ 63 := by
    by_cases hstores : Stores s (recSize chunks.payload)
    · obtain ⟨k, hst⟩ := push_of_stores h hfit hstores
      rw [hst, Stream.volume, total_append, total_cons, total_nil, hchunks]
      change (streamOf size trace).volume + _ < _
      omega
    · rw [push_of_not_stores h hfit hstores]
      exact hbound
  exact ⟨trace, s, .push chunks, o, s', run.weaken fun _ _ hok => hok.1, hfit, hnext, hs',
    hinexact⟩

/-- The sizes for which every run moves the positions exactly, as long as the
positions themselves do not run out. -/
theorem run_exact_iff_size (size : Nat) (hpos : 0 < size)
    (hsize : size + ShmBufferExData.sizeof < 2 ^ 64) :
    (∀ (raw : ShmBufferExData) (trace : List (Op × Out)) (s : ShmBufferExData) (op : Op),
      Run step (fun _ => Op.Fits size) (raw.init (size + ShmBufferExData.sizeof)) trace s →
      op.Fits size → ((streamOf size trace).step (size - 1) op).2.volume < 2 ^ 63 →
      ∃ o s', step s op = some (o, s') ∧
        Exact (streamOf size trace) ((streamOf size trace).step (size - 1) op).2 s s') ↔
      size ≤ 2 ^ 31 := by
  constructor
  · intro hall
    by_contra hlarge
    obtain ⟨trace, s, op, o, s', run, hfit, hnext, hs', hinexact⟩ :=
      run_half blank size (Nat.lt_of_not_le hlarge) hsize
    obtain ⟨o', t, ht, hexact⟩ := hall blank trace s op run hfit hnext
    obtain rfl := Run.state_eq (ht.symm.trans hs')
    exact hinexact hexact
  · intro hsmall raw trace s op run hfit hnext
    have h := (run_tracks raw hpos hsmall run).2.follows
    have hbound := Nat.lt_of_le_of_lt (Stream.volume_le_step (size - 1) _ op) hnext
    obtain ⟨o, s', hs', -, -, hexact⟩ :=
      step_clear h hbound op hfit (clear_of_le h hsmall op hfit hnext)
    exact ⟨o, s', hs', hexact⟩

/-- The second record of `2 ^ 31` bytes sets the tail of a ring of `2 ^ 32`
bytes back to its start. -/
theorem end_position_falls :
    ¬ ∀ (raw : ShmBufferExData) (size : Nat) (trace : List (Op × Out)) (s : ShmBufferExData)
      (op : Op), 4096 ∣ size → 0 < size → size + ShmBufferExData.sizeof < 2 ^ 64 →
      Run step (fun _ => Op.Fits size) (raw.init (size + ShmBufferExData.sizeof)) trace s →
      op.Fits size → ∃ o s', step s op = some (o, s') ∧
        Exact (streamOf size trace) ((streamOf size trace).step (size - 1) op).2 s s' := by
  intro hall
  have hsize : 2 ^ 32 + ShmBufferExData.sizeof < 2 ^ 64 := by decide
  obtain ⟨trace, s, op, o, s', run, hfit, -, hs', hinexact⟩ :=
    run_half blank (2 ^ 32) (by decide) hsize
  obtain ⟨o', t, ht, hexact⟩ :=
    hall blank (2 ^ 32) trace s op (by decide) (by decide) hsize run hfit
  obtain rfl := Run.state_eq (ht.symm.trans hs')
  exact hinexact hexact

end HiloUtils.RingPositions
