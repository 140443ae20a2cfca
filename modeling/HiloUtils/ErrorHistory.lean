import HiloUtils.Conservation

/-! Dropped messages and errors. A drop is classified when it happens, for the
lifetime total, and again when it is handed over to the error history, by the
`drop_is_ok` of that moment. The drops that wait for the next transfer are
tallied beside the code by the class they had when they happened. -/

namespace HiloUtils.ErrorHistory

open Word MessageQueue Conservation

structure Counted (n : Nat) (s s' : ShmBufferExData) : Prop where
  total : u64 s'.totalDropCount = u64 (s.totalDropCount + n)
  tmp : u64 s'.tmpDropCount = u64 (s.tmpDropCount + n)
  errors : u64 s'.totalErrorCount =
    if s.dropIsOk then u64 s.totalErrorCount else u64 (s.totalErrorCount + n)

theorem Counted.of_eq {s s' : ShmBufferExData} (htotal : s'.totalDropCount = s.totalDropCount)
    (htmp : s'.tmpDropCount = s.tmpDropCount) (herrors : s'.totalErrorCount = s.totalErrorCount) :
    Counted 0 s s' :=
  ⟨by rw [htotal, Nat.add_zero], by rw [htmp, Nat.add_zero],
    by rw [herrors, Nat.add_zero, ite_self]⟩

structure Drops (n : Nat) (s s' : ShmBufferExData) : Prop extends Counted n s s' where
  dropIsOk : s'.dropIsOk = s.dropIsOk

theorem u64_add_congr {a b : Nat} (h : u64 a = u64 b) (n : Nat) : u64 (a + n) = u64 (b + n) := by
  rw [← u64_u64_add, h, u64_u64_add]

theorem errors_one (s : ShmBufferExData) :
    u64 (if s.dropIsOk then s.totalErrorCount else u64 (s.totalErrorCount + 1)) =
      if s.dropIsOk then u64 s.totalErrorCount else u64 (s.totalErrorCount + 1) := by
  split
  · rfl
  · exact u64_u64 _

namespace Drops

variable {n m : Nat} {s s' s'' : ShmBufferExData}

theorem refl (s : ShmBufferExData) : Drops 0 s s := ⟨.of_eq rfl rfl rfl, rfl⟩

theorem trans (h : Drops n s s') (h' : Drops m s' s'') : Drops (n + m) s s'' where
  total := by rw [h'.total, u64_add_congr h.total, Nat.add_assoc]
  tmp := by rw [h'.tmp, u64_add_congr h.tmp, Nat.add_assoc]
  errors := by
    have hfirst := h.errors
    rw [h'.errors, h.dropIsOk]
    cases hok : s.dropIsOk with
    | true =>
      rw [hok] at hfirst
      exact hfirst
    | false =>
      rw [hok] at hfirst
      simp only [Bool.false_eq_true, if_false] at hfirst ⊢
      rw [u64_add_congr hfirst, Nat.add_assoc]
  dropIsOk := h'.dropIsOk.trans h.dropIsOk

theorem discard (s : ShmBufferExData) (size : Nat) : Drops 1 s (s.discard size) where
  total := u64_u64 _
  tmp := u64_u64 _
  errors := errors_one s
  dropIsOk := rfl

theorem dropNewRecord (s : ShmBufferExData) (recSize : Nat) :
    Drops 1 s (s.dropNewRecord recSize) where
  total := u64_u64 _
  tmp := u64_u64 _
  errors := errors_one s
  dropIsOk := rfl

theorem storeRecord (s : ShmBufferExData) (chunks : ShmChunks) (recSize : Nat) :
    Drops 0 s (s.storeRecord chunks recSize) :=
  ⟨.of_eq rfl rfl rfl, rfl⟩

theorem dropLoop {need rounds : Nat} {ok : Bool}
    (h : ShmBufferExData.dropLoop need rounds s = some (ok, s')) : ∃ n, Drops n s s' := by
  induction rounds generalizing s with
  | zero => exact absurd h (by simp [ShmBufferExData.dropLoop])
  | succ rounds ih =>
    obtain ⟨-, -, rfl⟩ | ⟨-, -, -, rfl⟩ | ⟨rec, -, -, hloop⟩ := ShmBufferExData.dropLoop_cases h
    · exact ⟨0, refl s'⟩
    · exact ⟨0, refl s'⟩
    · obtain ⟨n, hrest⟩ := ih hloop
      exact ⟨1 + n, (discard s _).trans hrest⟩

theorem dropFirstRecords {need : Nat} {ok : Bool}
    (h : s.dropFirstRecords need = some (ok, s')) : ∃ n, Drops n s s' := by
  rw [ShmBufferExData.dropFirstRecords] at h
  exact dropLoop h

theorem push {chunks : ShmChunks} {ok : Bool} (h : s.push chunks = some (ok, s')) :
    ∃ n, Drops n s s' := by
  simp only [ShmBufferExData.push] at h
  split at h
  · obtain rfl := Run.state_eq h
    exact ⟨0, refl s⟩
  · split at h
    · cases hmode : s.onOverflow with
      | returnError =>
        rw [hmode] at h
        obtain rfl := Run.state_eq h
        exact ⟨0, refl s⟩
      | dropNew =>
        rw [hmode] at h
        obtain rfl := Run.state_eq h
        exact ⟨1, dropNewRecord s _⟩
      | dropOld =>
        rw [hmode] at h
        cases hdrop : s.dropFirstRecords (u32 (ShmBufferRecord.recordSize chunks.size)) with
        | none =>
          rw [hdrop] at h
          exact absurd h (by simp)
        | some r =>
          obtain ⟨dropped, t⟩ := r
          obtain ⟨n, hdrops⟩ := dropFirstRecords hdrop
          rw [hdrop] at h
          cases dropped with
          | false =>
            obtain rfl := Run.state_eq h
            exact ⟨n, hdrops⟩
          | true =>
            obtain rfl := Run.state_eq h
            exact ⟨n + 0, hdrops.trans (storeRecord _ _ _)⟩
    · obtain rfl := Run.state_eq h
      exact ⟨0, storeRecord s _ _⟩

theorem pop {maxSize : Nat} {deleteRecord : Bool} {fetch : Fetch}
    (h : s.pop maxSize deleteRecord = some (fetch, s')) : Drops 0 s s' := by
  simp only [ShmBufferExData.pop] at h
  split at h
  · obtain rfl := Run.state_eq h
    exact refl s
  · split at h
    · exact absurd h (by simp)
    · split at h
      · obtain rfl := Run.state_eq h
        exact refl s
      · obtain rfl := Run.state_eq h
        split
        · exact ⟨.of_eq rfl rfl rfl, rfl⟩
        · exact refl s

end Drops

/-- A queue with the drops that wait to be handed over, as 64-bit words. -/
structure Tally where
  buffer : ShmBufferEx
  waitingOk : Nat
  waitingErrors : Nat

namespace Tally

def drops (s s' : ShmBufferExData) : Nat := subU64 s'.totalDropCount (u64 s.totalDropCount)

def next (t : Tally) (b : ShmBufferEx) : BufferOp → Tally
  | .updateCounters _ => ⟨b, 0, 0⟩
  | .queue _ =>
    let n := drops t.buffer.data b.data
    if t.buffer.data.dropIsOk then ⟨b, u64 (t.waitingOk + n), t.waitingErrors⟩
    else ⟨b, t.waitingOk, u64 (t.waitingErrors + n)⟩

def step (t : Tally) (op : BufferOp) : Option (Option Out × Tally) :=
  (Conservation.step t.buffer op).map fun r => (r.1, t.next r.2 op)

@[simp] theorem next_buffer (t : Tally) (b : ShmBufferEx) (op : BufferOp) :
    (t.next b op).buffer = b := by
  cases op with
  | updateCounters clock => rfl
  | queue op =>
    simp only [next]
    split <;> rfl

/-- No waiting drop was made under the other `drop_is_ok`. -/
def Uniform (t : Tally) : Prop :=
  if t.buffer.data.dropIsOk then t.waitingErrors = 0 else t.waitingOk = 0

end Tally

def Agree (b : ShmBufferEx) : Prop := b.cErrorHistory.totalCount = i64 b.data.totalErrorCount

/-- A transfer of the counters meets drops of one class. -/
def UniformTransfer (t : Tally) : BufferOp → Prop
  | .updateCounters _ => t.Uniform
  | .queue _ => True

/-- The history has the errors transferred so far; those that wait, and the
drops that are no errors, are in the queue. -/
structure Sound (t : Tally) : Prop where
  history : ∃ e : Nat, t.buffer.cErrorHistory.totalCount = i64 e ∧
    u64 t.buffer.data.totalErrorCount = u64 (e + t.waitingErrors)
  tmp : u64 t.buffer.data.tmpDropCount = u64 (t.waitingOk + t.waitingErrors)
  waitingOk_lt : t.waitingOk < 2 ^ 64
  waitingErrors_lt : t.waitingErrors < 2 ^ 64

theorem drops_eq {n : Nat} {s s' : ShmBufferExData} (h : Counted n s s') :
    Tally.drops s s' = u64 n := by
  have htotal := h.total
  simp only [u64] at htotal
  simp only [Tally.drops, subU64, u64]
  omega

namespace Sound

variable {t t' : Tally} {b : ShmBufferEx}

theorem init (raw : ShmBufferExData) (size : Nat) (name : String) (clock : TransferClock) :
    Sound ⟨opened raw size name clock, 0, 0⟩ :=
  ⟨⟨0, rfl, rfl⟩, rfl, Nat.two_pow_pos 64, Nat.two_pow_pos 64⟩

theorem queue {n : Nat} {op : Op} (h : Sound t) (hdrops : Counted n t.buffer.data b.data)
    (hhistory : b.cErrorHistory = t.buffer.cErrorHistory) : Sound (t.next b (.queue op)) := by
  obtain ⟨e, he, herrors⟩ := h.history
  have htmp := h.tmp
  have hdropped := hdrops.errors
  rw [← hhistory] at he
  cases hok : t.buffer.data.dropIsOk with
  | true =>
    have hnext : t.next b (.queue op) = ⟨b, u64 (t.waitingOk + u64 n), t.waitingErrors⟩ := by
      simp only [Tally.next, drops_eq hdrops, hok, if_true]
    rw [hok, if_pos rfl] at hdropped
    rw [hnext]
    refine ⟨⟨e, he, hdropped.trans herrors⟩, ?_, Nat.mod_lt _ (by decide), h.waitingErrors_lt⟩
    change u64 b.data.tmpDropCount = u64 (u64 (t.waitingOk + u64 n) + t.waitingErrors)
    rw [hdrops.tmp, u64_add_congr htmp]
    simp only [u64]
    omega
  | false =>
    have hnext : t.next b (.queue op) = ⟨b, t.waitingOk, u64 (t.waitingErrors + u64 n)⟩ := by
      simp only [Tally.next, drops_eq hdrops, hok, Bool.false_eq_true, if_false]
    simp only [hok, Bool.false_eq_true, if_false] at hdropped
    rw [hnext]
    refine ⟨⟨e, he, ?_⟩, ?_, h.waitingOk_lt, Nat.mod_lt _ (by decide)⟩
    · change u64 b.data.totalErrorCount = u64 (e + u64 (t.waitingErrors + u64 n))
      rw [hdropped, u64_add_congr herrors]
      simp only [u64]
      omega
    · change u64 b.data.tmpDropCount = u64 (t.waitingOk + u64 (t.waitingErrors + u64 n))
      rw [hdrops.tmp, u64_add_congr htmp]
      simp only [u64]
      omega

theorem agree_iff (h : Sound t) (clock : TransferClock) :
    Agree (t.buffer.updateCounters clock) ↔ t.Uniform := by
  obtain ⟨e, he, herrors⟩ := h.history
  have htmp := h.tmp
  have hok_lt := h.waitingOk_lt
  have herrors_lt := h.waitingErrors_lt
  have hcount : (t.buffer.updateCounters clock).cErrorHistory.totalCount =
      if t.buffer.data.dropIsOk then i64 e else i64 (e + t.buffer.data.tmpDropCount : Nat) := by
    change (if t.buffer.data.dropIsOk then t.buffer.cErrorHistory else
      t.buffer.cErrorHistory.addBatch _ _ _).totalCount = _
    split
    · exact he
    · rw [HistoryCounterData.addBatch_totalCount, he, i64_i64_add, i64_add_i64, Int.natCast_add]
  unfold Agree Tally.Uniform
  rw [hcount]
  change _ = i64 t.buffer.data.totalErrorCount ↔ _
  cases t.buffer.data.dropIsOk with
  | true =>
    simp only [if_true, i64_inj, herrors]
    simp only [u64]
    omega
  | false =>
    simp only [Bool.false_eq_true, if_false, i64_inj, herrors]
    simp only [u64] at htmp ⊢
    omega

theorem updateCounters (h : Sound t) (clock : TransferClock) (huniform : t.Uniform) :
    Sound (t.next (t.buffer.updateCounters clock) (.updateCounters clock)) where
  history := ⟨_, (h.agree_iff clock).mpr huniform, rfl⟩
  tmp := rfl
  waitingOk_lt := Nat.two_pow_pos 64
  waitingErrors_lt := Nat.two_pow_pos 64

theorem step {op : BufferOp} {o : Option Out} (h : Sound t) (hok : UniformTransfer t op)
    (hs : t.step op = some (o, t')) : Sound t' := by
  obtain ⟨⟨_, b⟩, hb, heq⟩ := Option.map_eq_some_iff.mp hs
  obtain ⟨-, rfl⟩ := Prod.mk.inj heq
  cases op with
  | updateCounters clock =>
    obtain rfl := Run.state_eq hb
    exact h.updateCounters clock hok
  | queue op =>
    cases op with
    | push chunks =>
      simp only [Conservation.step, ShmBufferEx.push] at hb
      cases hpush : t.buffer.data.push chunks with
      | none =>
        rw [hpush] at hb
        exact absurd hb (by simp)
      | some r =>
        obtain ⟨ok, data⟩ := r
        obtain ⟨n, hdrops⟩ := Drops.push hpush
        rw [hpush] at hb
        cases ok with
        | true =>
          obtain rfl := Run.state_eq hb
          exact h.queue hdrops.toCounted rfl
        | false =>
          obtain rfl := Run.state_eq hb
          exact h.queue hdrops.toCounted rfl
    | pop maxSize deleteRecord =>
      simp only [Conservation.step, ShmBufferEx.pop] at hb
      split at hb
      · obtain rfl := Run.state_eq hb
        exact h.queue (.of_eq rfl rfl rfl) rfl
      · obtain ⟨r, hr, hout⟩ := Option.map_eq_some_iff.mp hb
        obtain ⟨r', hpop, rfl⟩ := Option.map_eq_some_iff.mp hr
        obtain ⟨-, rfl⟩ := Prod.mk.inj hout
        exact h.queue (Drops.pop hpop).toCounted rfl
    | setOverflovBehavior d dropIsOk =>
      obtain rfl := Run.state_eq hb
      exact h.queue (.of_eq rfl rfl rfl) rfl

end Sound

theorem run_buffer {ok : Tally → BufferOp → Prop} {t t' : Tally}
    {trace : List (BufferOp × Option Out)} (run : Run Tally.step ok t trace t') :
    Run Conservation.step (fun _ _ => True) t.buffer trace t'.buffer := by
  refine run.project Tally.buffer fun s i o s' hs => ?_
  obtain ⟨r, hr, heq⟩ := Option.map_eq_some_iff.mp hs
  obtain ⟨rfl, rfl⟩ := Prod.mk.inj heq
  rw [hr, Tally.next_buffer]

/-- In a run whose transfers meet drops of one class only, the next transfer
leaves the error history and the error total in agreement exactly if it meets
drops of one class. -/
theorem run_agree_iff_uniform (raw : ShmBufferExData) (size : Nat) (name : String)
    (clock : TransferClock) {trace : List (BufferOp × Option Out)} {t : Tally}
    (run : Run Tally.step UniformTransfer ⟨opened raw size name clock, 0, 0⟩ trace t)
    (now : TransferClock) : Agree (t.buffer.updateCounters now) ↔ t.Uniform := by
  have h : Sound t := run.invariant (Sound.init raw size name clock)
    fun _ _ _ _ h hok hs => h.step hok hs
  exact h.agree_iff now

theorem Tally.step_push {t : Tally} {chunks : ShmChunks} {s data : ShmBufferExData}
    (hs : t.buffer.data = s) (h : s.push chunks = some (true, data)) :
    t.step (.queue (.push chunks)) = some (some (.pushed true),
      t.next { t.buffer with data := data } (.queue (.push chunks))) := by
  subst hs
  simp only [Tally.step, Conservation.step, ShmBufferEx.push, h]
  rfl

theorem exists_error_run :
    ∃ trace t, Run Tally.step UniformTransfer ⟨opened blank 8192 "q" ⟨0, 0, 0⟩, 0, 0⟩ trace t ∧
      t.buffer.data.totalErrorCount = 1 ∧ t.buffer.data.dropIsOk = false ∧ t.waitingOk = 0 ∧
      t.buffer.cErrorHistory.totalCount = 0 := by
  obtain ⟨chunks, hsize, -⟩ := exists_page_message 0
  let t : Tally := ⟨(opened blank 8192 "q" ⟨0, 0, 0⟩).setOverflovBehavior .dropNew false, 0, 0⟩
  have hrep : RecordQueue.Represents 8192 t.buffer.data 0 [] :=
    (RecordQueue.Represents.init blank (by decide) (by decide)).setOverflovBehavior _ _
  have hfit : RecordQueue.recSize chunks.payload ≤ 8192 - 1 := by
    rw [hsize]
    decide
  have hfirst := hrep.push chunks hfit
  have hv : RecordQueue.verdict (8192 - 1) t.buffer.data.onOverflow [] chunks.payload =
      .accepted 0 := by
    simp [RecordQueue.verdict, hsize]
  rw [hv] at hfirst
  obtain ⟨hpush, hrep'⟩ := hfirst
  have hv' : RecordQueue.verdict (8192 - 1) .dropNew [chunks.payload] chunks.payload =
      .ignored := by
    simp [RecordQueue.verdict, hsize]
  have hsecond := hrep'.push_ignored chunks hfit hv'
  have run : Run Tally.step UniformTransfer ⟨opened blank 8192 "q" ⟨0, 0, 0⟩, 0, 0⟩ _ t :=
    .next (i := BufferOp.queue (.setOverflovBehavior .dropNew false)) .start trivial rfl
  have run' := (run.next (i := BufferOp.queue (.push chunks)) trivial
      (Tally.step_push rfl hpush)).next (i := BufferOp.queue (.push chunks)) trivial
    (Tally.step_push (by rw [Tally.next_buffer]) hsecond)
  exact ⟨_, _, run', rfl, rfl, rfl, rfl⟩

theorem run_agree_iff_uniform_drop :
    ∃ trace t, Run Tally.step UniformTransfer ⟨opened blank 8192 "q" ⟨0, 0, 0⟩, 0, 0⟩ trace t ∧
      t.buffer.data.totalErrorCount = 1 ∧ Agree (t.buffer.updateCounters ⟨5000, 5000, 5000⟩) := by
  obtain ⟨trace, t, run, herrors, hok, hwaiting, -⟩ := exists_error_run
  refine ⟨trace, t, run, herrors, ?_⟩
  rw [run_agree_iff_uniform blank 8192 "q" ⟨0, 0, 0⟩ run ⟨5000, 5000, 5000⟩, Tally.Uniform, hok]
  exact hwaiting

/-- The error is no error any more when it is handed over. -/
theorem run_errors_disagree :
    ¬ ∀ (raw : ShmBufferExData) (size : Nat) (name : String) (clock now : TransferClock)
      (trace : List (BufferOp × Option Out)) (b : ShmBufferEx),
      Run Conservation.step (fun _ _ => True) (opened raw size name clock) trace b →
      Agree (b.updateCounters now) := by
  intro hall
  obtain ⟨trace, t, run, herrors, -, -, hhistory⟩ := exists_error_run
  have run' := (run_buffer run).next
    (i := BufferOp.queue (.setOverflovBehavior .dropNew true)) trivial rfl
  have hagree := hall _ _ _ _ ⟨5000, 5000, 5000⟩ _ _ run'
  have hhistory' : ((t.buffer.setOverflovBehavior .dropNew true).updateCounters
      ⟨5000, 5000, 5000⟩).cErrorHistory.totalCount = 0 := hhistory
  have herrors' : ((t.buffer.setOverflovBehavior .dropNew true).updateCounters
      ⟨5000, 5000, 5000⟩).data.totalErrorCount = 1 := herrors
  rw [Agree, hhistory', herrors'] at hagree
  exact absurd hagree (by decide)

end HiloUtils.ErrorHistory
