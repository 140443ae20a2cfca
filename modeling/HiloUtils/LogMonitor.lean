import HiloUtils.LogBase
import HiloUtils.Processes
import HiloUtils.Tally

/-! `LogMonitor` in every process of one program. The processes share the
settings counter of the log level and one counter of messages for each level;
`periodic` takes over the setting and hands over what was logged since. -/

namespace HiloUtils.LogMonitor

open Word CString LogBase

inductive Level
  | paranoid
  | debug
  | info
  | notice
  | warning
  | error
  | critical
  deriving DecidableEq

def Level.code : Level → Nat
  | .paranoid => 8
  | .debug => 7
  | .info => 6
  | .notice => 5
  | .warning => 4
  | .error => 3
  | .critical => 2

def logLevels : List Level :=
  [.paranoid, .debug, .info, .notice, .warning, .error, .critical]

/-- The counters `settings.log.%s.level` and `log.%s.level.%s`. -/
structure Counters where
  settings : Int
  logs : Level → Int

inductive Ptr
  | segment
  | defValue
  deriving DecidableEq

inductive Phase
  | unborn
  | idle
  /-- Inside `periodic`, with the levels still to be added. -/
  | adding (levels : List Level)

structure Monitor where
  options : LogOptions
  logCounters : Nat → Int
  counter : Ptr
  logs : Level → Ptr
  defValue : Int
  phase : Phase

namespace Monitor

def count (m : Monitor) (level : Nat) : Monitor :=
  { m with logCounters := Function.update m.logCounters level (i64 (m.logCounters level + 1)) }

def setLevel (m : Monitor) (level : Nat) : Monitor :=
  { m with options := { m.options with logLevel := level } }

/-- `SetName` of all counters; `none` is the settings counter. -/
def setNames (m : Monitor) (found : Option Level → Bool) : Monitor :=
  { m with
    counter := if found none then .segment else m.counter
    logs := fun l => if found (some l) then .segment else m.logs l
    phase := .idle }

def storeLevel (m : Monitor) (c : Counters) : Counters × Monitor :=
  match m.counter with
  | .segment => ({ c with settings := i64 m.options.logLevel }, m)
  | .defValue => (c, { m with defValue := i64 m.options.logLevel })

def loadLevel (m : Monitor) (c : Counters) : Nat :=
  match m.counter with
  | .segment => ofI32 c.settings
  | .defValue => ofI32 m.defValue

/-- `log_l += log_counters[L]; log_counters[L] = 0;` -/
def add (m : Monitor) (c : Counters) (l : Level) : Counters × Monitor :=
  let amount := m.logCounters l.code
  let rest := Function.update m.logCounters l.code 0
  match m.logs l with
  | .segment =>
    ({ c with logs := Function.update c.logs l (i64 (c.logs l + amount)) },
      { m with logCounters := rest })
  | .defValue => (c, { m with logCounters := rest, defValue := i64 (m.defValue + amount) })

def write (m : Monitor) (level : Nat) (string : CName) (len : Int) : List Nat × Monitor :=
  match logWriteStr m.options level string len with
  | none => ([], m)
  | some w => ([w.counter], m.count w.counter)

/-- The first part of `periodic`; `notice` is the formatted message. -/
def takeLevel (m : Monitor) (c : Counters) (notice : CName) : List Nat × Monitor :=
  if m.options.logLevel = m.loadLevel c then ([], m)
  else
    ((m.write Level.notice.code notice (-1)).1,
      (m.write Level.notice.code notice (-1)).2.setLevel (m.loadLevel c))

end Monitor

inductive Input
  | write (level : Nat) (string : CName) (len : Int)
  /-- `opt_log_level` is assigned, by an option or a `ScopedLogLevel`. -/
  | assign (level : Nat)
  /-- A client stores the settings counter. -/
  | store (value : Int)
  /-- Some other counter of the process, one that has no name, is assigned. -/
  | set (value : Int)
  /-- `+=` on such a counter. -/
  | gain (value : Int)
  /-- The names that could be registered; `none` is the settings counter. -/
  | initCounters (found : Option Level → Bool)
  | periodic (notice : CName)
  | work

def act (c : Counters) (m : Monitor) : Input → Option (List Nat × Counters × Monitor)
  | .work =>
    match m.phase with
    | .adding (l :: levels) =>
      some ([], (m.add c l).1, { (m.add c l).2 with phase := .adding levels })
    | .adding [] => some ([], c, { m with phase := .idle })
    | _ => none
  | .periodic notice =>
    match m.phase with
    | .idle =>
      let taken := m.takeLevel c notice
      some (taken.1, c, { taken.2 with phase := .adding logLevels })
    | _ => none
  | .store value => some ([], { c with settings := i64 value }, m)
  | .set value => some ([], c, { m with defValue := i64 value })
  | .gain value => some ([], c, { m with defValue := i64 (m.defValue + value) })
  | .write level string len =>
    match m.phase with
    | .adding _ => none
    | _ => some ((m.write level string len).1, c, (m.write level string len).2)
  | .assign level =>
    match m.phase with
    | .adding _ => none
    | _ => some ([], c, m.setLevel level)
  | .initCounters found =>
    match m.phase with
    | .adding _ => none
    | _ => some ([], (m.setNames found).storeLevel c)

variable {P : Type*}

abbrev System (P : Type*) := Processes P Counters Monitor

def started (options : P → LogOptions) : System P :=
  ⟨⟨0, fun _ => 0⟩, fun p => ⟨options p, fun _ => 0, .defValue, fun _ => .defValue, 0, .unborn⟩⟩

def step [DecidableEq P] (g : System P) : P × Input → Option (List Nat × System P) :=
  Processes.step (fun _ => act) g

def written (l : Level) (trace : List ((P × Input) × List Nat)) : Nat :=
  (trace.flatMap Prod.snd).count l.code

/-- `initCounters` is left to the moment before a `periodic` can run. -/
def Input.Keeps : Input → Prop
  | .initCounters _ => False
  | _ => True

/-- Besides, the other counters of the process at most add. -/
def Input.Adds : Input → Prop
  | .initCounters _ => False
  | .set _ => False
  | _ => True

theorem Input.Adds.keeps {i : Input} (h : i.Adds) : i.Keeps := by
  cases i with
  | initCounters found => exact h
  | _ => trivial

def Input.gained : Input → Int
  | .gain value => value
  | _ => 0

theorem code_injective {k l : Level} (h : k.code = l.code) : k = l := by
  cases k <;> cases l <;> first | rfl | exact absurd h (by decide)

def Counted (before after : Nat → Int) (o : List Nat) : Prop :=
  ∀ n, (o.count n = 0 ∧ after n = before n) ∨ (o.count n = 1 ∧ after n = i64 (before n + 1))

namespace Monitor

variable (m : Monitor) (c : Counters)

theorem setLevel_logLevel (level : Nat) : (m.setLevel level).options.logLevel = level := rfl

theorem write_counted (level : Nat) (string : CName) (len : Int) :
    Counted m.logCounters (m.write level string len).2.logCounters
      (m.write level string len).1 := by
  intro n
  unfold write
  cases logWriteStr m.options level string len with
  | none => exact .inl ⟨rfl, rfl⟩
  | some w =>
    rcases eq_or_ne n w.counter with rfl | hne
    · exact .inr ⟨List.count_singleton_self, Function.update_self ..⟩
    · exact .inl ⟨List.count_singleton.trans (if_neg (by simpa using hne.symm)),
        Function.update_of_ne hne ..⟩

theorem write_frame (level : Nat) (string : CName) (len : Int) :
    (m.write level string len).2.counter = m.counter ∧
      (m.write level string len).2.logs = m.logs ∧
      (m.write level string len).2.defValue = m.defValue ∧
      (m.write level string len).2.phase = m.phase := by
  unfold write
  cases logWriteStr m.options level string len <;> exact ⟨rfl, rfl, rfl, rfl⟩

theorem takeLevel_counted (notice : CName) :
    Counted m.logCounters (m.takeLevel c notice).2.logCounters (m.takeLevel c notice).1 := by
  by_cases heq : m.options.logLevel = m.loadLevel c
  · rw [takeLevel, if_pos heq]
    exact fun n => .inl ⟨rfl, rfl⟩
  · rw [takeLevel, if_neg heq]
    exact m.write_counted _ _ _

theorem takeLevel_frame (notice : CName) :
    (m.takeLevel c notice).2.counter = m.counter ∧ (m.takeLevel c notice).2.logs = m.logs ∧
      (m.takeLevel c notice).2.defValue = m.defValue := by
  by_cases heq : m.options.logLevel = m.loadLevel c
  · rw [takeLevel, if_pos heq]
    exact ⟨rfl, rfl, rfl⟩
  · obtain ⟨hcounter, hlogs, hdef, -⟩ := m.write_frame Level.notice.code notice (-1)
    rw [takeLevel, if_neg heq]
    exact ⟨hcounter, hlogs, hdef⟩

theorem takeLevel_logLevel (notice : CName) :
    (m.takeLevel c notice).2.options.logLevel = m.loadLevel c := by
  by_cases heq : m.options.logLevel = m.loadLevel c
  · rw [takeLevel, if_pos heq]
    exact heq
  · rw [takeLevel, if_neg heq]
    exact setLevel_logLevel _ _

theorem storeLevel_frame :
    (m.storeLevel c).1.logs = c.logs ∧ (m.storeLevel c).2.logs = m.logs ∧
      (m.storeLevel c).2.logCounters = m.logCounters := by
  cases h : m.counter <;> simp only [storeLevel, h, and_self]

end Monitor

variable {c c' : Counters} {m m' : Monitor} {i : Input} {o : List Nat}

structure Local (c c' : Counters) (m m' : Monitor) (i : Input) (o : List Nat) : Prop where
  counted : Counted m.logCounters m'.logCounters o
  shared_logs : c'.logs = c.logs
  names : ∀ found, i = .initCounters found → m'.logs = (m.setNames found).logs
  frame : i.Keeps → m'.counter = m.counter ∧ m'.logs = m.logs ∧
    (m.phase = .unborn → m'.phase = .unborn)
  booked : i.Adds → i64 m'.defValue = i64 (m.defValue + i.gained)

theorem act_cases (h : act c m i = some (o, c', m')) :
    Local c c' m m' i o ∨ i = .work ∧ ∃ l levels, m.phase = .adding (l :: levels) ∧ o = [] ∧
      c' = (m.add c l).1 ∧ m' = { (m.add c l).2 with phase := .adding levels } := by
  have hsame : Counted m.logCounters m.logCounters [] := fun n => .inl ⟨rfl, rfl⟩
  have hnone : ∀ {v}, v = m.defValue → i64 v = i64 (m.defValue + 0) := by
    rintro v rfl
    rw [add_zero]
  cases i with
  | work =>
    cases hphase : m.phase with
    | adding levels =>
      cases levels with
      | nil =>
        simp only [act, hphase, Option.some_inj, Prod.mk.injEq] at h
        obtain ⟨rfl, rfl, rfl⟩ := h
        exact .inl ⟨hsame, rfl, nofun, fun _ => ⟨rfl, rfl, fun h => by simp [h] at hphase⟩,
          fun _ => hnone rfl⟩
      | cons l levels =>
        simp only [act, hphase, Option.some_inj, Prod.mk.injEq] at h
        obtain ⟨rfl, rfl, rfl⟩ := h
        exact .inr ⟨rfl, l, levels, rfl, rfl, rfl, rfl⟩
    | _ => simp [act, hphase] at h
  | periodic notice =>
    cases hphase : m.phase with
    | idle =>
      obtain ⟨hcounter, hlogs, hdef⟩ := m.takeLevel_frame c notice
      simp only [act, hphase, Option.some_inj, Prod.mk.injEq] at h
      obtain ⟨rfl, rfl, rfl⟩ := h
      exact .inl ⟨m.takeLevel_counted c notice, rfl, nofun,
        fun _ => ⟨hcounter, hlogs, fun h => by simp [h] at hphase⟩, fun _ => hnone hdef⟩
    | _ => simp [act, hphase] at h
  | store value =>
    simp only [act, Option.some_inj, Prod.mk.injEq] at h
    obtain ⟨rfl, rfl, rfl⟩ := h
    exact .inl ⟨hsame, rfl, nofun, fun _ => ⟨rfl, rfl, id⟩, fun _ => hnone rfl⟩
  | set value =>
    simp only [act, Option.some_inj, Prod.mk.injEq] at h
    obtain ⟨rfl, rfl, rfl⟩ := h
    exact .inl ⟨hsame, rfl, nofun, fun _ => ⟨rfl, rfl, id⟩, fun hadds => hadds.elim⟩
  | gain value =>
    simp only [act, Option.some_inj, Prod.mk.injEq] at h
    obtain ⟨rfl, rfl, rfl⟩ := h
    exact .inl ⟨hsame, rfl, nofun, fun _ => ⟨rfl, rfl, id⟩, fun _ => i64_i64 _⟩
  | write level string len =>
    cases hphase : m.phase with
    | adding levels => simp [act, hphase] at h
    | _ =>
      obtain ⟨hcounter, hlogs, hdef, hkept⟩ := m.write_frame level string len
      simp only [act, hphase, Option.some_inj, Prod.mk.injEq] at h
      obtain ⟨rfl, rfl, rfl⟩ := h
      exact .inl ⟨m.write_counted level string len, rfl, nofun,
        fun _ => ⟨hcounter, hlogs, fun h => hkept.trans h⟩, fun _ => hnone hdef⟩
  | assign level =>
    cases hphase : m.phase with
    | adding levels => simp [act, hphase] at h
    | _ =>
      simp only [act, hphase, Option.some_inj, Prod.mk.injEq] at h
      obtain ⟨rfl, rfl, rfl⟩ := h
      exact .inl ⟨hsame, rfl, nofun, fun _ => ⟨rfl, rfl, id⟩, fun _ => hnone rfl⟩
  | initCounters found =>
    cases hphase : m.phase with
    | adding levels => simp [act, hphase] at h
    | _ =>
      obtain ⟨hshared, hlogs, hcounters⟩ := (m.setNames found).storeLevel_frame c
      simp only [act, hphase, Option.some_inj] at h
      obtain ⟨rfl, hstore⟩ := Prod.mk.inj h
      rw [hstore] at hshared hlogs hcounters
      refine .inl ⟨fun n => .inl ⟨rfl, congrFun hcounters n⟩, hshared, ?_,
        fun hkeeps => hkeeps.elim, fun hadds => hadds.elim⟩
      intro found' heq
      rw [← Input.initCounters.inj heq]
      exact hlogs

namespace Monitor

theorem add_registered {l : Level} (h : m.logs l = .segment) (c : Counters) :
    m.add c l =
      ({ c with logs := Function.update c.logs l (i64 (c.logs l + m.logCounters l.code)) },
        { m with logCounters := Function.update m.logCounters l.code 0 }) := by
  simp only [add, h]

theorem add_unregistered {l : Level} (h : m.logs l = .defValue) (c : Counters) :
    m.add c l = (c, { m with
      logCounters := Function.update m.logCounters l.code 0
      defValue := i64 (m.defValue + m.logCounters l.code) }) := by
  simp only [add, h]

theorem add_names (c : Counters) (l : Level) :
    (m.add c l).2.counter = m.counter ∧ (m.add c l).2.logs = m.logs := by
  cases h : m.logs l <;> simp only [add, h, and_self]

end Monitor

/-- Once the monitor runs, the counter of the level is in the segment. -/
def Ready (l : Level) (m : Monitor) : Prop := m.phase = .unborn ∨ m.logs l = .segment

def Input.Finds (l : Level) (i : Input) : Prop :=
  ∀ found, i = .initCounters found → found (some l) = true

theorem Ready.act {l : Level} (hready : Ready l m) (hfinds : i.Finds l)
    (h : act c m i = some (o, c', m')) : Ready l m' := by
  obtain hlocal | ⟨-, k, levels, hphase, -, -, rfl⟩ := act_cases h
  · by_cases hkeeps : i.Keeps
    · obtain ⟨-, hlogs, hunborn⟩ := hlocal.frame hkeeps
      rw [Ready, hlogs]
      exact hready.imp_left hunborn
    · cases i with
      | initCounters found =>
        right
        rw [hlocal.names found rfl]
        exact if_pos (hfinds found rfl)
      | _ => exact absurd trivial hkeeps
  · right
    rcases hready with hunborn | hsegment
    · simp [hunborn] at hphase
    · exact (congrFun (Monitor.add_names c k).2 l).trans hsegment

theorem act_level {l : Level} (hready : Ready l m) (h : act c m i = some (o, c', m')) :
    (c'.logs l = c.logs l ∧ (o.count l.code = 0 ∧ m'.logCounters l.code = m.logCounters l.code ∨
      o.count l.code = 1 ∧ m'.logCounters l.code = i64 (m.logCounters l.code + 1))) ∨
    (o = [] ∧ c'.logs l = i64 (c.logs l + m.logCounters l.code) ∧ m'.logCounters l.code = 0) := by
  obtain hlocal | ⟨-, k, levels, hphase, rfl, rfl, rfl⟩ := act_cases h
  · exact .inl ⟨congrFun hlocal.shared_logs l, hlocal.counted l.code⟩
  · rcases eq_or_ne k l with rfl | hne
    · have hsegment : m.logs k = .segment := by
        rcases hready with hunborn | hsegment
        · simp [hunborn] at hphase
        · exact hsegment
      rw [Monitor.add_registered hsegment]
      exact .inr ⟨rfl, Function.update_self .., Function.update_self ..⟩
    · have hcode : l.code ≠ k.code := fun heq => hne (code_injective heq.symm)
      left
      cases hptr : m.logs k with
      | segment =>
        rw [Monitor.add_registered hptr]
        exact ⟨Function.update_of_ne hne.symm .., .inl ⟨rfl, Function.update_of_ne hcode ..⟩⟩
      | defValue =>
        rw [Monitor.add_unregistered hptr]
        exact ⟨rfl, .inl ⟨rfl, Function.update_of_ne hcode ..⟩⟩

theorem written_append_one (l : Level) (trace : List ((P × Input) × List Nat))
    (e : (P × Input) × List Nat) :
    written l (trace ++ [e]) = written l trace + e.2.count l.code := by
  rw [written, List.flatMap_append, List.flatMap_singleton, List.count_append, written]

/-- Every message of any process at a level is in the counter of the level or
still with the process, whatever the processes do in between. -/
theorem run_counts [Fintype P] [DecidableEq P] (options : P → LogOptions) (l : Level)
    {trace : List ((P × Input) × List Nat)} {g : System P}
    (run : Run step (fun _ i => i.2.Finds l) (started options) trace g)
    (hlt : written l trace < 2 ^ 63) :
    g.shared.logs l + ∑ p, (g.pc p).logCounters l.code = written l trace := by
  have htally : (∀ p, Ready l (g.pc p)) ∧
      Tally (g.shared.logs l) (fun p => (g.pc p).logCounters l.code) (written l trace) := by
    refine run.invariant_trace (I := fun trace g => (∀ p, Ready l (g.pc p)) ∧
      Tally (g.shared.logs l) (fun p => (g.pc p).logCounters l.code) (written l trace))
      ⟨fun p => .inl rfl, .zero fun _ => rfl⟩ ?_
    rintro trace g ⟨p, i⟩ o g' ⟨hready, h⟩ hfinds hs
    obtain ⟨next, hact, rfl⟩ := Processes.step_cases hs
    have hother : ∀ q ≠ p, ((g.put p next).pc q).logCounters l.code =
        (g.pc q).logCounters l.code := fun q hne => by rw [Processes.put_pc_of_ne g hne]
    refine ⟨Processes.forall_put (Q := fun _ => Ready l) ((hready p).act hfinds hact)
      fun q _ => hready q, ?_⟩
    rw [written_append_one, Processes.put_shared]
    obtain ⟨hshared, ⟨hzero, hown⟩ | ⟨hone, hown⟩⟩ | ⟨rfl, hshared, hown⟩ :=
      act_level (hready p) hact
    · rw [hshared, hzero]
      have hall : (fun q => ((g.put p next).pc q).logCounters l.code) =
          fun q => (g.pc q).logCounters l.code := by
        funext q
        rcases eq_or_ne q p with rfl | hne
        · rw [Processes.put_pc_self, hown]
        · exact hother q hne
      rw [hall]
      exact h
    · rw [hshared, hone]
      exact h.earn p 1 (by rw [Processes.put_pc_self]; exact hown) hother
    · rw [hshared]
      exact h.transfer p (by rw [Processes.put_pc_self]; exact hown) hother
  exact htally.2.exact hlt

def defaults : LogOptions := ⟨6, 3, true, false⟩

def hello : CName := ⟨[104, 101, 108, 108, 111], by decide⟩

theorem run_counts_hello :
    ∃ trace g, trace.map Prod.fst =
        [(true, .initCounters fun _ => true), (true, .write 6 hello (-1))] ∧
      Run step (fun _ i => i.2.Finds .info) (started fun _ : Bool => defaults) trace g ∧
      g.shared.logs .info + ∑ p, (g.pc p).logCounters 6 = 1 := by
  have run : Run step (fun _ i => i.2.Finds .info) (started fun _ : Bool => defaults) _ _ :=
    .next (i := (true, Input.write 6 hello (-1)))
      (.next (i := (true, Input.initCounters fun _ => true)) .start
        (fun _ h => by rw [← Input.initCounters.inj h]) rfl)
      nofun rfl
  exact ⟨_, _, rfl, run, run_counts (fun _ => defaults) .info run (by decide)⟩

def Monitor.unregistered (m : Monitor) : Finset Level :=
  {l ∈ logLevels.toFinset | m.logs l = .defValue}

/-- What of these the process has not handed over yet. -/
def Monitor.owed (m : Monitor) : Int := ∑ l ∈ m.unregistered, m.logCounters l.code

theorem mem_unregistered {l : Level} : l ∈ m.unregistered ↔ m.logs l = .defValue := by
  have hall : l ∈ logLevels := by cases l <;> decide
  simp [Monitor.unregistered, hall]

theorem unregistered_congr (h : m'.logs = m.logs) : m'.unregistered = m.unregistered := by
  simp only [Monitor.unregistered, h]

theorem sum_update_code (s : Finset Level) (f : Nat → Int) (k : Level) :
    ∑ l ∈ s, Function.update f k.code 0 l.code + (if k ∈ s then f k.code else 0) =
      ∑ l ∈ s, f l.code := by
  have hcomp : (fun l : Level => Function.update f k.code 0 l.code) =
      Function.update (fun l => f l.code) k 0 :=
    Function.update_comp_eq_of_injective f (fun _ _ => code_injective) k 0
  rw [hcomp]
  by_cases hk : k ∈ s
  · rw [if_pos hk, Finset.sum_update_of_mem hk, Finset.sdiff_singleton_eq_erase, zero_add,
      Finset.sum_erase_add s _ hk]
  · rw [if_neg hk, Finset.sum_update_of_notMem hk, add_zero]

theorem act_names (hkeeps : i.Keeps) (h : act c m i = some (o, c', m')) :
    m'.counter = m.counter ∧ m'.logs = m.logs := by
  obtain hlocal | ⟨-, k, levels, -, -, -, rfl⟩ := act_cases h
  · obtain ⟨hcounter, hlogs, -⟩ := hlocal.frame hkeeps
    exact ⟨hcounter, hlogs⟩
  · exact Monitor.add_names c k

/-- The value the unregistered counters share, with what is still owed to it,
grows by the messages of their levels and by what the other counters add. -/
theorem act_owed (hadds : i.Adds) (h : act c m i = some (o, c', m')) :
    i64 (m'.defValue + m'.owed) =
      i64 (m.defValue + m.owed + (i.gained + ∑ l ∈ m.unregistered, (o.count l.code : Int))) := by
  have hlogs := (act_names hadds.keeps h).2
  obtain hlocal | ⟨rfl, k, levels, -, rfl, rfl, rfl⟩ := act_cases h
  · have hsum : i64 m'.owed = i64 (m.owed + ∑ l ∈ m.unregistered, (o.count l.code : Int)) := by
      rw [Monitor.owed, Monitor.owed, unregistered_congr hlogs, ← Finset.sum_add_distrib]
      refine i64_sum_congr fun l _ => ?_
      rcases hlocal.counted l.code with ⟨hcount, hown⟩ | ⟨hcount, hown⟩
      · rw [hown, hcount, Int.natCast_zero, add_zero]
      · rw [hown, hcount, i64_i64, Int.natCast_one]
    calc i64 (m'.defValue + m'.owed)
      _ = i64 (i64 m'.defValue + i64 m'.owed) := by rw [i64_i64_add, i64_add_i64]
      _ = i64 (m.defValue + i.gained +
            (m.owed + ∑ l ∈ m.unregistered, (o.count l.code : Int))) := by
        rw [hlocal.booked hadds, hsum, i64_i64_add, i64_add_i64]
      _ = _ := by rw [add_add_add_comm]
  · have hzero : Input.work.gained + ∑ l ∈ m.unregistered, (([] : List Nat).count l.code : Int) =
        0 := by simp [Input.gained]
    have hsum := sum_update_code m.unregistered m.logCounters k
    rw [hzero, add_zero]
    cases hptr : m.logs k with
    | segment =>
      have hk : k ∉ m.unregistered := by rw [mem_unregistered, hptr]; decide
      rw [if_neg hk, add_zero] at hsum
      rw [Monitor.add_registered hptr]
      rw [Monitor.owed, Monitor.owed, ← hsum]
      rfl
    | defValue =>
      rw [if_pos (mem_unregistered.mpr hptr)] at hsum
      rw [Monitor.add_unregistered hptr, Monitor.owed, i64_i64_add, Monitor.owed, ← hsum]
      congr 1
      change m.defValue + m.logCounters k.code +
        ∑ l ∈ m.unregistered, Function.update m.logCounters k.code 0 l.code = _
      omega

def writtenBy [DecidableEq P] (p : P) (levels : Finset Level)
    (trace : List ((P × Input) × List Nat)) : Int :=
  ∑ l ∈ levels, (written l (trace.filter fun e => e.1.1 = p) : Int)

theorem writtenBy_append_self [DecidableEq P] (p : P) (levels : Finset Level)
    (trace : List ((P × Input) × List Nat)) (i : Input) (o : List Nat) :
    writtenBy p levels (trace ++ [((p, i), o)]) =
      writtenBy p levels trace + ∑ l ∈ levels, (o.count l.code : Int) := by
  rw [writtenBy, writtenBy, ← Finset.sum_add_distrib]
  refine Finset.sum_congr rfl fun l _ => ?_
  rw [List.filter_append, List.filter_cons_of_pos (by simp), List.filter_nil, written_append_one,
    Int.natCast_add]

theorem writtenBy_append_of_ne [DecidableEq P] {p q : P} (h : q ≠ p) (levels : Finset Level)
    (trace : List ((P × Input) × List Nat)) (i : Input) (o : List Nat) :
    writtenBy p levels (trace ++ [((q, i), o)]) = writtenBy p levels trace := by
  rw [writtenBy, writtenBy, List.filter_append, List.filter_cons_of_neg (by simpa using h),
    List.filter_nil, List.append_nil]

def gainedBy [DecidableEq P] (p : P) (trace : List ((P × Input) × List Nat)) : Int :=
  ((trace.filter fun e => e.1.1 = p).map fun e => e.1.2.gained).sum

theorem gainedBy_append_self [DecidableEq P] (p : P) (trace : List ((P × Input) × List Nat))
    (i : Input) (o : List Nat) :
    gainedBy p (trace ++ [((p, i), o)]) = gainedBy p trace + i.gained := by
  rw [gainedBy, gainedBy, List.filter_append, List.filter_cons_of_pos (by simp), List.filter_nil,
    List.map_append, List.sum_append, List.map_singleton, List.sum_singleton]

theorem gainedBy_append_of_ne [DecidableEq P] {p q : P} (h : q ≠ p)
    (trace : List ((P × Input) × List Nat)) (i : Input) (o : List Nat) :
    gainedBy p (trace ++ [((q, i), o)]) = gainedBy p trace := by
  rw [gainedBy, gainedBy, List.filter_append, List.filter_cons_of_neg (by simpa using h),
    List.filter_nil, List.append_nil]

def handedOver [DecidableEq P] (p : P) (g₀ : System P) (trace : List ((P × Input) × List Nat))
    (g : System P) : Int :=
  (g₀.pc p).owed + writtenBy p (g₀.pc p).unregistered trace - (g.pc p).owed

section

variable [DecidableEq P] {g₀ g g' : System P} {p : P} {trace : List ((P × Input) × List Nat)}

/-- As long as the other counters of the process do not store a value, the one
they share with the monitor grows by what they add and by what is handed over. -/
theorem run_gains (run : Run step (fun _ i => i.1 = p → i.2.Adds) g₀ trace g) :
    (g.pc p).logs = (g₀.pc p).logs ∧
      i64 (g.pc p).defValue =
        i64 ((g₀.pc p).defValue + gainedBy p trace + handedOver p g₀ trace g) := by
  have hbooks : (g.pc p).logs = (g₀.pc p).logs ∧
      i64 ((g.pc p).defValue + (g.pc p).owed) = i64 ((g₀.pc p).defValue + (g₀.pc p).owed +
        (gainedBy p trace + writtenBy p (g₀.pc p).unregistered trace)) := by
    refine run.invariant_trace (I := fun trace g => (g.pc p).logs = (g₀.pc p).logs ∧
      i64 ((g.pc p).defValue + (g.pc p).owed) = i64 ((g₀.pc p).defValue + (g₀.pc p).owed +
        (gainedBy p trace + writtenBy p (g₀.pc p).unregistered trace))) ⟨rfl, ?_⟩ ?_
    · have hnone : gainedBy p [] + writtenBy p (g₀.pc p).unregistered [] = 0 := by
        simp [gainedBy, writtenBy, written]
      rw [hnone, add_zero]
    · rintro trace g ⟨q, i⟩ o g' ⟨hlogs, h⟩ hadds hs
      obtain ⟨next, hact, rfl⟩ := Processes.step_cases hs
      rcases eq_or_ne q p with rfl | hne
      · have howed := act_owed (hadds rfl) hact
        rw [Processes.put_pc_self, writtenBy_append_self, gainedBy_append_self,
          ← unregistered_congr hlogs]
        refine ⟨(act_names (hadds rfl).keeps hact).2.trans hlogs, howed.trans ?_⟩
        rw [← i64_i64_add, h, i64_i64_add, unregistered_congr hlogs, add_assoc,
          add_add_add_comm (gainedBy q trace)]
      · rw [Processes.put_pc_of_ne g hne.symm, writtenBy_append_of_ne hne,
          gainedBy_append_of_ne hne]
        exact ⟨hlogs, h⟩
  obtain ⟨hlogs, hvalue⟩ := hbooks
  refine ⟨hlogs, ?_⟩
  rw [handedOver]
  simp only [i64] at hvalue ⊢
  omega

/-- The state in which process `p` begins, or is left by the last store of one
of its other counters. -/
def LastStored (p : P) (g₀ : System P) (before : List ((P × Input) × List Nat)) (g₁ : System P) :
    Prop :=
  (before = [] ∧ g₁ = g₀) ∨
    ∃ value o, before.getLast? = some ((p, .set value), o) ∧ (g₁.pc p).defValue = i64 value

theorem exists_last_store (run : Run step (fun _ i => i.1 = p → i.2.Keeps) g₀ trace g) :
    ∃ before g₁ after, trace = before ++ after ∧ LastStored p g₀ before g₁ ∧
      Run step (fun _ i => i.1 = p → i.2.Keeps) g₀ before g₁ ∧
      Run step (fun _ i => i.1 = p → i.2.Adds) g₁ after g := by
  induction run with
  | start => exact ⟨[], g₀, [], rfl, .inl ⟨rfl, rfl⟩, .start, .start⟩
  | @next trace g g' i o run hkeeps hs ih =>
    obtain ⟨before, g₁, after, rfl, hlast, run₁, run₂⟩ := ih
    by_cases hadds : i.1 = p → i.2.Adds
    · exact ⟨before, g₁, after ++ [(i, o)], List.append_assoc .., hlast, run₁, run₂.next hadds hs⟩
    · obtain ⟨q, input⟩ := i
      obtain ⟨rfl, hstores⟩ := Classical.not_imp.mp hadds
      have hkeeps' : input.Keeps := hkeeps rfl
      cases input with
      | initCounters found => exact hkeeps'.elim
      | set value =>
        refine ⟨_, g', [], (List.append_nil _).symm, .inr ⟨value, o, List.getLast?_concat, ?_⟩,
          run.next hkeeps hs, .start⟩
        obtain ⟨next, hact, rfl⟩ := Processes.step_cases hs
        obtain ⟨rfl, rfl⟩ := Prod.mk.inj (Option.some.inj hact)
        rw [Processes.put_pc_self]
      | _ => exact absurd trivial hstores

theorem run_names (run : Run step (fun _ i => i.1 = p → i.2.Keeps) g₀ trace g) :
    (g.pc p).counter = (g₀.pc p).counter := by
  refine run.invariant (I := fun g => (g.pc p).counter = (g₀.pc p).counter) rfl ?_
  rintro g ⟨q, i⟩ o g' hcounter hkeeps hs
  obtain ⟨next, hact, rfl⟩ := Processes.step_cases hs
  rcases eq_or_ne q p with rfl | hne
  · rw [Processes.put_pc_self]
    exact (act_names (hkeeps rfl) hact).1.trans hcounter
  · rw [Processes.put_pc_of_ne g hne.symm]
    exact hcounter

/-- A process whose settings counter could not be registered: `periodic` takes
for its log level the value another unregistered counter of the process stored
last, with what was added to it since and the number of messages handed over
since at the levels that could not be registered. -/
theorem run_drifts (hcounter : (g₀.pc p).counter = .defValue)
    (run : Run step (fun _ i => i.1 = p → i.2.Keeps) g₀ trace g) {notice : CName} {o : List Nat}
    (hs : step g (p, .periodic notice) = some (o, g')) :
    ∃ before g₁ after, trace = before ++ after ∧ LastStored p g₀ before g₁ ∧
      Run step (fun _ i => i.1 = p → i.2.Keeps) g₀ before g₁ ∧
      Run step (fun _ i => i.1 = p → i.2.Adds) g₁ after g ∧
      (g'.pc p).options.logLevel =
        ofI32 ((g₁.pc p).defValue + gainedBy p after + handedOver p g₁ after g) := by
  obtain ⟨before, g₁, after, hsplit, hlast, run₁, run₂⟩ := exists_last_store run
  refine ⟨before, g₁, after, hsplit, hlast, run₁, run₂, ?_⟩
  have hvalue := (run_gains run₂).2
  have hcounter' : (g.pc p).counter = .defValue := (run_names run).trans hcounter
  obtain ⟨next, hact, rfl⟩ := Processes.step_cases hs
  have hlevel : next.2.options.logLevel = (g.pc p).loadLevel g.shared := by
    cases hphase : (g.pc p).phase with
    | idle =>
      simp only [act, hphase, Option.some_inj] at hact
      rw [← (Prod.mk.inj hact).2]
      exact Monitor.takeLevel_logLevel _ _ _
    | _ => simp [act, hphase] at hact
  rw [Processes.put_pc_self, hlevel, Monitor.loadLevel, hcounter']
  simp only [i64, ofI32] at hvalue ⊢
  omega

end

def stranded : System Bool :=
  (started fun _ => defaults).put true
    (⟨0, fun _ => 0⟩,
      ⟨defaults, fun _ => 0, .defValue, fun _ => .defValue, i64 defaults.logLevel, .idle⟩)

/-- Another counter of the process stores the uptime of 2 s and one adds 1. One
message and two calls of `periodic` later the log level is 5. -/
theorem run_drifts_stranded :
    step (started fun _ => defaults) (true, .initCounters fun _ => false) = some ([], stranded) ∧
    ∃ trace g g' before g₁ after, Run step (fun _ i => i.1 = true → i.2.Keeps) stranded trace g ∧
      trace.map Prod.fst = [(true, .write 6 hello (-1)), (true, .set 2), (true, .gain 1)] ++
        (true, .periodic hello) :: List.replicate 8 (true, .work) ∧
      trace = before ++ after ∧ LastStored true stranded before g₁ ∧
      step g (true, .periodic hello) = some ([], g') ∧
      (g'.pc true).options.logLevel =
        ofI32 ((g₁.pc true).defValue + gainedBy true after + handedOver true g₁ after g) ∧
      (g'.pc true).options.logLevel = 5 := by
  have stored : Run step (fun _ i => i.1 = true → i.2.Keeps) stranded _ _ :=
    (Run.start.next (i := (true, Input.write 6 hello (-1))) (fun _ => trivial) rfl).next
      (i := (true, Input.set 2)) (fun _ => trivial) rfl
  have taken := (stored.next (i := (true, Input.gain 1)) (fun _ => trivial) rfl).next
    (i := (true, Input.periodic hello)) (fun _ => trivial) rfl
  have run := (((((((taken.next (i := (true, Input.work)) (fun _ => trivial) rfl).next
    (i := (true, Input.work)) (fun _ => trivial) rfl).next
    (i := (true, Input.work)) (fun _ => trivial) rfl).next
    (i := (true, Input.work)) (fun _ => trivial) rfl).next
    (i := (true, Input.work)) (fun _ => trivial) rfl).next
    (i := (true, Input.work)) (fun _ => trivial) rfl).next
    (i := (true, Input.work)) (fun _ => trivial) rfl).next
    (i := (true, Input.work)) (fun _ => trivial) rfl
  obtain ⟨before, g₁, after, hsplit, hlast, -, -, hlevel⟩ := run_drifts rfl run
    (show step _ (_, Input.periodic hello) = some (_, _) from rfl)
  exact ⟨rfl, _, _, _, before, g₁, after, run, rfl, hsplit, hlast, rfl, hlevel, by decide⟩

end HiloUtils.LogMonitor
