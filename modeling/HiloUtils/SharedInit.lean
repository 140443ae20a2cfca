import HiloUtils.Processes

/-! The first use of a shared segment. Every process that opens it reads
`init_state`, one of them swaps it from clean and initialises the segment, and
the others spin until that is done. `T::Init` is any sequence of stores to the
data behind the header: none of the types stored in segments touches
`init_state`. A process that has left may change the data at will. -/

namespace HiloUtils.SharedInit

inductive InitState
  | clean
  | intilializing
  | intilialized
  deriving DecidableEq

structure ShmHeader where
  signature : Nat
  initState : InitState
  mutexReady : Bool
  deriving DecidableEq

def shmSignature : Nat := 0x31524958454C4554

def headerInit (h : ShmHeader) : ShmHeader :=
  { h with signature := shmSignature, mutexReady := true }

structure Segment (α : Type*) where
  header : ShmHeader
  data : α

def Segment.setState {α : Type*} (s : Segment α) (state : InitState) : Segment α :=
  { s with header := { s.header with initState := state } }

inductive Pc (α : Type*)
  | readState
  | swap
  | spin
  | headerInit
  | init (rest : List (α → α))
  | left
  | exited

inductive Move (α : Type*)
  | next
  | use (f : α → α)

inductive Event
  | read
  | swapped (ok : Bool)
  | spun
  | headerInit
  | stored
  | initDone (ok : Bool)
  | used
  deriving DecidableEq

variable {P α : Type*}

/-- The compare-and-swap at the end of the initialisation; the process exits if
it fails. -/
def headerInitDone (s : Segment α) : Event × Segment α × Pc α :=
  if s.header.initState = .intilializing then (.initDone true, s.setState .intilialized, .left)
  else (.initDone false, s, .exited)

/-- One step of `is_init_needed` and what follows it. `inits` are the stores of
`T::Init`. -/
def act (inits : List (α → α)) (s : Segment α) : Pc α → Move α → Option (Event × Segment α × Pc α)
  | .readState, .next =>
    some (.read, s, if s.header.initState = .intilialized then .left else .swap)
  | .swap, .next =>
    if s.header.initState = .clean then some (.swapped true, s.setState .intilializing, .headerInit)
    else some (.swapped false, s, .spin)
  | .spin, .next => some (.spun, s, if s.header.initState = .intilialized then .left else .spin)
  | .headerInit, .next =>
    some (.headerInit, { s with header := headerInit s.header }, .init inits)
  | .init (store :: rest), .next => some (.stored, { s with data := store s.data }, .init rest)
  | .init [], .next => some (headerInitDone s)
  | .left, .use f => some (.used, { s with data := f s.data }, .left)
  | _, _ => none

/-- A new segment is filled with zeros; `data` is what they mean to `T`. -/
def zeroFilled (data : α) : Processes P (Segment α) (Pc α) :=
  ⟨⟨⟨0, .clean, false⟩, data⟩, fun _ => .readState⟩

def initSteps : List ((P × Move α) × Event) → List (P × Event)
  | [] => []
  | (i, .headerInit) :: trace => (i.1, .headerInit) :: initSteps trace
  | (i, .stored) :: trace => (i.1, .stored) :: initSteps trace
  | _ :: trace => initSteps trace

def initBy (p : P) (n : Nat) : List (P × Event) :=
  (p, .headerInit) :: List.replicate n (p, .stored)

theorem initSteps_append (a b : List ((P × Move α) × Event)) :
    initSteps (a ++ b) = initSteps a ++ initSteps b := by
  induction a using initSteps.induct with
  | case1 => rfl
  | case2 i trace ih => simp only [List.cons_append, initSteps, ih]
  | case3 i trace ih => simp only [List.cons_append, initSteps, ih]
  | case4 x trace hheader hstored ih =>
    rw [List.cons_append, initSteps.eq_4 _ _ hheader hstored,
      initSteps.eq_4 _ _ hheader hstored, ih]

def Pc.Arriving (pc : Pc α) : Prop := pc = .readState ∨ pc = .swap

def Pc.Waiting (pc : Pc α) : Prop := pc = .readState ∨ pc = .swap ∨ pc = .spin

/-- The initialiser after its first `n` stores, `none` before `header_init`. -/
def initPc (inits : List (α → α)) : Option Nat → Pc α
  | none => .headerInit
  | some n => .init (inits.drop n)

def workBy (p : P) : Option Nat → List (P × Event)
  | none => []
  | some n => initBy p n

/-- A segment is clean, or has one process initialising it, or is initialised. -/
inductive Phase (inits : List (α → α)) (work : List (P × Event))
    (g : Processes P (Segment α) (Pc α)) : Prop
  | clean : g.shared.header.initState = .clean → work = [] → (∀ q, (g.pc q).Arriving) →
      Phase inits work g
  | busy (p : P) (n : Option Nat) : g.shared.header.initState = .intilializing →
      (∀ m ∈ n, m ≤ inits.length) → work = workBy p n → g.pc p = initPc inits n →
      (∀ q ≠ p, (g.pc q).Waiting) → Phase inits work g
  | done (p : P) : g.shared.header.initState = .intilialized → work = initBy p inits.length →
      (∀ q, (g.pc q).Waiting ∨ g.pc q = .left) → Phase inits work g

section

variable {inits : List (α → α)} {s s' : Segment α} {pc pc' : Pc α} {i : Move α} {e : Event} {p : P}

theorem waiting_act (hpc : pc.Waiting) (h : act inits s pc i = some (e, s', pc')) :
    (s.header.initState = .clean ∧ e = .swapped true ∧ s' = s.setState .intilializing ∧
      pc' = .headerInit) ∨
    (s' = s ∧ initSteps [((p, i), e)] = [] ∧
      (pc'.Waiting ∨ pc' = .left ∧ s.header.initState = .intilialized) ∧
      (s.header.initState = .clean → pc.Arriving → pc'.Arriving)) := by
  cases i with
  | use f => rcases hpc with rfl | rfl | rfl <;> simp [act] at h
  | next =>
    rcases hpc with rfl | rfl | rfl
    · simp only [act, Option.some.injEq, Prod.mk.injEq] at h
      obtain ⟨rfl, rfl, rfl⟩ := h
      refine Or.inr ⟨rfl, rfl, ?_, ?_⟩
      · split
        · next hdone => exact Or.inr ⟨rfl, hdone⟩
        · exact Or.inl (Or.inr (Or.inl rfl))
      · intro hclean _
        rw [hclean, if_neg (by decide)]
        exact Or.inr rfl
    · simp only [act] at h
      split at h
      · next hclean =>
        simp only [Option.some.injEq, Prod.mk.injEq] at h
        obtain ⟨rfl, rfl, rfl⟩ := h
        exact Or.inl ⟨hclean, rfl, rfl, rfl⟩
      · next hclean =>
        simp only [Option.some.injEq, Prod.mk.injEq] at h
        obtain ⟨rfl, rfl, rfl⟩ := h
        exact Or.inr ⟨rfl, rfl, Or.inl (Or.inr (Or.inr rfl)), fun h => absurd h hclean⟩
    · simp only [act, Option.some.injEq, Prod.mk.injEq] at h
      obtain ⟨rfl, rfl, rfl⟩ := h
      refine Or.inr ⟨rfl, rfl, ?_, ?_⟩
      · split
        · next hdone => exact Or.inr ⟨rfl, hdone⟩
        · exact Or.inl (Or.inr (Or.inr rfl))
      · rintro - (h | h) <;> exact absurd h (by simp)

theorem initialiser_act {n : Option Nat} (hn : ∀ m ∈ n, m ≤ inits.length)
    (hstate : s.header.initState = .intilializing)
    (h : act inits s (initPc inits n) i = some (e, s', pc')) :
    (∃ m, (∀ k ∈ some m, k ≤ inits.length) ∧ s'.header.initState = .intilializing ∧
      pc' = initPc inits (some m) ∧ workBy p n ++ initSteps [((p, i), e)] = workBy p (some m)) ∨
    (n = some inits.length ∧ e = .initDone true ∧ s' = s.setState .intilialized ∧
      pc' = .left) := by
  cases n with
  | none =>
    cases i with
    | use f => simp [initPc, act] at h
    | next =>
      simp only [initPc, act, Option.some.injEq, Prod.mk.injEq] at h
      obtain ⟨rfl, rfl, rfl⟩ := h
      exact Or.inl ⟨0, by simp, hstate, by rw [initPc, List.drop_zero], rfl⟩
  | some n =>
    cases i with
    | use f => simp [initPc, act] at h
    | next =>
      rcases Nat.lt_or_eq_of_le (hn n rfl) with hlt | rfl
      · rw [initPc, List.drop_eq_getElem_cons hlt] at h
        simp only [act, Option.some.injEq, Prod.mk.injEq] at h
        obtain ⟨rfl, rfl, rfl⟩ := h
        refine Or.inl ⟨n + 1, by simpa using Nat.succ_le_of_lt hlt, hstate, rfl, ?_⟩
        simp [workBy, initBy, initSteps, List.replicate_succ']
      · rw [initPc, List.drop_length] at h
        simp only [act, headerInitDone, if_pos hstate, Option.some.injEq, Prod.mk.injEq] at h
        obtain ⟨rfl, rfl, rfl⟩ := h
        exact Or.inr ⟨rfl, rfl, rfl, rfl⟩

theorem left_act (h : act inits s .left i = some (e, s', pc')) :
    s'.header = s.header ∧ pc' = .left ∧ initSteps [((p, i), e)] = [] := by
  cases i with
  | next => simp [act] at h
  | use f =>
    simp only [act, Option.some.injEq, Prod.mk.injEq] at h
    obtain ⟨rfl, rfl, rfl⟩ := h
    exact ⟨rfl, rfl, rfl⟩

theorem act_intilialized (hdone : s.header.initState = .intilialized)
    (h : act inits s pc i = some (e, s', pc')) : s'.header.initState = .intilialized := by
  have hclean : ¬ s.header.initState = .clean := by rw [hdone]; decide
  have hbusy : ¬ s.header.initState = .intilializing := by rw [hdone]; decide
  unfold act at h
  split at h
  case h_2 =>
    simp only [if_neg hclean, Option.some.injEq, Prod.mk.injEq] at h
    exact h.2.1 ▸ hdone
  case h_6 =>
    simp only [headerInitDone, if_neg hbusy, Option.some.injEq, Prod.mk.injEq] at h
    exact h.2.1 ▸ hdone
  case h_8 => cases h
  all_goals
    simp only [Option.some.injEq, Prod.mk.injEq] at h
    exact h.2.1 ▸ hdone

end

section

variable [DecidableEq P]

def step (inits : List (α → α)) :
    Processes P (Segment α) (Pc α) → P × Move α → Option (Event × Processes P (Segment α) (Pc α)) :=
  Processes.step fun _ => act inits

namespace Phase

variable {inits : List (α → α)} {work : List (P × Event)} {g g' : Processes P (Segment α) (Pc α)}
  {p : P} {i : Move α} {e : Event}

theorem step (h : Phase inits work g) (hs : SharedInit.step inits g (p, i) = some (e, g')) :
    Phase inits (work ++ initSteps [((p, i), e)]) g' := by
  obtain ⟨⟨s, pc⟩, hact, rfl⟩ := Processes.step_cases hs
  cases h with
  | clean hstate hwork harriving =>
    have hwaiting : ∀ q, (g.pc q).Waiting := fun q => (harriving q).imp_right Or.inl
    rcases waiting_act (p := p) (hwaiting p) hact with
      ⟨-, rfl, rfl, rfl⟩ | ⟨rfl, hnone, -, harrive⟩
    · refine .busy p none rfl (by simp) (by rw [hwork]; rfl) (g.put_pc_self p _) fun q hne => ?_
      rw [g.put_pc_of_ne hne]
      exact hwaiting q
    · rw [hnone, List.append_nil]
      exact .clean hstate hwork (Processes.forall_put (Q := fun _ => Pc.Arriving)
        (harrive hstate (harriving p)) fun q _ => harriving q)
  | busy q n hstate hn hwork hq hwaiting =>
    rcases eq_or_ne p q with rfl | hne
    · rw [hq] at hact
      rcases initialiser_act (p := p) hn hstate hact with
        ⟨m, hm, hstate', rfl, hwork'⟩ | ⟨rfl, rfl, rfl, rfl⟩
      · refine .busy p (some m) hstate' hm (by rw [hwork, hwork']) (g.put_pc_self p _)
          fun q hne => ?_
        rw [g.put_pc_of_ne hne]
        exact hwaiting q hne
      · refine .done p rfl (by rw [hwork]; exact List.append_nil _) ?_
        exact Processes.forall_put (Q := fun _ (pc : Pc α) => pc.Waiting ∨ pc = .left) (Or.inr rfl)
          fun q hne => Or.inl (hwaiting q hne)
    · rcases waiting_act (p := p) (hwaiting p hne) hact with
        ⟨hclean, -⟩ | ⟨rfl, hnone, hpc, -⟩
      · exact absurd (hstate.symm.trans hclean) (by decide)
      · rw [hnone, List.append_nil]
        have hwait : pc.Waiting := by
          rcases hpc with h | ⟨-, hdone⟩
          · exact h
          · exact absurd (hstate.symm.trans hdone) (by decide)
        refine .busy q n hstate hn hwork (by rw [g.put_pc_of_ne hne.symm, hq]) fun r hr => ?_
        exact Processes.forall_put (Q := fun r (pc : Pc α) => r ≠ q → pc.Waiting) (fun _ => hwait)
          (fun r _ => hwaiting r) r hr
  | done q hstate hwork hpc =>
    rcases hpc p with hp | hp
    · rcases waiting_act (p := p) hp hact with ⟨hclean, -⟩ | ⟨rfl, hnone, hpc', -⟩
      · exact absurd (hstate.symm.trans hclean) (by decide)
      · rw [hnone, List.append_nil]
        exact .done q hstate hwork (Processes.forall_put
          (Q := fun _ (pc : Pc α) => pc.Waiting ∨ pc = .left) (hpc'.imp_right And.left)
          fun r _ => hpc r)
    · rw [hp] at hact
      obtain ⟨hheader, rfl, hnone⟩ := left_act (p := p) hact
      rw [hnone, List.append_nil]
      exact .done q (by rw [Processes.put_shared, hheader, hstate]) hwork (Processes.forall_put
        (Q := fun _ (pc : Pc α) => pc.Waiting ∨ pc = .left) (Or.inr rfl) fun r _ => hpc r)

omit [DecidableEq P] in
theorem ended (h : Phase inits work g) (hp : g.pc p = .left ∨ g.pc p = .exited) :
    (∃ q, work = initBy q inits.length) ∧ ((g.pc p).Waiting ∨ g.pc p = .left) := by
  cases h with
  | clean _ _ harriving => rcases harriving p with h | h <;> simp [h] at hp
  | busy q n _ _ _ hq hwaiting =>
    rcases eq_or_ne p q with rfl | hne
    · cases n <;> simp [hq, initPc] at hp
    · rcases hwaiting p hne with h | h | h <;> simp [h] at hp
  | done q _ hwork hpc => exact ⟨⟨q, hwork⟩, hpc p⟩

omit [DecidableEq P] in
theorem left (h : Phase inits work g) (hp : g.pc p = .left) :
    ∃ q, work = initBy q inits.length :=
  (h.ended (Or.inl hp)).1

omit [DecidableEq P] in
theorem not_exited (h : Phase inits work g) (p : P) : g.pc p ≠ .exited := by
  intro hp
  obtain ⟨-, hpc⟩ := h.ended (Or.inr hp)
  rcases hpc with (h | h | h) | h <;> simp [h] at hp

omit [DecidableEq P] in
theorem work_cases (h : Phase inits work g) :
    work = [] ∨ ∃ p, ∃ n ≤ inits.length, work = initBy p n := by
  cases h with
  | clean _ hwork _ => exact Or.inl hwork
  | busy p n _ hn hwork _ _ =>
    cases n with
    | none => exact Or.inl hwork
    | some n => exact Or.inr ⟨p, n, hn n rfl, hwork⟩
  | done p _ hwork _ => exact Or.inr ⟨p, _, Nat.le_refl _, hwork⟩

end Phase

theorem run_phase {inits : List (α → α)} {data : α} {trace : List ((P × Move α) × Event)}
    {g : Processes P (Segment α) (Pc α)}
    (run : Run (step inits) (fun _ _ => True) (zeroFilled data) trace g) :
    Phase inits (initSteps trace) g := by
  refine run.invariant_trace (I := fun trace g => Phase inits (initSteps trace) g)
    (.clean rfl rfl fun _ => Or.inl rfl) fun trace g i e g' h _ hs => ?_
  rw [initSteps_append]
  exact h.step hs

/-- However the processes interleave, one of them initialises the segment once,
nobody leaves before it is done, `init_state` stays `intilialized` from then on,
and the compare-and-swap at the end never fails. -/
theorem run_init_once (inits : List (α → α)) (data : α) {trace : List ((P × Move α) × Event)}
    {g : Processes P (Segment α) (Pc α)}
    (run : Run (step inits) (fun _ _ => True) (zeroFilled data) trace g) :
    (initSteps trace = [] ∨ ∃ p, ∃ n ≤ inits.length, initSteps trace = initBy p n) ∧
      (∀ p, g.pc p = .left → ∃ q, initSteps trace = initBy q inits.length) ∧
      (g.shared.header.initState = .intilialized → ∀ trace' g',
        Run (step inits) (fun _ _ => True) g trace' g' →
        g'.shared.header.initState = .intilialized) ∧
      ∀ p, g.pc p ≠ .exited := by
  have h := run_phase run
  refine ⟨h.work_cases, fun p => h.left, fun hdone trace' g' run' => ?_, h.not_exited⟩
  refine run'.invariant (I := fun g => g.shared.header.initState = .intilialized) hdone
    fun g i e g' hdone _ hs => ?_
  obtain ⟨next, hact, rfl⟩ := Processes.step_cases hs
  exact act_intilialized hdone hact

end

/-- Process 1 finds the segment clean, loses the swap to process 0 and spins. -/
theorem run_init_once_two :
    ∃ (trace : List ((Nat × Move Nat) × Event)) (g : Processes Nat (Segment Nat) (Pc Nat)),
      Run (step [Nat.succ]) (fun _ _ => True) (zeroFilled 0) trace g ∧
      g.pc 0 = .left ∧ g.pc 1 = .left ∧ g.shared.data = 1 ∧
      ∃ p, initSteps trace = initBy p 1 := by
  have run : Run (step [Nat.succ]) (fun _ _ => True) (zeroFilled (P := Nat) 0) _ _ :=
    .next (i := (1, .next)) (.next (i := (0, .next)) (.next (i := (0, .next))
      (.next (i := (0, .next)) (.next (i := (1, .next)) (.next (i := (0, .next))
        (.next (i := (1, .next)) (.next (i := (0, .next)) .start trivial rfl) trivial rfl)
        trivial rfl) trivial rfl) trivial rfl) trivial rfl) trivial rfl) trivial rfl
  exact ⟨_, _, run, rfl, rfl, rfl, (run_init_once [Nat.succ] 0 run).2.1 0 rfl⟩

end HiloUtils.SharedInit
