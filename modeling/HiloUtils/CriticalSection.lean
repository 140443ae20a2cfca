import HiloUtils.Processes

/-! An object in shared memory behind one lock. A call may be answered by a
look at the memory that takes no lock; otherwise it waits for the lock, works
on the memory in small steps that others may look in between, and leaves. -/

namespace HiloUtils.CriticalSection

structure LockedObject (σ ι ο κ : Type*) where
  look : σ → ι → Option ο
  enter : ι → κ
  work : κ → σ → Option ((κ ⊕ ο) × σ)

inductive Phase (ι ο κ : Type*)
  | idle
  | waiting (i : ι)
  | inside (i : ι) (k : κ)
  | leaving (i : ι) (o : ο)

inductive Move (ι : Type*)
  | call (i : ι)
  | lock
  | work
  | unlock

/-- When the answer to a call is settled: at the look, or at the last step
under the lock. -/
inductive Event (ι ο : Type*)
  | seen (i : ι) (o : ο)
  | done (i : ι) (o : ο)

structure Memory (P σ : Type*) where
  data : σ
  owner : Option P

variable {P σ ι ο κ : Type*}

def act (obj : LockedObject σ ι ο κ) (p : P) (m : Memory P σ) :
    Phase ι ο κ → Move ι → Option (Option (Event ι ο) × Memory P σ × Phase ι ο κ)
  | .idle, .call i =>
    match obj.look m.data i with
    | some o => some (some (.seen i o), m, .idle)
    | none => some (none, m, .waiting i)
  | .waiting i, .lock =>
    match m.owner with
    | none => some (none, { m with owner := some p }, .inside i (obj.enter i))
    | some _ => none
  | .inside i k, .work =>
    match obj.work k m.data with
    | none => none
    | some (.inl k, s) => some (none, { m with data := s }, .inside i k)
    | some (.inr o, s) => some (some (.done i o), { m with data := s }, .leaving i o)
  | .leaving _ _, .unlock => some (none, { m with owner := none }, .idle)
  | _, _ => none

section

variable {obj : LockedObject σ ι ο κ} {p : P} {m : Memory P σ} {i : ι} {o : ο} {k k' : κ} {s : σ}

theorem act_seen (h : obj.look m.data i = some o) :
    act obj p m .idle (.call i) = some (some (.seen i o), m, .idle) := by
  simp only [act, h]

theorem act_lock (h : m.owner = none) :
    act obj p m (.waiting i) .lock =
      some (none, { m with owner := some p }, .inside i (obj.enter i)) := by
  simp only [act, h]

theorem act_goes_on (h : obj.work k m.data = some (.inl k', s)) :
    act obj p m (.inside i k) .work = some (none, { m with data := s }, .inside i k') := by
  simp only [act, h]

theorem act_done (h : obj.work k m.data = some (.inr o, s)) :
    act obj p m (.inside i k) .work =
      some (some (.done i o), { m with data := s }, .leaving i o) := by
  simp only [act, h]

end

abbrev System (P σ ι ο κ : Type*) := Processes P (Memory P σ) (Phase ι ο κ)

def opened (s : σ) : System P σ ι ο κ := ⟨⟨s, none⟩, fun _ => .idle⟩

def Event.toCall (looks : Bool) : Event ι ο → Option (ι × ο)
  | .done i o => some (i, o)
  | .seen i o => if looks then some (i, o) else none

/-- The calls in the order they were settled, with or without those answered
by a look. -/
def calls (looks : Bool) (trace : List ((P × Move ι) × Option (Event ι ο))) : List (ι × ο) :=
  trace.filterMap fun e => e.2.bind (Event.toCall looks)

theorem calls_append_one (looks : Bool) (trace : List ((P × Move ι) × Option (Event ι ο)))
    (e : (P × Move ι) × Option (Event ι ο)) :
    calls looks (trace ++ [e]) = calls looks trace ++ (e.2.bind (Event.toCall looks)).toList :=
  filterMap_append_one _ trace e

inductive Reaches (obj : LockedObject σ ι ο κ) (i : ι) (s : σ) : κ → σ → Prop
  | enter : Reaches obj i s (obj.enter i) s
  | work {k k' : κ} {t t' : σ} :
      Reaches obj i s k t → obj.work k t = some (.inl k', t') → Reaches obj i s k' t'

def Phase.Holds : Phase ι ο κ → Prop
  | .inside _ _ => True
  | .leaving _ _ => True
  | _ => False

/-- What the lock holder has done since the memory was last in state `s`. -/
def Between (obj : LockedObject σ ι ο κ) (s t : σ) : Phase ι ο κ → Prop
  | .inside i k => Reaches obj i s k t
  | _ => t = s

def Phase.Calls (Q : ι → Prop) : Phase ι ο κ → Prop
  | .idle => True
  | .waiting i => Q i
  | .inside i _ => Q i
  | .leaving i _ => Q i

def Move.Calls (Q : ι → Prop) : Move ι → Prop
  | .call i => Q i
  | _ => True

/-- The memory is in state `s`, or on the way from it to the next. -/
structure Settled (obj : LockedObject σ ι ο κ) (Q : ι → Prop) (g : System P σ ι ο κ) (s : σ) :
    Prop where
  calls : ∀ p, (g.pc p).Calls Q
  owner_iff : ∀ p, (g.pc p).Holds ↔ g.shared.owner = some p
  free : g.shared.owner = none → g.shared.data = s
  busy : ∀ p, g.shared.owner = some p → Between obj s g.shared.data (g.pc p)

theorem Settled.init (obj : LockedObject σ ι ο κ) (Q : ι → Prop) (s : σ) :
    Settled obj Q (opened (P := P) s) s where
  calls _ := trivial
  owner_iff _ := ⟨False.elim, fun h => by cases h⟩
  free _ := rfl
  busy p h := by cases h

namespace Settled

variable {obj : LockedObject σ ι ο κ} {Q : ι → Prop} {g : System P σ ι ο κ} {s : σ}

theorem data_cases (h : Settled obj Q g s) :
    g.shared.data = s ∨ ∃ q i k, g.pc q = .inside i k ∧ Q i ∧ Reaches obj i s k g.shared.data := by
  cases howner : g.shared.owner with
  | none => exact .inl (h.free howner)
  | some q =>
    have hbetween := h.busy q howner
    have hcalls := h.calls q
    match hpc : g.pc q with
    | .inside i k =>
      rw [hpc] at hbetween hcalls
      exact .inr ⟨q, i, k, hpc, hcalls, hbetween⟩
    | .leaving i o =>
      rw [hpc] at hbetween
      exact .inl hbetween
    | .idle => exact absurd ((h.owner_iff q).mpr howner) (by rw [hpc]; exact id)
    | .waiting i => exact absurd ((h.owner_iff q).mpr howner) (by rw [hpc]; exact id)

theorem exclusive (h : Settled obj Q g s) {p q : P} (hp : (g.pc p).Holds)
    (hq : (g.pc q).Holds) : p = q :=
  Option.some.inj (((h.owner_iff p).mp hp).symm.trans ((h.owner_iff q).mp hq))

end Settled

def GoesOn (_ : System P σ ι ο κ) (i : P × Move ι) : Prop := ∀ j, i.2 ≠ .call j

theorem GoesOn.calls {Q : ι → Prop} {g : System P σ ι ο κ} {i : P × Move ι} (h : GoesOn g i) :
    i.2.Calls Q := by
  obtain ⟨p, move⟩ := i
  cases move with
  | call j => exact absurd rfl (h j)
  | lock => trivial
  | work => trivial
  | unlock => trivial

section

variable [DecidableEq P]

def step (obj : LockedObject σ ι ο κ) (g : System P σ ι ο κ) :
    P × Move ι → Option (Option (Event ι ο) × System P σ ι ο κ) :=
  Processes.step (act obj) g

theorem step_cases {obj : LockedObject σ ι ο κ} {g g' : System P σ ι ο κ} {p : P} {move : Move ι}
    {e : Option (Event ι ο)} (h : step obj g (p, move) = some (e, g')) :
    (∃ i o, g.pc p = .idle ∧ move = .call i ∧ obj.look g.shared.data i = some o ∧
      e = some (.seen i o) ∧ g' = g.put p (g.shared, .idle)) ∨
    (∃ i, g.pc p = .idle ∧ move = .call i ∧ obj.look g.shared.data i = none ∧ e = none ∧
      g' = g.put p (g.shared, .waiting i)) ∨
    (∃ i, g.pc p = .waiting i ∧ move = .lock ∧ g.shared.owner = none ∧ e = none ∧
      g' = g.put p ({ g.shared with owner := some p }, .inside i (obj.enter i))) ∨
    (∃ i k k' s, g.pc p = .inside i k ∧ move = .work ∧
      obj.work k g.shared.data = some (.inl k', s) ∧ e = none ∧
      g' = g.put p ({ g.shared with data := s }, .inside i k')) ∨
    (∃ i k o s, g.pc p = .inside i k ∧ move = .work ∧
      obj.work k g.shared.data = some (.inr o, s) ∧ e = some (.done i o) ∧
      g' = g.put p ({ g.shared with data := s }, .leaving i o)) ∨
    (∃ i o, g.pc p = .leaving i o ∧ move = .unlock ∧ e = none ∧
      g' = g.put p ({ g.shared with owner := none }, .idle)) := by
  obtain ⟨next, hact, rfl⟩ := Processes.step_cases h
  unfold act at hact
  split at hact
  · next i hpc =>
    cases hlook : obj.look g.shared.data i with
    | some o =>
      rw [hlook] at hact
      obtain ⟨rfl, rfl⟩ := Prod.mk.inj (Option.some.inj hact)
      exact .inl ⟨i, o, hpc, rfl, hlook, rfl, rfl⟩
    | none =>
      rw [hlook] at hact
      obtain ⟨rfl, rfl⟩ := Prod.mk.inj (Option.some.inj hact)
      exact .inr (.inl ⟨i, hpc, rfl, hlook, rfl, rfl⟩)
  · next i hpc =>
    cases howner : g.shared.owner with
    | some q =>
      rw [howner] at hact
      cases hact
    | none =>
      rw [howner] at hact
      obtain ⟨rfl, rfl⟩ := Prod.mk.inj (Option.some.inj hact)
      exact .inr (.inr (.inl ⟨i, hpc, rfl, rfl, rfl, rfl⟩))
  · next i k hpc =>
    match hwork : obj.work k g.shared.data with
    | none =>
      rw [hwork] at hact
      cases hact
    | some (.inl k', s) =>
      rw [hwork] at hact
      obtain ⟨rfl, rfl⟩ := Prod.mk.inj (Option.some.inj hact)
      exact .inr (.inr (.inr (.inl ⟨i, k, k', s, hpc, rfl, hwork, rfl, rfl⟩)))
    | some (.inr o, s) =>
      rw [hwork] at hact
      obtain ⟨rfl, rfl⟩ := Prod.mk.inj (Option.some.inj hact)
      exact .inr (.inr (.inr (.inr (.inl ⟨i, k, o, s, hpc, rfl, hwork, rfl, rfl⟩))))
  · next i o hpc =>
    obtain ⟨rfl, rfl⟩ := Prod.mk.inj (Option.some.inj hact)
    exact .inr (.inr (.inr (.inr (.inr ⟨i, o, hpc, rfl, rfl, rfl⟩))))
  · cases hact

variable {obj : LockedObject σ ι ο κ} {Q : ι → Prop} {g : System P σ ι ο κ} {s : σ} {p : P}

theorem step_of_act {move : Move ι} {e : Option (Event ι ο)} {phase : Phase ι ο κ}
    {next : Memory P σ × Phase ι ο κ} (hpc : g.pc p = phase)
    (hact : act obj p g.shared phase move = some (e, next)) :
    step obj g (p, move) = some (e, g.put p next) := by
  rw [step, Processes.step, hpc, hact, Option.map_some]

namespace Settled

theorem outside (h : Settled obj Q g s) (hout : ¬ (g.pc p).Holds) {phase : Phase ι ο κ}
    (hphase : ¬ phase.Holds) (hcalls : phase.Calls Q) :
    Settled obj Q (g.put p (g.shared, phase)) s where
  calls := Processes.forall_put (Q := fun _ => Phase.Calls Q) hcalls fun q _ => h.calls q
  owner_iff := Processes.forall_put
    (Q := fun q phase => Phase.Holds phase ↔ g.shared.owner = some q)
    ⟨fun hin => absurd hin hphase, fun hp => absurd ((h.owner_iff p).mpr hp) hout⟩
    fun q _ => h.owner_iff q
  free := h.free
  busy q hq := by
    have hne : q ≠ p := by
      rintro rfl
      exact hout ((h.owner_iff q).mpr hq)
    rw [Processes.put_pc_of_ne g hne]
    exact h.busy q hq

theorem within (h : Settled obj Q g s) (hin : (g.pc p).Holds) {phase : Phase ι ο κ} {t s' : σ}
    (hphase : phase.Holds) (hcalls : phase.Calls Q) (hbetween : Between obj s' t phase) :
    Settled obj Q (g.put p ({ g.shared with data := t }, phase)) s' := by
  have howner : g.shared.owner = some p := (h.owner_iff p).mp hin
  refine ⟨Processes.forall_put (Q := fun _ => Phase.Calls Q) hcalls fun q _ => h.calls q,
    Processes.forall_put (Q := fun q phase => Phase.Holds phase ↔ g.shared.owner = some q)
      ⟨fun _ => howner, fun _ => hphase⟩ fun q _ => h.owner_iff q, ?_, ?_⟩
  · intro hfree
    exact absurd (howner.symm.trans hfree) (by simp)
  · intro q hq
    obtain rfl : p = q := Option.some.inj (howner.symm.trans hq)
    rw [Processes.put_pc_self]
    exact hbetween

theorem lock (h : Settled obj Q g s) {i : ι} (hpc : g.pc p = .waiting i)
    (hfree : g.shared.owner = none) :
    Settled obj Q
      (g.put p ({ g.shared with owner := some p }, .inside i (obj.enter i))) s := by
  have hcalls := h.calls p
  rw [hpc] at hcalls
  refine ⟨Processes.forall_put (Q := fun _ => Phase.Calls Q) hcalls fun q _ => h.calls q,
    Processes.forall_put (Q := fun q phase => Phase.Holds phase ↔ some p = some q)
      ⟨fun _ => rfl, fun _ => trivial⟩ ?_, ?_, ?_⟩
  · intro q hne
    constructor
    · intro hin
      exact absurd (((h.owner_iff q).mp hin).symm.trans hfree) (by simp)
    · intro hq
      exact absurd (Option.some.inj hq) hne.symm
  · intro hnone
    cases hnone
  · intro q hq
    obtain rfl : p = q := Option.some.inj hq
    rw [Processes.put_pc_self]
    change Reaches obj i s (obj.enter i) g.shared.data
    rw [h.free hfree]
    exact .enter

theorem unlock (h : Settled obj Q g s) {i : ι} {o : ο} (hpc : g.pc p = .leaving i o) :
    Settled obj Q (g.put p ({ g.shared with owner := none }, .idle)) s := by
  have howner : g.shared.owner = some p := (h.owner_iff p).mp (by rw [hpc]; trivial)
  have hdata := h.busy p howner
  rw [hpc] at hdata
  refine ⟨Processes.forall_put (Q := fun _ => Phase.Calls Q) trivial fun q _ => h.calls q,
    Processes.forall_put (Q := fun q phase => Phase.Holds phase ↔ none = some q)
      ⟨False.elim, fun hp => by cases hp⟩ ?_, fun _ => hdata, fun q hq => by cases hq⟩
  intro q hne
  constructor
  · intro hin
    exact absurd (Option.some.inj (((h.owner_iff q).mp hin).symm.trans howner)) hne
  · intro hq
    cases hq

end Settled

/-- The work on a call done at one time is the step of the plain object. -/
def Whole (obj : LockedObject σ ι ο κ) (plain : σ → ι → Option (ο × σ)) (s : σ) (i : ι) : Prop :=
  ∀ k t o t', Reaches obj i s k t → obj.work k t = some (.inr o, t') → plain s i = some (o, t')

/-- A look at any point of the work on `i` that started in `s` tells what the
plain object answers in `s`. -/
def Honest (obj : LockedObject σ ι ο κ) (plain : σ → ι → Option (ο × σ)) (Q : ι → Prop) (s : σ) :
    Prop :=
  ∀ j o t, Q j → (t = s ∨ ∃ i k, Q i ∧ Reaches obj i s k t) → obj.look t j = some o →
    plain s j = some (o, s)

/-- In any interleaving the calls that took the lock are, in the order they
were settled, a run of the plain object; and so are all calls if every look is
honest. -/
theorem run_settled {plain : σ → ι → Option (ο × σ)} (looks : Bool) {init : σ}
    (hwhole : ∀ trace s i, Run plain (fun _ => Q) init trace s → Q i → Whole obj plain s i)
    (hhonest : looks = true → ∀ trace s, Run plain (fun _ => Q) init trace s →
      Honest obj plain Q s)
    {trace : List ((P × Move ι) × Option (Event ι ο))} {g : System P σ ι ο κ}
    (run : Run (step obj) (fun _ i => i.2.Calls Q) (opened init) trace g) :
    ∃ s, Run plain (fun _ => Q) init (calls looks trace) s ∧ Settled obj Q g s := by
  induction run with
  | start => exact ⟨init, .start, Settled.init obj Q init⟩
  | @next trace g g' i e _ hok hs ih =>
    obtain ⟨s, hrun, hset⟩ := ih
    obtain ⟨p, move⟩ := i
    rw [calls_append_one]
    obtain ⟨i, o, hpc, rfl, hlook, rfl, rfl⟩ | ⟨i, hpc, rfl, hlook, rfl, rfl⟩ |
      ⟨i, hpc, rfl, hfree, rfl, rfl⟩ | ⟨i, k, k', t, hpc, rfl, hwork, rfl, rfl⟩ |
      ⟨i, k, o, t, hpc, rfl, hwork, rfl, rfl⟩ | ⟨i, o, hpc, rfl, rfl, rfl⟩ := step_cases hs
    · have hset' : Settled obj Q (g.put p (g.shared, .idle)) s :=
        hset.outside (by rw [hpc]; exact id) id trivial
      cases looks with
      | false => exact ⟨s, by simpa [Event.toCall] using hrun, hset'⟩
      | true =>
        have hdata : g.shared.data = s ∨
            ∃ i k, Q i ∧ Reaches obj i s k g.shared.data := by
          rcases hset.data_cases with heq | ⟨-, i, k, -, hq, hreach⟩
          · exact .inl heq
          · exact .inr ⟨i, k, hq, hreach⟩
        exact ⟨s, hrun.next hok (hhonest rfl _ _ hrun i o _ hok hdata hlook), hset'⟩
    · exact ⟨s, by simpa using hrun, hset.outside (by rw [hpc]; exact id) id hok⟩
    · exact ⟨s, by simpa using hrun, hset.lock hpc hfree⟩
    · have hcalls := hset.calls p
      have hin : (g.pc p).Holds := by rw [hpc]; trivial
      have hreach := hset.busy p ((hset.owner_iff p).mp hin)
      rw [hpc] at hcalls hreach
      exact ⟨s, by simpa using hrun, hset.within hin trivial hcalls (.work hreach hwork)⟩
    · have hcalls := hset.calls p
      have hin : (g.pc p).Holds := by rw [hpc]; trivial
      have hreach := hset.busy p ((hset.owner_iff p).mp hin)
      rw [hpc] at hcalls hreach
      have hplain := hwhole _ _ _ hrun hcalls _ _ _ _ hreach hwork
      exact ⟨t, by simpa [Event.toCall] using hrun.next hcalls hplain,
        hset.within hin trivial hcalls rfl⟩
    · exact ⟨s, by simpa using hrun, hset.unlock hpc⟩

/-- The work on a call never gets stuck, and `left` counts it down. -/
structure Ends (obj : LockedObject σ ι ο κ) (left : κ → σ → Nat) (s : σ) (i : ι) : Prop where
  works : ∀ k t, Reaches obj i s k t → ∃ r, obj.work k t = some r
  falls : ∀ k t k' t', Reaches obj i s k t → obj.work k t = some (.inl k', t') →
    left k' t' < left k t

structure Left (obj : LockedObject σ ι ο κ) (p : P) (g g' : System P σ ι ο κ) (n : Nat) :
    Prop where
  run : ∃ trace, Run (step obj) GoesOn g trace g' ∧ trace.length ≤ n
  idle : g'.pc p = .idle
  free : g'.shared.owner = none
  others : ∀ q ≠ p, g'.pc q = g.pc q

theorem Left.mono {g' : System P σ ι ο κ} {m n : Nat} (h : Left obj p g g' m) (hle : m ≤ n) :
    Left obj p g g' n := by
  obtain ⟨trace, hrun, hlen⟩ := h.run
  exact ⟨⟨trace, hrun, Nat.le_trans hlen hle⟩, h.idle, h.free, h.others⟩

theorem Left.unlock {i : ι} {o : ο} (hpc : g.pc p = .leaving i o) :
    Left obj p g (g.put p ({ g.shared with owner := none }, .idle)) 1 := by
  have hs : step obj g (p, .unlock) =
      some (none, g.put p ({ g.shared with owner := none }, .idle)) := step_of_act hpc rfl
  exact ⟨⟨_, .single (fun j => by simp) hs, Nat.le_refl _⟩, Processes.put_pc_self g p _, rfl,
    fun q hne => Processes.put_pc_of_ne g hne _⟩

theorem Left.after {next : Memory P σ × Phase ι ο κ} {move : Move ι} {e : Option (Event ι ο)}
    {g' : System P σ ι ο κ} {n : Nat} (hmove : ∀ i, move ≠ .call i)
    (hs : step obj g (p, move) = some (e, g.put p next)) (h : Left obj p (g.put p next) g' n) :
    Left obj p g g' (n + 1) := by
  obtain ⟨trace, hrun, hlen⟩ := h.run
  refine ⟨⟨_, (Run.single hmove hs).append hrun, ?_⟩, h.idle, h.free, fun q hne => ?_⟩
  · rw [List.length_append, List.length_singleton]
    omega
  · rw [h.others q hne, Processes.put_pc_of_ne g hne]

theorem exists_left {left : κ → σ → Nat} {i : ι} (hends : Ends obj left s i) {k : κ}
    (hpc : g.pc p = .inside i k) (hreach : Reaches obj i s k g.shared.data) :
    ∃ g', Left obj p g g' (left k g.shared.data + 2) := by
  induction hn : left k g.shared.data using Nat.strongRecOn generalizing g k with
  | _ n ih =>
    subst hn
    obtain ⟨⟨r, t⟩, hwork⟩ := hends.works _ _ hreach
    cases r with
    | inr o =>
      have hs : step obj g (p, .work) = some (some (.done i o),
          g.put p ({ g.shared with data := t }, .leaving i o)) := step_of_act hpc (act_done hwork)
      have hleft := Left.after (fun j => by simp) hs (Left.unlock (Processes.put_pc_self g p _))
      exact ⟨_, hleft.mono (Nat.le_add_left 2 _)⟩
    | inl k' =>
      have hs : step obj g (p, .work) = some (none,
          g.put p ({ g.shared with data := t }, .inside i k')) :=
        step_of_act hpc (act_goes_on hwork)
      have hlt := hends.falls _ _ _ _ hreach hwork
      obtain ⟨g', hleft⟩ := ih _ hlt (g := g.put p ({ g.shared with data := t }, .inside i k'))
        (Processes.put_pc_self g p _) (.work hreach hwork) rfl
      refine ⟨g', (hleft.after (fun j => by simp) hs).mono ?_⟩
      omega

theorem Settled.exists_release {left : κ → σ → Nat} (h : Settled obj Q g s)
    (hends : ∀ i, Q i → Ends obj left s i) (howner : g.shared.owner = some p) :
    ∃ g' n, Left obj p g g' n := by
  have hbetween := h.busy p howner
  have hcalls := h.calls p
  have hin := (h.owner_iff p).mpr howner
  match hpc : g.pc p with
  | .idle => exact absurd hin (by rw [hpc]; exact id)
  | .waiting i => exact absurd hin (by rw [hpc]; exact id)
  | .leaving i o => exact ⟨_, 1, .unlock hpc⟩
  | .inside i k =>
    rw [hpc] at hbetween hcalls
    obtain ⟨g', hleft⟩ := exists_left (hends i hcalls) hpc hbetween
    exact ⟨g', _, hleft⟩

theorem Settled.exists_answer {left : κ → σ → Nat} (h : Settled obj Q g s)
    (hends : ∀ i, Q i → Ends obj left s i) (hfree : g.shared.owner = none) {i : ι}
    (hpc : g.pc p = .waiting i) : ∃ g' n, Left obj p g g' n := by
  have hcalls := h.calls p
  rw [hpc] at hcalls
  have hs : step obj g (p, .lock) =
      some (none, g.put p ({ g.shared with owner := some p }, .inside i (obj.enter i))) :=
    step_of_act hpc (act_lock hfree)
  have hreach : Reaches obj i s (obj.enter i) g.shared.data := by
    rw [h.free hfree]
    exact .enter
  obtain ⟨g', hleft⟩ := exists_left (g := g.put p ({ g.shared with owner := some p },
    .inside i (obj.enter i))) (hends i hcalls) (Processes.put_pc_self g p _) hreach
  exact ⟨g', _, hleft.after (fun j => by simp) hs⟩

/-- Every call can be answered without any new one. -/
theorem exists_completion {plain : σ → ι → Option (ο × σ)} {left : κ → σ → Nat} {init : σ}
    (hwhole : ∀ trace s i, Run plain (fun _ => Q) init trace s → Q i → Whole obj plain s i)
    (hends : ∀ trace s i, Run plain (fun _ => Q) init trace s → Q i → Ends obj left s i)
    {trace : List ((P × Move ι) × Option (Event ι ο))}
    (run : Run (step obj) (fun _ i => i.2.Calls Q) (opened init) trace g) (p : P) :
    ∃ trace' g', Run (step obj) GoesOn g trace' g' ∧ g'.pc p = .idle := by
  have hsettled : ∀ {trace} {g : System P σ ι ο κ},
      Run (step obj) (fun _ i => i.2.Calls Q) (opened init) trace g →
      ∃ s, Settled obj Q g s ∧ ∀ i, Q i → Ends obj left s i := by
    intro trace g run
    obtain ⟨s, hrun, hset⟩ := run_settled false hwhole (by simp) run
    exact ⟨s, hset, fun i hq => hends _ _ _ hrun hq⟩
  obtain ⟨s, hset, hends'⟩ := hsettled run
  match hpc : g.pc p with
  | .idle => exact ⟨[], g, .start, hpc⟩
  | .leaving i o =>
    have hleft : Left obj p g _ 1 := .unlock hpc
    obtain ⟨trace', hrun, -⟩ := hleft.run
    exact ⟨trace', _, hrun, hleft.idle⟩
  | .inside i k =>
    obtain ⟨g', n, hleft⟩ := hset.exists_release hends' (p := p)
      ((hset.owner_iff p).mp (by rw [hpc]; trivial))
    obtain ⟨trace', hrun, -⟩ := hleft.run
    exact ⟨trace', g', hrun, hleft.idle⟩
  | .waiting i =>
    cases howner : g.shared.owner with
    | none =>
      obtain ⟨g', n, hleft⟩ := hset.exists_answer hends' howner hpc
      obtain ⟨trace', hrun, -⟩ := hleft.run
      exact ⟨trace', g', hrun, hleft.idle⟩
    | some q =>
      have hne : p ≠ q := by
        rintro rfl
        exact absurd ((hset.owner_iff p).mpr howner) (by rw [hpc]; exact id)
      obtain ⟨g₁, n, hleft₁⟩ := hset.exists_release hends' howner
      obtain ⟨trace₁, hrun₁, -⟩ := hleft₁.run
      obtain ⟨s₁, hset₁, hends₁⟩ :=
        hsettled (run.append (hrun₁.weaken fun _ _ hgo => GoesOn.calls hgo))
      obtain ⟨g₂, m, hleft₂⟩ := hset₁.exists_answer hends₁ hleft₁.free (p := p) (i := i)
        (by rw [hleft₁.others p hne, hpc])
      obtain ⟨trace₂, hrun₂, -⟩ := hleft₂.run
      exact ⟨trace₁ ++ trace₂, g₂, hrun₁.append hrun₂, hleft₂.idle⟩

end

end HiloUtils.CriticalSection
