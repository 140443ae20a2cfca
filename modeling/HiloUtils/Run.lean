import Mathlib.Data.List.Induction

/-! Runs of a partial step function. A step consumes one input and either
returns an output and a next state, or has no defined result (`none`). `ok`
restricts the inputs a run may use, and may look at the state they meet. -/

namespace HiloUtils

variable {σ ι ο α : Type*}

inductive Run (step : σ → ι → Option (ο × σ)) (ok : σ → ι → Prop) (init : σ) :
    List (ι × ο) → σ → Prop
  | start : Run step ok init [] init
  | next {trace : List (ι × ο)} {s s' : σ} {i : ι} {o : ο} :
      Run step ok init trace s → ok s i → step s i = some (o, s') →
      Run step ok init (trace ++ [(i, o)]) s'

def exec (spec : α → ι → ο × α) : α → List ι → List ο × α
  | a, [] => ([], a)
  | a, i :: is => ((spec a i).1 :: (exec spec (spec a i).2 is).1, (exec spec (spec a i).2 is).2)

theorem exec_append_one (spec : α → ι → ο × α) (a : α) (is : List ι) (i : ι) :
    exec spec a (is ++ [i]) =
      ((exec spec a is).1 ++ [(spec (exec spec a is).2 i).1],
        (spec (exec spec a is).2 i).2) := by
  induction is generalizing a with
  | nil => rfl
  | cons j is ih => simp only [List.cons_append, exec, ih]

theorem filterMap_append_one {β γ : Type*} (f : β → Option γ) (trace : List β) (e : β) :
    (trace ++ [e]).filterMap f = trace.filterMap f ++ (f e).toList := by
  rw [List.filterMap_append]
  cases h : f e <;> simp [h]

namespace Run

theorem state_eq {o o' : ο} {s s' : σ} (h : some (o, s) = some (o', s')) : s = s' :=
  congrArg Prod.snd (Option.some_inj.mp h)

variable {step : σ → ι → Option (ο × σ)} {ok : σ → ι → Prop} {init : σ}

theorem weaken {ok' : σ → ι → Prop} (h : ∀ s i, ok s i → ok' s i) {trace : List (ι × ο)} {s : σ}
    (run : Run step ok init trace s) : Run step ok' init trace s := by
  induction run with
  | start => exact .start
  | next _ hok hstep ih => exact .next ih (h _ _ hok) hstep

theorem append {a b : List (ι × ο)} {s t : σ} (hfirst : Run step ok init a s)
    (hsecond : Run step ok s b t) : Run step ok init (a ++ b) t := by
  induction hsecond with
  | start => rwa [List.append_nil]
  | next _ hok hs ih =>
    rw [← List.append_assoc]
    exact ih.next hok hs

theorem single {i : ι} {o : ο} {s : σ} (hok : ok init i) (hs : step init i = some (o, s)) :
    Run step ok init [(i, o)] s := Run.start.next hok hs

/-- What holds at the start and is kept by every allowed step holds at the end
of a run. The invariant may speak of the trace. -/
theorem invariant_trace {I : List (ι × ο) → σ → Prop} (h0 : I [] init)
    (hstep : ∀ trace s i o s', I trace s → ok s i → step s i = some (o, s') →
      I (trace ++ [(i, o)]) s')
    {trace : List (ι × ο)} {s : σ} (run : Run step ok init trace s) : I trace s := by
  induction run with
  | start => exact h0
  | next _ hok hs ih => exact hstep _ _ _ _ _ ih hok hs

theorem invariant {I : σ → Prop} (h0 : I init)
    (hstep : ∀ s i o s', I s → ok s i → step s i = some (o, s') → I s')
    {trace : List (ι × ο)} {s : σ} (run : Run step ok init trace s) : I s :=
  run.invariant_trace (I := fun _ => I) h0 fun _ => hstep

/-- Forward simulation as long as a bound `B` on the specification lasts: if
every allowed step of the program is the step of the specification on related
states, a run within the bound has the specification's outputs and ends in a
state related to the specification's. The relation may speak of the trace. -/
theorem refines_trace {R : List (ι × ο) → σ → α → Prop} {B : α → Prop} {spec : α → ι → ο × α}
    {a : α} (h0 : R [] init a) (hB : ∀ a i, B (spec a i).2 → B a)
    (hstep : ∀ trace s a i, R trace s a → ok s i → B (spec a i).2 →
      ∃ s', step s i = some ((spec a i).1, s') ∧
        R (trace ++ [(i, (spec a i).1)]) s' (spec a i).2)
    {trace : List (ι × ο)} {s : σ} (run : Run step ok init trace s)
    (hlast : B (exec spec a (trace.map Prod.fst)).2) :
    trace.map Prod.snd = (exec spec a (trace.map Prod.fst)).1 ∧
      R trace s (exec spec a (trace.map Prod.fst)).2 := by
  induction run with
  | start => exact ⟨rfl, h0⟩
  | @next trace s s' i o _ hok hs ih =>
    simp only [List.map_append, List.map_cons, List.map_nil, exec_append_one] at hlast ⊢
    obtain ⟨houts, hrel⟩ := ih (hB _ _ hlast)
    obtain ⟨t, ht, hrel'⟩ := hstep trace s _ i hrel hok hlast
    obtain ⟨rfl, rfl⟩ : o = _ ∧ s' = t := by
      simpa using hs.symm.trans ht
    rw [houts]
    exact ⟨rfl, hrel'⟩

theorem refines {R : σ → α → Prop} {spec : α → ι → ο × α} {a : α} (h0 : R init a)
    (hstep : ∀ s a i, R s a → ok s i →
      ∃ s', step s i = some ((spec a i).1, s') ∧ R s' (spec a i).2)
    {trace : List (ι × ο)} {s : σ} (run : Run step ok init trace s) :
    trace.map Prod.snd = (exec spec a (trace.map Prod.fst)).1 ∧
      R s (exec spec a (trace.map Prod.fst)).2 :=
  run.refines_trace (R := fun _ => R) (B := fun _ => True) h0 (fun _ _ _ => trivial)
    (fun _ s a i hR hok _ => hstep s a i hR hok) trivial

theorem embed {ι' ο' : Type*} {step' : σ → ι' → Option (ο' × σ)} {ok' : σ → ι' → Prop}
    (f : ι → ι') (g : ο → ο') (hok : ∀ s i, ok s i → ok' s (f i))
    (hstep : ∀ s i o s', step s i = some (o, s') → step' s (f i) = some (g o, s'))
    {trace : List (ι × ο)} {s : σ} (run : Run step ok init trace s) :
    Run step' ok' init (trace.map (Prod.map f g)) s := by
  induction run with
  | start => exact .start
  | next _ hi hs ih =>
    rw [List.map_append]
    exact .next ih (hok _ _ hi) (hstep _ _ _ _ hs)

/-- The same run without the part of the state that is only kept beside the
program. -/
theorem project {τ : Type*} {step' : τ → ι → Option (ο × τ)} (f : σ → τ)
    (hstep : ∀ s i o s', step s i = some (o, s') → step' (f s) i = some (o, f s'))
    {trace : List (ι × ο)} {s : σ} (run : Run step ok init trace s) :
    Run step' (fun _ _ => True) (f init) trace (f s) := by
  induction run with
  | start => exact .start
  | next _ _ hs ih => exact .next ih trivial (hstep _ _ _ _ hs)

/-- A simulation whose inputs are allowed in every state has a run on any list
of them. -/
theorem exists_run {P : ι → Prop} {R : σ → α → Prop} {spec : α → ι → ο × α} {a : α}
    (h0 : R init a)
    (hstep : ∀ s a i, R s a → P i → ∃ s', step s i = some ((spec a i).1, s') ∧ R s' (spec a i).2)
    {is : List ι} (his : ∀ i ∈ is, P i) :
    ∃ trace s, trace.map Prod.fst = is ∧ Run step (fun _ => P) init trace s := by
  induction is using List.reverseRecOn with
  | nil => exact ⟨[], init, rfl, .start⟩
  | append_singleton is i ih =>
    obtain ⟨trace, s, hmap, run⟩ := ih fun j hj => his j (List.mem_append_left _ hj)
    have hi : P i := his i (by simp)
    obtain ⟨-, hrel⟩ := run.refines h0 hstep
    obtain ⟨s', hs', -⟩ := hstep s _ i hrel hi
    exact ⟨trace ++ [(i, _)], s', by simp [hmap], run.next hi hs'⟩

end Run

end HiloUtils
