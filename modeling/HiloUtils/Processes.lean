import Mathlib.Logic.Function.Basic
import HiloUtils.Run

/-! Processes that take turns on shared memory. One step of one process reads
and writes the shared part and moves that process alone. -/

namespace HiloUtils

structure Processes (P S L : Type*) where
  shared : S
  pc : P → L

namespace Processes

variable {P S L ι ο : Type*} [DecidableEq P]

def put (g : Processes P S L) (p : P) (next : S × L) : Processes P S L :=
  ⟨next.1, Function.update g.pc p next.2⟩

@[simp] theorem put_shared (g : Processes P S L) (p : P) (next : S × L) :
    (g.put p next).shared = next.1 := rfl

@[simp] theorem put_pc_self (g : Processes P S L) (p : P) (next : S × L) :
    (g.put p next).pc p = next.2 := by
  simp [put]

theorem put_pc_of_ne (g : Processes P S L) {p q : P} (h : q ≠ p) (next : S × L) :
    (g.put p next).pc q = g.pc q := by
  simp [put, h]

theorem forall_put {Q : P → L → Prop} {g : Processes P S L} {p : P} {next : S × L}
    (hp : Q p next.2) (hother : ∀ q ≠ p, Q q (g.pc q)) (q : P) : Q q ((g.put p next).pc q) := by
  rcases eq_or_ne q p with rfl | hne
  · rw [put_pc_self]
    exact hp
  · rw [put_pc_of_ne g hne]
    exact hother q hne

def step (act : P → S → L → ι → Option (ο × S × L)) (g : Processes P S L) :
    P × ι → Option (ο × Processes P S L)
  | (p, i) => (act p g.shared (g.pc p) i).map fun r => (r.1, g.put p r.2)

theorem step_cases {act : P → S → L → ι → Option (ο × S × L)} {g g' : Processes P S L} {p : P}
    {i : ι} {o : ο} (h : step act g (p, i) = some (o, g')) :
    ∃ next, act p g.shared (g.pc p) i = some (o, next) ∧ g' = g.put p next := by
  obtain ⟨r, hr, heq⟩ := Option.map_eq_some_iff.mp h
  obtain ⟨rfl, rfl⟩ := Prod.mk.inj heq
  exact ⟨r.2, hr, rfl⟩

/-- What every process keeps, for itself and for the others: `I` holds of the
shared part and `J` of each process, at any time. -/
def Each (I : S → Prop) (J : P → S → L → Prop) (g : Processes P S L) : Prop :=
  I g.shared ∧ ∀ p, J p g.shared (g.pc p)

theorem Each.step {act : P → S → L → ι → Option (ο × S × L)} {I : S → Prop}
    {J : P → S → L → Prop} {g g' : Processes P S L} {p : P} {i : ι} {o : ο} (h : Each I J g)
    (hs : Processes.step act g (p, i) = some (o, g'))
    (hown : ∀ next, act p g.shared (g.pc p) i = some (o, next) → I next.1 ∧ J p next.1 next.2)
    (hother : ∀ next q l, act p g.shared (g.pc p) i = some (o, next) → J q g.shared l →
      J q next.1 l) : Each I J g' := by
  obtain ⟨next, hact, rfl⟩ := step_cases hs
  obtain ⟨hI, hJ⟩ := hown next hact
  exact ⟨hI, forall_put hJ fun q _ => hother next q _ hact (h.2 q)⟩

end Processes

end HiloUtils
