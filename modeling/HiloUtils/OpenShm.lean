import HiloUtils.Processes

/-! The length of a segment that several processes open at once, each with a
size of its own. `fstat`, the size check and `ftruncate` are separate steps
with no lock held; any of the system calls may fail. -/

namespace HiloUtils.OpenShm

structure Call where
  size : Nat
  resize : Bool
  deriving DecidableEq

inductive Pc
  | shmOpen
  | fstat
  | sizeCheck (realsize : Nat)
  | ftruncate
  | succeeded (size : Nat)
  | failed
  deriving DecidableEq

/-- The length of the file behind the segment, `none` before it exists. -/
abbrev File := Option Nat

/-- One step of `openShm` on an object that is not open; `fails` tells the
result of its system call. -/
def act (call : Call) (file : File) : Pc → Bool → Option (Unit × File × Pc)
  | .shmOpen, fails =>
    if fails ∨ call.size = 0 ∧ file = none then some ((), file, .failed)
    else some ((), some (file.getD 0), .fstat)
  | .fstat, fails =>
    if fails then some ((), file, .failed) else some ((), file, .sizeCheck (file.getD 0))
  | .sizeCheck realsize, _ =>
    if call.size = 0 then some ((), file, .succeeded realsize)
    else if call.resize = false ∧ realsize ≠ 0 ∧ call.size ≠ realsize then some ((), file, .failed)
    else some ((), file, .ftruncate)
  | .ftruncate, fails =>
    if fails then some ((), file, .failed) else some ((), some call.size, .succeeded call.size)
  | .succeeded _, _ => none
  | .failed, _ => none

variable {P : Type*}

abbrev System (P : Type*) := Processes P File Pc

def opening (file : File) : System P := ⟨file, fun _ => .shmOpen⟩

def Pc.Succeeded (pc : Pc) : Prop := ∃ size, pc = .succeeded size

/-- Calls that have succeeded were given the length of the file. -/
def Agree (calls : P → Call) (g : System P) : Prop :=
  ∀ p q, (g.pc p).Succeeded → (g.pc q).Succeeded →
    (calls p).size = (calls q).size ∧ g.shared = some (calls p).size

section

variable [DecidableEq P]

def step (calls : P → Call) : System P → P × Bool → Option (Unit × System P) :=
  Processes.step fun p => act (calls p)

end

/-- A file that already has a length is truncated to that length only. -/
def Keeps (call : Call) (file : File) (pc : Pc) (fails : Bool) : Prop :=
  pc = .ftruncate → fails = false → file.getD 0 = 0 ∨ file = some call.size

def KeepsLength (calls : P → Call) (g : System P) (i : P × Bool) : Prop :=
  Keeps (calls i.1) g.shared (g.pc i.1) i.2

instance (calls : P → Call) (g : System P) (i : P × Bool) : Decidable (KeepsLength calls g i) :=
  inferInstanceAs (Decidable (_ → _ → _))

def Knows (len : Nat) (call : Call) (file : File) : Pc → Prop
  | .sizeCheck realsize => len ≠ 0 → realsize = len
  | .ftruncate => len ≠ 0 → call.size = len
  | .succeeded _ => file = some call.size
  | _ => True

/-- A length is the first one or that of a call that has succeeded. -/
def Origin (len : Nat) (calls : P → Call) (g : System P) : Prop :=
  g.shared.getD 0 = len ∨ ∃ q, (g.pc q).Succeeded ∧ g.shared = some (calls q).size

section

variable {len : Nat} {call other : Call} {file file' : File} {pc pc' : Pc} {fails : Bool}

inductive Acts (call : Call) (file : File) : Pc → Bool → File → Pc → Prop
  | shmOpen : Acts call file .shmOpen false (some (file.getD 0)) .fstat
  | fstat : Acts call file .fstat false file (.sizeCheck (file.getD 0))
  | sizeCheck (realsize : Nat) (fails : Bool) : realsize = 0 ∨ realsize = call.size →
      Acts call file (.sizeCheck realsize) fails file .ftruncate
  | ftruncate : Acts call file .ftruncate false (some call.size) (.succeeded call.size)
  | fail (pc : Pc) (fails : Bool) : ¬ pc.Succeeded → Acts call file pc fails file .failed

theorem act_cases (hpos : 0 < call.size) (hresize : call.resize = false)
    (h : act call file pc fails = some ((), file', pc')) : Acts call file pc fails file' pc' := by
  have hne : call.size ≠ 0 := Nat.ne_of_gt hpos
  have hfail {q : Pc} (hq : ¬ q.Succeeded)
      (hs : some ((), file, Pc.failed) = some ((), file', pc')) :
      Acts call file q fails file' pc' := by
    obtain ⟨rfl, rfl⟩ := Prod.mk.inj (Run.state_eq hs)
    exact .fail _ _ hq
  cases pc with
  | shmOpen =>
    simp only [act, hne, false_and, or_false] at h
    cases fails with
    | true => exact hfail (by simp [Pc.Succeeded]) h
    | false =>
      obtain ⟨rfl, rfl⟩ := Prod.mk.inj (Run.state_eq h)
      exact .shmOpen
  | fstat =>
    cases fails with
    | true => exact hfail (by simp [Pc.Succeeded]) h
    | false =>
      obtain ⟨rfl, rfl⟩ := Prod.mk.inj (Run.state_eq h)
      exact .fstat
  | sizeCheck realsize =>
    simp only [act, if_neg hne, hresize, true_and] at h
    split at h
    · exact hfail (by simp [Pc.Succeeded]) h
    · next hcheck =>
      obtain ⟨rfl, rfl⟩ := Prod.mk.inj (Run.state_eq h)
      exact .sizeCheck _ _ (by omega)
  | ftruncate =>
    cases fails with
    | true => exact hfail (by simp [Pc.Succeeded]) h
    | false =>
      obtain ⟨rfl, rfl⟩ := Prod.mk.inj (Run.state_eq h)
      exact .ftruncate
  | succeeded size => cases h
  | failed => cases h

namespace Acts

theorem file_eq (h : Acts call file pc fails file' pc') (hkeeps : Keeps call file pc fails)
    {n : Nat} (hn : n ≠ 0) (hfile : file = some n) : file' = some n := by
  cases h with
  | shmOpen => rw [hfile]; rfl
  | fstat => exact hfile
  | sizeCheck realsize fails hsize => exact hfile
  | fail pc fails hpc => exact hfile
  | ftruncate =>
    rcases hkeeps rfl rfl with hzero | hsize
    · rw [hfile] at hzero
      exact absurd hzero hn
    · exact hsize.symm.trans hfile

theorem knows (h : Acts call file pc fails file' pc') (hlen : len ≠ 0 → file = some len)
    (hknows : Knows len call file pc) : Knows len call file' pc' := by
  cases h with
  | shmOpen => trivial
  | fstat =>
    intro hne
    rw [hlen hne]
    rfl
  | sizeCheck realsize fails hsize =>
    intro hne
    have hreal : realsize = len := hknows hne
    omega
  | ftruncate => rfl
  | fail pc fails hpc => trivial

theorem knows_other (h : Acts call file pc fails file' pc') (hkeeps : Keeps call file pc fails)
    (hpos : 0 < other.size) {l : Pc} (hknows : Knows len other file l) :
    Knows len other file' l := by
  cases l with
  | succeeded size => exact h.file_eq hkeeps (Nat.ne_of_gt hpos) hknows
  | _ => exact hknows

theorem length_cases (h : Acts call file pc fails file' pc') :
    file' = some call.size ∧ pc' = .succeeded call.size ∨
      file'.getD 0 = file.getD 0 ∧ ¬ pc.Succeeded := by
  cases h with
  | shmOpen => exact Or.inr ⟨rfl, by simp [Pc.Succeeded]⟩
  | fstat => exact Or.inr ⟨rfl, by simp [Pc.Succeeded]⟩
  | sizeCheck realsize fails hsize => exact Or.inr ⟨rfl, by simp [Pc.Succeeded]⟩
  | ftruncate => exact Or.inl ⟨rfl, rfl⟩
  | fail pc fails hpc => exact Or.inr ⟨rfl, hpc⟩

end Acts

end

structure Sound (len : Nat) (calls : P → Call) (g : System P) : Prop where
  each : Processes.Each (fun file => len ≠ 0 → file = some len) (fun p => Knows len (calls p)) g
  origin : Origin len calls g

theorem sound_opening (calls : P → Call) (file : File) :
    Sound (file.getD 0) calls (opening file) where
  each := by
    refine ⟨fun hne => ?_, fun p => trivial⟩
    cases file with
    | none => exact absurd rfl hne
    | some n => rfl
  origin := Or.inl rfl

theorem Sound.agree {len : Nat} {calls : P → Call} {g : System P} (h : Sound len calls g) :
    Agree calls g := by
  rintro p q ⟨m, hp⟩ ⟨n, hq⟩
  have hm := h.each.2 p
  have hn := h.each.2 q
  rw [hp] at hm
  rw [hq] at hn
  exact ⟨Option.some.inj (hm.symm.trans hn), hm⟩

section

variable [DecidableEq P] {calls : P → Call} {len : Nat} {g g' : System P} {i : P × Bool} {o : Unit}

def Sized (calls : P → Call) : Prop := ∀ p, 0 < (calls p).size ∧ (calls p).resize = false

theorem step_acts (hcalls : Sized calls) (hs : step calls g i = some (o, g')) :
    ∃ file' pc', Acts (calls i.1) g.shared (g.pc i.1) i.2 file' pc' ∧
      g' = g.put i.1 (file', pc') := by
  obtain ⟨next, hact, rfl⟩ := Processes.step_cases hs
  exact ⟨next.1, next.2, act_cases (hcalls i.1).1 (hcalls i.1).2 hact, rfl⟩

theorem Origin.step (h : Origin len calls g) (hcalls : Sized calls)
    (hkeeps : KeepsLength calls g i) (hs : OpenShm.step calls g i = some (o, g')) :
    Origin len calls g' := by
  obtain ⟨file', pc', hacts, rfl⟩ := step_acts hcalls hs
  rcases hacts.length_cases with ⟨hfile, hpc⟩ | ⟨hlen, hpc⟩
  · refine Or.inr ⟨i.1, ?_, hfile⟩
    rw [Processes.put_pc_self, hpc]
    exact ⟨_, rfl⟩
  · rcases h with h | ⟨q, hq, hfile⟩
    · exact Or.inl (hlen.trans h)
    · have hne : q ≠ i.1 := fun heq => hpc (heq ▸ hq)
      refine Or.inr ⟨q, ?_, ?_⟩
      · rw [Processes.put_pc_of_ne g hne]
        exact hq
      · exact hacts.file_eq hkeeps (Nat.ne_of_gt (hcalls q).1) hfile

theorem Sound.step (h : Sound len calls g) (hcalls : Sized calls) (hkeeps : KeepsLength calls g i)
    (hs : OpenShm.step calls g i = some (o, g')) : Sound len calls g' where
  each := by
    obtain ⟨p, fails⟩ := i
    refine h.each.step hs (fun next hact => ?_) fun next q l hact hknows => ?_
    · have hacts := act_cases (hcalls p).1 (hcalls p).2 hact
      exact ⟨fun hne => hacts.file_eq hkeeps hne (h.each.1 hne),
        hacts.knows h.each.1 (h.each.2 p)⟩
    · have hacts := act_cases (hcalls p).1 (hcalls p).2 hact
      exact hacts.knows_other hkeeps (hcalls q).1 hknows
  origin := h.origin.step hcalls hkeeps hs

theorem Sound.keepsLength (h : Sound len calls g)
    (hs : OpenShm.step calls g i = some (o, g')) (hagree : Agree calls g') :
    KeepsLength calls g i := by
  obtain ⟨p, fails⟩ := i
  intro hpc hfails
  obtain ⟨hlen, hknows⟩ := h.each
  have hp := hknows p
  obtain ⟨next, hact, rfl⟩ := Processes.step_cases hs
  change g.pc p = _ at hpc
  change fails = _ at hfails
  simp only [hpc, hfails, act, Bool.false_eq_true, if_false, Option.some.injEq, Prod.mk.injEq,
    true_and] at hact
  rcases h.origin with horigin | ⟨q, hq, hfile⟩
  · rcases Nat.eq_zero_or_pos len with rfl | hpos
    · exact Or.inl horigin
    · have hne := Nat.ne_of_gt hpos
      rw [hpc] at hp
      have hsize : (calls p).size = len := hp hne
      right
      rw [hlen hne, hsize]
  · have hne : q ≠ p := by
      rintro rfl
      obtain ⟨size, hq⟩ := hq
      exact absurd (hpc.symm.trans hq) (by simp)
    obtain ⟨hsize, -⟩ := hagree q p (by rw [Processes.put_pc_of_ne g hne]; exact hq)
      ⟨_, by rw [Processes.put_pc_self, ← hact]⟩
    exact Or.inr (by rw [hfile, hsize])

theorem run_sound {calls : P → Call} (hcalls : Sized calls) {file : File}
    {trace : List ((P × Bool) × Unit)} {g : System P}
    (run : Run (step calls) (KeepsLength calls) (opening file) trace g) :
    Sound (file.getD 0) calls g :=
  run.invariant (sound_opening calls file) fun _ _ _ _ h hkeeps hs => h.step hcalls hkeeps hs

/-- As long as every `ftruncate` meets a file of no length or of its own, calls
that succeed agree on the size and the file keeps it; the first `ftruncate` of
which this is not true ends that. -/
theorem run_agree_iff (calls : P → Call) (hcalls : Sized calls) (file : File)
    {trace : List ((P × Bool) × Unit)} {g : System P}
    (run : Run (step calls) (KeepsLength calls) (opening file) trace g) :
    Agree calls g ∧ ∀ i o g', step calls g i = some (o, g') →
      (Agree calls g' ↔ KeepsLength calls g i) := by
  have h := run_sound hcalls run
  refine ⟨h.agree, fun i o g' hs => ⟨h.keepsLength hs, fun hkeeps => ?_⟩⟩
  exact (h.step hcalls hkeeps hs).agree

end

theorem run_agree_iff_two :
    ∃ trace g, Run (step fun _ : Nat => ⟨4096, false⟩) (KeepsLength fun _ => ⟨4096, false⟩)
        (opening none) trace g ∧
      (g.pc 0).Succeeded ∧ (g.pc 1).Succeeded ∧ Agree (fun _ => ⟨4096, false⟩) g := by
  have run : Run (step fun _ : Nat => ⟨4096, false⟩) (KeepsLength fun _ => ⟨4096, false⟩)
      (opening none) _ _ :=
    .next (i := (1, false)) (.next (i := (1, false)) (.next (i := (0, false))
      (.next (i := (0, false)) (.next (i := (1, false)) (.next (i := (0, false))
        (.next (i := (1, false)) (.next (i := (0, false)) .start (by decide) rfl) (by decide) rfl)
        (by decide) rfl) (by decide) rfl) (by decide) rfl) (by decide) rfl) (by decide) rfl)
      (by decide) rfl
  exact ⟨_, _, run, ⟨_, rfl⟩, ⟨_, rfl⟩, (run_agree_iff _ (fun _ => ⟨by decide, rfl⟩) none run).1⟩

/-- Both calls read the length 0 before either truncates. -/
theorem run_sizes_differ :
    ¬ ∀ (calls : Nat → Call) (file : File) (trace : List ((Nat × Bool) × Unit)) (g : System Nat),
      Sized calls → Run (step calls) (fun _ _ => True) (opening file) trace g → Agree calls g := by
  intro hall
  let calls : Nat → Call := fun p => ⟨4096 * (p + 1), false⟩
  have run : Run (step calls) (fun _ _ => True) (opening none) _ _ :=
    .next (i := (1, false)) (.next (i := (1, false)) (.next (i := (0, false))
      (.next (i := (0, false)) (.next (i := (1, false)) (.next (i := (0, false))
        (.next (i := (1, false)) (.next (i := (0, false)) .start trivial rfl) trivial rfl)
        trivial rfl) trivial rfl) trivial rfl) trivial rfl) trivial rfl) trivial rfl
  have hagree := hall calls none _ _ (fun p => ⟨Nat.mul_pos (by decide) (Nat.succ_pos p), rfl⟩) run
  exact absurd (hagree 0 1 ⟨_, rfl⟩ ⟨_, rfl⟩).1 (by decide)

end HiloUtils.OpenShm
