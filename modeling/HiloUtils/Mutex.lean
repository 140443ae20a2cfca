import HiloUtils.CString
import HiloUtils.Processes
import HiloUtils.Word

/-! The lock of the shared segments, `simple_mutex_t`, and `AutoMutexLock`. The
mutex is recursive; beside it stand the process and the place in the source of
the last lock, which the holder writes and clears in steps of their own. -/

namespace HiloUtils.Mutex

open Word CString

abbrev Location := { location : List UInt8 // 0 ∉ location ∧ 2 ≤ location.length }

def slash : UInt8 := 47

/-- `while (pos > 0 && location[pos] != '/') --pos;` -/
def posLoop (location : List UInt8) : Nat → Nat
  | 0 => 0
  | pos + 1 => if location[pos + 1]? = some slash then pos + 1 else posLoop location pos

/-- The loop starts at `location_len - 3`, and `location_len` counts the NUL. -/
def textPos (location : List UInt8) : Nat :=
  let pos := posLoop location (location.length - 2)
  if pos = 0 then 0 else pos + 1

/-- What `STRNCPY` stores in the 64 bytes of `lock_location`. -/
def shown (location : Location) : List UInt8 := (location.1.drop (textPos location.1)).take 63

/-- `owner` and `depth` are the state of the recursive `pthread_mutex_t`;
`lockLocation` is the string in the array. -/
structure SimpleMutex (T : Type*) where
  owner : Option T
  depth : Nat
  lockCount : Nat
  pid : Int
  lockLocation : List UInt8

inductive Place
  | outside
  | wanting (location : Location)
  | entered (location : Location)
  | signed (location : Location)
  | counted (location : Location)
  | leaving

/-- The `AutoMutexLock` objects of the thread, innermost first; the flag tells
whether `mutex` is not `NULL`. -/
structure Thread where
  scopes : List Bool
  place : Place

inductive Input
  | construct (location : Location)
  /-- `unlock()` of one of the objects. -/
  | unlock (scope : Nat)
  | destruct
  | work

variable {T : Type*} [DecidableEq T]

def act (pidOf : T → Int) (t : T) (m : SimpleMutex T) (l : Thread) :
    Input → Option (Unit × SimpleMutex T × Thread)
  | .construct location =>
    match l.place with
    | .outside => some ((), m, { l with place := .wanting location })
    | _ => none
  | .unlock scope =>
    match l.place, l.scopes[scope]? with
    | .outside, some true =>
      some ((), { m with lockLocation := [] }, ⟨l.scopes.set scope false, .leaving⟩)
    | .outside, some false => some ((), m, l)
    | _, _ => none
  | .destruct =>
    match l.place, l.scopes with
    | .outside, true :: scopes => some ((), { m with lockLocation := [] }, ⟨scopes, .leaving⟩)
    | .outside, false :: scopes => some ((), m, ⟨scopes, .outside⟩)
    | _, _ => none
  | .work =>
    match l.place with
    | .outside => none
    | .wanting location =>
      if m.owner = none ∨ m.owner = some t then
        some ((), { m with owner := some t, depth := m.depth + 1 },
          { l with place := .entered location })
      else none
    | .entered location =>
      some ((), { m with pid := pidOf t }, { l with place := .signed location })
    | .signed location =>
      some ((), { m with lockCount := u32 (m.lockCount + 1) },
        { l with place := .counted location })
    | .counted location =>
      some ((), { m with lockLocation := shown location }, ⟨true :: l.scopes, .outside⟩)
    | .leaving =>
      some ((), { m with owner := if m.depth = 1 then none else m.owner, depth := m.depth - 1 },
        { l with place := .outside })

abbrev System (T : Type*) := Processes T (SimpleMutex T) Thread

def fresh : System T := ⟨⟨none, 0, 0, 0, []⟩, fun _ => ⟨[], .outside⟩⟩

def step (pidOf : T → Int) (g : System T) : T × Input → Option (Unit × System T) :=
  Processes.step (act pidOf) g

theorem posLoop_eq {location : List UInt8} {d : Nat} (hd : 0 < d)
    (hslash : location[d]? = some slash) {n : Nat} (hn : d ≤ n)
    (hafter : ∀ k, d < k → location[k]? ≠ some slash) : posLoop location n = d := by
  induction n with
  | zero => omega
  | succ n ih =>
    rcases eq_or_ne d (n + 1) with rfl | hne
    · rw [posLoop, if_pos hslash]
    · rw [posLoop, if_neg (hafter _ (by omega)), ih (by omega)]

theorem shown_base {directory base : List UInt8} (hdir : directory ≠ []) (hbase : base ≠ [])
    (hslash : slash ∉ base) (location : Location) (h : location.1 = directory ++ slash :: base) :
    shown location = base.take 63 := by
  have hd := List.length_pos_of_ne_nil hdir
  have hb := List.length_pos_of_ne_nil hbase
  have hlen : location.1.length = directory.length + (base.length + 1) := by
    rw [h, List.length_append, List.length_cons]
  have hat : location.1[directory.length]? = some slash := by
    rw [h, List.getElem?_append_right (Nat.le_refl _), Nat.sub_self]
    rfl
  have hafter : ∀ k, directory.length < k → location.1[k]? ≠ some slash := by
    intro k hk heq
    obtain ⟨j, rfl⟩ := Nat.exists_eq_add_of_lt hk
    rw [h, List.getElem?_append_right (by omega)] at heq
    have hj : directory.length + j + 1 - directory.length = j + 1 := by omega
    rw [hj, List.getElem?_cons_succ] at heq
    exact hslash (List.mem_of_getElem? heq)
  have hpos : textPos location.1 = directory.length + 1 := by
    rw [textPos, posLoop_eq hd hat (by omega) hafter, if_neg (by omega)]
  have hsplit : directory ++ slash :: base = (directory ++ [slash]) ++ base := by simp
  rw [shown, hpos, h, hsplit, List.drop_left' (by simp)]

namespace Place

def Has : Place → Bool
  | .outside => false
  | .wanting _ => false
  | _ => true

def Signed : Place → Prop
  | .signed _ => True
  | .counted _ => True
  | _ => False

def Carries : Place → Location → Prop
  | .wanting location, location' => location = location'
  | .entered location, location' => location = location'
  | .signed location, location' => location = location'
  | .counted location, location' => location = location'
  | _, _ => False

theorem Signed.has {place : Place} (h : place.Signed) : place.Has = true := by
  cases place <;> first | rfl | exact h.elim

end Place

def Thread.held (l : Thread) : Nat := l.scopes.count true + l.place.Has.toNat

variable {pidOf : T → Int} {trace : List ((T × Input) × Unit)} {g : System T}

/-- The text names a lock call of the owner, which belongs to the process `pid`. -/
def Text (pidOf : T → Int) (trace : List ((T × Input) × Unit)) (m : SimpleMutex T) : Prop :=
  m.lockLocation = [] ∨ ∃ t location, m.owner = some t ∧ m.pid = pidOf t ∧
    ((t, Input.construct location), ()) ∈ trace ∧ m.lockLocation = shown location

structure Safe (pidOf : T → Int) (trace : List ((T × Input) × Unit)) (g : System T) : Prop where
  held_eq : ∀ t, (g.pc t).held = if g.shared.owner = some t then g.shared.depth else 0
  owner_iff : g.shared.owner = none ↔ g.shared.depth = 0
  signed : ∀ t, (g.pc t).place.Signed → g.shared.pid = pidOf t
  leaving : ∀ t, (g.pc t).place = .leaving → g.shared.lockLocation = []
  called : ∀ t location, (g.pc t).place.Carries location →
    ((t, Input.construct location), ()) ∈ trace
  text : Text pidOf trace g.shared

theorem count_set_false {scopes : List Bool} {k : Nat} (h : scopes[k]? = some true) :
    (scopes.set k false).count true + 1 = scopes.count true := by
  obtain ⟨hlt, hk⟩ := List.getElem?_eq_some_iff.mp h
  have hpos : 0 < scopes.count true := List.count_pos_iff.mpr (List.mem_of_getElem? h)
  rw [List.count_set hlt, hk]
  simp
  omega

namespace Safe

theorem fresh : Safe pidOf [] (Mutex.fresh : System T) where
  held_eq t := by simp [Mutex.fresh, Thread.held, Place.Has]
  owner_iff := by simp [Mutex.fresh]
  signed _ h := h.elim
  leaving _ h := by cases h
  called _ _ h := h.elim
  text := .inl rfl

theorem owner_eq (h : Safe pidOf trace g) {t : T} (hheld : 0 < (g.pc t).held) :
    g.shared.owner = some t := by
  by_contra hne
  rw [h.held_eq, if_neg hne] at hheld
  exact Nat.lt_irrefl 0 hheld

theorem owner_of_has (h : Safe pidOf trace g) {t : T} (hhas : (g.pc t).place.Has = true) :
    g.shared.owner = some t := by
  refine h.owner_eq ?_
  rw [Thread.held, hhas]
  exact Nat.succ_pos _

theorem put (h : Safe pidOf trace g) {t : T} {i : Input} {m : SimpleMutex T} {l : Thread}
    (hheld : l.held = if m.owner = some t then m.depth else 0)
    (howner : m.owner = none ↔ m.depth = 0)
    (hother : ∀ u ≠ t, (m.owner = some u ↔ g.shared.owner = some u) ∧
      (g.shared.owner = some u → m.depth = g.shared.depth))
    (hwrites : m.pid = g.shared.pid ∧ m.lockLocation = g.shared.lockLocation ∨
      g.shared.owner = some t)
    (hsigned : l.place.Signed → m.pid = pidOf t)
    (hleaving : l.place = .leaving → m.lockLocation = [])
    (hcalled : ∀ location, l.place.Carries location → (g.pc t).place.Carries location ∨
      i = .construct location)
    (htext : Text pidOf trace m) :
    Safe pidOf (trace ++ [((t, i), ())]) (g.put t (m, l)) where
  held_eq := by
    intro u
    rcases eq_or_ne u t with rfl | hne
    · rw [Processes.put_pc_self]
      exact hheld
    · rw [Processes.put_pc_of_ne g hne, h.held_eq, Processes.put_shared]
      obtain ⟨hiff, hdepth⟩ := hother u hne
      by_cases hu : g.shared.owner = some u
      · rw [if_pos hu, if_pos (hiff.mpr hu), hdepth hu]
      · rw [if_neg hu, if_neg (mt hiff.mp hu)]
  owner_iff := howner
  signed := by
    intro u hu
    rcases eq_or_ne u t with rfl | hne
    · rw [Processes.put_pc_self] at hu
      exact hsigned hu
    · rw [Processes.put_pc_of_ne g hne] at hu
      rcases hwrites with hsame | howns
      · exact hsame.1.trans (h.signed u hu)
      · exact absurd (Option.some.inj ((h.owner_of_has hu.has).symm.trans howns)) hne
  leaving := by
    intro u hu
    rcases eq_or_ne u t with rfl | hne
    · rw [Processes.put_pc_self] at hu
      exact hleaving hu
    · rw [Processes.put_pc_of_ne g hne] at hu
      rcases hwrites with hsame | howns
      · exact hsame.2.trans (h.leaving u hu)
      · have hhas : (g.pc u).place.Has = true := by rw [hu]; rfl
        exact absurd (Option.some.inj ((h.owner_of_has hhas).symm.trans howns)) hne
  called := by
    intro u location hu
    rcases eq_or_ne u t with rfl | hne
    · rw [Processes.put_pc_self] at hu
      rcases hcalled location hu with hold | rfl
      · exact List.mem_append_left _ (h.called u location hold)
      · exact List.mem_append_right _ List.mem_cons_self
    · rw [Processes.put_pc_of_ne g hne] at hu
      exact List.mem_append_left _ (h.called u location hu)
  text := by
    refine htext.imp_right ?_
    rintro ⟨u, location, hu, hpid, hcall, hshown⟩
    exact ⟨u, location, hu, hpid, List.mem_append_left _ hcall, hshown⟩

theorem text_of_same (h : Safe pidOf trace g) {m : SimpleMutex T}
    (howner : m.owner = g.shared.owner) (hpid : m.pid = g.shared.pid)
    (htext : m.lockLocation = g.shared.lockLocation) : Text pidOf trace m := by
  rw [Text, howner, hpid, htext]
  exact h.text

theorem text_of_free (h : Safe pidOf trace g) (hfree : g.shared.owner = none) :
    g.shared.lockLocation = [] := by
  rcases h.text with hnil | ⟨t, _, ht, -⟩
  · exact hnil
  · rw [hfree] at ht
    cases ht

theorem step (h : Safe pidOf trace g) {t : T} {i : Input} {g' : System T}
    (hs : Mutex.step pidOf g (t, i) = some ((), g')) :
    Safe pidOf (trace ++ [((t, i), ())]) g' := by
  obtain ⟨⟨m, l⟩, hact, rfl⟩ := Processes.step_cases hs
  obtain ⟨⟨scopes, place⟩, hl⟩ : ∃ l₀, g.pc t = l₀ := ⟨_, rfl⟩
  have hheld := h.held_eq t
  have howns : place.Has = true → g.shared.owner = some t := fun hhas =>
    h.owner_of_has (by rw [hl]; exact hhas)
  rw [hl] at hact hheld
  have hsame : ∀ u ≠ t, (g.shared.owner = some u ↔ g.shared.owner = some u) ∧
      (g.shared.owner = some u → g.shared.depth = g.shared.depth) :=
    fun _ _ => ⟨Iff.rfl, fun _ => rfl⟩
  cases i with
  | construct location =>
    cases place with
    | outside =>
      simp only [act, Option.some_inj, Prod.mk.injEq, true_and] at hact
      obtain ⟨rfl, rfl⟩ := hact
      exact h.put hheld h.owner_iff hsame (.inl ⟨rfl, rfl⟩) False.elim nofun
        (fun _ hc => .inr (by rw [hc])) h.text
    | _ => simp [act] at hact
  | unlock scope =>
    cases place with
    | outside =>
      cases hscope : scopes[scope]? with
      | none => simp [act, hscope] at hact
      | some armed =>
        cases armed with
        | false =>
          simp only [act, hscope, Option.some_inj, Prod.mk.injEq, true_and] at hact
          obtain ⟨rfl, rfl⟩ := hact
          exact h.put hheld h.owner_iff hsame (.inl ⟨rfl, rfl⟩) False.elim nofun
            (fun _ hc => hc.elim) h.text
        | true =>
          simp only [act, hscope, Option.some_inj, Prod.mk.injEq, true_and] at hact
          obtain ⟨rfl, rfl⟩ := hact
          have hcount := count_set_false hscope
          have howner : g.shared.owner = some t := by
            refine h.owner_eq ?_
            rw [hl]
            change 0 < scopes.count true + 0
            omega
          refine h.put ?_ h.owner_iff hsame (.inr howner) False.elim (fun _ => rfl)
            (fun _ hc => hc.elim) (.inl rfl)
          rw [← hheld, Thread.held, Thread.held]
          change _ + 1 = _ + 0
          omega
    | _ => simp [act] at hact
  | destruct =>
    cases place with
    | outside =>
      match scopes with
      | [] => simp [act] at hact
      | false :: scopes =>
        simp only [act, Option.some_inj, Prod.mk.injEq, true_and] at hact
        obtain ⟨rfl, rfl⟩ := hact
        refine h.put ?_ h.owner_iff hsame (.inl ⟨rfl, rfl⟩) False.elim nofun
          (fun _ hc => hc.elim) h.text
        rw [← hheld]
        simp [Thread.held]
      | true :: scopes =>
        simp only [act, Option.some_inj, Prod.mk.injEq, true_and] at hact
        obtain ⟨rfl, rfl⟩ := hact
        have howner : g.shared.owner = some t := by
          refine h.owner_eq ?_
          rw [hl, Thread.held, List.count_cons_self]
          omega
        refine h.put ?_ h.owner_iff hsame (.inr howner) False.elim (fun _ => rfl)
          (fun _ hc => hc.elim) (.inl rfl)
        rw [← hheld]
        simp [Thread.held, Place.Has]
    | _ => simp [act] at hact
  | work =>
    cases place with
    | outside => simp [act] at hact
    | wanting location =>
      by_cases hfree : g.shared.owner = none ∨ g.shared.owner = some t
      · simp only [act, if_pos hfree, Option.some_inj, Prod.mk.injEq, true_and] at hact
        obtain ⟨rfl, rfl⟩ := hact
        have hothers : ∀ u ≠ t, g.shared.owner ≠ some u := by
          intro u hne heq
          rcases hfree with hnone | hown
          · exact absurd (hnone.symm.trans heq) nofun
          · exact hne (Option.some.inj (heq.symm.trans hown))
        have hdepth : g.shared.depth =
            if g.shared.owner = some t then g.shared.depth else 0 := by
          rcases hfree with hnone | hown
          · rw [h.owner_iff.mp hnone, ite_self]
          · rw [if_pos hown]
        refine h.put ?_ ?_ (fun u hne => ⟨?_, ?_⟩) (.inl ⟨rfl, rfl⟩) False.elim nofun
          (fun _ hc => .inl (by rw [hl]; exact hc)) ?_
        · rw [if_pos rfl, hdepth, ← hheld]
          rfl
        · simp
        · exact ⟨fun heq => absurd (Option.some.inj heq).symm hne,
            fun heq => absurd heq (hothers u hne)⟩
        · exact fun heq => absurd heq (hothers u hne)
        · rcases hfree with hnone | hown
          · exact .inl (h.text_of_free hnone)
          · exact h.text_of_same hown.symm rfl rfl
      · simp [act, hfree] at hact
    | entered location =>
      simp only [act, Option.some_inj, Prod.mk.injEq, true_and] at hact
      obtain ⟨rfl, rfl⟩ := hact
      have howner := howns rfl
      refine h.put hheld h.owner_iff hsame (.inr howner) (fun _ => rfl) nofun
        (fun _ hc => .inl (by rw [hl]; exact hc)) ?_
      refine h.text.imp_right ?_
      rintro ⟨u, place, hu, -, hcall, hshown⟩
      obtain rfl := Option.some.inj (howner.symm.trans hu)
      exact ⟨t, place, hu, rfl, hcall, hshown⟩
    | signed location =>
      simp only [act, Option.some_inj, Prod.mk.injEq, true_and] at hact
      obtain ⟨rfl, rfl⟩ := hact
      have hpid := h.signed t (by rw [hl]; trivial)
      exact h.put hheld h.owner_iff hsame (.inl ⟨rfl, rfl⟩) (fun _ => hpid) nofun
        (fun _ hc => .inl (by rw [hl]; exact hc)) (h.text_of_same rfl rfl rfl)
    | counted location =>
      simp only [act, Option.some_inj, Prod.mk.injEq, true_and] at hact
      obtain ⟨rfl, rfl⟩ := hact
      have howner := howns rfl
      have hpid := h.signed t (by rw [hl]; trivial)
      have hcall := h.called t location (by rw [hl]; rfl)
      refine h.put ?_ h.owner_iff hsame (.inr howner) False.elim nofun
        (fun _ hc => hc.elim) (.inr ⟨t, location, howner, hpid, hcall, rfl⟩)
      rw [← hheld]
      simp [Thread.held, Place.Has]
    | leaving =>
      simp only [act, Option.some_inj, Prod.mk.injEq, true_and] at hact
      obtain ⟨rfl, rfl⟩ := hact
      have howner := howns rfl
      have hempty := h.leaving t (by rw [hl])
      have hpos : g.shared.depth ≠ 0 := fun hzero => by
        rw [h.owner_iff.mpr hzero] at howner
        cases howner
      rw [if_pos howner] at hheld
      have hcount : scopes.count true + 1 = g.shared.depth := hheld
      refine h.put ?_ ?_ (fun u hne => ⟨?_, ?_⟩) (.inr howner) False.elim nofun
        (fun _ hc => hc.elim) (.inl hempty)
      · change scopes.count true + 0 =
          if (if g.shared.depth = 1 then none else g.shared.owner) = some t then g.shared.depth - 1
          else 0
        by_cases hone : g.shared.depth = 1
        · rw [if_pos hone, if_neg nofun]
          omega
        · rw [if_neg hone, if_pos howner]
          omega
      · by_cases hone : g.shared.depth = 1
        · simp [hone]
        · simp only [if_neg hone, howner, reduceCtorEq, false_iff]
          omega
      · by_cases hone : g.shared.depth = 1
        · rw [if_pos hone, howner]
          exact ⟨nofun, fun heq => absurd (Option.some.inj heq).symm hne⟩
        · rw [if_neg hone]
      · exact fun heq => absurd (Option.some.inj (heq.symm.trans howner)) hne

end Safe

def place : Location := ⟨[115, 47, 97, 58, 55], by decide⟩

end HiloUtils.Mutex
