import HiloUtils.JsonDumper

/-! The indentation of `JsonDumper` under a wrap flag that changes between the
calls. A start and its end go by the flag of the outer level, the line before
the closing bracket goes by that of the inner one. -/

namespace HiloUtils.JsonIndent

open Word Json JsonDump

/-- The calls of the dumper; a `double` comes with the text the stream prints for
it. -/
inductive Move
  | call (c : Call)
  | double (text : List UInt8)

def writeDouble (d : JsonDumper) (text : List UInt8) : JsonDumper :=
  let d := d.nextItem false
  { d with s := d.s ++ text, memberStarted := false }

/-- A `StartMember` that throws leaves the dumper as it is; an `End` without a
start has no result. -/
def next (d : JsonDumper) : Move → Option JsonDumper
  | .call (.startMember name) => some ((d.startMember name).getD d)
  | .call c => step d c
  | .double text => some (writeDouble d text)

def run (d : JsonDumper) (moves : List Move) : Option JsonDumper := moves.foldlM next d

/-- What `End` passes to `GetIndentStr`, if it does. -/
def closing (d : JsonDumper) : Option Int :=
  if d.state.wrap && !d.state.firstElement then some (i32 (d.indent - 2)) else none

/-- The wrap flag now, and at the start of every open container. -/
structure Scope where
  wrap : Bool
  started : List Bool

def Scope.after (c : Scope) : Move → Scope
  | .call (.setWrap wrap) => { c with wrap := wrap }
  | .call (.startObject _) => { c with started := c.wrap :: c.started }
  | .call .end' =>
    match c.started with
    | [] => c
    | wrap :: rest => ⟨wrap, rest⟩
  | _ => c

def scope (moves : List Move) : Scope := moves.foldl Scope.after ⟨false, []⟩

/-- The open containers that were started while wrap was on. -/
def wrapped (moves : List Move) : Nat := (scope moves).started.count true

def Move.isSetWrap : Move → Bool
  | .call c => c.isSetWrap
  | .double _ => false

def Move.isBracket : Move → Bool
  | .call (.startObject _) => true
  | .call .end' => true
  | _ => false

inductive Bracketed : List Move → Prop
  | nil : Bracketed []
  | plain {m : Move} {moves : List Move} : m.isBracket = false → Bracketed moves →
      Bracketed (m :: moves)
  | container {isArray : Bool} {inner moves : List Move} : Bracketed inner → Bracketed moves →
      Bracketed (.call (.startObject isArray) :: (inner ++ .call .end' :: moves))

structure Balanced (moves : List Move) : Prop where
  indent : ∀ before d, before <+: moves → run .new before = some d → d.indent = 2 * wrapped before
  restored : ∀ before isArray inner d d',
    before ++ .call (.startObject isArray) :: (inner ++ [.call .end']) <+: moves →
    Bracketed inner → run .new before = some d →
    run d (.call (.startObject isArray) :: (inner ++ [.call .end'])) = some d' →
    d'.indent = d.indent
  closing : ∀ before d amount, before ++ [.call .end'] <+: moves → run .new before = some d →
    closing d = some amount → 0 ≤ amount

/-- No more containers are open than an `int` can indent, and one that ends with
wrap on and elements in it has been started with wrap on, or lies in such a one. -/
structure Guarded (moves : List Move) : Prop where
  bound : ∀ before d, before <+: moves → run .new before = some d → wrapped before < 2 ^ 30
  closing : ∀ before d, before ++ [.call .end'] <+: moves → run .new before = some d →
    d.state.wrap = true → d.state.firstElement = false → 0 < wrapped before

theorem end'_eq (d : JsonDumper) :
    d.end' =
      ({ d with
        s := d.s ++ ((closing d).elim [] fun amount => endl :: indentation (ofI32 amount)) ++
          [if d.state.inArray then 93 else 125]
        defined := d.defined &&
          (closing d).all fun amount => (getIndentStr (ofI32 amount)).isSome :
          JsonDumper }.pop.map fun d =>
        { d with
          indent := if d.state.wrap then i32 (d.indent - 2) else d.indent
          memberStarted := false }) := by
  rw [JsonDumper.end', closing]
  cases d.state.wrap && !d.state.firstElement <;> rfl

theorem run_cons (d : JsonDumper) (m : Move) (moves : List Move) :
    run d (m :: moves) = (next d m).bind fun d => run d moves :=
  List.foldlM_cons ..

theorem run_append (d : JsonDumper) (before after : List Move) :
    run d (before ++ after) = (run d before).bind fun d => run d after :=
  List.foldlM_append ..

theorem run_calls {calls : List Call} {d d' : JsonDumper} (h : JsonDump.run d calls = some d') :
    run d (calls.map .call) = some d' := by
  induction calls generalizing d with
  | nil => exact h
  | cons c calls ih =>
    rw [JsonDump.run, List.foldlM_cons] at h
    obtain ⟨d1, hstep, hrest⟩ := Option.bind_eq_some_iff.mp h
    have hnext : next d (.call c) = some d1 := by
      cases c with
      | startMember name =>
        change d.startMember name = some d1 at hstep
        rw [next, hstep, Option.getD_some]
      | setWrap wrap => exact hstep
      | startObject isArray => exact hstep
      | end' => exact hstep
      | int v => exact hstep
      | str sv => exact hstep
    rw [List.map_cons, run_cons, hnext, Option.bind_some]
    exact ih hrest

structure Tracks (d : JsonDumper) (c : Scope) : Prop where
  wrap : d.state.wrap = c.wrap
  started : d.stateStorage.map State.wrap = c.started
  indent : d.indent = i32 (2 * (c.started.count true : Nat))

theorem nextItem_indent (d : JsonDumper) (force : Bool) : (d.nextItem force).indent = d.indent := by
  rw [JsonDumper.nextItem]
  split <;> rfl

theorem nextItem_wrap (d : JsonDumper) (force : Bool) :
    (d.nextItem force).state.wrap = d.state.wrap := by
  rw [JsonDumper.nextItem]
  split <;> rfl

namespace Tracks

variable {d d' : JsonDumper} {c : Scope}

theorem new : Tracks .new ⟨false, []⟩ where
  wrap := rfl
  started := rfl
  indent := rfl

theorem keep (h : Tracks d c) (hwrap : d'.state.wrap = d.state.wrap)
    (hstorage : d'.stateStorage = d.stateStorage) (hindent : d'.indent = d.indent) :
    Tracks d' c where
  wrap := hwrap.trans h.wrap
  started := by rw [hstorage, h.started]
  indent := hindent.trans h.indent

theorem nextItem (h : Tracks d c) (force : Bool) : Tracks (d.nextItem force) c :=
  h.keep (nextItem_wrap d force) (nextItem_stateStorage d force) (nextItem_indent d force)

theorem startObject (h : Tracks d c) (isArray : Bool) :
    Tracks (d.startObject isArray) ⟨c.wrap, c.wrap :: c.started⟩ where
  wrap := (h.nextItem true).wrap
  started := by
    change (d.nextItem true).state.wrap :: (d.nextItem true).stateStorage.map State.wrap = _
    rw [(h.nextItem true).wrap, (h.nextItem true).started]
  indent := by
    change (if (d.nextItem true).state.wrap then i32 ((d.nextItem true).indent + 2)
      else (d.nextItem true).indent) = _
    rw [(h.nextItem true).wrap, (h.nextItem true).indent]
    cases c.wrap with
    | false => rw [if_neg Bool.false_ne_true, List.count_cons_of_ne Bool.false_ne_true]
    | true =>
      rw [if_pos rfl, i32_i32_add, List.count_cons_self, Nat.cast_succ, mul_add_one]

theorem startMember (h : Tracks d c) (name : List UInt8) :
    Tracks ((d.startMember name).getD d) c := by
  rw [JsonDumper.startMember]
  split
  · exact h
  · exact h.keep rfl rfl rfl

theorem end' (h : Tracks d c) (hs : d.end' = some d') : Tracks d' (c.after (.call .end')) := by
  rw [end'_eq, JsonDumper.pop] at hs
  cases hstorage : d.stateStorage with
  | nil =>
    simp only [hstorage] at hs
    cases hs
  | cons top rest =>
    simp only [hstorage] at hs
    obtain rfl := Option.some_inj.mp hs
    have hstarted := h.started
    have hindent := h.indent
    rw [hstorage, List.map_cons] at hstarted
    rw [← hstarted] at hindent
    rw [Scope.after, ← hstarted]
    refine ⟨rfl, rfl, ?_⟩
    dsimp only
    rw [hindent]
    cases top.wrap with
    | false => rw [if_neg Bool.false_ne_true, List.count_cons_of_ne Bool.false_ne_true]
    | true =>
      rw [if_pos rfl, Int.sub_eq_add_neg, i32_i32_add, List.count_cons_self]
      congr 1
      omega

theorem next (h : Tracks d c) {m : Move} (hs : next d m = some d') : Tracks d' (c.after m) := by
  cases m with
  | double text =>
    obtain rfl := Option.some_inj.mp hs
    exact (h.nextItem false).keep rfl rfl rfl
  | call call =>
    cases call with
    | setWrap wrap =>
      obtain rfl := Option.some_inj.mp hs
      exact ⟨rfl, h.started, h.indent⟩
    | startObject isArray =>
      obtain rfl := Option.some_inj.mp hs
      exact h.startObject isArray
    | startMember name =>
      obtain rfl := Option.some_inj.mp hs
      exact h.startMember name
    | end' => exact h.end' hs
    | int v =>
      obtain rfl := Option.some_inj.mp hs
      exact (h.nextItem false).keep rfl rfl rfl
    | str sv =>
      obtain rfl := Option.some_inj.mp hs
      exact (h.nextItem false).keep rfl rfl rfl

theorem run (h : Tracks d c) {moves : List Move} (hr : run d moves = some d') :
    Tracks d' (moves.foldl Scope.after c) := by
  induction moves generalizing d c with
  | nil =>
    obtain rfl := Option.some_inj.mp hr
    exact h
  | cons m moves ih =>
    rw [run_cons] at hr
    obtain ⟨d1, hd1, hr⟩ := Option.bind_eq_some_iff.mp hr
    exact ih (h.next hd1) hr

end Tracks

theorem next_plain {m : Move} (h : m.isBracket = false) (d : JsonDumper) :
    ∃ d', next d m = some d' ∧ d'.stateStorage = d.stateStorage := by
  cases m with
  | double text => exact ⟨_, rfl, nextItem_stateStorage d false⟩
  | call call =>
    cases call with
    | startObject isArray => cases h
    | end' => cases h
    | setWrap wrap => exact ⟨_, rfl, rfl⟩
    | startMember name =>
      refine ⟨_, rfl, ?_⟩
      rw [JsonDumper.startMember]
      split <;> rfl
    | int v => exact ⟨_, rfl, nextItem_stateStorage d false⟩
    | str sv => exact ⟨_, rfl, nextItem_stateStorage d false⟩

theorem next_end {d : JsonDumper} {top : State} {rest : List State}
    (h : d.stateStorage = top :: rest) :
    ∃ d', next d (.call .end') = some d' ∧ d'.stateStorage = rest := by
  change ∃ d', d.end' = some d' ∧ _
  rw [end'_eq, JsonDumper.pop]
  simp only [h]
  exact ⟨_, rfl, rfl⟩

theorem run_of_bracketed {moves : List Move} (h : Bracketed moves) (d : JsonDumper) :
    ∃ d', run d moves = some d' ∧ d'.stateStorage = d.stateStorage := by
  induction h generalizing d with
  | nil => exact ⟨d, rfl, rfl⟩
  | plain hplain hmoves ih =>
    obtain ⟨d1, hd1, hkeep⟩ := next_plain hplain d
    obtain ⟨d', hd', hstorage⟩ := ih d1
    refine ⟨d', ?_, hstorage.trans hkeep⟩
    rw [run_cons, hd1, Option.bind_some, hd']
  | @container isArray inner moves hinner hmoves ihinner ihmoves =>
    have hstart : next d (.call (.startObject isArray)) = some (d.startObject isArray) := rfl
    obtain ⟨d1, hd1, hopen⟩ := ihinner (d.startObject isArray)
    have hstorage : d1.stateStorage = (d.nextItem true).state :: d.stateStorage := by
      rw [hopen, ← nextItem_stateStorage d true]
      rfl
    obtain ⟨d2, hd2, hclosed⟩ := next_end hstorage
    obtain ⟨d', hd', hrest⟩ := ihmoves d2
    refine ⟨d', ?_, hrest.trans hclosed⟩
    rw [run_cons, hstart, Option.bind_some, run_append, hd1, Option.bind_some, run_cons, hd2,
      Option.bind_some, hd']

/-- The start and the end of a container take the same from the indentation. -/
theorem indent_restored {c : Scope} {d d' : JsonDumper} (h : Tracks d c) {isArray : Bool}
    {inner : List Move} (hinner : Bracketed inner)
    (hr : run d (.call (.startObject isArray) :: (inner ++ [.call .end'])) = some d') :
    d'.indent = d.indent := by
  have hbracketed : Bracketed (.call (.startObject isArray) :: (inner ++ [.call .end'])) :=
    .container hinner .nil
  obtain ⟨d1, hd1, hstorage⟩ := run_of_bracketed hbracketed d
  obtain rfl := Option.some_inj.mp (hd1.symm.trans hr)
  rw [(h.run hr).indent, h.indent, ← (h.run hr).started, ← h.started, hstorage]

theorem tracks_scope {moves : List Move} {d : JsonDumper} (hr : run .new moves = some d) :
    Tracks d (scope moves) :=
  Tracks.new.run hr

theorem indent_eq {moves : List Move} {d : JsonDumper} (hr : run .new moves = some d) :
    d.indent = i32 (2 * (wrapped moves : Nat)) :=
  (tracks_scope hr).indent

/-- The indentation is balanced in exactly the guarded sequences. -/
theorem balanced_iff (moves : List Move) : Balanced moves ↔ Guarded moves := by
  constructor
  · intro h
    refine ⟨fun before d hbefore hr => ?_, fun before d hbefore hr hwrap hfirst => ?_⟩
    · have hindent := h.indent before d hbefore hr
      rw [indent_eq hr, i32] at hindent
      omega
    · have hclosing : closing d = some (i32 (d.indent - 2)) := by
        rw [closing, hwrap, hfirst]
        rfl
      have hamount := h.closing before d _ hbefore hr hclosing
      have hindent := h.indent before d ((List.prefix_append _ _).trans hbefore) hr
      rw [hindent, i32] at hamount
      omega
  · intro h
    have hindent : ∀ before d, before <+: moves → run .new before = some d →
        d.indent = 2 * wrapped before := by
      intro before d hbefore hr
      have hbound := h.bound before d hbefore hr
      rw [indent_eq hr, i32]
      omega
    refine ⟨hindent, fun before isArray inner d d' _ hinner hr hr' => ?_,
      fun before d amount hbefore hr hclosing => ?_⟩
    · exact indent_restored (tracks_scope hr) hinner hr'
    · have hbegin := (List.prefix_append before _).trans hbefore
      have hbound := h.bound before d hbegin hr
      rw [closing] at hclosing
      split at hclosing
      · next hlayout =>
        rw [Bool.and_eq_true, Bool.not_eq_true'] at hlayout
        have hpos := h.closing before d hbefore hr hlayout.1 hlayout.2
        obtain rfl := Option.some_inj.mp hclosing
        rw [hindent before d hbegin hr, i32]
        omega
      · cases hclosing

/-- Whether a call begins a line, and so asks for an indentation. -/
def laysOut (d : JsonDumper) : Call → Bool
  | .setWrap _ => false
  | .startObject _ => d.state.wrap && !d.memberStarted
  | .startMember _ => !d.state.inArray && d.state.wrap
  | .end' => d.state.wrap && !d.state.firstElement
  | .int _ => d.state.inArray && d.state.wrap && !d.memberStarted
  | .str _ => d.state.inArray && d.state.wrap && !d.memberStarted

def asked (d : JsonDumper) : Call → Int
  | .end' => i32 (d.indent - 2)
  | _ => d.indent

/-- What a call asks for after the calls `before`, told from these alone. -/
def amount (before : List Call) : Call → Int
  | .end' => i32 (2 * (wrapped (before.map .call) : Nat) - 2)
  | _ => i32 (2 * (wrapped (before.map .call) : Nat))

/-- Every line that is laid out is indented by an amount there are spaces for. -/
def Indented (calls : List Call) : Prop :=
  ∀ before c d, before ++ [c] <+: calls → JsonDump.run .new before = some d →
    laysOut d c = true → 0 ≤ amount before c ∧ amount before c ≤ 1000

theorem nextItem_defined (d : JsonDumper) (force : Bool) :
    (d.nextItem force).defined = (d.defined &&
      (!((force || d.state.inArray) && d.state.wrap && !d.memberStarted) ||
        (getIndentStr (ofI32 d.indent)).isSome)) := by
  rw [JsonDumper.nextItem]
  cases force <;> cases d.state.inArray <;> simp

theorem step_defined {c : Call} {d d' : JsonDumper} (h : step d c = some d') :
    d'.defined =
      (d.defined && (!laysOut d c || (getIndentStr (ofI32 (asked d c))).isSome)) := by
  cases c with
  | setWrap wrap =>
    obtain rfl := Option.some_inj.mp h
    rw [laysOut, Bool.not_false, Bool.true_or, Bool.and_true]
    rfl
  | startObject isArray =>
    obtain rfl := Option.some_inj.mp h
    change (d.nextItem true).defined = _
    rw [nextItem_defined, Bool.true_or, Bool.true_and]
    rfl
  | startMember name =>
    change d.startMember name = some d' at h
    rw [JsonDumper.startMember] at h
    split at h
    · cases h
    · next hin =>
      obtain rfl := Option.some_inj.mp h
      rw [laysOut, Bool.eq_false_iff.mpr hin]
      rfl
  | end' =>
    change d.end' = some d' at h
    rw [JsonDumper.end', JsonDumper.pop] at h
    cases hstorage : d.stateStorage with
    | nil =>
      simp only [hstorage] at h
      cases h
    | cons top rest =>
      simp only [hstorage] at h
      obtain rfl := Option.some_inj.mp h
      rfl
  | int v =>
    obtain rfl := Option.some_inj.mp h
    change (d.nextItem false).defined = _
    rw [nextItem_defined, Bool.false_or]
    rfl
  | str sv =>
    obtain rfl := Option.some_inj.mp h
    change (d.nextItem false).defined = _
    rw [nextItem_defined, Bool.false_or]
    rfl

theorem asked_eq {before : List Call} {d : JsonDumper} (hr : JsonDump.run .new before = some d)
    (c : Call) : asked d c = amount before c := by
  have hindent := indent_eq (run_calls hr)
  cases c with
  | end' =>
    have hcut := i32_i32_add (2 * (wrapped (before.map .call) : Nat)) (-2)
    rw [← Int.sub_eq_add_neg, ← Int.sub_eq_add_neg, ← hindent] at hcut
    exact hcut
  | _ => exact hindent

theorem amount_bounds (before : List Call) (c : Call) :
    -2 ^ 31 ≤ amount before c ∧ amount before c < 2 ^ 31 := by
  have hi32 : ∀ x : Int, -2 ^ 31 ≤ i32 x ∧ i32 x < 2 ^ 31 := by
    intro x
    rw [i32]
    omega
  cases c <;> exact hi32 _

theorem step_defined_iff {before : List Call} {c : Call} {d d' : JsonDumper}
    (hr : JsonDump.run .new before = some d) (h : step d c = some d') :
    d'.defined = true ↔ d.defined = true ∧
      (laysOut d c = true → 0 ≤ amount before c ∧ amount before c ≤ 1000) := by
  obtain ⟨hlo, hhi⟩ := amount_bounds before c
  rw [step_defined h, asked_eq hr, Bool.and_eq_true, Bool.or_eq_true, Bool.not_eq_true',
    getIndentStr_isSome_iff hlo hhi, or_iff_not_imp_left, Bool.not_eq_false]

theorem run_concat (d : JsonDumper) (before : List Call) (c : Call) :
    JsonDump.run d (before ++ [c]) = (JsonDump.run d before).bind fun d => step d c := by
  rw [JsonDump.run, List.foldlM_append]
  change (_ >>= fun d => step d c >>= pure) = _
  simp only [bind_pure]
  rfl

theorem run_defined_iff {calls : List Call} {d : JsonDumper}
    (hr : JsonDump.run .new calls = some d) : d.defined = true ↔ Indented calls := by
  induction calls using List.reverseRecOn generalizing d with
  | nil =>
    obtain rfl := Option.some_inj.mp hr
    refine iff_of_true rfl fun before c d hbefore => ?_
    exact absurd (List.prefix_nil.mp hbefore) (List.append_ne_nil_of_right_ne_nil _ (by simp))
  | append_singleton calls c ih =>
    have hrun := hr
    rw [run_concat] at hr
    obtain ⟨d1, hd1, hstep⟩ := Option.bind_eq_some_iff.mp hr
    rw [step_defined_iff hd1 hstep, ih hd1]
    constructor
    · rintro ⟨hbefore, hlast⟩ before c' d' hbegin hd' hlays
      rcases List.prefix_concat_iff.mp hbegin with heq | hbegin
      · obtain ⟨rfl, hc⟩ := List.append_inj' heq rfl
        obtain rfl := List.singleton_inj.mp hc
        obtain rfl := Option.some_inj.mp (hd1.symm.trans hd')
        exact hlast hlays
      · exact hbefore before c' d' hbegin hd' hlays
    · intro h
      refine ⟨fun before c' d' hbegin => h before c' d' (hbegin.trans (List.prefix_append _ _)),
        h calls c d1 (List.prefix_refl _) hd1⟩

/-- The calls that walk a tree, with `SetWrap` anywhere between, put out a text
that parses back to it exactly when no line is indented past the spaces. -/
theorem run_parses_iff {t : Tree} (ht : Emittable t) {calls : List Call}
    (hcalls : (calls.filter fun call => !call.isSetWrap) = walk t) :
    (∃ d, JsonDump.run .new calls = some d ∧ d.defined = true ∧ parse d.s = some t) ↔
      Indented calls := by
  obtain ⟨d, hd, hparse⟩ := run_reads_back ht hcalls
  rw [← run_defined_iff hd]
  constructor
  · rintro ⟨d', hd', hdefined, -⟩
    obtain rfl := Option.some_inj.mp (hd.symm.trans hd')
    exact hdefined
  · exact fun hdefined => ⟨d, hd, hdefined, hparse⟩

def toggled : List Call :=
  [.setWrap true, .startObject false, .setWrap false, .startMember [97], .setWrap true,
    .startObject true, .int (-5), .setWrap false, .str [10, 34], .setWrap true, .end',
    .setWrap true, .startMember [98], .startObject false, .end', .end']

theorem run_parses_iff_toggled : Indented toggled ∧
    ∃ d, JsonDump.run .new toggled = some d ∧ d.defined = true ∧
      parse d.s = some (.obj [([97], .arr [.int (-5), .str [10, 34]]), ([98], .obj [])]) := by
  have hitems : ∀ t ∈ [Tree.int (-5), .str [10, 34]], Emittable t :=
    List.forall_mem_cons.mpr ⟨.int (by decide) (by decide),
      List.forall_mem_singleton.mpr (.str (by decide))⟩
  have hmembers : ∀ m ∈ [(([97] : List UInt8), Tree.arr [.int (-5), .str [10, 34]]),
      ([98], .obj [])], Emittable m.2 :=
    List.forall_mem_cons.mpr ⟨.arr hitems, List.forall_mem_singleton.mpr
      (.obj (List.forall_mem_nil _) (List.forall_mem_nil _))⟩
  have hnames : ∀ m ∈ [(([97] : List UInt8), Tree.arr [.int (-5), .str [10, 34]]),
      ([98], .obj [])], Plain m.1 := by
    refine List.forall_mem_cons.mpr ⟨?_, List.forall_mem_singleton.mpr ?_⟩ <;>
      exact List.forall_mem_singleton.mpr (by decide)
  have ht : Emittable (.obj [([97], .arr [.int (-5), .str [10, 34]]), ([98], .obj [])]) :=
    .obj hnames hmembers
  have hcalls : (toggled.filter fun call => !call.isSetWrap) =
      walk (.obj [([97], .arr [.int (-5), .str [10, 34]]), ([98], .obj [])]) := rfl
  obtain ⟨d, hd, hparse⟩ := run_reads_back ht hcalls
  have hdefined : d.defined = true := by
    obtain rfl := Option.some_inj.mp hd
    decide +kernel
  exact ⟨(run_parses_iff ht hcalls).mp ⟨d, hd, hdefined, hparse⟩, d, hd, hdefined, hparse⟩

/-- The object `{"a": 1}`, wrapped once it is open. -/
theorem late_wrap_leaves_spaces :
    ¬ ∀ t, Emittable t → ∀ calls, (calls.filter fun call => !call.isSetWrap) = walk t →
      ∃ d, JsonDump.run .new calls = some d ∧ d.defined = true ∧ parse d.s = some t := by
  intro hall
  have ht : Emittable (.obj [([97], .int 1)]) :=
    .obj (List.forall_mem_singleton.mpr (List.forall_mem_singleton.mpr (by decide)))
      (List.forall_mem_singleton.mpr (.int (by decide) (by decide)))
  obtain ⟨d, hd, hdefined, -⟩ := hall _ ht
    [.startObject false, .setWrap true, .startMember [97], .int 1, .end'] rfl
  obtain rfl := Option.some_inj.mp hd
  revert hdefined
  decide +kernel

def Scope.Uniform (c : Scope) : Prop := ∀ wrap ∈ c.started, wrap = c.wrap

theorem after_uniform {c : Scope} (h : c.Uniform) {m : Move} (hm : m.isSetWrap = false) :
    (c.after m).Uniform ∧ (c.after m).wrap = c.wrap := by
  cases m with
  | double text => exact ⟨h, rfl⟩
  | call call =>
    cases call with
    | setWrap wrap => cases hm
    | startObject isArray => exact ⟨List.forall_mem_cons.mpr ⟨rfl, h⟩, rfl⟩
    | startMember name => exact ⟨h, rfl⟩
    | int v => exact ⟨h, rfl⟩
    | str sv => exact ⟨h, rfl⟩
    | end' =>
      rw [Scope.after]
      split
      · exact ⟨h, rfl⟩
      · next top rest hstarted =>
        rw [Scope.Uniform, hstarted, List.forall_mem_cons] at h
        obtain ⟨htop, hrest⟩ := h
        exact ⟨fun wrap hwrap => (hrest wrap hwrap).trans htop.symm, htop⟩

theorem foldl_uniform {c : Scope} (h : c.Uniform) {moves : List Move}
    (hmoves : ∀ m ∈ moves, m.isSetWrap = false) : (moves.foldl Scope.after c).Uniform := by
  induction moves generalizing c with
  | nil => exact h
  | cons m moves ih =>
    obtain ⟨hm, hmoves⟩ := List.forall_mem_cons.mp hmoves
    exact ih (after_uniform h hm).1 hmoves

theorem after_started_length_le (c : Scope) (m : Move) :
    (c.after m).started.length ≤ c.started.length + 1 := by
  cases m with
  | double text => exact Nat.le_succ _
  | call call =>
    cases call with
    | startObject isArray => exact le_rfl
    | setWrap wrap => exact Nat.le_succ _
    | startMember name => exact Nat.le_succ _
    | int v => exact Nat.le_succ _
    | str sv => exact Nat.le_succ _
    | end' =>
      rw [Scope.after]
      split
      · exact Nat.le_succ _
      · next hstarted =>
        rw [hstarted, List.length_cons]
        dsimp only
        omega

theorem started_length_le (c : Scope) (moves : List Move) :
    (moves.foldl Scope.after c).started.length ≤ c.started.length + moves.length := by
  induction moves generalizing c with
  | nil => exact le_rfl
  | cons m moves ih =>
    have hstep := after_started_length_le c m
    have hrest := ih (c.after m)
    rw [List.foldl_cons, List.length_cons]
    omega

theorem stateStorage_ne_nil {moves before : List Move} {d0 d : JsonDumper} (h : Bracketed moves)
    (hbefore : before ++ [.call .end'] <+: moves) (hr : run d0 before = some d) :
    d.stateStorage ≠ [] := by
  obtain ⟨rest, rfl⟩ := hbefore
  obtain ⟨d', hd', -⟩ := run_of_bracketed h d0
  rw [List.append_assoc, run_append, hr, Option.bind_some, List.singleton_append, run_cons] at hd'
  obtain ⟨d1, hd1, -⟩ := Option.bind_eq_some_iff.mp hd'
  intro hnil
  change d.end' = some d1 at hd1
  rw [end'_eq, JsonDumper.pop] at hd1
  simp only [hnil] at hd1
  cases hd1

theorem guarded_of_uniform {moves : List Move} (h : Bracketed moves)
    (hmoves : ∀ m ∈ moves, m.isSetWrap = false) (hlen : moves.length < 2 ^ 30) (wrap : Bool) :
    Guarded (.call (.setWrap wrap) :: moves) where
  bound := by
    intro before d hbefore hr
    have hcount : wrapped before ≤ (scope before).started.length := List.count_le_length
    obtain rfl | ⟨inner, rfl, hinner⟩ := List.prefix_cons_iff.mp hbefore
    · exact hcount.trans_lt (by decide)
    · have hstarted := started_length_le ⟨wrap, []⟩ inner
      have hle := hinner.length_le
      change _ ≤ 0 + inner.length at hstarted
      change _ ≤ (inner.foldl Scope.after ⟨wrap, []⟩).started.length at hcount
      omega
  closing := by
    intro before d hbefore hr hwrap _
    obtain hnil | ⟨inner, hcons, hinner⟩ := List.prefix_cons_iff.mp hbefore
    · exact absurd hnil (List.append_ne_nil_of_right_ne_nil _ (List.cons_ne_nil _ _))
    · cases before with
      | nil => cases (List.cons_eq_cons.mp hcons).1
      | cons m before =>
        obtain ⟨rfl, rfl⟩ := List.cons_eq_cons.mp hcons
        have htracks := tracks_scope hr
        have huniform : (scope (.call (.setWrap wrap) :: before)).Uniform :=
          foldl_uniform (c := ⟨wrap, []⟩) (fun _ h => nomatch h) fun m hm =>
            hmoves m (hinner.subset (List.mem_append_left _ hm))
        have hopen : (scope (.call (.setWrap wrap) :: before)).started ≠ [] := by
          rw [← htracks.started]
          exact fun hnil => stateStorage_ne_nil h hinner hr (List.map_eq_nil_iff.mp hnil)
        obtain ⟨top, htop⟩ := List.exists_mem_of_ne_nil _ hopen
        have htrue : top = true := by rw [huniform top htop, ← htracks.wrap, hwrap]
        rw [htrue] at htop
        exact List.count_pos_iff.mpr htop

theorem Bracketed.append {a b : List Move} (ha : Bracketed a) (hb : Bracketed b) :
    Bracketed (a ++ b) := by
  induction ha with
  | nil => exact hb
  | plain hplain _ ih => exact .plain hplain ih
  | container hinner _ _ ih =>
    rw [List.cons_append, List.append_assoc, List.cons_append]
    exact .container hinner ih

theorem bracketed_walk (t : Tree) : Bracketed ((walk t).map .call) := by
  induction t using Tree.induct with
  | int n => exact .plain rfl .nil
  | str s => exact .plain rfl .nil
  | arr items ih =>
    have hitems : Bracketed ((walkItems items).map .call) := by
      induction items with
      | nil => exact .nil
      | cons t items ihitems =>
        obtain ⟨ht, hitems⟩ := List.forall_mem_cons.mp ih
        rw [walkItems, List.map_append]
        exact ht.append (ihitems hitems)
    rw [walk, List.map_cons, List.map_append]
    exact .container hitems .nil
  | obj members ih =>
    have hmembers : Bracketed ((walkMembers members).map .call) := by
      induction members with
      | nil => exact .nil
      | cons m members ihmembers =>
        obtain ⟨hm, hmembers⟩ := List.forall_mem_cons.mp ih
        rw [walkMembers, List.map_cons, List.map_append]
        exact .plain rfl (hm.append (ihmembers hmembers))
    rw [walk, List.map_cons, List.map_append]
    exact .container hmembers .nil

theorem walk_keeps_wrap (t : Tree) : ∀ c ∈ walk t, c.isSetWrap = false := by
  induction t using Tree.induct with
  | int n => exact List.forall_mem_singleton.mpr rfl
  | str s => exact List.forall_mem_singleton.mpr rfl
  | arr items ih =>
    rw [walk]
    refine List.forall_mem_cons.mpr ⟨rfl, List.forall_mem_append.mpr ⟨?_, ?_⟩⟩
    · intro c hc
      obtain ⟨t, ht, hc⟩ := mem_walkItems hc
      exact ih t ht c hc
    · exact List.forall_mem_singleton.mpr rfl
  | obj members ih =>
    rw [walk]
    refine List.forall_mem_cons.mpr ⟨rfl, List.forall_mem_append.mpr ⟨?_, ?_⟩⟩
    · intro c hc
      obtain ⟨m, hm, rfl | hc⟩ := mem_walkMembers hc
      · rfl
      · exact ih m hm c hc
    · exact List.forall_mem_singleton.mpr rfl

theorem guarded_walk (t : Tree) (hlen : (walk t).length < 2 ^ 30) (wrap : Bool) :
    Guarded (.call (.setWrap wrap) :: (walk t).map .call) := by
  have hmoves : ∀ m ∈ (walk t).map Move.call, m.isSetWrap = false :=
    List.forall_mem_map.mpr (walk_keeps_wrap t)
  exact guarded_of_uniform (bracketed_walk t) hmoves (by rwa [List.length_map]) wrap

def wrappedLate : List Move :=
  [.call (.startObject false), .call (.setWrap true), .call (.startMember [97]), .call (.int 1)]

theorem late_wrap_closes_before_margin : ¬ ∀ moves, Bracketed moves → Balanced moves := by
  intro hall
  have hbracketed : Bracketed (wrappedLate ++ [.call .end']) :=
    .container (.plain rfl (.plain rfl (.plain rfl .nil))) .nil
  have hamount := (hall _ hbracketed).closing wrappedLate _ (-2) (List.prefix_refl _) rfl rfl
  omega

end HiloUtils.JsonIndent
