import HiloUtils.Word
import HiloUtils.JsonLexer

/-! The writer of `JsonDumper.h` as the bytes it puts out, and the tokens these
bytes render: the layout that `SetWrap` chooses never shows in the tokens. -/

namespace HiloUtils.JsonDump

open Word Json

structure State where
  inArray : Bool
  firstElement : Bool
  wrap : Bool

structure JsonDumper where
  s : List UInt8
  indent : Int
  memberStarted : Bool
  stateStorage : List State
  state : State
  /-- Falls for good when a pointer before the spaces is asked for: from there on
  the program has no behaviour. -/
  defined : Bool

def endl : UInt8 := 10

def szThousandSpaces : List UInt8 := List.replicate 1000 32

/-- There is no pointer before the array, so the guard behind the subtraction
never acts. -/
def getIndentStr (indent : Nat) : Option (List UInt8) :=
  let res : Int := szThousandSpaces.length - indent
  if res < 0 then none else some (szThousandSpaces.drop res.toNat)

def indentation (indent : Nat) : List UInt8 := (getIndentStr indent).getD []

def hexDigit (d : Nat) : UInt8 := UInt8.ofNat (if d < 10 then 48 + d else 87 + d)

def hex4 (n : Nat) : List UInt8 :=
  [hexDigit (n / 4096 % 16), hexDigit (n / 256 % 16), hexDigit (n / 16 % 16), hexDigit (n % 16)]

/-- A byte of a string; `char` is signed. -/
def escape (c : UInt8) : List UInt8 :=
  if c = 34 ∨ c = 92 ∨ (0 < c.toInt8 ∧ c.toInt8 < 32) then
    match c with
    | 34 => [92, 34]
    | 92 => [92, 92]
    | 8 => [92, 98]
    | 12 => [92, 102]
    | 10 => [92, 110]
    | 13 => [92, 114]
    | 9 => [92, 116]
    | _ => 92 :: 117 :: hex4 c.toNat
  else [c]

namespace JsonDumper

def new : JsonDumper where
  s := []
  indent := 0
  memberStarted := false
  stateStorage := []
  state := ⟨false, true, false⟩
  defined := true

def setWrap (d : JsonDumper) (wrap : Bool) : JsonDumper :=
  { d with state := { d.state with wrap := wrap } }

def push (d : JsonDumper) (inArray : Bool) : JsonDumper :=
  { d with
    stateStorage := d.state :: d.stateStorage
    state := { d.state with firstElement := true, inArray := inArray } }

/-- Popping an empty stack has no result. -/
def pop (d : JsonDumper) : Option JsonDumper :=
  match d.stateStorage with
  | [] => none
  | top :: rest => some { d with state := top, stateStorage := rest }

def nextItem (d : JsonDumper) (force : Bool) : JsonDumper :=
  if !force && !d.state.inArray then d
  else
    let comma := if !d.state.firstElement && d.state.inArray then [44] else []
    let newline :=
      if decide (0 < d.stateStorage.length) || !d.state.firstElement then [endl] else []
    let laysOut := d.state.wrap && !d.memberStarted
    let layout := if laysOut then newline ++ indentation (ofI32 d.indent) else []
    { d with
      s := d.s ++ comma ++ layout
      state := { d.state with firstElement := false }
      defined := d.defined && (!laysOut || (getIndentStr (ofI32 d.indent)).isSome) }

def startObject (d : JsonDumper) (isArray : Bool) : JsonDumper :=
  let d := (d.nextItem true).push isArray
  { d with
    s := d.s ++ [if isArray then 91 else 123]
    indent := if d.state.wrap then i32 (d.indent + 2) else d.indent
    memberStarted := false }

def startMember (d : JsonDumper) (name : List UInt8) : Option JsonDumper :=
  if d.state.inArray then none
  else
    let comma := if !d.state.firstElement then 44 :: (if !d.state.wrap then [32] else []) else []
    let layout := if d.state.wrap then endl :: indentation (ofI32 d.indent) else []
    some { d with
      s := d.s ++ comma ++ layout ++ quote :: (name ++ [quote, 58, 32])
      state := { d.state with firstElement := false }
      memberStarted := true
      defined := d.defined && (!d.state.wrap || (getIndentStr (ofI32 d.indent)).isSome) }

def end' (d : JsonDumper) : Option JsonDumper :=
  let laysOut := d.state.wrap && !d.state.firstElement
  let amount := ofI32 (i32 (d.indent - 2))
  let layout := if laysOut then endl :: indentation amount else []
  let d :=
    { d with
      s := d.s ++ layout ++ [if d.state.inArray then 93 else 125]
      defined := d.defined && (!laysOut || (getIndentStr amount).isSome) }
  d.pop.map fun d =>
    { d with
      indent := if d.state.wrap then i32 (d.indent - 2) else d.indent
      memberStarted := false }

def writeInt (d : JsonDumper) (v : Int) : JsonDumper :=
  let d := d.nextItem false
  { d with s := d.s ++ decimal v, memberStarted := false }

def writeString (d : JsonDumper) (sv : List UInt8) : JsonDumper :=
  let d := d.nextItem false
  { d with s := d.s ++ quote :: (sv.flatMap escape ++ [quote]), memberStarted := false }

end JsonDumper

inductive Call
  | setWrap (wrap : Bool)
  | startObject (isArray : Bool)
  | startMember (name : List UInt8)
  | end'
  | int (v : Int)
  | str (sv : List UInt8)

def step (d : JsonDumper) : Call → Option JsonDumper
  | .setWrap wrap => some (d.setWrap wrap)
  | .startObject isArray => some (d.startObject isArray)
  | .startMember name => d.startMember name
  | .end' => d.end'
  | .int v => some (d.writeInt v)
  | .str sv => some (d.writeString sv)

def run (d : JsonDumper) (calls : List Call) : Option JsonDumper := calls.foldlM step d

mutual

def walk : Tree → List Call
  | .int n => [.int n]
  | .str s => [.str s]
  | .arr items => .startObject true :: (walkItems items ++ [.end'])
  | .obj members => .startObject false :: (walkMembers members ++ [.end'])

def walkItems : List Tree → List Call
  | [] => []
  | t :: items => walk t ++ walkItems items

def walkMembers : List (List UInt8 × Tree) → List Call
  | [] => []
  | (name, t) :: members => .startMember name :: (walk t ++ walkMembers members)

end

def Plain (name : List UInt8) : Prop := ∀ b ∈ name, b ≠ quote ∧ b ≠ backslash ∧ ¬ b < 32

inductive Emittable : Tree → Prop
  | int {n : Int} : -2 ^ 63 ≤ n → n < 2 ^ 64 → Emittable (.int n)
  | str {s : List UInt8} : 0 ∉ s → Emittable (.str s)
  | arr {items : List Tree} : (∀ t ∈ items, Emittable t) → Emittable (.arr items)
  | obj {members : List (List UInt8 × Tree)} : (∀ m ∈ members, Plain m.1) →
      (∀ m ∈ members, Emittable m.2) → Emittable (.obj members)

def Call.isSetWrap : Call → Bool
  | .setWrap _ => true
  | _ => false

structure Frame where
  inArray : Bool
  firstElement : Bool

/-- What the calls mean without layout: tokens, and for every open container
whether it is an array and still empty. -/
structure Writer where
  tokens : List Token
  state : Frame
  stack : List Frame

namespace Writer

def separator (w : Writer) : List Token :=
  if w.state.inArray then Json.separator w.state.firstElement else []

def scalar (w : Writer) (tok : Token) : Writer :=
  { w with
    tokens := w.tokens ++ w.separator ++ [tok]
    state := { w.state with firstElement := !w.state.inArray && w.state.firstElement } }

def write (w : Writer) : Call → Option Writer
  | .setWrap _ => some w
  | .startObject isArray =>
    some
      { tokens := w.tokens ++ w.separator ++ [if isArray then .lbracket else .lbrace]
        state := ⟨isArray, true⟩
        stack := { w.state with firstElement := false } :: w.stack }
  | .startMember name =>
    if w.state.inArray then none
    else
      some { w with
        tokens := w.tokens ++ Json.separator w.state.firstElement ++ [.str name, .colon]
        state := { w.state with firstElement := false } }
  | .end' =>
    match w.stack with
    | [] => none
    | top :: rest =>
      some
        { tokens := w.tokens ++ [if w.state.inArray then .rbracket else .rbrace]
          state := top
          stack := rest }
  | .int v => some (w.scalar (.int v))
  | .str sv => some (w.scalar (.str sv))

end Writer

theorem blank_indentation (indent : Nat) : Blank (indentation indent) := by
  have hspaces : Blank szThousandSpaces := fun b hb => by
    rw [List.eq_of_mem_replicate hb]
    rfl
  unfold indentation getIndentStr
  simp only
  split
  · exact List.forall_mem_nil _
  · exact fun b hb => hspaces b (List.mem_of_mem_drop hb)

theorem blank_newline (indent : Nat) : Blank (endl :: indentation indent) :=
  List.forall_mem_cons.mpr ⟨rfl, blank_indentation indent⟩

theorem getIndentStr_isSome_iff {amount : Int} (hlo : -2 ^ 31 ≤ amount) (hhi : amount < 2 ^ 31) :
    (getIndentStr (ofI32 amount)).isSome ↔ 0 ≤ amount ∧ amount ≤ 1000 := by
  have hlen : szThousandSpaces.length = 1000 := List.length_replicate
  have hwrap : (ofI32 amount : Int) = amount % 2 ^ 32 := by
    rw [ofI32]
    omega
  rw [getIndentStr, hlen]
  split
  · next hbefore => simp only [Option.isSome_none, Bool.false_eq_true, false_iff]; omega
  · next hwithin => simp only [Option.isSome_some, true_iff]; omega

theorem raw_of_not_escaped {c : UInt8} (h : ¬ (c = 34 ∨ c = 92 ∨ (0 < c.toInt8 ∧ c.toInt8 < 32)))
    (hnul : c ≠ 0) : c ≠ quote ∧ c ≠ backslash ∧ ¬ c < 32 := by
  revert c
  apply forall_byte
  decide +kernel

theorem readUnicode_hex4 {c : UInt8} (h : c < 32) :
    readUnicode (hexDigit (c.toNat / 4096 % 16)) (hexDigit (c.toNat / 256 % 16))
      (hexDigit (c.toNat / 16 % 16)) (hexDigit (c.toNat % 16)) = some [c] := by
  revert c
  apply forall_byte
  decide +kernel

theorem control_of_escaped {c : UInt8} (h : 0 < c.toInt8 ∧ c.toInt8 < 32) : c < 32 := by
  revert c
  apply forall_byte
  decide +kernel

theorem escape_head (c : UInt8) : (escape c).head? ≠ some quote ∧ escape c ≠ [] := by
  revert c
  apply forall_byte
  decide +kernel

theorem readChar_escape {c : UInt8} (hc : c ≠ 0) (rest : List UInt8) :
    readChar (escape c ++ rest) = some ([c], rest) := by
  unfold escape
  split
  · rename_i hescaped
    split
    -- the control characters without a letter of their own
    case h_8 h34 h92 _ _ _ _ _ =>
      have hcontrol : c < 32 := by
        rcases hescaped with h | h | h
        · exact absurd h h34
        · exact absurd h h92
        · exact control_of_escaped h
      have hread := readUnicode_hex4 hcontrol
      simp only [hex4, List.cons_append, List.nil_append, readChar, backslash, if_true, readEscape,
        hread, Option.map_some]
    all_goals rfl
  · rename_i hraw
    obtain ⟨hquote, hslash, hcontrol⟩ := raw_of_not_escaped hraw hc
    rw [List.singleton_append, readChar, if_neg hslash, if_neg (not_or.mpr ⟨hquote, hcontrol⟩)]

theorem reads_escape {c : UInt8} {body s : List UInt8} (hc : c ≠ 0) (h : Reads body s) :
    Reads (escape c ++ body) (c :: s) := by
  obtain ⟨hhead, hne⟩ := escape_head c
  exact Reads.cons (c := [c]) hhead hne (readChar_escape hc) h

theorem reads_flatMap {s : List UInt8} (h : 0 ∉ s) : Reads (s.flatMap escape) s := by
  induction s with
  | nil => exact Reads.nil
  | cons c s ih =>
    rw [List.mem_cons, not_or] at h
    rw [List.flatMap_cons]
    exact reads_escape (Ne.symm h.1) (ih h.2)

theorem reads_plain {name : List UInt8} (h : Plain name) : Reads name name := by
  induction name with
  | nil => exact Reads.nil
  | cons b name ih =>
    obtain ⟨⟨hquote, hslash, hcontrol⟩, hname⟩ := List.forall_mem_cons.mp h
    exact (ih hname).raw hquote hslash hcontrol

def State.frame (s : State) : Frame := ⟨s.inArray, s.firstElement⟩

structure Dumps (d : JsonDumper) (w : Writer) : Prop where
  renders : Renders w.tokens d.s
  state : d.state.frame = w.state
  stack : d.stateStorage.map State.frame = w.stack

theorem renders_comma {ts : List Token} {txt : List UInt8} (h : Renders ts txt)
    (inArray first : Bool) :
    Renders (ts ++ if inArray then separator first else [])
      (txt ++ if !first && inArray then [44] else []) := by
  cases inArray with
  | false => simpa using h
  | true =>
    cases first with
    | true => simpa [separator] using h
    | false => exact h.token (.punctuation rfl)

theorem nextItem_renders {d : JsonDumper} {w : Writer} (h : Dumps d w) (force : Bool) :
    Renders (w.tokens ++ w.separator) (d.nextItem force).s := by
  have hcomma := renders_comma h.renders d.state.inArray d.state.firstElement
  have hseparator : w.separator =
      if d.state.inArray then separator d.state.firstElement else [] := by
    rw [Writer.separator, ← h.state]
    rfl
  have hnewline : Blank [endl] := List.forall_mem_singleton.mpr rfl
  rw [hseparator, JsonDumper.nextItem]
  by_cases hskip : (!force && !d.state.inArray) = true
  · have harray : d.state.inArray = false := by
      rw [Bool.and_eq_true, Bool.not_eq_true', Bool.not_eq_true'] at hskip
      exact hskip.2
    rw [if_pos hskip, harray]
    simpa using h.renders
  · rw [if_neg hskip]
    exact hcomma.blank ((hnewline.ite.append (blank_indentation _)).ite)

theorem nextItem_state (d : JsonDumper) (force : Bool) :
    (d.nextItem force).state.frame =
      ⟨d.state.inArray, !(force || d.state.inArray) && d.state.firstElement⟩ := by
  unfold JsonDumper.nextItem
  cases force <;> cases hin : d.state.inArray <;> simp [State.frame, hin]

theorem nextItem_stateStorage (d : JsonDumper) (force : Bool) :
    (d.nextItem force).stateStorage = d.stateStorage := by
  unfold JsonDumper.nextItem
  cases force <;> cases d.state.inArray <;> rfl

theorem Dumps.scalar {d : JsonDumper} {w : Writer} {tok : Token} {bytes : List UInt8}
    (h : Dumps d w) (htok : Spells tok bytes) :
    Dumps { d.nextItem false with s := (d.nextItem false).s ++ bytes, memberStarted := false }
      (w.scalar tok) where
  renders := (nextItem_renders h false).token htok
  state := by
    have hstate := nextItem_state d false
    rw [Bool.false_or] at hstate
    simp only [Writer.scalar, ← h.state]
    exact hstate
  stack := by
    rw [nextItem_stateStorage]
    exact h.stack

theorem Dumps.new : Dumps .new ⟨[], ⟨false, true⟩, []⟩ where
  renders := .nil
  state := rfl
  stack := rfl

def Call.Writable : Call → Prop
  | .startMember name => Plain name
  | .str sv => 0 ∉ sv
  | _ => True

theorem Dumps.startObject {d : JsonDumper} {w : Writer} (h : Dumps d w) (isArray : Bool) :
    ∃ w', w.write (.startObject isArray) = some w' ∧ Dumps (d.startObject isArray) w' := by
  refine ⟨_, rfl, ?_, rfl, ?_⟩
  · have htok : Spells (if isArray then .lbracket else .lbrace) [if isArray then 91 else 123] := by
      cases isArray <;> exact .punctuation rfl
    exact (nextItem_renders h true).token htok
  · have hstate := nextItem_state d true
    rw [Bool.true_or, Bool.not_true, Bool.false_and] at hstate
    simp only [JsonDumper.startObject, JsonDumper.push, List.map_cons, hstate,
      nextItem_stateStorage, h.stack, ← h.state]
    rfl

theorem Dumps.startMember {d : JsonDumper} {w : Writer} (h : Dumps d w) {name : List UInt8}
    (hname : Plain name) {w' : Writer} (hw : w.write (.startMember name) = some w') :
    ∃ d', d.startMember name = some d' ∧ Dumps d' w' := by
  have harray : w.state.inArray = d.state.inArray := by rw [← h.state]; rfl
  have hfirst : w.state.firstElement = d.state.firstElement := by rw [← h.state]; rfl
  have hseparator : Renders (w.tokens ++ separator w.state.firstElement) (d.s ++
      if !d.state.firstElement then 44 :: (if !d.state.wrap then [32] else []) else []) := by
    have hspace : Blank [32] := List.forall_mem_singleton.mpr rfl
    rw [hfirst]
    cases d.state.firstElement with
    | true => simpa [separator] using h.renders
    | false =>
      have hcomma : Renders (w.tokens ++ [.comma]) (d.s ++ [44]) :=
        h.renders.token (.punctuation rfl)
      have := hcomma.blank (hspace.ite (c := !d.state.wrap))
      rwa [List.append_assoc] at this
  rw [Writer.write, harray] at hw
  rw [JsonDumper.startMember]
  cases hin : d.state.inArray with
  | true => exact absurd hw (by simp [hin])
  | false =>
    rw [hin] at hw
    obtain rfl := Option.some_inj.mp hw
    refine ⟨_, rfl, ?_, ?_, h.stack⟩
    · have hblank := (blank_newline (ofI32 d.indent)).ite (c := d.state.wrap)
      have hmember := ((hseparator.blank hblank).token (.str (reads_plain hname))).token
        (.punctuation (b := 58) rfl)
      have := hmember.space (b := 32) rfl
      simpa using this
    · rw [← h.state]
      rfl

theorem Dumps.end' {d : JsonDumper} {w : Writer} (h : Dumps d w) {w' : Writer}
    (hw : w.write .end' = some w') : ∃ d', d.end' = some d' ∧ Dumps d' w' := by
  have harray : w.state.inArray = d.state.inArray := by rw [← h.state]; rfl
  rw [Writer.write, ← h.stack, harray] at hw
  rw [JsonDumper.end', JsonDumper.pop]
  cases hstack : d.stateStorage with
  | nil =>
    rw [hstack] at hw
    exact absurd hw (by simp)
  | cons top rest =>
    rw [hstack] at hw
    obtain rfl := Option.some_inj.mp hw
    refine ⟨_, rfl, ?_, rfl, rfl⟩
    have htok : Spells (if d.state.inArray then .rbracket else .rbrace)
        [if d.state.inArray then 93 else 125] := by
      cases d.state.inArray <;> exact .punctuation rfl
    exact (h.renders.blank ((blank_newline _).ite)).token htok

/-- Every call writes what the token writer says, whatever layout is chosen. -/
theorem Dumps.step {d : JsonDumper} {w w' : Writer} (h : Dumps d w) {call : Call}
    (hcall : call.Writable) (hw : w.write call = some w') :
    ∃ d', step d call = some d' ∧ Dumps d' w' := by
  cases call with
  | setWrap wrap =>
    obtain rfl := Option.some_inj.mp hw
    exact ⟨_, rfl, h.renders, h.state, h.stack⟩
  | startObject isArray =>
    obtain ⟨w'', hw'', hd⟩ := h.startObject isArray
    obtain rfl := Option.some_inj.mp (hw.symm.trans hw'')
    exact ⟨_, rfl, hd⟩
  | startMember name => exact h.startMember hcall hw
  | end' => exact h.end' hw
  | int v =>
    obtain rfl := Option.some_inj.mp hw
    exact ⟨_, rfl, h.scalar (.int v)⟩
  | str sv =>
    obtain rfl := Option.some_inj.mp hw
    have := h.scalar (.str (reads_flatMap hcall))
    exact ⟨_, rfl, this⟩

theorem Dumps.run {d : JsonDumper} {w w' : Writer} (h : Dumps d w) {calls : List Call}
    (hcalls : ∀ call ∈ calls, call.Writable) (hw : calls.foldlM Writer.write w = some w') :
    ∃ d', run d calls = some d' ∧ Dumps d' w' := by
  induction calls generalizing d w with
  | nil =>
    obtain rfl := Option.some_inj.mp hw
    exact ⟨d, rfl, h⟩
  | cons call calls ih =>
    obtain ⟨hcall, hcalls⟩ := List.forall_mem_cons.mp hcalls
    rw [List.foldlM_cons] at hw
    obtain ⟨w1, hw1, hw⟩ := Option.bind_eq_some_iff.mp hw
    obtain ⟨d1, hd1, h1⟩ := h.step hcall hw1
    obtain ⟨d', hd', h'⟩ := ih h1 hcalls hw
    exact ⟨d', by rw [JsonDump.run, List.foldlM_cons, hd1]; exact hd', h'⟩

namespace Writer

theorem foldlM_filter (calls : List Call) (w : Writer) :
    calls.foldlM write w = (calls.filter fun call => !call.isSetWrap).foldlM write w := by
  induction calls generalizing w with
  | nil => rfl
  | cons call calls ih =>
    cases call with
    | setWrap wrap => exact ih w
    | _ =>
      rw [List.filter_cons_of_pos rfl, List.foldlM_cons, List.foldlM_cons]
      exact congrArg _ (funext ih)

def after (f : Frame) : Tree → Frame
  | .int _ => ⟨f.inArray, !f.inArray && f.firstElement⟩
  | .str _ => ⟨f.inArray, !f.inArray && f.firstElement⟩
  | _ => ⟨f.inArray, false⟩

theorem after_eq {f : Frame} (t : Tree) (h : f.inArray = true ∨ f.firstElement = false) :
    after f t = ⟨f.inArray, false⟩ := by
  cases t <;> rcases h with h | h <;> simp [after, h]

def Writes (t : Tree) : Prop :=
  ∀ w : Writer, (walk t).foldlM write w =
    some ⟨w.tokens ++ w.separator ++ Json.tokens t, after w.state t, w.stack⟩

theorem foldlM_cons {w w1 : Writer} {call : Call} (h : w.write call = some w1)
    (calls : List Call) : (call :: calls).foldlM write w = calls.foldlM write w1 := by
  rw [List.foldlM_cons, h]
  rfl

theorem foldlM_append {w w1 : Writer} {calls : List Call} (h : calls.foldlM write w = some w1)
    (more : List Call) : (calls ++ more).foldlM write w = more.foldlM write w1 := by
  rw [List.foldlM_append, h]
  rfl

theorem write_walkItems {items : List Tree} (h : ∀ t ∈ items, Writes t) (ts : List Token)
    (first : Bool) (stack : List Frame) :
    (walkItems items).foldlM write ⟨ts, ⟨true, first⟩, stack⟩ =
      some ⟨ts ++ itemTokens first items, ⟨true, first && items.isEmpty⟩, stack⟩ := by
  induction items generalizing ts first with
  | nil => simp [walkItems, itemTokens]
  | cons t items ih =>
    obtain ⟨ht, hitems⟩ := List.forall_mem_cons.mp h
    rw [walkItems, foldlM_append (ht _), after_eq t (.inl rfl), ih hitems]
    simp [itemTokens, separator]

theorem write_walkMembers {members : List (List UInt8 × Tree)} (h : ∀ m ∈ members, Writes m.2)
    (ts : List Token) (first : Bool) (stack : List Frame) :
    (walkMembers members).foldlM write ⟨ts, ⟨false, first⟩, stack⟩ =
      some ⟨ts ++ memberTokens first members, ⟨false, first && members.isEmpty⟩, stack⟩ := by
  induction members generalizing ts first with
  | nil => simp [walkMembers, memberTokens]
  | cons m members ih =>
    obtain ⟨name, t⟩ := m
    obtain ⟨ht, hmembers⟩ : Writes t ∧ ∀ m ∈ members, Writes m.2 := List.forall_mem_cons.mp h
    have hstart : write ⟨ts, ⟨false, first⟩, stack⟩ (.startMember name) =
        some ⟨ts ++ Json.separator first ++ [.str name, .colon], ⟨false, false⟩, stack⟩ := rfl
    rw [walkMembers, foldlM_cons hstart, foldlM_append (ht _), after_eq t (.inr rfl), ih hmembers]
    simp [memberTokens, separator]

theorem writes (t : Tree) : Writes t := by
  induction t using Tree.induct with
  | int n => exact fun w => rfl
  | str s => exact fun w => rfl
  | arr items ih =>
    intro w
    have hstart : w.write (.startObject true) = some ⟨w.tokens ++ w.separator ++ [.lbracket],
        ⟨true, true⟩, ⟨w.state.inArray, false⟩ :: w.stack⟩ := rfl
    rw [walk, foldlM_cons hstart, foldlM_append (write_walkItems ih _ _ _), List.foldlM_cons, write]
    simp [Json.tokens, after]
  | obj members ih =>
    intro w
    have hstart : w.write (.startObject false) = some ⟨w.tokens ++ w.separator ++ [.lbrace],
        ⟨false, true⟩, ⟨w.state.inArray, false⟩ :: w.stack⟩ := rfl
    rw [walk, foldlM_cons hstart, foldlM_append (write_walkMembers ih _ _ _), List.foldlM_cons,
      write]
    simp [Json.tokens, after]

end Writer

theorem mem_walkItems {items : List Tree} {call : Call} (h : call ∈ walkItems items) :
    ∃ t ∈ items, call ∈ walk t := by
  induction items with
  | nil => exact absurd h List.not_mem_nil
  | cons t items ih =>
    rcases List.mem_append.mp h with h | h
    · exact ⟨t, List.mem_cons_self, h⟩
    · obtain ⟨u, hu, hcall⟩ := ih h
      exact ⟨u, List.mem_cons_of_mem _ hu, hcall⟩

theorem mem_walkMembers {members : List (List UInt8 × Tree)} {call : Call}
    (h : call ∈ walkMembers members) :
    ∃ m ∈ members, call = .startMember m.1 ∨ call ∈ walk m.2 := by
  induction members with
  | nil => exact absurd h List.not_mem_nil
  | cons m members ih =>
    rcases List.mem_cons.mp h with h | h
    · exact ⟨m, List.mem_cons_self, .inl h⟩
    · rcases List.mem_append.mp h with h | h
      · exact ⟨m, List.mem_cons_self, .inr h⟩
      · obtain ⟨u, hu, hcall⟩ := ih h
        exact ⟨u, List.mem_cons_of_mem _ hu, hcall⟩

theorem writable_walk {t : Tree} (h : Emittable t) : ∀ call ∈ walk t, call.Writable := by
  induction h with
  | int => exact List.forall_mem_singleton.mpr trivial
  | str hs => exact List.forall_mem_singleton.mpr hs
  | arr _ ih =>
    refine List.forall_mem_cons.mpr ⟨trivial, List.forall_mem_append.mpr ⟨?_, ?_⟩⟩
    · intro call hcall
      obtain ⟨t, ht, hcall⟩ := mem_walkItems hcall
      exact ih t ht call hcall
    · exact List.forall_mem_singleton.mpr trivial
  | obj hnames _ ih =>
    refine List.forall_mem_cons.mpr ⟨trivial, List.forall_mem_append.mpr ⟨?_, ?_⟩⟩
    · intro call hcall
      obtain ⟨m, hm, rfl | hcall⟩ := mem_walkMembers hcall
      · exact hnames m hm
      · exact ih m hm call hcall
    · exact List.forall_mem_singleton.mpr trivial

/-- Walking a tree, with `SetWrap` calls anywhere between, throws nothing, and
its bytes parse back to the tree; whether they are defined is another matter. -/
theorem run_reads_back {t : Tree} (ht : Emittable t) {calls : List Call}
    (hcalls : (calls.filter fun call => !call.isSetWrap) = walk t) :
    ∃ d, run .new calls = some d ∧ parse d.s = some t := by
  have hwritable : ∀ call ∈ calls, call.Writable := by
    intro call hcall
    cases hset : call.isSetWrap with
    | true =>
      cases call with
      | setWrap wrap => trivial
      | _ => exact absurd hset (by simp [Call.isSetWrap])
    | false =>
      refine writable_walk ht call ?_
      rw [← hcalls]
      exact List.mem_filter.mpr ⟨hcall, by rw [hset]; rfl⟩
  have hwrites := Writer.writes t ⟨[], ⟨false, true⟩, []⟩
  rw [← hcalls, ← Writer.foldlM_filter] at hwrites
  obtain ⟨d, hd, hdumps⟩ := Dumps.new.run hwritable hwrites
  have hrenders : Renders (tokens t) d.s := hdumps.renders
  exact ⟨d, hd, parse_renders hrenders⟩

example : (run .new [.setWrap true, .startObject true, .int 5, .str [10], .end']).map (·.s) =
    some [91, 10, 32, 32, 53, 44, 10, 32, 32, 34, 92, 110, 34, 10, 93] := by
  decide +kernel

end HiloUtils.JsonDump
