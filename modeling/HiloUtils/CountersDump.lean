import HiloUtils.Category
import HiloUtils.DumpNumber
import HiloUtils.StatusCheck

/-! `Counters::Dump`: the counters of a category, one row each, in the formats
the tools ask for. -/

namespace HiloUtils.CountersDump

open Word SortedArray CString Dictionary DictionaryMap Category Json DumpUtils StatusCheck

def newline : UInt8 := 10

def bar : UInt8 := 124

def equals : UInt8 := 61

inductive CountersFormat
  | simple
  | raw
  | table
  | nagios
  | nagiosTotal
  | nagios5m
  | unknown

variable {size storageSize : UInt32}

structure CountersData (size storageSize : UInt32) where
  dict : CDictionary size storageSize
  counters : Int → Int

namespace CountersData

/-- The names and values of a category; a lookup of its ids is never NULL. -/
def entries (c : CountersData size storageSize) (pfx : Option CName) :
    Option (List (CName × Int)) :=
  (c.dict.getCategory pfx).bind fun rs => rs.mapM fun r =>
    (c.dict.idString r.id).map fun name => (name, c.counters r.id)

def entryOf (c : CountersData size storageSize) (names : List CName) (missing : CName)
    (r : NameRec) : CName × Int :=
  (names[r.id.toNat]?.getD missing, c.counters r.id)

end CountersData

def hidden (pfx : Option CName) (hidePrefix : Bool) : Nat :=
  match pfx with
  | none => 0
  | some p => if hidePrefix then strlen p else 0

def longer (len : Int) (e : CName × Int) : Int := if len < strlen e.1 then strlen e.1 else len

def longest (es : List (CName × Int)) : Int := es.foldl longer (-1)

def maxLen (es : List (CName × Int)) (len : Nat) : Int := longest es - len

def nameTitle : List UInt8 := ascii [' ', ' ', ' ', 'N', 'a', 'm', 'e']

def header (maxLen : Int) : CountersFormat → List UInt8
  | .nagios | .nagiosTotal | .nagios5m => ascii ['O', 'K', ' ', '|']
  | .table =>
    bar :: setw DumpUtils.space maxLen nameTitle ++
      ascii ['|', ' ', 'V', 'a', 'l', 'u', 'e', '|'] ++ [newline]
  | .simple | .raw | .unknown => []

/-- One round of the loop. Comparing with a NULL prefix has no result, and the
scaling of a column takes seven rounds at most. -/
def row (pfx : Option CName) (len : Nat) (maxLen : Int) (e : CName × Int) :
    CountersFormat → Option (List UInt8)
  | .raw => pfx.map fun p =>
    if strcasecmp e.1.1 p.1 ≠ 0 then [] else decimal e.2 ++ [newline]
  | .simple => some (e.1.1.drop len ++ DumpUtils.space :: (decimal e.2 ++ [newline]))
  | .table => (dumpNumber 7 (ofI64 e.2) 6).map fun value =>
    bar :: (setw DumpUtils.space maxLen (e.1.1.drop len) ++ bar :: (value ++ [bar, newline]))
  | .nagios | .nagiosTotal | .nagios5m =>
    some (DumpUtils.space :: (e.1.1.drop len ++ equals :: decimal e.2))
  | .unknown => some []

def footer : CountersFormat → List UInt8
  | .nagios | .nagiosTotal | .nagios5m => [newline]
  | .simple | .raw | .table | .unknown => []

def lines (c : CountersData size storageSize) (pfx : Option CName) (format : CountersFormat)
    (hidePrefix : Bool) : Option (List (List UInt8)) :=
  (c.entries pfx).bind fun es =>
    let len := hidden pfx hidePrefix
    (es.mapM fun e => row pfx len (maxLen es len) e format).map fun rows =>
      header (maxLen es len) format :: rows ++ [footer format]

def dump (c : CountersData size storageSize) (pfx : Option CName) (format : CountersFormat)
    (hidePrefix : Bool) : Option (List UInt8) :=
  (lines c pfx format hidePrefix).map List.flatten

def Listed (pfx : Option CName) (name : CName) : Prop :=
  ∀ p, pfx = some p → p.1 ≠ [] →
    StartsWith p name.1 ∧ strlen p < nameMaxLen ∧ name.1[strlen p]? ≠ some 255

theorem mapM_eq_some {α β : Type*} {f : α → Option β} {g : α → β} {xs : List α}
    (h : ∀ x ∈ xs, f x = some (g x)) : xs.mapM f = some (xs.map g) := by
  induction xs with
  | nil => rfl
  | cons x xs ih =>
    rw [List.mapM_cons, h x List.mem_cons_self, ih fun y hy => h y (List.mem_cons_of_mem _ hy)]
    rfl

variable {c : CountersData size storageSize} {names : List CName} {pfx : Option CName}

theorem mem_category (h : Stores c.dict names) (pfx : Option CName) :
    ∃ rs, c.dict.getCategory pfx = some rs ∧ rs.Sublist (live c.dict.index names.length) ∧
      ∀ r ∈ live c.dict.index names.length, ∀ i : Nat, (hi : i < names.length) → r.id = i →
        (r ∈ rs ↔ Listed pfx names[i]) := by
  have hindex := getIndex_eq h
  cases pfx with
  | none =>
    exact ⟨_, congrArg some hindex, List.Sublist.refl _, fun r hr i hi _ =>
      ⟨fun _ p hp => (by cases hp), fun _ => hr⟩⟩
  | some p =>
    by_cases hp : p.1 = []
    · refine ⟨_, ?_, List.Sublist.refl _, fun r hr i hi _ => ⟨fun _ q hq hne => ?_, fun _ => hr⟩⟩
      · simp only [CDictionary.getCategory, if_pos hp, hindex]
      · rw [← Option.some_inj.mp hq] at hne
        exact absurd hp hne
    · obtain ⟨rs, hrs, hmem⟩ := mem_getCategory h hp
      have hsub := getCategory_sublist hrs
      rw [hindex] at hsub
      refine ⟨rs, hrs, hsub, fun r hr i hi hid => ?_⟩
      obtain ⟨j, hj, hid', hoff, -⟩ := h.mem_index hr
      obtain rfl : i = j := by omega
      have hstring : c.dict.getString r.nameOffset = some names[i].1 := by
        rw [hoff, h.getString_eq hi]
      rw [hmem, hindex]
      constructor
      · rintro ⟨-, s, hs, hlisted⟩ q hq -
        rw [hstring] at hs
        rw [← Option.some_inj.mp hq, Option.some_inj.mp hs]
        exact hlisted
      · exact fun hlisted => ⟨hr, names[i].1, hstring, hlisted p rfl hp⟩

theorem entries_spec (h : Stores c.dict names) (pfx : Option CName) :
    ∃ es, c.entries pfx = some es ∧ es.Pairwise (fun a b => fold a.1.1 < fold b.1.1) ∧
      ∀ e, e ∈ es ↔ ∃ i : Nat, ∃ hi : i < names.length,
        e = (names[i], c.counters i) ∧ Listed pfx names[i] := by
  obtain ⟨rs, hrs, hsub, hmem⟩ := mem_category h pfx
  have hentry : ∀ (r : NameRec) (i : Nat) (hi : i < names.length), r.id = i →
      c.entryOf names (shortName []) r = (names[i], c.counters i) := by
    intro r i hi hid
    rw [CountersData.entryOf, hid, Int.toNat_natCast, List.getElem?_eq_getElem hi, Option.getD_some]
  have hall : ∀ r ∈ rs, (c.dict.idString r.id).map (fun name => (name, c.counters r.id)) =
      some (c.entryOf names (shortName []) r) := by
    intro r hr
    obtain ⟨i, hi, hid, -⟩ := h.mem_index (hsub.subset hr)
    rw [hentry r i hi hid, hid, h.idString_eq hi, Option.map_some]
  refine ⟨rs.map (c.entryOf names (shortName [])), ?_, ?_, fun e => ?_⟩
  · rw [CountersData.entries, hrs, Option.bind_some, mapM_eq_some hall]
  · have hsorted := h.sorted.sublist hsub
    rw [List.pairwise_map]
    refine hsorted.imp_of_mem fun {a b} ha hb hlt => ?_
    obtain ⟨i, hi, hida, -, hkeya⟩ := h.mem_index (hsub.subset ha)
    obtain ⟨j, hj, hidb, -, hkeyb⟩ := h.mem_index (hsub.subset hb)
    rw [hentry a i hi hida, hentry b j hj hidb]
    rwa [hkeya, hkeyb] at hlt
  · rw [List.mem_map]
    constructor
    · rintro ⟨r, hr, rfl⟩
      obtain ⟨i, hi, hid, -⟩ := h.mem_index (hsub.subset hr)
      exact ⟨i, hi, hentry r i hi hid,
        (hmem r (hsub.subset hr) i hi hid).mp hr⟩
    · rintro ⟨i, hi, rfl, hlisted⟩
      obtain ⟨r, hr, hid⟩ := h.index_of hi
      exact ⟨r, (hmem r hr i hi hid).mpr hlisted, hentry r i hi hid⟩

/-! Reading a dump back. -/

def textLines (text : List UInt8) : List (List UInt8) := (text.splitOn newline).dropLast

/-- A name and, behind the last space, a number. -/
def decodeLine (line : List UInt8) : Option (List UInt8 × Int) :=
  let number := (line.reverse.takeWhile (· != DumpUtils.space)).reverse
  let name := ((line.reverse.dropWhile (· != DumpUtils.space)).drop 1).reverse
  match readInt number with
  | some (n, []) => some (name, n)
  | _ => none

def decode (text : List UInt8) : Option (List (List UInt8 × Int)) :=
  (textLines text).mapM decodeLine

theorem textLines_flatten {rows : List (List UInt8)} (h : ∀ line ∈ rows, newline ∉ line) :
    textLines (rows.map fun line => line ++ [newline]).flatten = rows := by
  induction rows with
  | nil => rfl
  | cons line rows ih =>
    have hrest := ih fun line' hline' => h line' (List.mem_cons_of_mem _ hline')
    rw [textLines] at hrest ⊢
    rw [List.map_cons, List.flatten_cons, List.append_assoc, List.singleton_append,
      List.splitOn_append_cons_self_of_not_mem (h line List.mem_cons_self),
      List.dropLast_cons_of_ne_nil (List.splitOn_ne_nil _ _), hrest]

theorem digits_bytes (n : Nat) {b : UInt8} (h : b ∈ decimalNat n) :
    b ≠ newline ∧ b ≠ DumpUtils.space := by
  have hdigit := (decimalNat_spec n).1 b h
  constructor <;> rintro rfl <;> exact absurd hdigit (by decide)

theorem decimal_bytes {n : Int} {b : UInt8} (h : b ∈ decimal n) :
    b ≠ newline ∧ b ≠ DumpUtils.space := by
  rw [decimal] at h
  split at h
  · rcases List.mem_cons.mp h with rfl | h
    · exact ⟨by decide, by decide⟩
    · exact digits_bytes _ h
  · exact digits_bytes _ h

theorem decodeLine_row (name : List UInt8) (n : Int) :
    decodeLine (name ++ DumpUtils.space :: decimal n) = some (name, n) := by
  have hreverse : (name ++ DumpUtils.space :: decimal n).reverse =
      (decimal n).reverse ++ DumpUtils.space :: name.reverse := by simp
  have hnumber : ∀ b ∈ (decimal n).reverse, (b != DumpUtils.space) = true := fun b hb => by
    simpa using (decimal_bytes (List.mem_reverse.mp hb)).2
  have hread : readInt (decimal n ++ []) = some (n, []) := readInt_decimal n nofun
  rw [List.append_nil] at hread
  have hstop : (DumpUtils.space != DumpUtils.space) = false := by decide
  simp only [decodeLine, hreverse, List.takeWhile_append_of_pos hnumber,
    List.dropWhile_append_of_pos hnumber, List.takeWhile_cons, List.dropWhile_cons, hstop,
    Bool.false_eq_true, if_false, List.append_nil, List.reverse_reverse, hread, List.drop_succ_cons,
    List.drop_zero]

theorem idString_iff {d : CDictionary size storageSize} (h : Stores d names) {id : Int}
    {name : CName} : d.idString id = some name ↔
      ∃ i : Nat, ∃ hi : i < names.length, id = i ∧ name = names[i] := by
  constructor
  · intro hname
    by_cases hid : 0 ≤ id ∧ id < d.count
    · obtain ⟨i, hi, rfl⟩ := exists_position h hid.1 hid.2
      rw [h.idString_eq hi] at hname
      exact ⟨i, hi, rfl, (Option.some_inj.mp hname).symm⟩
    · rw [CDictionary.idString, lookupId_none hid] at hname
      exact absurd hname (by simp)
  · rintro ⟨i, hi, rfl, rfl⟩
    exact h.idString_eq hi

def Shows (d : CDictionary size storageSize) (pfx : Option CName) (id : Int) (name : CName) :
    Prop :=
  d.idString id = some name ∧ Listed pfx name

theorem entries_of_run (raw : CDictionary size storageSize) {trace : List (Op × Out)}
    {d : CDictionary size storageSize} (run : Run step Measured raw.clear trace d)
    (counters : Int → Int) (pfx : Option CName) :
    ∃ es, CountersData.entries ⟨d, counters⟩ pfx = some es ∧
      es.Pairwise (fun a b => fold a.1.1 < fold b.1.1) ∧
      ∀ name value, (name, value) ∈ es ↔ ∃ id, Shows d pfx id name ∧ value = counters id := by
  obtain ⟨names, href⟩ := refines_of_run raw run
  have h := href.stores
  obtain ⟨es, hes, hsorted, hmem⟩ := entries_spec (c := ⟨d, counters⟩) h pfx
  refine ⟨es, hes, hsorted, fun name value => ?_⟩
  rw [hmem]
  constructor
  · rintro ⟨i, hi, heq, hlisted⟩
    obtain ⟨rfl, rfl⟩ := Prod.mk.inj heq
    exact ⟨i, ⟨h.idString_eq hi, hlisted⟩, rfl⟩
  · rintro ⟨id, ⟨hname, hlisted⟩, rfl⟩
    obtain ⟨i, hi, rfl, rfl⟩ := (idString_iff h).mp hname
    exact ⟨i, hi, rfl, hlisted⟩

theorem entries_names {d : CDictionary size storageSize} {counters : Int → Int}
    {es : List (CName × Int)} (hmem : ∀ name value, (name, value) ∈ es ↔
      ∃ id, Shows d pfx id name ∧ value = counters id)
    (hlines : ∀ id name, d.idString id = some name → newline ∉ name.1) :
    ∀ e ∈ es, newline ∉ e.1.1 := by
  intro e he
  obtain ⟨id, ⟨hname, -⟩, -⟩ := (hmem e.1 e.2).mp he
  exact hlines id e.1 hname

theorem lines_eq {es : List (CName × Int)} (hes : c.entries pfx = some es)
    {format : CountersFormat} {hidePrefix : Bool} {shown : CName × Int → List UInt8}
    (hrow : ∀ e ∈ es, row pfx (hidden pfx hidePrefix) (maxLen es (hidden pfx hidePrefix)) e format =
      some (shown e)) :
    lines c pfx format hidePrefix = some (header (maxLen es (hidden pfx hidePrefix)) format ::
      es.map shown ++ [footer format]) := by
  simp only [lines, hes, Option.bind_some, mapM_eq_some hrow, Option.map_some]

def simpleLine (len : Nat) (e : CName × Int) : List UInt8 :=
  e.1.1.drop len ++ DumpUtils.space :: decimal e.2

theorem simpleLine_bytes {len : Nat} {e : CName × Int} (h : newline ∉ e.1.1) :
    newline ∉ simpleLine len e := by
  rw [simpleLine, List.mem_append, List.mem_cons]
  rintro (hname | hspace | hnumber)
  · exact h (List.mem_of_mem_drop hname)
  · exact absurd hspace (by decide)
  · exact (decimal_bytes hnumber).1 rfl

theorem decode_simpleLines {es : List (CName × Int)} (len : Nat)
    (h : ∀ e ∈ es, newline ∉ e.1.1) :
    decode ((es.map (simpleLine len)).map fun line => line ++ [newline]).flatten =
      some (es.map fun e => (e.1.1.drop len, e.2)) := by
  have hlines : ∀ line ∈ es.map (simpleLine len), newline ∉ line := by
    intro line hline
    obtain ⟨e, he, rfl⟩ := List.mem_map.mp hline
    exact simpleLine_bytes (h e he)
  rw [decode, textLines_flatten hlines, List.mapM_map]
  exact mapM_eq_some fun e _ => decodeLine_row _ _

/-- Nothing is lost in the simple format as long as no name has a line break:
a dump reads back as the category, without the hidden letters. -/
theorem dump_simple_decodes (raw : CDictionary size storageSize) {trace : List (Op × Out)}
    {d : CDictionary size storageSize} (run : Run step Measured raw.clear trace d)
    (counters : Int → Int) (pfx : Option CName) (hidePrefix : Bool)
    (hlines : ∀ id name, d.idString id = some name → newline ∉ name.1) :
    ∃ text, ∃ es : List (CName × Int),
      dump ⟨d, counters⟩ pfx .simple hidePrefix = some text ∧
      decode text = some (es.map fun e => (e.1.1.drop (hidden pfx hidePrefix), e.2)) ∧
      es.Pairwise (fun a b => fold a.1.1 < fold b.1.1) ∧
      ∀ name value, (name, value) ∈ es ↔ ∃ id, Shows d pfx id name ∧ value = counters id := by
  obtain ⟨es, hes, hsorted, hmem⟩ := entries_of_run raw run counters pfx
  have hnames := entries_names hmem hlines
  refine ⟨_, es, ?_, decode_simpleLines (hidden pfx hidePrefix) hnames, hsorted, hmem⟩
  rw [dump, lines_eq hes fun _ _ => rfl]
  simp [header, footer, simpleLine, Function.comp_def]

theorem run_single : ∃ d, Run step Measured blank.clear [(.add (shortName [97]), .added 0)] d ∧
    ∀ id name, d.idString id = some name → name = shortName [97] := by
  obtain ⟨d, run, h⟩ := run_first blank (shortName [97]) (by decide) (by decide) (by decide)
  refine ⟨d, run, fun id name hname => ?_⟩
  obtain ⟨i, hi, -, rfl⟩ := (idString_iff h).mp hname
  exact List.mem_singleton.mp (List.getElem_mem hi)

theorem dump_simple_decodes_single :
    ∃ d, Run step Measured blank.clear [(.add (shortName [97]), .added 0)] d ∧
      ∃ text, ∃ es : List (CName × Int), dump ⟨d, fun _ => 5⟩ none .simple true = some text ∧
        decode text = some (es.map fun e => (e.1.1.drop (hidden none true), e.2)) ∧
        es.Pairwise (fun a b => fold a.1.1 < fold b.1.1) ∧
        ∀ name value, (name, value) ∈ es ↔
          ∃ id, Shows d none id name ∧ value = (fun _ : Int => (5 : Int)) id := by
  obtain ⟨d, run, hname⟩ := run_single
  refine ⟨d, run, dump_simple_decodes blank run _ _ _ fun id name hid => ?_⟩
  rw [hname id name hid]
  decide

/-! The counter with a given name. -/

/-- `GetCounterValue` of a name on a line of its own, nothing for an unknown name. -/
def valueText (c : CountersData size storageSize) (name : CName) : List UInt8 :=
  match c.dict.lookupName name with
  | none => []
  | some id => if id = invalidIndex then [] else decimal (c.counters id) ++ [newline]

def rawRow (p : CName) (e : CName × Int) : List UInt8 :=
  if strcasecmp e.1.1 p.1 ≠ 0 then [] else decimal e.2 ++ [newline]

theorem row_raw (p : CName) (len : Nat) (maxLen : Int) (e : CName × Int) :
    row (some p) len maxLen e .raw = some (rawRow p e) := rfl

theorem dump_raw {p : CName} {es : List (CName × Int)} (hes : c.entries (some p) = some es)
    (hidePrefix : Bool) : dump c (some p) .raw hidePrefix = some (es.map (rawRow p)).flatten := by
  rw [dump, lines_eq hes fun e _ => row_raw p _ _ e]
  simp [header, footer]

theorem flatten_none {α β : Type*} {xs : List α} {f : α → List β} (h : ∀ x ∈ xs, f x = []) :
    (xs.map f).flatten = [] := by
  simpa only [List.flatten_eq_nil_iff, List.mem_map, forall_exists_index, and_imp,
    forall_apply_eq_imp_iff₂] using h

theorem flatten_single {α β : Type*} {xs : List α} {f : α → List β} {x : α} (hx : x ∈ xs)
    (hnodup : xs.Nodup) (hother : ∀ y ∈ xs, y ≠ x → f y = []) : (xs.map f).flatten = f x := by
  obtain ⟨front, back, rfl⟩ := List.append_of_mem hx
  have hmiddle := List.nodup_middle.mp hnodup
  rw [List.nodup_cons, List.mem_append, not_or] at hmiddle
  have hfront : (front.map f).flatten = [] := flatten_none fun y hy =>
    hother y (by simp [hy]) fun heq => hmiddle.1.1 (heq ▸ hy)
  have hback : (back.map f).flatten = [] := flatten_none fun y hy =>
    hother y (by simp [hy]) fun heq => hmiddle.1.2 (heq ▸ hy)
  rw [List.map_append, List.map_cons, List.flatten_append, List.flatten_cons, hfront, hback,
    List.nil_append, List.append_nil]

theorem listed_self {name p : CName} (heq : strcasecmp name.1 p.1 = 0) :
    Listed (some p) name ↔ p.1 = [] ∨ strlen p < nameMaxLen := by
  have hfold := (strcasecmp_eq_zero_iff name.2 p.2).mp heq
  have hlen : name.1.length = p.1.length := by
    rw [← fold_length, hfold, fold_length]
  constructor
  · intro h
    by_cases hp : p.1 = []
    · exact .inl hp
    · exact .inr (h p rfl hp).2.1
  · intro h q hq hne
    obtain rfl := Option.some_inj.mp hq
    refine ⟨?_, h.resolve_left hne, ?_⟩
    · rw [StartsWith, strlen, ← hlen, List.take_length, hfold]
    · rw [strlen, List.getElem?_eq_none (Nat.le_of_eq hlen)]
      exact (Option.some_ne_none _).symm

theorem rawRows_known {es : List (CName × Int)} {p name : CName} {value : Int}
    (hnodup : es.Nodup) (heq : strcasecmp name.1 p.1 = 0)
    (hother : ∀ e ∈ es, strcasecmp e.1.1 p.1 = 0 → e = (name, value)) :
    (es.map (rawRow p)).flatten = decimal value ++ [newline] ↔ (name, value) ∈ es := by
  have hempty : ∀ e ∈ es, e ≠ (name, value) → rawRow p e = [] := fun e he hne =>
    if_pos fun hsame => hne (hother e he hsame)
  constructor
  · intro hflat
    by_contra hmissing
    rw [flatten_none fun e he => hempty e he fun hself => hmissing (hself ▸ he)] at hflat
    simp at hflat
  · intro hself
    rw [flatten_single hself hnodup hempty]
    exact if_neg (not_not_intro heq)

theorem dump_raw_long (h : Stores c.dict names) {p : CName} (hlong : nameMaxLen ≤ strlen p)
    (hidePrefix : Bool) : dump c (some p) .raw hidePrefix = some [] := by
  obtain ⟨es, hes, -, hmem⟩ := entries_spec h (some p)
  rw [dump_raw hes]
  refine congrArg some (flatten_none fun e he => ?_)
  obtain ⟨i, hi, rfl, hlisted⟩ := (hmem e).mp he
  refine if_pos fun heq => ?_
  rcases (listed_self heq).mp hlisted with hempty | hshort
  · rw [strlen, hempty] at hlong
    exact absurd hlong (by decide)
  · omega

/-- The raw format shows the value of the one counter with the name, exactly if
the name leaves room in the buffer of the category or there is no such counter.
It shows nothing for a name without room. -/
theorem dump_raw_iff (raw : CDictionary size storageSize) {trace : List (Op × Out)}
    {d : CDictionary size storageSize} (run : Run step Measured raw.clear trace d)
    (counters : Int → Int) (p : CName) (hidePrefix : Bool) :
    (dump ⟨d, counters⟩ (some p) .raw hidePrefix = some (valueText ⟨d, counters⟩ p) ↔
      d.lookupName p = some invalidIndex ∨ p.1 = [] ∨ strlen p < nameMaxLen) ∧
    (nameMaxLen ≤ strlen p → dump ⟨d, counters⟩ (some p) .raw hidePrefix = some []) := by
  obtain ⟨names, href⟩ := refines_of_run raw run
  have h := href.stores
  refine ⟨?_, fun hlong => dump_raw_long (c := ⟨d, counters⟩) h hlong hidePrefix⟩
  obtain ⟨es, hes, hsorted, hmem⟩ := entries_spec (c := ⟨d, counters⟩) h (some p)
  have hnodup : es.Nodup := hsorted.imp fun hlt heq => by
    rw [heq] at hlt
    exact lt_irrefl _ hlt
  rw [dump_raw hes, Option.some_inj, valueText, h.lookupName_eq, idOf]
  cases hposition : position names p with
  | none =>
    have hnone : ∀ e ∈ es, rawRow p e = [] := by
      intro e he
      obtain ⟨i, hi, rfl, -⟩ := (hmem e).mp he
      refine if_pos fun heq => ?_
      rw [h.position_eq_some hi heq] at hposition
      exact absurd hposition (Option.some_ne_none i)
    simp [flatten_none hnone]
  | some i =>
    obtain ⟨hi, hsame, -⟩ := List.findIdx?_eq_some_iff_getElem.mp hposition
    have heq : strcasecmp names[i].1 p.1 = 0 := of_decide_eq_true hsame
    have hother : ∀ e ∈ es, strcasecmp e.1.1 p.1 = 0 → e = (names[i], counters i) := by
      intro e he heq'
      obtain ⟨j, hj, rfl, -⟩ := (hmem e).mp he
      have hji := (h.position_eq_some hj heq').symm.trans hposition
      obtain rfl := Option.some_inj.mp hji
      rfl
    have hself : (names[i], counters i) ∈ es ↔ Listed (some p) names[i] := by
      rw [hmem]
      constructor
      · rintro ⟨j, hj, hej, hlisted⟩
        rwa [(Prod.mk.inj hej).1]
      · exact fun hlisted => ⟨i, hi, rfl, hlisted⟩
    simp only [Option.some_inj, natCast_ne_invalid, false_or, if_false]
    rw [rawRows_known hnodup heq hother, hself, listed_self heq]

def longName : CName := ⟨List.replicate 130 97, by simp⟩

theorem dump_raw_iff_single :
    ∃ d, Run step Measured blank.clear [(.add longName, .added 0)] d ∧
      d.lookupName longName = some 0 ∧
      dump ⟨d, fun _ => 5⟩ (some longName) .raw false = some [] ∧
      dump ⟨d, fun _ => 5⟩ (some longName) .raw false ≠
        some (valueText ⟨d, fun _ => 5⟩ longName) := by
  have hlen : strlen longName = 130 := List.length_replicate
  obtain ⟨d, run, h⟩ :=
    run_first blank longName (by rw [hlen]; decide) (by rw [hlen]; decide) (by decide)
  obtain ⟨hiff, hlong⟩ := dump_raw_iff blank run (fun _ => 5) longName false
  have hself : strcasecmp longName.1 longName.1 = 0 :=
    (strcasecmp_eq_zero_iff longName.2 longName.2).mpr rfl
  have hknown : d.lookupName longName = some 0 := by
    rw [h.lookupName_eq, idOf, h.position_eq_some (i := 0) Nat.one_pos hself]
    rfl
  refine ⟨d, run, hknown, hlong (by rw [hlen]; decide), fun heq => ?_⟩
  rcases hiff.mp heq with hunknown | hempty | hshort
  · rw [hknown] at hunknown
    exact absurd hunknown (by decide)
  · have hzero := congrArg List.length hempty
    exact absurd (hlen.symm.trans hzero) (by decide)
  · rw [hlen] at hshort
    exact absurd hshort (by decide)

/-! The columns of the table. -/

theorem longer_spec (len : Int) (e : CName × Int) :
    len ≤ longer len e ∧ strlen e.1 ≤ longer len e ∧
      (longer len e = len ∨ longer len e = strlen e.1) := by
  rw [longer]
  split <;> omega

theorem foldl_longer_spec (es : List (CName × Int)) (start : Int) :
    start ≤ es.foldl longer start ∧ (∀ e ∈ es, (strlen e.1 : Int) ≤ es.foldl longer start) ∧
      (es.foldl longer start = start ∨ ∃ e ∈ es, es.foldl longer start = strlen e.1) := by
  induction es generalizing start with
  | nil => exact ⟨le_refl _, fun e he => (by cases he), .inl rfl⟩
  | cons e es ih =>
    obtain ⟨hstart, hself, hlonger⟩ := longer_spec start e
    obtain ⟨hle, hall, hmax⟩ := ih (longer start e)
    rw [List.foldl_cons]
    refine ⟨le_trans hstart hle, fun e' he' => ?_, ?_⟩
    · rcases List.mem_cons.mp he' with rfl | he'
      · exact le_trans hself hle
      · exact hall e' he'
    · rcases hmax with hmax | ⟨e', he', hmax⟩
      · rw [hmax]
        exact hlonger.imp_right fun heq => ⟨e, List.mem_cons_self, heq⟩
      · exact .inr ⟨e', List.mem_cons_of_mem _ he', hmax⟩

/-- What a value takes in its column of six: all twenty digits of its word, if
as a negative number it would fit. -/
def valueWidth (v : Int) : Nat := if -99999 ≤ v ∧ v < 0 then 20 else 6

theorem getSymbol_ne_newline (mult : Nat) : getSymbol mult ≠ newline := by
  rw [getSymbol]
  split_ifs <;> decide

theorem newline_not_mem_scaledText (n : Nat) (w : Int) (mult : Nat) (nw : Int) :
    newline ∉ scaledText n w mult nw := by
  have hdigits : ∀ m, newline ∉ decimalNat m := fun m hm => (digits_bytes m hm).1 rfl
  have hspace : newline ≠ DumpUtils.space := by decide
  have hdot : newline ≠ dot := by decide
  rw [scaledText]
  split_ifs <;> simp [hdigits, hspace, hdot, (getSymbol_ne_newline mult).symm]

theorem newline_not_mem_setw {w : Int} {text : List UInt8} (h : newline ∉ text) :
    newline ∉ setw DumpUtils.space w text := by
  have hspace : newline ≠ DumpUtils.space := by decide
  rw [setw, List.mem_append, List.mem_replicate]
  rintro (⟨-, heq⟩ | hmem)
  · exact hspace heq
  · exact h hmem

theorem column_spec {v : Int} (hv : Word.IsI64 v) :
    ∃ text, dumpNumber 7 (ofI64 v) 6 = some text ∧ newline ∉ text ∧
      text.length = valueWidth v := by
  have hn : ofI64 v < 2 ^ 64 := by rw [ofI64]; omega
  obtain ⟨hlo, hhi⟩ := hv
  rw [dumpNumber, valueWidth]
  by_cases hfits : numberW (i64 (ofI64 v)) ≤ 6
  · have hlen : ((setw DumpUtils.space 6 (decimalNat (ofI64 v))).length : Int) =
        max (6 : Int) (width (ofI64 v)) := setw_length
    refine ⟨_, if_pos (.inl hfits), newline_not_mem_setw fun h => (digits_bytes _ h).1 rfl, ?_⟩
    by_cases hneg : v < 0
    · have hword : ofI64 v = 2 ^ 64 - v.natAbs := by rw [ofI64]; omega
      rw [numberW_of_ge (by omega) hn] at hfits
      have hnarrow := (width_le_iff (2 ^ 64 - ofI64 v) (k := 5) (by decide)).mp (by omega)
      have hwide : ¬ width (ofI64 v) ≤ 19 := fun hle =>
        absurd ((width_le_iff _ (by decide)).mp hle) (by omega)
      have htwenty := width_le_twenty hn
      rw [if_pos (by omega)]
      omega
    · have hword : ofI64 v < 2 ^ 63 := by rw [ofI64]; omega
      rw [numberW_of_lt hword] at hfits
      rw [if_neg (by omega)]
      omega
  · have hover : 6 < numberW (i64 (ofI64 v)) := by omega
    obtain ⟨k, -, -, hscale, hfew, hmany⟩ := scale_over hn (by decide) (Nat.le_refl 7) hover
    have hlen := scaledText_length hfew hmany
    rw [if_neg (by omega), hscale]
    refine ⟨_, rfl, newline_not_mem_scaledText _ _ _ _, ?_⟩
    have hlarge : ¬ (-99999 ≤ v ∧ v < 0) := by
      rintro ⟨hge, hneg⟩
      have hword : ofI64 v = 2 ^ 64 - v.natAbs := by rw [ofI64]; omega
      rw [numberW_of_ge (by omega) hn] at hover
      have hnarrow : width (2 ^ 64 - ofI64 v) ≤ 5 := (width_le_iff _ (by decide)).mpr (by omega)
      omega
    rw [if_neg hlarge]
    change (scaledText (ofI64 v) (6 - 1) (1000 ^ k) (width (ofI64 v / 1000 ^ k))).length = 6
    omega

def columnText (v : Int) : List UInt8 := (dumpNumber 7 (ofI64 v) 6).getD []

theorem columnText_spec {v : Int} (hv : Word.IsI64 v) :
    dumpNumber 7 (ofI64 v) 6 = some (columnText v) ∧ newline ∉ columnText v ∧
      (columnText v).length = valueWidth v := by
  obtain ⟨text, htext, hbytes, hlen⟩ := column_spec hv
  rw [columnText, htext, Option.getD_some]
  exact ⟨rfl, hbytes, hlen⟩

def tableLine (maxLen : Int) (name column : List UInt8) : List UInt8 :=
  bar :: (setw DumpUtils.space maxLen name ++ bar :: (column ++ [bar]))

def valueTitle : List UInt8 := ascii [' ', 'V', 'a', 'l', 'u', 'e']

def tableLines (es : List (CName × Int)) (len : Nat) : List (List UInt8) :=
  tableLine (maxLen es len) nameTitle valueTitle ::
    es.map fun e => tableLine (maxLen es len) (e.1.1.drop len) (columnText e.2)

theorem tableLine_length (maxLen : Int) (name column : List UInt8) :
    ((tableLine maxLen name column).length : Int) =
      max maxLen name.length + 3 + column.length := by
  have hname : ((setw DumpUtils.space maxLen name).length : Int) = max maxLen name.length :=
    setw_length
  simp only [tableLine, List.length_cons, List.length_append, List.length_nil]
  omega

theorem newline_not_mem_tableLine {maxLen : Int} {name column : List UInt8}
    (hname : newline ∉ name) (hcolumn : newline ∉ column) :
    newline ∉ tableLine maxLen name column := by
  have hbar : newline ≠ bar := by decide
  simp [tableLine, hbar, hcolumn, newline_not_mem_setw hname]

theorem row_table (pfx : Option CName) (len : Nat) (maxLen : Int) (e : CName × Int) :
    row pfx len maxLen e .table = (dumpNumber 7 (ofI64 e.2) 6).map fun value =>
      bar :: (setw DumpUtils.space maxLen (e.1.1.drop len) ++ bar :: (value ++ [bar, newline])) :=
  rfl

theorem header_table (maxLen : Int) :
    header maxLen .table = tableLine maxLen nameTitle valueTitle ++ [newline] := rfl

theorem dump_table {es : List (CName × Int)} (hes : c.entries pfx = some es) (hidePrefix : Bool)
    (hwords : ∀ e ∈ es, Word.IsI64 e.2) :
    dump c pfx .table hidePrefix =
      some ((tableLines es (hidden pfx hidePrefix)).map fun line => line ++ [newline]).flatten := by
  have hrow : ∀ e ∈ es,
      row pfx (hidden pfx hidePrefix) (maxLen es (hidden pfx hidePrefix)) e .table =
        some (tableLine (maxLen es (hidden pfx hidePrefix)) (e.1.1.drop (hidden pfx hidePrefix))
          (columnText e.2) ++ [newline]) := by
    intro e he
    rw [row_table, (columnText_spec (hwords e he)).1, Option.map_some, tableLine, List.cons_append,
      List.append_assoc, List.cons_append, List.append_assoc]
    rfl
  rw [dump, lines_eq hes hrow, header_table]
  simp [tableLines, footer, Function.comp_def]

theorem tableLines_bytes {es : List (CName × Int)} (len : Nat)
    (hnames : ∀ e ∈ es, newline ∉ e.1.1) (hwords : ∀ e ∈ es, Word.IsI64 e.2) :
    ∀ line ∈ tableLines es len, newline ∉ line := by
  intro line hline
  rcases List.mem_cons.mp hline with rfl | hline
  · exact newline_not_mem_tableLine (by decide) (by decide)
  · obtain ⟨e, he, rfl⟩ := List.mem_map.mp hline
    exact newline_not_mem_tableLine (fun h => hnames e he (List.mem_of_mem_drop h))
      (columnText_spec (hwords e he)).2.1

theorem le_maxLen_iff (es : List (CName × Int)) (len : Nat) {k : Nat} (hk : 0 < k) :
    k ≤ maxLen es len ↔ ∃ e ∈ es, k ≤ (e.1.1.drop len).length := by
  obtain ⟨-, hle, hmax⟩ := foldl_longer_spec es (-1)
  simp only [maxLen, longest, List.length_drop]
  constructor
  · intro hlong
    rcases hmax with hmax | ⟨e, he, hmax⟩
    · omega
    · rw [hmax, strlen] at hlong
      exact ⟨e, he, by omega⟩
  · rintro ⟨e, he, hlong⟩
    have hself := hle e he
    rw [strlen] at hself
    omega

theorem shown_le_maxLen {es : List (CName × Int)} {e : CName × Int} (he : e ∈ es) (len : Nat) :
    max (maxLen es len) (e.1.1.drop len).length = max (maxLen es len) 0 := by
  have hself := (foldl_longer_spec es (-1)).2.1 e he
  rw [List.length_drop, maxLen, longest]
  rw [strlen] at hself
  omega

theorem row_length_iff {es : List (CName × Int)} {e : CName × Int} (he : e ∈ es) (len : Nat)
    (hword : Word.IsI64 e.2) :
    (tableLine (maxLen es len) (e.1.1.drop len) (columnText e.2)).length =
        (tableLine (maxLen es len) nameTitle valueTitle).length ↔
      7 ≤ maxLen es len ∧ ¬ (-99999 ≤ e.2 ∧ e.2 < 0) := by
  have hrow := tableLine_length (maxLen es len) (e.1.1.drop len) (columnText e.2)
  have htitle := tableLine_length (maxLen es len) nameTitle valueTitle
  have hname : nameTitle.length = 7 := rfl
  have hvalue : valueTitle.length = 6 := rfl
  rw [shown_le_maxLen he, (columnText_spec hword).2.2, valueWidth] at hrow
  split at hrow <;> omega

theorem tableLines_aligned_iff {es : List (CName × Int)} (len : Nat)
    (hwords : ∀ e ∈ es, Word.IsI64 e.2) :
    (∀ a ∈ tableLines es len, ∀ b ∈ tableLines es len, a.length = b.length) ↔
      ∀ e ∈ es, 7 ≤ maxLen es len ∧ ¬ (-99999 ≤ e.2 ∧ e.2 < 0) := by
  constructor
  · intro hall e he
    exact (row_length_iff he len (hwords e he)).mp
      (hall _ (List.mem_cons_of_mem _ (List.mem_map_of_mem he)) _ List.mem_cons_self)
  · intro hall
    have htitle : ∀ a ∈ tableLines es len,
        a.length = (tableLine (maxLen es len) nameTitle valueTitle).length := by
      intro a ha
      rcases List.mem_cons.mp ha with rfl | ha
      · rfl
      · obtain ⟨e, he, rfl⟩ := List.mem_map.mp ha
        exact (row_length_iff he len (hwords e he)).mpr (hall e he)
    exact fun a ha b hb => (htitle a ha).trans (htitle b hb).symm

/-- The table lines up exactly if, unless it is empty, some shown name is as
long as its title and no value is one of -99999 to -1. -/
theorem dump_table_aligned_iff (raw : CDictionary size storageSize) {trace : List (Op × Out)}
    {d : CDictionary size storageSize} (run : Run step Measured raw.clear trace d)
    (counters : Int → Int) (hwords : ∀ id, Word.IsI64 (counters id)) (pfx : Option CName)
    (hidePrefix : Bool) (hlines : ∀ id name, d.idString id = some name → newline ∉ name.1) :
    ∃ text, dump ⟨d, counters⟩ pfx .table hidePrefix = some text ∧
      ((∀ a ∈ textLines text, ∀ b ∈ textLines text, a.length = b.length) ↔
        ∀ id name, Shows d pfx id name →
          (∃ id' name', Shows d pfx id' name' ∧
            7 ≤ (name'.1.drop (hidden pfx hidePrefix)).length) ∧
          ¬ (-99999 ≤ counters id ∧ counters id < 0)) := by
  obtain ⟨es, hes, -, hmem⟩ := entries_of_run raw run counters pfx
  have hnames := entries_names hmem hlines
  have hints : ∀ e ∈ es, Word.IsI64 e.2 := by
    intro e he
    obtain ⟨id, -, hvalue⟩ := (hmem e.1 e.2).mp he
    rw [hvalue]
    exact hwords id
  refine ⟨_, dump_table hes hidePrefix hints, ?_⟩
  rw [textLines_flatten (tableLines_bytes _ hnames hints), tableLines_aligned_iff _ hints]
  have hlong : 7 ≤ maxLen es (hidden pfx hidePrefix) ↔ ∃ id' name', Shows d pfx id' name' ∧
      7 ≤ (name'.1.drop (hidden pfx hidePrefix)).length := by
    refine (le_maxLen_iff es _ (Nat.succ_pos 6)).trans ⟨?_, ?_⟩
    · rintro ⟨e, he, hseven⟩
      obtain ⟨id, hshows, -⟩ := (hmem e.1 e.2).mp he
      exact ⟨id, e.1, hshows, hseven⟩
    · rintro ⟨id, name, hshows, hseven⟩
      exact ⟨(name, counters id), (hmem _ _).mpr ⟨id, hshows, rfl⟩, hseven⟩
  rw [← hlong]
  constructor
  · exact fun hall id name hshows => hall (name, counters id) ((hmem _ _).mpr ⟨id, hshows, rfl⟩)
  · intro hall e he
    obtain ⟨id, hshows, hvalue⟩ := (hmem e.1 e.2).mp he
    rw [hvalue]
    exact hall id e.1 hshows

theorem dump_table_aligned_iff_single :
    ∃ d, Run step Measured blank.clear [(.add (shortName [97]), .added 0)] d ∧
      ∃ text, dump ⟨d, fun _ => -1⟩ none .table true = some text ∧
        ((∀ a ∈ textLines text, ∀ b ∈ textLines text, a.length = b.length) ↔
          ∀ id name, Shows d none id name →
            (∃ id' name', Shows d none id' name' ∧
              7 ≤ (name'.1.drop (hidden none true)).length) ∧
            ¬ (-99999 ≤ (fun _ : Int => (-1 : Int)) id ∧ (fun _ : Int => (-1 : Int)) id < 0)) := by
  obtain ⟨d, run, hname⟩ := run_single
  refine ⟨d, run, dump_table_aligned_iff blank run _ (fun _ => ⟨by decide, by decide⟩) _ _
    fun id name hid => ?_⟩
  rw [hname id name hid]
  decide

end HiloUtils.CountersDump
