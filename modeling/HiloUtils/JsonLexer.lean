import HiloUtils.Json
import Mathlib.Data.List.Chain
import Mathlib.Data.Nat.Digits.Lemmas

/-! The byte level of JSON: a lexer, and when a text renders a token list. White
space may stand between tokens; a string may hold any byte and use every escape
but those of surrogates. -/

namespace HiloUtils.Json

def quote : UInt8 := 34

def backslash : UInt8 := 92

def minus : UInt8 := 45

def isSpace (b : UInt8) : Bool := b == 32 || b == 9 || b == 10 || b == 13

def isDigit (b : UInt8) : Bool := 48 ≤ b && b ≤ 57

def punctuation : UInt8 → Option Token
  | 91 => some .lbracket
  | 93 => some .rbracket
  | 123 => some .lbrace
  | 125 => some .rbrace
  | 44 => some .comma
  | 58 => some .colon
  | _ => none

def unescape : UInt8 → Option UInt8
  | 34 => some 34
  | 92 => some 92
  | 47 => some 47
  | 98 => some 8
  | 102 => some 12
  | 110 => some 10
  | 114 => some 13
  | 116 => some 9
  | _ => none

def hexValue (b : UInt8) : Option Nat :=
  if isDigit b then some (b.toNat - 48)
  else if 97 ≤ b ∧ b ≤ 102 then some (b.toNat - 87)
  else if 65 ≤ b ∧ b ≤ 70 then some (b.toNat - 55)
  else none

def utf8 (n : Nat) : List UInt8 :=
  if n < 0x80 then [UInt8.ofNat n]
  else if n < 0x800 then [UInt8.ofNat (0xC0 + n / 64), UInt8.ofNat (0x80 + n % 64)]
  else
    [UInt8.ofNat (0xE0 + n / 4096), UInt8.ofNat (0x80 + n / 64 % 64), UInt8.ofNat (0x80 + n % 64)]

def readUnicode (a b c d : UInt8) : Option (List UInt8) :=
  match hexValue a, hexValue b, hexValue c, hexValue d with
  | some a, some b, some c, some d =>
    let n := ((a * 16 + b) * 16 + c) * 16 + d
    if 0xD800 ≤ n ∧ n < 0xE000 then none else some (utf8 n)
  | _, _, _, _ => none

def readEscape : List UInt8 → Option (List UInt8 × List UInt8)
  | 117 :: a :: b :: c :: d :: rest => (readUnicode a b c d).map fun s => (s, rest)
  | b :: rest => (unescape b).map fun c => ([c], rest)
  | [] => none

def readChar : List UInt8 → Option (List UInt8 × List UInt8)
  | [] => none
  | b :: rest =>
    if b = backslash then readEscape rest
    else if b = quote ∨ b < 32 then none
    else some ([b], rest)

def readString : Nat → List UInt8 → Option (List UInt8 × List UInt8)
  | 0, _ => none
  | n + 1, bs =>
    if bs.head? = some quote then some ([], bs.tail)
    else
      match readChar bs with
      | none => none
      | some (c, rest) => (readString n rest).map fun r => (c ++ r.1, r.2)

def digitsValue (ds : List UInt8) : Nat := ds.foldl (fun n b => 10 * n + (b.toNat - 48)) 0

def readNat (bs : List UInt8) : Option (Nat × List UInt8) :=
  let ds := bs.takeWhile isDigit
  if ds = [] ∨ (ds.head? = some 48 ∧ 1 < ds.length) then none
  else some (digitsValue ds, bs.dropWhile isDigit)

def readInt : List UInt8 → Option (Int × List UInt8)
  | [] => none
  | b :: rest =>
    if b = minus then (readNat rest).map fun r => (-(r.1 : Int), r.2)
    else (readNat (b :: rest)).map fun r => ((r.1 : Int), r.2)

def readToken : List UInt8 → Option (Token × List UInt8)
  | [] => none
  | b :: rest =>
    match punctuation b with
    | some tok => some (tok, rest)
    | none =>
      if b = quote then (readString rest.length rest).map fun r => (.str r.1, r.2)
      else (readInt (b :: rest)).map fun r => (.int r.1, r.2)

def lex : Nat → List UInt8 → Option (List Token)
  | _, [] => some []
  | 0, _ :: _ => none
  | n + 1, b :: rest =>
    if isSpace b then lex n rest
    else
      match readToken (b :: rest) with
      | none => none
      | some (tok, rest) => (lex n rest).map (tok :: ·)

def parse (bs : List UInt8) : Option Tree :=
  match lex bs.length bs with
  | none => none
  | some ts =>
    match parseValue (2 * ts.length) ts with
    | some (t, []) => some t
    | _ => none

def digit (d : Nat) : UInt8 := UInt8.ofNat (48 + d)

def decimalNat (n : Nat) : List UInt8 :=
  if n = 0 then [digit 0] else ((Nat.digits 10 n).map digit).reverse

def decimal (n : Int) : List UInt8 :=
  if n < 0 then minus :: decimalNat n.natAbs else decimalNat n.natAbs

def Reads (body s : List UInt8) : Prop :=
  ∀ n rest, body.length < n → readString n (body ++ quote :: rest) = some (s, rest)

inductive Spells : Token → List UInt8 → Prop
  | punctuation {b : UInt8} {tok : Token} : punctuation b = some tok → Spells tok [b]
  | int (n : Int) : Spells (.int n) (decimal n)
  | str {body s : List UInt8} : Reads body s → Spells (.str s) (quote :: (body ++ [quote]))

/-- Tokens spelled one after the other with white space between them. -/
inductive Renders : List Token → List UInt8 → Prop
  | nil : Renders [] []
  | space {ts : List Token} {txt : List UInt8} {b : UInt8} :
      Renders ts txt → isSpace b = true → Renders ts (txt ++ [b])
  | token {ts : List Token} {tok : Token} {txt bytes : List UInt8} :
      Renders ts txt → Spells tok bytes → Renders (ts ++ [tok]) (txt ++ bytes)

def NoDigit (bs : List UInt8) : Prop := ∀ b ∈ bs.head?, isDigit b = false

theorem digit_toNat {d : Nat} (h : d < 10) : (digit d).toNat = 48 + d := by
  rw [digit, UInt8.toNat_ofNat']
  omega

theorem isDigit_digit {d : Nat} (h : d < 10) : isDigit (digit d) = true := by
  have hd := digit_toNat h
  simp only [isDigit, Bool.and_eq_true, decide_eq_true_eq, UInt8.le_iff_toNat_le, hd,
    UInt8.reduceToNat]
  omega

theorem digitsValue_reverse {ds : List Nat} (h : ∀ d ∈ ds, d < 10) :
    digitsValue (ds.map digit).reverse = Nat.ofDigits 10 ds := by
  induction ds with
  | nil => rfl
  | cons d ds ih =>
    obtain ⟨hd, hds⟩ := List.forall_mem_cons.mp h
    have htail := ih hds
    unfold digitsValue at htail ⊢
    rw [List.map_cons, List.reverse_cons, List.foldl_append, htail, Nat.ofDigits_cons,
      List.foldl_cons, List.foldl_nil, digit_toNat hd, Nat.add_sub_cancel_left]
    omega

theorem decimalNat_spec (n : Nat) :
    (∀ b ∈ decimalNat n, isDigit b = true) ∧ decimalNat n ≠ [] ∧
      ¬ ((decimalNat n).head? = some 48 ∧ 1 < (decimalNat n).length) ∧
      digitsValue (decimalNat n) = n := by
  unfold decimalNat
  by_cases hn : n = 0
  · rw [if_pos hn, hn]
    refine ⟨List.forall_mem_singleton.mpr rfl, List.cons_ne_nil _ _, ?_, rfl⟩
    exact fun h => absurd h.2 (Nat.lt_irrefl 1)
  · have hlt : ∀ d ∈ Nat.digits 10 n, d < 10 := fun d hd => Nat.digits_lt_base (by omega) hd
    have hne : Nat.digits 10 n ≠ [] := Nat.digits_ne_nil_iff_ne_zero.mpr hn
    rw [if_neg hn]
    refine ⟨?_, ?_, ?_, ?_⟩
    · intro b hb
      obtain ⟨d, hd, rfl⟩ := List.mem_map.mp (List.mem_reverse.mp hb)
      exact isDigit_digit (hlt d hd)
    · simpa using hne
    · rintro ⟨hhead, -⟩
      rw [List.head?_reverse, List.getLast?_map, List.getLast?_eq_some_getLast hne,
        Option.map_some, Option.some_inj] at hhead
      have hlast := Nat.getLast_digit_ne_zero 10 hn
      have htoNat := digit_toNat (hlt _ (List.getLast_mem hne))
      rw [hhead] at htoNat
      simp only [UInt8.reduceToNat] at htoNat
      omega
    · rw [digitsValue_reverse hlt, Nat.ofDigits_digits]

theorem span_digits {ds rest : List UInt8} (h : ∀ b ∈ ds, isDigit b = true)
    (hrest : NoDigit rest) :
    (ds ++ rest).takeWhile isDigit = ds ∧ (ds ++ rest).dropWhile isDigit = rest := by
  rw [List.takeWhile_append_of_pos h, List.dropWhile_append_of_pos h]
  cases rest with
  | nil => simp
  | cons b rest =>
    have hb : isDigit b = false := hrest b rfl
    simp [hb]

theorem readNat_decimalNat (n : Nat) {rest : List UInt8} (hrest : NoDigit rest) :
    readNat (decimalNat n ++ rest) = some (n, rest) := by
  obtain ⟨hdigits, hne, hzero, hvalue⟩ := decimalNat_spec n
  obtain ⟨htake, hdrop⟩ := span_digits hdigits hrest
  rw [readNat, htake, hdrop, if_neg (not_or.mpr ⟨hne, hzero⟩), hvalue]

theorem readInt_decimal (n : Int) {rest : List UInt8} (hrest : NoDigit rest) :
    readInt (decimal n ++ rest) = some (n, rest) := by
  have hread := readNat_decimalNat n.natAbs hrest
  unfold decimal
  by_cases hneg : n < 0
  · have habs : -(n.natAbs : Int) = n := by omega
    rw [if_pos hneg, List.cons_append, readInt, if_pos rfl, hread, Option.map_some, habs]
  · have habs : (n.natAbs : Int) = n := by omega
    obtain ⟨hdigits, hne, -⟩ := decimalNat_spec n.natAbs
    obtain ⟨b, ds, hds⟩ := List.exists_cons_of_ne_nil hne
    have hminus : b ≠ minus := by
      rintro rfl
      have := hdigits minus (by rw [hds]; exact List.mem_cons_self)
      exact absurd this (by decide)
    rw [hds, List.cons_append] at hread
    rw [if_neg hneg, hds, List.cons_append, readInt, if_neg hminus, hread, Option.map_some, habs]

theorem Reads.nil : Reads [] [] := by
  intro n rest hn
  obtain ⟨m, rfl⟩ : ∃ m, n = m + 1 := ⟨n - 1, by rw [List.length_nil] at hn; omega⟩
  rfl

theorem Reads.cons {txt c body s : List UInt8} (hhead : txt.head? ≠ some quote) (hne : txt ≠ [])
    (hread : ∀ rest, readChar (txt ++ rest) = some (c, rest)) (h : Reads body s) :
    Reads (txt ++ body) (c ++ s) := by
  intro n rest hn
  have hpos := List.length_pos_of_ne_nil hne
  rw [List.length_append] at hn
  obtain ⟨m, rfl⟩ : ∃ m, n = m + 1 := ⟨n - 1, by omega⟩
  have hhead' : (txt ++ (body ++ quote :: rest)).head? ≠ some quote := by
    rwa [List.head?_append_of_ne_nil _ hne]
  rw [List.append_assoc, readString, if_neg hhead', hread]
  simp only [h m rest (by omega), Option.map_some]

theorem Reads.raw {b : UInt8} {body s : List UInt8} (hquote : b ≠ quote)
    (hslash : b ≠ backslash) (hcontrol : ¬ b < 32) (h : Reads body s) :
    Reads (b :: body) (b :: s) := by
  have hread : ∀ rest, readChar ([b] ++ rest) = some ([b], rest) := by
    intro rest
    rw [List.singleton_append, readChar, if_neg hslash, if_neg (not_or.mpr ⟨hquote, hcontrol⟩)]
  exact Reads.cons (by simpa using hquote) (List.cons_ne_nil _ _) hread h

def Token.IsInt : Token → Prop
  | .int _ => True
  | _ => False

def Spaced (ts : List Token) : Prop := ts.IsChain fun a b => ¬ (a.IsInt ∧ b.IsInt)

theorem punctuation_cases {b : UInt8} {tok : Token} (h : punctuation b = some tok) :
    isSpace b = false ∧ isDigit b = false ∧ ¬ tok.IsInt := by
  unfold punctuation at h
  split at h <;> first
    | (obtain rfl := Option.some_inj.mp h; exact ⟨rfl, rfl, id⟩)
    | exact absurd h (by simp)

theorem decimal_head (n : Int) :
    ∃ b bs, decimal n = b :: bs ∧ (b = minus ∨ isDigit b = true) := by
  unfold decimal
  by_cases hneg : n < 0
  · exact ⟨_, _, if_pos hneg, .inl rfl⟩
  · obtain ⟨hdigits, hne, -⟩ := decimalNat_spec n.natAbs
    obtain ⟨b, bs, hbs⟩ := List.exists_cons_of_ne_nil hne
    exact ⟨b, bs, (if_neg hneg).trans hbs, .inr (hdigits b (by rw [hbs]; exact List.mem_cons_self))⟩

theorem forall_byte {P : UInt8 → Prop} (h : ∀ k < 256, P (UInt8.ofNat k)) (b : UInt8) : P b := by
  have hb := h b.toNat b.toNat_lt
  rwa [UInt8.ofNat_toNat] at hb

theorem digit_not_punctuation {b : UInt8} (h : b = minus ∨ isDigit b = true) :
    isSpace b = false ∧ punctuation b = none ∧ b ≠ quote := by
  revert b
  apply forall_byte
  decide +kernel

theorem space_not_digit {b : UInt8} (h : isSpace b = true) : isDigit b = false := by
  revert b
  apply forall_byte
  decide +kernel

theorem readToken_spells {tok : Token} {bytes rest : List UInt8} (h : Spells tok bytes)
    (hrest : tok.IsInt → NoDigit rest) :
    (∃ b bs, bytes = b :: bs ∧ isSpace b = false ∧ (¬ tok.IsInt → isDigit b = false)) ∧
      readToken (bytes ++ rest) = some (tok, rest) := by
  cases h with
  | punctuation h =>
    obtain ⟨hspace, hdigit, -⟩ := punctuation_cases h
    refine ⟨⟨_, _, rfl, hspace, fun _ => hdigit⟩, ?_⟩
    simp only [List.singleton_append, readToken, h]
  | int n =>
    obtain ⟨b, bs, hbs, hb⟩ := decimal_head n
    obtain ⟨hspace, hpunctuation, hquote⟩ := digit_not_punctuation hb
    refine ⟨⟨b, bs, hbs, hspace, fun h => absurd trivial h⟩, ?_⟩
    have hread := readInt_decimal n (hrest trivial)
    rw [hbs, List.cons_append] at hread ⊢
    simp only [readToken, hpunctuation, if_neg hquote, hread, Option.map_some]
  | @str body s h =>
    refine ⟨⟨_, _, rfl, rfl, fun _ => rfl⟩, ?_⟩
    have hread := h (body ++ quote :: rest).length rest (by
      rw [List.length_append, List.length_cons]
      omega)
    have hpunctuation : punctuation quote = none := rfl
    rw [List.cons_append, List.append_assoc, List.singleton_append]
    simp only [readToken, hpunctuation, if_true, hread, Option.map_some]

def Blank (ws : List UInt8) : Prop := ∀ b ∈ ws, isSpace b = true

theorem Blank.append {ws more : List UInt8} (h : Blank ws) (hmore : Blank more) :
    Blank (ws ++ more) :=
  List.forall_mem_append.mpr ⟨h, hmore⟩

theorem Blank.ite {c : Bool} {ws : List UInt8} (h : Blank ws) :
    Blank (if c then ws else []) := by
  cases c with
  | true => exact h
  | false => exact List.forall_mem_nil _

theorem Renders.blank {ts : List Token} {txt ws : List UInt8} (h : Renders ts txt)
    (hws : Blank ws) : Renders ts (txt ++ ws) := by
  induction ws generalizing txt with
  | nil => rwa [List.append_nil]
  | cons b ws ih =>
    obtain ⟨hb, hws⟩ := List.forall_mem_cons.mp hws
    have := ih (h.space hb) hws
    rwa [List.append_assoc] at this

theorem Spaced.of_append {ts : List Token} {tok : Token} (h : Spaced (ts ++ [tok])) :
    Spaced ts ∧ ∀ last ∈ ts.getLast?, ¬ (last.IsInt ∧ tok.IsInt) := by
  obtain ⟨hts, -, hlast⟩ := List.isChain_append.mp h
  exact ⟨hts, fun last hmem => hlast last hmem tok rfl⟩

/-- The lexer reads a rendered text off the front, if no digit runs on into the
rest. -/
theorem lex_renders {ts : List Token} {txt : List UInt8} (h : Renders ts txt) (hts : Spaced ts)
    (n : Nat) (rest : List UInt8) (hrest : ∀ tok ∈ ts.getLast?, tok.IsInt → NoDigit rest)
    (hn : (txt ++ rest).length ≤ n) :
    ∃ m, rest.length ≤ m ∧ lex n (txt ++ rest) = (lex m rest).map (ts ++ ·) := by
  induction h generalizing rest with
  | nil => exact ⟨n, hn, by simp⟩
  | @space ts txt b _ hb ih =>
    rw [List.append_assoc, List.singleton_append] at hn ⊢
    have hnodigit : NoDigit (b :: rest) := by
      intro c hc
      rw [← Option.some_inj.mp hc]
      exact space_not_digit hb
    obtain ⟨m, hm, hlex⟩ := ih hts _ (fun _ _ _ => hnodigit) hn
    rw [List.length_cons] at hm
    obtain ⟨k, rfl⟩ : ∃ k, m = k + 1 := ⟨m - 1, by omega⟩
    exact ⟨k, by omega, by rw [hlex, lex, if_pos hb]⟩
  | @token ts tok txt bytes _ hspells ih =>
    obtain ⟨hts, hadjacent⟩ := hts.of_append
    obtain ⟨⟨b, bs, hbytes, hspace, hdigit⟩, hread⟩ :=
      readToken_spells hspells (hrest tok (by simp))
    have hnodigit : ∀ last ∈ ts.getLast?, last.IsInt → NoDigit (bytes ++ rest) := by
      intro last hlast hint c hc
      rw [hbytes] at hc
      rw [← Option.some_inj.mp hc]
      exact hdigit fun htok => hadjacent last hlast ⟨hint, htok⟩
    rw [List.append_assoc] at hn ⊢
    obtain ⟨m, hm, hlex⟩ := ih hts _ hnodigit hn
    rw [hbytes, List.cons_append, List.length_cons, List.length_append] at hm
    obtain ⟨k, rfl⟩ : ∃ k, m = k + 1 := ⟨m - 1, by omega⟩
    refine ⟨k, by omega, ?_⟩
    rw [hbytes, List.cons_append] at hlex hread ⊢
    rw [hlex, lex, if_neg (by simp [hspace]), hread, Option.map_map]
    simp only [Function.comp_def, List.append_assoc, List.singleton_append]

theorem Spaced.cons {tok : Token} {ts : List Token} (htok : ¬ tok.IsInt) (h : Spaced ts) :
    Spaced (tok :: ts) :=
  List.IsChain.cons h fun _ _ hint => htok hint.1

theorem Spaced.append {ts more : List Token} (h : Spaced ts) (hmore : Spaced more)
    (hhead : ∀ tok ∈ more.head?, ¬ tok.IsInt) : Spaced (ts ++ more) :=
  List.isChain_append.mpr ⟨h, hmore, fun _ _ tok htok hint => hhead tok htok hint.2⟩

theorem spaced_joined {pieces : List (List Token)} {close : Token}
    (h : ∀ piece ∈ pieces, Spaced piece) (hclose : ¬ close.IsInt) :
    Spaced (joined true pieces ++ [close]) ∧ Spaced (joined false pieces ++ [close]) ∧
      ∀ tok ∈ (joined false pieces ++ [close]).head?, ¬ tok.IsInt := by
  induction pieces with
  | nil =>
    have hone : Spaced [close] := List.isChain_singleton close
    refine ⟨hone, hone, ?_⟩
    intro tok htok
    rwa [← Option.some_inj.mp htok]
  | cons piece pieces ih =>
    obtain ⟨hpiece, hpieces⟩ := List.forall_mem_cons.mp h
    obtain ⟨-, htail, hhead⟩ := ih hpieces
    have hfirst : Spaced (joined true (piece :: pieces) ++ [close]) := by
      have := hpiece.append htail hhead
      rwa [← List.append_assoc] at this
    have hcomma : ¬ Token.comma.IsInt := id
    refine ⟨hfirst, Spaced.cons hcomma hfirst, ?_⟩
    intro tok htok
    rwa [← Option.some_inj.mp htok]

theorem spaced_tokens (t : Tree) : Spaced (tokens t) := by
  induction t using Tree.induct with
  | int n => exact List.isChain_singleton _
  | str s => exact List.isChain_singleton _
  | arr items ih =>
    rw [tokens, itemTokens_eq]
    refine Spaced.cons id (spaced_joined ?_ id).1
    simpa using ih
  | obj members ih =>
    rw [tokens, memberTokens_eq]
    refine Spaced.cons id (spaced_joined ?_ id).1
    intro piece hpiece
    obtain ⟨m, hm, rfl⟩ := List.mem_map.mp hpiece
    exact Spaced.cons id (Spaced.cons id (ih m hm))

/-- A text that renders the tokens of a tree parses to that tree. -/
theorem parse_renders {t : Tree} {txt : List UInt8} (h : Renders (tokens t) txt) :
    parse txt = some t := by
  obtain ⟨m, -, hlex⟩ := lex_renders h (spaced_tokens t) txt.length []
    (fun _ _ _ _ hb => absurd hb (by simp)) (by rw [List.append_nil])
  have hvalue := parses t (2 * (tokens t).length) [] (Nat.le_refl _)
  rw [List.append_nil] at hlex hvalue
  cases m <;> simp only [parse, hlex, lex, Option.map_some, List.append_nil, hvalue]

/-- White space is skipped, a comma before the closing bracket is refused. -/
example : parse [91, 32, 49, 93] = some (.arr [.int 1]) ∧ parse [91, 49, 44, 93] = none :=
  ⟨rfl, rfl⟩

end HiloUtils.Json
