import Mathlib.Data.List.Basic

/-! JSON trees of objects, arrays, integers and byte strings, their token lists,
and a parser that reads a tree off its tokens. -/

namespace HiloUtils.Json

inductive Tree
  | int (n : Int)
  | str (s : List UInt8)
  | arr (items : List Tree)
  | obj (members : List (List UInt8 × Tree))

inductive Token
  | lbracket
  | rbracket
  | lbrace
  | rbrace
  | comma
  | colon
  | int (n : Int)
  | str (s : List UInt8)
  deriving DecidableEq

theorem Tree.induct {P : Tree → Prop} (int : ∀ n, P (.int n)) (str : ∀ s, P (.str s))
    (arr : ∀ items, (∀ t ∈ items, P t) → P (.arr items))
    (obj : ∀ members, (∀ m ∈ members, P m.2) → P (.obj members)) (t : Tree) : P t := by
  refine @Tree.rec P (fun items => ∀ t ∈ items, P t) (fun members => ∀ m ∈ members, P m.2)
    (fun m => P m.2) int str arr obj ?_ ?_ ?_ ?_ ?_ t
  · exact List.forall_mem_nil _
  · exact fun _ _ head tail => List.forall_mem_cons.mpr ⟨head, tail⟩
  · exact List.forall_mem_nil _
  · exact fun _ _ head tail => List.forall_mem_cons.mpr ⟨head, tail⟩
  · exact fun _ _ h => h

def separator (first : Bool) : List Token := if first then [] else [.comma]

mutual

def tokens : Tree → List Token
  | .int n => [.int n]
  | .str s => [.str s]
  | .arr items => .lbracket :: (itemTokens true items ++ [.rbracket])
  | .obj members => .lbrace :: (memberTokens true members ++ [.rbrace])

def itemTokens : Bool → List Tree → List Token
  | _, [] => []
  | first, t :: items => separator first ++ tokens t ++ itemTokens false items

def memberTokens : Bool → List (List UInt8 × Tree) → List Token
  | _, [] => []
  | first, (name, t) :: members =>
    separator first ++ .str name :: .colon :: tokens t ++ memberTokens false members

end

mutual

def parseValue : Nat → List Token → Option (Tree × List Token)
  | _ + 1, .int n :: rest => some (.int n, rest)
  | _ + 1, .str s :: rest => some (.str s, rest)
  | n + 1, .lbracket :: rest => (parseItems n true rest).map fun r => (.arr r.1, r.2)
  | n + 1, .lbrace :: rest => (parseMembers n true rest).map fun r => (.obj r.1, r.2)
  | _, _ => none

/-- What follows the opening bracket (`first`) or a value, up to the closing one. -/
def parseItems : Nat → Bool → List Token → Option (List Tree × List Token)
  | _ + 1, _, .rbracket :: rest => some ([], rest)
  | n + 1, true, ts => parseItem n ts
  | n + 1, false, .comma :: rest => parseItem n rest
  | _, _, _ => none

def parseItem : Nat → List Token → Option (List Tree × List Token)
  | n + 1, ts =>
    match parseValue n ts with
    | none => none
    | some (t, rest) => (parseItems n false rest).map fun r => (t :: r.1, r.2)
  | _, _ => none

def parseMembers : Nat → Bool → List Token → Option (List (List UInt8 × Tree) × List Token)
  | _ + 1, _, .rbrace :: rest => some ([], rest)
  | n + 1, true, ts => parseMember n ts
  | n + 1, false, .comma :: rest => parseMember n rest
  | _, _, _ => none

def parseMember : Nat → List Token → Option (List (List UInt8 × Tree) × List Token)
  | n + 1, .str name :: .colon :: ts =>
    match parseValue n ts with
    | none => none
    | some (t, rest) => (parseMembers n false rest).map fun r => ((name, t) :: r.1, r.2)
  | _, _ => none

end

def joined (first : Bool) : List (List Token) → List Token
  | [] => []
  | piece :: pieces => separator first ++ piece ++ joined false pieces

theorem itemTokens_eq (first : Bool) (items : List Tree) :
    itemTokens first items = joined first (items.map tokens) := by
  induction items generalizing first with
  | nil => rfl
  | cons t items ih => rw [itemTokens, List.map_cons, joined, ih]

theorem memberTokens_eq (first : Bool) (members : List (List UInt8 × Tree)) :
    memberTokens first members =
      joined first (members.map fun m => .str m.1 :: .colon :: tokens m.2) := by
  induction members generalizing first with
  | nil => rfl
  | cons m members ih =>
    obtain ⟨name, t⟩ := m
    rw [memberTokens, List.map_cons, joined, ih]

theorem tokens_head (t : Tree) :
    ∃ tok rest, tokens t = tok :: rest ∧ tok ≠ .rbracket ∧ tok ≠ .rbrace := by
  cases t with
  | int n => exact ⟨_, _, by rw [tokens], by simp, by simp⟩
  | str s => exact ⟨_, _, by rw [tokens], by simp, by simp⟩
  | arr items => exact ⟨_, _, by rw [tokens], by simp, by simp⟩
  | obj members => exact ⟨_, _, by rw [tokens], by simp, by simp⟩

theorem tokens_length_pos (t : Tree) : 0 < (tokens t).length := by
  obtain ⟨tok, rest, htok, -⟩ := tokens_head t
  rw [htok, List.length_cons]
  exact Nat.succ_pos _

def Parses (t : Tree) : Prop :=
  ∀ n rest, 2 * (tokens t).length ≤ n → parseValue n (tokens t ++ rest) = some (t, rest)

theorem parseItems_first {t : Tree} (n : Nat) (rest : List Token) :
    parseItems (n + 1) true (tokens t ++ rest) = parseItem n (tokens t ++ rest) := by
  obtain ⟨tok, more, htok, hbracket, -⟩ := tokens_head t
  rw [htok, List.cons_append]
  cases tok <;> first | rfl | exact absurd rfl hbracket

theorem parseItems_tokens {items : List Tree} (h : ∀ t ∈ items, Parses t) (first : Bool)
    {n : Nat} (rest : List Token) (hn : 2 * (itemTokens first items).length + 2 ≤ n) :
    parseItems n first (itemTokens first items ++ .rbracket :: rest) = some (items, rest) := by
  induction items generalizing first n with
  | nil =>
    obtain ⟨m, rfl⟩ : ∃ m, n = m + 1 := ⟨n - 1, by omega⟩
    cases first <;> rfl
  | cons t items ih =>
    obtain ⟨ht, hitems⟩ := List.forall_mem_cons.mp h
    have hpos := tokens_length_pos t
    rw [itemTokens, List.length_append, List.length_append] at hn
    obtain ⟨m, rfl⟩ : ∃ m, n = m + 2 := ⟨n - 2, by omega⟩
    have hvalue := ht m (itemTokens false items ++ .rbracket :: rest) (by omega)
    have htail : parseItems m false (itemTokens false items ++ .rbracket :: rest) =
        some (items, rest) := ih hitems false (by omega)
    have hitem : parseItem (m + 1) (tokens t ++ (itemTokens false items ++ .rbracket :: rest)) =
        some (t :: items, rest) := by
      simp only [parseItem, hvalue, htail, Option.map_some]
    rw [itemTokens, List.append_assoc, List.append_assoc]
    cases first with
    | true => exact (parseItems_first (m + 1) _).trans hitem
    | false => exact hitem

theorem parseMembers_tokens {members : List (List UInt8 × Tree)} (h : ∀ m ∈ members, Parses m.2)
    (first : Bool) {n : Nat} (rest : List Token)
    (hn : 2 * (memberTokens first members).length + 2 ≤ n) :
    parseMembers n first (memberTokens first members ++ .rbrace :: rest) =
      some (members, rest) := by
  induction members generalizing first n with
  | nil =>
    obtain ⟨m, rfl⟩ : ∃ m, n = m + 1 := ⟨n - 1, by omega⟩
    cases first <;> rfl
  | cons member members ih =>
    obtain ⟨name, t⟩ := member
    obtain ⟨ht, hmembers⟩ : Parses t ∧ ∀ m ∈ members, Parses m.2 := List.forall_mem_cons.mp h
    rw [memberTokens, List.length_append, List.length_append, List.length_cons,
      List.length_cons] at hn
    obtain ⟨m, rfl⟩ : ∃ m, n = m + 2 := ⟨n - 2, by omega⟩
    have hvalue := ht m (memberTokens false members ++ .rbrace :: rest) (by omega)
    have htail : parseMembers m false (memberTokens false members ++ .rbrace :: rest) =
        some (members, rest) := ih hmembers false (by omega)
    have hmember : parseMember (m + 1)
        (.str name :: .colon :: (tokens t ++ (memberTokens false members ++ .rbrace :: rest))) =
        some ((name, t) :: members, rest) := by
      simp only [parseMember, hvalue, htail, Option.map_some]
    rw [memberTokens, List.append_assoc, List.append_assoc, List.cons_append, List.cons_append]
    cases first <;> exact hmember

theorem parses (t : Tree) : Parses t := by
  induction t using Tree.induct with
  | int n =>
    intro n rest hn
    rw [tokens, List.length_singleton] at hn
    obtain ⟨m, rfl⟩ : ∃ m, n = m + 1 := ⟨n - 1, by omega⟩
    rw [tokens, List.singleton_append, parseValue]
  | str s =>
    intro n rest hn
    rw [tokens, List.length_singleton] at hn
    obtain ⟨m, rfl⟩ : ∃ m, n = m + 1 := ⟨n - 1, by omega⟩
    rw [tokens, List.singleton_append, parseValue]
  | arr items ih =>
    intro n rest hn
    rw [tokens, List.length_cons, List.length_append, List.length_singleton] at hn
    obtain ⟨m, rfl⟩ : ∃ m, n = m + 1 := ⟨n - 1, by omega⟩
    rw [tokens, List.cons_append, List.append_assoc, List.singleton_append, parseValue,
      parseItems_tokens ih true rest (by omega), Option.map_some]
  | obj members ih =>
    intro n rest hn
    rw [tokens, List.length_cons, List.length_append, List.length_singleton] at hn
    obtain ⟨m, rfl⟩ : ∃ m, n = m + 1 := ⟨n - 1, by omega⟩
    rw [tokens, List.cons_append, List.append_assoc, List.singleton_append, parseValue,
      parseMembers_tokens ih true rest (by omega), Option.map_some]

end HiloUtils.Json
