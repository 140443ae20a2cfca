import HiloUtils.JsonDumper
import Mathlib.Data.List.TakeWhile

/-! Which names and strings the writer turns into JSON string literals.
`StartMember` copies the name as it is, `operator<<` escapes what lies between
NUL and space. -/

namespace HiloUtils.JsonDump

open Word Json

namespace JsonDumper

def memberLead (d : JsonDumper) : List UInt8 :=
  let comma := if !d.state.firstElement then 44 :: (if !d.state.wrap then [32] else []) else []
  let layout := if d.state.wrap then endl :: indentation (ofI32 d.indent) else []
  comma ++ layout

def writeChar (d : JsonDumper) (ch : UInt8) : JsonDumper := d.writeString [ch]

/-- The characters of a buffer up to its first NUL. -/
def write (d : JsonDumper) (str : List UInt8) (maxLen : Nat) : JsonDumper :=
  d.writeString ((str.take maxLen).takeWhile fun b => b != 0)

end JsonDumper

/-- What is written after `before` is a string literal that decodes to `s`. -/
def WritesLiteral (before after s : List UInt8) : Prop :=
  ∃ token, after = before ++ token ∧ Spells (.str s) token

theorem readUnicode_length {a b c d : UInt8} {s : List UInt8}
    (h : readUnicode a b c d = some s) : s.length ≤ 3 := by
  unfold readUnicode at h
  split at h
  · simp only at h
    split at h
    · cases h
    · obtain rfl := Option.some_inj.mp h
      unfold utf8
      split
      · exact Nat.le_of_ble_eq_true rfl
      · split <;> exact Nat.le_of_ble_eq_true rfl
  · cases h

theorem readEscape_length {bs c rest : List UInt8} (h : readEscape bs = some (c, rest)) :
    c.length + rest.length ≤ bs.length := by
  unfold readEscape at h
  split at h
  · obtain ⟨s, hs, heq⟩ := Option.map_eq_some_iff.mp h
    obtain ⟨rfl, rfl⟩ := Prod.mk.inj heq
    have := readUnicode_length hs
    simp only [List.length_cons]
    omega
  · obtain ⟨b, -, heq⟩ := Option.map_eq_some_iff.mp h
    obtain ⟨rfl, rfl⟩ := Prod.mk.inj heq
    simp only [List.length_cons, List.length_nil]
    omega
  · cases h

theorem readChar_length {bs c rest : List UInt8} (h : readChar bs = some (c, rest)) :
    c.length + rest.length ≤ bs.length := by
  cases bs with
  | nil => cases h
  | cons b bs =>
    rw [readChar] at h
    split at h
    · have := readEscape_length h
      rw [List.length_cons]
      omega
    · split at h
      · cases h
      · obtain ⟨rfl, rfl⟩ := Prod.mk.inj (Option.some_inj.mp h)
        simp only [List.length_cons, List.length_nil]
        omega

theorem readString_length {n : Nat} {bs s rest : List UInt8}
    (h : readString n bs = some (s, rest)) : s.length + rest.length + 1 ≤ bs.length := by
  induction n generalizing bs s with
  | zero => cases h
  | succ n ih =>
    rw [readString] at h
    split at h
    · next hquote =>
      obtain ⟨rfl, rfl⟩ := Prod.mk.inj (Option.some_inj.mp h)
      obtain ⟨bs', rfl⟩ := List.head?_eq_some_iff.mp hquote
      simp
    · split at h
      · cases h
      · next c left hchar =>
        obtain ⟨r, hr, heq⟩ := Option.map_eq_some_iff.mp h
        obtain ⟨rfl, rfl⟩ := Prod.mk.inj heq
        have hlen := readChar_length hchar
        have htail := ih hr
        rw [List.length_append]
        omega

/-- A text that reads back as itself has nothing to escape: an escape would
give fewer characters than it takes. -/
theorem plain_of_readString {n : Nat} {name : List UInt8}
    (h : readString n (name ++ [quote]) = some (name, [])) : Plain name := by
  induction name generalizing n with
  | nil => exact List.forall_mem_nil _
  | cons b name ih =>
    cases n with
    | zero => cases h
    | succ n =>
      rw [List.cons_append, readString] at h
      split at h
      · cases h
      · next hquote =>
        have hb : b ≠ quote := fun hb => hquote (by rw [hb, List.head?_cons])
        split at h
        · cases h
        · next c left hchar =>
          obtain ⟨⟨s, rest⟩, hr, heq⟩ := Option.map_eq_some_iff.mp h
          obtain ⟨hname, rfl⟩ := Prod.mk.inj heq
          rw [readChar] at hchar
          split at hchar
          · have hlen := readEscape_length hchar
            have htail := readString_length hr
            have hsame := congrArg List.length hname
            simp only [List.length_append, List.length_cons, List.length_nil] at hlen hsame
            omega
          · next hslash =>
            split at hchar
            · cases hchar
            · next hraw =>
              obtain ⟨rfl, rfl⟩ := Prod.mk.inj (Option.some_inj.mp hchar)
              obtain rfl : s = name := (List.cons.inj hname).2
              exact List.forall_mem_cons.mpr
                ⟨⟨hb, hslash, fun hlt => hraw (Or.inr hlt)⟩, ih hr⟩

theorem readString_flatMap_nul {n : Nat} {sv rest : List UInt8} (h : 0 ∈ sv) :
    readString n (sv.flatMap escape ++ rest) = none := by
  induction sv generalizing n with
  | nil => cases h
  | cons c sv ih =>
    cases n with
    | zero => rfl
    | succ n =>
      by_cases hc : c = 0
      · subst hc
        rfl
      · obtain ⟨hhead, hne⟩ := escape_head c
        have hin : 0 ∈ sv := (List.mem_cons.mp h).resolve_left fun h0 => hc h0.symm
        rw [List.flatMap_cons, List.append_assoc, readString,
          if_neg (by rwa [List.head?_append_of_ne_nil _ hne]), readChar_escape hc]
        simp only [ih hin, Option.map_none]

theorem spells_str_iff {body s : List UInt8} :
    Spells (.str s) (quote :: (body ++ [quote])) ↔ Reads body s := by
  constructor
  · intro h
    generalize htoken : quote :: (body ++ [quote]) = token at h
    cases h with
    | punctuation hb =>
      have hlen := congrArg List.length htoken
      simp at hlen
    | str hreads =>
      obtain rfl := List.append_cancel_right (List.cons.inj htoken).2
      exact hreads
  · exact Spells.str

theorem reads_self_iff {name : List UInt8} : Reads name name ↔ Plain name :=
  ⟨fun h => plain_of_readString (h (name.length + 1) [] (Nat.lt_succ_self _)), reads_plain⟩

theorem reads_flatMap_iff {sv : List UInt8} : Reads (sv.flatMap escape) sv ↔ 0 ∉ sv := by
  refine ⟨fun h hnul => ?_, reads_flatMap⟩
  have hread := h _ [] (Nat.lt_succ_self _)
  rw [readString_flatMap_nul hnul] at hread
  cases hread

theorem writesLiteral_iff (before body s : List UInt8) :
    WritesLiteral before (before ++ quote :: (body ++ [quote])) s ↔ Reads body s := by
  rw [← spells_str_iff, WritesLiteral]
  constructor
  · rintro ⟨token, heq, hspells⟩
    rwa [List.append_cancel_left heq]
  · exact fun hspells => ⟨_, rfl, hspells⟩

theorem startMember_writes {d d' : JsonDumper} {name : List UInt8}
    (h : d.startMember name = some d') :
    d'.s = d.s ++ d.memberLead ++ quote :: (name ++ [quote]) ++ [58, 32] := by
  rw [JsonDumper.startMember] at h
  split at h
  · cases h
  · obtain rfl := Option.some_inj.mp h
    simp [JsonDumper.memberLead]

theorem writeString_valid_iff (d : JsonDumper) (sv : List UInt8) :
    WritesLiteral (d.nextItem false).s (d.writeString sv).s sv ↔ 0 ∉ sv :=
  (writesLiteral_iff _ (sv.flatMap escape) sv).trans reads_flatMap_iff

theorem write_valid (d : JsonDumper) (str : List UInt8) (maxLen : Nat) :
    WritesLiteral (d.nextItem false).s (d.write str maxLen).s
      ((str.take maxLen).takeWhile fun b => b != 0) := by
  apply (writeString_valid_iff d _).mpr
  intro hnul
  exact absurd (List.mem_takeWhile_imp hnul) (by decide)

theorem writeChar_valid_iff (d : JsonDumper) (ch : UInt8) :
    WritesLiteral (d.nextItem false).s (d.writeChar ch).s [ch] ↔ ch ≠ 0 := by
  rw [JsonDumper.writeChar, writeString_valid_iff, List.mem_singleton, ne_comm]

/-- The name token is valid exactly when nothing in the name needs an escape,
the value token exactly when the value holds no NUL. -/
theorem written_strings_valid_iff (s : List UInt8) :
    (∀ d d' : JsonDumper, d.startMember s = some d' → ∃ written, d'.s = written ++ [58, 32] ∧
        (WritesLiteral (d.s ++ d.memberLead) written s ↔ Plain s)) ∧
      ∀ d : JsonDumper, WritesLiteral (d.nextItem false).s (d.writeString s).s s ↔ 0 ∉ s := by
  constructor
  · intro d d' h
    exact ⟨_, startMember_writes h, (writesLiteral_iff _ s s).trans reads_self_iff⟩
  · intro d
    exact writeString_valid_iff d s

theorem written_strings_valid_iff_short :
    ∃ d' written, JsonDumper.new.startMember [97, 98] = some d' ∧ d'.s = written ++ [58, 32] ∧
      (WritesLiteral (JsonDumper.new.s ++ JsonDumper.new.memberLead) written [97, 98] ↔
        Plain [97, 98]) := by
  obtain ⟨written, hwritten, hiff⟩ := (written_strings_valid_iff [97, 98]).1 .new _ rfl
  exact ⟨_, written, rfl, hwritten, hiff⟩

/-- The name `a"b` is written with its quote bare. -/
theorem member_name_with_quote_invalid :
    ¬ ∀ s : List UInt8, 0 ∉ s →
      (∀ d d' : JsonDumper, d.startMember s = some d' → ∃ written, d'.s = written ++ [58, 32] ∧
        WritesLiteral (d.s ++ d.memberLead) written s) ∧
      ∀ d : JsonDumper, WritesLiteral (d.nextItem false).s (d.writeString s).s s := by
  intro hall
  obtain ⟨d', hd⟩ : ∃ d', JsonDumper.new.startMember [97, 34, 98] = some d' := ⟨_, rfl⟩
  obtain ⟨written, hwritten, hvalid⟩ := (hall [97, 34, 98] (by decide)).1 .new d' hd
  obtain rfl := List.append_cancel_right (hwritten.symm.trans (startMember_writes hd))
  have hplain := reads_self_iff.mp ((writesLiteral_iff _ [97, 34, 98] _).mp hvalid)
  exact (hplain 34 (by simp)).1 rfl

end HiloUtils.JsonDump
