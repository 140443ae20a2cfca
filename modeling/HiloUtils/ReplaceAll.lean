import Mathlib.Data.List.Infix

/-! Replacing the occurrences of a string one by one, in the string that is
being searched. The search goes on behind what was put in, and there it finds
the empty string again. -/

namespace HiloUtils.ReplaceAll

section

variable {α : Type*}

def First (search before after : List α) : Prop :=
  ∀ k < before.length, ¬ search <+: (before ++ (search ++ after)).drop k

/-- The occurrences from left to right that do not overlap are replaced, and
what lies between them is kept. -/
inductive Replaces (search replace : List α) : List α → List α → Prop
  | rest {s : List α} : ¬ search <:+: s → Replaces search replace s s
  | occurrence {before after result : List α} : First search before after →
      Replaces search replace after result →
      Replaces search replace (before ++ (search ++ after)) (before ++ (replace ++ result))

variable {search replace s before after result result' : List α}

theorem infix_iff_drop : search <:+: s ↔ ∃ k ≤ s.length, search <+: s.drop k := by
  rw [List.infix_iff_prefix_suffix]
  constructor
  · rintro ⟨t, hstarts, hsuffix⟩
    refine ⟨s.length - t.length, Nat.sub_le _ _, ?_⟩
    rwa [← List.suffix_iff_eq_drop.mp hsuffix]
  · rintro ⟨k, -, hstarts⟩
    exact ⟨s.drop k, hstarts, List.drop_suffix k s⟩

theorem prefix_drop_append (done s : List α) (k : Nat) :
    search <+: (done ++ s).drop (done.length + k) ↔ search <+: s.drop k := by
  rw [List.drop_length_add_append]

theorem First.le {before' after' : List α} (h : First search before after)
    (heq : before ++ (search ++ after) = before' ++ (search ++ after')) :
    before.length ≤ before'.length := by
  by_contra hlt
  apply h before'.length (Nat.not_le.mp hlt)
  rw [heq, List.drop_left]
  exact List.prefix_append search after'

theorem Replaces.unique (h : Replaces search replace s result)
    (h' : Replaces search replace s result') : result = result' := by
  induction h generalizing result' with
  | rest hnone =>
    cases h' with
    | rest => rfl
    | occurrence => exact absurd (List.infix_append' ..) hnone
  | @occurrence before after result hfirst hresult ih =>
    generalize hs : before ++ (search ++ after) = s at h'
    cases h' with
    | rest hnone => exact absurd (hs ▸ List.infix_append' ..) hnone
    | @occurrence before' after' result' hfirst' hresult' =>
      have hlen : before.length = before'.length :=
        le_antisymm (hfirst.le hs) (hfirst'.le hs.symm)
      obtain ⟨rfl, htail⟩ := List.append_inj hs hlen
      obtain rfl : after = after' := List.append_cancel_left htail
      rw [ih hresult']

end

def find (subject search : List UInt8) (pos : Nat) : Option Nat :=
  (List.range' pos (subject.length + 1 - pos)).find? fun k => search.isPrefixOf (subject.drop k)

def replaceAt (subject : List UInt8) (pos len : Nat) (replace : List UInt8) : List UInt8 :=
  subject.take pos ++ (replace ++ subject.drop (pos + len))

/-- The loop with its number of rounds; `none` when they run out. -/
def loop (search replace : List UInt8) : Nat → List UInt8 → Nat → Option (List UInt8)
  | 0, _, _ => none
  | fuel + 1, subject, pos =>
    match find subject search pos with
    | none => some subject
    | some pos =>
      loop search replace fuel (replaceAt subject pos search.length replace)
        (pos + replace.length)

def replaceAll (fuel : Nat) (subject search replace : List UInt8) : Option (List UInt8) :=
  loop search replace fuel subject 0

section

variable {search replace subject : List UInt8} {fuel : Nat}

theorem find_cases (search done rest : List UInt8) :
    (find (done ++ rest) search done.length = none ∧ ¬ search <:+: rest) ∨
      ∃ before after, rest = before ++ (search ++ after) ∧ First search before after ∧
        find (done ++ rest) search done.length = some (done.length + before.length) := by
  cases hfind : find (done ++ rest) search done.length with
  | none =>
    left
    refine ⟨rfl, fun hinfix => ?_⟩
    obtain ⟨k, hk, hstarts⟩ := infix_iff_drop.mp hinfix
    have hnone := List.find?_range'_eq_none.mp hfind (done.length + k) (by omega)
      (by rw [List.length_append]; omega)
    rw [List.isPrefixOf_iff_prefix.mpr ((prefix_drop_append done rest k).mpr hstarts)] at hnone
    cases hnone
  | some pos =>
    right
    obtain ⟨hstarts, hmem, hbefore⟩ := List.find?_range'_eq_some.mp hfind
    obtain ⟨hge, hlt⟩ := List.mem_range'_1.mp hmem
    rw [List.length_append] at hlt
    obtain ⟨k, rfl⟩ := Nat.exists_eq_add_of_le hge
    rw [List.isPrefixOf_iff_prefix, prefix_drop_append] at hstarts
    obtain ⟨after, hafter⟩ := hstarts
    have hrest : rest.take k ++ (search ++ after) = rest := by
      rw [hafter, List.take_append_drop]
    have hlen : (rest.take k).length = k := List.length_take_of_le (by omega)
    refine ⟨rest.take k, after, hrest.symm, fun j hj hpre => ?_, by rw [hlen]⟩
    have hnot := hbefore (done.length + j) (by omega) (by omega)
    rw [hrest] at hpre
    rw [List.isPrefixOf_iff_prefix.mpr ((prefix_drop_append done rest j).mpr hpre)] at hnot
    cases hnot

theorem replaceAt_found (done before after search replace : List UInt8) :
    replaceAt (done ++ (before ++ (search ++ after))) (done.length + before.length) search.length
      replace = done ++ before ++ replace ++ after := by
  have hall : done ++ (before ++ (search ++ after)) = done ++ before ++ (search ++ after) :=
    (List.append_assoc ..).symm
  rw [replaceAt, hall, ← List.length_append, List.take_left, ← List.drop_drop, List.drop_left,
    List.drop_left, ← List.append_assoc]

/-- One round: what is left has no occurrence, or its first one is replaced and
the search goes on behind it. -/
theorem loop_cases (search replace done rest : List UInt8) (fuel : Nat) :
    (¬ search <:+: rest ∧
      loop search replace (fuel + 1) (done ++ rest) done.length = some (done ++ rest)) ∨
      ∃ before after, rest = before ++ (search ++ after) ∧ First search before after ∧
        loop search replace (fuel + 1) (done ++ rest) done.length =
          loop search replace fuel (done ++ before ++ replace ++ after)
            (done ++ before ++ replace).length := by
  rcases find_cases search done rest with ⟨hfind, hnone⟩ | ⟨before, after, rfl, hfirst, hfind⟩
  · left
    rw [loop, hfind]
    exact ⟨hnone, rfl⟩
  · right
    refine ⟨before, after, rfl, hfirst, ?_⟩
    rw [loop, hfind]
    dsimp only
    rw [replaceAt_found, List.length_append, List.length_append]

theorem loop_replaces (done : List UInt8) {rest result : List UInt8}
    (h : loop search replace fuel (done ++ rest) done.length = some result) :
    ∃ tail, result = done ++ tail ∧ Replaces search replace rest tail := by
  induction fuel generalizing done rest with
  | zero => cases h
  | succ fuel ih =>
    rcases loop_cases search replace done rest fuel with
      ⟨hnone, heq⟩ | ⟨before, after, rfl, hfirst, heq⟩
    · rw [heq] at h
      exact ⟨rest, (Option.some_inj.mp h).symm, .rest hnone⟩
    · rw [heq] at h
      obtain ⟨tail, rfl, htail⟩ := ih _ h
      refine ⟨before ++ (replace ++ tail), ?_, .occurrence hfirst htail⟩
      simp only [List.append_assoc]

theorem loop_terminates (hsearch : search ≠ []) (done : List UInt8) {rest : List UInt8}
    (hfuel : rest.length < fuel) :
    (loop search replace fuel (done ++ rest) done.length).isSome := by
  induction fuel generalizing done rest with
  | zero => omega
  | succ fuel ih =>
    rcases loop_cases search replace done rest fuel with
      ⟨-, heq⟩ | ⟨before, after, rfl, -, heq⟩
    · rw [heq]
      rfl
    · have hpos : 0 < search.length := List.length_pos_iff.mpr hsearch
      simp only [List.length_append] at hfuel
      rw [heq]
      exact ih _ (by omega)

theorem loop_empty {pos : Nat} (hpos : pos ≤ subject.length) :
    loop [] replace fuel subject pos = none := by
  induction fuel generalizing subject pos with
  | zero => rfl
  | succ fuel ih =>
    have hfind : find subject [] pos = some pos :=
      List.find?_range'_eq_some.mpr ⟨rfl, List.mem_range'_1.mpr (by omega), by omega⟩
    rw [loop, hfind]
    apply ih
    simp only [replaceAt, List.length_append, List.length_take, List.length_drop]
    omega

/-- It returns, and only with the occurrences replaced. -/
def Exact (subject search replace : List UInt8) : Prop :=
  (∃ fuel, (replaceAll fuel subject search replace).isSome) ∧
    ∀ fuel result, replaceAll fuel subject search replace = some result →
      Replaces search replace subject result

theorem replaceAll_exact_iff (subject search replace : List UInt8) :
    Exact subject search replace ↔ search ≠ [] := by
  constructor
  · rintro ⟨⟨fuel, hfuel⟩, -⟩ rfl
    rw [replaceAll, loop_empty (Nat.zero_le _)] at hfuel
    cases hfuel
  · intro hsearch
    constructor
    · exact ⟨subject.length + 1, loop_terminates hsearch [] (Nat.lt_succ_self _)⟩
    · intro fuel result h
      obtain ⟨tail, rfl, htail⟩ := loop_replaces [] h
      exact htail

/-- `1__2____3`, and two underscores to one. -/
example : replaceAll 4 [49, 95, 95, 50, 95, 95, 95, 95, 51] [95, 95] [95] =
    some [49, 95, 50, 95, 95, 51] := by decide

theorem replaceAll_empty_search : ¬ Exact [97] [] [98] := by
  rintro ⟨⟨fuel, hfuel⟩, -⟩
  rw [replaceAll, loop_empty (Nat.zero_le _)] at hfuel
  cases hfuel

end

end HiloUtils.ReplaceAll
