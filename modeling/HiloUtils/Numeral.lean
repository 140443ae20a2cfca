import Mathlib.Data.List.Basic

/-! Numerals: the value of a run of digits, and reading a run under a limit that
is checked before each digit, so that nothing beyond it is ever computed. -/

namespace HiloUtils.Numeral

variable {α : Type*}

def value (base : Nat) : Nat → List Nat → Nat
  | n, [] => n
  | n, d :: ds => value base (n * base + d) ds

def Digits (digit : α → Option Nat) (s : List α) (ds : List Nat) : Prop :=
  s.map digit = ds.map some

/-- One more digit keeps the number within the limit; the limit is compared
without its last digit first. -/
def Fits (base limit n d : Nat) : Prop := n < limit / base ∨ n = limit / base ∧ d ≤ limit % base

instance (base limit n d : Nat) : Decidable (Fits base limit n d) :=
  inferInstanceAs (Decidable (_ ∨ _))

def readUnder (digit : α → Option Nat) (base limit : Nat) : Nat → List α → Option Nat
  | n, [] => some n
  | n, c :: s =>
    match digit c with
    | none => none
    | some d => if Fits base limit n d then readUnder digit base limit (n * base + d) s else none

variable {digit : α → Option Nat} {base limit n d v : Nat} {c : α} {s : List α} {ds : List Nat}

theorem fits_iff (hd : d < base) : Fits base limit n d ↔ n * base + d ≤ limit := by
  have hsplit := Nat.div_add_mod limit base
  have hmod := Nat.mod_lt limit (Nat.zero_lt_of_lt hd)
  rw [Nat.mul_comm base] at hsplit
  constructor
  · rintro (hlt | ⟨rfl, hle⟩)
    · have hmul := Nat.mul_le_mul_right base (Nat.succ_le_of_lt hlt)
      rw [Nat.succ_mul] at hmul
      omega
    · omega
  · intro hle
    rcases Nat.lt_trichotomy n (limit / base) with hlt | rfl | hgt
    · exact Or.inl hlt
    · exact Or.inr ⟨rfl, by omega⟩
    · have hmul := Nat.mul_le_mul_right base (Nat.succ_le_of_lt hgt)
      rw [Nat.succ_mul] at hmul
      omega

theorem le_value (hbase : 0 < base) (n : Nat) (ds : List Nat) : n ≤ value base n ds := by
  induction ds generalizing n with
  | nil => exact Nat.le_refl _
  | cons d ds ih =>
    have hmul : n ≤ n * base := Nat.le_mul_of_pos_right n hbase
    exact Nat.le_trans (by omega) (ih (n * base + d))

theorem Digits.cons_iff :
    Digits digit (c :: s) (d :: ds) ↔ digit c = some d ∧ Digits digit s ds := by
  simp [Digits]

theorem Digits.nil_iff : Digits digit [] ds ↔ ds = [] := by
  cases ds <;> simp [Digits]

theorem readUnder_eq_some_iff (hdigit : ∀ c d, digit c = some d → d < base) (hs : s ≠ []) :
    readUnder digit base limit n s = some v ↔
      ∃ ds, Digits digit s ds ∧ value base n ds = v ∧ v ≤ limit := by
  induction s generalizing n with
  | nil => exact absurd rfl hs
  | cons c s ih =>
    cases hc : digit c with
    | none =>
      simp only [readUnder, hc]
      constructor
      · intro h
        exact absurd h (by simp)
      · rintro ⟨ds, hds, -⟩
        cases ds with
        | nil => simp [Digits] at hds
        | cons d ds =>
          rw [Digits.cons_iff, hc] at hds
          exact absurd hds.1 (by simp)
    | some d =>
      have hd := hdigit c d hc
      have hbase := Nat.zero_lt_of_lt hd
      have hcons : (∃ ds, Digits digit (c :: s) ds ∧ value base n ds = v ∧ v ≤ limit) ↔
          ∃ ds, Digits digit s ds ∧ value base (n * base + d) ds = v ∧ v ≤ limit := by
        constructor
        · rintro ⟨ds, hds, hv⟩
          cases ds with
          | nil => simp [Digits] at hds
          | cons d' ds =>
            rw [Digits.cons_iff, hc] at hds
            obtain rfl := Option.some.inj hds.1
            exact ⟨ds, hds.2, hv⟩
        · rintro ⟨ds, hds, hv⟩
          exact ⟨d :: ds, Digits.cons_iff.mpr ⟨hc, hds⟩, hv⟩
      rw [hcons]
      simp only [readUnder, hc, fits_iff hd]
      by_cases hfit : n * base + d ≤ limit
      · rw [if_pos hfit]
        rcases eq_or_ne s [] with rfl | hne
        · simp only [readUnder, Option.some.injEq, Digits.nil_iff, exists_eq_left, value]
          constructor
          · rintro rfl
            exact ⟨rfl, hfit⟩
          · exact And.left
        · exact ih hne
      · rw [if_neg hfit]
        constructor
        · intro h
          exact absurd h (by simp)
        · rintro ⟨ds, -, hv, hle⟩
          have := le_value hbase (n * base + d) ds
          omega

end HiloUtils.Numeral
