import Mathlib.Algebra.Group.Int.Defs
import Mathlib.Algebra.GroupWithZero.Nat
import Mathlib.Data.List.Basic

/-! Fixed-width machine words over `Nat` and `Int`. An unsigned word of width
`w` is its residue below `2 ^ w`; a signed word is the two's-complement reading
of that residue. Stored words are little-endian byte lists. -/

namespace HiloUtils.Word

def u16 (x : Int) : Nat := (x % 2 ^ 16).toNat

def i16 (x : Int) : Int := (x + 2 ^ 15) % 2 ^ 16 - 2 ^ 15

def u32 (n : Nat) : Nat := n % 2 ^ 32

def u64 (n : Nat) : Nat := n % 2 ^ 64

/-- Unsigned subtraction of 64-bit words; it wraps below zero. -/
def subU64 (a b : Nat) : Nat := (a + 2 ^ 64 - b) % 2 ^ 64

def i32 (x : Int) : Int := (x + 2 ^ 31) % 2 ^ 32 - 2 ^ 31

def i64 (x : Int) : Int := (x + 2 ^ 63) % 2 ^ 64 - 2 ^ 63

def IsI64 (x : Int) : Prop := -2 ^ 63 ≤ x ∧ x < 2 ^ 63

instance (x : Int) : Decidable (IsI64 x) := inferInstanceAs (Decidable (_ ∧ _))

def ofI64 (x : Int) : Nat := (x % 2 ^ 64).toNat

def ofI32 (x : Int) : Nat := (x % 2 ^ 32).toNat

theorem u32_of_lt {n : Nat} (h : n < 2 ^ 32) : u32 n = n := Nat.mod_eq_of_lt h

theorem u64_of_lt {n : Nat} (h : n < 2 ^ 64) : u64 n = n := Nat.mod_eq_of_lt h

@[simp] theorem u64_u64 (n : Nat) : u64 (u64 n) = u64 n := Nat.mod_mod n (2 ^ 64)

@[simp] theorem u64_u64_add (a b : Nat) : u64 (u64 a + b) = u64 (a + b) := by
  simp only [u64]
  omega

theorem subU64_of_le {a b : Nat} (hb : b ≤ a) (ha : a < 2 ^ 64) : subU64 a b = a - b := by
  simp only [subU64]
  omega

theorem i64_of_bounds {x : Int} (hl : -2 ^ 63 ≤ x) (hu : x < 2 ^ 63) : i64 x = x := by
  simp only [i64]
  omega

theorem isI64_zero : IsI64 0 := by decide

theorem IsI64.i64_eq {x : Int} (h : IsI64 x) : i64 x = x := i64_of_bounds h.1 h.2

theorem isI64_i64 (x : Int) : IsI64 (i64 x) := by
  simp only [IsI64, i64]
  omega

theorem i64_natCast {n : Nat} (h : n < 2 ^ 63) : i64 (n : Int) = n := by
  apply i64_of_bounds <;> omega

@[simp] theorem i64_u64 (n : Nat) : i64 (u64 n : Int) = i64 (n : Int) := by
  simp only [i64, u64]
  omega

@[simp] theorem i64_i64 (x : Int) : i64 (i64 x) = i64 x := by
  simp only [i64]
  omega

@[simp] theorem i64_i64_add (a b : Int) : i64 (i64 a + b) = i64 (a + b) := by
  simp only [i64]
  omega

@[simp] theorem i64_add_i64 (a b : Int) : i64 (a + i64 b) = i64 (a + b) := by
  rw [Int.add_comm, i64_i64_add, Int.add_comm]

@[simp] theorem i64_add_u64 (a : Int) (n : Nat) : i64 (a + u64 n) = i64 (a + n) := by
  rw [← i64_add_i64, i64_u64, i64_add_i64]

@[simp] theorem i64_i64_sub (a b : Int) : i64 (i64 a - b) = i64 (a - b) := by
  simp only [i64]
  omega

theorem i64_inj {m n : Nat} : i64 m = i64 n ↔ u64 m = u64 n := by
  simp only [i64, u64]
  omega

theorem subU64_u64 {m n : Nat} (h : m ≤ n) : subU64 (u64 n) (u64 m) = u64 (n - m) := by
  simp only [subU64, u64]
  omega

theorem i64_subU64 (a : Nat) {b : Nat} (h : b ≤ 2 ^ 64) :
    i64 (subU64 a b : Int) = i64 ((a : Int) - b) := by
  simp only [i64, subU64]
  omega

theorem i32_i32_add (a b : Int) : i32 (i32 a + b) = i32 (a + b) := by
  simp only [i32]
  omega

theorem i32_natCast {n : Nat} (h : n < 2 ^ 31) : i32 (n : Int) = n := by
  simp only [i32]
  omega

theorem ofI32_of_bounds {x : Int} (hl : 0 ≤ x) (hu : x < 2 ^ 32) : ofI32 x = x.toNat := by
  rw [ofI32, Int.emod_eq_of_lt hl hu]

theorem ofI32_natCast {n : Nat} (h : n < 2 ^ 32) : ofI32 (n : Int) = n :=
  ofI32_of_bounds (Int.natCast_nonneg n) (by omega)

theorem ofI32_i32 (n : Nat) : ofI32 (i32 n) = u32 n := by
  simp only [ofI32, i32, u32]
  omega

theorem ofI64_i64 (n : Nat) : ofI64 (i64 n) = u64 n := by
  simp only [ofI64, i64, u64]
  omega

def le32 (n : Nat) : List UInt8 :=
  [UInt8.ofNat n, UInt8.ofNat (n / 256), UInt8.ofNat (n / 65536), UInt8.ofNat (n / 16777216)]

def ofLe : List UInt8 → Nat
  | [] => 0
  | b :: bs => b.toNat + 256 * ofLe bs

@[simp] theorem le32_length (n : Nat) : (le32 n).length = 4 := rfl

theorem ofLe_le32 {n : Nat} (h : n < 2 ^ 32) : ofLe (le32 n) = n := by
  simp only [le32, ofLe, UInt8.toNat_ofNat']
  omega

end HiloUtils.Word
