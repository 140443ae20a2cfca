import HiloUtils.CString
import HiloUtils.Numeral
import HiloUtils.Word

/-! The `ConvertString` overloads for integers. A call gets the string, `none`
for the null pointer, and the present value of the output variable, and returns
its result and the value of the variable after it. -/

namespace HiloUtils.ConvertString

open Word CString Numeral

def uint64Max : Nat := 2 ^ 64 - 1

def longMax : Int := 2 ^ 63 - 1

def longMin : Int := -2 ^ 63

def skip (s : CName) (n : Nat) : CName := ⟨s.1.drop n, fun h => s.2 (List.mem_of_mem_drop h)⟩

/-- The output variable is written on success only. -/
def assign {α : Type*} (result : Option α) (value : α) : Bool × α :=
  match result with
  | none => (false, value)
  | some v => (true, v)

def hexDigit (b : UInt8) : Option Nat :=
  if 48 ≤ b.toNat ∧ b.toNat ≤ 57 then some (b.toNat - 48)
  else if 97 ≤ b.toNat ∧ b.toNat ≤ 102 then some (b.toNat - 97 + 10)
  else if 65 ≤ b.toNat ∧ b.toNat ≤ 70 then some (b.toNat - 65 + 10)
  else none

def hexNmax : Nat := uint64Max / 16

def hexCmax : Nat := uint64Max - uint64Max / 16 * 16

def hexLoop (n : Nat) : List UInt8 → Option Nat
  | [] => none
  | b :: rest =>
    match hexDigit b with
    | none => none
    | some c =>
      if n < hexNmax ∨ n = hexNmax ∧ c ≤ hexCmax then
        match rest with
        | [] => some (u64 (n * 16 + c))
        | b' :: rest => hexLoop (u64 (n * 16 + c)) (b' :: rest)
      else none

def convertStringHex (s : Option CName) (value : Nat) : Bool × Nat :=
  match s with
  | none => (false, value)
  | some s => if s.1 = [] then (false, value) else assign (hexLoop 0 s.1) value

def isHex : List UInt8 → Bool
  | b :: b' :: _ => b = 48 && (b' = 120 || b' = 88)
  | _ => false

def isDigit (b : UInt8) : Bool := 48 ≤ b.toNat && b.toNat ≤ 57

/-- The decimal loop of the 64-bit overloads, entered on a digit. -/
def decimalLoop (nmax cmax n : Nat) : List UInt8 → Option Nat
  | [] => none
  | b :: rest =>
    let c := b.toNat - 48
    if n < nmax ∨ n = nmax ∧ c ≤ cmax then
      match rest with
      | [] => some (u64 (n * 10 + c))
      | b' :: rest =>
        if isDigit b' then decimalLoop nmax cmax (u64 (n * 10 + c)) (b' :: rest) else none
    else none

def decimal (nmax cmax : Nat) : List UInt8 → Option Nat
  | [] => none
  | b :: rest => if isDigit b then decimalLoop nmax cmax 0 (b :: rest) else none

def convertStringUInt64 (s : Option CName) (value : Nat) : Bool × Nat :=
  match s with
  | none => (false, value)
  | some s =>
    if s.1 = [] then (false, value)
    else if isHex s.1 then convertStringHex (some (skip s 2)) value
    else assign (decimal (uint64Max / 10) (uint64Max - uint64Max / 10 * 10) s.1) value

/-- `plus ? (long) n : n * -1L`. -/
def signed (plus : Bool) (n : Nat) : Int := if plus then i64 n else i64 (u64 (n * (2 ^ 64 - 1)))

def convertStringInt64 (s : Option CName) (value : Int) : Bool × Int :=
  match s with
  | none => (false, value)
  | some s =>
    if s.1 = [] then (false, value)
    else if isHex s.1 then
      match convertStringHex (some (skip s 2)) 0 with
      | (true, u) => (true, i64 u)
      | (false, _) => (false, value)
    else if s.1.head? = some 45 then
      let nmax := (-(longMin.tdiv 10)).toNat
      let cmax := (-(longMin + longMin.tdiv (-10) * 10)).toNat
      assign ((decimal nmax cmax (s.1.drop 1)).map (signed false)) value
    else
      let nmax := (longMax.tdiv 10).toNat
      let cmax := (longMax - longMax.tdiv 10 * 10).toNat
      assign ((decimal nmax cmax s.1).map (signed true)) value

def convertUnsigned (max : Nat) (s : Option CName) (value : Nat) : Bool × Nat :=
  match convertStringUInt64 s 0 with
  | (false, _) => (false, value)
  | (true, v) => if max < v then (false, value) else (true, v)

def convertSigned (min max : Int) (s : Option CName) (value : Int) : Bool × Int :=
  match convertStringInt64 s 0 with
  | (false, _) => (false, value)
  | (true, v) => if max < v ∨ v < min then (false, value) else (true, v)

def convertStringInt8 : Option CName → Int → Bool × Int := convertSigned (-128) 127

def convertStringUInt8 : Option CName → Nat → Bool × Nat := convertUnsigned 255

def convertStringInt16 : Option CName → Int → Bool × Int := convertSigned (-32768) 32767

def convertStringUInt16 : Option CName → Nat → Bool × Nat := convertUnsigned 65535

def convertStringInt32 : Option CName → Int → Bool × Int := convertSigned (-2147483648) 2147483647

def convertStringUInt32 : Option CName → Nat → Bool × Nat := convertUnsigned 4294967295

/-! What a string denotes. -/

def decimalDigit (b : UInt8) : Option Nat := if isDigit b then some (b.toNat - 48) else none

def Decimal (s : List UInt8) (n : Nat) : Prop :=
  s ≠ [] ∧ ∃ ds, Digits decimalDigit s ds ∧ value 10 0 ds = n

/-- A non-empty run of hexadecimal digits behind `0x` or `0X`. -/
def Hex (s : List UInt8) (n : Nat) : Prop :=
  ∃ x rest, s = 48 :: x :: rest ∧ (x = 120 ∨ x = 88) ∧ rest ≠ [] ∧
    ∃ ds, Digits hexDigit rest ds ∧ value 16 0 ds = n ∧ n ≤ uint64Max

def DenotesUnsigned (s : List UInt8) (n : Nat) : Prop := Decimal s n ∨ Hex s n

/-- A hexadecimal literal is read as a signed word. -/
def DenotesSigned (s : List UInt8) (v : Int) : Prop :=
  (∃ n : Nat, Decimal s n ∧ v = n) ∨ (∃ rest, ∃ n : Nat, s = 45 :: rest ∧ Decimal rest n ∧ v = -n) ∨
    ∃ n : Nat, Hex s n ∧ v = i64 n

/-- A call succeeds exactly on the denoted values, with that value, and leaves
the variable alone otherwise. -/
def Exactly {α : Type*} (call : α → Bool × α) (denoted : α → Prop) : Prop :=
  ∀ value, (∀ v, denoted v → call value = (true, v)) ∧
    ((∀ v, ¬ denoted v) → call value = (false, value))

theorem exactly_assign {α : Type*} {call : α → Bool × α} {denoted : α → Prop} {result : Option α}
    (hcall : ∀ value, call value = assign result value)
    (hresult : ∀ v, result = some v ↔ denoted v) : Exactly call denoted := by
  intro value
  rw [hcall]
  refine ⟨fun v hv => ?_, fun hnone => ?_⟩
  · rw [(hresult v).mpr hv]
    rfl
  · cases hr : result with
    | none => rfl
    | some v => exact absurd ((hresult v).mp hr) (hnone v)

theorem hexDigit_lt (b : UInt8) (d : Nat) (h : hexDigit b = some d) : d < 16 := by
  unfold hexDigit at h
  split at h
  · have := Option.some.inj h
    omega
  · split at h
    · have := Option.some.inj h
      omega
    · split at h
      · have := Option.some.inj h
        omega
      · exact absurd h (by simp)

theorem isDigit_iff {b : UInt8} : isDigit b = true ↔ 48 ≤ b.toNat ∧ b.toNat ≤ 57 := by
  simp [isDigit]

theorem decimalDigit_lt (b : UInt8) (d : Nat) (h : decimalDigit b = some d) : d < 10 := by
  unfold decimalDigit at h
  split at h
  · next hb =>
    have hrange := isDigit_iff.mp hb
    have := Option.some.inj h
    omega
  · exact absurd h (by simp)

theorem hexLoop_eq {s : List UInt8} (hs : s ≠ []) (n : Nat) :
    hexLoop n s = readUnder hexDigit 16 uint64Max n s := by
  induction s generalizing n with
  | nil => exact absurd rfl hs
  | cons b rest ih =>
    rw [hexLoop.eq_def, readUnder]
    cases hb : hexDigit b with
    | none => simp only [hb]
    | some c =>
      have hlt := hexDigit_lt b c hb
      simp only [hb]
      by_cases hfit : Fits 16 uint64Max n c
      · have hfit' : n < hexNmax ∨ n = hexNmax ∧ c ≤ hexCmax := hfit
        have hle : n * 16 + c ≤ uint64Max := (fits_iff hlt).mp hfit
        have hword : u64 (n * 16 + c) = n * 16 + c := by
          rw [uint64Max] at hle
          exact u64_of_lt (by omega)
        rw [if_pos hfit', if_pos hfit, hword]
        cases rest with
        | nil => rfl
        | cons b' rest => exact ih (by simp) _
      · have hfit' : ¬ (n < hexNmax ∨ n = hexNmax ∧ c ≤ hexCmax) := hfit
        rw [if_neg hfit', if_neg hfit]

theorem decimalLoop_eq {limit : Nat} (hlimit : limit < 2 ^ 64) {b : UInt8} (hb : isDigit b = true)
    (rest : List UInt8) (n : Nat) :
    decimalLoop (limit / 10) (limit % 10) n (b :: rest) =
      readUnder decimalDigit 10 limit n (b :: rest) := by
  induction rest generalizing b n with
  | nil =>
    have hdigit : decimalDigit b = some (b.toNat - 48) := if_pos hb
    have hlt := decimalDigit_lt b _ hdigit
    simp only [decimalLoop, readUnder, hdigit]
    by_cases hfit : Fits 10 limit n (b.toNat - 48)
    · have hfit' : n < limit / 10 ∨ n = limit / 10 ∧ b.toNat - 48 ≤ limit % 10 := hfit
      have hle := (fits_iff hlt).mp hfit
      rw [if_pos hfit', if_pos hfit, u64_of_lt (by omega)]
    · have hfit' : ¬ (n < limit / 10 ∨ n = limit / 10 ∧ b.toNat - 48 ≤ limit % 10) := hfit
      rw [if_neg hfit', if_neg hfit]
  | cons b' rest ih =>
    have hdigit : decimalDigit b = some (b.toNat - 48) := if_pos hb
    have hlt := decimalDigit_lt b _ hdigit
    rw [decimalLoop, readUnder]
    simp only [hdigit]
    by_cases hfit : Fits 10 limit n (b.toNat - 48)
    · have hfit' : n < limit / 10 ∨ n = limit / 10 ∧ b.toNat - 48 ≤ limit % 10 := hfit
      have hle := (fits_iff hlt).mp hfit
      rw [if_pos hfit', if_pos hfit, u64_of_lt (by omega)]
      by_cases hb' : isDigit b' = true
      · rw [if_pos hb']
        exact ih hb' _
      · have hdigit' : decimalDigit b' = none := if_neg hb'
        simp only [if_neg hb', readUnder, hdigit']
    · have hfit' : ¬ (n < limit / 10 ∨ n = limit / 10 ∧ b.toNat - 48 ≤ limit % 10) := hfit
      rw [if_neg hfit', if_neg hfit]

theorem decimal_eq_some_iff {limit : Nat} (hlimit : limit < 2 ^ 64) {s : List UInt8} {n : Nat} :
    decimal (limit / 10) (limit % 10) s = some n ↔ Decimal s n ∧ n ≤ limit := by
  cases s with
  | nil => simp [decimal, Decimal]
  | cons b rest =>
    have hread : readUnder decimalDigit 10 limit 0 (b :: rest) = some n ↔
        ∃ ds, Digits decimalDigit (b :: rest) ds ∧ value 10 0 ds = n ∧ n ≤ limit :=
      readUnder_eq_some_iff decimalDigit_lt (List.cons_ne_nil b rest)
    have hdecimal : decimal (limit / 10) (limit % 10) (b :: rest) =
        readUnder decimalDigit 10 limit 0 (b :: rest) := by
      rw [decimal]
      by_cases hb : isDigit b = true
      · rw [if_pos hb, decimalLoop_eq hlimit hb]
      · have hdigit : decimalDigit b = none := if_neg hb
        simp only [if_neg hb, readUnder, hdigit]
    rw [hdecimal, hread]
    constructor
    · rintro ⟨ds, hds, hv, hle⟩
      exact ⟨⟨by simp, ds, hds, hv⟩, hle⟩
    · rintro ⟨⟨-, ds, hds, hv⟩, hle⟩
      exact ⟨ds, hds, hv, hle⟩

/-! The result of the 64-bit overloads, apart from the variable. -/

def hexResult (s : List UInt8) : Option Nat := if s = [] then none else hexLoop 0 s

def unsignedResult (s : List UInt8) : Option Nat :=
  if isHex s then hexResult (s.drop 2)
  else decimal (uint64Max / 10) (uint64Max % 10) s

def signedResult (s : List UInt8) : Option Int :=
  if isHex s then (hexResult (s.drop 2)).map fun n : Nat => i64 n
  else if s.head? = some 45 then
    (decimal (2 ^ 63 / 10) (2 ^ 63 % 10) (s.drop 1)).map (signed false)
  else (decimal ((2 ^ 63 - 1) / 10) ((2 ^ 63 - 1) % 10) s).map (signed true)

theorem isHex_iff {s : List UInt8} :
    isHex s = true ↔ ∃ x rest, s = 48 :: x :: rest ∧ (x = 120 ∨ x = 88) := by
  constructor
  · intro h
    unfold isHex at h
    split at h
    · simp only [Bool.and_eq_true, Bool.or_eq_true, decide_eq_true_eq] at h
      exact ⟨_, _, by rw [h.1], h.2⟩
    · exact absurd h (by simp)
  · rintro ⟨x, rest, rfl, rfl | rfl⟩ <;> rfl

theorem hexResult_eq_some_iff {s : List UInt8} {n : Nat} (h : isHex s = true) :
    hexResult (s.drop 2) = some n ↔ Hex s n := by
  obtain ⟨x, rest, rfl, hx⟩ := isHex_iff.mp h
  change hexResult rest = some n ↔ _
  by_cases hrest : rest = []
  · rw [hexResult, if_pos hrest]
    constructor
    · intro h
      exact absurd h (by simp)
    · rintro ⟨_, _, heq, -, hne, -⟩
      simp only [List.cons.injEq, true_and] at heq
      exact absurd (heq.2.symm.trans hrest) hne
  · rw [hexResult, if_neg hrest, hexLoop_eq hrest,
      readUnder_eq_some_iff hexDigit_lt hrest]
    constructor
    · rintro ⟨ds, hds, hv⟩
      exact ⟨x, rest, rfl, hx, hrest, ds, hds, hv⟩
    · rintro ⟨_, _, heq, -, -, hds⟩
      simp only [List.cons.injEq, true_and] at heq
      rw [heq.2]
      exact hds

theorem not_decimal_of_isHex {s : List UInt8} (h : isHex s = true) (n : Nat) : ¬ Decimal s n := by
  obtain ⟨x, rest, rfl, hx⟩ := isHex_iff.mp h
  rintro ⟨-, ds, hds, -⟩
  have hnone : decimalDigit x = none := by
    rcases hx with rfl | rfl <;> rfl
  match ds with
  | [] => simp [Digits] at hds
  | [_] => simp [Digits] at hds
  | d :: d' :: ds =>
    have hdigit := (Digits.cons_iff.mp (Digits.cons_iff.mp hds).2).1
    exact absurd (hnone.symm.trans hdigit) (by simp)

theorem isHex_of_hex {s : List UInt8} {n : Nat} (h : Hex s n) : isHex s = true := by
  obtain ⟨x, rest, hs, hx, -⟩ := h
  exact isHex_iff.mpr ⟨x, rest, hs, hx⟩

theorem Hex.le {s : List UInt8} {n : Nat} (h : Hex s n) : n ≤ uint64Max := by
  obtain ⟨_, _, _, _, _, _, _, _, hle⟩ := h
  exact hle

theorem not_decimal_of_minus {s : List UInt8} (h : s.head? = some 45) (n : Nat) :
    ¬ Decimal s n := by
  rintro ⟨-, ds, hds, -⟩
  cases s with
  | nil => simp at h
  | cons b s =>
    obtain rfl : b = 45 := by simpa using h
    cases ds with
    | nil => simp [Digits] at hds
    | cons d ds =>
      have hdigit := (Digits.cons_iff.mp hds).1
      exact absurd (show decimalDigit 45 = none from rfl) (by rw [hdigit]; simp)

theorem unsignedResult_eq_some_iff {s : List UInt8} {n : Nat} :
    unsignedResult s = some n ↔ DenotesUnsigned s n ∧ n ≤ uint64Max := by
  unfold unsignedResult DenotesUnsigned
  by_cases hhex : isHex s = true
  · rw [if_pos hhex, hexResult_eq_some_iff hhex]
    constructor
    · intro h
      exact ⟨Or.inr h, h.le⟩
    · rintro ⟨h | h, -⟩
      · exact absurd h (not_decimal_of_isHex hhex n)
      · exact h
  · rw [if_neg hhex, decimal_eq_some_iff (by decide)]
    constructor
    · rintro ⟨h, hle⟩
      exact ⟨Or.inl h, hle⟩
    · rintro ⟨h | h, hle⟩
      · exact ⟨h, hle⟩
      · exact absurd (isHex_of_hex h) hhex

theorem signed_true {n : Nat} (h : n ≤ 2 ^ 63 - 1) : signed true n = n := by
  rw [signed, if_pos rfl, i64_natCast (by omega)]

theorem signed_false {n : Nat} (h : n ≤ 2 ^ 63) : signed false n = -n := by
  simp only [signed, Bool.false_eq_true, if_false, i64, u64]
  omega

theorem signedResult_eq_some_iff {s : List UInt8} {v : Int} :
    signedResult s = some v ↔ DenotesSigned s v ∧ longMin ≤ v ∧ v ≤ longMax := by
  unfold signedResult DenotesSigned
  by_cases hhex : isHex s = true
  · rw [if_pos hhex, Option.map_eq_some_iff]
    constructor
    · rintro ⟨n, hn, rfl⟩
      refine ⟨Or.inr (Or.inr ⟨n, (hexResult_eq_some_iff hhex).mp hn, rfl⟩), ?_⟩
      simp only [longMin, longMax, i64]
      omega
    · rintro ⟨⟨n, hn, -⟩ | ⟨rest, n, hs, -⟩ | ⟨n, hn, hv⟩, -⟩
      · exact absurd hn (not_decimal_of_isHex hhex n)
      · rw [hs] at hhex
        exact absurd (isHex_iff.mp hhex) (by simp)
      · exact ⟨n, (hexResult_eq_some_iff hhex).mpr hn, hv.symm⟩
  · rw [if_neg hhex]
    by_cases hminus : s.head? = some 45
    · obtain ⟨rest, rfl⟩ : ∃ rest, s = 45 :: rest := by
        cases s with
        | nil => simp at hminus
        | cons b rest => exact ⟨rest, by rw [Option.some.inj hminus]⟩
      rw [if_pos hminus, Option.map_eq_some_iff]
      change (∃ n, decimal (2 ^ 63 / 10) (2 ^ 63 % 10) rest = some n ∧ signed false n = v) ↔ _
      constructor
      · rintro ⟨n, hn, rfl⟩
        obtain ⟨hdec, hle⟩ := (decimal_eq_some_iff (by decide)).mp hn
        rw [signed_false hle]
        refine ⟨Or.inr (Or.inl ⟨rest, n, rfl, hdec, rfl⟩), ?_⟩
        simp only [longMin, longMax]
        omega
      · rintro ⟨⟨n, hn, -⟩ | ⟨rest', n, hs, hdec, rfl⟩ | ⟨n, hn, -⟩, hmin, -⟩
        · exact absurd hn (not_decimal_of_minus hminus n)
        · obtain rfl := (List.cons.inj hs).2
          have hle : n ≤ 2 ^ 63 := by
            simp only [longMin] at hmin
            omega
          exact ⟨n, (decimal_eq_some_iff (by decide)).mpr ⟨hdec, hle⟩, signed_false hle⟩
        · exact absurd (isHex_of_hex hn) hhex
    · rw [if_neg hminus, Option.map_eq_some_iff]
      constructor
      · rintro ⟨n, hn, rfl⟩
        obtain ⟨hdec, hle⟩ := (decimal_eq_some_iff (by decide)).mp hn
        rw [signed_true hle]
        refine ⟨Or.inl ⟨n, hdec, rfl⟩, ?_⟩
        simp only [longMin, longMax]
        omega
      · rintro ⟨⟨n, hdec, rfl⟩ | ⟨rest, n, rfl, -⟩ | ⟨n, hn, -⟩, -, hmax⟩
        · have hle : n ≤ 2 ^ 63 - 1 := by
            simp only [longMax] at hmax
            omega
          exact ⟨n, (decimal_eq_some_iff (by decide)).mpr ⟨hdec, hle⟩, signed_true hle⟩
        · exact absurd rfl hminus
        · exact absurd (isHex_of_hex hn) hhex

theorem convertStringHex_eq (s : CName) (value : Nat) :
    convertStringHex (some s) value = assign (hexResult s.1) value := by
  simp only [convertStringHex, hexResult]
  split <;> rfl

def resultOf {α : Type*} (result : List UInt8 → Option α) : Option CName → Option α
  | none => none
  | some s => if s.1 = [] then none else result s.1

theorem convertStringUInt64_eq (s : Option CName) (value : Nat) :
    convertStringUInt64 s value = assign (resultOf unsignedResult s) value := by
  cases s with
  | none => rfl
  | some s =>
    simp only [convertStringUInt64, resultOf, unsignedResult, convertStringHex_eq, skip]
    split
    · rfl
    · split <;> rfl

theorem convertStringInt64_eq (s : Option CName) (value : Int) :
    convertStringInt64 s value = assign (resultOf signedResult s) value := by
  cases s with
  | none => rfl
  | some s =>
    simp only [convertStringInt64, resultOf, signedResult, convertStringHex_eq, skip]
    split
    · rfl
    · split
      · cases hexResult (s.1.drop 2) <;> rfl
      · split <;> rfl

theorem convertUnsigned_eq (max : Nat) (s : Option CName) (value : Nat) :
    convertUnsigned max s value =
      assign ((resultOf unsignedResult s).filter (· ≤ max)) value := by
  rw [convertUnsigned, convertStringUInt64_eq]
  cases resultOf unsignedResult s with
  | none => rfl
  | some v =>
    by_cases hle : v ≤ max
    · simp [assign, Option.filter, hle]
    · simp [assign, Option.filter, hle, Nat.lt_of_not_le hle]

theorem convertSigned_eq (min max : Int) (s : Option CName) (value : Int) :
    convertSigned min max s value =
      assign ((resultOf signedResult s).filter fun v => min ≤ v ∧ v ≤ max) value := by
  rw [convertSigned, convertStringInt64_eq]
  cases resultOf signedResult s with
  | none => rfl
  | some v =>
    by_cases hrange : min ≤ v ∧ v ≤ max
    · have hout : ¬ (max < v ∨ v < min) := by omega
      simp [assign, Option.filter, hrange, hout]
    · have hout : max < v ∨ v < min := by omega
      simp [assign, Option.filter, hrange, hout]

/-! The overloads by their output type. -/

inductive UIntType
  | uint8
  | uint16
  | uint32
  | uint64

inductive IntType
  | int8
  | int16
  | int32
  | int64

def UIntType.max : UIntType → Nat
  | .uint8 => 2 ^ 8 - 1
  | .uint16 => 2 ^ 16 - 1
  | .uint32 => 2 ^ 32 - 1
  | .uint64 => 2 ^ 64 - 1

def IntType.bits : IntType → Nat
  | .int8 => 8
  | .int16 => 16
  | .int32 => 32
  | .int64 => 64

def UIntType.convertString : UIntType → Option CName → Nat → Bool × Nat
  | .uint8 => convertStringUInt8
  | .uint16 => convertStringUInt16
  | .uint32 => convertStringUInt32
  | .uint64 => convertStringUInt64

def IntType.convertString : IntType → Option CName → Int → Bool × Int
  | .int8 => convertStringInt8
  | .int16 => convertStringInt16
  | .int32 => convertStringInt32
  | .int64 => convertStringInt64

def IntType.min (t : IntType) : Int := -2 ^ (t.bits - 1)

def IntType.max (t : IntType) : Int := 2 ^ (t.bits - 1) - 1

theorem resultOf_eq_some_iff {α : Type*} {result : List UInt8 → Option α}
    {denoted : List UInt8 → α → Prop} (hresult : ∀ s v, result s = some v ↔ denoted s v)
    (hempty : ∀ v, ¬ denoted [] v) (s : Option CName) (v : α) :
    resultOf result s = some v ↔ ∃ str, s = some str ∧ denoted str.1 v := by
  cases s with
  | none => simp [resultOf]
  | some str =>
    simp only [resultOf, Option.some.injEq, exists_eq_left']
    split
    · next hs =>
      rw [hs]
      simpa using hempty v
    · exact hresult str.1 v

theorem not_unsigned_nil (n : Nat) : ¬ (DenotesUnsigned [] n ∧ n ≤ uint64Max) := by
  rintro ⟨h | h, -⟩
  · exact h.1 rfl
  · exact absurd (isHex_of_hex h) (by simp [isHex])

theorem not_signed_nil (v : Int) : ¬ (DenotesSigned [] v ∧ longMin ≤ v ∧ v ≤ longMax) := by
  rintro ⟨⟨n, h, -⟩ | ⟨rest, n, h, -⟩ | ⟨n, h, -⟩, -⟩
  · exact h.1 rfl
  · exact absurd h (by simp)
  · exact absurd (isHex_of_hex h) (by simp [isHex])

theorem convertUnsigned_exactly {max : Nat} (hmax : max ≤ uint64Max) (s : Option CName) :
    Exactly (convertUnsigned max s) fun n =>
      ∃ str, s = some str ∧ DenotesUnsigned str.1 n ∧ n ≤ max := by
  refine exactly_assign (convertUnsigned_eq max s) fun n => ?_
  rw [Option.filter_eq_some_iff, decide_eq_true_iff,
    resultOf_eq_some_iff (fun s n => unsignedResult_eq_some_iff (s := s) (n := n)) not_unsigned_nil]
  constructor
  · rintro ⟨⟨str, rfl, hden, -⟩, hle⟩
    exact ⟨str, rfl, hden, hle⟩
  · rintro ⟨str, rfl, hden, hle⟩
    exact ⟨⟨str, rfl, hden, Nat.le_trans hle hmax⟩, hle⟩

theorem convertSigned_exactly {min max : Int} (hmin : longMin ≤ min) (hmax : max ≤ longMax)
    (s : Option CName) :
    Exactly (convertSigned min max s) fun v =>
      ∃ str, s = some str ∧ DenotesSigned str.1 v ∧ min ≤ v ∧ v ≤ max := by
  refine exactly_assign (convertSigned_eq min max s) fun v => ?_
  rw [Option.filter_eq_some_iff, decide_eq_true_iff,
    resultOf_eq_some_iff (fun s v => signedResult_eq_some_iff (s := s) (v := v)) not_signed_nil]
  constructor
  · rintro ⟨⟨str, rfl, hden, -⟩, hrange⟩
    exact ⟨str, rfl, hden, hrange⟩
  · rintro ⟨str, rfl, hden, hl, hu⟩
    exact ⟨⟨str, rfl, hden, by omega⟩, hl, hu⟩

/-- Every overload accepts exactly the strings that denote a value of its type,
and writes its variable exactly then, with that value. -/
theorem convertString_exactly :
    (∀ (t : UIntType) (s : Option CName), Exactly (t.convertString s) fun n =>
      ∃ str, s = some str ∧ DenotesUnsigned str.1 n ∧ n ≤ t.max) ∧
    ∀ (t : IntType) (s : Option CName), Exactly (t.convertString s) fun v =>
      ∃ str, s = some str ∧ DenotesSigned str.1 v ∧ t.min ≤ v ∧ v ≤ t.max := by
  refine ⟨fun t s => ?_, fun t s => ?_⟩
  · cases t with
    | uint8 => exact convertUnsigned_exactly (by decide) s
    | uint16 => exact convertUnsigned_exactly (by decide) s
    | uint32 => exact convertUnsigned_exactly (by decide) s
    | uint64 =>
      exact exactly_assign (convertStringUInt64_eq s)
        (resultOf_eq_some_iff (fun s n => unsignedResult_eq_some_iff (s := s) (n := n))
          not_unsigned_nil s)
  · cases t with
    | int8 => exact convertSigned_exactly (by decide) (by decide) s
    | int16 => exact convertSigned_exactly (by decide) (by decide) s
    | int32 => exact convertSigned_exactly (by decide) (by decide) s
    | int64 =>
      exact exactly_assign (convertStringInt64_eq s)
        (resultOf_eq_some_iff (fun s v => signedResult_eq_some_iff (s := s) (v := v))
          not_signed_nil s)

end HiloUtils.ConvertString
