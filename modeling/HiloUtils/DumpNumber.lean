import HiloUtils.Word
import HiloUtils.JsonLexer

/-! `DumpNumber` of `DumpUtils.cpp`: a number in a column of a given width, cut
to thousands with a suffix when it is too wide. A scaling loop that is cut
short, or divides by zero, has no result. -/

namespace HiloUtils.DumpUtils

open Word Json

def space : UInt8 := 32

def dot : UInt8 := 46

theorem natAbs_tdiv_ten (n : Int) : (n.tdiv 10).natAbs = n.natAbs / 10 := Int.natAbs_tdiv n 10

/-- `while (n) { ++w; n /= 10; }` -/
def numberWLoop (n w : Int) : Int :=
  if n = 0 then w else numberWLoop (n.tdiv 10) (w + 1)
termination_by n.natAbs
decreasing_by
  rw [natAbs_tdiv_ten]
  omega

/-- The negation of the least word is itself. -/
def numberW (n : Int) : Int :=
  if n = 0 then 1
  else if n < 0 then numberWLoop (i64 (-n)) 1
  else numberWLoop n 0

def getSymbol (mul : Nat) : UInt8 :=
  if mul = 1000 then 107
  else if mul = 1000000 then 77
  else if mul = 1000000000 then 71
  else if mul = 1000000000000 then 84
  else if mul = 1000000000000000 then 80
  else if mul = 1000000000000000000 then 69
  else 63

def setw (fill : UInt8) (w : Int) (text : List UInt8) : List UInt8 :=
  List.replicate (w - text.length).toNat fill ++ text

/-- The loop of `DumpNumber` for so many rounds: the last `mult` and `nw`. -/
def scale (n : Nat) (w : Int) : Nat → Nat → Int → Option (Nat × Int)
  | 0, _, _ => none
  | rounds + 1, mult, nw =>
    if w < nw then
      let mult := u64 (mult * 1000)
      if mult = 0 then none else scale n w rounds mult (numberW (i64 (n / mult : Nat)))
    else some (mult, nw)

/-- The text of a scaled number; `w` is already one less. -/
def scaledText (n : Nat) (w : Int) (mult : Nat) (nw : Int) : List UInt8 :=
  (if w - nw = 1 then [space] else []) ++ decimalNat (n / mult) ++
    (if w - nw = 2 then dot :: decimalNat (n / (mult / 10) % 10) else []) ++ [getSymbol mult]

def dumpNumber (rounds n : Nat) (w : Int) : Option (List UInt8) :=
  let nw := numberW (i64 n)
  if nw ≤ w ∨ w < 4 then some (setw space w (decimalNat n))
  else (scale n (w - 1) rounds 1 nw).map fun (mult, nw) => scaledText n (w - 1) mult nw

def width (n : Nat) : Nat := (decimalNat n).length

def suffixValue (b : UInt8) : Option Nat :=
  if b = 107 then some (1000 ^ 1)
  else if b = 77 then some (1000 ^ 2)
  else if b = 71 then some (1000 ^ 3)
  else if b = 84 then some (1000 ^ 4)
  else if b = 80 then some (1000 ^ 5)
  else if b = 69 then some (1000 ^ 6)
  else none

/-- The value a dumped text denotes, and the unit of its last digit. -/
def denotes (text : List UInt8) : Option (Nat × Nat) :=
  match readNat (text.dropWhile fun b => b == space) with
  | none => none
  | some (m, []) => some (m, 1)
  | some (m, [symbol]) => (suffixValue symbol).map fun mult => (m * mult, mult)
  | some (m, [point, d, symbol]) =>
    if point = dot ∧ isDigit d then
      (suffixValue symbol).map fun mult =>
        (m * mult + (d.toNat - 48) * (mult / 10), mult / 10)
    else none
  | _ => none

theorem width_eq {n : Nat} (hn : n ≠ 0) : width n = (Nat.digits 10 n).length := by
  rw [width, decimalNat, if_neg hn, List.length_reverse, List.length_map]

theorem width_zero : width 0 = 1 := by
  rw [width, decimalNat, if_pos rfl]
  rfl

theorem width_le_iff (n : Nat) {k : Nat} (hk : 0 < k) : width n ≤ k ↔ n < 10 ^ k := by
  by_cases hn : n = 0
  · rw [hn, width_zero]
    exact ⟨fun _ => Nat.pow_pos (by decide), fun _ => hk⟩
  · rw [width_eq hn, Nat.digits_length_le_iff (by decide)]

theorem width_pos (n : Nat) : 0 < width n := List.length_pos_of_ne_nil (decimalNat_spec n).2.1

theorem width_div_thousand {n : Nat} (h : 3 < width n) : width (n / 1000) = width n - 3 := by
  have hiff : ∀ k, 0 < k → (width (n / 1000) ≤ k ↔ width n ≤ k + 3) := by
    intro k hk
    rw [width_le_iff _ hk, width_le_iff _ (by omega), Nat.div_lt_iff_lt_mul (by decide),
      Nat.pow_add]
  have hle := (hiff (width n - 3) (by omega)).mpr (by omega)
  have hge := (hiff (width (n / 1000)) (width_pos _)).mp (Nat.le_refl _)
  omega

theorem width_div_pow {n k : Nat} (h : 3 * k < width n) :
    width (n / 1000 ^ k) = width n - 3 * k := by
  induction k with
  | zero => rw [Nat.pow_zero, Nat.div_one]; omega
  | succ k ih =>
    have hprev := ih (by omega)
    rw [Nat.pow_succ, ← Nat.div_div_eq_div_mul, width_div_thousand (by omega), hprev]
    omega

theorem width_le_twenty {n : Nat} (hn : n < 2 ^ 64) : width n ≤ 20 :=
  (width_le_iff n (by decide)).mpr (by omega)

theorem numberWLoop_eq (n w : Int) : numberWLoop n w = w + (Nat.digits 10 n.natAbs).length := by
  induction n, w using numberWLoop.induct with
  | case1 w =>
    rw [numberWLoop, if_pos rfl]
    simp
  | case2 n w hn ih =>
    have habs : n.natAbs ≠ 0 := Int.natAbs_ne_zero.mpr hn
    rw [numberWLoop, if_neg hn, ih, natAbs_tdiv_ten,
      Nat.digits_def' (by decide) (Nat.pos_of_ne_zero habs), List.length_cons]
    omega

theorem numberW_natCast (n : Nat) : numberW n = width n := by
  rw [numberW]
  by_cases hn : n = 0
  · rw [if_pos (by omega), hn, width_zero]
    rfl
  · rw [if_neg (by omega), if_neg (by omega), numberWLoop_eq, Int.natAbs_natCast, width_eq hn]
    omega

theorem numberW_of_lt {n : Nat} (hn : n < 2 ^ 63) : numberW (i64 n) = width n := by
  rw [i64_natCast hn, numberW_natCast]

/-- From `2 ^ 63` on the digits of the negated word are counted, and a sign. -/
theorem numberW_of_ge {n : Nat} (hlo : 2 ^ 63 ≤ n) (hhi : n < 2 ^ 64) :
    numberW (i64 n) = 1 + width (2 ^ 64 - n) := by
  have hneg : i64 n = (n : Int) - 2 ^ 64 := by
    simp only [i64]
    omega
  have habs : (i64 (-((n : Int) - 2 ^ 64))).natAbs = 2 ^ 64 - n := by
    simp only [i64]
    omega
  rw [numberW, hneg, if_neg (by omega), if_pos (by omega), numberWLoop_eq, habs,
    width_eq (by omega)]

theorem le_width_of_lt_numberW {n : Nat} (hn : n < 2 ^ 64) {w : Int} (h : w < numberW (i64 n)) :
    w ≤ width n := by
  rcases Nat.lt_or_ge n (2 ^ 63) with hlo | hlo
  · rw [numberW_of_lt hlo] at h
    omega
  · rw [numberW_of_ge hlo hn] at h
    have hneg : width (2 ^ 64 - n) ≤ 19 := (width_le_iff _ (by decide)).mpr (by omega)
    have hwide : ¬ width n ≤ 18 := fun hle => by
      have := (width_le_iff n (by decide)).mp hle
      omega
    omega

theorem pow_thousand_lt {k : Nat} (hk : k ≤ 6) : 1000 ^ k < 2 ^ 64 :=
  Nat.lt_of_le_of_lt (Nat.pow_le_pow_right (by decide) hk) (by decide)

/-- A number wider than the column after `j` rounds is cut by three digits a
round until at most two places are left over. -/
theorem scale_spec {n : Nat} (hn : n < 2 ^ 64) {w : Int} (hw : 3 ≤ w) {rounds j : Nat}
    (hrounds : 7 ≤ rounds + j) {nw : Int} (hnw : w < nw) (hwide : w + 3 * j < width n) :
    ∃ k, 0 < k ∧ k ≤ 6 ∧
      scale n w rounds (1000 ^ j) nw = some (1000 ^ k, (width (n / 1000 ^ k) : Int)) ∧
      w - 2 ≤ width (n / 1000 ^ k) ∧ (width (n / 1000 ^ k) : Int) ≤ w := by
  have htwenty := width_le_twenty hn
  induction rounds generalizing j nw with
  | zero => omega
  | succ rounds ih =>
    have hj : j + 1 ≤ 6 := by omega
    have hmult : u64 (1000 ^ j * 1000) = 1000 ^ (j + 1) := by
      rw [← Nat.pow_succ, u64_of_lt (pow_thousand_lt hj)]
    have hpos : 1000 ^ (j + 1) ≠ 0 := Nat.ne_of_gt (Nat.pow_pos (by decide))
    have hquot : n / 1000 ^ (j + 1) < 2 ^ 63 := by
      have hle : n / 1000 ^ (j + 1) ≤ n / 1000 ^ 1 :=
        Nat.div_le_div_left (Nat.pow_le_pow_right (by decide) (by omega)) (by decide)
      omega
    have hcut : width (n / 1000 ^ (j + 1)) = width n - 3 * (j + 1) := width_div_pow (by omega)
    have hround : scale n w (rounds + 1) (1000 ^ j) nw =
        scale n w rounds (1000 ^ (j + 1)) (width (n / 1000 ^ (j + 1))) := by
      rw [scale, if_pos hnw, hmult, if_neg hpos, numberW_of_lt hquot]
    rw [hround]
    by_cases hmore : w < (width (n / 1000 ^ (j + 1)) : Int)
    · exact ih (by omega) hmore (by omega)
    · obtain ⟨r, rfl⟩ : ∃ r, rounds = r + 1 := ⟨rounds - 1, by omega⟩
      exact ⟨j + 1, by omega, hj, by rw [scale, if_neg hmore], by omega, by omega⟩

theorem scale_over {n : Nat} (hn : n < 2 ^ 64) {w : Int} (hw : 4 ≤ w) {rounds : Nat}
    (hrounds : 7 ≤ rounds) (hover : w < numberW (i64 n)) :
    ∃ k, 0 < k ∧ k ≤ 6 ∧
      scale n (w - 1) rounds 1 (numberW (i64 n)) = some (1000 ^ k, (width (n / 1000 ^ k) : Int)) ∧
      w - 1 - 2 ≤ width (n / 1000 ^ k) ∧ (width (n / 1000 ^ k) : Int) ≤ w - 1 := by
  have hwide := le_width_of_lt_numberW hn hover
  have hfirst : w - 1 < numberW (i64 n) := by omega
  rw [← Nat.pow_zero 1000]
  exact scale_spec hn (by omega) hrounds hfirst (by omega)

theorem decimalNat_of_lt_ten {d : Nat} (hd : d < 10) : decimalNat d = [digit d] := by
  rw [decimalNat]
  split
  · next h0 => rw [h0]
  · next h0 => rw [Nat.digits_of_lt 10 d h0 hd, List.map_singleton, List.reverse_singleton]

theorem scaledText_length {n : Nat} {w : Int} {mult : Nat}
    (hlo : w - 2 ≤ width (n / mult)) (hhi : (width (n / mult) : Int) ≤ w) :
    ((scaledText n w mult (width (n / mult))).length : Int) = w + 1 := by
  have hdigit := decimalNat_of_lt_ten (Nat.mod_lt (n / (mult / 10)) (show 0 < 10 by decide))
  have hlen : (decimalNat (n / mult)).length = width (n / mult) := rfl
  rw [scaledText, hdigit]
  simp only [List.length_append, hlen, List.length_singleton]
  by_cases hone : w - width (n / mult) = 1
  · rw [if_pos hone, if_neg (by omega), List.length_singleton, List.length_nil]
    omega
  · by_cases htwo : w - width (n / mult) = 2
    · rw [if_neg hone, if_pos htwo, List.length_cons, List.length_singleton, List.length_nil]
      omega
    · rw [if_neg hone, if_neg htwo, List.length_nil]
      omega

theorem setw_length {fill : UInt8} {w : Int} {text : List UInt8} :
    ((setw fill w text).length : Int) = max w text.length := by
  rw [setw, List.length_append, List.length_replicate]
  omega

/-- The column is filled exactly, unless the number reads as negative and its
negation alone would fit. -/
theorem dumpNumber_fills_iff {n : Nat} (hn : n < 2 ^ 64) {w : Int} (hw : 4 ≤ w) {rounds : Nat}
    (hrounds : 7 ≤ rounds) :
    (∃ text, dumpNumber rounds n w = some text ∧ (text.length : Int) = w) ↔
      ¬ (2 ^ 63 ≤ n ∧ (1 + width (2 ^ 64 - n) : Nat) ≤ w ∧ w < width n) := by
  rw [dumpNumber]
  by_cases hfits : numberW (i64 n) ≤ w
  · have hlen : ((setw space w (decimalNat n)).length : Int) = max w (width n) := setw_length
    have hiff : (∃ text, some (setw space w (decimalNat n)) = some text ∧
        (text.length : Int) = w) ↔ (width n : Int) ≤ w := by
      rw [← max_eq_left_iff, ← hlen]
      exact ⟨fun ⟨_, htext, heq⟩ => by rwa [Option.some_inj.mp htext], fun heq => ⟨_, rfl, heq⟩⟩
    rw [if_pos (Or.inl hfits), hiff]
    rcases Nat.lt_or_ge n (2 ^ 63) with hlo | hlo
    · rw [numberW_of_lt hlo] at hfits
      omega
    · rw [numberW_of_ge hlo hn] at hfits
      omega
  · have hover : w < numberW (i64 n) := by omega
    have hwide := le_width_of_lt_numberW hn hover
    obtain ⟨k, -, -, hscale, hlo, hhi⟩ := scale_over hn hw hrounds hover
    have hlen := scaledText_length hlo hhi
    rw [if_neg (by omega), hscale]
    refine ⟨fun _ => ?_, fun _ => ⟨_, rfl, by rw [hlen]; omega⟩⟩
    rintro ⟨hge, hnarrow, -⟩
    rw [numberW_of_ge hge hn] at hover
    omega

theorem dumpNumber_fills_iff_wide :
    (∃ text, dumpNumber 7 123456789 5 = some text ∧ (text.length : Int) = 5) ↔
      ¬ (2 ^ 63 ≤ 123456789 ∧ (1 + width (2 ^ 64 - 123456789) : Nat) ≤ (5 : Int) ∧
        5 < (width 123456789 : Int)) :=
  dumpNumber_fills_iff (by decide) (by decide) (by decide)

/-- `2 ^ 64 - 1` reads as -1 and is put out with all its digits. -/
theorem dumpNumber_minus_one_overflows :
    ¬ ∀ n : Nat, n < 2 ^ 64 → ∀ w : Int, 4 ≤ w → ∃ rounds text,
      dumpNumber rounds n w = some text ∧ (text.length : Int) = w := by
  intro hall
  obtain ⟨rounds, text, htext, hlen⟩ := hall (2 ^ 64 - 1) (by decide) 4 (by decide)
  have hone : width (2 ^ 64 - (2 ^ 64 - 1)) ≤ 1 := (width_le_iff _ (by decide)).mpr (by decide)
  have hfits : numberW (i64 (2 ^ 64 - 1 : Nat)) ≤ 4 := by
    rw [numberW_of_ge (by decide) (by decide)]
    omega
  have hwide : ¬ width (2 ^ 64 - 1) ≤ 4 := fun hle =>
    absurd ((width_le_iff _ (by decide)).mp hle) (by decide)
  have hmax : ((setw space 4 (decimalNat (2 ^ 64 - 1))).length : Int) =
      max 4 (width (2 ^ 64 - 1)) := setw_length
  rw [dumpNumber, if_pos (Or.inl hfits)] at htext
  rw [← Option.some_inj.mp htext, hmax] at hlen
  omega

theorem dropWhile_spaces (m : Nat) (n : Nat) (rest : List UInt8) :
    (List.replicate m space ++ (decimalNat n ++ rest)).dropWhile (fun b => b == space) =
      decimalNat n ++ rest := by
  obtain ⟨hdigits, hne, -⟩ := decimalNat_spec n
  obtain ⟨b, ds, hds⟩ := List.exists_cons_of_ne_nil hne
  have hb : (b == space) = false := by
    have hdigit := hdigits b (by rw [hds]; exact List.mem_cons_self)
    rw [beq_eq_false_iff_ne]
    rintro rfl
    exact absurd hdigit (by decide)
  induction m with
  | zero =>
    rw [hds, List.replicate_zero, List.nil_append, List.cons_append, List.dropWhile_cons, hb]
    rfl
  | succ m ih => exact ih

theorem denotes_unscaled (m n : Nat) :
    denotes (List.replicate m space ++ decimalNat n) = some (n, 1) := by
  have hdrop := dropWhile_spaces m n []
  have hread : readNat (decimalNat n ++ []) = some (n, []) :=
    readNat_decimalNat n fun b hb => by cases hb
  rw [List.append_nil] at hdrop
  rw [List.append_nil] at hread
  rw [denotes, hdrop, hread]

theorem denotes_scaled (m n : Nat) {symbol : UInt8} (hsymbol : isDigit symbol = false) :
    denotes (List.replicate m space ++ (decimalNat n ++ [symbol])) =
      (suffixValue symbol).map fun mult => (n * mult, mult) := by
  have hrest : NoDigit [symbol] := fun b hb => by
    obtain rfl := Option.some_inj.mp hb
    exact hsymbol
  rw [denotes, dropWhile_spaces, readNat_decimalNat n hrest]

theorem denotes_pointed (n : Nat) {d : Nat} (hd : d < 10) (symbol : UInt8) :
    denotes (decimalNat n ++ [dot, digit d, symbol]) =
      (suffixValue symbol).map fun mult => (n * mult + d * (mult / 10), mult / 10) := by
  have hrest : NoDigit [dot, digit d, symbol] := fun b hb => by
    obtain rfl := Option.some_inj.mp hb
    rfl
  have hdrop := dropWhile_spaces 0 n [dot, digit d, symbol]
  rw [List.replicate_zero, List.nil_append] at hdrop
  rw [denotes, hdrop, readNat_decimalNat n hrest]
  simp only [isDigit_digit hd, digit_toNat hd, Nat.add_sub_cancel_left, and_self, if_true]

theorem getSymbol_pow {k : Nat} (hpos : 0 < k) (hk : k ≤ 6) :
    suffixValue (getSymbol (1000 ^ k)) = some (1000 ^ k) ∧
      isDigit (getSymbol (1000 ^ k)) = false ∧ getSymbol (1000 ^ k) ≠ 63 := by
  have hall : ∀ k < 7, 0 < k → suffixValue (getSymbol (1000 ^ k)) = some (1000 ^ k) ∧
      isDigit (getSymbol (1000 ^ k)) = false ∧ getSymbol (1000 ^ k) ≠ 63 := by
    decide
  exact hall k (by omega) hpos

theorem div_ten_mul (n tenth : Nat) :
    n / (tenth * 10) * (tenth * 10) + n / tenth % 10 * tenth = n / tenth * tenth := by
  have hsplit : 10 * (n / (tenth * 10)) + n / tenth % 10 = n / tenth := by
    rw [← Nat.div_div_eq_div_mul, Nat.div_add_mod]
  calc n / (tenth * 10) * (tenth * 10) + n / tenth % 10 * tenth
      = (10 * (n / (tenth * 10)) + n / tenth % 10) * tenth := by
        rw [Nat.add_mul, Nat.mul_comm 10 (n / (tenth * 10)), Nat.mul_assoc, Nat.mul_comm 10 tenth]
    _ = n / tenth * tenth := by rw [hsplit]

theorem div_mul_bounds (n : Nat) {unit : Nat} (hunit : 0 < unit) :
    n / unit * unit ≤ n ∧ n < n / unit * unit + unit := by
  have hquot := Nat.div_add_mod n unit
  have hmod := Nat.mod_lt n hunit
  rw [Nat.mul_comm] at hquot
  omega

theorem scaledText_denotes (n : Nat) (w : Int) {k : Nat} (hpos : 0 < k) (hk : k ≤ 6) (nw : Int) :
    ∃ q u, denotes (scaledText n w (1000 ^ k) nw) = some (q, u) ∧ q ≤ n ∧ n < q + u := by
  obtain ⟨hsuffix, hsymbol, -⟩ := getSymbol_pow hpos hk
  have hunit : 0 < 1000 ^ k := Nat.pow_pos (by decide)
  by_cases htwo : w - nw = 2
  · -- one more digit, from the quotient by a tenth
    have htenth : 1000 ^ k = 1000 ^ k / 10 * 10 := by
      obtain ⟨j, rfl⟩ : ∃ j, k = j + 1 := ⟨k - 1, by omega⟩
      rw [Nat.pow_succ]
      omega
    have hd : n / (1000 ^ k / 10) % 10 < 10 := Nat.mod_lt _ (by decide)
    have htext : scaledText n w (1000 ^ k) nw = decimalNat (n / 1000 ^ k) ++
        [dot, digit (n / (1000 ^ k / 10) % 10), getSymbol (1000 ^ k)] := by
      rw [scaledText, if_neg (by omega), if_pos htwo, decimalNat_of_lt_ten hd]
      simp
    have hvalue : n / 1000 ^ k * 1000 ^ k + n / (1000 ^ k / 10) % 10 * (1000 ^ k / 10) =
        n / (1000 ^ k / 10) * (1000 ^ k / 10) := by
      have hput := div_ten_mul n (1000 ^ k / 10)
      rwa [← htenth] at hput
    rw [htext, denotes_pointed _ hd, hsuffix, Option.map_some, hvalue]
    exact ⟨_, _, rfl, div_mul_bounds n (by omega)⟩
  · have htext : ∃ m, scaledText n w (1000 ^ k) nw =
        List.replicate m space ++ (decimalNat (n / 1000 ^ k) ++ [getSymbol (1000 ^ k)]) := by
      rw [scaledText, if_neg htwo]
      by_cases hone : w - nw = 1
      · exact ⟨1, by simp [hone]⟩
      · exact ⟨0, by simp [hone]⟩
    obtain ⟨m, htext⟩ := htext
    rw [htext, denotes_scaled _ _ hsymbol, hsuffix, Option.map_some]
    exact ⟨_, _, rfl, div_mul_bounds n hunit⟩

/-- The loop ends with a power of 1000 that has a suffix, and the text is the
number cut off after its last digit. -/
theorem dumpNumber_truncates {n : Nat} (hn : n < 2 ^ 64) {w : Int} (hw : 4 ≤ w) {rounds : Nat}
    (hrounds : 7 ≤ rounds) :
    (∃ text q u, dumpNumber rounds n w = some text ∧ denotes text = some (q, u) ∧
        q ≤ n ∧ n < q + u ∧ (numberW (i64 n) ≤ w → q = n ∧ u = 1)) ∧
      (w < numberW (i64 n) → ∃ k nw,
        scale n (w - 1) rounds 1 (numberW (i64 n)) = some (1000 ^ k, nw) ∧ k ≤ 6 ∧
          getSymbol (1000 ^ k) ≠ 63) := by
  constructor
  · rw [dumpNumber]
    by_cases hfits : numberW (i64 n) ≤ w
    · rw [if_pos (Or.inl hfits)]
      exact ⟨_, n, 1, rfl, denotes_unscaled _ n, Nat.le_refl n, Nat.lt_succ_self n,
        fun _ => ⟨rfl, rfl⟩⟩
    · obtain ⟨k, hpos, hk, hscale, -⟩ := scale_over hn hw hrounds (by omega)
      obtain ⟨q, u, hdenotes, hle, hlt⟩ :=
        scaledText_denotes n (w - 1) hpos hk (width (n / 1000 ^ k))
      rw [if_neg (by omega), hscale]
      exact ⟨_, q, u, rfl, hdenotes, hle, hlt, fun h => absurd h hfits⟩
  · intro hover
    obtain ⟨k, hpos, hk, hscale, -⟩ := scale_over hn hw hrounds hover
    exact ⟨k, _, hscale, hk, (getSymbol_pow hpos hk).2.2⟩

theorem dumpNumber_truncates_wide :
    (∃ text q u, dumpNumber 7 123456789 5 = some text ∧ denotes text = some (q, u) ∧
        q ≤ 123456789 ∧ 123456789 < q + u) ∧
      ∃ k nw, scale 123456789 (5 - 1) 7 1 (numberW (i64 (123456789 : Nat))) = some (1000 ^ k, nw) ∧
        k ≤ 6 ∧ getSymbol (1000 ^ k) ≠ 63 := by
  obtain ⟨⟨text, q, u, htext, hdenotes, hle, hlt, -⟩, hscaled⟩ :=
    dumpNumber_truncates (n := 123456789) (w := 5) (by decide) (by decide) (Nat.le_refl 7)
  have hwide := width_le_iff 123456789 (k := 5) (by decide)
  have hover : (5 : Int) < numberW (i64 (123456789 : Nat)) := by
    rw [numberW_of_lt (by decide)]
    omega
  exact ⟨⟨text, q, u, htext, hdenotes, hle, hlt⟩, hscaled hover⟩

end HiloUtils.DumpUtils
