import HiloUtils.DumpNumber

/-! `DumpTime` of `DumpUtils.cpp`: seconds in a column of a given width, as
hours, minutes and seconds where these fit. A stream is what has been written
to it and the fill that pads the next field. -/

namespace HiloUtils.DumpUtils

open Word Json

def colon : UInt8 := 58

def zero : UInt8 := 48

structure Stream where
  text : List UInt8
  fill : UInt8

namespace Stream

/-- A field of a width; a width of 0 pads nothing. -/
def put (s : Stream) (w : Int) (field : List UInt8) : Stream :=
  { s with text := s.text ++ setw s.fill w field }

def setfill (s : Stream) (fill : UInt8) : Stream := { s with fill := fill }

def dumpNumber (rounds : Nat) (s : Stream) (n : Nat) (w : Int) : Option Stream :=
  let nw := numberW (i64 n)
  if nw ≤ w ∨ w < 4 then some (s.put w (decimalNat n))
  else (scale n (w - 1) rounds 1 nw).map fun (mult, nw) => s.put 0 (scaledText n (w - 1) mult nw)

def dumpTime (rounds : Nat) (s : Stream) (n : Nat) (w : Int) : Option Stream :=
  let connectedTimeH := n / 60 / 60
  let hw := numberW (i64 connectedTimeH)
  if w ≤ hw + 2 then s.dumpNumber rounds connectedTimeH w
  else if hw + 6 ≤ w then
    let connectedTimeM := n % (60 * 60) / 60
    let connectedTimeS := n % 60
    let s := (s.put (w - 6) (decimalNat connectedTimeH)).put 0 [colon]
    let s := ((s.setfill zero).put 2 (decimalNat connectedTimeM)).put 0 [colon]
    let s := (s.setfill zero).put 2 (decimalNat connectedTimeS)
    some (s.setfill space)
  else
    let connectedTimeM := n % (60 * 60) / 60
    let s := (s.put (w - 3) (decimalNat connectedTimeH)).put 0 [colon]
    let s := (s.setfill zero).put 2 (decimalNat connectedTimeM)
    some (s.setfill space)

end Stream

def sixtieth (tens ones : UInt8) : Option Nat :=
  if isDigit tens ∧ isDigit ones ∧ tens < 54 then
    some ((tens.toNat - 48) * 10 + (ones.toNat - 48))
  else none

/-- The seconds a text `h:mm` or `h:mm:ss` stands for. -/
def decodeTime (text : List UInt8) : Option Nat :=
  match readNat (text.dropWhile fun b => b == space) with
  | some (h, [c, m1, m2]) =>
    if c = colon then (sixtieth m1 m2).map fun m => h * 3600 + m * 60 else none
  | some (h, [c, m1, m2, d, s1, s2]) =>
    if c = colon ∧ d = colon then
      (sixtieth m1 m2).bind fun m => (sixtieth s1 s2).map fun s => h * 3600 + m * 60 + s
    else none
  | _ => none

theorem setw_zero (fill : UInt8) (field : List UInt8) : setw fill 0 field = field := by
  have hnone : (0 - (field.length : Int)).toNat = 0 := by omega
  rw [setw, hnone, List.replicate_zero, List.nil_append]

theorem Stream.dumpNumber_eq (rounds : Nat) (text : List UInt8) (n : Nat) (w : Int) :
    Stream.dumpNumber rounds ⟨text, space⟩ n w =
      (DumpUtils.dumpNumber rounds n w).map fun field => ⟨text ++ field, space⟩ := by
  rw [Stream.dumpNumber, DumpUtils.dumpNumber]
  split
  · rfl
  · simp only [Option.map_map, Stream.put, setw_zero]
    rfl

theorem numberW_hours {n : Nat} (hn : n < 2 ^ 64) :
    numberW (i64 (n / 3600 : Nat)) = width (n / 3600) :=
  numberW_of_lt (by omega)

theorem dumpNumber_length {n : Nat} (hn : n < 2 ^ 63) {w : Int} (hw : 4 ≤ w) {rounds : Nat}
    (hrounds : 7 ≤ rounds) :
    ∃ text, dumpNumber rounds n w = some text ∧ (text.length : Int) = w := by
  have hnw := numberW_of_lt hn
  rw [dumpNumber]
  by_cases hfits : numberW (i64 n) ≤ w
  · refine ⟨_, if_pos (Or.inl hfits), ?_⟩
    have hlen : ((decimalNat n).length : Int) = width n := rfl
    rw [setw_length]
    omega
  · obtain ⟨k, -, -, hscale, hlo, hhi⟩ :=
      scale_over (Nat.lt_trans hn (by decide)) hw hrounds (by omega)
    rw [if_neg (by omega), hscale]
    refine ⟨_, rfl, ?_⟩
    rw [scaledText_length hlo hhi]
    omega

theorem setw_two {m : Nat} (hm : m < 60) :
    setw zero 2 (decimalNat m) = [digit (m / 10), digit (m % 10)] := by
  by_cases hten : m < 10
  · have hzero : zero = digit (m / 10) := by
      rw [Nat.div_eq_of_lt hten]
      rfl
    rw [decimalNat_of_lt_ten hten, Nat.mod_eq_of_lt hten, ← hzero]
    rfl
  · have hdigits : Nat.digits 10 m = [m % 10, m / 10] := by
      rw [Nat.digits_def' (by decide) (by omega),
        Nat.digits_of_lt 10 (m / 10) (by omega) (by omega)]
    rw [decimalNat, if_neg (by omega), hdigits]
    rfl

theorem sixtieth_digits {m : Nat} (hm : m < 60) :
    sixtieth (digit (m / 10)) (digit (m % 10)) = some m := by
  have htens : m / 10 < 10 := by omega
  have hones : m % 10 < 10 := by omega
  have hsix : digit (m / 10) < 54 := by
    rw [UInt8.lt_iff_toNat_lt, digit_toNat htens]
    change _ < 54
    omega
  rw [sixtieth, if_pos ⟨isDigit_digit htens, isDigit_digit hones, hsix⟩, digit_toNat htens,
    digit_toNat hones]
  congr 1
  omega

theorem readNat_column (w : Int) (h : Nat) (rest : List UInt8) :
    readNat ((setw space w (decimalNat h) ++ colon :: rest).dropWhile fun b => b == space) =
      some (h, colon :: rest) := by
  have hrest : NoDigit (colon :: rest) := fun b hb => by
    rw [← Option.some_inj.mp hb]
    rfl
  rw [setw, List.append_assoc, dropWhile_spaces, readNat_decimalNat h hrest]

theorem decodeTime_minutes (w : Int) (h : Nat) {m : Nat} (hm : m < 60) :
    decodeTime (setw space w (decimalNat h) ++ colon :: setw zero 2 (decimalNat m)) =
      some (h * 3600 + m * 60) := by
  rw [setw_two hm, decodeTime, readNat_column]
  simp only [if_true, sixtieth_digits hm, Option.map_some]

theorem decodeTime_seconds (w : Int) (h : Nat) {m s : Nat} (hm : m < 60) (hs : s < 60) :
    decodeTime (setw space w (decimalNat h) ++
        colon :: (setw zero 2 (decimalNat m) ++ colon :: setw zero 2 (decimalNat s))) =
      some (h * 3600 + m * 60 + s) := by
  rw [setw_two hm, setw_two hs, decodeTime, List.cons_append, List.cons_append, List.nil_append,
    readNat_column]
  simp only [and_self, if_true, sixtieth_digits hm, sixtieth_digits hs, Option.bind_some,
    Option.map_some]

theorem column_length {w : Int} {h : Nat} (hw : width h ≤ w) :
    ((setw space w (decimalNat h)).length : Int) = w := by
  have hlen : ((decimalNat h).length : Int) = width h := rfl
  rw [setw_length]
  omega

/-- The most precise form that fits, exactly as wide as the column. -/
theorem dumpTime_fits {n : Nat} (hn : n < 2 ^ 64) {w : Int} (hw : 4 ≤ w) {rounds : Nat}
    (hrounds : 7 ≤ rounds) (before : List UInt8) :
    ∃ text, Stream.dumpTime rounds ⟨before, space⟩ n w = some ⟨before ++ text, space⟩ ∧
      (text.length : Int) = w ∧
      ((width (n / 3600) + 6 : Nat) ≤ w →
        text = setw space (w - 6) (decimalNat (n / 3600)) ++
            colon :: digit (n % 3600 / 60 / 10) :: digit (n % 3600 / 60 % 10) ::
              colon :: digit (n % 60 / 10) :: [digit (n % 60 % 10)] ∧
          decodeTime text = some n) ∧
      ((width (n / 3600) + 3 : Nat) ≤ w → w < (width (n / 3600) + 6 : Nat) →
        text = setw space (w - 3) (decimalNat (n / 3600)) ++
            colon :: digit (n % 3600 / 60 / 10) :: [digit (n % 3600 / 60 % 10)] ∧
          decodeTime text = some (n / 60 * 60)) ∧
      (w < (width (n / 3600) + 3 : Nat) → dumpNumber rounds (n / 3600) w = some text) := by
  have hhours : n / 60 / 60 = n / 3600 := Nat.div_div_eq_div_mul n 60 60
  have hm : n % 3600 / 60 < 60 := by omega
  have hs : n % 60 < 60 := by omega
  simp only [Stream.dumpTime, hhours, numberW_hours hn, Nat.reduceMul]
  by_cases hfallback : w ≤ width (n / 3600) + 2
  · obtain ⟨text, htext, hlen⟩ := dumpNumber_length (n := n / 3600) (by omega) hw hrounds
    refine ⟨text, ?_, hlen, fun h => by omega, fun h => by omega, fun _ => htext⟩
    rw [if_pos hfallback, Stream.dumpNumber_eq, htext]
    rfl
  rw [if_neg hfallback]
  by_cases hseconds : (width (n / 3600) : Int) + 6 ≤ w
  · have hcolumn := column_length (w := w - 6) (h := n / 3600) (by omega)
    have hdecode := decodeTime_seconds (w - 6) (n / 3600) hm hs
    have hsum : n / 3600 * 3600 + n % 3600 / 60 * 60 + n % 60 = n := by omega
    rw [setw_two hm, setw_two hs, hsum] at hdecode
    refine ⟨_, ?_, ?_, fun _ => ⟨rfl, hdecode⟩, fun _ h => by omega, fun h => by omega⟩
    · simp only [if_pos hseconds, Stream.put, Stream.setfill, setw_zero, setw_two hm, setw_two hs,
        List.append_assoc, List.cons_append, List.nil_append]
    · simp only [List.length_append, List.length_cons, List.length_nil]
      omega
  · have hcolumn := column_length (w := w - 3) (h := n / 3600) (by omega)
    have hdecode := decodeTime_minutes (w - 3) (n / 3600) hm
    have hsum : n / 3600 * 3600 + n % 3600 / 60 * 60 = n / 60 * 60 := by omega
    rw [setw_two hm, hsum] at hdecode
    refine ⟨_, ?_, ?_, fun h => by omega, fun _ _ => ⟨rfl, hdecode⟩, fun h => by omega⟩
    · simp only [if_neg hseconds, Stream.put, Stream.setfill, setw_zero, setw_two hm,
        List.append_assoc, List.cons_append, List.nil_append]
    · simp only [List.length_append, List.length_cons, List.length_nil]
      omega

theorem dumpTime_fits_padded :
    ∃ text, Stream.dumpTime 7 ⟨[], space⟩ 14399 8 = some ⟨[] ++ text, space⟩ ∧
      (text.length : Int) = 8 ∧
      ((width (14399 / 3600) + 6 : Nat) ≤ (8 : Int) →
        text = setw space (8 - 6) (decimalNat (14399 / 3600)) ++
            colon :: digit (14399 % 3600 / 60 / 10) :: digit (14399 % 3600 / 60 % 10) ::
              colon :: digit (14399 % 60 / 10) :: [digit (14399 % 60 % 10)] ∧
          decodeTime text = some 14399) ∧
      ((width (14399 / 3600) + 3 : Nat) ≤ (8 : Int) → 8 < ((width (14399 / 3600) + 6 : Nat) : Int) →
        text = setw space (8 - 3) (decimalNat (14399 / 3600)) ++
            colon :: digit (14399 % 3600 / 60 / 10) :: [digit (14399 % 3600 / 60 % 10)] ∧
          decodeTime text = some (14399 / 60 * 60)) ∧
      (8 < ((width (14399 / 3600) + 3 : Nat) : Int) →
        dumpNumber 7 (14399 / 3600) 8 = some text) :=
  dumpTime_fits (by decide) (by decide) (by decide) []

end HiloUtils.DumpUtils
