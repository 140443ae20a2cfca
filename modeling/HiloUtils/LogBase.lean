import HiloUtils.CString
import HiloUtils.Word
import Mathlib.Data.List.DropRight

/-! `log_write_str` of `LogBase.cpp`: one message to the log storage, to the
console and to syslog. The storage gets it by its length, the others by a field
width in the format. -/

namespace HiloUtils.LogBase

open Word CString

def bytes (s : String) : List UInt8 := s.toUTF8.toList

def newline : UInt8 := 10

def logErrno : Nat := 16

def logLevelMask : Nat := 15

def logLevelToName : Nat → List UInt8
  | 2 => bytes "CRIT"
  | 18 => bytes "CRIT"
  | 3 => bytes "ERRR"
  | 19 => bytes "ERRR"
  | 4 => bytes "WARN"
  | 20 => bytes "WARN"
  | 5 => bytes "NOTI"
  | 6 => bytes "INFO"
  | 7 => bytes "DEBG"
  | 8 => bytes "PARN"
  | 0 => bytes "DISABLED"
  | _ => bytes "???"

def logLevelToColor : Nat → List UInt8
  | 0 => bytes "\x1B[1;33;41m"
  | 2 => bytes "\x1B[1;33;41m"
  | 18 => bytes "\x1B[1;33;41m"
  | 3 => bytes "\x1B[1;31m"
  | 19 => bytes "\x1B[1;31m"
  | 4 => bytes "\x1B[1;33m"
  | 20 => bytes "\x1B[1;33m"
  | 5 => bytes "\x1B[1;36m"
  | 6 => bytes "\x1B[1;32m"
  | 7 => bytes "\x1B[1;34m"
  | 8 => bytes "\x1B[0;37m"
  | _ => []

def syslogLevel (level : Nat) : Int :=
  match level &&& logLevelMask with
  | 7 => 7
  | 6 => 6
  | 5 => 5
  | 4 => 4
  | 3 => 3
  | 2 => 2
  | _ => -1

structure LogOptions where
  logLevel : Nat
  logLevelToSyslog : Nat
  logToConsole : Bool
  logNoColored : Bool

def isLogEnabled (o : LogOptions) (level : Nat) : Prop := level &&& logLevelMask ≤ o.logLevel

instance (o : LogOptions) (level : Nat) : Decidable (isLogEnabled o level) :=
  inferInstanceAs (Decidable (_ ≤ _))

/-- `%*s`: a width and no precision. -/
def field (width : Int) (string : List UInt8) : List UInt8 :=
  if 0 ≤ width then List.replicate (width.toNat - string.length) 32 ++ string
  else string ++ List.replicate (width.natAbs - string.length) 32

def consoleLine (o : LogOptions) (level : Nat) (text : List UInt8) : List UInt8 :=
  if o.logNoColored then logLevelToName level ++ bytes " | " ++ text ++ bytes "\n"
  else
    logLevelToColor level ++ logLevelToName level ++ bytes " | " ++ text ++ bytes "\x1B[0m" ++
      bytes "\n"

/-- `while (len > 0 && string[len - 1] == '\n') --len;` -/
def trimLoop (string : List UInt8) : Nat → Nat
  | 0 => 0
  | len + 1 => if string[len]? = some newline then trimLoop string len else len + 1

def trim (string : List UInt8) (len : Int) : Int :=
  if 0 < len then trimLoop string len.toNat else len

/-- `if (len < 0) len = strlen(string);` -/
def givenLength (string : CName) (len : Int) : Int :=
  if len < 0 then i32 (strlen string) else len

/-- The text of the record; a length outside the string has none. -/
def logWriteRecord (message : CName) (len : Int) : Option (List UInt8) :=
  let len := givenLength message len
  if 0 ≤ len ∧ len ≤ strlen message then some (message.1.take len.toNat) else none

structure Written where
  counter : Nat
  record : Option (List UInt8)
  console : Option (List UInt8)
  syslog : Option (Int × List UInt8)

/-- The calls of `log_write_str` once the length is trimmed and the level masked. -/
def handOver (o : LogOptions) (level : Nat) (string : CName) (len : Int) : Written where
  counter := level
  record := logWriteRecord string len
  console := if o.logToConsole then some (consoleLine o level (field len string.1)) else none
  syslog :=
    if level ≤ o.logLevelToSyslog then some (syslogLevel level, field len string.1) else none

def logWriteStr (o : LogOptions) (level : Nat) (string : CName) (len : Int) : Option Written :=
  if isLogEnabled o level then
    some (handOver o (level &&& logLevelMask) string (trim string.1 (givenLength string len)))
  else none

/-- The first `len` bytes, or all, without the newlines at their end. -/
def messageText (string : CName) (len : Int) : List UInt8 :=
  (if len < 0 then string.1 else string.1.take len.toNat).rdropWhile fun b => b == newline

/-- Every sink that is on gets the same text. -/
def SinksAgree (string : CName) (len : Int) : Prop :=
  ∀ o level written, logWriteStr o level string len = some written →
    written.record = some (messageText string len) ∧
      (∀ line, written.console = some line →
        line = consoleLine o (level &&& logLevelMask) (messageText string len)) ∧
      ∀ priority text, written.syslog = some (priority, text) → text = messageText string len

/-- The string has no byte behind the length and does not end in a newline. -/
def Whole (string : CName) (len : Int) : Prop :=
  (len < 0 ∧ strlen string < 2 ^ 31 ∨ len = strlen string) ∧ string.1.getLast? ≠ some newline

theorem trimLoop_le (string : List UInt8) (len : Nat) : trimLoop string len ≤ len := by
  induction len with
  | zero => exact Nat.le_refl 0
  | succ len ih =>
    rw [trimLoop]
    split_ifs
    · exact Nat.le_succ_of_le ih
    · exact Nat.le_refl _

theorem take_trimLoop {string : List UInt8} {len : Nat} (h : len ≤ string.length) :
    string.take (trimLoop string len) = (string.take len).rdropWhile fun b => b == newline := by
  induction len with
  | zero => rfl
  | succ len ih =>
    have hget : string[len]? = some (string[len]) := List.getElem?_eq_getElem h
    have hlast : string[len]? = some newline ↔ (string[len] == newline) = true := by
      rw [hget, Option.some_inj, beq_iff_eq]
    rw [trimLoop, List.take_succ_eq_append_getElem h, List.rdropWhile_concat]
    by_cases hnewline : string[len]? = some newline
    · rw [if_pos hnewline, if_pos (hlast.mp hnewline), ih (Nat.le_of_lt h)]
    · rw [if_neg hnewline, if_neg (fun hb => hnewline (hlast.mpr hb)),
        List.take_succ_eq_append_getElem h]

theorem field_length (width : Int) (string : List UInt8) :
    (field width string).length = max width.natAbs string.length := by
  rw [field]
  split_ifs
  · rw [List.length_append, List.length_replicate]
    omega
  · rw [List.length_append, List.length_replicate]
    omega

theorem field_eq {width : Int} {string : List UInt8} (h : width.natAbs ≤ string.length) :
    field width string = string := by
  have hnone : width.natAbs - string.length = 0 := Nat.sub_eq_zero_of_le h
  have hnone' : width.toNat - string.length = 0 := by omega
  rw [field, hnone, hnone', List.replicate_zero, List.append_nil, List.nil_append, ite_self]

theorem messageText_length_le (string : CName) (len : Int) :
    (messageText string len).length ≤ strlen string := by
  refine Nat.le_trans (List.rdropWhile_prefix (p := fun b => b == newline) _).length_le ?_
  split_ifs
  · exact Nat.le_refl _
  · exact List.length_take_le' _ _

theorem record_eq {string : CName} {len : Int} (hlen : len ≤ strlen string)
    (hint : len < 0 → strlen string < 2 ^ 31) :
    ∃ n : Nat, trim string.1 (givenLength string len) = n ∧ n ≤ strlen string ∧
      string.1.take n = messageText string len ∧
      logWriteRecord string n = some (messageText string len) := by
  obtain ⟨given, hgiven, hle, htext⟩ : ∃ given : Nat, givenLength string len = given ∧
      given ≤ strlen string ∧
      (string.1.take given).rdropWhile (fun b => b == newline) = messageText string len := by
    by_cases hneg : len < 0
    · have hsmall := hint hneg
      refine ⟨strlen string, ?_, Nat.le_refl _, ?_⟩
      · rw [givenLength, if_pos hneg]
        simp only [i32]
        omega
      · rw [messageText, if_pos hneg, strlen, List.take_length]
    · refine ⟨len.toNat, ?_, by omega, by rw [messageText, if_neg hneg]⟩
      rw [givenLength, if_neg hneg]
      omega
  have htrim : trim string.1 (givenLength string len) = trimLoop string.1 given := by
    rw [hgiven, trim]
    split_ifs with hpos
    · rfl
    · obtain rfl : given = 0 := by omega
      rfl
  have hn := Nat.le_trans (trimLoop_le string.1 given) hle
  have htake : string.1.take (trimLoop string.1 given) = messageText string len := by
    rw [take_trimLoop hle, htext]
  have hgiven' : givenLength string (trimLoop string.1 given) = trimLoop string.1 given :=
    if_neg (by omega)
  refine ⟨_, htrim, hn, htake, ?_⟩
  rw [logWriteRecord, hgiven', if_pos (by omega), Int.toNat_natCast, htake]

theorem trim_le (string : List UInt8) (len : Int) : trim string len ≤ len := by
  rw [trim]
  split_ifs
  · have hle := trimLoop_le string len.toNat
    omega
  · exact Int.le_refl len

theorem record_length {string : CName} {len : Int} {text : List UInt8}
    (h : logWriteRecord string len = some text) :
    (text.length : Int) ≤ givenLength string len := by
  rw [logWriteRecord] at h
  split_ifs at h with hinside
  rw [← Option.some_inj.mp h]
  have hle := List.length_take_le (givenLength string len).toNat string.1
  omega

def allSinks : LogOptions where
  logLevel := 6
  logLevelToSyslog := 6
  logToConsole := true
  logNoColored := true

theorem messageText_eq_iff {string : CName} {len : Int} (hlen : len ≤ strlen string) :
    messageText string len = string.1 ↔
      (len < 0 ∨ len = strlen string) ∧ string.1.getLast? ≠ some newline := by
  have hself : (string.1.rdropWhile fun b => b == newline) = string.1 ↔
      string.1.getLast? ≠ some newline := by
    rw [List.rdropWhile_eq_self_iff]
    constructor
    · intro h hlast
      have hne : string.1 ≠ [] := fun hnil => by rw [hnil] at hlast; cases hlast
      rw [List.getLast?_eq_some_getLast hne, Option.some_inj] at hlast
      exact h hne (beq_iff_eq.mpr hlast)
    · intro h hne hlast
      exact h (by rw [List.getLast?_eq_some_getLast hne, beq_iff_eq.mp hlast])
  by_cases hneg : len < 0
  · rw [messageText, if_pos hneg, hself]
    exact ⟨fun h => ⟨Or.inl hneg, h⟩, fun h => h.2⟩
  · by_cases hall : len = strlen string
    · have htake : string.1.take len.toNat = string.1 := by
        rw [hall, Int.toNat_natCast, strlen, List.take_length]
      rw [messageText, if_neg hneg, htake, hself]
      exact ⟨fun h => ⟨Or.inr hall, h⟩, fun h => h.2⟩
    · constructor
      · intro h
        have hle := (List.rdropWhile_prefix (p := fun b => b == newline)
          (string.1.take len.toNat)).length_le
        have htake := List.length_take_le len.toNat string.1
        have hbytes := congrArg List.length h
        rw [messageText, if_neg hneg] at hbytes
        have hstrlen : strlen string = string.1.length := rfl
        omega
      · rintro ⟨hneg' | hall', -⟩
        · exact absurd hneg' hneg
        · exact absurd hall' hall

theorem sinksAgree_of_whole {string : CName} {len : Int} (hlen : len ≤ strlen string)
    (h : Whole string len) : SinksAgree string len := by
  have hint : len < 0 → strlen string < 2 ^ 31 := by
    obtain ⟨⟨-, hsmall⟩ | hall, -⟩ := h
    · exact fun _ => hsmall
    · omega
  have htext : messageText string len = string.1 :=
    (messageText_eq_iff hlen).mpr ⟨h.1.imp_left And.left, h.2⟩
  obtain ⟨n, htrim, hn, htake, hrecord⟩ := record_eq hlen hint
  have hfield : field n string.1 = messageText string len := by
    rw [htext]
    exact field_eq hn
  intro o level written hwritten
  rw [logWriteStr] at hwritten
  split_ifs at hwritten with henabled
  rw [← Option.some_inj.mp hwritten, htrim]
  refine ⟨hrecord, fun line hline => ?_, fun priority text hsent => ?_⟩
  · simp only [handOver, hfield] at hline
    split_ifs at hline
    exact (Option.some_inj.mp hline).symm
  · simp only [handOver, hfield] at hsent
    split_ifs at hsent
    exact (congrArg Prod.snd (Option.some_inj.mp hsent)).symm

/-- The sinks get the same text exactly where it is the whole string: a field
width cuts nothing off. -/
theorem sinksAgree_iff {string : CName} {len : Int} (hlen : len ≤ strlen string) :
    SinksAgree string len ↔ Whole string len := by
  refine ⟨fun h => ?_, sinksAgree_of_whole hlen⟩
  obtain ⟨hrecord, -, hsent⟩ := h allSinks 6 _ rfl
  have hfield := hsent _ _ rfl
  have htext : messageText string len = string.1 := by
    have hbytes := congrArg List.length hfield
    have hle := messageText_length_le string len
    have hstrlen : strlen string = string.1.length := rfl
    rw [field_length] at hbytes
    rw [← hfield]
    exact field_eq (by omega)
  obtain ⟨hwhole, hlast⟩ := (messageText_eq_iff hlen).mp htext
  refine ⟨hwhole.imp_left fun hneg => ⟨hneg, ?_⟩, hlast⟩
  by_contra hlong
  have hbound : ∀ x : Int, x < 2 ^ 31 → givenLength string x < 2 ^ 31 := by
    intro x hx
    rw [givenLength]
    split_ifs
    · simp only [i32]
      omega
    · exact hx
  have hshort := hbound _ (Int.lt_of_le_of_lt (trim_le string.1 _) (hbound len (by omega)))
  have hrecord := record_length hrecord
  rw [htext] at hrecord
  have hstrlen : strlen string = string.1.length := rfl
  omega

theorem sinksAgree_iff_plain :
    SinksAgree ⟨[97, 98], by decide⟩ (-1) ↔ Whole ⟨[97, 98], by decide⟩ (-1) :=
  sinksAgree_iff (by decide)

/-- A newline at the end goes to the console though not to the storage. -/
theorem newline_reaches_console :
    ¬ ∀ (string : CName) (len : Int), len ≤ strlen string → SinksAgree string len := by
  intro hall
  obtain ⟨-, -, hsent⟩ := hall ⟨[97, 10], by decide⟩ (-1) (by decide) allSinks 6 _ rfl
  exact absurd (hsent _ _ rfl) (by decide)

end HiloUtils.LogBase
