import HiloUtils.LogBase
import HiloUtils.DumpNumber

/-! `log_writev` of `LogBase.cpp`: a message is formatted into a buffer on the
stack and, for the levels with errno, its text put behind it. The buffer shows
the bytes the call has put in. A copy that leaves the buffer has no result. -/

namespace HiloUtils.LogBase

open Word CString

/-- The cells of a buffer; `none` where the call has not stored. -/
abbrev Tmp := List (Option UInt8)

def logMaxMsgLen : Nat := 100000

def tmpSize (nested : Bool) : Nat := if nested then 1024 else logMaxMsgLen + 1

/-- The text goes in as far as it fits with its NUL; the length is that of the
whole text, or -1 if `int` cannot hold it. -/
def vsnprintf (tmp : Tmp) (size : Nat) (message : List UInt8) : Tmp × Int :=
  ((message.take (size - 1)).map some ++ some 0 :: tmp.drop (min message.length (size - 1) + 1),
    if message.length < 2 ^ 31 then message.length else -1)

def strncpy (tmp : Tmp) (offset : Int) (source : List UInt8) (n : Nat) : Option Tmp :=
  if 0 ≤ offset ∧ offset + n ≤ tmp.length then
    some (tmp.take offset.toNat ++
      ((source.take n ++ List.replicate (n - source.length) 0).map some ++
        tmp.drop (offset.toNat + n)))
  else none

def room (tmp : Tmp) (len : Int) : Nat := ofI64 ((tmp.length : Int) - len - 1)

/-- ` | E%d - `; `char etmp[30]` holds all of it. -/
def errnoText (errno : Int) : List UInt8 :=
  [32, 124, 32, 69] ++ Json.decimal (i32 errno) ++ [32, 45, 32]

def hasErrno (level : Nat) : Prop := level &&& logErrno = logErrno

instance (level : Nat) : Decidable (hasErrno level) := inferInstanceAs (Decidable (_ = _))

def nestedMessage (tmp : Tmp) (level : Nat) (message : List UInt8) (errno : Int)
    (strerror : CName) : Option (Tmp × Int) :=
  let (tmp, len) := vsnprintf tmp (tmp.length - 1) message
  if hasErrno level then
    let etmp := errnoText errno
    (strncpy tmp len etmp (room tmp len)).bind fun tmp =>
      let len := i32 (len + etmp.length)
      (strncpy tmp len strerror.1 (room tmp len)).map fun tmp => (tmp, len)
  else some (tmp, len)

def normalMessage (tmp : Tmp) (level : Nat) (message : List UInt8) (errno : Int)
    (strerror : CName) : Option (Tmp × Int) :=
  let (tmp, len) := vsnprintf tmp (tmp.length - 1) message
  if hasErrno level then
    let etmp := errnoText errno
    (strncpy tmp len etmp (room tmp len)).bind fun tmp =>
      let len := i32 (len + etmp.length)
      (strncpy tmp len strerror.1 (room tmp len)).map fun tmp =>
        (tmp, i32 (len + strlen strerror))
  else some (tmp, len)

/-- What is passed to `log_write_str`; `none` inside if the level is off. -/
def logWritev (o : LogOptions) (inLogWritev : Bool) (level : Nat) (message : List UInt8)
    (errno : Int) (strerror : CName) : Option (Option (Tmp × Int)) :=
  if isLogEnabled o level then
    let tmp := List.replicate (tmpSize inLogWritev) none
    (if inLogWritev then nestedMessage tmp level message errno strerror
      else normalMessage tmp level message errno strerror).map some
  else some none

def errnoSuffix (level : Nat) (errno : Int) (strerror : CName) : List UInt8 :=
  if hasErrno level then errnoText errno ++ strerror.1 else []

/-- The bytes passed on are stored ones: the message and behind it the suffix if
it fits with a NUL, or else a first part of the suffix. -/
def PassesStored (size : Nat) (message suffix : List UInt8) (tmp : Tmp) (len : Int) : Prop :=
  ∃ part : List UInt8, len = (message ++ part).length ∧
    tmp.take (message ++ part).length = (message ++ part).map some ∧ part <+: suffix ∧
    ((message ++ suffix).length < size → part = suffix)

def Fits (nested : Bool) (level : Nat) (message : List UInt8) (errno : Int) (strerror : CName) :
    Prop :=
  if hasErrno level then
    message.length + (errnoText errno).length < tmpSize nested ∧
      if nested then
        strerror.1 = [] ∨
          tmpSize nested ≤ message.length + (errnoText errno).length + strlen strerror
      else
        message.length ≤ i32 (message.length + (errnoText errno).length + strlen strerror) ∧
          i32 (message.length + (errnoText errno).length + strlen strerror) < tmpSize nested
  else
    message.length + 1 < tmpSize nested ∨
      (message.length + 1 = tmpSize nested ∧ message.getLast? = some 0)

theorem errnoText_length (errno : Int) :
    0 < (errnoText errno).length ∧ (errnoText errno).length < 30 := by
  have hsmall : (i32 errno).natAbs < 10 ^ 10 := by
    simp only [i32]
    omega
  have hwidth := (DumpUtils.width_le_iff _ (by decide)).mpr hsmall
  have hdigits : (Json.decimalNat (i32 errno).natAbs).length ≤ 10 := hwidth
  simp only [errnoText, Json.decimal, List.length_append, List.length_cons, List.length_nil]
  split_ifs
  · rw [List.length_cons]
    omega
  · omega

theorem tmpSize_bounds (nested : Bool) : 1024 ≤ tmpSize nested ∧ tmpSize nested ≤ 100001 := by
  cases nested <;> decide

section

variable {tmp tmp' : Tmp} {size : Nat}

structure Open (tmp : Tmp) (size : Nat) : Prop where
  length_eq : tmp.length = size
  last : tmp[size - 1]? = some none

theorem Open.fresh (hsize : 0 < size) : Open (List.replicate size none) size where
  length_eq := List.length_replicate
  last := by
    rw [List.getElem?_replicate, if_pos (by omega)]

theorem Open.vsnprintf (h : Open tmp size) (hsize : 2 ≤ size) (message : List UInt8) :
    Open (vsnprintf tmp (tmp.length - 1) message).1 size ∧
      (message.take (size - 2)).map some ++ [some 0] <+:
        (vsnprintf tmp (tmp.length - 1) message).1 := by
  have hlen := h.length_eq
  have hput : ((message.take (size - 2)).map (some : UInt8 → Option UInt8) ++ [some 0]).length =
      min message.length (size - 2) + 1 := by
    rw [List.length_append, List.length_map, List.length_take, List.length_singleton, Nat.min_comm]
  have heq : (LogBase.vsnprintf tmp (tmp.length - 1) message).1 =
      ((message.take (size - 2)).map some ++ [some 0]) ++
        tmp.drop (min message.length (size - 2) + 1) := by
    have hroom : size - 1 - 1 = size - 2 := by omega
    simp only [LogBase.vsnprintf, hlen, hroom, List.append_assoc, List.singleton_append]
  rw [heq]
  refine ⟨⟨?_, ?_⟩, List.prefix_append _ _⟩
  · rw [List.length_append, hput, List.length_drop]
    omega
  · rw [List.getElem?_append_right (by omega), hput, List.getElem?_drop, ← h.last]
    congr 1
    omega

theorem vsnprintf_len (tmp : Tmp) (n : Nat) {message : List UInt8} (h : message.length < 2 ^ 31) :
    (vsnprintf tmp n message).2 = message.length := if_pos h

theorem room_eq (h : tmp.length = size) (hsize : size < 2 ^ 63) {len : Nat} (hlen : len < size) :
    room tmp len = size - 1 - len := by
  simp only [room, h, ofI64]
  omega

theorem Open.strncpy (h : Open tmp size) (hsize : size < 2 ^ 63) {text : List UInt8}
    (htext : text.map some <+: tmp) (hlen : text.length < size) (source : List UInt8) :
    ∃ tmp', strncpy tmp text.length source (room tmp text.length) = some tmp' ∧
      Open tmp' size ∧ ((text ++ source).take (size - 1)).map some <+: tmp' := by
  have hsz := h.length_eq
  have hroom := room_eq hsz hsize hlen
  have hbefore : tmp.take text.length = text.map some := by
    rw [← List.length_map (some : UInt8 → Option UInt8), ← List.prefix_iff_eq_take.mp htext]
  have htake : (text ++ source).take (size - 1) = text ++ source.take (size - 1 - text.length) := by
    rw [List.take_append, List.take_of_length_le (by omega)]
  have hpad : (source.take (size - 1 - text.length) ++
      List.replicate (size - 1 - text.length - source.length) 0).length =
        size - 1 - text.length := by
    rw [List.length_append, List.length_take, List.length_replicate]
    omega
  have hdrop : text.length + (size - 1 - text.length) = size - 1 := by omega
  refine ⟨_, if_pos (by rw [hroom, hsz]; omega), ⟨?_, ?_⟩, ?_⟩
  · rw [hroom, Int.toNat_natCast, hbefore, hdrop, List.length_append, List.length_append,
      List.length_map, List.length_map, hpad, List.length_drop]
    omega
  · rw [hroom, Int.toNat_natCast, hbefore, hdrop, ← List.append_assoc, ← List.map_append,
      List.getElem?_append_right, List.length_map, List.length_append, hpad, List.getElem?_drop,
      ← h.last]
    · congr 1
      omega
    · rw [List.length_map, List.length_append, hpad]
      omega
  · rw [hroom, Int.toNat_natCast, hbefore, htake, List.map_append, List.map_append,
      List.append_assoc]
    exact List.prefix_append_right_inj _ |>.mpr (List.prefix_append _ _)

theorem strncpy_length {offset : Int} {source : List UInt8} {n : Nat}
    (h : strncpy tmp offset source n = some tmp') : tmp'.length = tmp.length := by
  rw [LogBase.strncpy] at h
  split_ifs at h with hinside
  rw [← Option.some_inj.mp h]
  simp only [List.length_append, List.length_map, List.length_take, List.length_drop,
    List.length_replicate]
  omega

/-- A length from the buffer's size on makes the room wrap. -/
theorem strncpy_outside (h : tmp.length = size) (hsize : size < 2 ^ 31) {len : Int}
    (hlen : len < 0 ∨ (size : Int) ≤ len) (hint : len < 2 ^ 31) (source : List UInt8) :
    strncpy tmp len source (room tmp len) = none := by
  rw [LogBase.strncpy, if_neg]
  simp only [room, h, ofI64]
  omega

theorem PassesStored.len_lt {message suffix : List UInt8} {len : Int}
    (hpasses : PassesStored size message suffix tmp len) (h : Open tmp size) (hsize : 0 < size) :
    0 ≤ len ∧ len < size := by
  obtain ⟨part, rfl, htake, -⟩ := hpasses
  have hinside : (message ++ part).length < size := by
    by_contra hout
    have hlast : (tmp.take (message ++ part).length)[size - 1]? = some none := by
      rw [List.getElem?_take_of_lt (by omega), h.last]
    rw [htake, List.getElem?_map] at hlast
    obtain ⟨b, -, hb⟩ := Option.map_eq_some_iff.mp hlast
    cases hb
  omega

theorem passesStored_iff {message suffix : List UInt8} (h : Open tmp size) (hsize : 0 < size)
    (hstored : ((message ++ suffix).take (size - 1)).map some <+: tmp) (len : Int) :
    PassesStored size message suffix tmp len ↔
      (message.length ≤ len ∧ len < size ∧ len ≤ (message ++ suffix).length) ∧
        ((message ++ suffix).length < size → len = (message ++ suffix).length) := by
  have hsz := h.length_eq
  constructor
  · intro hpasses
    obtain ⟨-, hlt⟩ := hpasses.len_lt h hsize
    obtain ⟨part, rfl, -, hprefix, hwhole⟩ := hpasses
    have hle := hprefix.length_le
    simp only [List.length_append] at hlt ⊢
    exact ⟨⟨by omega, hlt, by omega⟩, fun hfits => by rw [hwhole (by rwa [List.length_append])]⟩
  · rintro ⟨⟨hmessage, hlt, hle⟩, hwhole⟩
    have htext : message ++ suffix.take (len.toNat - message.length) =
        (message ++ suffix).take len.toNat := by
      have hall : message.take len.toNat = message := List.take_of_length_le (by omega)
      rw [List.take_append, hall]
    have hlen : ((message ++ suffix).take len.toNat).length = len.toNat := by
      rw [List.length_take]
      omega
    refine ⟨suffix.take (len.toNat - message.length), ?_, ?_, List.take_prefix _ _,
      fun hfits => ?_⟩
    · rw [htext, hlen]
      omega
    · obtain ⟨rest, hrest⟩ := hstored
      have hcut : ((message ++ suffix).take (size - 1)).take len.toNat =
          (message ++ suffix).take len.toNat := by
        rw [List.take_take, Nat.min_eq_left (by omega)]
      rw [htext, hlen, ← hrest, List.take_append_of_le_length, ← List.map_take, hcut]
      rw [List.length_map, List.length_take]
      omega
    · rw [hwhole hfits, Int.toNat_natCast, List.length_append, Nat.add_sub_cancel_left,
        List.take_length]

theorem copies_stored {message etmp : List UInt8} (h : Open tmp size) (hsize : size < 2 ^ 31)
    (htext : message.map some <+: tmp) (hfits : message.length + etmp.length < size)
    (source : List UInt8) :
    ∃ t t', strncpy tmp message.length etmp (room tmp message.length) = some t ∧
      strncpy t (i32 (message.length + etmp.length)) source
        (room t (i32 (message.length + etmp.length))) = some t' ∧
      Open t' size ∧ ((message ++ (etmp ++ source)).take (size - 1)).map some <+: t' := by
  have hsize' : size < 2 ^ 63 := by omega
  obtain ⟨t, ht, hopen, hstored⟩ := h.strncpy hsize' htext (by omega) etmp
  have hall : (message ++ etmp).length < size := by
    rw [List.length_append]
    exact hfits
  rw [List.take_of_length_le (by omega)] at hstored
  obtain ⟨t', ht', hopen', hstored'⟩ := hopen.strncpy hsize' hstored hall source
  have hlen : i32 (message.length + etmp.length) = ((message ++ etmp).length : Nat) := by
    rw [List.length_append]
    simp only [i32]
    omega
  rw [List.append_assoc] at hstored'
  exact ⟨t, t', ht, by rw [hlen]; exact ht', hopen', hstored'⟩

theorem copies_outside {α : Type*} {etmp : List UInt8} (h : tmp.length = size)
    (hsize : size < 2 ^ 30) {len : Int} (hlen : len < 0 ∨ (size : Int) ≤ len + etmp.length)
    (hint : len < 2 ^ 31) (hetmp : etmp.length < 30) (source : List UInt8) (g : Tmp → α) :
    ((strncpy tmp len etmp (room tmp len)).bind fun t =>
      (strncpy t (i32 (len + etmp.length)) source
        (room t (i32 (len + etmp.length)))).map g) = none := by
  by_cases hout : len < 0 ∨ (size : Int) ≤ len
  · rw [strncpy_outside h (by omega) hout hint]
    rfl
  · cases hfirst : strncpy tmp len etmp (room tmp len) with
    | none => rfl
    | some t =>
      have ht := (strncpy_length hfirst).trans h
      have hsum : i32 (len + etmp.length) = len + etmp.length := by
        simp only [i32]
        omega
      rw [Option.bind_some, hsum, strncpy_outside ht (by omega) (by omega) (by omega)]
      rfl

end

def Right (size : Nat) (message suffix : List UInt8) (r : Option (Tmp × Int)) : Prop :=
  ∃ tmp len, r = some (tmp, len) ∧ PassesStored size message suffix tmp len

theorem right_some_iff {size : Nat} {message suffix : List UInt8} {r : Tmp × Int} :
    Right size message suffix (some r) ↔ PassesStored size message suffix r.1 r.2 := by
  constructor
  · rintro ⟨_, _, heq, hpasses⟩
    obtain rfl := Option.some_inj.mp heq
    exact hpasses
  · exact fun hpasses => ⟨_, _, rfl, hpasses⟩

section

variable {size : Nat}

theorem message_stored {tmp : Tmp} (h : Open tmp size) (hsize : 2 ≤ size) {message : List UInt8}
    (hfits : message.length + 1 < size) :
    message.map some <+: (vsnprintf tmp (tmp.length - 1) message).1 := by
  have hstored := (h.vsnprintf hsize message).2
  rw [List.take_of_length_le (by omega)] at hstored
  exact (List.prefix_append _ _).trans hstored

theorem errno_right_iff {tmp : Tmp} (h : Open tmp size) (hlo : 2 ≤ size) (hhi : size < 2 ^ 30)
    (message : List UInt8) {etmp : List UInt8} (hpos : 0 < etmp.length) (hetmp : etmp.length < 30)
    (source : List UInt8) (passed : Int) :
    Right size message (etmp ++ source)
        ((strncpy (vsnprintf tmp (tmp.length - 1) message).1
            (vsnprintf tmp (tmp.length - 1) message).2 etmp
            (room (vsnprintf tmp (tmp.length - 1) message).1
              (vsnprintf tmp (tmp.length - 1) message).2)).bind fun t =>
          (strncpy t (i32 ((vsnprintf tmp (tmp.length - 1) message).2 + etmp.length)) source
            (room t (i32 ((vsnprintf tmp (tmp.length - 1) message).2 + etmp.length)))).map
              fun t => (t, passed)) ↔
      message.length + etmp.length < size ∧
        (message.length ≤ passed ∧ passed < size ∧
          passed ≤ (message.length + etmp.length + source.length : Nat)) ∧
        (message.length + etmp.length + source.length < size →
          passed = (message.length + etmp.length + source.length : Nat)) := by
  have hopen := (h.vsnprintf hlo message).1
  have hwhole : (message ++ (etmp ++ source)).length =
      message.length + etmp.length + source.length := by
    rw [List.length_append, List.length_append, Nat.add_assoc]
  by_cases hfits : message.length + etmp.length < size
  · have hlen := vsnprintf_len tmp (tmp.length - 1) (by omega : message.length < 2 ^ 31)
    obtain ⟨t, t', ht, ht', hopen', hstored⟩ :=
      copies_stored hopen (by omega) (message_stored h hlo (by omega)) hfits source
    have hiff := passesStored_iff hopen' (by omega) hstored passed
    rw [hwhole] at hiff
    rw [hlen, ht, Option.bind_some, ht', Option.map_some, ← hiff, right_some_iff]
    exact ⟨fun hpasses => ⟨hfits, hpasses⟩, fun hboth => hboth.2⟩
  · refine ⟨fun hright => ?_, fun hright => absurd hright.1 hfits⟩
    have hlen : (vsnprintf tmp (tmp.length - 1) message).2 < 0 ∨
        (size : Int) ≤ (vsnprintf tmp (tmp.length - 1) message).2 + etmp.length := by
      simp only [vsnprintf]
      split_ifs <;> omega
    have hint : (vsnprintf tmp (tmp.length - 1) message).2 < 2 ^ 31 := by
      simp only [vsnprintf]
      split_ifs <;> omega
    rw [copies_outside hopen.length_eq hhi hlen hint hetmp] at hright
    obtain ⟨_, _, heq, -⟩ := hright
    cases heq

theorem message_stored_iff {tmp : Tmp} (h : Open tmp size) (hsize : 2 ≤ size)
    {message : List UInt8} (hfull : message.length + 1 = size) :
    message.map some <+: (vsnprintf tmp (tmp.length - 1) message).1 ↔
      message.getLast? = some 0 := by
  have hstored := (h.vsnprintf hsize message).2
  obtain ⟨init, b, rfl⟩ : ∃ init b, message = init ++ [b] := by
    rcases List.eq_nil_or_concat message with hnil | ⟨init, b, hconcat⟩
    · rw [hnil, List.length_nil] at hfull
      omega
    · exact ⟨init, b, by rw [hconcat, List.concat_eq_append]⟩
  rw [List.length_append, List.length_singleton] at hfull
  rw [List.take_left' (by omega)] at hstored
  rw [List.getLast?_concat, Option.some_inj, List.map_append, List.map_singleton]
  constructor
  · intro hmessage
    have hsame := List.prefix_of_prefix_length_le hmessage hstored (by simp)
    have heq := List.append_cancel_left (hsame.eq_of_length (by simp))
    exact Option.some_inj.mp (List.head_eq_of_cons_eq heq)
  · rintro rfl
    exact hstored

theorem plain_right_iff {tmp : Tmp} (h : Open tmp size) (hlo : 2 ≤ size) (hhi : size < 2 ^ 30)
    (message : List UInt8) :
    Right size message [] (some (vsnprintf tmp (tmp.length - 1) message)) ↔
      message.length + 1 < size ∨
        (message.length + 1 = size ∧ message.getLast? = some 0) := by
  obtain ⟨hopen, hstored⟩ := h.vsnprintf hlo message
  rw [right_some_iff]
  by_cases hsmall : message.length < size
  · have hlen := vsnprintf_len tmp (tmp.length - 1) (by omega : message.length < 2 ^ 31)
    have hfirst : (message ++ []).take (size - 1) = message := by
      rw [List.append_nil, List.take_of_length_le (by omega)]
    have hpasses (hmessage : message.map some <+: (vsnprintf tmp (tmp.length - 1) message).1) :
        PassesStored size message [] (vsnprintf tmp (tmp.length - 1) message).1 message.length := by
      rw [passesStored_iff hopen (by omega) (by rwa [hfirst]), List.append_nil]
      omega
    rw [hlen]
    by_cases hroom : message.length + 1 < size
    · exact ⟨fun _ => Or.inl hroom, fun _ => hpasses (message_stored h hlo hroom)⟩
    · have hfull : message.length + 1 = size := by omega
      rw [← message_stored_iff h hlo hfull]
      constructor
      · rintro ⟨part, -, htake, hprefix, -⟩
        obtain rfl := List.prefix_nil.mp hprefix
        rw [List.append_nil] at htake
        exact Or.inr ⟨hfull, by rw [← htake]; exact List.take_prefix _ _⟩
      · rintro (hlt | ⟨-, hmessage⟩)
        · exact absurd hlt hroom
        · exact hpasses hmessage
  · constructor
    · intro hpasses
      have hlt := hpasses.len_lt hopen (by omega)
      simp only [vsnprintf] at hlt
      split_ifs at hlt <;> omega
    · omega

end

def HandsOutStored (o : LogOptions) (nested : Bool) (level : Nat) (message : List UInt8)
    (errno : Int) (strerror : CName) : Prop :=
  ∃ passed, logWritev o nested level message errno strerror = some passed ∧
    ∀ tmp len, passed = some (tmp, len) →
      PassesStored (tmpSize nested) message (errnoSuffix level errno strerror) tmp len

theorem branch_right_iff (nested : Bool) (level : Nat) (message : List UInt8) (errno : Int)
    (strerror : CName) :
    Right (tmpSize nested) message (errnoSuffix level errno strerror)
        (if nested then
          nestedMessage (List.replicate (tmpSize nested) none) level message errno strerror
        else normalMessage (List.replicate (tmpSize nested) none) level message errno strerror) ↔
      Fits nested level message errno strerror := by
  obtain ⟨hlo, hhi⟩ := tmpSize_bounds nested
  have hopen : Open (List.replicate (tmpSize nested) none) (tmpSize nested) := .fresh (by omega)
  obtain ⟨hpos, hetmp⟩ := errnoText_length errno
  have hstrlen : strlen strerror = strerror.1.length := rfl
  rw [Fits, errnoSuffix]
  by_cases hlevel : hasErrno level
  · rw [if_pos hlevel, if_pos hlevel]
    cases nested with
    | true =>
      simp only [if_true, nestedMessage, if_pos hlevel]
      refine (errno_right_iff hopen (by omega) (by omega) message hpos hetmp strerror.1 _).trans ?_
      refine and_congr_right fun hfits => ?_
      rw [vsnprintf_len _ _ (by omega), ← List.length_eq_zero_iff, hstrlen]
      simp only [i32]
      omega
    | false =>
      simp only [Bool.false_eq_true, if_false, normalMessage, if_pos hlevel]
      refine (errno_right_iff hopen (by omega) (by omega) message hpos hetmp strerror.1 _).trans ?_
      refine and_congr_right fun hfits => ?_
      rw [vsnprintf_len _ _ (by omega), hstrlen]
      simp only [i32]
      omega
  · rw [if_neg hlevel, if_neg hlevel]
    have hplain := plain_right_iff hopen (by omega) (by omega) message
    cases nested with
    | true => simpa only [if_true, nestedMessage, if_neg hlevel] using hplain
    | false => simpa only [Bool.false_eq_true, if_false, normalMessage, if_neg hlevel] using hplain

/-- What is passed on is stored text exactly where the lengths fit. -/
theorem handsOutStored_iff (o : LogOptions) (nested : Bool) (level : Nat) (message : List UInt8)
    (errno : Int) (strerror : CName) :
    HandsOutStored o nested level message errno strerror ↔
      (isLogEnabled o level → Fits nested level message errno strerror) := by
  rw [HandsOutStored, logWritev, ← branch_right_iff]
  by_cases henabled : isLogEnabled o level
  · rw [if_pos henabled]
    constructor
    · rintro ⟨passed, hpassed, hall⟩ -
      obtain ⟨⟨tmp, len⟩, hbranch, rfl⟩ := Option.map_eq_some_iff.mp hpassed
      exact ⟨tmp, len, hbranch, hall tmp len rfl⟩
    · intro h
      obtain ⟨tmp, len, hbranch, hpasses⟩ := h henabled
      refine ⟨some (tmp, len), congrArg (Option.map some) hbranch, fun tmp' len' heq => ?_⟩
      obtain ⟨rfl, rfl⟩ := Prod.mk.inj (Option.some_inj.mp heq)
      exact hpasses
  · rw [if_neg henabled]
    exact ⟨fun _ h => absurd h henabled, fun _ => ⟨none, rfl, fun _ _ h => by cases h⟩⟩

/-- In the nested branch the text of the errno is left out of the length. -/
theorem nested_errno_cut_short :
    ¬ ∀ (o : LogOptions) (nested : Bool) (level : Nat) (message : List UInt8) (errno : Int)
      (strerror : CName), HandsOutStored o nested level message errno strerror := by
  intro hall
  obtain ⟨passed, hpassed, hstored⟩ := hall allSinks true 19 [97] 5 ⟨[73, 79], by decide⟩
  rw [logWritev, if_pos (by decide)] at hpassed
  obtain ⟨⟨tmp, len⟩, hbranch, rfl⟩ := Option.map_eq_some_iff.mp hpassed
  have hright := (branch_right_iff true 19 [97] 5 ⟨[73, 79], by decide⟩).mp
    ⟨tmp, len, hbranch, hstored tmp len rfl⟩
  obtain ⟨-, hlen⟩ := errnoText_length 5
  rw [Fits, if_pos (by decide)] at hright
  obtain hnil | hfull := hright.2
  · exact absurd hnil (by decide)
  · have hstrlen : strlen ⟨[73, 79], by decide⟩ = 2 := rfl
    have hsize : tmpSize true = 1024 := rfl
    rw [hstrlen, hsize, List.length_singleton] at hfull
    omega

end HiloUtils.LogBase
