import HiloUtils.ConvertString
import HiloUtils.LogBase

/-! `mem_stat_read` of `SysInfoMemory.cpp`: the numbers of the rows of
`/proc/meminfo` that have one of eleven names, and what is computed from them. -/

namespace HiloUtils.SysInfoMemory

open Word CString ConvertString

inductive Stat
  | memTotal
  | memFree
  | buffers
  | cached
  | swapCached
  | used
  | shmem
  | sReclaimable
  | sUnreclaim
  | swapTotal
  | swapFree
  deriving DecidableEq

def Stat.name : Stat → List UInt8
  | .memTotal => LogBase.bytes "MemTotal"
  | .memFree => LogBase.bytes "MemFree"
  | .buffers => LogBase.bytes "Buffers"
  | .cached => LogBase.bytes "Cached"
  | .swapCached => LogBase.bytes "SwapCached"
  | .used => LogBase.bytes "Used"
  | .shmem => LogBase.bytes "Shmem"
  | .sReclaimable => LogBase.bytes "SReclaimable"
  | .sUnreclaim => LogBase.bytes "SUnreclaim"
  | .swapTotal => LogBase.bytes "SwapTotal"
  | .swapFree => LogBase.bytes "SwapFree"

def memStats : List Stat :=
  [.memTotal, .memFree, .buffers, .cached, .swapCached, .used, .shmem, .sReclaimable,
    .sUnreclaim, .swapTotal, .swapFree]

abbrev MemStat := Stat → Int

def lineSize : Nat := 100

def newline : UInt8 := 10

def colon : UInt8 := 58

def isSpace (b : UInt8) : Bool := b.toNat = 32 || (9 ≤ b.toNat && b.toNat ≤ 13)

/-- The bytes of one `fgets` that has room for `n` of them, and the rest of the file. -/
def fgets : Nat → List UInt8 → List UInt8 × List UInt8
  | 0, file => ([], file)
  | _, [] => ([], [])
  | n + 1, b :: file =>
    if b = newline then ([b], file) else (b :: (fgets n file).1, (fgets n file).2)

def cString (bytes : List UInt8) : List UInt8 := bytes.takeWhile (· != 0)

theorem not_mem_digits (s : List UInt8) : 0 ∉ s.takeWhile isDigit := by
  intro h
  exact absurd (List.mem_takeWhile_imp h) (by decide)

def number (s : List UInt8) : CName :=
  ⟨(s.dropWhile isSpace).takeWhile isDigit, not_mem_digits _⟩

/-- `READ_MEM`; a number that cannot be converted is only logged. -/
def readMem (name : List UInt8) (number : CName) (ms : MemStat) (field : Stat) : MemStat :=
  if strcasecmp name field.name = 0 then
    Function.update ms field (convertStringInt64 (some number) (ms field)).2
  else ms

def readLine (ms : MemStat) (line : List UInt8) : MemStat :=
  let s := cString line
  if colon ∈ s then
    let name := s.takeWhile (· != colon)
    let p := (s.dropWhile (· != colon)).drop 1
    memStats.foldl (readMem name (number p)) ms
  else ms

/-- A call reads one byte at least, so the length of the file bounds the calls. -/
def readLines : Nat → List UInt8 → MemStat → MemStat
  | 0, _, ms => ms
  | _, [], ms => ms
  | fuel + 1, file, ms =>
    readLines fuel (fgets (lineSize - 1) file).2 (readLine ms (fgets (lineSize - 1) file).1)

/-- `Cached` without the shared memory, and what is in use. -/
def finish (ms : MemStat) : MemStat :=
  let cached := i64 (ms .cached - ms .shmem)
  let ms := Function.update ms .cached cached
  Function.update ms .used (i64 (i64 (ms .memTotal + ms .swapTotal) -
    i64 (ms .memFree + ms .swapFree + ms .buffers + ms .cached + ms .sReclaimable +
      ms .sUnreclaim + ms .shmem)))

def memStatRead (file : Option (List UInt8)) (closes : Bool) : Bool × MemStat :=
  match file with
  | none => (false, fun _ => -1)
  | some file =>
    let ms := readLines file.length file fun _ => -1
    if closes then (true, finish ms) else (false, ms)

/-- A row as the kernel writes it: a name, white space, digits and a rest. -/
structure Row where
  name : List UInt8
  space : List UInt8
  digits : List UInt8
  rest : List UInt8
  name_ok : ∀ b ∈ name, b ≠ 0 ∧ b ≠ newline ∧ b ≠ colon
  space_ok : ∀ b ∈ space, isSpace b = true ∧ b ≠ newline
  digits_ok : ∀ b ∈ digits, isDigit b = true
  digits_ne : digits ≠ []
  rest_ok : ∀ b ∈ rest, b ≠ 0 ∧ b ≠ newline
  rest_head : ∀ b ∈ rest.head?, isDigit b = false

theorem fgets_line {body : List UInt8} (hbody : newline ∉ body) {n : Nat} (hlen : body.length < n)
    (file : List UInt8) : fgets n (body ++ newline :: file) = (body ++ [newline], file) := by
  induction body generalizing n with
  | nil =>
    obtain ⟨n, rfl⟩ := Nat.exists_eq_succ_of_ne_zero (Nat.ne_of_gt hlen)
    exact if_pos rfl
  | cons b body ih =>
    obtain ⟨n, rfl⟩ := Nat.exists_eq_succ_of_ne_zero (Nat.ne_of_gt (Nat.zero_lt_of_lt hlen))
    rw [List.mem_cons, not_or] at hbody
    rw [List.cons_append, fgets, if_neg (Ne.symm hbody.1), ih hbody.2 (Nat.lt_of_succ_lt_succ hlen)]
    rfl

namespace Row

variable (r : Row)

def body : List UInt8 := r.name ++ colon :: (r.space ++ (r.digits ++ r.rest))

def text : List UInt8 := r.body ++ [newline]

def amount : Nat := Numeral.value 10 0 (r.digits.map fun b => b.toNat - 48)

def value : Option Int := if r.amount < 2 ^ 63 then some r.amount else none

theorem digit_ne {b : UInt8} (h : isDigit b = true) : b ≠ 0 ∧ b ≠ newline ∧ isSpace b = false := by
  have hb := isDigit_iff.mp h
  refine ⟨?_, ?_, ?_⟩
  · rintro rfl
    exact absurd h (by decide)
  · rintro rfl
    exact absurd h (by decide)
  · simp only [isSpace, Bool.or_eq_false_iff, Bool.and_eq_false_iff, decide_eq_false_iff_not]
    omega

theorem space_ne {b : UInt8} (h : isSpace b = true) : b ≠ 0 := by
  rintro rfl
  exact absurd h (by decide)

theorem body_ok {b : UInt8} (hb : b ∈ r.body) : b ≠ 0 ∧ b ≠ newline := by
  simp only [body, List.mem_append, List.mem_cons] at hb
  rcases hb with hb | rfl | hb | hb | hb
  · exact ⟨(r.name_ok b hb).1, (r.name_ok b hb).2.1⟩
  · exact ⟨by decide, by decide⟩
  · exact ⟨space_ne (r.space_ok b hb).1, (r.space_ok b hb).2⟩
  · exact ⟨(digit_ne (r.digits_ok b hb)).1, (digit_ne (r.digits_ok b hb)).2.1⟩
  · exact r.rest_ok b hb

theorem cString_text : cString r.text = r.text := by
  refine List.takeWhile_eq_self_iff.mpr fun b hb => ?_
  rcases List.mem_append.mp hb with hb | hb
  · simpa using (r.body_ok hb).1
  · rw [List.mem_singleton.mp hb]
    decide

theorem number_eq : number (r.space ++ (r.digits ++ (r.rest ++ [newline]))) =
    ⟨r.digits, fun h => absurd (r.digits_ok 0 h) (by decide)⟩ := by
  have hspace : ∀ b ∈ r.space, isSpace b = true := fun b hb => (r.space_ok b hb).1
  obtain ⟨d, ds, hdigits⟩ := List.exists_cons_of_ne_nil r.digits_ne
  have hd := (digit_ne (r.digits_ok d (by rw [hdigits]; exact List.mem_cons_self))).2.2
  have hend : (r.rest ++ [newline]).takeWhile isDigit = [] := by
    have hhead := r.rest_head
    cases h : r.rest with
    | nil => rfl
    | cons b rest =>
      rw [h] at hhead
      rw [List.cons_append, List.takeWhile_cons_of_neg]
      simp [hhead b rfl]
  apply Subtype.ext
  simp only [number]
  rw [List.dropWhile_append_of_pos hspace, hdigits, List.cons_append,
    List.dropWhile_cons_of_neg (by simp [hd]), ← List.cons_append, ← hdigits,
    List.takeWhile_append_of_pos r.digits_ok, hend, List.append_nil]

theorem name_split : r.text.takeWhile (· != colon) = r.name ∧
    (r.text.dropWhile (· != colon)).drop 1 =
      r.space ++ (r.digits ++ (r.rest ++ [newline])) := by
  have hname : ∀ b ∈ r.name, (b != colon) = true := fun b hb => by
    simpa using (r.name_ok b hb).2.2
  have htext : r.text = r.name ++ colon :: (r.space ++ (r.digits ++ (r.rest ++ [newline]))) := by
    simp only [text, body, List.append_assoc, List.cons_append]
  rw [htext, List.takeWhile_append_of_pos hname, List.dropWhile_append_of_pos hname]
  simp

theorem decimal_iff (n : Nat) : Decimal r.digits n ↔ n = r.amount := by
  have hmap : r.digits.map decimalDigit = (r.digits.map fun b => b.toNat - 48).map some := by
    rw [List.map_map]
    exact List.map_congr_left fun b hb => if_pos (r.digits_ok b hb)
  constructor
  · rintro ⟨-, ds, hds, rfl⟩
    have heq := List.map_injective_iff.mpr (fun _ _ => Option.some.inj) (hds.symm.trans hmap)
    rw [heq, amount]
  · rintro rfl
    exact ⟨r.digits_ne, _, hmap, rfl⟩

theorem signedResult_digits : signedResult r.digits = r.value := by
  have hdigit : ∀ b s, r.digits = b :: s → isDigit b = true := fun b s h =>
    r.digits_ok b (by rw [h]; exact List.mem_cons_self)
  have hmin : longMin ≤ (r.amount : Int) := by
    simp only [longMin]
    omega
  apply Option.ext
  intro v
  rw [signedResult_eq_some_iff, value]
  constructor
  · rintro ⟨⟨n, hn, rfl⟩ | ⟨s, n, h, -⟩ | ⟨n, hn, -⟩, -, hmax⟩
    · obtain rfl := (r.decimal_iff n).mp hn
      simp only [longMax] at hmax
      rw [if_pos (by omega)]
    · exact absurd (hdigit _ _ h) (by decide)
    · obtain ⟨x, s, h, hx, -⟩ := hn
      have hdx := r.digits_ok x (by rw [h]; simp)
      rcases hx with rfl | rfl <;> exact absurd hdx (by decide)
  · intro h
    by_cases hlt : r.amount < 2 ^ 63
    · rw [if_pos hlt] at h
      obtain rfl := Option.some.inj h
      refine ⟨.inl ⟨r.amount, (r.decimal_iff _).mpr rfl, rfl⟩, hmin, ?_⟩
      simp only [longMax]
      omega
    · rw [if_neg hlt] at h
      exact absurd h (by simp)

def given (f : Stat) : Option Int := if strcasecmp r.name f.name = 0 then r.value else none

theorem readMem_eq (ms : MemStat) (f : Stat) :
    readMem r.name (SysInfoMemory.number (r.space ++ (r.digits ++ (r.rest ++ [newline])))) ms f =
      Function.update ms f ((r.given f).getD (ms f)) := by
  have hassign : ∀ (result : Option Int) (v : Int), (assign result v).2 = result.getD v := by
    intro result v
    cases result <;> rfl
  rw [readMem, number_eq, given]
  by_cases hname : strcasecmp r.name f.name = 0
  · rw [if_pos hname, if_pos hname, convertStringInt64_eq, hassign, resultOf,
      if_neg r.digits_ne, signedResult_digits]
  · rw [if_neg hname, if_neg hname, Option.getD_none, Function.update_eq_self]

end Row

theorem foldl_update_apply (ms : MemStat) {step : MemStat → Stat → MemStat}
    {new : Stat → Int → Int} (hstep : ∀ ms f, step ms f = Function.update ms f (new f (ms f)))
    {fields : List Stat} (hnodup : fields.Nodup) (f : Stat) :
    fields.foldl step ms f = if f ∈ fields then new f (ms f) else ms f := by
  induction fields generalizing ms with
  | nil => rfl
  | cons g fields ih =>
    rw [List.nodup_cons] at hnodup
    rw [List.foldl_cons, ih _ hnodup.2, hstep]
    rcases eq_or_ne f g with rfl | hne
    · rw [if_neg hnodup.1, if_pos List.mem_cons_self, Function.update_self]
    · simp only [Function.update_of_ne hne, List.mem_cons, hne, false_or]

namespace Row

theorem readLine_text (r : Row) (ms : MemStat) (f : Stat) :
    readLine ms r.text f = (r.given f).getD (ms f) := by
  have hcolon : colon ∈ r.text := by simp [text, body]
  have hall : f ∈ memStats := by cases f <;> decide
  have hfields := foldl_update_apply ms r.readMem_eq (by decide : memStats.Nodup) f
  rw [readLine, cString_text, if_pos hcolon, r.name_split.1, r.name_split.2,
    hfields, if_pos hall]

end Row

def latest (rows : List Row) (f : Stat) : Int := (rows.filterMap (Row.given · f)).getLast?.getD (-1)

theorem readLines_succ {file : List UInt8} (h : file ≠ []) (fuel : Nat) (ms : MemStat) :
    readLines (fuel + 1) file ms = readLines fuel (fgets (lineSize - 1) file).2
      (readLine ms (fgets (lineSize - 1) file).1) := by
  cases file with
  | nil => exact absurd rfl h
  | cons b file => rfl

theorem readLines_rows {rows : List Row} (hlen : ∀ r ∈ rows, r.text.length < lineSize) {fuel : Nat}
    (hfuel : (rows.flatMap Row.text).length ≤ fuel) (ms : MemStat) (f : Stat) :
    readLines fuel (rows.flatMap Row.text) ms f =
      (rows.filterMap (Row.given · f)).getLast?.getD (ms f) := by
  induction rows generalizing fuel ms with
  | nil =>
    cases fuel <;> rfl
  | cons r rows ih =>
    have hrow := hlen r List.mem_cons_self
    have hbody : newline ∉ r.body := fun h => (r.body_ok h).2 rfl
    have hsplit : (r :: rows).flatMap Row.text = r.body ++ newline :: rows.flatMap Row.text := by
      simp [Row.text]
    have hne : r.body ++ newline :: rows.flatMap Row.text ≠ [] := by simp
    rw [Row.text, List.length_append, List.length_singleton] at hrow
    rw [hsplit, List.length_append, List.length_cons] at hfuel
    obtain ⟨fuel, rfl⟩ := Nat.exists_eq_succ_of_ne_zero (n := fuel) (by omega)
    rw [hsplit, readLines_succ hne, fgets_line hbody (by omega)]
    change readLines fuel (rows.flatMap Row.text) (readLine ms r.text) f = _
    rw [ih (fun r' hr' => hlen r' (List.mem_cons_of_mem _ hr')) (by omega), r.readLine_text,
      List.filterMap_cons]
    cases r.given f with
    | none => rfl
    | some v => rw [List.getLast?_cons, Option.getD_some, Option.getD_some]

/-- From rows that fit the line buffer, in any order and with any others between
them, each field gets the last number given under its name in any case of
letters, `Cached` without the shared memory, and all parts add up to the total. -/
theorem memStatRead_rows (rows : List Row) (hlen : ∀ r ∈ rows, r.text.length < lineSize) :
    ∃ ms, memStatRead (some (rows.flatMap Row.text)) true = (true, ms) ∧
      (∀ f, f ≠ .cached → f ≠ .used → ms f = latest rows f) ∧
      ms .cached = i64 (latest rows .cached - latest rows .shmem) ∧
      i64 (ms .used + (ms .memFree + ms .swapFree + ms .buffers + ms .cached + ms .sReclaimable +
        ms .sUnreclaim + ms .shmem)) = i64 (ms .memTotal + ms .swapTotal) := by
  have hread : readLines (rows.flatMap Row.text).length (rows.flatMap Row.text) (fun _ => -1) =
      latest rows := funext fun f => readLines_rows hlen (Nat.le_refl _) _ f
  refine ⟨finish (latest rows), by rw [memStatRead, if_pos rfl, hread], ?_, rfl, ?_⟩
  · intro f hcached hused
    rw [finish, Function.update_of_ne hused, Function.update_of_ne hcached]
  · simp only [finish, Function.update_self, Function.update_of_ne, ne_eq, reduceCtorEq,
      not_false_eq_true]
    simp only [i64]
    omega

def shortRow (name : List UInt8) (hname : ∀ b ∈ name, b ≠ 0 ∧ b ≠ newline ∧ b ≠ colon)
    (digit : UInt8) (hdigit : isDigit digit = true) : Row where
  name := name
  space := [32, 32, 32]
  digits := [digit]
  rest := [32, 107, 66]
  name_ok := hname
  space_ok := by simp [isSpace, newline]
  digits_ok := by simpa using hdigit
  digits_ne := by simp
  rest_ok := by simp [newline]
  rest_head := by simp [isDigit]

def shortFile : List Row :=
  [shortRow (LogBase.bytes "memtotal") (by decide +kernel) 56 (by decide),
    shortRow (LogBase.bytes "MemFree") (by decide +kernel) 52 (by decide),
    shortRow (LogBase.bytes "MemFree") (by decide +kernel) 53 (by decide)]

theorem memStatRead_rows_short :
    ∃ ms, memStatRead (some (shortFile.flatMap Row.text)) true = (true, ms) ∧
      ms .memTotal = 8 ∧ ms .memFree = 5 := by
  obtain ⟨ms, hread, hgiven, -⟩ := memStatRead_rows shortFile (by decide +kernel)
  exact ⟨ms, hread, (hgiven .memTotal (by decide) (by decide)).trans (by decide +kernel),
    (hgiven .memFree (by decide) (by decide)).trans (by decide +kernel)⟩

end HiloUtils.SysInfoMemory
