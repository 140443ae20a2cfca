import HiloUtils.CounterIndex
import HiloUtils.ShmBufferEx
import Mathlib.Data.List.Infix

/-! The value counters of the queues and the checks that read them. A queue
registers each counter under its lock and stores to it later; a check finds the
queues by the names of their capacity counters and reads the slots one by one. -/

namespace HiloUtils.StatusCheck

open Word CString Dictionary DictionaryMap CounterIndex

def nameMax : Nat := 255

def memPageSize : Nat := 4096

def headerSize : Nat := memPageSize

def int64Min : Int := -2 ^ 63

def ascii (cs : List Char) : List UInt8 := cs.map fun c => UInt8.ofNat c.toNat

def shmLocation : List UInt8 := ascii ['/', 'd', 'e', 'v', '/', 's', 'h', 'm', '/']

def counterPrefix : List UInt8 := ascii ['s', 'h', 'm', '.', 'q', 'u', 'e', 'u', 'e', '.']

def counterSuffix : List UInt8 := ascii ['.', 'c', 'a', 'p', 'a', 'c', 'i', 't', 'y']

inductive Kind
  | count
  | usedBp
  | used
  | capacity
  deriving DecidableEq

namespace Kind

def suffix : Kind → List UInt8
  | .count => ascii ['.', 'c', 'o', 'u', 'n', 't']
  | .usedBp => ascii ['.', 'u', 's', 'e', 'd', '_', 'b', 'p']
  | .used => ascii ['.', 'u', 's', 'e', 'd']
  | .capacity => counterSuffix

def next : Kind → Option Kind
  | .count => some .usedBp
  | .usedBp => some .used
  | .used => some .capacity
  | .capacity => none

end Kind

def cut (n : Nat) (name : CName) : CName :=
  ⟨name.1.take (n - 1), fun h => name.2 (List.mem_of_mem_take h)⟩

theorem not_mem_counterName (kind : Kind) (name : CName) :
    0 ∉ counterPrefix ++ name.1 ++ kind.suffix :=
  not_mem_format (by decide) (by cases kind <;> decide) name

/-- The name that `snprintf` leaves in `char cName[NAME_MAX]`. -/
def cName (kind : Kind) (name : CName) : CName :=
  cut nameMax ⟨counterPrefix ++ name.1 ++ kind.suffix, not_mem_counterName kind name⟩

def pathName (name : CName) : CName := cut (nameMax - shmLocation.length) name

structure LastStore where
  kind : Kind
  value : Int

/-- The segment of the value counters and the lengths of the queue files.
`none` is a slot nothing has been stored to. -/
structure Shared where
  dict : Names
  counters : Int → Option LastStore
  files : CName → Option Nat

namespace Shared

/-- A fresh segment is filled with zeros. -/
def value (s : Shared) (index : Int) : Int := ((s.counters index).map LastStore.value).getD 0

def setDict (s : Shared) (d : Names) : Shared := { s with dict := d }

def setCounter (s : Shared) (index : Int) (last : LastStore) : Shared :=
  { s with counters := Function.update s.counters index (some last) }

def getCounterValue (s : Shared) (name : CName) : Option Int :=
  (s.dict.lookupName name).map fun index =>
    if index = invalidIndex then int64Min else s.value index

end Shared

def roundedSize (size : Nat) : Nat :=
  if size = 0 then 0
  else u64 (u64 (size + (memPageSize - 1)) / memPageSize * memPageSize + headerSize)

/-- `OpenMirror`: the length that is mapped, and the files. A file with no data
behind the header cannot be mapped. -/
def openMirror (files : CName → Option Nat) (name : CName) (size : Nat) :
    Option Nat × (CName → Option Nat) :=
  let size := if size = 0 then (files (pathName name)).getD 0 else size
  let file := cut nameMax name
  let realsize := (files file).getD 0
  if size = 0 ∨ realsize ≠ 0 ∧ size ≠ realsize then (none, files)
  else (if size = headerSize then none else some size, Function.update files file (some size))

/-- An open `ShmBufferEx`: the length of its file and where its counters point,
`none` for `&def_value`. -/
structure Queue where
  name : CName
  length : Nat
  ptr : Kind → Option Int

def Queue.capacity (q : Queue) : Nat := subU64 (subU64 q.length headerSize) 1

/-- What is stored to a counter: the capacity is that of the queue, the others
change all the time. -/
def Queue.value (q : Queue) (kind : Kind) (n : Nat) : Int :=
  match kind with
  | .capacity => i64 q.capacity
  | _ => i64 n

inductive Check
  | checkAllStatus (format : StatusFormat) (ignoreFullNames : List CName)
  | dumpStatTable

def Check.ignoreFull : Check → CName → Bool
  | .checkAllStatus _ names, name => names.any fun n => strcasecmp name.1 n.1 = 0
  | .dumpStatTable, _ => false

structure Visit where
  check : Check
  status : Status
  rest : List Int
  name : CName

structure Histories where
  dropHistory : HistoryCounterInfo
  messageHistory : HistoryCounterInfo
  errorHistory : HistoryCounterInfo

inductive Pc
  | idle
  | opened (q : Queue)
  | assign (q : Queue) (kind : Kind)
  | store (q : Queue) (kind : Kind) (value : Int)
  | scanned (check : Check) (status : Status) (rest : List Int)
  | histories (v : Visit)
  | count (v : Visit) (h : Histories)
  | used (v : Visit) (h : Histories) (count : Nat)
  | capacity (v : Visit) (h : Histories) (count used : Nat)
  | report (v : Visit) (stat : QueueStat)

inductive Move
  | open (name : CName) (size : Nat)
  | update
  | assign (n : Nat)
  | store
  | scan (check : Check)
  | visit
  | histories (h : Histories)
  | read
  | report

inductive Event
  | moved
  | opened (ok : Bool)
  | status (status : Status) (lines : List String)
  | row (full : Int)
  | finished (status : Status)

/-- `LazyCounter::Init`: an index that is invalid changes nothing. -/
def Queue.resolve (q : Queue) (kind : Kind) (index : Int) : Queue :=
  if index ≠ invalidIndex then { q with ptr := Function.update q.ptr kind (some index) } else q

def assign (s : Shared) (q : Queue) (kind : Kind) (n : Nat) : Option (Event × Shared × Pc) :=
  match q.ptr kind with
  | some _ => some (.moved, s, .store q kind (q.value kind n))
  | none =>
    match addSection s.dict (cName kind q.name) with
    | some (.returned _ index, d, _) =>
      some (.moved, s.setDict d, .store (q.resolve kind index) kind (q.value kind n))
    | _ => none

def store (s : Shared) (q : Queue) (kind : Kind) (value : Int) : Event × Shared × Pc :=
  let s := match q.ptr kind with
    | some index => s.setCounter index ⟨kind, value⟩
    | none => s
  match kind.next with
  | some next => (.moved, s, .assign q next)
  | none => (.moved, s, .opened q)

/-- The queue whose capacity counter a name is, as the scan reads it off. -/
def queueName (counter : CName) : Option CName :=
  if counterSuffix <:+: counter.1 then
    let rest := counter.1.drop counterPrefix.length
    some ⟨(rest.take (nameMax - 1)).take (rest.length - counterSuffix.length),
      fun h => counter.2 (List.mem_of_mem_drop (List.mem_of_mem_take (List.mem_of_mem_take h)))⟩
  else none

def prefixName : CName := ⟨counterPrefix, by decide⟩

def scan (s : Shared) (check : Check) : Option (Event × Shared × Pc) :=
  (s.dict.getCategory (some prefixName)).map fun rs =>
    (.moved, s, .scanned check .ok (rs.map NameRec.id))

def visit (s : Shared) (check : Check) (status : Status) : List Int →
    Option (Event × Shared × Pc)
  | [] => some (.finished status, s, .idle)
  | id :: rest => (s.dict.idString id).map fun counter =>
    match queueName counter with
    | none => (.moved, s, .scanned check status rest)
    | some name =>
      if s.files (pathName name) = none then (.moved, s, .scanned check status rest)
      else (.moved, s, .histories ⟨check, status, rest, name⟩)

/-- The column of `DumpStat` that divides, in hundredths of a percent. -/
def spaceUsed (stat : QueueStat) : Option Int :=
  if stat.capacity = 0 then none
  else some (i32 (u64 (stat.dataSize * 10000) / stat.capacity : Nat))

def text (name : CName) : String := String.ofList (name.1.map fun b => Char.ofNat b.toNat)

def queueStat (v : Visit) (h : Histories) (count used capacity : Nat) : QueueStat where
  name := text v.name
  count := count
  dataSize := used
  capacity := capacity
  dropHistory := h.dropHistory
  messageHistory := h.messageHistory
  errorHistory := h.errorHistory

def report (s : Shared) (v : Visit) (stat : QueueStat) : Option (Event × Shared × Pc) :=
  match v.check with
  | .checkAllStatus format _ =>
    (stat.checkStatus format (v.check.ignoreFull v.name)).map fun (status, lines) =>
      (.status status lines, s, .scanned v.check (v.status.max status) v.rest)
  | .dumpStatTable =>
    (spaceUsed stat).map fun full => (.row full, s, .scanned v.check v.status v.rest)

def act (s : Shared) : Pc → Move → Option (Event × Shared × Pc)
  | .idle, .open name size =>
    match openMirror s.files name (roundedSize size) with
    | (none, files) => some (.opened false, { s with files := files }, .idle)
    | (some length, files) =>
      some (.opened true, { s with files := files }, .assign ⟨name, length, fun _ => none⟩ .count)
  | .opened q, .open _ _ => some (.opened false, s, .opened q)
  | .opened q, .update => some (.moved, s, .assign q .count)
  | .assign q kind, .assign n => assign s q kind n
  | .store q kind value, .store => some (store s q kind value)
  | .idle, .scan check => scan s check
  | .scanned check status rest, .visit => visit s check status rest
  | .histories v, .histories h => some (.moved, s, .count v h)
  | .count v h, .read =>
    (s.getCounterValue (cName .count v.name)).map fun n => (.moved, s, .used v h (ofI64 n))
  | .used v h count, .read =>
    (s.getCounterValue (cName .used v.name)).map fun n =>
      (.moved, s, .capacity v h count (ofI64 n))
  | .capacity v h count used, .read =>
    (s.getCounterValue (cName .capacity v.name)).map fun n =>
      (.moved, s, .report v (queueStat v h count used (ofI64 n)))
  | .report v stat, .report => report s v stat
  | _, _ => none

abbrev System (P : Type*) := Processes P Shared Pc

def step {P : Type*} [DecidableEq P] (g : System P) :
    P × Move → Option (Event × System P) :=
  Processes.step (fun _ => act) g

def openedBy : Move → Event → Option CName
  | .open name _, .opened true => some name
  | _, _ => none

def opened {P : Type*} (trace : List ((P × Move) × Event)) : List CName :=
  trace.filterMap fun e => openedBy e.1.2 e.2

theorem opened_append {P : Type*} (trace : List ((P × Move) × Event)) (p : P) (move : Move)
    (e : Event) : opened (trace ++ [((p, move), e)]) = opened trace ++ (openedBy move e).toList :=
  filterMap_append_one ..

def start {P : Type*} (raw : Names) : System P where
  shared := ⟨raw.clear, fun _ => none, fun _ => none⟩
  pc _ := .idle

variable {P : Type*}

def Safe [DecidableEq P] (g : System P) : Prop :=
  ∀ p v stat, g.pc p = .report v stat → ∃ r, step g (p, .report) = some r

/-- The capacity counter of a queue has been stored to, if it is registered at
all, and the last store was not that of a zero to another counter of this name. -/
def Assigned (s : Shared) (name : CName) : Prop :=
  ∀ index, s.dict.lookupName (cName .capacity name) = some index → index ≠ invalidIndex →
    ∃ last, s.counters index = some last ∧ (last.kind = .capacity ∨ ofI64 last.value ≠ 0)

def ReadsAssigned (g : System P) : P × Move → Prop
  | (p, .read) => ∀ v h count used, g.pc p = .capacity v h count used →
    v.check.ignoreFull v.name = false → Assigned g.shared v.name
  | _ => True

structure Shared.Sound (s : Shared) : Prop where
  stores : ∃ names, Stores s.dict names
  files : ∀ name length, s.files name = some length → memPageSize ∣ length
  counters : ∀ index last, s.counters index = some last → last.kind = .capacity →
    ofI64 last.value ≠ 0

def Pc.Sound : Pc → Prop
  | .opened q => memPageSize ∣ q.length
  | .assign q _ => memPageSize ∣ q.length
  | .store q kind value => memPageSize ∣ q.length ∧ (kind = .capacity → ofI64 value ≠ 0)
  | .report v stat => v.check.ignoreFull v.name = false → stat.capacity ≠ 0
  | _ => True

theorem capacity_ne_zero {q : Queue} (h : memPageSize ∣ q.length) : q.capacity ≠ 0 := by
  obtain ⟨n, hn⟩ := h
  simp only [Queue.capacity, subU64, headerSize, hn, memPageSize]
  omega

theorem ofI64_value {q : Queue} (h : memPageSize ∣ q.length) {kind : Kind} (n : Nat)
    (hkind : kind = .capacity) : ofI64 (q.value kind n) ≠ 0 := by
  have hlt : q.capacity < 2 ^ 64 := Nat.mod_lt _ (Nat.two_pow_pos 64)
  have hvalue : q.value kind n = i64 q.capacity := by
    rw [hkind]
    rfl
  rw [hvalue, ofI64_i64, u64_of_lt hlt]
  exact capacity_ne_zero h

theorem roundedSize_dvd (size : Nat) : memPageSize ∣ roundedSize size := by
  unfold roundedSize
  split
  · exact Nat.dvd_zero _
  · refine Nat.dvd_of_mod_eq_zero ?_
    simp only [u64, memPageSize, headerSize]
    omega

section

variable {s : Shared}

theorem openMirror_sound {files : CName → Option Nat}
    (h : ∀ name length, files name = some length → memPageSize ∣ length) (name : CName) {size : Nat}
    (hsize : memPageSize ∣ size) :
    (∀ file length, (openMirror files name size).2 file = some length → memPageSize ∣ length) ∧
      ∀ length, (openMirror files name size).1 = some length → memPageSize ∣ length := by
  unfold openMirror
  generalize hreal : (if size = 0 then (files (pathName name)).getD 0 else size) = real
  have hdvd : memPageSize ∣ real := by
    rw [← hreal]
    by_cases hz : size = 0
    · rw [if_pos hz]
      cases hfile : files (pathName name) with
      | none => exact Nat.dvd_zero _
      | some length => exact h _ _ hfile
    · rw [if_neg hz]
      exact hsize
  dsimp only
  split
  · exact ⟨h, fun _ hlength => by cases hlength⟩
  · refine ⟨fun file length hfile => ?_, fun length hlength => ?_⟩
    · dsimp only at hfile
      rcases eq_or_ne file (cut nameMax name) with rfl | hne
      · rw [Function.update_self] at hfile
        rw [← Option.some_inj.mp hfile]
        exact hdvd
      · rw [Function.update_of_ne hne] at hfile
        exact h _ _ hfile
    · split at hlength
      · cases hlength
      · rw [← Option.some_inj.mp hlength]
        exact hdvd

theorem Shared.Sound.setDict (h : s.Sound) {d : Names} (hd : ∃ names, Stores d names) :
    (s.setDict d).Sound := ⟨hd, h.files, h.counters⟩

theorem Shared.Sound.setCounter (h : s.Sound) {last : LastStore} (index : Int)
    (hlast : last.kind = .capacity → ofI64 last.value ≠ 0) : (s.setCounter index last).Sound := by
  refine ⟨h.stores, h.files, fun i l hl hkind => ?_⟩
  change Function.update s.counters index (some last) i = some l at hl
  rcases eq_or_ne i index with rfl | hne
  · rw [Function.update_self] at hl
    obtain rfl := Option.some_inj.mp hl
    exact hlast hkind
  · rw [Function.update_of_ne hne] at hl
    exact h.counters i l hl hkind

theorem strlen_cName (kind : Kind) (name : CName) : strlen (cName kind name) ≤ 254 :=
  List.length_take_le ..

theorem measured_cName {d : Names} {names : List CName} (h : Stores d names) (kind : Kind)
    (name : CName) : Measured d (.add (cName kind name)) := by
  intro _ hroom _
  have hlen := strlen_cName kind name
  have hused := h.used_le
  have hsize : counterNamesSize.toNat = 255000 := by decide
  rw [h.used_eq] at hroom ⊢
  rw [hsize] at hroom hused ⊢
  rw [u32_of_lt (by omega)] at hroom
  exact ⟨hroom, by omega⟩

theorem Shared.Sound.stays (h : s.Sound) {e e' : Event} {s' : Shared} {pc pc' : Pc}
    (hs : some (e, s, pc) = some (e', s', pc')) (hpc : pc.Sound) : s'.Sound ∧ pc'.Sound := by
  simp only [Option.some.injEq, Prod.mk.injEq] at hs
  obtain ⟨-, rfl, rfl⟩ := hs
  exact ⟨h, hpc⟩

theorem Shared.Sound.stays_map (h : s.Sound) {α : Type*} {x : Option α} {e : α → Event}
    {pc : α → Pc} {e' : Event} {s' : Shared} {pc' : Pc}
    (hs : x.map (fun a => (e a, s, pc a)) = some (e', s', pc')) (hpc : ∀ a, (pc a).Sound) :
    s'.Sound ∧ pc'.Sound := by
  obtain ⟨a, -, ha⟩ := Option.map_eq_some_iff.mp hs
  exact h.stays (congrArg some ha) (hpc a)

@[simp] theorem resolve_length (q : Queue) (kind : Kind) (index : Int) :
    (q.resolve kind index).length = q.length := by
  unfold Queue.resolve
  split <;> rfl

theorem assign_sound (h : s.Sound) {q : Queue} (hq : memPageSize ∣ q.length) {kind : Kind}
    {n : Nat} {e : Event} {s' : Shared} {pc' : Pc} (hs : assign s q kind n = some (e, s', pc')) :
    s'.Sound ∧ pc'.Sound := by
  unfold assign at hs
  cases hptr : q.ptr kind with
  | some index =>
    simp only [hptr] at hs
    exact h.stays hs ⟨hq, ofI64_value hq n⟩
  | none =>
    obtain ⟨names, hstores⟩ := h.stores
    obtain ⟨index, d, hsection, hanswers, -⟩ :=
      addSection_answers hstores (measured_cName hstores kind q.name)
    simp only [hptr, hsection, Option.some.injEq, Prod.mk.injEq] at hs
    obtain ⟨-, rfl, rfl⟩ := hs
    refine ⟨h.setDict hanswers.stores, ?_, ofI64_value hq n⟩
    rw [resolve_length]
    exact hq

theorem store_sound (h : s.Sound) {q : Queue} (hq : memPageSize ∣ q.length) {kind : Kind}
    {value : Int} (hvalue : kind = .capacity → ofI64 value ≠ 0) :
    (store s q kind value).2.1.Sound ∧ (store s q kind value).2.2.Sound := by
  have hshared : (match q.ptr kind with
      | some index => s.setCounter index ⟨kind, value⟩
      | none => s).Sound := by
    cases q.ptr kind with
    | some index => exact h.setCounter index hvalue
    | none => exact h
  unfold store
  cases kind.next with
  | some next => exact ⟨hshared, hq⟩
  | none => exact ⟨hshared, hq⟩

theorem open_sound (h : s.Sound) (name : CName) (size : Nat) {e : Event} {s' : Shared} {pc' : Pc}
    (hs : act s .idle (.open name size) = some (e, s', pc')) : s'.Sound ∧ pc'.Sound := by
  obtain ⟨hfiles, hlength⟩ := openMirror_sound h.files name (roundedSize_dvd size)
  simp only [act] at hs
  cases hopen : openMirror s.files name (roundedSize size) with
  | mk mapped files =>
    rw [hopen] at hs hfiles hlength
    cases mapped with
    | none =>
      simp only [Option.some.injEq, Prod.mk.injEq] at hs
      obtain ⟨-, rfl, rfl⟩ := hs
      exact ⟨⟨h.stores, hfiles, h.counters⟩, trivial⟩
    | some length =>
      simp only [Option.some.injEq, Prod.mk.injEq] at hs
      obtain ⟨-, rfl, rfl⟩ := hs
      exact ⟨⟨h.stores, hfiles, h.counters⟩, hlength length rfl⟩

theorem visit_sound (h : s.Sound) {check : Check} {status : Status} {rest : List Int} {e : Event}
    {s' : Shared} {pc' : Pc} (hs : visit s check status rest = some (e, s', pc')) :
    s'.Sound ∧ pc'.Sound := by
  cases rest with
  | nil => exact h.stays hs trivial
  | cons id rest =>
    obtain ⟨counter, -, hnext⟩ := Option.map_eq_some_iff.mp hs
    split at hnext
    · exact h.stays (congrArg some hnext) trivial
    · split at hnext
      · exact h.stays (congrArg some hnext) trivial
      · exact h.stays (congrArg some hnext) trivial

/-- What a check reads as the capacity is zero only if it is not assigned. -/
theorem capacity_read (h : s.Sound) (name : CName) :
    ∃ n, s.getCounterValue (cName .capacity name) = some n ∧ (ofI64 n ≠ 0 ↔ Assigned s name) := by
  obtain ⟨names, hstores⟩ := h.stores
  have hlookup := hstores.lookupName_eq (cName .capacity name)
  generalize idOf names (cName .capacity name) = index at hlookup
  rw [Shared.getCounterValue, hlookup, Option.map_some]
  by_cases hindex : index = invalidIndex
  · refine ⟨_, rfl, ?_⟩
    rw [if_pos hindex]
    refine iff_of_true (by decide) fun i hi hne => ?_
    rw [hlookup] at hi
    exact absurd (Option.some_inj.mp hi).symm (hindex ▸ hne)
  · refine ⟨_, rfl, ?_⟩
    rw [if_neg hindex, Shared.value]
    constructor
    · intro hvalue i hi _
      obtain rfl : index = i := Option.some_inj.mp (hlookup.symm.trans hi)
      cases hlast : s.counters index with
      | none =>
        rw [hlast] at hvalue
        exact absurd rfl hvalue
      | some last =>
        rw [hlast] at hvalue
        exact ⟨last, rfl, .inr hvalue⟩
    · intro hassigned
      obtain ⟨last, hlast, hkind | hvalue⟩ := hassigned index hlookup hindex
      · rw [hlast]
        exact h.counters index last hlast hkind
      · rw [hlast]
        exact hvalue

theorem report_defined (v : Visit) (stat : QueueStat) :
    (∃ r, report s v stat = some r) ↔ (v.check.ignoreFull v.name = false → stat.capacity ≠ 0) := by
  unfold report
  cases hcheck : v.check with
  | checkAllStatus format names =>
    simp only [QueueStat.checkStatus, QueueStat.checkFull]
    by_cases hignore : (Check.checkAllStatus format names).ignoreFull v.name = true
    · simp [hignore]
    · by_cases hcapacity : stat.capacity = 0
      · simp [hignore, hcapacity]
      · simp [hignore, hcapacity]
  | dumpStatTable =>
    simp only [spaceUsed, Check.ignoreFull, forall_const]
    by_cases hcapacity : stat.capacity = 0
    · simp [hcapacity]
    · simp [hcapacity]

theorem report_sound (h : s.Sound) {v : Visit} {stat : QueueStat} {e : Event} {s' : Shared}
    {pc' : Pc} (hs : report s v stat = some (e, s', pc')) : s'.Sound ∧ pc'.Sound := by
  unfold report at hs
  split at hs
  · exact h.stays_map hs fun _ => trivial
  · exact h.stays_map hs fun _ => trivial

theorem act_sound (h : s.Sound) {pc : Pc} (hpc : pc.Sound) {move : Move}
    (hok : ∀ v hs count used, move = .read → pc = .capacity v hs count used →
      v.check.ignoreFull v.name = false → Assigned s v.name)
    {e : Event} {s' : Shared} {pc' : Pc} (hs : act s pc move = some (e, s', pc')) :
    s'.Sound ∧ pc'.Sound := by
  unfold act at hs
  split at hs
  case h_1 name size => exact open_sound h name size hs
  case h_2 q _ _ => exact h.stays hs hpc
  case h_3 q => exact h.stays hs hpc
  case h_4 q kind n => exact assign_sound h hpc hs
  case h_5 q kind value =>
    have hstore := store_sound h hpc.1 hpc.2
    rw [Option.some_inj.mp hs] at hstore
    exact hstore
  case h_6 check => exact h.stays_map hs fun _ => trivial
  case h_7 check status rest => exact visit_sound h hs
  case h_8 v hist => exact h.stays hs trivial
  case h_9 v hist => exact h.stays_map hs fun _ => trivial
  case h_10 v hist count => exact h.stays_map hs fun _ => trivial
  case h_11 v hist count used =>
    obtain ⟨n, hread, hiff⟩ := capacity_read h v.name
    rw [hread, Option.map_some] at hs
    refine h.stays hs ?_
    exact fun hdivides => hiff.mpr (hok v hist count used rfl rfl hdivides)
  case h_12 v stat => exact report_sound h hs
  case h_13 => cases hs

end

section

variable {g g' : System P}

def Sound (g : System P) : Prop := g.Each Shared.Sound fun _ _ pc => pc.Sound

theorem Sound.start (raw : Names) : Sound (start raw : System P) := by
  refine ⟨⟨⟨[], .clear raw⟩, ?_, ?_⟩, fun _ => trivial⟩
  · intro name length hfile
    cases hfile
  · intro index last hlast
    cases hlast

theorem readsAssigned_iff {p : P} {v : Visit} {hist : Histories} {count used : Nat}
    (hpc : g.pc p = .capacity v hist count used) : ReadsAssigned g (p, .read) ↔
      (v.check.ignoreFull v.name = false → Assigned g.shared v.name) := by
  constructor
  · intro hok
    exact hok v hist count used hpc
  · intro hassigned v' hist' count' used' hpc'
    rw [hpc] at hpc'
    obtain ⟨rfl, -⟩ := Pc.capacity.inj hpc'
    exact hassigned

variable [DecidableEq P]

theorem Sound.step (h : Sound g) {i : P × Move} (hok : ReadsAssigned g i) {e : Event}
    (hs : step g i = some (e, g')) : Sound g' := by
  obtain ⟨p, move⟩ := i
  refine Processes.Each.step h hs (fun next hact => ?_) fun _ _ _ _ hpc => hpc
  refine act_sound h.1 (h.2 p) (fun v hist count used hmove hpc => ?_) hact
  obtain rfl : move = .read := hmove
  exact hok v hist count used hpc

theorem step_of_act {p : P} {move : Move} {e : Event} {next : Shared × Pc}
    (hact : act g.shared (g.pc p) move = some (e, next)) :
    StatusCheck.step g (p, move) = some (e, g.put p next) := by
  rw [StatusCheck.step, Processes.step, hact, Option.map_some]

theorem step_report {p : P} {v : Visit} {stat : QueueStat} (hpc : g.pc p = .report v stat) :
    step g (p, .report) = (report g.shared v stat).map fun r => (r.1, g.put p r.2) := by
  simp only [StatusCheck.step, Processes.step, hpc, act]

theorem safe_iff : Safe g ↔ ∀ p v stat, g.pc p = .report v stat →
    v.check.ignoreFull v.name = false → stat.capacity ≠ 0 := by
  unfold Safe
  refine forall_congr' fun p => forall_congr' fun v => forall_congr' fun stat => ?_
  refine forall_congr' fun hpc => ?_
  rw [step_report hpc, ← report_defined (s := g.shared)]
  cases report g.shared v stat with
  | none => simp only [Option.map_none, reduceCtorEq, exists_false]
  | some r => simp only [Option.map_some, Option.some.injEq, exists_eq']

theorem Sound.safe (h : Sound g) : Safe g :=
  safe_iff.mpr fun p v stat hpc => by
    have hp := h.2 p
    rw [hpc] at hp
    exact hp

theorem Sound.read_safe_iff (h : Sound g) {p : P} {v : Visit} {hist : Histories}
    {count used : Nat} (hpc : g.pc p = .capacity v hist count used) :
    ∃ g', StatusCheck.step g (p, .read) = some (.moved, g') ∧
      (Safe g' ↔ ReadsAssigned g (p, .read)) := by
  obtain ⟨n, hread, hiff⟩ := capacity_read h.1 v.name
  have hstep : StatusCheck.step g (p, .read) = some (.moved,
      g.put p (g.shared, .report v (queueStat v hist count used (ofI64 n)))) := by
    simp only [StatusCheck.step, Processes.step, hpc, act, hread, Option.map_some]
  refine ⟨_, hstep, fun hsafe => ?_, fun hok => (h.step hok hstep).safe⟩
  rw [readsAssigned_iff hpc]
  intro hdivides
  exact hiff.mp (safe_iff.mp hsafe p v _ (Processes.put_pc_self ..) hdivides)

theorem run_sound {raw : Names} {trace : List ((P × Move) × Event)}
    (run : Run StatusCheck.step ReadsAssigned (start raw) trace g) : Sound g :=
  run.invariant (I := Sound) (.start raw) fun _ _ _ _ h hok hs => h.step hok hs

/-- As long as no check reads a capacity before it is assigned, no check
divides by zero; the first that does will. -/
theorem run_safe (raw : Names) {trace : List ((P × Move) × Event)} {g : System P}
    (run : Run step ReadsAssigned (start raw) trace g) :
    Safe g ∧ ∀ p v hist count used, g.pc p = .capacity v hist count used →
      ∃ g', step g (p, .read) = some (.moved, g') ∧
        (Safe g' ↔ ReadsAssigned g (p, .read)) := by
  have h := run_sound run
  exact ⟨h.safe, fun p v hist count used hpc => h.read_safe_iff hpc⟩

end

section

def nameQ : CName := shortName [113]

def counterNames : List CName :=
  [cName .count nameQ, cName .usedBp nameQ, cName .used nameQ, cName .capacity nameQ]

/-- Process 0 is about to assign a counter of its queue; no later counter is
registered yet. -/
structure Registering (g : System Nat) (name : CName) (q : Queue) (kind : Kind)
    (names : List CName) : Prop where
  pc : g.pc 0 = .assign q kind
  other : g.pc 1 = .idle
  named : q.name = name
  stores : Stores g.shared.dict names
  fresh : ∀ i : Nat, names.length ≤ i → g.shared.counters i = none
  file : g.shared.files (pathName name) ≠ none

variable {g : System Nat} {trace : List ((Nat × Move) × Event)} {raw : Names} {name : CName}

theorem resolve_name (q : Queue) (kind : Kind) (index : Int) :
    (q.resolve kind index).name = q.name := by
  unfold Queue.resolve
  split <;> rfl

theorem resolve_ptr (q : Queue) (kind : Kind) (i : Nat) :
    (q.resolve kind i).ptr = Function.update q.ptr kind (some (i : Int)) := by
  rw [Queue.resolve, if_pos (natCast_ne_invalid i)]

theorem run_next (run : Run step ReadsAssigned (start raw) trace g) {p : Nat} {pc pc' : Pc}
    {move : Move} {e : Event} {s' : Shared} (hpc : g.pc p = pc)
    (hact : act g.shared pc move = some (e, s', pc')) (hok : ReadsAssigned g (p, move)) :
    ∃ g', Run step ReadsAssigned (start raw) (trace ++ [((p, move), e)]) g' ∧ g'.pc p = pc' ∧
      g'.shared = s' ∧ ∀ q ≠ p, g'.pc q = g.pc q := by
  rw [← hpc] at hact
  exact ⟨_, run.next (i := (p, move)) hok (step_of_act hact), Processes.put_pc_self .., rfl,
    fun q hq => Processes.put_pc_of_ne _ hq _⟩

theorem Registering.assign {q : Queue} {kind : Kind} {names : List CName}
    (h : Registering g name q kind names) (hptr : q.ptr kind = none)
    (hnew : ∀ m ∈ names, strcasecmp m.1 (cName kind name).1 ≠ 0)
    (hroom : (image names).length + 255 ≤ counterNamesSize.toNat)
    (hcount : names.length < counterMaxAmount.toNat) :
    ∃ d, act g.shared (.assign q kind) (.assign 0) = some (.moved, g.shared.setDict d,
        .store (q.resolve kind names.length) kind (q.value kind 0)) ∧
      Stores d (names ++ [cName kind name]) := by
  have hlen := strlen_cName kind name
  obtain ⟨d, hadd, hd⟩ := h.stores.add_new hnew (by omega) (by omega) hcount
  have hmissed : g.shared.dict.lookupName (cName kind name) = some invalidIndex := by
    rw [h.stores.lookupName_eq, idOf, Stores.position_eq_none hnew]
  refine ⟨d, ?_, hd⟩
  simp only [act, StatusCheck.assign, hptr, h.named, addSection_missed hmissed, hadd,
    Option.map_some]

theorem Registering.next {q : Queue} {kind next : Kind} {names : List CName}
    (h : Registering g name q kind names) (hptr : q.ptr kind = none)
    (hnew : ∀ m ∈ names, strcasecmp m.1 (cName kind name).1 ≠ 0)
    (hroom : (image names).length + 255 ≤ counterNamesSize.toNat)
    (hcount : names.length < counterMaxAmount.toNat) (hnext : kind.next = some next)
    (run : Run step ReadsAssigned (start raw) trace g) :
    ∃ trace' g', Run step ReadsAssigned (start raw) trace' g' ∧ opened trace' = opened trace ∧
      Registering g' name (q.resolve kind names.length) next (names ++ [cName kind name]) := by
  obtain ⟨d, hassign, hd⟩ := h.assign hptr hnew hroom hcount
  obtain ⟨v, run1, hpc1, hshared1, hother1⟩ := run_next run h.pc hassign trivial
  have hstore : act v.shared (.store (q.resolve kind names.length) kind (q.value kind 0)) .store =
      some (.moved, v.shared.setCounter names.length ⟨kind, q.value kind 0⟩,
        .assign (q.resolve kind names.length) next) := by
    simp only [act, StatusCheck.store, resolve_ptr, Function.update_self, hnext]
  obtain ⟨g', run2, hpc2, hshared2, hother2⟩ := run_next run1 hpc1 hstore trivial
  rw [hshared1] at hshared2
  refine ⟨_, g', run2, ?_, hpc2, ?_, ?_, ?_, fun i hi => ?_, ?_⟩
  · simp only [opened_append, openedBy, Option.toList_none, List.append_nil]
  · exact (hother2 1 (by decide)).trans ((hother1 1 (by decide)).trans h.other)
  · rw [resolve_name]
    exact h.named
  · rw [hshared2]
    exact hd
  · rw [List.length_append, List.length_singleton] at hi
    rw [hshared2]
    change Function.update g.shared.counters (names.length : Int) _ (i : Int) = none
    rw [Function.update_of_ne (by omega)]
    exact h.fresh i (by omega)
  · rw [hshared2]
    exact h.file

theorem run_open (raw : Names) (name : CName) (hfile : cut nameMax name = pathName name) :
    ∃ trace g, Run step ReadsAssigned (start raw : System Nat) trace g ∧ opened trace = [name] ∧
      Registering g name ⟨name, 8192, fun _ => none⟩ .count [] := by
  have hmirror : openMirror (fun _ => none) name (roundedSize 1) =
      (some 8192, Function.update (fun _ => none) (pathName name) (some 8192)) := by
    rw [← hfile]
    rfl
  have hopen : act (start raw : System Nat).shared .idle (.open name 1) = some (.opened true,
      ⟨raw.clear, fun _ => none, Function.update (fun _ => none) (pathName name) (some 8192)⟩,
      .assign ⟨name, 8192, fun _ => none⟩ .count) := by
    simp only [act, start, hmirror]
  obtain ⟨g, run, hpc, hshared, hother⟩ := run_next (p := 0) .start rfl hopen trivial
  refine ⟨_, g, run, rfl, hpc, hother 1 (by decide), rfl, ?_, ?_, ?_⟩
  · rw [hshared]
    exact .clear raw
  · rw [hshared]
    exact fun _ _ => rfl
  · rw [hshared]
    dsimp only
    rw [Function.update_self]
    exact Option.some_ne_none _

theorem run_opened (raw : Names) : ∃ (trace : List ((Nat × Move) × Event)) (g : System Nat)
    (q : Queue), Run step ReadsAssigned (start raw) trace g ∧ q.ptr .capacity = none ∧
      Registering g nameQ q .capacity
        [cName .count nameQ, cName .usedBp nameQ, cName .used nameQ] := by
  obtain ⟨_, g0, run0, -, h0⟩ := run_open raw nameQ (by decide)
  obtain ⟨_, g1, run1, -, h1⟩ := h0.next rfl (by decide) (by decide) (by decide) rfl run0
  obtain ⟨_, g2, run2, -, h2⟩ := h1.next rfl (by decide) (by decide) (by decide) rfl run1
  obtain ⟨_, g3, run3, -, h3⟩ := h2.next rfl (by decide) (by decide) (by decide) rfl run2
  exact ⟨_, g3, _, run3, rfl, h3⟩

theorem run_registered (raw : Names) : ∃ (trace : List ((Nat × Move) × Event)) (g : System Nat)
    (q : Queue) (value : Int), Run step ReadsAssigned (start raw) trace g ∧
      g.pc 0 = .store q .capacity value ∧ q.ptr .capacity = some 3 ∧ g.pc 1 = .idle ∧
      Stores g.shared.dict counterNames ∧ g.shared.counters 3 = none ∧
      g.shared.files (pathName nameQ) ≠ none := by
  obtain ⟨trace, g, q, run, hptr, h⟩ := run_opened raw
  obtain ⟨d, hassign, hd⟩ := h.assign hptr (by decide) (by decide) (by decide)
  obtain ⟨g', run', hpc, hshared, hother⟩ := run_next run h.pc hassign trivial
  have hfresh : g'.shared.counters 3 = none := by
    rw [hshared]
    exact h.fresh 3 (Nat.le_refl 3)
  refine ⟨_, g', _, _, run', hpc, ?_, (hother 1 (by decide)).trans h.other, ?_, hfresh, ?_⟩
  · rw [resolve_ptr, Function.update_self]
    rfl
  · rw [hshared]
    exact hd
  · rw [hshared]
    exact h.file

theorem run_skip {check : Check} {status : Status} {rest : List Int} (skipped : List Int) :
    ∀ {trace : List ((Nat × Move) × Event)} {g : System Nat},
      Run step ReadsAssigned (start raw) trace g →
      g.pc 1 = .scanned check status (skipped ++ rest) →
      (∀ id ∈ skipped, ∃ counter, g.shared.dict.idString id = some counter ∧
        queueName counter = none) →
      ∃ trace' g', Run step ReadsAssigned (start raw) trace' g' ∧
        g'.pc 1 = .scanned check status rest ∧ g'.shared = g.shared := by
  induction skipped with
  | nil =>
    intro trace g run hpc _
    exact ⟨trace, g, run, hpc, rfl⟩
  | cons id skipped ih =>
    intro trace g run hpc hskipped
    obtain ⟨counter, hcounter, hname⟩ := hskipped id List.mem_cons_self
    have hvisit : act g.shared (.scanned check status (id :: (skipped ++ rest))) .visit =
        some (.moved, g.shared, .scanned check status (skipped ++ rest)) := by
      simp only [act, visit, hcounter, Option.map_some, hname]
    obtain ⟨v, run1, hpc1, hshared1, -⟩ := run_next run hpc hvisit trivial
    rw [← hshared1] at hskipped
    obtain ⟨trace', g', run2, hpc2, hshared2⟩ := ih run1 hpc1
      fun i hi => hskipped i (List.mem_cons_of_mem _ hi)
    exact ⟨trace', g', run2, hpc2, hshared2.trans hshared1⟩

theorem category_split {d : Names} (h : Stores d counterNames) :
    ∃ rs skipped rest, d.getCategory (some prefixName) = some rs ∧
      rs.map NameRec.id = skipped ++ 3 :: rest ∧
      ∀ id ∈ skipped, ∃ counter, d.idString id = some counter ∧ queueName counter = none := by
  let high : CName := ⟨(counterPrefix.take nameMaxLen ++ [255]).take nameMaxLen, by decide⟩
  have hprefix : prefixName.1 ≠ [] := by decide
  have hhigh : high.1 = (prefixName.1.take nameMaxLen ++ [255]).take nameMaxLen := rfl
  obtain ⟨rs, hcategory, hmem⟩ := h.mem_category hprefix hhigh
  have hkey : ¬ fold (cName .capacity nameQ).1 < fold (prefixName.1.take nameMaxLen) ∧
      fold (cName .capacity nameQ).1 < fold ((counterPrefix.take nameMaxLen ++ [255]).take
        nameMaxLen) := by decide
  have hother : ∀ i, ∀ hi : i < counterNames.length, i ≠ 3 → queueName counterNames[i] = none := by
    decide
  obtain ⟨r, hr, hid⟩ := h.index_of (i := 3) (by decide)
  have hfound : (3 : Int) ∈ rs.map NameRec.id := by
    refine List.mem_map.mpr ⟨r, (hmem r).mpr ⟨hr, ?_⟩, hid⟩
    rw [entryKey, hid]
    exact hkey
  obtain ⟨skipped, rest, hsplit, hnot⟩ := List.eq_append_cons_of_mem hfound
  refine ⟨rs, skipped, rest, hcategory, hsplit, fun id hskip => ?_⟩
  have hin : id ∈ rs.map NameRec.id := by
    rw [hsplit]
    exact List.mem_append_left _ hskip
  obtain ⟨e, he, rfl⟩ := List.mem_map.mp hin
  obtain ⟨i, hi, hid', -⟩ := h.mem_index ((hmem e).mp he).1
  rw [hid'] at hskip ⊢
  refine ⟨_, h.idString_eq hi, hother i hi ?_⟩
  rintro rfl
  exact hnot hskip

theorem getCounterValue_defined {s : Shared} {names : List CName} (h : Stores s.dict names)
    (name : CName) : ∃ n, s.getCounterValue name = some n := by
  rw [Shared.getCounterValue, h.lookupName_eq name]
  exact ⟨_, rfl⟩

theorem run_check (run : Run step ReadsAssigned (start raw) trace g) (hpc : g.pc 1 = .idle)
    (h : Stores g.shared.dict counterNames) (hfile : g.shared.files (pathName nameQ) ≠ none)
    (check : Check) :
    ∃ trace' g' v hist count used, Run step ReadsAssigned (start raw) trace' g' ∧
      g'.pc 1 = .capacity v hist count used ∧ v.name = nameQ ∧ v.check = check ∧
      g'.shared = g.shared := by
  obtain ⟨rs, skipped, rest, hcategory, hsplit, hskipped⟩ := category_split h
  have hscan : act g.shared .idle (.scan check) =
      some (.moved, g.shared, .scanned check .ok (skipped ++ 3 :: rest)) := by
    simp only [act, scan, hcategory, Option.map_some, hsplit]
  obtain ⟨g1, run1, hpc1, hshared1, -⟩ := run_next run hpc hscan trivial
  rw [← hshared1] at hskipped
  obtain ⟨_, g2, run2, hpc2, hshared2⟩ := run_skip skipped run1 hpc1 hskipped
  have hname : queueName counterNames[3] = some nameQ := by decide
  have hid : g.shared.dict.idString 3 = some counterNames[3] := h.idString_eq (by decide)
  have hvisit : act g.shared (.scanned check .ok (3 :: rest)) .visit =
      some (.moved, g.shared, .histories ⟨check, .ok, rest, nameQ⟩) := by
    simp only [act, visit, hid, Option.map_some, hname, if_neg hfile]
  rw [← hshared1, ← hshared2] at hvisit
  obtain ⟨g3, run3, hpc3, hshared3, -⟩ := run_next run2 hpc2 hvisit trivial
  let v : Visit := ⟨check, .ok, rest, nameQ⟩
  let hist : Histories := ⟨⟨0, 0, 0, 0, 0, 0⟩, ⟨0, 0, 0, 0, 0, 0⟩, ⟨0, 0, 0, 0, 0, 0⟩⟩
  have hhistories : act g3.shared (.histories v) (.histories hist) =
      some (.moved, g3.shared, .count v hist) := rfl
  obtain ⟨g4, run4, hpc4, hshared4, -⟩ := run_next run3 hpc3 hhistories trivial
  have hsame : g4.shared = g.shared := hshared4.trans (hshared3.trans (hshared2.trans hshared1))
  obtain ⟨count, hcount⟩ := getCounterValue_defined h (cName .count nameQ)
  have hread4 : act g4.shared (.count v hist) .read =
      some (.moved, g4.shared, .used v hist (ofI64 count)) := by
    simp only [act, hsame, v, hcount, Option.map_some]
  obtain ⟨g5, run5, hpc5, hshared5, -⟩ := run_next run4 hpc4 hread4 fun _ _ _ _ hpc' => by
    rw [hpc4] at hpc'
    cases hpc'
  rw [hsame] at hshared5
  obtain ⟨used, hused⟩ := getCounterValue_defined h (cName .used nameQ)
  have hread5 : act g5.shared (.used v hist (ofI64 count)) .read =
      some (.moved, g5.shared, .capacity v hist (ofI64 count) (ofI64 used)) := by
    simp only [act, hshared5, v, hused, Option.map_some]
  obtain ⟨g6, run6, hpc6, hshared6, -⟩ := run_next run5 hpc5 hread5 fun _ _ _ _ hpc' => by
    rw [hpc5] at hpc'
    cases hpc'
  exact ⟨_, g6, v, hist, _, _, run6, hpc6, rfl, rfl, hshared6.trans hshared5⟩

theorem run_safe_stored : ∃ (trace : List ((Nat × Move) × Event)) (g : System Nat),
    Run step ReadsAssigned (start zeroNames) trace g ∧ (∃ v stat, g.pc 1 = .report v stat) ∧
      Safe g := by
  obtain ⟨trace, g, q, value, run, hpc, hptr, hpc1, h, -, hfile⟩ := run_registered zeroNames
  have hstore : act g.shared (.store q .capacity value) .store = some (.moved,
      g.shared.setCounter 3 ⟨.capacity, value⟩, .opened q) := by
    simp only [act, store, hptr, Kind.next]
  obtain ⟨g1, run1, -, hshared1, hother1⟩ := run_next run hpc hstore trivial
  have h1 : Stores g1.shared.dict counterNames := by
    rw [hshared1]
    exact h
  have hfile1 : g1.shared.files (pathName nameQ) ≠ none := by
    rw [hshared1]
    exact hfile
  obtain ⟨_, g2, v, hist, count, used, run2, hpc2, hname, -, hshared2⟩ :=
    run_check run1 ((hother1 1 (by decide)).trans hpc1) h1 hfile1 .dumpStatTable
  have hok : ReadsAssigned g2 (1, .read) := by
    refine (readsAssigned_iff hpc2).mpr fun _ index hindex _ => ?_
    rw [hshared2, hname, h1.lookupName_eq] at hindex
    obtain rfl : 3 = index := Option.some_inj.mp hindex
    refine ⟨⟨.capacity, value⟩, ?_, .inl rfl⟩
    rw [hshared2, hshared1]
    simp only [Shared.setCounter, Function.update_self]
  obtain ⟨n, hread, -⟩ := capacity_read (run_sound run2).1 v.name
  have hact : act g2.shared (.capacity v hist count used) .read = some (.moved, g2.shared,
      .report v (queueStat v hist count used (ofI64 n))) := by
    simp only [act, hread, Option.map_some]
  obtain ⟨g3, run3, hpc3, -⟩ := run_next run2 hpc2 hact hok
  exact ⟨_, g3, run3, ⟨v, _, hpc3⟩, (run_safe zeroNames run3).1⟩

/-- A check comes between the registration of a capacity and its first store. -/
theorem run_divides_by_zero : ¬ ∀ (raw : Names) (trace : List ((Nat × Move) × Event))
    (g : System Nat), Run step (fun _ _ => True) (start raw) trace g → Safe g := by
  intro hall
  obtain ⟨trace, g, q, value, run, hpc, hptr, hpc1, h, hnone, hfile⟩ := run_registered zeroNames
  obtain ⟨trace', g', v, hist, count, used, run', hpc', hname, hcheck, hshared⟩ :=
    run_check run hpc1 h hfile (.checkAllStatus .simple [])
  obtain ⟨g'', hstep, hiff⟩ := (run_sound run').read_safe_iff hpc'
  have run'' : Run step (fun _ _ => True) (start zeroNames) trace' g' :=
    run'.weaken fun _ _ _ => trivial
  have hok := hiff.mp (hall _ _ _ (run''.next trivial hstep))
  have hlookup : g'.shared.dict.lookupName (cName .capacity v.name) = some 3 := by
    rw [hshared, hname, h.lookupName_eq]
    decide
  obtain ⟨last, hlast, -⟩ :=
    hok v hist count used hpc' (by rw [hcheck]; rfl) 3 hlookup (by decide)
  rw [hshared, hnone] at hlast
  cases hlast

end

end HiloUtils.StatusCheck
