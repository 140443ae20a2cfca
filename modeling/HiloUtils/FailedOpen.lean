import HiloUtils.OpenShm
import HiloUtils.StatusCheck
import Mathlib.Order.Interval.Finset.Nat

/-! Opening and closing the objects of a process that map a segment. `Close`
gives the descriptor back only if `shm_data_ptr` is set, so what fails before
the mapping leaks it. -/

namespace HiloUtils.FailedOpen

open Word CString
open StatusCheck (cut nameMax memPageSize)

/-- What `shm_data_ptr` holds. -/
inductive Ptr
  | null
  | mapFailed
  | data (addr : Nat)
  deriving DecidableEq

structure ShmBase where
  shmDataPtr : Ptr
  size : Nat
  mapSize : Nat
  fd : Int
  inode : Nat
  instanceId : Int
  name : CName
  deriving DecidableEq

/-- The descriptors of the process, the mapping that each of its pages belongs
to, by the number of the `mmap` call, and its last instance number. -/
structure Shared where
  fds : Finset Int
  pages : Nat → Option Nat
  mmaps : Nat
  numbered : ∀ page n, pages page = some n → n < mmaps
  prevInstance : Int

def region (addr len : Nat) : Finset Nat :=
  Finset.Ico (addr / memPageSize) ((addr + len + (memPageSize - 1)) / memPageSize)

namespace Shared

theorem numbered_mapped (s : Shared) (addr len page n : Nat)
    (h : (if page ∈ region addr len then some s.mmaps else s.pages page) = some n) :
    n < s.mmaps + 1 := by
  split_ifs at h
  · exact Nat.lt_succ_of_le (Option.some_inj.mp h).ge
  · exact Nat.lt_succ_of_lt (s.numbered page n h)

/-- What was mapped to the pages before is lost. -/
def mapped (s : Shared) (addr len : Nat) : Shared :=
  { s with
    pages := fun page => if page ∈ region addr len then some s.mmaps else s.pages page
    mmaps := s.mmaps + 1
    numbered := s.numbered_mapped addr len }

theorem mapped_fds (s : Shared) (addr len : Nat) : (s.mapped addr len).fds = s.fds := by
  cases s
  rfl

theorem numbered_unmapped (s : Shared) (addr len page n : Nat)
    (h : (if page ∈ region addr len then none else s.pages page) = some n) : n < s.mmaps := by
  split_ifs at h
  exact s.numbered page n h

def unmapped (s : Shared) (addr len : Nat) : Shared :=
  { s with
    pages := fun page => if page ∈ region addr len then none else s.pages page
    numbered := s.numbered_unmapped addr len }

end Shared

structure FileStat where
  size : Nat
  ino : Nat

/-- The results of the system calls; `none` stands for an error. -/
structure Answers where
  shmOpen : Option Nat
  fstat : Option FileStat
  ftruncate : Bool
  mmap : Option Nat
  data1 : Option Nat
  data2 : Option Nat

structure Args where
  name : CName
  size : Nat
  resize : Bool

namespace ShmBase

def clear : ShmBase := ⟨.null, 0, 0, 0, 0, 0, ⟨[], List.not_mem_nil⟩⟩

def close (s : Shared) (o : ShmBase) : Shared × ShmBase :=
  match o.shmDataPtr with
  | .data addr =>
    ({ s.unmapped addr o.mapSize with fds := s.fds.erase o.fd }, clear)
  | _ => (s, clear)

def openShm (s : Shared) (o : ShmBase) (a : Args) (ans : Answers) : Bool × Shared × ShmBase :=
  if 0 < o.fd then (false, s, o)
  else
    match ans.shmOpen with
    | none => (false, s, { clear with name := cut nameMax a.name, fd := -1 })
    | some fd =>
      let s := { s with fds := insert (fd : Int) s.fds }
      let o := { clear with name := cut nameMax a.name, fd := fd }
      match ans.fstat with
      | none => (false, close s o)
      | some stat =>
        if a.size ≠ 0 ∧ a.resize = false ∧ stat.size ≠ 0 ∧ a.size ≠ stat.size then
          (false, close s o)
        else if a.size ≠ 0 ∧ ans.ftruncate = false then (false, close s o)
        else
          (true, { s with prevInstance := i32 (s.prevInstance + 1) },
            { o with
              size := if a.size = 0 then stat.size else a.size
              instanceId := i32 (s.prevInstance + 1)
              inode := stat.ino })

def openPlain (s : Shared) (o : ShmBase) (a : Args) (ans : Answers) : Bool × Shared × ShmBase :=
  match openShm s o a ans with
  | (false, s, o) => (false, s, o)
  | (true, s, o) =>
    match ans.mmap with
    | none => (false, close s { o with shmDataPtr := .mapFailed })
    | some addr =>
      (true, s.mapped addr o.size, { o with shmDataPtr := .data addr, mapSize := o.size })

/-- The length of the range of addresses for both mappings of a segment. -/
def mirrorLen (size headerSize : Nat) : Nat := subU64 (u64 (size * 2)) headerSize

def openMirror (s : Shared) (o : ShmBase) (a : Args) (headerSize : Nat) (ans : Answers) :
    Bool × Shared × ShmBase :=
  match openShm s o a ans with
  | (false, s, o) => (false, s, o)
  | (true, s, o) =>
    match ans.mmap with
    | none => (false, close s { o with shmDataPtr := .mapFailed })
    | some addr =>
      let s := s.mapped addr (mirrorLen o.size headerSize)
      let o := { o with shmDataPtr := .data addr, mapSize := mirrorLen o.size headerSize }
      match ans.data1 with
      | none => (false, close s o)
      | some data1 =>
        let s := s.mapped data1 o.size
        if data1 ≠ addr then (false, close s o)
        else
          match ans.data2 with
          | none => (false, close s o)
          | some data2 =>
            let s := s.mapped data2 (subU64 o.size headerSize)
            if data2 ≠ u64 (addr + o.size) then (false, close s o) else (true, s, o)

def IsOpened (o : ShmBase) : Prop := o.shmDataPtr ≠ .null

instance (o : ShmBase) : Decidable o.IsOpened := inferInstanceAs (Decidable (_ ≠ _))

end ShmBase

open ShmBase

inductive Call
  | openPlain (a : Args)
  | openMirror (a : Args) (headerSize : Nat)
  | close

def act (s : Shared) (o : ShmBase) : Call × Answers → Bool × Shared × ShmBase
  | (.openPlain a, ans) => o.openPlain s a ans
  | (.openMirror a headerSize, ans) => o.openMirror s a headerSize ans
  | (.close, _) => (true, o.close s)

abbrev System (P : Type*) := Processes P Shared ShmBase

section

variable {P : Type*}

def constructed (s : Shared) : System P := ⟨s, fun _ => clear⟩

def step [DecidableEq P] : System P → P × Call × Answers → Option (Bool × System P) :=
  Processes.step fun _ s o i => some (act s o i)

end

def openedSize (a : Args) (ans : Answers) : Nat :=
  if a.size = 0 then (ans.fstat.map FileStat.size).getD 0 else a.size

/-- The system hands out descriptors and address ranges that are not in use, and
`MAP_FIXED` maps where it is told to. -/
structure Fresh (s : Shared) (ans : Answers) (len size : Nat) : Prop where
  shmOpen : ∀ fd ∈ ans.shmOpen, (fd : Int) ∉ s.fds
  mmap : ∀ addr ∈ ans.mmap, ∀ page ∈ region addr len, s.pages page = none
  data1 : ∀ addr ∈ ans.mmap, ∀ data ∈ ans.data1, data = addr
  data2 : ∀ addr ∈ ans.mmap, ∀ data ∈ ans.data2, data = u64 (addr + size)

instance (s : Shared) (ans : Answers) (len size : Nat) : Decidable (Fresh s ans len size) :=
  decidable_of_iff
    ((∀ fd ∈ ans.shmOpen, (fd : Int) ∉ s.fds) ∧
      (∀ addr ∈ ans.mmap, ∀ page ∈ region addr len, s.pages page = none) ∧
      (∀ addr ∈ ans.mmap, ∀ data ∈ ans.data1, data = addr) ∧
      ∀ addr ∈ ans.mmap, ∀ data ∈ ans.data2, data = u64 (addr + size))
    ⟨fun ⟨hopen, hmmap, hdata1, hdata2⟩ => ⟨hopen, hmmap, hdata1, hdata2⟩,
      fun h => ⟨h.shmOpen, h.mmap, h.data1, h.data2⟩⟩

def Allows (s : Shared) : Call × Answers → Prop
  | (.openPlain a, ans) => Fresh s ans (openedSize a ans) (openedSize a ans)
  | (.openMirror a headerSize, ans) =>
    Fresh s ans (mirrorLen (openedSize a ans) headerSize) (openedSize a ans)
  | (.close, _) => True

instance (s : Shared) : ∀ i, Decidable (Allows s i)
  | (.openPlain _, _) => inferInstanceAs (Decidable (Fresh ..))
  | (.openMirror _ _, _) => inferInstanceAs (Decidable (Fresh ..))
  | (.close, _) => inferInstanceAs (Decidable True)

/-- A call on an open object fails and changes nothing; one that fails on a
closed object leaves it cleared and the process with what it had. -/
def Leakless (s : Shared) (o : ShmBase) : Call → Bool × Shared × ShmBase → Prop
  | .close, _ => True
  | _, (ok, s', o') =>
    if o.IsOpened then ok = false ∧ s' = s ∧ o' = o
    else ok = false → s'.fds = s.fds ∧ s'.pages = s.pages ∧ o' = clear

def Acquires (a : Args) (ans : Answers) : Prop :=
  ∃ fd stat, ans.shmOpen = some fd ∧ ans.fstat = some stat ∧
    (a.size ≠ 0 → (a.resize = false → stat.size ≠ 0 → a.size = stat.size) ∧ ans.ftruncate = true)

def Maps (a : Args) (ans : Answers) : Prop := Acquires a ans ∧ ans.mmap ≠ none

/-- If the second half of a segment is not mapped, its first half lies in the
range that was reserved. -/
def Covered (ans : Answers) (len size : Nat) : Prop :=
  ∀ addr, ans.mmap = some addr → ans.data1 ≠ none → ans.data2 = none →
    region addr size ⊆ region addr len

/-- An open object has no descriptor 0, and nothing fails before the mapping of
a closed one. -/
def Careful (o : ShmBase) : Call × Answers → Prop
  | (.openPlain a, ans) => if o.IsOpened then o.fd ≠ 0 else Maps a ans
  | (.openMirror a headerSize, ans) =>
    if o.IsOpened then o.fd ≠ 0
    else Maps a ans ∧ Covered ans (mirrorLen (openedSize a ans) headerSize) (openedSize a ans)
  | (.close, _) => True

def Answers.fails (ans : Answers) : OpenShm.Pc → Bool
  | .shmOpen => ans.shmOpen.isNone
  | .fstat => ans.fstat.isNone
  | .ftruncate => !ans.ftruncate
  | _ => false

def Alone (a : Args) (ans : Answers) (file : OpenShm.File) (trace : List (Bool × Unit))
    (file' : OpenShm.File) (pc : OpenShm.Pc) : Prop :=
  Run (fun (g : OpenShm.File × OpenShm.Pc) fails => OpenShm.act ⟨a.size, a.resize⟩ g.1 g.2 fails)
    (fun g fails => fails = ans.fails g.2) (file, .shmOpen) trace (file', pc)

def Valid (o : ShmBase) : Prop :=
  o.shmDataPtr = .null ∧ o.fd ≤ 0 ∨ ∃ addr, o.shmDataPtr = .data addr ∧ 0 ≤ o.fd

theorem region_mono (addr : Nat) {len len' : Nat} (h : len ≤ len') :
    region addr len ⊆ region addr len' :=
  Finset.Ico_subset_Ico_right (Nat.div_le_div_right (by omega))

theorem unmapped_reserved {s : Shared} {addr len : Nat}
    (h : ∀ page ∈ region addr len, s.pages page = none) :
    ((s.mapped addr len).unmapped addr len).pages = s.pages := by
  funext page
  simp only [Shared.unmapped, Shared.mapped]
  split_ifs with hpage
  · exact (h page hpage).symm
  · rfl

/-- What was mapped on top of the reserved range goes with it, unless it lies
outside, where another mapping may have been. -/
theorem unmapped_fixed_iff {s : Shared} {addr len size : Nat}
    (h : ∀ page ∈ region addr len, s.pages page = none) :
    (((s.mapped addr len).mapped addr size).unmapped addr len).pages = s.pages ↔
      region addr size ⊆ region addr len := by
  constructor
  · intro heq page hpage
    by_contra hout
    have hnew := congrFun heq page
    simp only [Shared.unmapped, Shared.mapped, if_neg hout, if_pos hpage] at hnew
    have hlt := s.numbered page _ hnew.symm
    omega
  · intro hsub
    rw [← unmapped_reserved h]
    funext page
    simp only [Shared.unmapped, Shared.mapped]
    split_ifs with hin hfixed
    · rfl
    · exact absurd (hsub hfixed) hin
    · rfl

theorem covered_of_header_le {size headerSize : Nat} (hheader : headerSize ≤ size)
    (hsize : size * 2 < 2 ^ 64) (ans : Answers) :
    Covered ans (mirrorLen size headerSize) size := by
  intro addr _ _ _
  have hlen : size ≤ mirrorLen size headerSize := by
    rw [mirrorLen, u64_of_lt hsize, subU64_of_le (by omega) hsize]
    omega
  exact region_mono addr hlen

section

variable {s : Shared} {o : ShmBase} {a : Args} {ans : Answers} {file : OpenShm.File}

theorem close_eq (h : ∀ addr, o.shmDataPtr ≠ .data addr) : o.close s = (s, clear) := by
  rw [close]
  split
  · next addr haddr => exact absurd haddr (h addr)
  · rfl

theorem close_snd (s : Shared) (o : ShmBase) : (o.close s).2 = clear := by
  rw [close]
  split <;> rfl

theorem valid_clear : Valid clear := .inl ⟨rfl, Int.le_refl 0⟩

theorem openShm_open (h : 0 < o.fd) : o.openShm s a ans = (false, s, o) := by
  rw [openShm, if_pos h]

structure Holds (s : Shared) (a : Args) (ans : Answers) (s' : Shared) (o' : ShmBase) : Prop where
  shmOpen : ∃ fd : Nat, ans.shmOpen = some fd ∧ o'.fd = fd
  fds : s'.fds = insert o'.fd s.fds
  pages : s'.pages = s.pages
  size : o'.size = openedSize a ans

structure Leaks (s : Shared) (s' : Shared) (o' : ShmBase) : Prop where
  shmDataPtr : o'.shmDataPtr = .null
  fd : o'.fd ≤ 0
  leaked : ¬ (s'.fds = s.fds ∧ s'.pages = s.pages ∧ o' = clear)

theorem leaks_of_insert {s' : Shared} {fd : Int} (h : fd ∉ s.fds)
    (hfds : s'.fds = insert fd s.fds) : Leaks s s' clear where
  shmDataPtr := rfl
  fd := Int.le_refl 0
  leaked := by
    rintro ⟨hsame, -, -⟩
    apply h
    rw [← hsame, hfds]
    exact Finset.mem_insert_self fd s.fds

theorem openShm_acquires (hfd : o.fd ≤ 0) (h : Acquires a ans) :
    ∃ s' o', o.openShm s a ans = (true, s', o') ∧ Holds s a ans s' o' := by
  obtain ⟨fd, stat, hopen, hstat, hsize⟩ := h
  have hvalid : ¬ (a.size ≠ 0 ∧ a.resize = false ∧ stat.size ≠ 0 ∧ a.size ≠ stat.size) := by
    rintro ⟨hne, hresize, hreal, hdiff⟩
    exact hdiff ((hsize hne).1 hresize hreal)
  have htruncated : ¬ (a.size ≠ 0 ∧ ans.ftruncate = false) := by
    rintro ⟨hne, hfails⟩
    rw [(hsize hne).2] at hfails
    cases hfails
  rw [openShm, if_neg (by omega)]
  simp only [hopen, hstat]
  rw [if_neg hvalid, if_neg htruncated]
  refine ⟨_, _, rfl, ⟨fd, hopen, rfl⟩, rfl, rfl, ?_⟩
  simp only [openedSize, hstat, Option.map_some, Option.getD_some]

theorem openShm_fails (hfd : o.fd ≤ 0)
    (hfresh : ∀ fd ∈ ans.shmOpen, (fd : Int) ∉ s.fds) (h : ¬ Acquires a ans) :
    ∃ s' o', o.openShm s a ans = (false, s', o') ∧ Leaks s s' o' := by
  rw [openShm, if_neg (by omega)]
  cases hopen : ans.shmOpen with
  | none =>
    refine ⟨_, _, rfl, rfl, (by decide : (-1 : Int) ≤ 0), ?_⟩
    rintro ⟨-, -, hclear⟩
    have hminus : (-1 : Int) = 0 := congrArg ShmBase.fd hclear
    omega
  | some fd =>
    have hleak : Leaks s { s with fds := insert (fd : Int) s.fds } clear :=
      leaks_of_insert (hfresh fd hopen) rfl
    cases hstat : ans.fstat with
    | none => exact ⟨_, _, rfl, hleak⟩
    | some stat =>
      dsimp only
      by_cases hsize : a.size ≠ 0 ∧ a.resize = false ∧ stat.size ≠ 0 ∧ a.size ≠ stat.size
      · rw [if_pos hsize]
        exact ⟨_, _, rfl, hleak⟩
      · by_cases htruncate : a.size ≠ 0 ∧ ans.ftruncate = false
        · rw [if_neg hsize, if_pos htruncate]
          exact ⟨_, _, rfl, hleak⟩
        · refine absurd ⟨fd, stat, hopen, hstat, fun hne => ⟨fun hresize hreal => ?_, ?_⟩⟩ h
          · exact not_not.mp fun hdiff => hsize ⟨hne, hresize, hreal, hdiff⟩
          · exact Bool.eq_true_of_not_eq_false fun hfails => htruncate ⟨hne, hfails⟩

theorem alone_next {trace : List (Bool × Unit)} {file' : OpenShm.File} {pc : OpenShm.Pc}
    (h : Alone a ans file trace file' pc) (file'' : OpenShm.File) (pc' : OpenShm.Pc)
    (hact : OpenShm.act ⟨a.size, a.resize⟩ file' pc (ans.fails pc) = some ((), file'', pc')) :
    ∃ trace, Alone a ans file trace file'' pc' :=
  ⟨_, Run.next h rfl hact⟩

theorem openShm_alone (hfd : o.fd ≤ 0) (hfile : ∀ stat ∈ ans.fstat, stat.size = file.getD 0)
    (hfound : a.size = 0 → file = none → ans.shmOpen = none) :
    ∃ trace file', Alone a ans file trace file'
      (bif (o.openShm s a ans).1 then .succeeded (openedSize a ans) else .failed) := by
  have hstart : Alone a ans file [] file .shmOpen := .start
  rw [openShm, if_neg (not_lt.mpr hfd)]
  cases hopen : ans.shmOpen with
  | none =>
    obtain ⟨trace, hfailed⟩ := alone_next hstart file .failed (by
      rw [Answers.fails, hopen]
      rfl)
    exact ⟨trace, _, hfailed⟩
  | some fd =>
    have hexists : ¬ (a.size = 0 ∧ file = none) := fun h => by
      rw [hfound h.1 h.2] at hopen
      cases hopen
    obtain ⟨_, hopened⟩ := alone_next hstart (some (file.getD 0)) .fstat (by
      rw [Answers.fails, hopen, OpenShm.act, if_neg]
      simpa using hexists)
    cases hstat : ans.fstat with
    | none =>
      obtain ⟨trace, hfailed⟩ := alone_next hopened _ .failed (by
        rw [Answers.fails, hstat]
        rfl)
      exact ⟨trace, _, hfailed⟩
    | some stat =>
      obtain ⟨_, hmeasured⟩ := alone_next hopened _ (.sizeCheck stat.size) (by
        rw [Answers.fails, hstat, hfile stat hstat]
        rfl)
      dsimp only
      by_cases hmismatch : a.size ≠ 0 ∧ a.resize = false ∧ stat.size ≠ 0 ∧ a.size ≠ stat.size
      · obtain ⟨trace, hfailed⟩ := alone_next hmeasured _ .failed (by
          rw [OpenShm.act, if_neg hmismatch.1, if_pos hmismatch.2])
        rw [if_pos hmismatch]
        exact ⟨trace, _, hfailed⟩
      · rw [if_neg hmismatch]
        by_cases hsize : a.size = 0
        · obtain ⟨trace, hdone⟩ := alone_next hmeasured _ (.succeeded stat.size) (by
            rw [OpenShm.act, if_pos hsize])
          have hopenedSize : openedSize a ans = stat.size := by
            rw [openedSize, if_pos hsize, hstat]
            rfl
          rw [if_neg fun h => h.1 hsize, hopenedSize]
          exact ⟨trace, _, hdone⟩
        · have hkept : ¬ (a.resize = false ∧ stat.size ≠ 0 ∧ a.size ≠ stat.size) := fun h =>
            hmismatch ⟨hsize, h⟩
          obtain ⟨_, hchecked⟩ := alone_next hmeasured _ .ftruncate (by
            rw [OpenShm.act, if_neg hsize, if_neg hkept])
          cases htruncate : ans.ftruncate with
          | false =>
            obtain ⟨trace, hfailed⟩ := alone_next hchecked _ .failed (by
              rw [Answers.fails, htruncate]
              rfl)
            rw [if_pos ⟨hsize, rfl⟩]
            exact ⟨trace, _, hfailed⟩
          | true =>
            obtain ⟨trace, hdone⟩ := alone_next hchecked _ (.succeeded a.size) (by
              rw [Answers.fails, htruncate]
              rfl)
            have hopenedSize : openedSize a ans = a.size := if_neg hsize
            rw [if_neg fun h => Bool.noConfusion h.2, hopenedSize]
            exact ⟨trace, _, hdone⟩

/-- A call on an object without a descriptor fails before the mapping, opens the
object, or gives back what it had mapped. -/
inductive Outcome (s : Shared) (maps covered : Prop) : Bool × Shared × ShmBase → Prop
  | leaked {s' : Shared} {o' : ShmBase} : ¬ maps → Leaks s s' o' →
      Outcome s maps covered (false, s', o')
  | opened {s' : Shared} {o' : ShmBase} (addr : Nat) : maps → covered →
      o'.shmDataPtr = .data addr → 0 ≤ o'.fd → Outcome s maps covered (true, s', o')
  | released {s' : Shared} : maps → s'.fds = s.fds → (s'.pages = s.pages ↔ covered) →
      Outcome s maps covered (false, s', clear)

namespace Outcome

variable {maps covered : Prop} {r : Bool × Shared × ShmBase}

theorem valid (h : Outcome s maps covered r) : Valid r.2.2 := by
  cases h with
  | leaked _ hleaks => exact .inl ⟨hleaks.shmDataPtr, hleaks.fd⟩
  | opened addr _ _ hdata hfd => exact .inr ⟨addr, hdata, hfd⟩
  | released => exact valid_clear

theorem leakless_iff (h : Outcome s maps covered r) :
    (r.1 = false → r.2.1.fds = s.fds ∧ r.2.1.pages = s.pages ∧ r.2.2 = clear) ↔
      maps ∧ covered := by
  cases h with
  | leaked hmaps hleaks =>
    exact ⟨fun hall => absurd (hall rfl) hleaks.leaked, fun hboth => absurd hboth.1 hmaps⟩
  | opened addr hmaps hcovered => exact ⟨fun _ => ⟨hmaps, hcovered⟩, fun _ hok => nomatch hok⟩
  | released hmaps hfds hpages =>
    constructor
    · intro hall
      exact ⟨hmaps, hpages.mp (hall rfl).2.1⟩
    · intro hboth _
      exact ⟨hfds, hpages.mpr hboth.2, rfl⟩

theorem changes (h : Outcome s maps covered r) (hopen : o.IsOpened) (hok : r.1 = false) :
    r.2.2 ≠ o := by
  rintro rfl
  cases h with
  | leaked _ hleaks => exact hopen hleaks.shmDataPtr
  | opened => cases hok
  | released => exact hopen rfl

end Outcome

namespace Holds

variable {s' : Shared} {o' : ShmBase} {len size : Nat}

theorem fd_nonneg (h : Holds s a ans s' o') : 0 ≤ o'.fd := by
  obtain ⟨fd, -, heq⟩ := h.shmOpen
  omega

theorem fd_fresh (h : Holds s a ans s' o') (hfresh : Fresh s ans len size) : o'.fd ∉ s.fds := by
  obtain ⟨fd, hopen, heq⟩ := h.shmOpen
  rw [heq]
  exact hfresh.shmOpen fd hopen

theorem mapFailed (h : Holds s a ans s' o') (hfresh : Fresh s ans len size)
    (hmmap : ans.mmap = none) {covered : Prop} :
    Outcome s (Maps a ans) covered (false, close s' { o' with shmDataPtr := .mapFailed }) := by
  rw [close_eq fun addr => Ptr.noConfusion]
  exact .leaked (fun hmaps => hmaps.2 hmmap) (leaks_of_insert (h.fd_fresh hfresh) h.fds)

theorem released (h : Holds s a ans s' o') (hfresh : Fresh s ans len size) {addr : Nat}
    {t : Shared} {covered : Prop} (hmaps : Maps a ans) (hfds : t.fds = s'.fds)
    (hpages : (t.unmapped addr len).pages = s.pages ↔ covered) :
    Outcome s (Maps a ans) covered
      (false, close t { o' with shmDataPtr := .data addr, mapSize := len }) := by
  refine .released hmaps ?_ hpages
  change t.fds.erase o'.fd = s.fds
  rw [hfds, h.fds]
  exact Finset.erase_insert (h.fd_fresh hfresh)

end Holds

theorem outcome_of_openShm {covered : Prop} {k : Shared → ShmBase → Bool × Shared × ShmBase}
    (hfd : o.fd ≤ 0) (hfresh : ∀ fd ∈ ans.shmOpen, (fd : Int) ∉ s.fds)
    (hk : ∀ s' o', Acquires a ans → Holds s a ans s' o' →
      Outcome s (Maps a ans) covered (k s' o')) :
    Outcome s (Maps a ans) covered
      (match o.openShm s a ans with
      | (false, s, o) => (false, s, o)
      | (true, s, o) => k s o) := by
  by_cases hacquires : Acquires a ans
  · obtain ⟨s', o', heq, hholds⟩ := openShm_acquires hfd hacquires
    rw [heq]
    exact hk s' o' hacquires hholds
  · obtain ⟨s', o', heq, hleaks⟩ := openShm_fails hfd hfresh hacquires
    rw [heq]
    exact .leaked (fun hmaps => hacquires hmaps.1) hleaks

theorem maps_of_some {addr : Nat} (h : Acquires a ans) (hmmap : ans.mmap = some addr) :
    Maps a ans :=
  ⟨h, hmmap ▸ Option.some_ne_none addr⟩

theorem openPlain_outcome (hfd : o.fd ≤ 0)
    (hfresh : Fresh s ans (openedSize a ans) (openedSize a ans)) :
    Outcome s (Maps a ans) True (o.openPlain s a ans) := by
  apply outcome_of_openShm hfd hfresh.shmOpen
  intro s' o' hacquires hholds
  cases hmmap : ans.mmap with
  | none => exact hholds.mapFailed hfresh hmmap
  | some addr => exact .opened addr (maps_of_some hacquires hmmap) trivial rfl hholds.fd_nonneg

theorem openMirror_outcome {headerSize : Nat} (hfd : o.fd ≤ 0)
    (hfresh : Fresh s ans (mirrorLen (openedSize a ans) headerSize) (openedSize a ans)) :
    Outcome s (Maps a ans)
      (Covered ans (mirrorLen (openedSize a ans) headerSize) (openedSize a ans))
      (o.openMirror s a headerSize ans) := by
  apply outcome_of_openShm hfd hfresh.shmOpen
  intro s' o' hacquires hholds
  cases hmmap : ans.mmap with
  | none => exact hholds.mapFailed hfresh hmmap
  | some addr =>
    have hmaps := maps_of_some hacquires hmmap
    dsimp only
    rw [hholds.size]
    generalize mirrorLen (openedSize a ans) headerSize = len at hfresh ⊢
    have hunused : ∀ page ∈ region addr len, s'.pages page = none := by
      rw [hholds.pages]
      exact hfresh.mmap addr hmmap
    cases hdata1 : ans.data1 with
    | none =>
      refine hholds.released hfresh hmaps (s'.mapped_fds addr len)
        (iff_of_true ?_ fun _ _ hne => absurd hdata1 hne)
      rw [← hholds.pages]
      exact unmapped_reserved hunused
    | some data1 =>
      obtain rfl : data1 = addr := hfresh.data1 addr hmmap data1 hdata1
      dsimp only
      rw [if_neg (not_not.mpr rfl)]
      cases hdata2 : ans.data2 with
      | none =>
        refine hholds.released hfresh hmaps
          (((s'.mapped data1 len).mapped_fds _ _).trans (s'.mapped_fds data1 len)) ?_
        rw [← hholds.pages, unmapped_fixed_iff hunused]
        constructor
        · intro hsub addr haddr _ _
          obtain rfl : data1 = addr := Option.some_inj.mp (hmmap.symm.trans haddr)
          exact hsub
        · intro hcovered
          exact hcovered data1 hmmap (hdata1 ▸ Option.some_ne_none data1) hdata2
      | some data2 =>
        obtain rfl := hfresh.data2 data1 hmmap data2 hdata2
        dsimp only
        rw [if_neg (not_not.mpr rfl)]
        exact .opened data1 hmaps (fun _ _ _ hnone => nomatch hdata2.symm.trans hnone) rfl
          hholds.fd_nonneg

theorem close_valid (s : Shared) (o : ShmBase) : Valid (o.close s).2 := by
  rw [close_snd]
  exact valid_clear

theorem act_valid {i : Call × Answers} (h : Valid o) (hallows : Allows s i) :
    Valid (act s o i).2.2 := by
  obtain ⟨call, ans⟩ := i
  by_cases hfd : 0 < o.fd
  · cases call with
    | openPlain a =>
      rw [act, openPlain, openShm_open hfd]
      exact h
    | openMirror a headerSize =>
      rw [act, openMirror, openShm_open hfd]
      exact h
    | close => exact close_valid s o
  · cases call with
    | openPlain a => exact (openPlain_outcome (Int.not_lt.mp hfd) hallows).valid
    | openMirror a headerSize => exact (openMirror_outcome (Int.not_lt.mp hfd) hallows).valid
    | close => exact close_valid s o

theorem leakless_iff_of_outcome {maps covered : Prop} {r : Bool × Shared × ShmBase}
    (h : Valid o) (hpos : 0 < o.fd → r = (false, s, o))
    (hnone : o.fd ≤ 0 → Outcome s maps covered r) :
    (if o.IsOpened then r.1 = false ∧ r.2.1 = s ∧ r.2.2 = o
      else r.1 = false → r.2.1.fds = s.fds ∧ r.2.1.pages = s.pages ∧ r.2.2 = clear) ↔
      if o.IsOpened then o.fd ≠ 0 else maps ∧ covered := by
  obtain ⟨hnull, hfd⟩ | ⟨addr, hdata, hfd⟩ := h
  · have hclosed : ¬ o.IsOpened := not_not.mpr hnull
    rw [if_neg hclosed, if_neg hclosed]
    exact (hnone hfd).leakless_iff
  · have hopen : o.IsOpened := by
      rw [IsOpened, hdata]
      exact Ptr.noConfusion
    rw [if_pos hopen, if_pos hopen]
    rcases Int.lt_or_le 0 o.fd with hlt | hle
    · rw [hpos hlt]
      exact iff_of_true ⟨rfl, rfl, rfl⟩ (ne_of_gt hlt)
    · refine iff_of_false ?_ (not_not.mpr (le_antisymm hle hfd))
      rintro ⟨hok, -, hsame⟩
      exact (hnone hle).changes hopen hok hsame

theorem act_leakless_iff {i : Call × Answers} (h : Valid o) (hallows : Allows s i) :
    Leakless s o i.1 (act s o i) ↔ Careful o i := by
  obtain ⟨call, ans⟩ := i
  cases call with
  | openPlain a =>
    have hiff := leakless_iff_of_outcome (r := o.openPlain s a ans) h
      (fun hlt => by rw [openPlain, openShm_open hlt]) fun hle => openPlain_outcome hle hallows
    rw [and_true] at hiff
    exact hiff
  | openMirror a headerSize =>
    exact leakless_iff_of_outcome (r := o.openMirror s a headerSize ans) h
      (fun hlt => by rw [openMirror, openShm_open hlt]) fun hle => openMirror_outcome hle hallows
  | close => exact Iff.rfl

end

section

variable {P : Type*} [DecidableEq P] {s : Shared} {trace : List ((P × Call × Answers) × Bool)}
  {g g' : System P}

theorem run_objects
    (run : Run step (fun g i => Allows g.shared i.2) (constructed s) trace g) (p : P) :
    Valid (g.pc p) := by
  refine run.invariant (I := fun g => ∀ p, Valid (g.pc p)) (fun _ => valid_clear) ?_ p
  rintro g ⟨p, i⟩ ok g' hvalid hallows hstep
  obtain ⟨next, hact, rfl⟩ := Processes.step_cases hstep
  obtain rfl : (act g.shared (g.pc p) i).2 = next := congrArg Prod.snd (Option.some_inj.mp hact)
  exact Processes.forall_put (act_valid (hvalid p) hallows) fun q _ => hvalid q

/-- In every run of calls on the objects of a process: an open that fails leaks
nothing exactly if it is a careful one. -/
theorem run_leakless_iff
    (run : Run step (fun g i => Allows g.shared i.2) (constructed s) trace g) {p : P}
    {i : Call × Answers} {ok : Bool} (hallows : Allows g.shared i)
    (hstep : step g (p, i) = some (ok, g')) :
    Leakless g.shared (g.pc p) i.1 (ok, g'.shared, g'.pc p) ↔ Careful (g.pc p) i := by
  obtain ⟨next, hact, rfl⟩ := Processes.step_cases hstep
  have hr : act g.shared (g.pc p) i = (ok, next) := Option.some_inj.mp hact
  rw [Processes.put_pc_self, Processes.put_shared, ← act_leakless_iff (run_objects run p) hallows,
    hr]

def streams : Shared :=
  ⟨{0, 1, 2}, fun _ => none, 0, fun _ n h => absurd h (Option.some_ne_none n).symm, 0⟩

def segment (size : Nat) : Args := ⟨⟨[116], by decide⟩, size, false⟩

def answered : Answers := ⟨some 3, some ⟨4096, 7⟩, true, some 65536, some 65536, none⟩

theorem run_leakless_iff_mirror :
    ∃ g', step (constructed streams : System Unit)
        ((), .openMirror (segment 4096) 4096, answered) = some (false, g') ∧
      (Leakless streams clear (.openMirror (segment 4096) 4096) (false, g'.shared, g'.pc ()) ↔
        Careful clear (.openMirror (segment 4096) 4096, answered)) :=
  ⟨_, rfl, run_leakless_iff (s := streams) (g := constructed streams) (p := ())
    (i := (.openMirror (segment 4096) 4096, answered)) .start (by decide) rfl⟩

/-- A file of one page opened for another size. -/
theorem size_mismatch_leaks :
    ∃ trace g g', Run step (fun g i => Allows g.shared i.2) (constructed streams : System Unit)
      trace g ∧ Allows g.shared (.openPlain (segment 4097), answered) ∧
      step g ((), .openPlain (segment 4097), answered) = some (false, g') ∧
      g'.shared.fds = insert 3 g.shared.fds ∧
      ¬ Leakless g.shared (g.pc ()) (.openPlain (segment 4097)) (false, g'.shared, g'.pc ()) := by
  refine ⟨_, _, _, .next (i := ((), Call.close, answered)) (.next
    (i := ((), .openPlain (segment 4096), answered)) .start ?_ rfl) ?_ rfl, ?_, rfl, ?_, ?_⟩
  · decide
  · trivial
  · decide +kernel
  · decide +kernel
  · intro h
    exact absurd (h rfl).1 (by decide +kernel)

end

end HiloUtils.FailedOpen
