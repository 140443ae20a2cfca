import HiloUtils.StatusCheck

/-! `UptimeCheckStatus` of `Uptime.cpp`: the activity counters of a list of
processes against the clock. Each process in trouble sets the status anew, and
`abs` takes an `int`; the counters and the clock are given. -/

namespace HiloUtils.Uptime

open Word CString StatusCheck

theorem not_mem_lastActive (process : CName) :
    0 ∉ ascii ['w', 'd', '.'] ++ process.1 ++
      ascii ['.', 'l', 'a', 's', 't', '_', 'a', 'c', 't', 'i', 'v', 'e'] :=
  not_mem_format (by decide) (by decide) process

def cnameLastActive (process : CName) : CName :=
  cut nameMax ⟨_, not_mem_lastActive process⟩

def missingLine (process : CName) : String := "Process " ++ text process ++ " not active!"

def inactiveLine (process : CName) (notActive : Int) : String :=
  "Process " ++ text process ++ " not active in last " ++ toString notActive ++ " seconds!"

/-- `int abs(int)`: what it is given is cut to 32 bits. -/
def absInt (x : Int) : Int := i32 (i32 x).natAbs

def statusBy (missing : Bool) (inactivity : Int) : Status :=
  if missing = true ∨ 10 < inactivity then .critical
  else if 3 < inactivity then .warning
  else .ok

section

variable (counterValue : CName → Int) (now : Int)

/-- The body of the loop; `now` is in milliseconds. -/
def checkProcess (state : Status × List String) (process : CName) : Status × List String :=
  let lastActive := counterValue (cnameLastActive process)
  if lastActive = int64Min then (.critical, state.2 ++ [missingLine process])
  else
    let notActive := absInt (i64 (now.tdiv 1000 - lastActive))
    if 10 < notActive then (.critical, state.2 ++ [inactiveLine process notActive])
    else if 3 < notActive then (.warning, state.2 ++ [inactiveLine process notActive])
    else state

def uptimeCheckStatus (processes : List CName) : Status × List String :=
  processes.foldl (checkProcess counterValue now) (.ok, [])

def missing (process : CName) : Bool := counterValue (cnameLastActive process) = int64Min

/-- A process's own status, by the seconds that it was not active. -/
def processStatus (process : CName) : Status :=
  statusBy (missing counterValue process)
    (now.tdiv 1000 - counterValue (cnameLastActive process)).natAbs

/-- The status by what `abs` leaves of these seconds. -/
def seenStatus (process : CName) : Status :=
  statusBy (missing counterValue process)
    (absInt (i64 (now.tdiv 1000 - counterValue (cnameLastActive process))))

end

def worst (statuses : List Status) : Status := statuses.foldl Status.max .ok

def assigned (status own : Status) : Status := if own = .ok then status else own

def CriticalLast (statuses : List Status) : Prop :=
  ∃ before after, statuses = before ++ .critical :: after ∧ .warning ∉ after

theorem checkProcess_status (counterValue : CName → Int) (now : Int)
    (state : Status × List String) (process : CName) :
    (checkProcess counterValue now state process).1 =
      assigned state.1 (seenStatus counterValue now process) := by
  simp only [checkProcess, seenStatus, statusBy, missing, decide_eq_true_eq]
  by_cases hmissing : counterValue (cnameLastActive process) = int64Min
  · simp only [if_pos hmissing, if_pos (Or.inl hmissing)]
    rfl
  · simp only [if_neg hmissing]
    by_cases hlong : 10 < absInt (i64 (now.tdiv 1000 - counterValue (cnameLastActive process)))
    · rw [if_pos hlong, if_pos (Or.inr hlong)]
      rfl
    · rw [if_neg hlong, if_neg (not_or.mpr ⟨hmissing, hlong⟩)]
      split_ifs <;> rfl

theorem uptimeCheckStatus_status (counterValue : CName → Int) (now : Int)
    (processes : List CName) :
    (uptimeCheckStatus counterValue now processes).1 =
      (processes.map (seenStatus counterValue now)).foldl assigned .ok := by
  rw [uptimeCheckStatus]
  generalize (([] : List String)) = lines
  generalize Status.ok = status
  induction processes generalizing status lines with
  | nil => rfl
  | cons process processes ih =>
    have hstep := checkProcess_status counterValue now (status, lines) process
    rw [List.foldl_cons, List.map_cons, List.foldl_cons, ← hstep]
    exact ih _ _

theorem statusBy_ne_unknown (missing : Bool) (inactivity : Int) :
    statusBy missing inactivity ≠ .unknown := by
  rw [statusBy]
  split_ifs <;> decide

theorem absInt_of_natAbs_le {x : Int} (h : x.natAbs ≤ 10) : absInt (i64 x) = x.natAbs := by
  simp only [absInt, i64, i32]
  omega

theorem seenStatus_eq {counterValue : CName → Int} {now : Int} {process : CName}
    (h : processStatus counterValue now process ≠ .critical) :
    seenStatus counterValue now process = processStatus counterValue now process := by
  have hshort : (now.tdiv 1000 - counterValue (cnameLastActive process)).natAbs ≤ 10 := by
    rw [processStatus, statusBy] at h
    by_contra hlong
    exact h (if_pos (Or.inr (by omega)))
  rw [seenStatus, absInt_of_natAbs_le hshort, processStatus]

theorem max_right_comm (x y z : Status) : (x.max y).max z = (x.max z).max y := by
  cases x <;> cases y <;> cases z <;> rfl

theorem worst_perm {l l' : List Status} (h : l.Perm l') : worst l = worst l' :=
  h.foldl_eq' (fun _ _ _ _ s => max_right_comm s _ _) .ok

theorem worst_append (l : List Status) (s : Status) : worst (l ++ [s]) = (worst l).max s := by
  rw [worst, List.foldl_append]
  rfl

theorem worst_eq {l : List Status} (hl : .unknown ∉ l) :
    worst l = if .critical ∈ l then .critical else if .warning ∈ l then .warning else .ok := by
  induction l using List.reverseRecOn with
  | nil => rfl
  | append_singleton l s ih =>
    rw [worst_append, ih fun h => hl (List.mem_append_left _ h)]
    simp only [List.mem_append, List.mem_singleton] at hl ⊢
    cases s with
    | ok => split_ifs <;> simp_all [Status.max, Status.rank]
    | warning => split_ifs <;> simp_all [Status.max, Status.rank]
    | critical => split_ifs <;> simp_all [Status.max, Status.rank]
    | unknown => exact absurd (Or.inr rfl) hl

theorem assigned_critical {l : List Status} (hunknown : .unknown ∉ l) (hwarning : .warning ∉ l) :
    l.foldl assigned .critical = .critical := by
  induction l with
  | nil => rfl
  | cons s l ih =>
    rw [List.mem_cons, not_or] at hunknown hwarning
    rw [List.foldl_cons]
    have hkeep : assigned .critical s = .critical := by
      cases s <;> simp_all [assigned]
    rw [hkeep]
    exact ih hunknown.2 hwarning.2

theorem of_assigned_critical {l : List Status} {s : Status}
    (h : l.foldl assigned s = .critical) :
    (s = .critical ∧ .warning ∉ l) ∨
      ∃ before after, l = before ++ .critical :: after ∧ .warning ∉ after := by
  induction l generalizing s with
  | nil => exact Or.inl ⟨h, List.not_mem_nil⟩
  | cons x l ih =>
    rw [List.foldl_cons] at h
    obtain ⟨hs, hl⟩ | ⟨before, after, rfl, hafter⟩ := ih h
    · by_cases hx : x = .ok
      · subst hx
        exact Or.inl ⟨hs, by simp [hl]⟩
      · rw [assigned, if_neg hx] at hs
        exact Or.inr ⟨[], l, by rw [hs, List.nil_append], hl⟩
    · exact Or.inr ⟨x :: before, after, rfl, hafter⟩

theorem assigned_eq_worst {l : List Status} (hunknown : .unknown ∉ l) (hcritical : .critical ∉ l) :
    l.foldl assigned .ok = worst l := by
  induction l using List.reverseRecOn with
  | nil => rfl
  | append_singleton l s ih =>
    have hcritical' : Status.critical ∉ l := fun h => hcritical (List.mem_append_left _ h)
    have hunknown' : Status.unknown ∉ l := fun h => hunknown (List.mem_append_left _ h)
    rw [worst_append, List.foldl_append, ih hunknown' hcritical', worst_eq hunknown',
      if_neg hcritical']
    cases s with
    | ok => split_ifs <;> rfl
    | warning => split_ifs <;> rfl
    | critical => exact absurd (List.mem_append_right _ List.mem_cons_self) hcritical
    | unknown => exact absurd (List.mem_append_right _ List.mem_cons_self) hunknown

theorem assigned_eq_critical_iff {l : List Status} (hunknown : .unknown ∉ l) :
    l.foldl assigned .ok = .critical ↔ CriticalLast l := by
  constructor
  · intro h
    obtain ⟨hs, -⟩ | hlast := of_assigned_critical h
    · cases hs
    · exact hlast
  · rintro ⟨before, after, rfl, hafter⟩
    rw [List.mem_append, List.mem_cons, not_or, not_or] at hunknown
    rw [List.foldl_append, List.foldl_cons]
    exact assigned_critical hunknown.2.2 hafter

section

variable (counterValue : CName → Int) (now : Int) (processes : List CName)

theorem processStatuses_known : .unknown ∉ processes.map (processStatus counterValue now) := by
  intro h
  obtain ⟨process, -, hunknown⟩ := List.mem_map.mp h
  exact statusBy_ne_unknown _ _ hunknown

theorem seenStatuses_known : .unknown ∉ processes.map (seenStatus counterValue now) := by
  intro h
  obtain ⟨process, -, hunknown⟩ := List.mem_map.mp h
  exact statusBy_ne_unknown _ _ hunknown

theorem uptimeCheckStatus_of_uncritical
    (h : .critical ∉ processes.map (processStatus counterValue now)) :
    (uptimeCheckStatus counterValue now processes).1 =
      worst (processes.map (processStatus counterValue now)) := by
  have hseen : processes.map (seenStatus counterValue now) =
      processes.map (processStatus counterValue now) :=
    List.map_congr_left fun process hprocess =>
      seenStatus_eq fun hcritical => h (List.mem_map.mpr ⟨process, hprocess, hcritical⟩)
  rw [uptimeCheckStatus_status, hseen, assigned_eq_worst (processStatuses_known _ _ _) h]

theorem uptimeCheckStatus_of_critical
    (h : .critical ∈ processes.map (processStatus counterValue now)) :
    (uptimeCheckStatus counterValue now processes).1 =
        worst (processes.map (processStatus counterValue now)) ↔
      CriticalLast (processes.map (seenStatus counterValue now)) := by
  rw [worst_eq (processStatuses_known _ _ _), if_pos h, uptimeCheckStatus_status,
    assigned_eq_critical_iff (seenStatuses_known _ _ _)]

theorem uptimeCheckStatus_last {process : CName}
    (h : seenStatus counterValue now process = .warning) :
    (uptimeCheckStatus counterValue now (processes ++ [process])).1 = .warning := by
  rw [uptimeCheckStatus_status, List.map_append, List.foldl_append, List.map_singleton, h]
  rfl

/-- The worst status is returned exactly when none is critical or one is seen to
be, with no warning seen after it, and in whatever order exactly when, besides a
critical one, no warning is seen at all. -/
theorem uptimeCheckStatus_worst_iff :
    ((uptimeCheckStatus counterValue now processes).1 =
        worst (processes.map (processStatus counterValue now)) ↔
      (.critical ∈ processes.map (processStatus counterValue now) →
        CriticalLast (processes.map (seenStatus counterValue now)))) ∧
    ((∀ listed : List CName, listed.Perm processes →
        (uptimeCheckStatus counterValue now listed).1 =
          worst (processes.map (processStatus counterValue now))) ↔
      (.critical ∈ processes.map (processStatus counterValue now) →
        .critical ∈ processes.map (seenStatus counterValue now) ∧
          .warning ∉ processes.map (seenStatus counterValue now))) := by
  by_cases hcritical : .critical ∈ processes.map (processStatus counterValue now)
  · have hof := uptimeCheckStatus_of_critical counterValue now
    rw [hof processes hcritical]
    refine ⟨⟨fun h _ => h, fun h => h hcritical⟩, ?_, ?_⟩
    · intro hall _
      constructor
      · obtain ⟨before, after, hsplit, -⟩ := (hof processes hcritical).mp (hall _ (.refl _))
        rw [hsplit]
        exact List.mem_append_right _ List.mem_cons_self
      · intro hwarning
        obtain ⟨process, hmem, hprocess⟩ := List.mem_map.mp hwarning
        have hperm : (processes.erase process ++ [process]).Perm processes :=
          List.perm_append_comm.trans (List.perm_cons_erase hmem).symm
        have hlast := uptimeCheckStatus_last counterValue now (processes.erase process) hprocess
        rw [hall _ hperm, worst_eq (processStatuses_known _ _ _), if_pos hcritical] at hlast
        cases hlast
    · intro hunmixed listed hperm
      obtain ⟨hfirst, hwarning⟩ := hunmixed hcritical
      have hown := hperm.map (processStatus counterValue now)
      have hseen := hperm.map (seenStatus counterValue now)
      rw [← worst_perm hown, hof listed (hown.mem_iff.mpr hcritical)]
      obtain ⟨before, after, hsplit⟩ := List.append_of_mem (hseen.mem_iff.mpr hfirst)
      refine ⟨before, after, hsplit, fun hafter => hwarning ?_⟩
      rw [← hseen.mem_iff, hsplit]
      exact List.mem_append_right _ (List.mem_cons_of_mem _ hafter)
  · refine ⟨iff_of_true (uptimeCheckStatus_of_uncritical _ _ _ hcritical) (absurd · hcritical),
      iff_of_true (fun listed hperm => ?_) (absurd · hcritical)⟩
    have hown := hperm.map (processStatus counterValue now)
    rw [← worst_perm hown]
    exact uptimeCheckStatus_of_uncritical _ _ _ (mt hown.mem_iff.mp hcritical)

end

example : processStatus (fun _ => 0) (2 ^ 32 * 1000) ⟨[65], by decide⟩ = .critical ∧
    seenStatus (fun _ => 0) (2 ^ 32 * 1000) ⟨[65], by decide⟩ = .ok := by
  decide

/-- A process that is gone, and after it one inactive for five seconds. -/
theorem uptimeCheckStatus_forgets_critical :
    ¬ ∀ (counterValue : CName → Int) (now : Int) (processes : List CName),
      (uptimeCheckStatus counterValue now processes).1 =
        worst (processes.map (processStatus counterValue now)) := by
  intro hall
  have hcut := hall
    (fun name => if name = cnameLastActive ⟨[65], by decide⟩ then int64Min else 1000) 1005000
    [⟨[65], by decide⟩, ⟨[66], by decide⟩]
  revert hcut
  decide

end HiloUtils.Uptime
