import HiloUtils.Word

/-! The history counter: 301 one-second slots used in rotation, their running
sums, and lifetime totals. All members are signed 64-bit. `clockMs` is the
reading of `getClockMs` a call makes; the locks are left out. -/

namespace HiloUtils

open Word

structure HistoryRec where
  count : Int
  sum : Int
  deriving DecidableEq

structure HistoryCounterInfo where
  lastCount : Int
  lastSumm : Int
  intervalCount : Int
  intervalSumm : Int
  totalCount : Int
  totalSumm : Int
  deriving DecidableEq

structure HistoryCounterData where
  recs : Int → HistoryRec
  currentRec : Int
  totalCount : Int
  totalSumm : Int
  intervalCount : Int
  intervalSumm : Int
  recIndex : Int

namespace HistoryCounterData

def historySize : Int := 60 * 5

def clockSecond (clockMs : Int) : Int := clockMs.tdiv 1000

def clear (clockMs : Int) : HistoryCounterData where
  recs := fun _ => ⟨0, 0⟩
  currentRec := clockSecond clockMs
  totalCount := 0
  totalSumm := 0
  intervalCount := 0
  intervalSumm := 0
  recIndex := (clockSecond clockMs).tmod (historySize + 1)

/-- One round of the loop in `update`: the next slot leaves the window. -/
def slide (h : HistoryCounterData) : HistoryCounterData :=
  let currentRec := i64 (h.currentRec + 1)
  let recIndex := currentRec.tmod (historySize + 1)
  { h with
    currentRec := currentRec
    recIndex := recIndex
    intervalCount := i64 (h.intervalCount - (h.recs recIndex).count)
    intervalSumm := i64 (h.intervalSumm - (h.recs recIndex).sum)
    recs := Function.update h.recs recIndex ⟨0, 0⟩ }

/-- `while (current_rec != index)`: 64-bit words differ if their difference is
not zero in 64 bits. -/
def updateLoop (index : Int) (h : HistoryCounterData) : HistoryCounterData :=
  if (index - h.currentRec) % 2 ^ 64 = 0 then h else updateLoop index h.slide
termination_by ((index - h.currentRec) % 2 ^ 64).toNat
decreasing_by
  simp only [slide, i64]
  omega

/-- A gap longer than the window wipes all slots at once. -/
def update (h : HistoryCounterData) (clockMs : Int) : HistoryCounterData :=
  let index := clockSecond clockMs
  if historySize < i64 (index - h.currentRec) then
    { h with
      recs := fun _ => ⟨0, 0⟩
      intervalCount := 0
      intervalSumm := 0
      currentRec := index }
  else updateLoop index h

def increment (h : HistoryCounterData) (clockMs : Int) : HistoryCounterData :=
  let h := h.update clockMs
  { h with
    recs := Function.update h.recs h.recIndex
      { h.recs h.recIndex with count := i64 ((h.recs h.recIndex).count + 1) }
    totalCount := i64 (h.totalCount + 1)
    intervalCount := i64 (h.intervalCount + 1) }

def add (h : HistoryCounterData) (c v : Int) : HistoryCounterData :=
  { h with
    recs := Function.update h.recs h.recIndex
      ⟨i64 ((h.recs h.recIndex).count + c), i64 ((h.recs h.recIndex).sum + v)⟩
    totalCount := i64 (h.totalCount + c)
    intervalCount := i64 (h.intervalCount + c)
    totalSumm := i64 (h.totalSumm + v)
    intervalSumm := i64 (h.intervalSumm + v) }

def addVolume (h : HistoryCounterData) (clockMs v : Int) : HistoryCounterData :=
  (h.update clockMs).add 1 v

def addBatch (h : HistoryCounterData) (clockMs c v : Int) : HistoryCounterData :=
  (h.update clockMs).add c v

def lastIndex (h : HistoryCounterData) : Int :=
  if h.recIndex = 0 then historySize else h.recIndex - 1

/-! The getters that read the window advance it first. -/

def getTotalCount (h : HistoryCounterData) : Int := h.totalCount

def getTotalVolume (h : HistoryCounterData) : Int := h.totalSumm

def getIntervalCount (h : HistoryCounterData) (clockMs : Int) : Int × HistoryCounterData :=
  ((h.update clockMs).intervalCount, h.update clockMs)

def getIntervalVolume (h : HistoryCounterData) (clockMs : Int) : Int × HistoryCounterData :=
  ((h.update clockMs).intervalSumm, h.update clockMs)

def getLastCount (h : HistoryCounterData) (clockMs : Int) : Int × HistoryCounterData :=
  (((h.update clockMs).recs (h.update clockMs).lastIndex).count, h.update clockMs)

def getLastVolume (h : HistoryCounterData) (clockMs : Int) : Int × HistoryCounterData :=
  (((h.update clockMs).recs (h.update clockMs).lastIndex).sum, h.update clockMs)

/-- A truncated quotient, 0 for no events. -/
def average (count sum : Int) : Int := if count = 0 then 0 else i64 (sum.tdiv count)

def getLastAvg (h : HistoryCounterData) (clockMs : Int) : Int × HistoryCounterData :=
  let h := h.update clockMs
  (average (h.recs h.lastIndex).count (h.recs h.lastIndex).sum, h)

def getTotalAvg (h : HistoryCounterData) (clockMs : Int) : Int × HistoryCounterData :=
  let h := h.update clockMs
  (average h.totalCount h.totalSumm, h)

def getIntervalAvg (h : HistoryCounterData) (clockMs : Int) : Int × HistoryCounterData :=
  let h := h.update clockMs
  (average h.intervalCount h.intervalSumm, h)

/-- A snapshot that does not advance the window. -/
def getInfo (h : HistoryCounterData) : HistoryCounterInfo where
  lastCount := (h.recs h.lastIndex).count
  lastSumm := (h.recs h.lastIndex).sum
  intervalCount := h.intervalCount
  intervalSumm := h.intervalSumm
  totalCount := h.totalCount
  totalSumm := h.totalSumm

theorem updateLoop_invariant {P : HistoryCounterData → Prop} (hslide : ∀ h, P h → P h.slide)
    (index : Int) {h : HistoryCounterData} (hp : P h) : P (updateLoop index h) := by
  induction h using updateLoop.induct index with
  | case1 h hend => rwa [updateLoop, if_pos hend]
  | case2 h hnext ih =>
    rw [updateLoop, if_neg hnext]
    exact ih (hslide h hp)

/-! The lifetime totals do not depend on the clock. -/

theorem updateLoop_totals (index : Int) (h : HistoryCounterData) :
    (updateLoop index h).totalCount = h.totalCount ∧
      (updateLoop index h).totalSumm = h.totalSumm :=
  updateLoop_invariant (P := fun s => s.totalCount = h.totalCount ∧ s.totalSumm = h.totalSumm)
    (fun _ hs => hs) index ⟨rfl, rfl⟩

theorem update_totals (h : HistoryCounterData) (clockMs : Int) :
    (h.update clockMs).totalCount = h.totalCount ∧ (h.update clockMs).totalSumm = h.totalSumm := by
  simp only [update]
  split
  · exact ⟨rfl, rfl⟩
  · exact updateLoop_totals _ h

theorem addBatch_totalCount (h : HistoryCounterData) (clockMs c v : Int) :
    (h.addBatch clockMs c v).totalCount = i64 (h.totalCount + c) := by
  simp only [addBatch, add, (h.update_totals clockMs).1]

theorem addBatch_totalSumm (h : HistoryCounterData) (clockMs c v : Int) :
    (h.addBatch clockMs c v).totalSumm = i64 (h.totalSumm + v) := by
  simp only [addBatch, add, (h.update_totals clockMs).2]

end HistoryCounterData

/-- A batch collected outside the segment. -/
structure HistoryCounterLocal where
  count : Int
  volume : Int
  deriving DecidableEq

namespace HistoryCounterLocal

def increment (l : HistoryCounterLocal) : HistoryCounterLocal :=
  { l with count := i64 (l.count + 1) }

def addVolume (l : HistoryCounterLocal) (v : Int) : HistoryCounterLocal where
  count := i64 (l.count + 1)
  volume := i64 (l.volume + v)

def transferTo (l : HistoryCounterLocal) (h : HistoryCounterData) (clockMs : Int) :
    HistoryCounterLocal × HistoryCounterData :=
  (⟨0, 0⟩, h.addBatch clockMs l.count l.volume)

end HistoryCounterLocal

end HiloUtils
