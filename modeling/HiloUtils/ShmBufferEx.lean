import HiloUtils.HistoryCounterData
import HiloUtils.ShmBufferExData

/-! The queue together with its counters: the tallies it keeps are handed over
to three history counters, four value counters show its size, and a snapshot
of both is what the status report reads. The locks are left out. -/

namespace HiloUtils

open Word

inductive Status
  | ok
  | warning
  | critical
  | unknown
  deriving DecidableEq

def Status.rank : Status → Nat
  | .ok => 0
  | .warning => 1
  | .critical => 2
  | .unknown => 3

/-- `std::max`: the first argument if they are equal. -/
def Status.max (a b : Status) : Status := if a.rank < b.rank then b else a

inductive StatusFormat
  | nagios
  | simple
  deriving DecidableEq

structure QueueStat where
  name : String
  count : Nat
  dataSize : Nat
  capacity : Nat
  dropHistory : HistoryCounterInfo
  messageHistory : HistoryCounterInfo
  errorHistory : HistoryCounterInfo
  deriving DecidableEq

namespace QueueStat

def full (stat : QueueStat) : Int :=
  i32 (u64 (stat.dataSize * 100) / stat.capacity : Nat)

def fullLine (stat : QueueStat) : String :=
  "Queue " ++ stat.name ++ " " ++ toString stat.full ++ "% full"

def nowLine (stat : QueueStat) : String := "Queue " ++ stat.name ++ " now has errors"

def lastLine (stat : QueueStat) : String :=
  "Queue " ++ stat.name ++ " has errors in last " ++ toString HistoryCounterData.historySize ++
    " seconds"

/-- The first half of `CheckStatus`; a capacity of zero is divided by. -/
def checkFull (stat : QueueStat) (format : StatusFormat) (ignoreFull : Bool) :
    Option (Status × List String) :=
  if ignoreFull then some (.ok, [])
  else if stat.capacity = 0 then none
  else
    let lines := if format = .nagios ∨ 80 < stat.full then [stat.fullLine] else []
    let status := if 80 < stat.full then .warning else .ok
    some (if 90 < stat.full then .critical else status, lines)

def checkStatus (stat : QueueStat) (format : StatusFormat) (ignoreFull : Bool) :
    Option (Status × List String) :=
  (stat.checkFull format ignoreFull).map fun (status, lines) =>
    if 0 < stat.errorHistory.intervalCount then
      if 0 < stat.errorHistory.lastCount then
        (status.max .critical, lines ++ [stat.nowLine])
      else (status.max .warning, lines ++ [stat.lastLine])
    else (status, lines)

end QueueStat

/-- The clock readings of one transfer, one for each history counter. -/
structure TransferClock where
  dropMs : Int
  errorMs : Int
  msgMs : Int

structure ShmBufferEx where
  name : String
  data : ShmBufferExData
  cMsgHistory : HistoryCounterData
  cErrorHistory : HistoryCounterData
  cDropHistory : HistoryCounterData
  cPushFailedLocal : HistoryCounterLocal
  cMsgCount : Int
  cUsedBp : Int
  cUsed : Int
  cCapacity : Int

namespace ShmBufferEx

def setOverflovBehavior (b : ShmBufferEx) (d : OnOverflov) (dropIsOk : Bool) : ShmBufferEx :=
  { b with data := b.data.setOverflovBehavior d dropIsOk }

def push (b : ShmBufferEx) (chunks : ShmChunks) : Option (Bool × ShmBufferEx) :=
  match b.data.push chunks with
  | none => none
  | some (true, data) => some (true, { b with data := data })
  | some (false, data) =>
    some (false, { b with data := data, cPushFailedLocal := b.cPushFailedLocal.increment })

def pop (b : ShmBufferEx) (maxSize : Nat) (deleteRecord : Bool) : Option (Fetch × ShmBufferEx) :=
  if b.data.count = 0 then some (⟨false, 0, none⟩, b)
  else (b.data.pop maxSize deleteRecord).map fun r => (r.1, { b with data := r.2 })

def transferDrops (b : ShmBufferEx) (clock : TransferClock) : ShmBufferEx :=
  let count := i64 b.data.tmpDropCount
  let volume := i64 b.data.tmpDropVolume
  { b with
    cDropHistory := b.cDropHistory.addBatch clock.dropMs count volume
    cErrorHistory :=
      if b.data.dropIsOk then b.cErrorHistory
      else b.cErrorHistory.addBatch clock.errorMs count volume
    data := { b.data with tmpDropCount := 0, tmpDropVolume := 0 } }

def transferMsg (b : ShmBufferEx) (clock : TransferClock) : ShmBufferEx :=
  { b with
    cMsgHistory := b.cMsgHistory.addBatch clock.msgMs (i64 b.data.tmpCount) (i64 b.data.tmpVolume)
    data := { b.data with tmpCount := 0, tmpVolume := 0 } }

def updateCounters (b : ShmBufferEx) (clock : TransferClock) : ShmBufferEx :=
  let b := { b with
    cMsgCount := i64 b.data.count
    cUsedBp := i64 b.data.getUsedBp
    cUsed := i64 b.data.dataSize
    cCapacity := i64 b.data.capacity }
  (b.transferDrops clock).transferMsg clock

def getStat (b : ShmBufferEx) (clock : TransferClock) : QueueStat × ShmBufferEx :=
  let b := b.updateCounters clock
  ({ name := b.name
     count := b.data.count
     dataSize := b.data.dataSize
     capacity := b.data.capacity
     dropHistory := b.cDropHistory.getInfo
     messageHistory := b.cMsgHistory.getInfo
     errorHistory := b.cErrorHistory.getInfo }, b)

end ShmBufferEx

end HiloUtils
