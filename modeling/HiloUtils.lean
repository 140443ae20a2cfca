import HiloUtils.Word
import HiloUtils.Run
import HiloUtils.MirrorRing
import HiloUtils.ShmBuffer
import HiloUtils.ShmBufferExData
import HiloUtils.BoundedFifo
import HiloUtils.RecordQueue
import HiloUtils.MessageQueue
import HiloUtils.EventLog
import HiloUtils.HistoryCounterData
import HiloUtils.SlidingWindow
import HiloUtils.ShmBufferEx
import HiloUtils.Occupancy
import HiloUtils.Oversized
import HiloUtils.Conservation
import HiloUtils.MessageStream
import HiloUtils.StreamPosition
import HiloUtils.Traversal
import HiloUtils.Readers
import HiloUtils.CString
import HiloUtils.Dictionary
import HiloUtils.DictionaryMap
import HiloUtils.Json
import HiloUtils.JsonLexer
import HiloUtils.JsonDumper
import HiloUtils.SharedInit
import HiloUtils.ErrorHistory
import HiloUtils.OpenShm
import HiloUtils.ConvertString
import HiloUtils.Reservation
import HiloUtils.CounterIndex
import HiloUtils.RingAccess
import HiloUtils.RingWindow
import HiloUtils.PositionalGet
import HiloUtils.LazyCounters
import HiloUtils.StatusCheck
import HiloUtils.LocalBatch
import HiloUtils.WindowSums
import HiloUtils.InfoSnapshot
import HiloUtils.JsonStrings
import HiloUtils.DumpNumber
import HiloUtils.HistoryCounters
import HiloUtils.Category
import HiloUtils.RingPositions
import HiloUtils.Calendar
import HiloUtils.DumpTime
import HiloUtils.TimeUtils
import HiloUtils.TimeString
import HiloUtils.QueueDiscovery
import HiloUtils.Uptime
import HiloUtils.LogBase
import HiloUtils.LogWritev
import HiloUtils.FailedOpen
import HiloUtils.ReplaceAll
import HiloUtils.JsonIndent
import HiloUtils.CriticalSection
import HiloUtils.QueueProcesses
import HiloUtils.LogStorage
import HiloUtils.RawBytes
import HiloUtils.LogMonitor
import HiloUtils.SysInfoMemory
import HiloUtils.Mutex
import HiloUtils.CountersDump
