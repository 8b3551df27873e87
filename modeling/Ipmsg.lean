import Ipmsg.Lib.Run
import Ipmsg.Lib.Chain
import Ipmsg.Lib.KeyedSet
import Ipmsg.Basic
import Ipmsg.Yaml
import Ipmsg.YamlFlow
import Ipmsg.Log.Define
import Ipmsg.Log.DefineCodec
import Ipmsg.Log.Formatter
import Ipmsg.Log.FormatterScan
import Ipmsg.Log.FormatterGrammar
import Ipmsg.Log.Listener
import Ipmsg.Log.ListenerSpec
import Ipmsg.Log.Reachable
import Ipmsg.Log.Reconfigure
import Ipmsg.Log.History
import Ipmsg.Config.Listeners
import Ipmsg.Config.Concurrent
import Ipmsg.Config.Load
import Ipmsg.Config.LoadSpec
import Ipmsg.Fiber.Machine
import Ipmsg.Fiber.Invariant
import Ipmsg.Fiber.Steps
import Ipmsg.Fiber.Runs
import Ipmsg.Config.Lookup
import Ipmsg.Log.Applied
import Ipmsg.Log.ValidFormatters
import Ipmsg.Log.Dump
import Ipmsg.Config.Containers
import Ipmsg.Config.ContainersSpec
import Ipmsg.Config.StringVector
import Ipmsg.Log.Inherited
import Ipmsg.Log.NullFormatter
import Ipmsg.Lib.Locks
import Ipmsg.Log.Locked
import Ipmsg.Log.LockOrder
import Ipmsg.Log.LockedSpec
import Ipmsg.Config.Locked
import Ipmsg.Deadlock
import Ipmsg.Config.Callbacks
import Ipmsg.Config.CallbacksSpec
import Ipmsg.Config.LockedSpec
import Ipmsg.Fiber.Owners
import Ipmsg.Fiber.OwnersInvariant
import Ipmsg.Fiber.OwnersSteps
import Ipmsg.Fiber.OwnersRuns
import Ipmsg.Config.Objects
import Ipmsg.Log.FormatterEscape
import Ipmsg.Log.DefineDecode
import Ipmsg.Config.WrongKind
import Ipmsg.Log.Dispatch
import Ipmsg.Log.FileAppender
import Ipmsg.Log.LogFile
import Ipmsg.Config.Announced
import Ipmsg.Config.LetterCase
import Ipmsg.Config.Reload
import Ipmsg.Log.FormatterOrder
import Ipmsg.Log.DateTime
import Ipmsg.Thread
import Ipmsg.Lib.Delimited
import Ipmsg.Lib.Rely
import Ipmsg.Log.Event
import Ipmsg.Log.Interleaved
import Ipmsg.Log.Line
import Ipmsg.Log.Output
import Ipmsg.Log.OutputAlone
import Ipmsg.Log.OutputLines
import Ipmsg.Lib.Spin
import Ipmsg.Scoped
import Ipmsg.Thread.Handshake
import Ipmsg.Thread.Join
import Ipmsg.Thread.Names
import Ipmsg.Lib.Schedule
import Ipmsg.Config.ListenerIds
import Ipmsg.Lib.Accesses
import Ipmsg.Config.SharedRegistry
import Ipmsg.Fiber.Threads
import Ipmsg.Fiber.ThreadsInvariant
import Ipmsg.Fiber.ThreadsRuns
import Ipmsg.Fiber.ThreadsStates
import Ipmsg.Fiber.Ledger
import Ipmsg.Fiber.ThreadsCounts
