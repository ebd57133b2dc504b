import Sylar.Proofs.ByteArray.Strings
import Sylar.Proofs.Timer.Expiry
import Sylar.Proofs.IOManager.Effects
import Sylar.Proofs.IOManager.Dispatch
import Sylar.Proofs.IOManager.Ledger
import Sylar.Model.Scheduler
import Sylar.Proofs.Scheduler.Exclusion
import Sylar.Proofs.Timer.Lifecycle
import Sylar.Proofs.Timer.Deadlines
import Sylar.Model.IdleLoop
import Sylar.Proofs.IdleLoop.Clamp
import Sylar.Proofs.Scheduler.Accounting
import Sylar.Proofs.Scheduler.Stopping
import Sylar.Proofs.Scheduler.Affinity
import Sylar.Model.FdTable
import Sylar.Proofs.FdTable.Growth
import Sylar.Model.DoIo
import Sylar.Proofs.DoIo.Timeout
import Sylar.Model.FiberSemaphore
import Sylar.Proofs.FiberSemaphore.Permits
import Sylar.Model.FdCtx
import Sylar.Proofs.FdCtx.Nonblock
import Sylar.Model.FdManager
import Sylar.Proofs.FdManager.OneContext
import Sylar.Model.Log.Formatter
import Sylar.Proofs.Log.Scanner
import Sylar.Proofs.Log.Grammar
import Sylar.Model.Config.ConfigVar
import Sylar.Proofs.Config.Listeners
import Sylar.Model.Log.Logger
import Sylar.Proofs.Log.Inheritance
import Sylar.Model.Log.LogIniter
import Sylar.Proofs.Log.Reload
import Sylar.Model.Config.Config
import Sylar.Proofs.Config.LoadFromYaml
import Sylar.Proofs.Config.LexicalCast
import Sylar.Proofs.Config.Names
import Sylar.Model.Config.Registry
import Sylar.Proofs.Config.Registry
import Sylar.Proofs.Config.Spellings
import Sylar.Proofs.ByteArray.Positions
import Sylar.Model.ByteArray.File
import Sylar.Proofs.ByteArray.File
import Sylar.Model.ByteArray.ReadFile
import Sylar.Proofs.ByteArray.ReadFile
import Sylar.Model.ByteArray.Buffers
import Sylar.Proofs.ByteArray.Buffers
import Sylar.Proofs.ByteArray.Truncated
import Sylar.Proofs.ByteArray.Following
import Sylar.Model.ByteArray.Allocation
import Sylar.Proofs.ByteArray.Allocation
import Sylar.Model.Sleep
import Sylar.Proofs.Sleep.Delay
import Sylar.Model.SetSockOpt
import Sylar.Proofs.FdCtx.Failures
import Sylar.Model.FdIndex
import Sylar.Proofs.FdTable.Bounds
import Sylar.Model.ByteArray.Zigzag
import Sylar.Proofs.ByteArray.Zigzag
import Sylar.Model.Socket.SSLSocket
import Sylar.ToMathlib.BitCount
import Sylar.Model.Address.Address
import Sylar.Proofs.Address.Comparison
import Sylar.Model.Address.Prefix
import Sylar.Proofs.Address.Mask
import Sylar.Proofs.Address.IPv4
import Sylar.Proofs.Address.IPv6
import Sylar.Model.Address.Lookup
import Sylar.ToMathlib.Separator
import Sylar.Proofs.Address.Lookup
import Sylar.ToMathlib.ColonHex
import Sylar.Model.Address.Insert
import Sylar.Proofs.Address.Insert
import Sylar.Model.Config.FromString
import Sylar.Proofs.Config.FromString
import Sylar.Model.Log.LogDefineCast
import Sylar.ToMathlib.FoldlM
import Sylar.Proofs.Log.TextForm
import Sylar.Proofs.Socket.Transfer
import Sylar.Model.Socket.Socket
import Sylar.Proofs.Socket.LocalAddress
import Sylar.Machine.Ucontext
import Sylar.Model.FiberContext
import Sylar.Proofs.Fiber.Nesting
import Sylar.Proofs.Fiber.Switching
import Sylar.Proofs.Fiber.Runs
import Sylar.Model.Descriptors
import Sylar.Proofs.Descriptors.Cleanliness
import Sylar.Proofs.Descriptors.Lifecycle
import Sylar.ToMathlib.ListConcat
import Sylar.Proofs.IOManager.Cancelling
import Sylar.Proofs.DoIo.Returns
import Sylar.Model.Connect
import Sylar.Proofs.DoIo.Connect
import Sylar.Model.HookedIo
import Sylar.Proofs.HookedIo.Wakeups
import Sylar.Proofs.HookedIo.Refinement
import Sylar.Proofs.HookedIo.Calls
import Sylar.Machine.Locks
import Sylar.Machine.Interference
import Sylar.Model.Log.Logging
import Sylar.Proofs.Log.Locking
import Sylar.Proofs.Log.Calls
import Sylar.Proofs.Log.Delivery
import Sylar.Proofs.Log.Threads
import Sylar.Proofs.Log.Alone
import Sylar.Proofs.Scheduler.Draining
import Sylar.Proofs.Log.Dump
import Sylar.Proofs.Log.Restore
