import Wille.ForMathlib.TransitionSystem
import Wille.ForMathlib.OrderedSet
import Wille.Timer.Basic
import Wille.Timer.Ordered
import Wille.Timer.Expiry
import Wille.Timer.History
import Wille.Timer.Rollover
import Wille.Timer.Notify
import Wille.IOManager.FdContext
import Wille.IOManager.Sections
import Wille.IOManager.Registrations
import Wille.IOManager.Stale
import Wille.IOManager.Resize
import Wille.Scheduler.Basic
import Wille.Scheduler.Steps
import Wille.Scheduler.Active
import Wille.Scheduler.Exclusive
import Wille.Scheduler.Wakeup
import Wille.Scheduler.Queue
import Wille.Config.Var
import Wille.Config.Notify
import Wille.Config.Registry
import Wille.Config.Lookup
import Wille.Config.Yaml
import Wille.Config.Load
import Wille.ForMathlib.Container
import Wille.Config.LexicalCast
import Wille.Config.RoundTrip
import Wille.Log.Formatter
import Wille.Log.Define
import Wille.Log.Pattern
import Wille.ForMathlib.Journal
import Wille.Fiber.Basic
import Wille.Log.Logger
import Wille.Log.Listener
import Wille.IOManager.Stopping
import Wille.Fiber.Pairing
import Wille.Timer.Handle
import Wille.IOManager.Timeout
import Wille.IOManager.Answers
import Wille.IOManager.Interest
import Wille.Config.Calls
import Wille.Log.Event
import Wille.Log.Escape
import Wille.Log.Inherit
import Wille.Scheduler.Bodies
import Wille.Scheduler.Reuse
import Wille.Timer.Wraparound
import Wille.Scheduler.Idle
import Wille.IOManager.Indexing
import Wille.Scheduler.Pinned
import Wille.Log.Appenders
import Wille.Config.Names
import Wille.Config.WrongKind
import Wille.ForMathlib.Recursion
import Wille.Config.Aliases
import Wille.Thread.Basic
import Wille.Thread.Handshake
import Wille.Thread.Release
import Wille.Scheduler.Shutdown
import Wille.Mutex.Guard
import Wille.Scheduler.Lifecycle
import Wille.ForMathlib.Locking
import Wille.Log.Concurrent
import Wille.Log.Interleaving
