import Asteros.Xpc.RoundTrip
import Asteros.Xpc.Untrusted
import Asteros.Xpc.WireMessage
import Asteros.Xpc.Ownership
import Asteros.Xpc.FailedSend
import Asteros.Xpc.EventDelivery
import Asteros.Xpc.Peers
import Asteros.Boot.HandOff
import Asteros.Boot.SplashBounds
import Asteros.Malloc.Lock
import Asteros.Malloc.Coalescing
import Asteros.Malloc.Requests
import Asteros.CoreFoundation.PropertyListRoundTrip
import Asteros.CoreFoundation.SelfClosing
import Asteros.Foundation.Interoperability
import Asteros.Foundation.KeyedArchiver
import Asteros.Foundation.Json.Grammar
import Asteros.Foundation.Json.RoundTrip
import Asteros.Dyld.LazyBinding
import Asteros.Dyld.ExportWalk
import Asteros.Dyld.InitOrder
import Asteros.Dyld.LoadOnce
import Asteros.Dyld.LoadRanges
import Asteros.Lib.StableSort
import Asteros.Lib.Utf8
import Asteros.CoreFoundation.ArraySort
import Asteros.CoreFoundation.StringSearch
import Asteros.CoreFoundation.StringExport
import Asteros.CoreFoundation.StringMutation
import Asteros.CoreFoundation.StringEdits
import Asteros.CoreFoundation.StringSeparation
import Asteros.CoreFoundation.Dictionary
import Asteros.CoreFoundation.Number
import Asteros.CoreFoundation.ObjectRuns
import Asteros.CoreFoundation.Ownership
import Asteros.Launchd.Provenance
import Asteros.Launchd.Registry
import Asteros.Launchd.Signals
import Asteros.Launchd.Supervision
import Asteros.Launchd.Labels
import Asteros.Launchd.PropertyList
import Asteros.Launchd.UnsupportedKeys
import Asteros.Libc.Scanf
import Asteros.Foundation.PropertyListDates
import Asteros.Foundation.FormatDouble
import Asteros.Foundation.Json.Graphs
import Asteros.Foundation.NotificationCenter
import Asteros.Launchd.Daemons
import Asteros.Security.Keychain
import Asteros.Objc.Weak
import Asteros.Objc.ArcConservation
import Asteros.Objc.MethodCache
import Asteros.Objc.IvarLayout
import Asteros.Libc.Pthread
import Asteros.Libc.RealPath
import Asteros.Libc.Environment
import Asteros.Libc.FormatIntegers
import Asteros.Libc.NumberParsing
import Asteros.Libc.TimeNormalization
import Asteros.Libc.StackReclaim
import Asteros.Libc.LockExclusion
import Asteros.Libc.Sorting
import Asteros.Lib.Refcount
import Asteros.Xpc.ArrayGrowth
import Asteros.Xpc.Graph
import Asteros.Xpc.Equal
import Asteros.Xpc.Copy
import Asteros.Dispatch.GroupFiring
import Asteros.Dispatch.Lifetime
import Asteros.Dispatch.SyncPool
import Asteros.Dispatch.Semaphore
import Asteros.Dispatch.SemaphoreCounting
import Asteros.Dispatch.Time
import Asteros.Dispatch.TimerOrder
import Asteros.Lib.Intern
import Asteros.Objc.AddMethod
import Asteros.Objc.AutoreleasePools
import Asteros.Objc.CategoryOrder
import Asteros.Objc.PoolDraining
import Asteros.Objc.RegistrationOrder
import Asteros.Objc.SelectorDispatch
import Asteros.Objc.SideTables
import Asteros.Libc.Uuid
import Asteros.Libc.Fnmatch
import Asteros.Libc.Getopt
