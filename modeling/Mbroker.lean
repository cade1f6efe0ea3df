import Mbroker.Lib.Outcome
import Mbroker.Lib.CInt
import Mbroker.Lib.Region
import Mbroker.Lib.CString
import Mbroker.Lib.Words
import Mbroker.Lib.Counting
import Mbroker.Lib.Run
import Mbroker.Lib.Program
import Mbroker.Lib.Monitor
import Mbroker.Lib.Progress
import Mbroker.Lib.Sync
import Mbroker.Lib.Loop
import Mbroker.Lib.Heap
import Mbroker.Fs.State
import Mbroker.Fs.Operations
import Mbroker.Fs.Directory
import Mbroker.Fs.StateSpec
import Mbroker.Fs.Effect
import Mbroker.Fs.Preserve
import Mbroker.Fs.Init
import Mbroker.Fs.Structure
import Mbroker.Fs.NoPanic
import Mbroker.Fs.Conservation
import Mbroker.Fs.Content
import Mbroker.Fs.Store
import Mbroker.Fs.Refine
import Mbroker.Fs.Simulate
import Mbroker.Fs.Stream
import Mbroker.Fs.History
import Mbroker.Fs.Identity
import Mbroker.Fs.Isolation
import Mbroker.Fs.Lookup
import Mbroker.Fs.Locked
import Mbroker.Fs.Serial
import Mbroker.Fs.Reads
import Mbroker.Fs.Writes
import Mbroker.Fs.FailedOpen
import Mbroker.Fs.Commute
import Mbroker.Fs.FailedInit
import Mbroker.Fs.Params
import Mbroker.Fs.Truncate
import Mbroker.Fs.Threads
import Mbroker.Fs.Handles
import Mbroker.Fs.LifeCycle
import Mbroker.Pcq.Queue
import Mbroker.Pcq.Threads
import Mbroker.Pcq.Discipline
import Mbroker.Pcq.Indices
import Mbroker.Pcq.Runs
import Mbroker.Pcq.Accesses
import Mbroker.Utils.Request
import Mbroker.Utils.BoxList
import Mbroker.Utils.BoxSort
import Mbroker.Utils.BoxLookup
import Mbroker.Utils.BoxStore
import Mbroker.Utils.Wire
import Mbroker.Utils.Format
import Mbroker.Broker.Server
import Mbroker.Broker.Dispatch
import Mbroker.Broker.Boxes
import Mbroker.Broker.Survival
import Mbroker.Broker.Padding
import Mbroker.Broker.BoxNames
import Mbroker.Broker.Publisher
import Mbroker.Broker.Subscriber
import Mbroker.Broker.Release
import Mbroker.Clients.Pub
import Mbroker.Clients.Manager
import Mbroker.Clients.Sub
import Mbroker.Clients.Register
import Mbroker.Broker.Process
import Mbroker.Broker.System
