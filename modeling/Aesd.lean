import Aesd.Lib.Lts
import Aesd.Lib.Linearization
import Aesd.Lib.Ring
import Aesd.Lib.Lines
import Aesd.Lib.Locate
import Aesd.Lib.Memory
import Aesd.Lib.Trace
import Aesd.Lib.Mutex
import Aesd.Lib.Section
import Aesd.Lib.Progress
import Aesd.Lib.Machine
import Aesd.Lib.Segments
import Aesd.Lib.Scan
import Aesd.Lib.Path
import Aesd.Lib.FileTree
import Aesd.Driver.CircularBuffer
import Aesd.Driver.Ring
import Aesd.Driver.Device
import Aesd.Driver.Operations
import Aesd.Driver.WriteSpec
import Aesd.Driver.Invariant
import Aesd.Driver.Lookup
import Aesd.Driver.SeekSpec
import Aesd.Driver.ReadSpec
import Aesd.Driver.LineLog
import Aesd.Driver.Reachable
import Aesd.Driver.Stream
import Aesd.Driver.Commands
import Aesd.Driver.Progress
import Aesd.Driver.Restart
import Aesd.Driver.SeekChecks
import Aesd.Driver.ReadLoop
import Aesd.Driver.SharedOffset
import Aesd.Driver.Interleaving
import Aesd.Driver.Phases
import Aesd.Driver.Accounting
import Aesd.Driver.Ledger
import Aesd.Driver.Leak
import Aesd.Driver.SeekBounds
import Aesd.Driver.SeekLookup
import Aesd.Driver.Readers
import Aesd.Driver.FindEntry
import Aesd.Driver.WriteBounds
import Aesd.Driver.Llseek
import Aesd.Driver.History
import Aesd.Driver.Linearizable
import Aesd.Driver.Waiting
import Aesd.Driver.WholeCall
import Aesd.Driver.LineStore
import Aesd.Driver.ModuleLife
import Aesd.Server.Command
import Aesd.Server.Search
import Aesd.Server.Scanning
import Aesd.Server.AppendData
import Aesd.Server.Rounds
import Aesd.Server.Replies
import Aesd.Server.Segmentation
import Aesd.Server.DataFile
import Aesd.Server.Truncation
import Aesd.Server.Packets
import Aesd.Server.Echo
import Aesd.Server.StaleBuffer
import Aesd.Server.Parsing
import Aesd.Server.EchoLoop
import Aesd.Server.Snapshot
import Aesd.Server.Conversation
import Aesd.Server.Dialogue
import Aesd.Server.Clients
import Aesd.Server.Merge
import Aesd.Server.Service
import Aesd.Server.WriteResults
import Aesd.Server.Listen
import Aesd.Server.Close
import Aesd.Server.Signals
import Aesd.Server.Process
import Aesd.Server.Teardown
import Aesd.Server.Shutdown
import Aesd.Server.Startup
import Aesd.FinderApp.FileSystem
import Aesd.FinderApp.MkDirR
import Aesd.FinderApp.Writer
import Aesd.SystemCalls
import Aesd.Threading
