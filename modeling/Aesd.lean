import Aesd.Foundation.Machine
import Aesd.Foundation.CString
import Aesd.Foundation.Chain
import Aesd.Foundation.FileTree
import Aesd.Foundation.Paths
import Aesd.Foundation.Format
import Aesd.Foundation.Lock
import Aesd.Ring.Lookup
import Aesd.Driver.Basic
import Aesd.Driver.Represents
import Aesd.Driver.Write
import Aesd.Driver.Read
import Aesd.Driver.Seek
import Aesd.Driver.Runs
import Aesd.Driver.Log
import Aesd.Driver.Ownership
import Aesd.Driver.Cursor
import Aesd.Driver.Accounting
import Aesd.Driver.Newline
import Aesd.Driver.Mutex
import Aesd.Server.Receive
import Aesd.Server.Framing
import Aesd.Server.Stdio
import Aesd.Server.Connector
import Aesd.Server.Commands
import Aesd.Server.System
import Aesd.Server.Echo
import Aesd.Server.Interleaving
import Aesd.Server.Timestamp
import Aesd.Server.DataFile
import Aesd.Server.Threads
import Aesd.Server.ThreadList
import Aesd.Server.Shutdown
import Aesd.Writer.Basic
import Aesd.Writer.Directories
import Aesd.Writer.Files
import Aesd.Foundation.Holders
import Aesd.Server.Sockets
import Aesd.Driver.Reader
import Aesd.Writer.Runs
import Aesd.Processes.Threading
import Aesd.Processes.Progress
import Aesd.Processes.Systemcalls
import Aesd.Server.Lifecycle
import Aesd.Server.Stages
import Aesd.Server.Cleanup
import Aesd.Server.Exit
import Aesd.Server.Completion
