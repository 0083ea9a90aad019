import Fsync.Base.Run
import Fsync.Base.Replica
import Fsync.Base.PosixPath
import Fsync.Base.Tree
import Fsync.Base.Os
import Fsync.Base.Makedirs
import Fsync.Base.Memory
import Fsync.Base.Execvp
import Fsync.Base.Rsync
import Fsync.Base.Transfer
import Fsync.Base.Registry
import Fsync.Base.Program
import Fsync.Base.Chunked
import Fsync.Base.Streams
import Fsync.Base.Operand
import Fsync.Base.Shell
import Fsync.Base.CommandLine
import Fsync.Message
import Fsync.Ubuntu.FsyncWindow
import Fsync.Ubuntu.Handlers
import Fsync.Ubuntu.Registry
import Fsync.Ubuntu.ZmqThread
import Fsync.Mac.AppDelegate
import Fsync.Mac.Lookup
import Fsync.Mac.Registry
import Fsync.Mac.Editors
import Fsync.Mac.Indicator
import Fsync.Watches
import Fsync.Mac.Alerts
import Fsync.Client.Fs
import Fsync.Client.Paths
import Fsync.Client.Runs
import Fsync.Client.Pull
import Fsync.Client.Dispatch
import Fsync.Client.Addresses
import Fsync.Client.Command
import Fsync.Delivery
import Fsync.RoundTrip
import Fsync.Excluded
import Fsync.Routing
import Fsync.Agreement
import Fsync.Workstation
import Fsync.Versions
import Fsync.Acknowledged
import Fsync.Zmq.Wire
import Fsync.Zmq.Engine
import Fsync.Zmq.Xrep
import Fsync.Zmq.Rep
import Fsync.Zmq.Req
import Fsync.Zmq.Ypipe
import Fsync.Zmq.Pipe
import Fsync.Zmq.Atomic
import Fsync.Exchange
import Fsync.Zmq.Yqueue
import Fsync.Zmq.InMemory
import Fsync.Zmq.Mailbox
import Fsync.Zmq.Threads
