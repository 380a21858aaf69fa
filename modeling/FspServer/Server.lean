import FspServer.VirtualFileSystemTree
import FspServer.Validators
import Mathlib.Logic.Function.Basic

/-!
# The state of the server

The parts that the steps of the server read and write:

* `Registry`: what `connection_manager::mutex_` protects (the connections, the
  counter of the processing ones, the shared buffers), with the nickname, the
  state and the stop flag of each connection;
* the tree of each client and the messages written to each connection;
* the tasks of the request scheduler and the handlers that are running: a
  handler that has locked its connection and is between two atomic steps;
* `Downloads`: the backed up download requests and the transfer transactions.

Fields marked as history are not in the source. They record what happened and
are never read by a step.

A counter that only counts up is unbounded here; a decrement wraps at zero as
`uint64_t` does.
-/

namespace FspServer

/-- `--n` on a `uint64_t`. -/
def decrement (n : Nat) : Nat := if n = 0 then 2 ^ 64 - 1 else n - 1

/-! ## Connections and shared buffers -/

/-- An unfinished shared write: `async_shared_write` of the buffer on the
connection has been started at `offset`. -/
structure SharedWrite where
  conn : ConnId
  bufferID : Nat
  size : Nat
  offset : Nat
deriving DecidableEq, Repr

/-- A value of `shared_storage_`; as `operator[]` makes it when it is missing. -/
structure SharedBuffer where
  buffer : Option Notification := none
  counter : Nat := 0

structure Registry where
  /-- The number of connections accepted so far. -/
  accepted : ConnId := 0
  /-- `connections_`, in the order of the set. -/
  connections : List ConnId := []
  nickname : ConnId → Str := fun _ => []
  state : ConnId → ClientState := fun _ => .connected
  stopped : ConnId → Bool := fun _ => false
  processingCounter : Nat := 0
  sharedStorage : Std.TreeMap Nat SharedBuffer := ∅
  sharedStorageIDCounter : Nat := 0
  writes : List SharedWrite := []
  /-- History: the connections that went through `notify_files_registration`. -/
  registered : List ConnId := []
  /-- History: the buffers handed to connections by `start_shared_write`. -/
  handed : List (ConnId × Nat) := []
  /-- History: the shared buffers that connections have sent completely. -/
  finished : List (ConnId × Nat) := []

/-! ## Tasks and running handlers -/

/-- The arguments of a task that `handle_message` posts. -/
inductive Request where
  | signin (requestID login password : Str)
  | signup (requestID login password : Str)
  | pushFiles (requestID : Str) (paths : List Str)
  | deleteAccount (requestID : Str)
  | logout
  | downloadFile (requestID fileOwner filePath sslVersion compressions : Str)
  | addFile (requestID fileName : Str)
  | removePath (requestID pathName : Str)
  | renamePath (requestID oldFilePath newName : Str)
deriving DecidableEq, Repr

/-- `scheduler_priority`. -/
inductive SchedulerPriority where
  | very_low
  | low
  | medium
  | high
  | very_high
deriving DecidableEq, Repr

structure Task where
  priority : SchedulerPriority
  conn : ConnId
  request : Request
deriving DecidableEq, Repr

/-- What a handler still has to do after its first atomic step. -/
inductive Continuation where
  /-- `do_signin` after `retrieve_user`, before `isLogged`. -/
  | isLogged (requestID login : Str)
  /-- `do_signin` and `do_signup` before they store the nickname and the state. -/
  | storeLogin (code : Response) (requestID login : Str)
  | notifyFilesRegistration
  | notifyFileAdd (fileName : Str)
  | notifyPathRemoved (filePath : Str)
  | notifyPathRenamed (oldFilePath newName : Str)
  /-- `notify_disconnection` after it has read the state and the nickname. -/
  | notifyDisconnection (state : ClientState) (nickname : Str)
deriving DecidableEq, Repr

structure Running where
  conn : ConnId
  rest : Continuation
deriving DecidableEq, Repr

/-! ## Downloads -/

/-- `DownloadInfo::Request`. The ticket is history: the number of the executed
query. -/
structure DownloadRequest where
  conn : ConnId
  compression : Compression
  requestID : Str
  ticket : Nat
deriving DecidableEq, Repr

structure DownloadInfo where
  fileOwner : Str
  filePath : Str
  requests : List DownloadRequest
deriving DecidableEq, Repr

/-- An entry of `backedup_requests_`. -/
structure Backup where
  info : DownloadInfo
  timerArmed : Bool
deriving DecidableEq, Repr

/-- The receiver of a download transaction; `none` where the source stores a
null pointer. -/
inductive FileReceiver where
  | stream
  | compressed
deriving DecidableEq, Repr

/-- The captures of the completion handler that `resolve_download_reply` gives
to a transaction. -/
structure CompletionHandler where
  filePath : Str
  fileOwner : Str
deriving DecidableEq, Repr

/-- A transfer transaction that `resolve_download_reply` began (history): its id,
the nickname of the connection that sent the reply, and the owner of the entry. -/
structure Begun where
  id : Nat
  sender : Str
  owner : Str
deriving DecidableEq, Repr

/-- An answer that was written to a download query (history). -/
structure Answer where
  ticket : Nat
  conn : ConnId
  message : Outgoing
deriving DecidableEq, Repr

structure Downloads where
  backedupRequests : Std.TreeMap Nat Backup := ∅
  downloadTransactionsIDCounter : Nat := 1
  downloadTransactions : Std.TreeMap Nat (Option FileReceiver) := ∅
  /-- The ids whose transaction timer is armed. -/
  transactionTimers : List Nat := []
  /-- The receivers that can still call their completion handler. -/
  completionHandlers : Std.TreeMap Nat CompletionHandler := ∅
  uploadTransactions : Std.TreeMap Nat Str := ∅
  uploadTransactionsIDCounter : Nat := 1
  /-- History: the number of executed download queries. -/
  executed : Nat := 0
  /-- History: the queries that were put on hold. -/
  held : List Nat := []
  /-- History: the answers that were written, the last one first. -/
  answers : List Answer := []
  begun : List Begun := []

/-- The state of the server. -/
structure Server where
  registry : Registry := {}
  tree : ConnId → Node Char
  sent : ConnId → List Outgoing := fun _ => []
  tasks : List Task := []
  running : List Running := []
  /-- The accounts: nickname and password. -/
  users : List (Str × Str) := []
  downloads : Downloads := {}
  /-- An assertion has failed or a null pointer was used: the process has ended. -/
  halted : Bool := false
  /-- History: the logins that succeeded. -/
  logins : List (ConnId × Str) := []

/-- The server before the first connection, with the accounts it starts with. -/
def Server.initial (cfg : Config) (users : List (Str × Str)) : Server :=
  { tree := fun _ => Node.new cfg.PATH_ROOT, users }

namespace Server

/-- The connection object still exists: `connections_` or a running handler
holds it. A weak pointer to any other connection has expired. -/
def alive (s : Server) (c : ConnId) : Bool :=
  c ∈ s.registry.connections ∨ s.running.any fun h => h.conn = c

/-- `start_write`. -/
def startWrite (c : ConnId) (m : Outgoing) (s : Server) : Server :=
  { s with sent := Function.update s.sent c (s.sent c ++ [m]) }

def writeReply (code : Response) (requestID : Str) (c : ConnId) (s : Server) : Server :=
  s.startWrite c (.reply code requestID)

/-- The handler of `c` goes on with `rest` in a later step. -/
def continueWith (c : ConnId) (rest : Continuation) (s : Server) : Server :=
  { s with running := s.running ++ [⟨c, rest⟩] }

end Server

end FspServer
