import FspServer.Server

/-!
# The connection manager

The sections of `connection_manager` under `mutex_`, each as one function: the
notification of a disconnection, of a registration and of a change of a client's
files, and the end of a shared write.
-/

namespace FspServer

open Node

/-! ## The registry -/

namespace Registry

/-- The connections of `connections_` whose client is in processing state, in
the order of the loops over the set. -/
def processing (r : Registry) : List ConnId :=
  r.connections.filter fun c => r.state c = .processing

/-- `connection_manager::start`: a set is ordered by address, so the new
connection comes at any position. -/
def accept (position : Nat) (r : Registry) : Registry :=
  { r with
    accepted := r.accepted + 1
    connections := r.connections.insertIdx (min position r.connections.length) r.accepted }

/-- The two stores of a successful `do_signin` or `do_signup`. -/
def storeLogin (c : ConnId) (login : Str) (r : Registry) : Registry :=
  { r with
    nickname := Function.update r.nickname c login
    state := Function.update r.state c .logged }

def setState (c : ConnId) (st : ClientState) (r : Registry) : Registry :=
  { r with state := Function.update r.state c st }

/-- `stopped_.test_and_set`. -/
def setStopped (c : ConnId) (r : Registry) : Registry :=
  { r with stopped := Function.update r.stopped c true }

/-- Stores a buffer with its counter under a new id and starts a shared write of
it on each recipient. -/
def storeShared (cfg : Config) (n : Notification) (counter : Nat) (recipients : List ConnId)
    (r : Registry) : Registry :=
  let id := r.sharedStorageIDCounter + 1
  { r with
    sharedStorageIDCounter := id
    sharedStorage := r.sharedStorage.insertIfNew id ⟨some n, counter⟩
    writes := r.writes ++ recipients.map fun c => ⟨c, id, cfg.messageLength n, 0⟩
    handed := r.handed ++ recipients.map fun c => (c, id) }

/-- `notify_shared_write_done`. Without assertions the entry is not erased. -/
def notifySharedWriteDone (build : Build) (id : Nat) (r : Registry) : Registry :=
  let entry := (r.sharedStorage[id]?).getD {}
  let entry := { entry with counter := decrement entry.counter }
  let storage := r.sharedStorage.insert id entry
  { r with
    sharedStorage :=
      if entry.counter = 0 ∧ build = .debug then storage.erase id else storage }

end Registry

/-! ## Notifications -/

namespace Server

/-- Stores a notification and writes it to the recipients. -/
def broadcast (cfg : Config) (n : Notification) (counter : Nat) (recipients : List ConnId)
    (s : Server) : Server :=
  recipients.foldl (fun s c => s.startWrite c (.notification n))
    { s with registry := s.registry.storeShared cfg n counter recipients }

/-- `isLogged`. -/
def isLogged (login : Str) (s : Server) : Bool :=
  s.registry.connections.any fun c => s.registry.nickname c = login

/-- The section of `notify_disconnection`; the state and the nickname were read
before the lock was taken. -/
def notifyDisconnection (cfg : Config) (c : ConnId) (st : ClientState) (nickname : Str)
    (s : Server) : Server :=
  let s := { s with registry.connections := s.registry.connections.erase c }
  if st = .processing then
    let counter := decrement s.registry.processingCounter
    let s := { s with registry.processingCounter := counter }
    if counter = 0 then s
    else s.broadcast cfg (.USER_LOGGED_OUT nickname) counter s.registry.processing
  else s

/-- `Get` into a new list. -/
def getFiles (cfg : Config) (root : Node Char) : List Str :=
  get cfg.PATH_SEPARATOR_CHR .FILE root []

/-- `FileSystemsOfUsers[nickname]` with the listing of a client put in front. -/
def addFileSystem (nickname : Str) (list : List Str → List Str) :
    List (Str × List Str) → List (Str × List Str)
  | [] => [(nickname, list [])]
  | e :: files =>
    if e.1 = nickname then (e.1, list e.2) :: files else e :: addFileSystem nickname list files

/-- The body of `FILES_OF_OTHER_USERS`; the key is `nickname().data()`. -/
def fileSystemsOfUsers (cfg : Config) (s : Server) (users : List ConnId) :
    List (Str × List Str) :=
  users.foldl (fun files c =>
    addFileSystem (cString (s.registry.nickname c))
      (get cfg.PATH_SEPARATOR_CHR .FILE (s.tree c)) files) []

/-- `notify_files_registration`. -/
def notifyFilesRegistration (cfg : Config) (c : ConnId) (s : Server) : Server :=
  let files := if (s.tree c).empty then none else some (getFiles cfg (s.tree c))
  let n := Notification.USER_REGISTERED_FILES (s.registry.nickname c) files
  let counter := s.registry.processingCounter + 1
  let s := { s with
    registry.processingCounter := counter
    registry.registered := c :: s.registry.registered }
  if counter = 1 then { s with registry := s.registry.setState c .processing }
  else
    let recipients := s.registry.processing
    let snapshot := fileSystemsOfUsers cfg s recipients
    let s := s.broadcast cfg n (counter - 1) recipients
    let s := s.startWrite c (.notification (.FILES_OF_OTHER_USERS snapshot))
    { s with registry := s.registry.setState c .processing }

/-- `do_notify`. -/
def doNotify (cfg : Config) (notifier : Str) (n : Notification) (s : Server) : Server :=
  if s.registry.processingCounter = 1 then s
  else s.broadcast cfg n (decrement s.registry.processingCounter)
    (s.registry.processing.filter fun c => s.registry.nickname c ≠ notifier)

def notifyFileAdd (cfg : Config) (fileName : Str) (c : ConnId) (s : Server) : Server :=
  s.doNotify cfg (s.registry.nickname c)
    (.USER_ADDED_NEW_FILE (s.registry.nickname c) fileName)

def notifyPathRemoved (cfg : Config) (filePath : Str) (c : ConnId) (s : Server) : Server :=
  s.doNotify cfg (s.registry.nickname c)
    (.USER_DELETED_FILE (s.registry.nickname c) filePath)

def notifyPathRenamed (cfg : Config) (oldFilePath newName : Str) (c : ConnId) (s : Server) :
    Server :=
  s.doNotify cfg (s.registry.nickname c)
    (.USER_RENAMED_FILE (s.registry.nickname c) oldFilePath newName)

/-- `connection::stop`, up to the section of `notify_disconnection`. -/
def stop (c : ConnId) (s : Server) : Server :=
  if s.registry.stopped c then s
  else
    let s := { s with registry := s.registry.setStopped c }
    s.continueWith c (.notifyDisconnection (s.registry.state c) (s.registry.nickname c))

/-! ## Shared writes -/

/-- How an `async_send` of a shared buffer ends. -/
inductive SendResult where
  | bytes (transferred : Nat)
  | failed
deriving DecidableEq, Repr

/-- The completion handler of `async_shared_write`. Nothing happens when the
connection no longer exists. -/
def sharedWriteCompleted (cfg : Config) (w : SharedWrite) (result : SendResult) (s : Server) :
    Server :=
  let s := { s with registry.writes := s.registry.writes.erase w }
  if !s.alive w.conn then s
  else match result with
    | .failed => s.stop w.conn
    | .bytes transferred =>
      let offset := w.offset + transferred
      if offset ≠ w.size then
        { s with registry.writes := s.registry.writes ++ [{ w with offset }] }
      else
        let registry := s.registry.notifySharedWriteDone cfg.build w.bufferID
        { s with registry := { registry with
            finished := (w.conn, w.bufferID) :: registry.finished } }

end Server

end FspServer
