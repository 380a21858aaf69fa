import FspServer.Downloads
import FspServer.Lib.Run

/-!
# Steps of the server

`Server.step` is one atomic step: a connection is accepted, a message is read,
a worker executes a queued task up to its first lock, a running handler does its
next section, a connection is stopped, a shared write completes, or the download
side makes progress. A run is any sequence of steps, so a client may send
requests before earlier ones are executed, and any queued task may be taken
next.
-/

namespace FspServer

open Node

/-- `IUsersDB::status_code` of `retrieve_user`. -/
inductive RetrieveStatus where
  | user_credentials_ok
  | user_not_found
  | user_pswd_incorrect
  | internal_error
deriving DecidableEq, Repr

/-- `retrieve_user`; `dbFails` when the database cannot be used. -/
def retrieveUser (users : List (Str × Str)) (dbFails : Bool) (login password : Str) :
    RetrieveStatus :=
  if dbFails then .internal_error
  else match users.find? fun u => u.1 = login with
    | none => .user_not_found
    | some u => if u.2 = password then .user_credentials_ok else .user_pswd_incorrect

namespace Server

/-! ## The handlers -/

/-- `do_signin` up to `isLogged`. -/
def doSignin (dbFails : Bool) (requestID login password : Str) (c : ConnId) (s : Server) : Server :=
  match retrieveUser s.users dbFails login password with
  | .user_credentials_ok => s.continueWith c (.isLogged requestID login)
  | .user_not_found => s.writeReply .NICKNAME_INCORRECT requestID c
  | .user_pswd_incorrect => s.writeReply .PASSWORD_INCORRECT requestID c
  | .internal_error => s.writeReply .INTERNAL_SERVER_ERR requestID c

/-- `do_signup` up to the stores. -/
def doSignup (dbFails : Bool) (requestID login password : Str) (c : ConnId) (s : Server) : Server :=
  if dbFails then s.writeReply .INTERNAL_SERVER_ERR requestID c
  else if s.users.any fun u => u.1 = login then
    s.writeReply .USER_ALREADY_REGISTERED requestID c
  else
    { s with users := (login, password) :: s.users }.continueWith c
      (.storeLogin .REGISTERING_SUCCESSFULL requestID login)

def doDeleteAccount (dbFails : Bool) (requestID : Str) (c : ConnId) (s : Server) : Server :=
  let nickname := s.registry.nickname c
  if dbFails then s.writeReply .INTERNAL_SERVER_ERR requestID c
  else if s.users.any fun u => u.1 = nickname then
    { s with users := s.users.filter fun u => u.1 ≠ nickname }.writeReply
      .DELETING_ACCOUNT_SUCCESSFULL requestID c
  else s.writeReply .REMOVE_ACCOUNT_FAILED requestID c

/-- `do_push_files` up to `notify_files_registration`. -/
def doPushFiles (cfg : Config) (requestID : Str) (paths : List Str) (c : ConnId) (s : Server) :
    Option Server :=
  (addAll cfg.PATH_SEPARATOR_CHR paths (s.tree c)).map fun root =>
    ({ s with tree := Function.update s.tree c root }.writeReply
      .PUSH_FILES_SUCCESS requestID c).continueWith c .notifyFilesRegistration

/-- `do_add_file` up to `notify_file_add`. -/
def doAddFile (cfg : Config) (requestID fileName : Str) (c : ConnId) (s : Server) :
    Option Server :=
  (add cfg.PATH_SEPARATOR_CHR fileName (s.tree c)).map fun root =>
    ({ s with tree := Function.update s.tree c root }.writeReply
      .ADD_FILE_SUCCESSFULL requestID c).continueWith c (.notifyFileAdd fileName)

/-- `do_remove_path` up to `notify_path_removed`. -/
def doRemovePath (cfg : Config) (requestID pathName : Str) (c : ConnId) (s : Server) : Server :=
  let (removed, root, _) :=
    remove cfg.PATH_SEPARATOR_CHR (s.registry.nickname c) pathName (s.tree c)
  if removed then
    ({ s with tree := Function.update s.tree c root }.writeReply
      .REMOVE_FILE_SUCCESSFULL requestID c).continueWith c (.notifyPathRemoved pathName)
  else s.writeReply .REMOVE_FILE_FAILED requestID c

/-- `do_remame_path` up to `notify_path_renamed`. -/
def doRemamePath (cfg : Config) (requestID oldFilePath newName : Str) (c : ConnId) (s : Server) :
    Server :=
  let (renamed, root, _) :=
    rename cfg.PATH_SEPARATOR_CHR (s.registry.nickname c) oldFilePath newName (s.tree c)
  if renamed then
    ({ s with tree := Function.update s.tree c root }.writeReply
      .RENAME_FILE_SUCCESSFULL requestID c).continueWith c
        (.notifyPathRenamed oldFilePath newName)
  else s.writeReply .RENAME_FILE_FAILED requestID c

/-- A worker executes a task. `do_logout` stops the connection. -/
def executeRequest (cfg : Config) (dbFails : Bool) (env : FileEnv) (c : ConnId) (s : Server) :
    Request → Option Server
  | .signin id login password => some (s.doSignin dbFails id login password c)
  | .signup id login password => some (s.doSignup dbFails id login password c)
  | .pushFiles id paths => s.doPushFiles cfg id paths c
  | .deleteAccount id => some (s.doDeleteAccount dbFails id c)
  | .logout => some (s.stop c)
  | .downloadFile id owner path ssl compressions =>
    some (s.resolveDownloadFileQuerry cfg env c id owner path ssl compressions)
  | .addFile id fileName => s.doAddFile cfg id fileName c
  | .removePath id pathName => some (s.doRemovePath cfg id pathName c)
  | .renamePath id oldFilePath newName => some (s.doRemamePath cfg id oldFilePath newName c)

/-- The next section of a running handler. -/
def resumeHandler (cfg : Config) (c : ConnId) (s : Server) : Continuation → Server
  | .isLogged id login =>
    if s.isLogged login then s.writeReply .USER_ALREADY_LOGGED id c
    else s.continueWith c (.storeLogin .LOGIN_SUCCESSFULL id login)
  | .storeLogin code id login =>
    { s with
      registry := s.registry.storeLogin c login
      logins := (c, login) :: s.logins }.writeReply code id c
  | .notifyFilesRegistration => s.notifyFilesRegistration cfg c
  | .notifyFileAdd fileName => s.notifyFileAdd cfg fileName c
  | .notifyPathRemoved filePath => s.notifyPathRemoved cfg filePath c
  | .notifyPathRenamed oldFilePath newName => s.notifyPathRenamed cfg oldFilePath newName c
  | .notifyDisconnection st nickname => s.notifyDisconnection cfg c st nickname

/-! ## Reading a message -/

/-- The tasks that `resolve_querry` posts: one `if` for each type of query. -/
def querryTasks (cfg : Config) (c : ConnId) (m : Message) : List Task :=
  let type := m.header .QuerryType
  let id := m.header .CommandId
  let file := m.header .FileName
  (if type = cfg.DOWNLOAD_FILE then
    [⟨.medium, c, .downloadFile id (m.header .FileOwner) file (m.header .SslVersion)
      (m.header .Compressions)⟩] else []) ++
  (if type = cfg.ADD_FILE then [⟨.medium, c, .addFile id file⟩] else []) ++
  (if type = cfg.REMOVE_PATH then [⟨.high, c, .removePath id file⟩] else []) ++
  (if type = cfg.RENAME_PATH then
    [⟨.high, c, .renamePath id file (m.header .FileNewName)⟩] else [])

/-- The tasks that `handle_message` posts. -/
def messageTasks (cfg : Config) (c : ConnId) (m : Message) : List Task :=
  let id := m.header .CommandId
  match m.command with
  | .SIGNIN => [⟨.high, c, .signin id (m.header .Nickname) (m.header .Password)⟩]
  | .SIGNUP => [⟨.high, c, .signup id (m.header .Nickname) (m.header .Password)⟩]
  | .PUSH_FILES => [⟨.medium, c, .pushFiles id m.body⟩]
  | .QUERRY => querryTasks cfg c m
  | .DELETE_ACCOUNT => [⟨.low, c, .deleteAccount id⟩]
  | .LOGOUT => [⟨.very_high, c, .logout⟩]
  | _ => []

/-- The error reply of `read_action`, with the id of the command once the basic
validator has seen that there is one. -/
def readError (cfg : Config) (c : ConnId) (m : Message) (s : Server) : Option (Response × Str) :=
  match basicValidate m with
  | some code => some (code, cfg.CMD_ID_WHEN_NO_CMDID_PRESENT)
  | none =>
    match transitionValidate m.command (s.registry.state c) with
    | some code => some (code, m.header .CommandId)
    | none => (semanticValidate cfg m).map fun code => (code, m.header .CommandId)

/-- `read_action`; `none` where a null confirmation would be written. -/
def readAction (cfg : Config) (env : FileEnv) (c : ConnId) (m : Message) (s : Server) :
    Option (Server × Exit) :=
  if m.command = .HEARTBEAT then some (s.startWrite c .heartbeat, .returned)
  else match s.readError cfg c m with
    | some (code, requestID) => some (s.writeReply code requestID c, .returned)
    | none =>
      if m.command = .REPLY then some (s.resolveDownloadReply cfg env c m)
      else (confirm m.command).map fun code =>
        let s := s.writeReply code (m.header .CommandId) c
        ({ s with tasks := s.tasks ++ messageTasks cfg c m }, .returned)

/-! ## Events -/

inductive Event where
  | accept (position : Nat)
  | read (c : ConnId) (m : Message) (env : FileEnv)
  | execute (i : Nat) (dbFails : Bool) (env : FileEnv)
  | resume (i : Nat)
  | stop (c : ConnId)
  | sharedWrite (i : Nat) (result : SendResult)
  | backupTimer (id : Nat)
  | transactionTimer (id : Nat)
  | helloSender (id : Nat)
  | transferCompleted (id : Nat) (success : Bool) (env : FileEnv)
  | uploadCompleted (id : Nat)

/-- A transfer of a send is possible: some bytes, not more than are left. -/
def SendResult.Fits (w : SharedWrite) : SendResult → Prop
  | .bytes transferred => 0 < transferred ∧ w.offset + transferred ≤ w.size
  | .failed => True

instance (w : SharedWrite) (result : SendResult) : Decidable (result.Fits w) :=
  match result with
  | .bytes _ => inferInstanceAs (Decidable (_ ∧ _))
  | .failed => inferInstanceAs (Decidable True)

/-- One step; `none` when the event cannot happen in the state. An exception that
leaves `read_action` leaves the state as it was when it was thrown. -/
def step (cfg : Config) (s : Server) (e : Event) : Option Server :=
  if s.halted then none
  else match e with
    | .accept position => some { s with registry := s.registry.accept position }
    | .read c m env => if s.alive c then (s.readAction cfg env c m).map (·.1) else none
    | .execute i dbFails env =>
      (s.tasks[i]?).bind fun t =>
        let s := { s with tasks := s.tasks.eraseIdx i }
        if s.alive t.conn then s.executeRequest cfg dbFails env t.conn t.request else some s
    | .resume i =>
      (s.running[i]?).map fun h =>
        { s with running := s.running.eraseIdx i }.resumeHandler cfg h.conn h.rest
    | .stop c => if s.alive c then some (s.stop c) else none
    | .sharedWrite i result =>
      (s.registry.writes[i]?).bind fun w =>
        if result.Fits w then some (s.sharedWriteCompleted cfg w result) else none
    | .backupTimer id =>
      (s.downloads.backedupRequests[id]?).bind fun entry =>
        if entry.timerArmed then some (s.backupTimerExpired id) else none
    | .transactionTimer id =>
      if id ∈ s.downloads.transactionTimers then some (s.transactionTimerExpired cfg id) else none
    | .helloSender id => some (s.tryStartDownloadTransaction id)
    | .transferCompleted id success env =>
      (s.downloads.completionHandlers[id]?).map fun handler =>
        s.transferCompleted cfg env id handler success
    | .uploadCompleted id => some (s.endUploadTransaction cfg id)

end Server

/-! ## Concrete runs

A configuration with short texts, and the events of a client that logs in and
registers its files while nothing else is queued or running. -/

def sampleConfig : Config where
  build := .debug
  PATH_SEPARATOR_CHR := '/'
  PATH_ROOT := ['/']
  querryType := ['q']
  DOWNLOAD_FILE := ['d']
  ADD_FILE := ['a']
  REMOVE_PATH := ['r']
  RENAME_PATH := ['n']
  CMD_ID_WHEN_NO_CMDID_PRESENT := ['0']
  DOWNLOAD_FILE_QUERRY_APPROVED := ['y']
  isValidContentTypeFormat := fun _ => true
  isSslVersionValid := fun _ => true
  version := fun _ => .sslv23
  csvCompressions := fun _ => []
  messageLength := fun _ => 1
  downloadPort := 8071

/-- Every call of the file system succeeds, on a file of one byte. -/
def sampleEnv : FileEnv := ⟨true, true, some 1, true⟩

namespace Server.Event

open Message

def readSignup (c : ConnId) (nickname : Str) : Event :=
  .read c ⟨.SIGNUP, [(.CommandId, ['1']), (.Nickname, nickname), (.Password, [])], []⟩ sampleEnv

def readSignin (c : ConnId) (nickname : Str) : Event :=
  .read c ⟨.SIGNIN, [(.CommandId, ['1']), (.Nickname, nickname), (.Password, [])], []⟩ sampleEnv

def readPushFiles (c : ConnId) (files : List Str) : Event :=
  .read c ⟨.PUSH_FILES, [(.CommandId, ['2'])], files⟩ sampleEnv

def readQuerry (c : ConnId) (type fileName : Str) (headers : List (Header × Str)) : Event :=
  .read c ⟨.QUERRY, (.CommandId, ['3']) :: (.QuerryType, type) :: (.FileName, fileName) :: headers,
    []⟩ sampleEnv

def readReply (c : ConnId) (id fileSize : Str) : Event :=
  .read c ⟨.REPLY, [(.CommandId, id), (.ReplyCode, ['y']), (.FileSize, fileSize)], []⟩ sampleEnv

/-- The first queued task is executed. -/
def executeFirst : Event := .execute 0 false sampleEnv

/-- A new account logs in on a connection. -/
def login (c : ConnId) (nickname : Str) : List Event :=
  [readSignup c nickname, executeFirst, .resume 0]

/-- A client registers its files. -/
def register (c : ConnId) (files : List Str) : List Event :=
  [readPushFiles c files, executeFirst, .resume 0]

end Server.Event

end FspServer
