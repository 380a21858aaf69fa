import FspServer.DownloadManager
import FspServer.Lib.Locks
import FspServer.Step

/-!
# The locks of a call chain

Four mutexes that are not recursive protect the server: `connection_manager::mutex_`,
`requests_backup_manager::mutex_`, `download_mutex_` and `upload_mutex_`. This module
says which of them a call takes, for every function that takes one and for every
function that calls such a function, and from that for every entry point: the
handlers of requests and replies, of timers, of transfers and of hello messages.

Callbacks run under two of them. `ForEachAndRemoveWrapper` calls its argument for
every waiting request, which takes `upload_mutex_` at most. `TryStartDownloadTransaction`
calls `Start` of the receiver, and a compressed receiver reads its first chunk header
there; when that fails it completes at once, and `CloseDownloadTransaction` requests
`download_mutex_` again. `not_relocks_iff`: no other call chain does that.
-/

namespace FspServer

open Locks Node

inductive Mutex where
  /-- `connection_manager::mutex_`. -/
  | connection_manager
  /-- `requests_backup_manager::mutex_`. -/
  | requests_backup_manager
  | download_mutex_
  | upload_mutex_
deriving DecidableEq, Repr

/-- The locks that a function takes while it is called. -/
abbrev Calls := Chain Mutex

namespace Calls

open Chain

/-! ## The connection manager -/

/-- A section under `connection_manager::mutex_`: writes are started there and none
completes inside. -/
def managerSection : Calls := guarded .connection_manager idle

def start : Calls := managerSection
def notifyDisconnection : Calls := managerSection
def stopAll : Calls := managerSection
def isLogged : Calls := managerSection
def notifyFilesRegistration : Calls := managerSection
def notifyFileAdd : Calls := managerSection
def notifyPathRemoved : Calls := managerSection
def notifyPathRenamed : Calls := managerSection
def setFileToCached : Calls := managerSection
def notifyFileDownload : Calls := managerSection

/-- `notify_shared_write_done` takes no lock. -/
def notifySharedWriteDone : Calls := idle

/-! ## The backed up requests -/

def isRequestIDValid : Calls := guarded .requests_backup_manager idle
def isDownloadPending : Calls := guarded .requests_backup_manager idle
def backupAndStartTimer : Calls := guarded .requests_backup_manager idle

/-- `ForEachAndRemoveWrapper` calls `f` under the mutex. -/
def forEachAndRemove (s : Server) (id : Nat) (f : DownloadRequest → Calls) : Calls :=
  guarded .requests_backup_manager <|
    match s.downloads.backedupRequests[id]? with
    | none => idle
    | some entry => forEach f (entry.info.requests.filter fun r => s.alive r.conn)

/-- `GetDownloadDenyHandler`. -/
def denyDownload (_ : DownloadRequest) : Calls := idle

/-! ## The download manager -/

/-- `BeginDownloadTransaction`, once the file is created. -/
def beginDownloadTransaction : Calls := guarded .download_mutex_ idle

def closeDownloadTransaction : Calls := guarded .download_mutex_ idle

/-- `assert(EndDownloadTransaction(ID))`. -/
def endDownloadTransaction (build : Build) : Calls :=
  match build with
  | .release => idle
  | .debug => guarded .download_mutex_ idle

def beginUploadTransaction (env : FileEnv) : Calls :=
  match env.fileSize with
  | none => idle
  | some size => if size = 0 || !env.openFile then idle else guarded .upload_mutex_ idle

/-- `assert(EndUploadTransaction(ID))`. -/
def endUploadTransaction (build : Build) : Calls :=
  match build with
  | .release => idle
  | .debug => guarded .upload_mutex_ idle

/-- `TryStartUploadTransaction`: a deliverer starts with an asynchronous read. -/
def tryStartUploadTransaction : Calls := guarded .upload_mutex_ idle

/-- `TryStartDownloadTransaction`; `completion` is the completion handler of the
receiver. -/
def tryStartDownloadTransaction (build : Build) (env : HelloEnv) (id : Nat) (m : DownloadManager)
    (completion : Calls) : Calls :=
  guarded .download_mutex_ <|
    match m.downloadTransactions[id]? with
    | none => idle
    | some t =>
      match t.worker with
      | none => idle
      | some .stream => idle
      | some (.compressed _) =>
        if build = .debug && !env.startByte then idle
        else if env.header then idle
        else completion

/-! ## Downloads -/

/-- `DeliverFileFromLocalStorage`. -/
def deliverFileFromLocalStorage (env : DownloadRequest → FileEnv) (r : DownloadRequest) : Calls :=
  beginUploadTransaction (env r)

/-- The completion handler that `resolve_download_reply` gives to a transaction. -/
def downloadCompletionHandler (s : Server) (id : Nat) (success : Bool)
    (env : DownloadRequest → FileEnv) : Calls :=
  if success then
    setFileToCached ++ forEachAndRemove s id (deliverFileFromLocalStorage env)
  else forEachAndRemove s id denyDownload

/-- `InternalDownloadCompletionHandlerWrapper`. -/
def completionHandler (build : Build) (s : Server) (id : Nat) (success : Bool)
    (env : DownloadRequest → FileEnv) : Calls :=
  closeDownloadTransaction ++ downloadCompletionHandler s id success env ++
    endDownloadTransaction build

def resolveDownloadFileQuerry (cfg : Config) (env : FileEnv) (s : Server)
    (fileOwner filePath sslVersion : Str) (r : DownloadRequest) : Calls :=
  if cfg.version sslVersion ≠ .sslv23 then idle
  else
    managerSection ++
      match (s.findConnection fileOwner).bind fun o =>
          find cfg.PATH_SEPARATOR_CHR filePath (s.tree o) with
      | none => idle
      | some true => beginUploadTransaction env
      | some false =>
        isDownloadPending ++
          if (s.downloads.isDownloadPending fileOwner filePath r).isSome then idle
          else backupAndStartTimer

def resolveDownloadReply (cfg : Config) (env : FileEnv) (s : Server) (m : Message) : Calls :=
  match stoull (m.header .CommandId) with
  | none => idle
  | some id =>
    if m.header .ReplyCode ≠ cfg.DOWNLOAD_FILE_QUERRY_APPROVED then idle
    else
      isRequestIDValid ++
        match s.downloads.backedupRequests[id]? with
        | none => idle
        | some _ =>
          match stoull (m.header .FileSize) with
          | none => idle
          | some _ =>
            if !env.createDirectories then idle
            else if !env.createFile then forEachAndRemove s id denyDownload
            else beginDownloadTransaction ++ notifyFileDownload

end Calls

/-! ## Entry points -/

namespace Calls

open Chain

/-- `connection::stop`. -/
def stop (s : Server) (c : ConnId) : Calls :=
  if s.registry.stopped c then idle else notifyDisconnection

def doSignin (s : Server) (dbFails : Bool) (login password : Str) : Calls :=
  match retrieveUser s.users dbFails login password with
  | .user_credentials_ok => isLogged
  | _ => idle

def doPushFiles (cfg : Config) (s : Server) (c : ConnId) (paths : List Str) : Calls :=
  if (addAll cfg.PATH_SEPARATOR_CHR paths (s.tree c)).isSome then notifyFilesRegistration else idle

def doAddFile (cfg : Config) (s : Server) (c : ConnId) (fileName : Str) : Calls :=
  if (add cfg.PATH_SEPARATOR_CHR fileName (s.tree c)).isSome then notifyFileAdd else idle

def doRemovePath (cfg : Config) (s : Server) (c : ConnId) (pathName : Str) : Calls :=
  if (remove cfg.PATH_SEPARATOR_CHR (s.registry.nickname c) pathName (s.tree c)).1 then
    notifyPathRemoved
  else idle

def doRemamePath (cfg : Config) (s : Server) (c : ConnId) (oldFilePath newName : Str) : Calls :=
  if (rename cfg.PATH_SEPARATOR_CHR (s.registry.nickname c) oldFilePath newName (s.tree c)).1 then
    notifyPathRenamed
  else idle

/-- A worker executes a task, from its first lock to its last. -/
def executeRequest (cfg : Config) (dbFails : Bool) (env : FileEnv) (s : Server) (c : ConnId) :
    Request → Calls
  | .signin _ login password => doSignin s dbFails login password
  | .signup _ _ _ => idle
  | .pushFiles _ paths => doPushFiles cfg s c paths
  | .deleteAccount _ => idle
  | .logout => stop s c
  | .downloadFile id owner path ssl compressions =>
    resolveDownloadFileQuerry cfg env s owner path ssl
      ⟨c, getCompression (cfg.csvCompressions compressions), id, s.downloads.executed⟩
  | .addFile _ fileName => doAddFile cfg s c fileName
  | .removePath _ pathName => doRemovePath cfg s c pathName
  | .renamePath _ oldFilePath newName => doRemamePath cfg s c oldFilePath newName

/-- `read_action`: every message but a valid reply is answered or queued. -/
def readAction (cfg : Config) (env : FileEnv) (s : Server) (c : ConnId) (m : Message) : Calls :=
  if m.command = .HEARTBEAT then idle
  else if (s.readError cfg c m).isSome then idle
  else if m.command = .REPLY then resolveDownloadReply cfg env s m
  else idle

/-- `HandleHandshake`, once the hello message is read. `success` and `files` are for a
receiver that completes at once: whether it has all its bytes, and what the file
system answers for each waiting request. -/
def handleHandshake (cfg : Config) (s : Server) (m : DownloadManager) (env : HelloEnv)
    (type : HelloType) (id : Nat) (success : Bool) (files : DownloadRequest → FileEnv) : Calls :=
  match type with
  | .RECEIVER_CODE_STR => tryStartUploadTransaction
  | .SENDER_CODE_STR =>
    tryStartDownloadTransaction cfg.build env id m
      (completionHandler cfg.build s id success files)
  | .other => idle

end Calls

/-- Where a call chain begins: a thread of the server, of the scheduler or of the
download manager calls a handler and holds no lock. -/
inductive EntryPoint where
  | accept
  | stopAll
  | read (c : ConnId) (m : Message) (env : FileEnv)
  | execute (c : ConnId) (request : Request) (dbFails : Bool) (env : FileEnv)
  | stop (c : ConnId)
  | sharedWriteDone (id : Nat)
  | backupTimer (id : Nat)
  | downloadTimer (id : Nat)
  | uploadTimer (id : Nat)
  | hello (env : HelloEnv) (type : HelloType) (id : Nat) (success : Bool)
      (files : DownloadRequest → FileEnv)
  | transferCompleted (id : Nat) (success : Bool) (files : DownloadRequest → FileEnv)
  | uploadCompleted (id : Nat)

namespace EntryPoint

/-- The call chain of an entry point. -/
def calls (cfg : Config) (s : Server) (m : DownloadManager) : EntryPoint → Calls
  | .accept => Calls.start
  | .stopAll => Calls.stopAll
  | .read c message env => Calls.readAction cfg env s c message
  | .execute c request dbFails env => Calls.executeRequest cfg dbFails env s c request
  | .stop c => Calls.stop s c
  | .sharedWriteDone _ => Calls.notifySharedWriteDone
  | .backupTimer id => Calls.forEachAndRemove s id Calls.denyDownload
  | .downloadTimer id =>
    Calls.forEachAndRemove s id Calls.denyDownload ++ Calls.endDownloadTransaction cfg.build
  | .uploadTimer _ => Calls.endUploadTransaction cfg.build
  | .hello env type id success files => Calls.handleHandshake cfg s m env type id success files
  | .transferCompleted id success files =>
    Calls.completionHandler cfg.build s id success files
  | .uploadCompleted _ => Calls.endUploadTransaction cfg.build

/-- A sender's peer closes before its first chunk header, and the stored receiver reads
that header while it is started: a debug build has written the start byte before. -/
def HeaderMissing (cfg : Config) (m : DownloadManager) : EntryPoint → Prop
  | .hello env .SENDER_CODE_STR id _ _ =>
    env.header = false ∧ (cfg.build = .debug → env.startByte = true) ∧
      ∃ t compressor, m.downloadTransactions[id]? = some t ∧
        t.worker = some (.compressed compressor)
  | _ => False

end EntryPoint

/-! ## No call chain but one requests a lock it holds -/

namespace Calls

open Chain

variable {held : List Mutex} {cfg : Config} {s : Server} {m : DownloadManager}

@[simp] theorem relocks_managerSection :
    managerSection.Relocks held ↔ .connection_manager ∈ held := by
  simp [managerSection]

@[simp] theorem not_relocks_stop {c : ConnId} : ¬ (stop s c).Relocks [] :=
  not_relocks_ite not_relocks_idle (by simp [notifyDisconnection])

theorem not_relocks_beginUploadTransaction {env : FileEnv} (h : .upload_mutex_ ∉ held) :
    ¬ (beginUploadTransaction env).Relocks held := by
  unfold beginUploadTransaction
  cases env.fileSize with
  | none => simp
  | some size =>
    exact not_relocks_ite not_relocks_idle (by simpa using h)

@[simp] theorem not_relocks_endDownloadTransaction {build : Build} :
    ¬ (endDownloadTransaction build).Relocks [] := by
  cases build with
  | debug => simp [endDownloadTransaction]
  | release => simp [endDownloadTransaction]

@[simp] theorem not_relocks_endUploadTransaction {build : Build} :
    ¬ (endUploadTransaction build).Relocks [] := by
  cases build with
  | debug => simp [endUploadTransaction]
  | release => simp [endUploadTransaction]

/-- The loop over the waiting requests is as good as its callback under the mutex. -/
theorem not_relocks_forEachAndRemove {id : Nat} {f : DownloadRequest → Calls}
    (hf : ∀ r, ¬ (f r).Relocks [.requests_backup_manager]) :
    ¬ (forEachAndRemove s id f).Relocks [] := by
  unfold forEachAndRemove
  cases s.downloads.backedupRequests[id]? with
  | none => simp
  | some entry =>
    simp only [relocks_guarded, relocks_forEach, List.not_mem_nil, false_or]
    rintro ⟨r, -, hr⟩
    exact hf r hr

@[simp] theorem not_relocks_forEachAndRemove_deny {id : Nat} :
    ¬ (forEachAndRemove s id denyDownload).Relocks [] :=
  not_relocks_forEachAndRemove fun _ => not_relocks_idle

/-- A transfer that completes on its own holds no lock, and its handler takes one after
the other. -/
theorem not_relocks_completionHandler {build : Build} {id : Nat} {success : Bool}
    {files : DownloadRequest → FileEnv} :
    ¬ (completionHandler build s id success files).Relocks [] := by
  have hhandler : ¬ (downloadCompletionHandler s id success files).Relocks [] := by
    cases success with
    | false => simp [downloadCompletionHandler]
    | true =>
      have hdeliver : ∀ r, ¬ (deliverFileFromLocalStorage files r).Relocks
          [.requests_backup_manager] :=
        fun r => not_relocks_beginUploadTransaction (by decide)
      simp [downloadCompletionHandler, setFileToCached, not_relocks_forEachAndRemove hdeliver]
  simp [completionHandler, closeDownloadTransaction, hhandler]

/-- A transfer that completes inside `Start` holds `download_mutex_`, and its handler
requests it first. -/
theorem relocks_completionHandler {build : Build} {id : Nat} {success : Bool}
    {files : DownloadRequest → FileEnv} :
    (completionHandler build s id success files).Relocks [.download_mutex_] := by
  simp [completionHandler, closeDownloadTransaction]

theorem not_relocks_resolveDownloadFileQuerry {env : FileEnv} {owner path ssl : Str}
    {r : DownloadRequest} :
    ¬ (resolveDownloadFileQuerry cfg env s owner path ssl r).Relocks [] := by
  unfold resolveDownloadFileQuerry
  split
  · simp
  · split
    · simp
    · simp [not_relocks_beginUploadTransaction]
    · simp only [relocks_append, relocks_managerSection, isDownloadPending, relocks_guarded,
        not_relocks_idle, List.not_mem_nil, or_false, false_or]
      exact not_relocks_ite not_relocks_idle (by simp [backupAndStartTimer])

theorem not_relocks_resolveDownloadReply {env : FileEnv} {message : Message} :
    ¬ (resolveDownloadReply cfg env s message).Relocks [] := by
  unfold resolveDownloadReply
  cases stoull (message.header .CommandId) with
  | none => simp
  | some id =>
    dsimp only
    split
    · simp
    · simp only [relocks_append, isRequestIDValid, relocks_guarded, not_relocks_idle,
        List.not_mem_nil, false_or]
      cases s.downloads.backedupRequests[id]? with
      | none => simp
      | some entry =>
        cases stoull (message.header .FileSize) with
        | none => simp
        | some size =>
          refine not_relocks_ite not_relocks_idle
            (not_relocks_ite not_relocks_forEachAndRemove_deny ?_)
          simp [beginDownloadTransaction, notifyFileDownload]

theorem not_relocks_executeRequest {dbFails : Bool} {env : FileEnv} {c : ConnId}
    {request : Request} : ¬ (executeRequest cfg dbFails env s c request).Relocks [] := by
  cases request with
  | signin _ login password =>
    show ¬ (doSignin s dbFails login password).Relocks []
    unfold doSignin
    split
    · simp [isLogged]
    · simp
  | signup => simp [executeRequest]
  | pushFiles _ paths =>
    exact not_relocks_ite (by simp [notifyFilesRegistration]) not_relocks_idle
  | deleteAccount => simp [executeRequest]
  | logout => simp [executeRequest]
  | downloadFile => exact not_relocks_resolveDownloadFileQuerry
  | addFile _ fileName =>
    exact not_relocks_ite (by simp [notifyFileAdd]) not_relocks_idle
  | removePath _ pathName =>
    exact not_relocks_ite (by simp [notifyPathRemoved]) not_relocks_idle
  | renamePath _ oldFilePath newName =>
    exact not_relocks_ite (by simp [notifyPathRenamed]) not_relocks_idle

theorem not_relocks_readAction {env : FileEnv} {c : ConnId} {message : Message} :
    ¬ (readAction cfg env s c message).Relocks [] := by
  refine not_relocks_ite not_relocks_idle (not_relocks_ite not_relocks_idle ?_)
  exact not_relocks_ite not_relocks_resolveDownloadReply not_relocks_idle

/-- What `TryStartDownloadTransaction` requests is decided by its callback, and by
whether that is called. -/
theorem relocks_tryStartDownloadTransaction {build : Build} {env : HelloEnv} {id : Nat}
    {completion : Calls} (hcompletion : completion.Relocks [.download_mutex_]) :
    (tryStartDownloadTransaction build env id m completion).Relocks [] ↔
      env.header = false ∧ (build = .debug → env.startByte = true) ∧
        ∃ t compressor, m.downloadTransactions[id]? = some t ∧
          t.worker = some (.compressed compressor) := by
  unfold tryStartDownloadTransaction
  simp only [relocks_guarded, List.not_mem_nil, false_or]
  cases m.downloadTransactions[id]? with
  | none => simp
  | some t =>
    cases hw : t.worker with
    | none => simp [hw]
    | some worker =>
      cases worker with
      | stream => simp [hw]
      | compressed compressor =>
        simp only [hw]
        split
        · rename_i h
          obtain ⟨hbuild, hbyte⟩ : build = .debug ∧ env.startByte = false := by simpa using h
          simp [hbuild, hbyte]
        · rename_i h
          have hbyte : build = .debug → env.startByte = true := by simpa using h
          split
          · rename_i hheader
            simp [hheader]
          · rename_i hheader
            simpa [hcompletion, hheader, hw] using hbyte

end Calls

/-- In every state, the call chain of an entry point requests no lock that it holds,
unless it starts a compressed receiver whose peer closes before the first chunk header.
-/
theorem not_relocks_iff (cfg : Config) (s : Server) (m : DownloadManager) (e : EntryPoint) :
    ¬ (e.calls cfg s m).Relocks [] ↔ ¬ e.HeaderMissing cfg m := by
  cases e with
  | accept => simp [EntryPoint.calls, EntryPoint.HeaderMissing, Calls.start]
  | stopAll => simp [EntryPoint.calls, EntryPoint.HeaderMissing, Calls.stopAll]
  | read c message env =>
    simp [EntryPoint.calls, EntryPoint.HeaderMissing, Calls.not_relocks_readAction]
  | execute c request dbFails env =>
    simp [EntryPoint.calls, EntryPoint.HeaderMissing, Calls.not_relocks_executeRequest]
  | stop c => simp [EntryPoint.calls, EntryPoint.HeaderMissing]
  | sharedWriteDone id =>
    simp [EntryPoint.calls, EntryPoint.HeaderMissing, Calls.notifySharedWriteDone]
  | backupTimer id => simp [EntryPoint.calls, EntryPoint.HeaderMissing]
  | downloadTimer id => simp [EntryPoint.calls, EntryPoint.HeaderMissing]
  | uploadTimer id => simp [EntryPoint.calls, EntryPoint.HeaderMissing]
  | transferCompleted id success files =>
    simp [EntryPoint.calls, EntryPoint.HeaderMissing, Calls.not_relocks_completionHandler]
  | uploadCompleted id => simp [EntryPoint.calls, EntryPoint.HeaderMissing]
  | hello env type id success files =>
    cases type with
    | RECEIVER_CODE_STR =>
      simp [EntryPoint.calls, EntryPoint.HeaderMissing, Calls.handleHandshake,
        Calls.tryStartUploadTransaction]
    | SENDER_CODE_STR =>
      exact not_congr (Calls.relocks_tryStartDownloadTransaction Calls.relocks_completionHandler)
    | other => simp [EntryPoint.calls, EntryPoint.HeaderMissing, Calls.handleHandshake]

/-- The owner of a file announces a compressed upload, connects as the sender and closes
before it sends a chunk. -/
theorem missing_header_relocks :
    ((EntryPoint.hello ⟨true, false⟩ .SENDER_CODE_STR 2 false fun _ => sampleEnv).calls sampleConfig
      (Server.initial sampleConfig [])
      (({} : DownloadManager).beginDownloadTransaction sampleEnv 2 .zlib ⟨['/', 'f'], ['a']⟩)
      ).Relocks [] := by
  decide +kernel

/-- The model of the download manager stops where a call chain waits for itself. -/
theorem halted_of_headerMissing {cfg : Config} {m : DownloadManager} {env : HelloEnv} {id : Nat}
    {success : Bool} {files : DownloadRequest → FileEnv}
    (h : (EntryPoint.hello env .SENDER_CODE_STR id success files).HeaderMissing cfg m) :
    (m.handleHandshake cfg.build env .SENDER_CODE_STR id).halted = true := by
  obtain ⟨hheader, hbyte, t, compressor, hm, hw⟩ := h
  have hassert : (cfg.build = .debug && !env.startByte) = false := by
    cases hbuild : cfg.build with
    | debug => simp [hbyte hbuild]
    | release => rfl
  simp [DownloadManager.handleHandshake, DownloadManager.tryStartDownloadTransaction, hm, hw,
    hassert, hheader]

end FspServer
