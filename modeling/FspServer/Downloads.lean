import FspServer.ConnectionManager

/-!
# Downloads

A query for a file of another client is answered from the local storage when the
file is cached, and is otherwise put on hold: the owner is asked, and the
requests that wait for the same file are backed up under one id. The owner's
reply starts a transfer transaction; its end, or one of two timers, answers all
waiting requests at once.

Each function is taken as one step, with its locks. What the file system answers
in a step is given by `FileEnv`. A timer is an armed flag: an armed timer may
expire, a stopped one does not.
-/

namespace FspServer

open Node

/-- The outcomes of the file-system calls that one step makes. -/
structure FileEnv where
  /-- `create_directories` returns; otherwise it throws. -/
  createDirectories : Bool
  /-- `CreateFile` for writing gives a handle. -/
  createFile : Bool
  /-- `file_size`; `none` is an error. -/
  fileSize : Option Nat
  /-- `CreateFile` for reading gives a handle. -/
  openFile : Bool
deriving DecidableEq, Repr

/-- The file has a size and can be opened: `BeginUploadTransaction` gets as far as the
counter of the ids. -/
def FileEnv.readable (env : FileEnv) : Bool :=
  (env.fileSize.any fun size => size ≠ 0) && env.openFile

/-- How a function is left. -/
inductive Exit where
  | returned
  | raised
deriving DecidableEq, Repr

/-! ## The download manager -/

/-- `GetCompression`: the first compression of the server that the peer has. -/
def getCompression (compressions : List Compression) : Compression :=
  (([.zlib, .gzip] : List Compression).find? fun c => c ∈ compressions).getD .nocompression

/-- The receiver that `BeginDownloadTransaction` makes for a compression. -/
def fileReceiver : Compression → Option FileReceiver
  | .nocompression => some .stream
  | .zlib => some .compressed
  | _ => none

namespace Downloads

/-- The part of `BeginDownloadTransaction` under `download_mutex_`: an entry that
is already there stays, and its timer is started again. -/
def storeTransaction (id : Nat) (receiver : Option FileReceiver) (handler : CompletionHandler)
    (d : Downloads) : Downloads :=
  { d with
    downloadTransactions := d.downloadTransactions.insertIfNew id receiver
    completionHandlers :=
      if id ∈ d.downloadTransactions ∨ receiver = none then d.completionHandlers
      else d.completionHandlers.insert id handler
    transactionTimers := id :: d.transactionTimers }

/-- `BeginUploadTransaction`: the id, the size of the file and the compression
of a transaction that was stored. -/
def beginUploadTransaction (env : FileEnv) (localFilePath : Str) (compression : Compression)
    (d : Downloads) : Option (Nat × Nat × Compression × Downloads) :=
  match env.fileSize with
  | none => none
  | some size =>
    if size = 0 ∨ !env.openFile then none
    else
      let compression :=
        if 104857600 < size ∧ compression = .zlib then .zlib else .nocompression
      let id := d.uploadTransactionsIDCounter
      some (id, size, compression,
        { d with
          uploadTransactions := d.uploadTransactions.insertIfNew id localFilePath
          uploadTransactionsIDCounter := id + 1 })

/-! ## The backed up requests -/

/-- `IsDownloadPending`: joins the entry for the same file, when there is one. -/
def isDownloadPending (fileOwner filePath : Str) (r : DownloadRequest) (d : Downloads) :
    Option Downloads :=
  (d.backedupRequests.toList.find? fun e =>
      e.2.info.fileOwner = fileOwner ∧ e.2.info.filePath = filePath).map fun e =>
    { d with
      backedupRequests := d.backedupRequests.insert e.1
        { e.2 with info := { e.2.info with requests := r :: e.2.info.requests } } }

/-- `BackupAndStartTimer`. -/
def backupAndStartTimer (id : Nat) (info : DownloadInfo) (d : Downloads) : Downloads :=
  let entry := (d.backedupRequests[id]?).getD ⟨info, false⟩
  { d with backedupRequests := d.backedupRequests.insert id { entry with timerArmed := true } }

/-- The effect of `IsRequestIDValid` on an entry that is there. -/
def stopTimer (id : Nat) (entry : Backup) (d : Downloads) : Downloads :=
  { d with backedupRequests := d.backedupRequests.insert id { entry with timerArmed := false } }

end Downloads

namespace Server

/-- An answer to the query with the given ticket. -/
def answer (c : ConnId) (ticket : Nat) (m : Outgoing) (s : Server) : Server :=
  { s.startWrite c m with
    downloads := { s.downloads with answers := ⟨ticket, c, m⟩ :: s.downloads.answers } }

/-- `GetDownloadDenyHandler`. -/
def denyDownload (r : DownloadRequest) (s : Server) : Server :=
  s.answer r.conn r.ticket (.reply .DOWNLOAD_DENY r.requestID)

/-- `DeliverFileFromLocalStorage`. -/
def deliverFileFromLocalStorage (cfg : Config) (env : FileEnv) (localFilePath : Str)
    (r : DownloadRequest) (s : Server) : Server :=
  match s.downloads.beginUploadTransaction env localFilePath r.compression with
  | some (id, size, compression, downloads) =>
    { s with downloads }.answer r.conn r.ticket
      (.downloadApproved r.requestID size cfg.downloadPort id compression)
  | none => s.denyDownload r

/-- `ForEachAndRemoveWrapper`: `f` for every waiting request whose connection
still exists, then the entry is erased. -/
def forEachAndRemove (id : Nat) (f : DownloadRequest → Server → Server) (s : Server) : Server :=
  match s.downloads.backedupRequests[id]? with
  | none => s
  | some entry =>
    let s := entry.info.requests.foldl (fun s r => if s.alive r.conn then f r s else s) s
    { s with downloads.backedupRequests := s.downloads.backedupRequests.erase id }

/-- The first connection with the nickname. -/
def findConnection (nickname : Str) (s : Server) : Option ConnId :=
  s.registry.connections.find? fun c => s.registry.nickname c = nickname

/-- `resolve_download_file_querry`. -/
def resolveDownloadFileQuerry (cfg : Config) (env : FileEnv) (c : ConnId)
    (requestID fileOwner filePath sslVersion compressions : Str) (s : Server) : Server :=
  let ticket := s.downloads.executed
  let s := { s with downloads.executed := ticket + 1 }
  let r : DownloadRequest :=
    ⟨c, getCompression (cfg.csvCompressions compressions), requestID, ticket⟩
  if cfg.version sslVersion ≠ .sslv23 then
    s.answer c ticket (.reply .SSL_VERSION_INCOMPATIBLE requestID)
  else
    let owner := (s.findConnection fileOwner).bind fun o =>
      (find cfg.PATH_SEPARATOR_CHR filePath (s.tree o)).map fun cached => (o, cached)
    match owner with
    | none => s.denyDownload r
    | some (_, true) => s.deliverFileFromLocalStorage cfg env (fileOwner ++ filePath) r
    | some (o, false) =>
      match s.downloads.isDownloadPending fileOwner filePath r with
      | some downloads =>
        { s with downloads := { downloads with held := ticket :: downloads.held } }
      | none =>
        let id := s.downloads.downloadTransactionsIDCounter + 1
        let s := { s with downloads.downloadTransactionsIDCounter := id }
        let s := s.startWrite o (.downloadQuerry id filePath)
        let downloads := s.downloads.backupAndStartTimer id ⟨fileOwner, filePath, [r]⟩
        { s with downloads := { downloads with held := ticket :: downloads.held } }

/-- `NotifyFileDownload`. -/
def notifyFileDownload (cfg : Config) (fileOwner : Str) (id : Nat) (compression : Compression)
    (s : Server) : Server :=
  match s.findConnection fileOwner with
  | some o =>
    s.startWrite o
      (.notification (.USER_REQUESTED_FILE_DOWNLOAD id cfg.downloadPort compression))
  | none => s

/-- `BeginDownloadTransaction` for an entry, and what `resolve_download_reply`
does with its result. -/
def beginDownloadTransaction (cfg : Config) (env : FileEnv) (c : ConnId) (id : Nat)
    (compression : Compression) (info : DownloadInfo) (s : Server) : Server × Exit :=
  let s := { s with
    downloads.begun := ⟨id, s.registry.nickname c, info.fileOwner⟩ :: s.downloads.begun }
  if !env.createDirectories then (s, .raised)
  else if !env.createFile then (s.forEachAndRemove id denyDownload, .returned)
  else
    let s := { s with
      downloads := s.downloads.storeTransaction id (fileReceiver compression)
        ⟨info.filePath, info.fileOwner⟩ }
    (s.notifyFileDownload cfg info.fileOwner id compression, .returned)

/-- `resolve_download_reply` for a reply received on `c`. The timer of the entry
is stopped before the size of the file is parsed. -/
def resolveDownloadReply (cfg : Config) (env : FileEnv) (c : ConnId) (m : Message) (s : Server) :
    Server × Exit :=
  match stoull (m.header .CommandId) with
  | none => (s, .raised)
  | some id =>
    let compression := getCompression (cfg.csvCompressions (m.header .Compressions))
    if m.header .ReplyCode ≠ cfg.DOWNLOAD_FILE_QUERRY_APPROVED then (s, .returned)
    else
      match s.downloads.backedupRequests[id]? with
      | none => (s, .returned)
      | some entry =>
        let s := { s with downloads := s.downloads.stopTimer id entry }
        match stoull (m.header .FileSize) with
        | none => (s, .raised)
        | some _ => s.beginDownloadTransaction cfg env c id compression entry.info

/-! ## Timers and transfers -/

/-- `assert(EndDownloadTransaction(id))`. -/
def endDownloadTransaction (cfg : Config) (id : Nat) (s : Server) : Server :=
  match cfg.build with
  | .release => s
  | .debug =>
    { s with
      downloads.downloadTransactions := s.downloads.downloadTransactions.erase id
      halted := !s.downloads.downloadTransactions.contains id }

/-- `SetFileToCached`. -/
def setFileToCached (cfg : Config) (fileOwner filePath : Str) (s : Server) : Server :=
  match s.findConnection fileOwner, cfg.build with
  | some o, .debug =>
    let (found, root) := setCached cfg.PATH_SEPARATOR_CHR filePath true (s.tree o)
    { s with tree := Function.update s.tree o root, halted := !found }
  | _, _ => s

/-- The expiry of the timer that `BackupAndStartTimer` started. -/
def backupTimerExpired (id : Nat) (s : Server) : Server := s.forEachAndRemove id denyDownload

/-- The expiry of the timer of a transaction. -/
def transactionTimerExpired (cfg : Config) (id : Nat) (s : Server) : Server :=
  let s := { s with
    downloads.transactionTimers := s.downloads.transactionTimers.filter fun i => i ≠ id }
  (s.forEachAndRemove id denyDownload).endDownloadTransaction cfg id

/-- The completion handler of a transaction. When the file cannot be marked as
cached the process ends there. The handler appends the path to the owner's name
that it holds. -/
def transferCompleted (cfg : Config) (env : FileEnv) (id : Nat) (handler : CompletionHandler)
    (success : Bool) (s : Server) : Server :=
  if success then
    let s := s.setFileToCached cfg handler.fileOwner handler.filePath
    if s.halted then s
    else
      let localFilePath := handler.fileOwner ++ handler.filePath
      let s := { s with downloads.completionHandlers :=
        s.downloads.completionHandlers.insert id { handler with fileOwner := localFilePath } }
      (s.forEachAndRemove id (deliverFileFromLocalStorage cfg env localFilePath)
        ).endDownloadTransaction cfg id
  else (s.forEachAndRemove id denyDownload).endDownloadTransaction cfg id

/-- `TryStartDownloadTransaction`: a null receiver is used without a check. -/
def tryStartDownloadTransaction (id : Nat) (s : Server) : Server :=
  match s.downloads.downloadTransactions[id]? with
  | none => s
  | some receiver =>
    { s with
      downloads.transactionTimers := s.downloads.transactionTimers.filter fun i => i ≠ id
      halted := receiver.isNone }

/-- `assert(EndUploadTransaction(id))`. -/
def endUploadTransaction (cfg : Config) (id : Nat) (s : Server) : Server :=
  match cfg.build with
  | .release => s
  | .debug =>
    { s with
      downloads.uploadTransactions := s.downloads.uploadTransactions.erase id
      halted := !s.downloads.uploadTransactions.contains id }

end Server

end FspServer
