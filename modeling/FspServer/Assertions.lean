import FspServer.Step
import FspServer.RepresentationInvariant
import FspServer.Transactions

/-!
# Assertions about transfers

Three facts are asserted when a transfer ends or a timer expires, long after the
transaction was begun: the tree of the owner still has the file (`SetFileToCached`),
the transaction is still stored (`EndDownloadTransaction` and `EndUploadTransaction`),
and its receiver has a socket (`AbstractFileReceiver::Close`).

`DownloadServer` is the part of the server that decides them: the connections with
the trees of their clients, which change on their own, and the download manager. A
call of `BeginUploadTransaction` reads the id for its handlers in one step and stores
the deliverer in another; those of a completion handler are calls like any other. A
step says which assertion fails in it, if one does.
-/

namespace FspServer

open Node Runs

/-! ## The connections and the download manager -/

structure Client where
  nickname : Str
  remoteFileSystem : Node Char

/-- The facts that are asserted. -/
inductive Assertion where
  /-- `assert(SetCached(FilePath, true))` in `SetFileToCached`. -/
  | SetFileToCached
  /-- `assert(EndDownloadTransaction(ID))`. -/
  | EndDownloadTransaction
  /-- `assert(EndUploadTransaction(ID))`. -/
  | EndUploadTransaction
  /-- `assert(SocketPtr != nullptr)` in `AbstractFileReceiver::Close`. -/
  | Close
deriving DecidableEq, Repr

/-- A call of `BeginUploadTransaction` that has read the id for its handlers. -/
structure CapturedUpload where
  request : UploadRequest
  id : Nat
deriving DecidableEq, Repr

structure DownloadServer where
  /-- `connections_`, in the order of the set. -/
  connections : List Client := []
  manager : DownloadManager := {}
  /-- The calls of `BeginUploadTransaction` between their two steps. -/
  calls : List CapturedUpload := []
  /-- The id that the handlers of an upload hold, by the key of the upload. -/
  handlerID : Nat → Nat := fun key => key
  /-- History: the assertion that has failed. -/
  failed : Option Assertion := none

namespace DownloadServer

/-- `SetFileToCached` for the first connection with the nickname of the owner: the
result of `SetCached`, and the connections after it. -/
def setFileToCached (sep : Char) (handler : CompletionHandler) : List Client → Bool × List Client
  | [] => (true, [])
  | c :: cs =>
    if c.nickname = handler.fileOwner then
      let (found, root) := setCached sep handler.filePath true c.remoteFileSystem
      (found, { c with remoteFileSystem := root } :: cs)
    else
      let (found, cs') := setFileToCached sep handler cs
      (found, c :: cs')

/-- The transaction whose transfer ends, with its id. -/
def completing (m : DownloadManager) :
    DownloadManager.Event → Option (Nat × Transaction CompletionHandler)
  | .completed id _ =>
    (m.downloadTransactions[id]?).bind fun t => if 0 < t.transfers then some (id, t) else none
  | .erasedCompleted i _ =>
    (m.erasedDownloads[i]?).bind fun p => if 0 < p.2.transfers then some p else none
  | _ => none

/-- The completion handler appends the path to the owner's name that it holds. -/
def appendPath (handler : CompletionHandler) : CompletionHandler :=
  { handler with fileOwner := handler.fileOwner ++ handler.filePath }

/-- The transaction after a successful call of its completion handler. -/
def extendCapture (t : Transaction CompletionHandler) : Transaction CompletionHandler :=
  if 0 < t.transfers then { t with captures := appendPath t.captures } else t

/-- The manager with the capture changed of the handler that the event calls. -/
def extendCaptures (m : DownloadManager) : DownloadManager.Event → DownloadManager
  | .completed id _ =>
    match m.downloadTransactions[id]? with
    | none => m
    | some t =>
      { m with downloadTransactions := m.downloadTransactions.insert id (extendCapture t) }
  | .erasedCompleted i _ =>
    match m.erasedDownloads[i]? with
    | none => m
    | some p => { m with erasedDownloads := m.erasedDownloads.set i (p.1, extendCapture p.2) }
  | _ => m

/-- The manager once the completion handler was called with `success`. -/
def captured (success : Bool) (m : DownloadManager) (e : DownloadManager.Event) : DownloadManager :=
  if success then extendCaptures m e else m

/-- The assertions of `InternalDownloadCompletionHandlerWrapper`, in their order: the
first one that fails. A null receiver ends the process in `Close`. -/
def completionAssertion (sep : Char) (s : DownloadServer) (id : Nat) (handler : CompletionHandler)
    (success : Bool) : Option Assertion :=
  let rest :=
    if success && !(setFileToCached sep handler s.connections).1 then some .SetFileToCached
    else if s.manager.downloadTransactions.contains id then none
    else some .EndDownloadTransaction
  match s.manager.downloadTransactions[id]? with
  | none => rest
  | some t =>
    match t.worker, t.socket with
    | none, _ => none
    | some _, none => some .Close
    | some _, some _ => rest

/-- `assert(EndDownloadTransaction(id))` in the handler of an armed timer. -/
def timerAssertion (m : DownloadManager) (id : Nat) (armed : Bool) : Option Assertion :=
  if armed && !m.downloadTransactions.contains id then some .EndDownloadTransaction else none

/-- `assert(EndUploadTransaction(id))` where a handler is called. -/
def uploadAssertion (m : DownloadManager) (id : Nat) (called : Bool) : Option Assertion :=
  if called && !m.uploadTransactions.contains id then some .EndUploadTransaction else none

/-- A handler of an upload is called: it ends the transaction with the id that it holds. -/
def callUploadHandler (build : Build) (handlerID : Nat → Nat) (m : DownloadManager) :
    DownloadManager.Event → DownloadManager
  | .uploadTimer key =>
    match m.uploadTransactions[key]? with
    | none => m
    | some t =>
      if t.timerArmed then
        { m with uploadTransactions := m.uploadTransactions.insert key t.disarm
          }.endUploadTransaction build (handlerID key)
      else m
  | .uploadCompleted key =>
    match m.uploadTransactions[key]? with
    | none => m
    | some t =>
      if 0 < t.transfers then
        { m with uploadTransactions := m.uploadTransactions.insert key t.finish
          }.endUploadTransaction build (handlerID key)
      else m
  | .erasedUploadCompleted i =>
    match m.erasedUploads[i]? with
    | none => m
    | some p =>
      if 0 < p.2.transfers then
        { m with erasedUploads := m.erasedUploads.set i (p.1, p.2.finish)
          }.endUploadTransaction build (handlerID p.1)
      else m
  | e => m.act build e

/-- The assertion that fails in a step of the manager; `success` is what the transfer
reports that ends. -/
def failing (sep : Char) (s : DownloadServer) (success : Bool) (e : DownloadManager.Event) :
    Option Assertion :=
  match e with
  | .completed _ _ | .erasedCompleted _ _ =>
    (completing s.manager e).bind fun p =>
      s.completionAssertion sep p.1 p.2.captures success
  | .timer id =>
    (s.manager.downloadTransactions[id]?).bind fun t => timerAssertion s.manager id t.timerArmed
  | .erasedTimer i =>
    (s.manager.erasedDownloads[i]?).bind fun p => timerAssertion s.manager p.1 p.2.timerArmed
  | .uploadTimer key =>
    (s.manager.uploadTransactions[key]?).bind fun t =>
      uploadAssertion s.manager (s.handlerID key) t.timerArmed
  | .uploadCompleted key =>
    (s.manager.uploadTransactions[key]?).bind fun t =>
      uploadAssertion s.manager (s.handlerID key) (0 < t.transfers)
  | .erasedUploadCompleted i =>
    (s.manager.erasedUploads[i]?).bind fun p =>
      uploadAssertion s.manager (s.handlerID p.1) (0 < p.2.transfers)
  | .beginDownload _ _ _ _ | .beginUpload _ | .hello _ _ _ => none

/-- The connections after a step of the manager: a completed transfer sets the flag of
its file, where assertions are evaluated. -/
def cacheFile (build : Build) (sep : Char) (s : DownloadServer) (success : Bool)
    (e : DownloadManager.Event) : List Client :=
  match completing s.manager e with
  | none => s.connections
  | some p =>
    if success && build = .debug then (setFileToCached sep p.2.captures s.connections).2
    else s.connections

/-- A step of the download manager. A failed assertion ends the process. -/
def manage (build : Build) (sep : Char) (s : DownloadServer) (success : Bool)
    (e : DownloadManager.Event) : DownloadServer :=
  match build, s.failing sep success e with
  | .debug, some a => { s with manager.halted := true, failed := some a }
  | _, _ =>
    { s with
      connections := s.cacheFile build sep success e
      manager := callUploadHandler build s.handlerID (captured success s.manager e) e }

/-- `BeginUploadTransaction` up to the lock. -/
def captureUpload (r : UploadRequest) (s : DownloadServer) : DownloadServer :=
  if r.env.readable then
    { s with calls := s.calls ++ [⟨r, s.manager.uploadTransactionsIDCounter⟩] }
  else s

/-- `BeginUploadTransaction` under the lock. -/
def storeUpload (i : Nat) (s : DownloadServer) : Option DownloadServer :=
  (s.calls[i]?).map fun c =>
    { s with
      calls := s.calls.eraseIdx i
      manager := s.manager.beginUpload c.request
      handlerID := Function.update s.handlerID s.manager.uploadTransactionsIDCounter c.id }

inductive Event where
  /-- A connection is accepted; it comes at any position of the set. -/
  | accept (position : Nat)
  | login (k : Nat) (nickname : Str)
  /-- An `Add`, `Remove` or `Rename` on the tree of a client. -/
  | request (k : Nat) (op : VfsOp Char)
  | disconnect (k : Nat)
  /-- The events that begin uploads are left to the next two. -/
  | manage (success : Bool) (e : DownloadManager.Event)
  | captureUpload (r : UploadRequest)
  | storeUpload (i : Nat)

/-- The connections after the event; `none` when it cannot happen. -/
def reconnect (cfg : Config) (connections : List Client) : Event → Option (List Client)
  | .accept position =>
    some (connections.insertIdx (min position connections.length) ⟨[], Node.new cfg.PATH_ROOT⟩)
  | .login k nickname =>
    (connections[k]?).map fun c => connections.set k { c with nickname }
  | .request _ (.SetCached _ _) => none
  | .request k op =>
    (connections[k]?).bind fun c =>
      (op.apply cfg.PATH_SEPARATOR_CHR c.nickname c.remoteFileSystem).map fun root =>
        connections.set k { c with remoteFileSystem := root }
  | .disconnect k => if k < connections.length then some (connections.eraseIdx k) else none
  | .manage _ _ | .captureUpload _ | .storeUpload _ => none

/-- One step; none once the process has ended. -/
def step (cfg : Config) (s : DownloadServer) (e : Event) : Option DownloadServer :=
  if s.manager.halted then none
  else match e with
    | .manage success e =>
      if e.uploads = [] then some (s.manage cfg.build cfg.PATH_SEPARATOR_CHR success e) else none
    | .captureUpload r => some (s.captureUpload r)
    | .storeUpload i => s.storeUpload i
    | e => (reconnect cfg s.connections e).map fun connections => { s with connections }

/-! ## The assertions of the models below

`failing` says of the state before a step which assertion fails in it. The model of the
download manager ends there, and the server does where a file cannot be marked. -/

section Agreement

open DownloadManager

theorem halted_endDownloadTransaction (id : Nat) (m : DownloadManager) :
    (m.endDownloadTransaction .debug id).halted =
      (m.halted || !m.downloadTransactions.contains id) := by
  unfold endDownloadTransaction
  rw [Std.TreeMap.contains_eq_isSome_getElem?]
  cases m.downloadTransactions[id]? <;> simp

theorem halted_endUploadTransaction (id : Nat) (m : DownloadManager) :
    (m.endUploadTransaction .debug id).halted =
      (m.halted || !m.uploadTransactions.contains id) := by
  unfold endUploadTransaction
  rw [Std.TreeMap.contains_eq_isSome_getElem?]
  cases m.uploadTransactions[id]? <;> simp

theorem halted_beginUploads (uploads : List UploadRequest) (m : DownloadManager) :
    (uploads.foldl beginUpload m).halted = m.halted := by
  induction uploads generalizing m with
  | nil => rfl
  | cons r uploads ih =>
    rw [List.foldl_cons, ih]
    unfold beginUpload beginUploadTransaction
    cases r.env.fileSize with
    | none => rfl
    | some size =>
      dsimp only
      split <;> rfl

theorem isSome_timerAssertion (m : DownloadManager) (id : Nat) (armed : Bool) :
    (timerAssertion m id armed).isSome = (armed && !m.downloadTransactions.contains id) := by
  unfold timerAssertion
  cases h : armed && !m.downloadTransactions.contains id <;> simp

theorem isSome_uploadAssertion (m : DownloadManager) (id : Nat) (called : Bool) :
    (uploadAssertion m id called).isSome = (called && !m.uploadTransactions.contains id) := by
  unfold uploadAssertion
  cases h : called && !m.uploadTransactions.contains id <;> simp

/-- The completion handler ends the process exactly when one of its assertions fails, when
the file is not to be marked and the receivers were made. -/
theorem halted_completionHandler (sep : Char) (s : DownloadServer) {m : DownloadManager} {id : Nat}
    (handler : CompletionHandler) (uploads : List UploadRequest) (hrunning : m.halted = false)
    (hworkers : ∀ t, m.downloadTransactions[id]? = some t → t.worker.isSome = true) :
    (m.completionHandler .debug id uploads).halted =
      ({ s with manager := m }.completionAssertion sep id handler false).isSome := by
  unfold completionHandler closeDownloadTransaction completionAssertion
  cases hid : m.downloadTransactions[id]? with
  | none =>
    simp [halted_endDownloadTransaction, halted_beginUploads, downloadTransactions_beginUploads,
      hrunning, Std.TreeMap.contains_eq_isSome_getElem?, hid]
  | some t =>
    obtain ⟨worker, hworker⟩ := Option.isSome_iff_exists.mp (hworkers t hid)
    dsimp only
    rw [hworker]
    cases hsocket : t.socket with
    | none => simp [hrunning]
    | some socket =>
      simp [halted_endDownloadTransaction, halted_beginUploads, downloadTransactions_beginUploads,
        hrunning, Std.TreeMap.contains_eq_isSome_getElem?, hid]

/-- A handler that ends an upload when it is called. -/
theorem halted_ite_endUploadTransaction {m m' : DownloadManager} {id : Nat} {c : Prop} [Decidable c]
    {called : Bool} (hcalled : called = decide c) (hrunning : m.halted = false)
    (hrunning' : m'.halted = false)
    (hstored : m'.uploadTransactions.contains id = m.uploadTransactions.contains id) :
    (if c then m'.endUploadTransaction .debug id else m).halted =
      (uploadAssertion m id called).isSome := by
  rw [isSome_uploadAssertion, hcalled]
  split
  · next hcalled => simp [halted_endUploadTransaction, hrunning', hstored, hcalled]
  · next hidle => simp [hrunning, hidle]

/-- The handler of a timer that ends a download when the timer is armed. -/
theorem halted_ite_endDownloadTransaction {m m' : DownloadManager} {id : Nat} {armed : Bool}
    (hrunning : m.halted = false) (hrunning' : m'.halted = false)
    (hstored : m'.downloadTransactions.contains id = m.downloadTransactions.contains id) :
    (if armed = true then m'.endDownloadTransaction .debug id else m).halted =
      (timerAssertion m id armed).isSome := by
  rw [isSome_timerAssertion]
  cases armed with
  | true => simp [halted_endDownloadTransaction, hrunning', hstored]
  | false => simp [hrunning]

/-- The end of a transfer, if there is one, calls the completion handler. -/
theorem halted_ite_completionHandler (sep : Char) {s : DownloadServer} {m : DownloadManager}
    {id : Nat} {c : Prop} [Decidable c] (t : Transaction CompletionHandler)
    (uploads : List UploadRequest) (hrunning : s.manager.halted = false)
    (hrunning' : m.halted = false)
    (hworkers : ∀ t, m.downloadTransactions[id]? = some t → t.worker.isSome = true)
    (hsame : { s with manager := m }.completionAssertion sep id t.captures false =
      s.completionAssertion sep id t.captures false) :
    (if c then m.completionHandler .debug id uploads else s.manager).halted =
      ((if c then some (id, t) else none).bind fun p =>
        s.completionAssertion sep p.1 p.2.captures false).isSome := by
  split
  · rw [halted_completionHandler sep s t.captures uploads hrunning' hworkers, hsame]
    rfl
  · exact hrunning

/-- The handlers of uploads that hold the key of their own upload. -/
theorem callUploadHandler_key (build : Build) (m : DownloadManager) (e : DownloadManager.Event) :
    callUploadHandler build (fun key => key) m e = m.act build e := by
  cases e <;> rfl

/-- A step of the manager other than a hello message ends the process exactly when one of
the assertions fails. -/
theorem halted_callUploadHandler (sep : Char) {s : DownloadServer}
    (hrunning : s.manager.halted = false)
    (hworkers : ∀ (id : Nat) (t : Transaction CompletionHandler),
      s.manager.downloadTransactions[id]? = some t → t.worker.isSome = true)
    {e : DownloadManager.Event} (hhello : ∀ env type id, e ≠ .hello env type id) :
    (callUploadHandler .debug s.handlerID s.manager e).halted =
      (s.failing sep false e).isSome := by
  cases e with
  | hello env type id => exact absurd rfl (hhello env type id)
  | beginDownload env id compression handler =>
    show (s.manager.beginDownloadTransaction env id compression handler).halted = false
    unfold beginDownloadTransaction
    split <;> exact hrunning
  | beginUpload r => exact (halted_beginUploads [r] s.manager).trans hrunning
  | timer id =>
    dsimp only [callUploadHandler, act, timerExpired, failing]
    cases hid : s.manager.downloadTransactions[id]? with
    | none => exact hrunning
    | some t =>
      exact halted_ite_endDownloadTransaction hrunning hrunning
        (Lookup.contains_insert_of_getElem? hid _ _)
  | erasedTimer i =>
    dsimp only [callUploadHandler, act, erasedTimerExpired, failing]
    cases s.manager.erasedDownloads[i]? with
    | none => exact hrunning
    | some p => exact halted_ite_endDownloadTransaction hrunning hrunning rfl
  | uploadTimer key =>
    dsimp only [callUploadHandler, failing]
    cases hkey : s.manager.uploadTransactions[key]? with
    | none => exact hrunning
    | some t =>
      exact halted_ite_endUploadTransaction Bool.decide_eq_true.symm hrunning hrunning
        (Lookup.contains_insert_of_getElem? hkey _ _)
  | completed id uploads =>
    dsimp only [callUploadHandler, act, transferCompleted, failing, completing]
    cases hid : s.manager.downloadTransactions[id]? with
    | none => exact hrunning
    | some t =>
      refine halted_ite_completionHandler sep t uploads hrunning hrunning ?_ ?_
      · simpa [Transaction.finish] using hworkers id t hid
      · unfold completionAssertion
        simp only [Std.TreeMap.contains_eq_isSome_getElem?, Lookup.getElem?_insert, ↓reduceIte,
          hid, Option.isSome_some]
        rfl
  | erasedCompleted i uploads =>
    dsimp only [callUploadHandler, act, erasedTransferCompleted, failing, completing]
    cases s.manager.erasedDownloads[i]? with
    | none => exact hrunning
    | some p =>
      exact halted_ite_completionHandler sep p.2 uploads hrunning hrunning (hworkers p.1) rfl
  | uploadCompleted key =>
    dsimp only [callUploadHandler, failing]
    cases hkey : s.manager.uploadTransactions[key]? with
    | none => exact hrunning
    | some t =>
      exact halted_ite_endUploadTransaction rfl hrunning hrunning
        (Lookup.contains_insert_of_getElem? hkey _ _)
  | erasedUploadCompleted i =>
    dsimp only [callUploadHandler, failing]
    cases s.manager.erasedUploads[i]? with
    | none => exact hrunning
    | some p => exact halted_ite_endUploadTransaction rfl hrunning hrunning rfl

/-- The connections of a server, with their trees. -/
def clients (s : Server) : List Client :=
  s.registry.connections.map fun c => ⟨s.registry.nickname c, s.tree c⟩

/-- The server ends exactly where the file cannot be marked. -/
theorem halted_setFileToCached {cfg : Config} (hbuild : cfg.build = .debug) {s : Server}
    (hrunning : s.halted = false) (handler : CompletionHandler) :
    (s.setFileToCached cfg handler.fileOwner handler.filePath).halted =
      !(setFileToCached cfg.PATH_SEPARATOR_CHR handler (clients s)).1 := by
  unfold Server.setFileToCached Server.findConnection clients
  rw [hbuild]
  induction s.registry.connections with
  | nil => simpa [setFileToCached] using hrunning
  | cons c cs ih =>
    rw [List.map_cons]
    unfold setFileToCached
    by_cases hname : s.registry.nickname c = handler.fileOwner
    · simp [hname]
    · simpa [hname] using ih

end Agreement

end DownloadServer

end FspServer
