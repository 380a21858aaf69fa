import FspServer.Downloads
import FspServer.Lib.Lookup
import FspServer.Lib.Run

/-!
# The download manager

`download_manager` on its own: its two maps of transactions, the workers and
timers they hold, and what a peer that connects to the download port, a timer or
a transfer does to them. `Downloads` has the same maps as the rest of the server
sees them; here a transaction also has its socket and its callbacks.

A transaction that is erased from its map is not gone at once: the handler of its
timer holds the timer, and a transfer in progress goes on calling back. So the
erased transactions are kept, and their timers may expire and their transfers may
complete like those of the stored ones.

What a timer, a completed transfer or a hello message finds is decided by the id
it carries, never by the transaction that it was made for. `All.step` says what a
step can do to a transaction; the modules after this one use it.
-/

namespace FspServer

open Runs

/-- The worker of a transaction: a file receiver or a file deliverer. -/
inductive TransferWorker where
  | stream
  | compressed (compressor : Compression)
deriving DecidableEq, Repr

/-- The two `if`s that make a worker for a compression; `none` where the pointer
stays null. -/
def makeWorker (compression : Compression) : Option TransferWorker :=
  let worker := if compression = .nocompression then some .stream else none
  if compression = .zlib then some (.compressed compression) else worker

/-- The receiver that `BeginDownloadTransaction` makes. -/
def makeFileReceiver (compression : Compression) : Option TransferWorker := makeWorker compression

/-- The deliverer that `BeginUploadTransaction` makes. -/
def makeFileDeliver (compression : Compression) : Option TransferWorker := makeWorker compression

/-- A worker with its timer, and what its handler has captured. A socket is the
number of the session it came from. `starts`, `completions` and `replaced` are
history: the calls of `Start`, the calls of the completion handler, and whether
`SetSocket` was called during a transfer. -/
structure Transaction (β : Type) where
  captures : β
  worker : Option TransferWorker
  timerArmed : Bool := false
  socket : Option Nat := none
  /-- The transfers in progress: one for each call of `Start` that has not completed. -/
  transfers : Nat := 0
  starts : Nat := 0
  completions : Nat := 0
  replaced : Bool := false
deriving DecidableEq, Repr

namespace Transaction

variable {β : Type}

def arm (t : Transaction β) : Transaction β := { t with timerArmed := true }

def disarm (t : Transaction β) : Transaction β := { t with timerArmed := false }

/-- `SetSocket` and `Start`. -/
def start (socket : Nat) (t : Transaction β) : Transaction β :=
  { t with
    socket := some socket
    transfers := t.transfers + 1
    starts := t.starts + 1
    replaced := t.replaced || 0 < t.transfers }

/-- A transfer ends and calls the completion handler. -/
def finish (t : Transaction β) : Transaction β :=
  { t with transfers := t.transfers - 1, completions := t.completions + 1 }

end Transaction

/-- `upload_transactions_` maps an id to the file that its deliverer reads. -/
structure DownloadManager where
  downloadTransactions : Std.TreeMap Nat (Transaction CompletionHandler) := ∅
  uploadTransactions : Std.TreeMap Nat (Transaction Str) := ∅
  uploadTransactionsIDCounter : Nat := 1
  /-- The transactions that were erased, with the ids they had. -/
  erasedDownloads : List (Nat × Transaction CompletionHandler) := []
  erasedUploads : List (Nat × Transaction Str) := []
  /-- The number of temporary sessions so far. -/
  sessions : Nat := 0
  /-- The process has ended or hangs: an assertion has failed, a null pointer was
  used, or a thread has locked a mutex that it holds. -/
  halted : Bool := false

/-- A call of `BeginUploadTransaction`. -/
structure UploadRequest where
  env : FileEnv
  file : Str
  compression : Compression
deriving DecidableEq, Repr

/-- What the peer does while its hello message is handled. -/
structure HelloEnv where
  /-- The start byte is written. -/
  startByte : Bool
  /-- The first chunk header comes. -/
  header : Bool
deriving DecidableEq, Repr

/-- The type of a hello message. -/
inductive HelloType where
  | RECEIVER_CODE_STR
  | SENDER_CODE_STR
  | other
deriving DecidableEq, Repr

namespace DownloadManager

/-! ## Downloads -/

/-- `BeginDownloadTransaction`: `emplace` keeps a transaction that is already
there, and the timer of whatever is there is started. -/
def beginDownloadTransaction (env : FileEnv) (id : Nat) (compression : Compression)
    (handler : CompletionHandler) (m : DownloadManager) : DownloadManager :=
  if !env.createDirectories || !env.createFile then m
  else
    let t := (m.downloadTransactions[id]?).getD ⟨handler, makeFileReceiver compression, false, none,
      0, 0, 0, false⟩
    { m with downloadTransactions := m.downloadTransactions.insert id t.arm }

/-- `assert(EndDownloadTransaction(id))`. -/
def endDownloadTransaction (build : Build) (id : Nat) (m : DownloadManager) : DownloadManager :=
  match build with
  | .release => m
  | .debug =>
    match m.downloadTransactions[id]? with
    | none => { m with halted := true }
    | some t =>
      { m with
        downloadTransactions := m.downloadTransactions.erase id
        erasedDownloads := (id, t) :: m.erasedDownloads }

/-- `CloseDownloadTransaction`: a null receiver or a null socket is used without a
check (in a debug build the null socket fails the assertion in `Close`). -/
def closeDownloadTransaction (id : Nat) (m : DownloadManager) : DownloadManager :=
  match m.downloadTransactions[id]? with
  | none => m
  | some t => { m with halted := m.halted || t.worker.isNone || t.socket.isNone }

/-- `TryStartDownloadTransaction`. The start byte is written in an assertion. A
compressed receiver that does not get its first header calls its completion
handler at once, which locks `download_mutex_` again. -/
def tryStartDownloadTransaction (build : Build) (env : HelloEnv) (id : Nat) (m : DownloadManager) :
    DownloadManager :=
  match m.downloadTransactions[id]? with
  | none => m
  | some t =>
    match t.worker with
    | none =>
      { m with
        downloadTransactions := m.downloadTransactions.insert id t.disarm
        halted := true }
    | some worker =>
      if build = .debug && !env.startByte then
        { m with
          downloadTransactions := m.downloadTransactions.insert id t.disarm
          halted := true }
      else
        { m with
          downloadTransactions :=
            m.downloadTransactions.insert id (t.disarm.start m.sessions)
          halted := m.halted || (worker ≠ .stream && !env.header) }

/-! ## Uploads -/

/-- `BeginUploadTransaction`: the id and the compression it returns, when it
stores a transaction. The timer is made and not started. -/
def beginUploadTransaction (r : UploadRequest) (m : DownloadManager) :
    Option (Nat × Compression × DownloadManager) :=
  match r.env.fileSize with
  | none => none
  | some size =>
    if size = 0 || !r.env.openFile then none
    else
      let compression :=
        if 104857600 < size then
          if r.compression = .zlib then r.compression else .nocompression
        else .nocompression
      let id := m.uploadTransactionsIDCounter
      some (id, compression,
        { m with
          uploadTransactions := m.uploadTransactions.insertIfNew id
            ⟨r.file, makeFileDeliver compression, false, none, 0, 0, 0, false⟩
          uploadTransactionsIDCounter := id + 1 })

/-- The manager after `BeginUploadTransaction`, whatever it returned. -/
def beginUpload (m : DownloadManager) (r : UploadRequest) : DownloadManager :=
  ((m.beginUploadTransaction r).map (·.2.2)).getD m

/-- `assert(EndUploadTransaction(id))`. -/
def endUploadTransaction (build : Build) (id : Nat) (m : DownloadManager) : DownloadManager :=
  match build with
  | .release => m
  | .debug =>
    match m.uploadTransactions[id]? with
    | none => { m with halted := true }
    | some t =>
      { m with
        uploadTransactions := m.uploadTransactions.erase id
        erasedUploads := (id, t) :: m.erasedUploads }

/-- `TryStartUploadTransaction`. -/
def tryStartUploadTransaction (id : Nat) (m : DownloadManager) : DownloadManager :=
  match m.uploadTransactions[id]? with
  | none => m
  | some t =>
    match t.worker with
    | none =>
      { m with
        uploadTransactions := m.uploadTransactions.insert id t.disarm
        halted := true }
    | some _ =>
      { m with
        uploadTransactions := m.uploadTransactions.insert id (t.disarm.start m.sessions) }

/-! ## Steps -/

/-- `HandleHandshake`, once the hello message is read. -/
def handleHandshake (build : Build) (env : HelloEnv) (type : HelloType) (id : Nat)
    (m : DownloadManager) : DownloadManager :=
  let m' := match type with
    | .RECEIVER_CODE_STR => m.tryStartUploadTransaction id
    | .SENDER_CODE_STR => m.tryStartDownloadTransaction build env id
    | .other => m
  { m' with sessions := m.sessions + 1 }

/-- `InternalDownloadCompletionHandlerWrapper`. What the handler of
`resolve_download_reply` does to the manager are the uploads it begins, for the
requests that wait for the file. -/
def completionHandler (build : Build) (id : Nat) (uploads : List UploadRequest)
    (m : DownloadManager) : DownloadManager :=
  let m := m.closeDownloadTransaction id
  if m.halted then m
  else (uploads.foldl beginUpload m).endDownloadTransaction build id

/-- The timer of the transaction stored under an id expires. -/
def timerExpired (build : Build) (id : Nat) (m : DownloadManager) : DownloadManager :=
  match m.downloadTransactions[id]? with
  | none => m
  | some t =>
    if t.timerArmed then
      { m with downloadTransactions := m.downloadTransactions.insert id t.disarm
        }.endDownloadTransaction build id
    else m

/-- The timer of an erased transaction expires. -/
def erasedTimerExpired (build : Build) (i : Nat) (m : DownloadManager) : DownloadManager :=
  match m.erasedDownloads[i]? with
  | none => m
  | some p =>
    if p.2.timerArmed then
      { m with erasedDownloads := m.erasedDownloads.set i (p.1, p.2.disarm)
        }.endDownloadTransaction build p.1
    else m

def uploadTimerExpired (build : Build) (id : Nat) (m : DownloadManager) : DownloadManager :=
  match m.uploadTransactions[id]? with
  | none => m
  | some t =>
    if t.timerArmed then
      { m with uploadTransactions := m.uploadTransactions.insert id t.disarm
        }.endUploadTransaction build id
    else m

/-- A transfer of the transaction stored under an id ends. -/
def transferCompleted (build : Build) (id : Nat) (uploads : List UploadRequest)
    (m : DownloadManager) : DownloadManager :=
  match m.downloadTransactions[id]? with
  | none => m
  | some t =>
    if 0 < t.transfers then
      { m with downloadTransactions := m.downloadTransactions.insert id t.finish
        }.completionHandler build id uploads
    else m

/-- A transfer of an erased transaction ends. -/
def erasedTransferCompleted (build : Build) (i : Nat) (uploads : List UploadRequest)
    (m : DownloadManager) : DownloadManager :=
  match m.erasedDownloads[i]? with
  | none => m
  | some p =>
    if 0 < p.2.transfers then
      { m with erasedDownloads := m.erasedDownloads.set i (p.1, p.2.finish)
        }.completionHandler build p.1 uploads
    else m

/-- `CleanUpHandler` of a deliverer. -/
def uploadCompleted (build : Build) (id : Nat) (m : DownloadManager) : DownloadManager :=
  match m.uploadTransactions[id]? with
  | none => m
  | some t =>
    if 0 < t.transfers then
      { m with uploadTransactions := m.uploadTransactions.insert id t.finish
        }.endUploadTransaction build id
    else m

def erasedUploadCompleted (build : Build) (i : Nat) (m : DownloadManager) : DownloadManager :=
  match m.erasedUploads[i]? with
  | none => m
  | some p =>
    if 0 < p.2.transfers then
      { m with erasedUploads := m.erasedUploads.set i (p.1, p.2.finish)
        }.endUploadTransaction build p.1
    else m

/-- The steps. A timer or a transfer is that of a stored transaction, given by its
id, or that of an erased one, given by its place in the list. The timer of an
upload is never armed while it is stored, so it is not armed afterwards. -/
inductive Event where
  | beginDownload (env : FileEnv) (id : Nat) (compression : Compression)
      (handler : CompletionHandler)
  | beginUpload (r : UploadRequest)
  | hello (env : HelloEnv) (type : HelloType) (id : Nat)
  | timer (id : Nat)
  | erasedTimer (i : Nat)
  | uploadTimer (id : Nat)
  | completed (id : Nat) (uploads : List UploadRequest)
  | erasedCompleted (i : Nat) (uploads : List UploadRequest)
  | uploadCompleted (id : Nat)
  | erasedUploadCompleted (i : Nat)
deriving DecidableEq, Repr

/-- What an event does. An event that cannot happen changes nothing. -/
def act (build : Build) (m : DownloadManager) : Event → DownloadManager
  | .beginDownload env id compression handler =>
    m.beginDownloadTransaction env id compression handler
  | .beginUpload r => m.beginUpload r
  | .hello env type id => m.handleHandshake build env type id
  | .timer id => m.timerExpired build id
  | .erasedTimer i => m.erasedTimerExpired build i
  | .uploadTimer id => m.uploadTimerExpired build id
  | .completed id uploads => m.transferCompleted build id uploads
  | .erasedCompleted i uploads => m.erasedTransferCompleted build i uploads
  | .uploadCompleted id => m.uploadCompleted build id
  | .erasedUploadCompleted i => m.erasedUploadCompleted build i

/-- One step: nothing happens once the process has ended. -/
def step (build : Build) (m : DownloadManager) (e : Event) : DownloadManager :=
  if m.halted then m else m.act build e

/-- The expiry of a timer does nothing, or ends a transaction that is stored with its
timer armed. -/
theorem timerExpired_cases {build : Build} {m : DownloadManager} {I : DownloadManager → Prop}
    {id : Nat} (h : I m)
    (hexpires : ∀ t, m.downloadTransactions[id]? = some t → t.timerArmed = true →
      I ({ m with downloadTransactions := m.downloadTransactions.insert id t.disarm
        }.endDownloadTransaction build id)) : I (m.timerExpired build id) := by
  unfold timerExpired
  cases hid : m.downloadTransactions[id]? with
  | none => exact h
  | some t =>
    dsimp only
    split
    · next harmed => exact hexpires t hid harmed
    · exact h

/-! ## A rule for invariants -/

/-- What the parts of a step keep, when the uploads it begins satisfy `Q`: the end of
a transfer changes one transaction and then looks up an id. -/
structure PartsKeep (build : Build) (Q : UploadRequest → Prop) (I : DownloadManager → Prop) :
    Prop where
  finish : ∀ {m : DownloadManager} {id : Nat} {t : Transaction CompletionHandler}, I m →
    m.downloadTransactions[id]? = some t → 0 < t.transfers →
    I { m with downloadTransactions := m.downloadTransactions.insert id t.finish }
  disarmErased : ∀ {m : DownloadManager} {i : Nat} {p : Nat × Transaction CompletionHandler},
    I m → m.erasedDownloads[i]? = some p →
    I { m with erasedDownloads := m.erasedDownloads.set i (p.1, p.2.disarm) }
  finishErased : ∀ {m : DownloadManager} {i : Nat} {p : Nat × Transaction CompletionHandler},
    I m → m.erasedDownloads[i]? = some p → 0 < p.2.transfers →
    I { m with erasedDownloads := m.erasedDownloads.set i (p.1, p.2.finish) }
  disarmUpload : ∀ {m : DownloadManager} {id : Nat} {t : Transaction Str}, I m →
    m.uploadTransactions[id]? = some t →
    I { m with uploadTransactions := m.uploadTransactions.insert id t.disarm }
  finishUpload : ∀ {m : DownloadManager} {id : Nat} {t : Transaction Str}, I m →
    m.uploadTransactions[id]? = some t → 0 < t.transfers →
    I { m with uploadTransactions := m.uploadTransactions.insert id t.finish }
  finishErasedUpload : ∀ {m : DownloadManager} {i : Nat} {p : Nat × Transaction Str}, I m →
    m.erasedUploads[i]? = some p → 0 < p.2.transfers →
    I { m with erasedUploads := m.erasedUploads.set i (p.1, p.2.finish) }
  close : ∀ {m : DownloadManager} (id : Nat), I m → I (m.closeDownloadTransaction id)
  endDownload : ∀ {m : DownloadManager} (id : Nat), I m → I (m.endDownloadTransaction build id)
  endUpload : ∀ {m : DownloadManager} (id : Nat), I m → I (m.endUploadTransaction build id)
  beginUpload : ∀ {m : DownloadManager} {r : UploadRequest}, Q r → I m → I (m.beginUpload r)

/-- The uploads that an event begins. -/
def Event.uploads : Event → List UploadRequest
  | .beginUpload r => [r]
  | .completed _ uploads => uploads
  | .erasedCompleted _ uploads => uploads
  | _ => []

section Rule

variable {build : Build} {Q : UploadRequest → Prop} {I : DownloadManager → Prop}
  {m : DownloadManager}

theorem PartsKeep.completionHandler (hI : PartsKeep build Q I) (h : I m) (id : Nat)
    {uploads : List UploadRequest} (huploads : ∀ r ∈ uploads, Q r) :
    I (m.completionHandler build id uploads) := by
  have hbegin : ∀ {m : DownloadManager}, I m → I (uploads.foldl DownloadManager.beginUpload m) := by
    induction uploads with
    | nil => exact fun h => h
    | cons r uploads ih =>
      exact fun h => ih (fun u hu => huploads u (List.mem_cons_of_mem _ hu))
        (hI.beginUpload (huploads r List.mem_cons_self) h)
  unfold DownloadManager.completionHandler
  dsimp only
  split
  · exact hI.close id h
  · exact hI.endDownload id (hbegin (hI.close id h))

/-- A step keeps what its parts keep, when the beginning of a download, the expiry of
its timer and a hello message keep it. -/
theorem PartsKeep.step (hI : PartsKeep build Q I) (h : I m) (e : Event)
    (huploads : ∀ r ∈ e.uploads, Q r)
    (hbegin : ∀ env id compression handler, e = .beginDownload env id compression handler →
      I (m.beginDownloadTransaction env id compression handler))
    (htimer : ∀ id, e = .timer id → I (m.timerExpired build id))
    (hhello : ∀ env type id, e = .hello env type id → I (m.handleHandshake build env type id)) :
    I (m.step build e) := by
  unfold DownloadManager.step
  split
  · exact h
  cases e with
  | beginDownload env id compression handler => exact hbegin env id compression handler rfl
  | beginUpload r => exact hI.beginUpload (huploads r List.mem_cons_self) h
  | hello env type id => exact hhello env type id rfl
  | timer id => exact htimer id rfl
  | erasedTimer i =>
    dsimp only [act, erasedTimerExpired]
    cases hi : m.erasedDownloads[i]? with
    | none => exact h
    | some p =>
      dsimp only
      split
      · exact hI.endDownload p.1 (hI.disarmErased h hi)
      · exact h
  | uploadTimer id =>
    dsimp only [act, uploadTimerExpired]
    cases hid : m.uploadTransactions[id]? with
    | none => exact h
    | some t =>
      dsimp only
      split
      · exact hI.endUpload id (hI.disarmUpload h hid)
      · exact h
  | completed id uploads =>
    dsimp only [act, transferCompleted]
    cases hid : m.downloadTransactions[id]? with
    | none => exact h
    | some t =>
      dsimp only
      split
      · next htransfer => exact hI.completionHandler (hI.finish h hid htransfer) id huploads
      · exact h
  | erasedCompleted i uploads =>
    dsimp only [act, erasedTransferCompleted]
    cases hi : m.erasedDownloads[i]? with
    | none => exact h
    | some p =>
      dsimp only
      split
      · next htransfer => exact hI.completionHandler (hI.finishErased h hi htransfer) p.1 huploads
      · exact h
  | uploadCompleted id =>
    dsimp only [act, DownloadManager.uploadCompleted]
    cases hid : m.uploadTransactions[id]? with
    | none => exact h
    | some t =>
      dsimp only
      split
      · next htransfer => exact hI.endUpload id (hI.finishUpload h hid htransfer)
      · exact h
  | erasedUploadCompleted i =>
    dsimp only [act, DownloadManager.erasedUploadCompleted]
    cases hi : m.erasedUploads[i]? with
    | none => exact h
    | some p =>
      dsimp only
      split
      · next htransfer => exact hI.endUpload p.1 (hI.finishErasedUpload h hi htransfer)
      · exact h

end Rule

/-! ## What a step can do to a transaction -/

/-- Every stored download satisfies `D`, every erased one `E`, and the uploads `U` and `V`. -/
structure Each (D E : Transaction CompletionHandler → Prop) (U V : Transaction Str → Prop)
    (m : DownloadManager) : Prop where
  downloads : ∀ (id : Nat) (t : Transaction CompletionHandler),
    m.downloadTransactions[id]? = some t → D t
  erasedDownloads : ∀ e ∈ m.erasedDownloads, E e.2
  uploads : ∀ (id : Nat) (t : Transaction Str), m.uploadTransactions[id]? = some t → U t
  erasedUploads : ∀ e ∈ m.erasedUploads, V e.2

/-- Every download transaction satisfies `D` and every upload transaction `U`,
those that were erased included. -/
abbrev All (D : Transaction CompletionHandler → Prop) (U : Transaction Str → Prop)
    (m : DownloadManager) : Prop := Each D D U U m

/-- A property of transactions that holds of new ones and is kept by all that
happens to one apart from its timer being armed and from `Start`. -/
structure Kept {β : Type} (P : Transaction β → Prop) : Prop where
  new : ∀ captures worker, P ⟨captures, worker, false, none, 0, 0, 0, false⟩
  disarm : ∀ t, P t → P t.disarm
  finish : ∀ t, P t → 0 < t.transfers → P t.finish

section Parts

variable {D E : Transaction CompletionHandler → Prop} {U V : Transaction Str → Prop}
  {m : DownloadManager}

theorem each_initial : Each D E U V {} where
  downloads := by simp
  erasedDownloads := by simp
  uploads := by simp
  erasedUploads := by simp

theorem Each.halt (h : Each D E U V m) (b : Bool) : Each D E U V { m with halted := b } :=
  ⟨h.downloads, h.erasedDownloads, h.uploads, h.erasedUploads⟩

theorem Each.insertDownload (h : Each D E U V m) (id : Nat) {t : Transaction CompletionHandler}
    (ht : D t) :
    Each D E U V { m with downloadTransactions := m.downloadTransactions.insert id t } where
  downloads := by
    intro j u hu
    rcases Lookup.of_getElem?_insert hu with ⟨-, rfl⟩ | ⟨-, hu⟩
    · exact ht
    · exact h.downloads j u hu
  erasedDownloads := h.erasedDownloads
  uploads := h.uploads
  erasedUploads := h.erasedUploads

theorem Each.insertUpload (h : Each D E U V m) (id : Nat) {t : Transaction Str} (ht : U t) :
    Each D E U V { m with uploadTransactions := m.uploadTransactions.insert id t } where
  downloads := h.downloads
  erasedDownloads := h.erasedDownloads
  uploads := by
    intro j u hu
    rcases Lookup.of_getElem?_insert hu with ⟨-, rfl⟩ | ⟨-, hu⟩
    · exact ht
    · exact h.uploads j u hu
  erasedUploads := h.erasedUploads

theorem Each.setErasedDownload (h : Each D E U V m) (i id : Nat)
    {t : Transaction CompletionHandler} (ht : E t) :
    Each D E U V { m with erasedDownloads := m.erasedDownloads.set i (id, t) } where
  downloads := h.downloads
  erasedDownloads := by
    intro e he
    cases List.mem_or_eq_of_mem_set he with
    | inl old => exact h.erasedDownloads e old
    | inr new => rw [new]; exact ht
  uploads := h.uploads
  erasedUploads := h.erasedUploads

theorem Each.setErasedUpload (h : Each D E U V m) (i id : Nat) {t : Transaction Str} (ht : V t) :
    Each D E U V { m with erasedUploads := m.erasedUploads.set i (id, t) } where
  downloads := h.downloads
  erasedDownloads := h.erasedDownloads
  uploads := h.uploads
  erasedUploads := by
    intro e he
    cases List.mem_or_eq_of_mem_set he with
    | inl old => exact h.erasedUploads e old
    | inr new => rw [new]; exact ht

/-- What is erased satisfies what is asked of the erased ones. -/
theorem Each.endDownloadTransaction (h : Each D E U V m) (build : Build) {id : Nat}
    (hE : ∀ t, m.downloadTransactions[id]? = some t → E t) :
    Each D E U V (m.endDownloadTransaction build id) := by
  cases build with
  | release => exact h
  | debug =>
    unfold DownloadManager.endDownloadTransaction
    cases hid : m.downloadTransactions[id]? with
    | none => exact h.halt true
    | some t =>
      refine ⟨fun j u hu => ?_, ?_, h.uploads, h.erasedUploads⟩
      · exact h.downloads j u (Lookup.of_getElem?_erase hu).2
      · exact List.forall_mem_cons.mpr ⟨hE t hid, h.erasedDownloads⟩

theorem Each.endUploadTransaction (h : Each D E U V m) (build : Build) {id : Nat}
    (hV : ∀ t, m.uploadTransactions[id]? = some t → V t) :
    Each D E U V (m.endUploadTransaction build id) := by
  cases build with
  | release => exact h
  | debug =>
    unfold DownloadManager.endUploadTransaction
    cases hid : m.uploadTransactions[id]? with
    | none => exact h.halt true
    | some t =>
      refine ⟨h.downloads, h.erasedDownloads, fun j u hu => ?_, ?_⟩
      · exact h.uploads j u (Lookup.of_getElem?_erase hu).2
      · exact List.forall_mem_cons.mpr ⟨hV t hid, h.erasedUploads⟩

theorem Each.beginDownloadTransaction (h : Each D E U V m) (env : FileEnv) {id : Nat}
    (compression : Compression) (handler : CompletionHandler)
    (hnew : ∀ captures worker, D ⟨captures, worker, true, none, 0, 0, 0, false⟩)
    (harm : ∀ t, m.downloadTransactions[id]? = some t → D t.arm) :
    Each D E U V (m.beginDownloadTransaction env id compression handler) := by
  unfold DownloadManager.beginDownloadTransaction
  split
  · exact h
  · refine h.insertDownload id ?_
    cases hid : m.downloadTransactions[id]? with
    | none => exact hnew _ _
    | some t => exact harm t hid

theorem Each.beginUpload (h : Each D E U V m)
    (hnew : ∀ captures worker, U ⟨captures, worker, false, none, 0, 0, 0, false⟩)
    (r : UploadRequest) : Each D E U V (m.beginUpload r) := by
  unfold DownloadManager.beginUpload DownloadManager.beginUploadTransaction
  cases r.env.fileSize with
  | none => exact h
  | some size =>
    dsimp only
    split
    · exact h
    · refine ⟨h.downloads, h.erasedDownloads, fun j u hu => ?_, h.erasedUploads⟩
      rcases Lookup.of_getElem?_insertIfNew hu with ⟨-, rfl⟩ | hu
      · exact hnew _ _
      · exact h.uploads j u hu

theorem Each.closeDownloadTransaction (h : Each D E U V m) (id : Nat) :
    Each D E U V (m.closeDownloadTransaction id) := by
  unfold DownloadManager.closeDownloadTransaction
  cases m.downloadTransactions[id]? with
  | none => exact h
  | some t => exact h.halt _

/-- The hello message starts only what may be started. -/
theorem Each.handleHandshake (h : Each D E U V m) (hdisarm : ∀ t, D t → D t.disarm)
    (hdisarmUpload : ∀ t, U t → U t.disarm) (build : Build) (env : HelloEnv) (type : HelloType)
    (id : Nat)
    (hstart : type = .SENDER_CODE_STR → ∀ t, m.downloadTransactions[id]? = some t →
      t.worker.isSome = true → (build = .debug → env.startByte = true) →
      D (t.disarm.start m.sessions))
    (hstartUpload : type = .RECEIVER_CODE_STR → ∀ t, m.uploadTransactions[id]? = some t →
      t.worker.isSome = true → U (t.disarm.start m.sessions)) :
    Each D E U V (m.handleHandshake build env type id) := by
  have hsession : ∀ m' : DownloadManager, Each D E U V m' →
      Each D E U V { m' with sessions := m.sessions + 1 } := fun m' h' =>
    ⟨h'.downloads, h'.erasedDownloads, h'.uploads, h'.erasedUploads⟩
  unfold DownloadManager.handleHandshake
  apply hsession
  cases type with
  | other => exact h
  | RECEIVER_CODE_STR =>
    dsimp only [DownloadManager.tryStartUploadTransaction]
    cases hid : m.uploadTransactions[id]? with
    | none => exact h
    | some t =>
      dsimp only
      cases hworker : t.worker with
      | none => exact (h.insertUpload id (hdisarmUpload t (h.uploads id t hid))).halt true
      | some worker => exact h.insertUpload id (hstartUpload rfl t hid (by rw [hworker]; rfl))
  | SENDER_CODE_STR =>
    dsimp only [DownloadManager.tryStartDownloadTransaction]
    cases hid : m.downloadTransactions[id]? with
    | none => exact h
    | some t =>
      have hstopped := (h.insertDownload id (hdisarm t (h.downloads id t hid))).halt true
      dsimp only
      cases hworker : t.worker with
      | none => exact hstopped
      | some worker =>
        dsimp only
        split
        · exact hstopped
        · next hwritten =>
          have ht := hstart rfl t hid (by rw [hworker]; rfl) (by simpa using hwritten)
          exact (h.insertDownload id ht).halt _

theorem Each.timerExpired (h : Each D E U V m) (hdisarm : ∀ t, D t → D t.disarm)
    (hE : ∀ t, D t → t.timerArmed = true → E t.disarm) (build : Build) (id : Nat) :
    Each D E U V (m.timerExpired build id) := by
  refine timerExpired_cases h fun t hid harmed => ?_
  have ht := h.downloads id t hid
  refine (h.insertDownload id (hdisarm t ht)).endDownloadTransaction build ?_
  simp only [Lookup.getElem?_insert, ↓reduceIte, Option.some.injEq, forall_eq']
  exact hE t ht harmed

end Parts

section Steps

variable {D : Transaction CompletionHandler → Prop} {U : Transaction Str → Prop}
  {m : DownloadManager}

/-- The parts of a step keep what holds of every transaction and is kept by all that
can happen to one. -/
theorem all_partsKeep (hD : Kept D) (hU : Kept U) (build : Build) :
    PartsKeep build (fun _ => True) (All D U) where
  finish h hid htransfer := h.insertDownload _ (hD.finish _ (h.downloads _ _ hid) htransfer)
  disarmErased h hi :=
    h.setErasedDownload _ _ (hD.disarm _ (h.erasedDownloads _ (List.mem_of_getElem? hi)))
  finishErased h hi htransfer :=
    h.setErasedDownload _ _ (hD.finish _ (h.erasedDownloads _ (List.mem_of_getElem? hi)) htransfer)
  disarmUpload h hid := h.insertUpload _ (hU.disarm _ (h.uploads _ _ hid))
  finishUpload h hid htransfer := h.insertUpload _ (hU.finish _ (h.uploads _ _ hid) htransfer)
  finishErasedUpload h hi htransfer :=
    h.setErasedUpload _ _ (hU.finish _ (h.erasedUploads _ (List.mem_of_getElem? hi)) htransfer)
  close id h := h.closeDownloadTransaction id
  endDownload _ h := h.endDownloadTransaction build (h.downloads _)
  endUpload _ h := h.endUploadTransaction build (h.uploads _)
  beginUpload _ h := h.beginUpload hU.new _

/-- What holds of every transaction and is kept by all that can happen to one holds
after a step, when it holds of the transaction that the step starts, if any. -/
theorem All.step (h : All D U m) (hD : Kept D) (hU : Kept U) (build : Build) (e : Event)
    (harm : ∀ t, D t → D t.arm)
    (hstart : ∀ env id, e = .hello env .SENDER_CODE_STR id → ∀ t,
      m.downloadTransactions[id]? = some t → t.worker.isSome = true →
      (build = .debug → env.startByte = true) → D (t.disarm.start m.sessions))
    (hstartUpload : ∀ env id, e = .hello env .RECEIVER_CODE_STR id → ∀ t,
      m.uploadTransactions[id]? = some t → t.worker.isSome = true →
      U (t.disarm.start m.sessions)) :
    All D U (m.step build e) := by
  refine (all_partsKeep hD hU build).step h e (fun _ _ => trivial) ?_ ?_ ?_
  · intro env id compression handler _
    exact h.beginDownloadTransaction env compression handler
      (fun captures worker => harm _ (hD.new captures worker))
      (fun t hid => harm t (h.downloads id t hid))
  · intro id _
    exact h.timerExpired hD.disarm (fun t ht _ => hD.disarm t ht) build id
  · intro env type id heq
    exact h.handleHandshake hD.disarm hU.disarm build env type id
      (fun htype => hstart env id (htype ▸ heq)) (fun htype => hstartUpload env id (htype ▸ heq))

end Steps

/-! ## The two maps are independent -/

/-- The uploads are as they were. -/
def SameUploads (m m' : DownloadManager) : Prop :=
  m'.uploadTransactions = m.uploadTransactions ∧
    m'.uploadTransactionsIDCounter = m.uploadTransactionsIDCounter

theorem sameUploads_endDownloadTransaction (build : Build) (id : Nat) (m : DownloadManager) :
    SameUploads m (m.endDownloadTransaction build id) := by
  cases build with
  | release => exact ⟨rfl, rfl⟩
  | debug =>
    unfold endDownloadTransaction
    cases m.downloadTransactions[id]? <;> exact ⟨rfl, rfl⟩

theorem sameUploads_timerExpired (build : Build) (id : Nat) (m : DownloadManager) :
    SameUploads m (m.timerExpired build id) := by
  refine timerExpired_cases ⟨rfl, rfl⟩ fun t _ _ => ?_
  exact sameUploads_endDownloadTransaction build id
    { m with downloadTransactions := m.downloadTransactions.insert id t.disarm }

theorem sameUploads_closeDownloadTransaction (id : Nat) (m : DownloadManager) :
    SameUploads m (m.closeDownloadTransaction id) := by
  unfold closeDownloadTransaction
  cases m.downloadTransactions[id]? <;> exact ⟨rfl, rfl⟩

theorem sameUploads_beginDownloadTransaction (env : FileEnv) (id : Nat) (compression : Compression)
    (handler : CompletionHandler) (m : DownloadManager) :
    SameUploads m (m.beginDownloadTransaction env id compression handler) := by
  unfold beginDownloadTransaction
  split <;> exact ⟨rfl, rfl⟩

theorem sameUploads_tryStartDownloadTransaction (build : Build) (env : HelloEnv) (id : Nat)
    (m : DownloadManager) : SameUploads m (m.tryStartDownloadTransaction build env id) := by
  unfold tryStartDownloadTransaction
  cases m.downloadTransactions[id]? with
  | none => exact ⟨rfl, rfl⟩
  | some t =>
    dsimp only
    cases t.worker with
    | none => exact ⟨rfl, rfl⟩
    | some worker =>
      dsimp only
      split <;> exact ⟨rfl, rfl⟩

theorem downloadTransactions_beginUpload (m : DownloadManager) (r : UploadRequest) :
    (m.beginUpload r).downloadTransactions = m.downloadTransactions := by
  unfold beginUpload beginUploadTransaction
  cases r.env.fileSize with
  | none => rfl
  | some size =>
    dsimp only
    split <;> rfl

theorem downloadTransactions_beginUploads (m : DownloadManager) (uploads : List UploadRequest) :
    (uploads.foldl beginUpload m).downloadTransactions = m.downloadTransactions := by
  induction uploads generalizing m with
  | nil => rfl
  | cons r uploads ih => rw [List.foldl_cons, ih, downloadTransactions_beginUpload]

theorem downloadTransactions_endUploadTransaction (build : Build) (id : Nat)
    (m : DownloadManager) :
    (m.endUploadTransaction build id).downloadTransactions = m.downloadTransactions := by
  cases build with
  | release => rfl
  | debug =>
    unfold endUploadTransaction
    cases m.uploadTransactions[id]? <;> rfl

theorem downloadTransactions_tryStartUploadTransaction (id : Nat) (m : DownloadManager) :
    (m.tryStartUploadTransaction id).downloadTransactions = m.downloadTransactions := by
  unfold tryStartUploadTransaction
  cases m.uploadTransactions[id]? with
  | none => rfl
  | some t =>
    dsimp only
    cases t.worker <;> rfl

/-- The ids of the uploads to come are free. -/
def Fresh (m : DownloadManager) : Prop :=
  ∀ key, m.uploadTransactionsIDCounter ≤ key → m.uploadTransactions[key]? = none

theorem Fresh.same {m m' : DownloadManager} (h : Fresh m) (hsame : SameUploads m m') :
    Fresh m' := by
  unfold Fresh
  rw [hsame.1, hsame.2]
  exact h

theorem Fresh.insert {m : DownloadManager} (h : Fresh m) {id : Nat} {t : Transaction Str}
    (hid : m.uploadTransactions[id]? = some t) (t' : Transaction Str) :
    Fresh { m with uploadTransactions := m.uploadTransactions.insert id t' } := by
  intro key hkey
  have hold := h key hkey
  simp only [Lookup.getElem?_insert]
  rw [if_neg, hold]
  rintro rfl
  rw [hid] at hold
  cases hold

theorem Fresh.endUploadTransaction {m : DownloadManager} (h : Fresh m) (build : Build)
    (id : Nat) : Fresh (m.endUploadTransaction build id) := by
  cases build with
  | release => exact h
  | debug =>
    unfold DownloadManager.endUploadTransaction
    cases m.uploadTransactions[id]? with
    | none => exact h
    | some t =>
      intro key hkey
      simp only [Lookup.getElem?_erase, h key hkey, ite_self]

theorem Fresh.beginUpload {m : DownloadManager} (h : Fresh m) (r : UploadRequest) :
    Fresh (m.beginUpload r) := by
  unfold DownloadManager.beginUpload beginUploadTransaction
  cases r.env.fileSize with
  | none => exact h
  | some size =>
    dsimp only
    split
    · exact h
    · intro key hkey
      have hlt : m.uploadTransactionsIDCounter < key := hkey
      simp only [Option.map_some, Option.getD_some]
      rw [Lookup.getElem?_insertIfNew (h _ (Nat.le_refl _)), if_neg (Nat.ne_of_gt hlt)]
      exact h key (Nat.le_of_lt hlt)

theorem fresh_partsKeep (build : Build) : PartsKeep build (fun _ => True) Fresh where
  finish h _ _ := h
  disarmErased h _ := h
  finishErased h _ _ := h
  disarmUpload h hid := h.insert hid _
  finishUpload h hid _ := h.insert hid _
  finishErasedUpload h _ _ := h
  close id h := h.same (sameUploads_closeDownloadTransaction id _)
  endDownload id h := h.same (sameUploads_endDownloadTransaction build id _)
  endUpload id h := h.endUploadTransaction build id
  beginUpload _ h := h.beginUpload _

theorem Fresh.handleHandshake {m : DownloadManager} (h : Fresh m) (build : Build) (env : HelloEnv)
    (type : HelloType) (id : Nat) : Fresh (m.handleHandshake build env type id) := by
  cases type with
  | other => exact h
  | SENDER_CODE_STR => exact h.same (sameUploads_tryStartDownloadTransaction build env id m)
  | RECEIVER_CODE_STR =>
    show Fresh { m.tryStartUploadTransaction id with sessions := _ }
    unfold tryStartUploadTransaction
    cases hid : m.uploadTransactions[id]? with
    | none => exact h
    | some t =>
      dsimp only
      cases t.worker with
      | none => exact h.insert hid _
      | some worker => exact h.insert hid _

theorem Fresh.step {m : DownloadManager} (h : Fresh m) (build : Build) (e : Event) :
    Fresh (m.step build e) := by
  refine (fresh_partsKeep build).step h e (fun _ _ => trivial) ?_ ?_ ?_
  · intro env id compression handler _
    exact h.same (sameUploads_beginDownloadTransaction env id compression handler m)
  · intro id _
    exact h.same (sameUploads_timerExpired build id m)
  · intro env type id _
    exact h.handleHandshake build env type id

/-- The step function of a run. -/
def run (build : Build) (m : DownloadManager) (e : Event) : Option DownloadManager :=
  some (m.step build e)

theorem fresh_of_reach {build : Build} {m : DownloadManager}
    (h : Reach (run build) anyStep {} m) : Fresh m := by
  refine h.invariant (I := Fresh) (fun _ _ => by simp) ?_
  intro m e m' hfresh _ hstep
  obtain rfl := Option.some.inj hstep
  exact hfresh.step build e

/-! ## The server's view -/

/-- The receiver as `Downloads` has it. -/
def kind : TransferWorker → FileReceiver
  | .stream => .stream
  | .compressed _ => .compressed

/-- The maps of the server are those of the manager, without the sockets and the
transfers. -/
structure Matches (m : DownloadManager) (d : Downloads) : Prop where
  downloads : ∀ id : Nat, d.downloadTransactions[id]? =
    (m.downloadTransactions[id]?).map fun t => t.worker.map kind
  uploads : ∀ id : Nat, d.uploadTransactions[id]? = (m.uploadTransactions[id]?).map (·.captures)
  counter : d.uploadTransactionsIDCounter = m.uploadTransactionsIDCounter

theorem kind_makeFileReceiver (compression : Compression) :
    (makeFileReceiver compression).map kind = fileReceiver compression := by
  cases compression <;> rfl

theorem Matches.beginDownloadTransaction {m : DownloadManager} {d : Downloads} (h : Matches m d)
    {env : FileEnv} (hdirectories : env.createDirectories = true) (hfile : env.createFile = true)
    (id : Nat) (compression : Compression) (handler : CompletionHandler) :
    Matches (m.beginDownloadTransaction env id compression handler)
      (d.storeTransaction id (fileReceiver compression) handler) := by
  simp only [DownloadManager.beginDownloadTransaction, hdirectories, hfile, Bool.not_true,
    Bool.or_self, Bool.false_eq_true, ↓reduceIte]
  refine ⟨fun j => ?_, h.uploads, h.counter⟩
  have hid := h.downloads id
  simp only [Downloads.storeTransaction, Std.TreeMap.getElem?_insertIfNew, Nat.compare_eq_eq,
    Std.TreeMap.mem_iff_isSome_getElem?, Lookup.getElem?_insert]
  by_cases hj : j = id
  · subst hj
    cases hstored : m.downloadTransactions[j]? with
    | none =>
      rw [hstored] at hid
      simp [hid, Transaction.arm, kind_makeFileReceiver]
    | some t =>
      rw [hstored] at hid
      simp [hid, Transaction.arm]
  · simp only [hj, Ne.symm hj, false_and, ↓reduceIte]
    exact h.downloads j

theorem Matches.beginUploadTransaction {m : DownloadManager} {d : Downloads} (h : Matches m d)
    (hfresh : Fresh m) (r : UploadRequest) :
    match d.beginUploadTransaction r.env r.file r.compression with
    | none => m.beginUploadTransaction r = none
    | some (id, _, compression, d') =>
      ∃ m', m.beginUploadTransaction r = some (id, compression, m') ∧ Matches m' d' := by
  unfold Downloads.beginUploadTransaction DownloadManager.beginUploadTransaction
  cases r.env.fileSize with
  | none => rfl
  | some size =>
    by_cases hfail : size = 0 ∨ r.env.openFile = false
    · simp [hfail]
    · have hnone := hfresh _ (Nat.le_refl _)
      have hnone' : d.uploadTransactions[d.uploadTransactionsIDCounter]? = none := by
        rw [h.uploads, h.counter, hnone]
        rfl
      have hcompression : (if 104857600 < size then
            if r.compression = .zlib then r.compression else Compression.nocompression
          else .nocompression) =
          if 104857600 < size ∧ r.compression = .zlib then Compression.zlib
          else .nocompression := by
        by_cases hsize : 104857600 < size <;> by_cases hzlib : r.compression = .zlib <;>
          simp [hsize, hzlib]
      simp only [not_or, Bool.not_eq_false] at hfail
      simp only [hfail, Bool.not_true, Bool.false_eq_true, or_self, ↓reduceIte, decide_false,
        Bool.or_self]
      rw [hcompression, h.counter]
      refine ⟨_, rfl, ⟨h.downloads, fun j => ?_, rfl⟩⟩
      rw [h.counter] at hnone'
      rw [Lookup.getElem?_insertIfNew hnone, Lookup.getElem?_insertIfNew hnone']
      by_cases hj : j = m.uploadTransactionsIDCounter
      · rw [if_pos hj, if_pos hj]
        rfl
      · rw [if_neg hj, if_neg hj]
        exact h.uploads j

/-- `assert(EndDownloadTransaction(id))` erases the same entry. -/
theorem Matches.endDownloadTransaction {m : DownloadManager} {s : Server}
    (h : Matches m s.downloads) (cfg : Config) (id : Nat) :
    Matches (m.endDownloadTransaction cfg.build id)
      (s.endDownloadTransaction cfg id).downloads := by
  unfold DownloadManager.endDownloadTransaction Server.endDownloadTransaction
  cases cfg.build with
  | release => exact h
  | debug =>
    cases hstored : m.downloadTransactions[id]? with
    | none =>
      refine ⟨fun j => ?_, h.uploads, h.counter⟩
      simp only [Lookup.getElem?_erase]
      by_cases hj : j = id
      · subst hj
        simp [hstored]
      · rw [if_neg hj]
        exact h.downloads j
    | some t =>
      refine ⟨fun j => ?_, h.uploads, h.counter⟩
      simp only [Lookup.getElem?_erase]
      by_cases hj : j = id
      · simp [hj]
      · rw [if_neg hj, if_neg hj]
        exact h.downloads j

/-- A transaction with the same worker in its place. -/
theorem Matches.insert {m : DownloadManager} {d : Downloads} (h : Matches m d) {id : Nat}
    {t : Transaction CompletionHandler} (hid : m.downloadTransactions[id]? = some t)
    (t' : Transaction CompletionHandler) (hworker : t'.worker = t.worker) {m' : DownloadManager}
    (hdownloads : m'.downloadTransactions = m.downloadTransactions.insert id t')
    (huploads : SameUploads m m') : Matches m' d where
  downloads j := by
    rw [hdownloads, Lookup.getElem?_insert, h.downloads j]
    by_cases hj : j = id
    · rw [if_pos hj, hj, hid]
      simp [hworker]
    · rw [if_neg hj]
  uploads j := by rw [huploads.1, h.uploads j]
  counter := by rw [huploads.2, h.counter]

/-- `TryStartDownloadTransaction` leaves what the server sees of the map. -/
theorem Matches.tryStartDownloadTransaction {m : DownloadManager} {s : Server}
    (h : Matches m s.downloads) (build : Build) (env : HelloEnv) (id : Nat) :
    Matches (m.tryStartDownloadTransaction build env id)
      (s.tryStartDownloadTransaction id).downloads := by
  have hserver : Matches (m.tryStartDownloadTransaction build env id) s.downloads := by
    unfold DownloadManager.tryStartDownloadTransaction
    cases hid : m.downloadTransactions[id]? with
    | none => exact h
    | some t =>
      dsimp only
      cases t.worker with
      | none => exact h.insert hid t.disarm rfl rfl ⟨rfl, rfl⟩
      | some worker =>
        dsimp only
        split
        · exact h.insert hid t.disarm rfl rfl ⟨rfl, rfl⟩
        · exact h.insert hid (t.disarm.start m.sessions) rfl rfl ⟨rfl, rfl⟩
  unfold Server.tryStartDownloadTransaction
  cases s.downloads.downloadTransactions[id]? with
  | none => exact hserver
  | some receiver => exact ⟨hserver.downloads, hserver.uploads, hserver.counter⟩

end DownloadManager

end FspServer
