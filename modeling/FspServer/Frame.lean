import FspServer.Step

/-!
# What the download side leaves alone

A projection of the state is blind to downloads (`Server.Blind`) when it reads
neither the downloads nor whether the process has ended, does not notice the
messages that say nothing about the files of a client, and does not notice that
a file is marked as cached. The functions of the download side and the replies to
a request change no such projection. The connections and handlers are one
(`Server.core`), the files that clients see are another.
-/

namespace FspServer

open Node

/-- The message tells a client about the files of another one. -/
def Outgoing.isNews : Outgoing → Bool
  | .notification (.USER_LOGGED_OUT _) | .notification (.USER_REQUESTED_FILE_DOWNLOAD ..) => false
  | .notification _ => true
  | _ => false

namespace Server

structure Blind {β : Type*} (p : Server → β) : Prop where
  startWrite : ∀ c m s, m.isNews = false → p (s.startWrite c m) = p s
  downloads : ∀ downloads halted s, p { s with downloads, halted } = p s
  setCached : ∀ sep path o halted s, p { s with
    tree := Function.update s.tree o (Node.setCached sep path true (s.tree o)).2, halted } = p s

namespace Blind

variable {β : Type*} {p : Server → β} (hp : Blind p)

include hp

/-! ## Answers -/

theorem writeReply (code : Response) (id : Str) (c : ConnId) (s : Server) :
    p (s.writeReply code id c) = p s :=
  hp.startWrite c (.reply code id) s rfl

theorem answer {m : Outgoing} (hm : m.isNews = false) (c : ConnId) (ticket : Nat) (s : Server) :
    p (s.answer c ticket m) = p s :=
  (hp.downloads _ _ (s.startWrite c m)).trans (hp.startWrite c m s hm)

theorem denyDownload (r : DownloadRequest) (s : Server) : p (s.denyDownload r) = p s :=
  hp.answer rfl r.conn r.ticket s

theorem deliverFileFromLocalStorage (cfg : Config) (env : FileEnv) (path : Str)
    (r : DownloadRequest) (s : Server) :
    p (s.deliverFileFromLocalStorage cfg env path r) = p s := by
  unfold Server.deliverFileFromLocalStorage
  split
  · rw [hp.answer rfl, hp.downloads]
  · exact hp.denyDownload r s

omit hp in
/-- A loop over requests keeps what its body keeps. -/
theorem foldl {f : DownloadRequest → Server → Server} (hf : ∀ r s, p (f r s) = p s)
    (requests : List DownloadRequest) (s : Server) :
    p (requests.foldl (fun s r => if s.alive r.conn then f r s else s) s) = p s := by
  induction requests generalizing s with
  | nil => rfl
  | cons r requests ih =>
    rw [List.foldl_cons, ih]
    split
    · exact hf r s
    · rfl

theorem forEachAndRemove {f : DownloadRequest → Server → Server} (hf : ∀ r s, p (f r s) = p s)
    (id : Nat) (s : Server) : p (s.forEachAndRemove id f) = p s := by
  unfold Server.forEachAndRemove
  split
  · rfl
  · exact (hp.downloads _ _ _).trans (foldl hf _ s)

/-! ## Queries and replies -/

theorem resolveDownloadFileQuerry (cfg : Config) (env : FileEnv) (c : ConnId)
    (id owner path ssl compressions : Str) (s : Server) :
    p (s.resolveDownloadFileQuerry cfg env c id owner path ssl compressions) = p s := by
  have hticket : p { s with downloads.executed := s.downloads.executed + 1 } = p s :=
    hp.downloads _ _ s
  unfold Server.resolveDownloadFileQuerry
  dsimp only
  split
  · rw [hp.answer rfl, hticket]
  · split
    · rw [hp.denyDownload, hticket]
    · rw [hp.deliverFileFromLocalStorage, hticket]
    · next o _ =>
      split
      · exact hp.downloads _ _ s
      · refine (hp.downloads _ _ _).trans (Eq.trans (hp.startWrite o _ _ rfl) ?_)
        exact hp.downloads _ _ s

theorem notifyFileDownload (cfg : Config) (owner : Str) (id : Nat) (compression : Compression)
    (s : Server) : p (s.notifyFileDownload cfg owner id compression) = p s := by
  unfold Server.notifyFileDownload
  split
  · exact hp.startWrite _ _ s rfl
  · rfl

theorem beginDownloadTransaction (cfg : Config) (env : FileEnv) (c : ConnId) (id : Nat)
    (compression : Compression) (info : DownloadInfo) (s : Server) :
    p (s.beginDownloadTransaction cfg env c id compression info).1 = p s := by
  unfold Server.beginDownloadTransaction
  dsimp only
  split
  · exact hp.downloads _ _ s
  · split
    · rw [hp.forEachAndRemove hp.denyDownload, hp.downloads]
    · rw [hp.notifyFileDownload]
      exact hp.downloads _ _ s

theorem resolveDownloadReply (cfg : Config) (env : FileEnv) (c : ConnId) (m : Message)
    (s : Server) : p (s.resolveDownloadReply cfg env c m).1 = p s := by
  unfold Server.resolveDownloadReply
  split
  · rfl
  · dsimp only
    split
    · rfl
    · split
      · rfl
      · split
        · exact hp.downloads _ _ s
        · rw [hp.beginDownloadTransaction, hp.downloads]

/-! ## Timers and transfers -/

theorem endDownloadTransaction (cfg : Config) (id : Nat) (s : Server) :
    p (s.endDownloadTransaction cfg id) = p s := by
  unfold Server.endDownloadTransaction
  split
  · rfl
  · exact hp.downloads _ _ s

theorem setFileToCached (cfg : Config) (owner path : Str) (s : Server) :
    p (s.setFileToCached cfg owner path) = p s := by
  unfold Server.setFileToCached
  split
  · exact hp.setCached _ path _ _ s
  · rfl

theorem transferCompleted (cfg : Config) (env : FileEnv) (id : Nat)
    (handler : CompletionHandler) (success : Bool) (s : Server) :
    p (s.transferCompleted cfg env id handler success) = p s := by
  unfold Server.transferCompleted
  split
  · dsimp only
    split
    · exact hp.setFileToCached ..
    · rw [hp.endDownloadTransaction,
        hp.forEachAndRemove (hp.deliverFileFromLocalStorage cfg env _), hp.downloads]
      exact hp.setFileToCached ..
  · rw [hp.endDownloadTransaction, hp.forEachAndRemove hp.denyDownload]

theorem transactionTimerExpired (cfg : Config) (id : Nat) (s : Server) :
    p (s.transactionTimerExpired cfg id) = p s := by
  rw [Server.transactionTimerExpired, hp.endDownloadTransaction,
    hp.forEachAndRemove hp.denyDownload, hp.downloads]

theorem backupTimerExpired (id : Nat) (s : Server) : p (s.backupTimerExpired id) = p s :=
  hp.forEachAndRemove hp.denyDownload id s

theorem tryStartDownloadTransaction (id : Nat) (s : Server) :
    p (s.tryStartDownloadTransaction id) = p s := by
  unfold Server.tryStartDownloadTransaction
  split
  · rfl
  · exact hp.downloads _ _ s

theorem endUploadTransaction (cfg : Config) (id : Nat) (s : Server) :
    p (s.endUploadTransaction cfg id) = p s := by
  unfold Server.endUploadTransaction
  split
  · rfl
  · exact hp.downloads _ _ s

end Blind

/-! ## Notifications

A projection is deaf to the connection manager (`Server.Deaf`) when it does not read the
registry and does not notice notifications or that a connection is about to be closed. What was
said to a client about its own requests is one.
-/

structure Deaf {β : Type*} (p : Server → β) : Prop where
  notification : ∀ n c s, p (s.startWrite c (.notification n)) = p s
  registry : ∀ registry s, p { s with registry } = p s
  closing : ∀ c st nickname s, p (s.continueWith c (.notifyDisconnection st nickname)) = p s

namespace Deaf

variable {β : Type*} {p : Server → β} (hp : Deaf p)

include hp

theorem broadcast (cfg : Config) (n : Notification) (counter : Nat) (recipients : List ConnId)
    (s : Server) : p (s.broadcast cfg n counter recipients) = p s := by
  have hwrites : ∀ t : Server,
      p (recipients.foldl (fun s c => s.startWrite c (.notification n)) t) = p t := by
    induction recipients with
    | nil => exact fun _ => rfl
    | cons c recipients ih => exact fun t => (ih _).trans (hp.notification n c t)
  exact (hwrites _).trans (hp.registry _ s)

theorem notifyDisconnection (cfg : Config) (c : ConnId) (st : ClientState) (nickname : Str)
    (s : Server) : p (s.notifyDisconnection cfg c st nickname) = p s := by
  unfold Server.notifyDisconnection
  dsimp only
  split
  · split
    · exact hp.registry _ s
    · exact (hp.broadcast ..).trans (hp.registry _ s)
  · exact hp.registry _ s

theorem notifyFilesRegistration (cfg : Config) (c : ConnId) (s : Server) :
    p (s.notifyFilesRegistration cfg c) = p s := by
  unfold Server.notifyFilesRegistration
  dsimp only
  split
  · exact hp.registry _ s
  · refine (hp.registry _ _).trans ((hp.notification _ c _).trans ?_)
    exact (hp.broadcast ..).trans (hp.registry _ s)

theorem doNotify (cfg : Config) (notifier : Str) (n : Notification) (s : Server) :
    p (s.doNotify cfg notifier n) = p s := by
  unfold Server.doNotify
  split
  · rfl
  · exact hp.broadcast ..

theorem stop (c : ConnId) (s : Server) : p (s.stop c) = p s := by
  unfold Server.stop
  split
  · rfl
  · exact (hp.closing c _ _ _).trans (hp.registry _ s)

theorem sharedWriteCompleted (cfg : Config) (w : SharedWrite) (result : SendResult)
    (s : Server) : p (s.sharedWriteCompleted cfg w result) = p s := by
  unfold Server.sharedWriteCompleted
  dsimp only
  split
  · exact hp.registry _ s
  · split
    · exact (hp.stop ..).trans (hp.registry _ s)
    · split
      · exact (hp.registry _ _).trans (hp.registry _ s)
      · exact (hp.registry _ _).trans (hp.registry _ s)

end Deaf

end Server

end FspServer
