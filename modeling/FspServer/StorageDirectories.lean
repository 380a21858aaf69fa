import FspServer.Confinement
import FspServer.Connections
import FspServer.DownloadQueries

/-!
# Storage directories

The copies of a client's files lie in a child of the working directory that has the
client's nickname. `BeginDownloadTransaction` makes the directories when a reply begins
a download, and `notify_disconnection` removes them as its last action, unless it
returns early: it does so when the last processing client leaves.

`StoredServer` runs the server together with the directories below its working
directory. `storage_owned_iff`: every child of the working directory has the nickname
of a connection in `connections_`, as long as each step keeps it so (`KeepsStorage`);
for each step this condition is exact (`storageOwned_step_iff`).

Files are left out, and with them what the requests of a client remove and rename: all
of that lies below the children of the working directory. A rooted path and one that
leads out of the working directory are taken to stay outside.
-/

namespace FspServer

open Node Runs

structure StoredServer where
  server : Server
  /-- The directories that were made, by the names from the working directory. -/
  directories : List (List Str) := []

namespace StoredServer

structure Event where
  event : Server.Event
  /-- `remove_all` gives no error, if it is called. -/
  removeAll : Bool := true

def initial (cfg : Config) (users : List (Str × Str)) : StoredServer where
  server := Server.initial cfg users

/-! ## The directories after a step -/

/-- The arguments with which a message calls `BeginDownloadTransaction`: the id and the
entry of the request. -/
def begins (cfg : Config) (c : ConnId) (m : Message) (s : Server) : Option (Nat × DownloadInfo) :=
  if s.readError cfg c m = none then
    (m.approves cfg).bind fun id =>
      (s.downloads.backedupRequests[id]?).bind fun entry =>
        (stoull (m.header .FileSize)).map fun _ => (id, entry.info)
  else none

/-- The directories on a path, as far as they lie in the working directory. -/
def directoriesTo (p : Disk.Path Str) : List (List Str) :=
  p.components.inits.filterMap fun q => resolvePath ⟨p.absolute, q⟩

/-- The directories of `create_directories` when a message is read. -/
def createDirectories (cfg : Config) (c : ConnId) (m : Message) (env : FileEnv) (s : Server) :
    List (List Str) :=
  match begins cfg c m s with
  | some (_, info) =>
    if env.createDirectories then
      directoriesTo
        (Windows.path (Windows.parentPath (storagePath info.fileOwner info.filePath)))
    else []
  | none => []

/-- `remove_all` of the nickname removes the directory; it finds nothing under an empty text. -/
def Removes (nickname : Str) (directory : List Str) : Prop :=
  Windows.readText nickname ≠ [] ∧ ∃ p ∈ resolvePath (Windows.path nickname), p <+: directory

instance (nickname : Str) (directory : List Str) : Decidable (Removes nickname directory) :=
  inferInstanceAs (Decidable (_ ∧ ∃ p ∈ resolvePath (Windows.path nickname), _))

/-- `notify_disconnection` returns before `remove_all`. -/
def returnsEarly (st : ClientState) (s : Server) : Bool :=
  st = .processing ∧ decrement s.registry.processingCounter = 0

/-- The directories after the next section of a handler. -/
def resumeDirectories (removeAll : Bool) (s : StoredServer) :
    Continuation → List (List Str)
  | .notifyDisconnection st nickname =>
    if returnsEarly st s.server || !removeAll then s.directories
    else s.directories.filter fun d => ¬ Removes nickname d
  | _ => s.directories

def changeDirectories (cfg : Config) (s : StoredServer) (e : Event) : List (List Str) :=
  match e.event with
  | .read c m env => createDirectories cfg c m env s.server ++ s.directories
  | .resume i =>
    match s.server.running[i]? with
    | some h => s.resumeDirectories e.removeAll h.rest
    | none => s.directories
  | _ => s.directories

def step (cfg : Config) (s : StoredServer) (e : Event) : Option StoredServer :=
  (s.server.step cfg e.event).map fun server => ⟨server, s.changeDirectories cfg e⟩

/-! ## Owners -/

/-- The names of the children of the working directory. -/
def children (directories : List (List Str)) : List Str :=
  directories.filterMap fun d =>
    match d with
    | [name] => some name
    | _ => none

@[simp] theorem mem_children {directories : List (List Str)} {name : Str} :
    name ∈ children directories ↔ [name] ∈ directories := by
  unfold children
  rw [List.mem_filterMap]
  constructor
  · rintro ⟨d, hd, hname⟩
    split at hname
    · cases hname
      exact hd
    · cases hname
  · exact fun h => ⟨[name], h, rfl⟩

/-- Some connection in `connections_` has the nickname. -/
def HasConnection (s : Server) (nickname : Str) : Prop :=
  ∃ c ∈ s.registry.connections, s.registry.nickname c = nickname

instance (s : Server) (nickname : Str) : Decidable (HasConnection s nickname) :=
  inferInstanceAs (Decidable (∃ c ∈ s.registry.connections, _))

/-- Every storage directory has the nickname of a connection. -/
def StorageOwned (s : StoredServer) : Prop :=
  ∀ nickname ∈ children s.directories, HasConnection s.server nickname

instance (s : StoredServer) : Decidable s.StorageOwned :=
  inferInstanceAs (Decidable (∀ nickname ∈ children s.directories, _))

/-- The storage directory with the nickname of the connection, if there is one, has the
nickname of another connection as well. -/
def OwnedWithout (c : ConnId) (s : StoredServer) : Prop :=
  s.server.registry.nickname c ∈ children s.directories →
    ∃ d ∈ s.server.registry.connections, d ≠ c ∧
      s.server.registry.nickname d = s.server.registry.nickname c

instance (c : ConnId) (s : StoredServer) : Decidable (s.OwnedWithout c) :=
  inferInstanceAs (Decidable (_ → ∃ d ∈ s.server.registry.connections, _))

/-- A login keeps the nickname of the connection, and `notify_disconnection` comes to
remove the directory of the connection, unless the directory is owned without it. -/
def HandlerKeepsStorage (removeAll : Bool) (c : ConnId) (s : StoredServer) :
    Continuation → Prop
  | .storeLogin _ _ login => login = s.server.registry.nickname c ∨ s.OwnedWithout c
  | .notifyDisconnection st nickname =>
    (returnsEarly st s.server = false ∧ removeAll = true ∧
      Removes nickname [s.server.registry.nickname c]) ∨ s.OwnedWithout c
  | _ => True

/-- Besides, a message makes directories for connections only that are there. -/
def KeepsStorage (cfg : Config) (s : StoredServer) (e : Event) : Prop :=
  match e.event with
  | .read c m env =>
    ∀ nickname ∈ children (createDirectories cfg c m env s.server), HasConnection s.server nickname
  | .resume i => ∀ h ∈ s.server.running[i]?, s.HandlerKeepsStorage e.removeAll h.conn h.rest
  | _ => True

instance (removeAll : Bool) (c : ConnId) (s : StoredServer) (rest : Continuation) :
    Decidable (s.HandlerKeepsStorage removeAll c rest) :=
  match rest with
  | .storeLogin .. => inferInstanceAs (Decidable (_ ∨ s.OwnedWithout c))
  | .notifyDisconnection .. => inferInstanceAs (Decidable (_ ∨ s.OwnedWithout c))
  | .isLogged .. | .notifyFilesRegistration | .notifyFileAdd _ | .notifyPathRemoved _ |
    .notifyPathRenamed .. => inferInstanceAs (Decidable True)

instance (cfg : Config) (s : StoredServer) (e : Event) : Decidable (s.KeepsStorage cfg e) :=
  match e with
  | ⟨.read c m env, _⟩ =>
    inferInstanceAs (Decidable (∀ nickname ∈ children (createDirectories cfg c m env s.server), _))
  | ⟨.resume i, _⟩ => inferInstanceAs (Decidable (∀ h ∈ s.server.running[i]?, _))
  | ⟨.accept _, _⟩ | ⟨.execute .., _⟩ | ⟨.stop _, _⟩ | ⟨.sharedWrite .., _⟩ |
    ⟨.backupTimer _, _⟩ | ⟨.transactionTimer _, _⟩ | ⟨.helloSender _, _⟩ |
    ⟨.transferCompleted .., _⟩ | ⟨.uploadCompleted _, _⟩ => inferInstanceAs (Decidable True)

/-- The state and the nickname with which the event goes through the section of
`notify_disconnection`. -/
def disconnecting (s : StoredServer) (e : Event) : Option (ClientState × Str) :=
  match e.event with
  | .resume i =>
    (s.server.running[i]?).bind fun h =>
      match h.rest with
      | .notifyDisconnection st nickname => some (st, nickname)
      | _ => none
  | _ => none

/-- `notify_disconnection` leaves no directory of the nickname. -/
def RemovesDirectory (cfg : Config) (s : StoredServer) (e : Event) : Prop :=
  ∀ p ∈ s.disconnecting e, [p.2] ∉ s.changeDirectories cfg e

/-- If the nickname has a directory, `notify_disconnection` comes to remove it. -/
def ReachesRemoval (s : StoredServer) (e : Event) : Prop :=
  ∀ p ∈ s.disconnecting e, [p.2] ∈ s.directories →
    returnsEarly p.1 s.server = false ∧ e.removeAll = true ∧
      Removes p.2 [p.2]

instance (s : StoredServer) (e : Event) : Decidable (s.ReachesRemoval e) :=
  inferInstanceAs (Decidable (∀ p ∈ s.disconnecting e, _ → _ ∧ _ ∧ _))

/-! ## Downloads that begin -/

theorem begun_forEachAndRemove_deny (id : Nat) (s : Server) :
    (s.forEachAndRemove id Server.denyDownload).downloads.begun = s.downloads.begun := by
  unfold Server.forEachAndRemove
  split
  · rfl
  · exact Server.Blind.foldl (p := fun s => s.downloads.begun) (f := Server.denyDownload)
      (fun _ _ => rfl) _ s

theorem begun_beginDownloadTransaction (cfg : Config) (env : FileEnv) (c : ConnId) (id : Nat)
    (compression : Compression) (info : DownloadInfo) (s : Server) :
    (s.beginDownloadTransaction cfg env c id compression info).1.downloads.begun =
      ⟨id, s.registry.nickname c, info.fileOwner⟩ :: s.downloads.begun := by
  unfold Server.beginDownloadTransaction
  dsimp only
  split
  · rfl
  · split
    · exact begun_forEachAndRemove_deny id _
    · exact congrArg Queries.begun (Server.queries_notifyFileDownload cfg info.fileOwner id _ _)

theorem begun_resolveDownloadReply {cfg : Config} (env : FileEnv) {c : ConnId} {m : Message}
    {s : Server} (hvalid : s.readError cfg c m = none) (hreply : m.command = .REPLY) :
    (s.resolveDownloadReply cfg env c m).1.downloads.begun =
      ((begins cfg c m s).map fun b => ⟨b.1, s.registry.nickname c, b.2.fileOwner⟩).toList ++
        s.downloads.begun := by
  unfold Server.resolveDownloadReply begins Message.approves
  rw [if_pos hvalid]
  cases hid : stoull (m.header .CommandId) with
  | none => simp
  | some id =>
    by_cases hcode : m.header .ReplyCode = cfg.DOWNLOAD_FILE_QUERRY_APPROVED
    · simp only [hcode, hreply, ne_eq, not_true_eq_false, ↓reduceIte, and_self, Option.bind_some]
      cases hentry : s.downloads.backedupRequests[id]? with
      | none => simp
      | some entry =>
        cases hsize : stoull (m.header .FileSize) with
        | none => rfl
        | some size => exact begun_beginDownloadTransaction cfg env c id _ entry.info _
    · simp [hcode]

/-- The directories are made in the steps that begin a download, and in no other. -/
theorem begun_read {cfg : Config} {c : ConnId} {m : Message} {env : FileEnv} {s s' : Server}
    (h : s.step cfg (.read c m env) = some s') :
    s'.downloads.begun =
      ((begins cfg c m s).map fun b => ⟨b.1, s.registry.nickname c, b.2.fileOwner⟩).toList ++
        s.downloads.begun := by
  by_cases hreply : m.command = .REPLY
  · obtain ⟨exit, hread⟩ : ∃ exit, s.readAction cfg env c m = some (s', exit) := by
      unfold Server.step at h
      split at h
      · cases h
      · obtain ⟨-, hmap⟩ := Option.ite_none_right_eq_some.mp h
        obtain ⟨⟨t, exit⟩, hact, rfl⟩ := Option.map_eq_some_iff.mp hmap
        exact ⟨exit, hact⟩
    cases herror : s.readError cfg c m with
    | none =>
      simp only [Server.readAction, hreply, herror, reduceCtorEq, ↓reduceIte] at hread
      rw [← begun_resolveDownloadReply env herror hreply]
      exact congrArg (fun p => p.1.downloads.begun) (Option.some.inj hread).symm
    | some error =>
      have hnone : begins cfg c m s = none := by simp [begins, herror]
      simp only [Server.readAction, hreply, herror, reduceCtorEq, ↓reduceIte] at hread
      obtain ⟨rfl, -⟩ := Prod.mk.inj (Option.some.inj hread)
      rw [hnone]
      rfl
  · have hnone : begins cfg c m s = none := by simp [begins, Message.approves, hreply]
    rw [hnone]
    cases Server.transition_of_step h with
    | heartbeat => rfl
    | refuse => rfl
    | reply _ _ hcommand => exact absurd hcommand hreply
    | post => rfl

/-! ## One step -/

/-- A step that is no login and no disconnection keeps every connection with its
nickname. -/
theorem connection_kept {cfg : Config} {k k' : Core} {e : Server.Event}
    (hstep : CoreStep cfg k e k')
    (hquiet : ∀ i, e = .resume i → ∀ r ∈ k.running[i]?, r.rest.login = none ∧ r.leaving = none)
    {c : ConnId} (hc : c ∈ k.registry.connections) :
    c ∈ k'.registry.connections ∧ k'.registry.nickname c = k.registry.nickname c := by
  cases hstep with
  | accept position => exact ⟨(List.mem_insertIdx (Nat.min_le_right _ _)).mpr (Or.inr hc), rfl⟩
  | storeLogin hi => cases (hquiet _ rfl _ hi).1
  | disconnect hi => cases (hquiet _ rfl _ hi).2
  | register => exact ⟨by simpa using hc, by simp⟩
  | notify => exact ⟨by simpa using hc, by simp⟩
  | logout => exact ⟨by simpa using hc, by simp⟩
  | stop => exact ⟨by simpa using hc, by simp⟩
  | failWrite => exact ⟨by simpa [Registry.eraseWrite] using hc, by simp [Registry.eraseWrite]⟩
  | _ => exact ⟨hc, rfl⟩

theorem hasConnection_step {cfg : Config} {s s' : Server} {e : Server.Event}
    (h : s.step cfg e = some s')
    (hquiet : ∀ i, e = .resume i → ∀ r ∈ s.running[i]?, r.rest.login = none ∧ r.leaving = none)
    {nickname : Str} (hconn : HasConnection s nickname) : HasConnection s' nickname := by
  obtain ⟨c, hc, hnick⟩ := hconn
  obtain ⟨hmem, hsame⟩ := connection_kept (Server.step_core h) hquiet hc
  exact ⟨c, hmem, hsame.trans hnick⟩

theorem registry_read {cfg : Config} {s s' : Server} {c : ConnId} {m : Message} {env : FileEnv}
    (h : s.step cfg (.read c m env) = some s') : s'.registry = s.registry := by
  have hstep := Server.step_core h
  generalize hk : s'.core = k at hstep
  have hregistry : s'.registry = k.registry := congrArg Core.registry hk
  cases hstep with
  | read => exact hregistry
  | other => exact hregistry

/-- What a message makes has to be owned. -/
theorem storageOwned_read_iff {s : StoredServer} {t : Server} {made : List (List Str)}
    (howned : s.StorageOwned) (hregistry : t.registry = s.server.registry) :
    (StoredServer.mk t (made ++ s.directories)).StorageOwned ↔
      ∀ nickname ∈ children made, HasConnection s.server nickname := by
  have hconn : ∀ nickname, HasConnection t nickname ↔ HasConnection s.server nickname := by
    intro nickname
    rw [HasConnection, hregistry]
    rfl
  constructor
  · intro h nickname hmade
    refine (hconn nickname).mp (h nickname ?_)
    rw [mem_children] at hmade ⊢
    exact List.mem_append_left _ hmade
  · intro h nickname hnickname
    rw [mem_children] at hnickname
    refine (hconn nickname).mpr ?_
    rcases List.mem_append.mp hnickname with hmade | hold
    · exact h nickname (mem_children.mpr hmade)
    · exact howned nickname (mem_children.mpr hold)

/-- A login takes the old nickname away from the connection. -/
theorem storageOwned_storeLogin_iff {s : StoredServer} {t : Server} {c : ConnId} {login : Str}
    (howned : s.StorageOwned) (hregistry : t.registry = s.server.registry.storeLogin c login) :
    (StoredServer.mk t s.directories).StorageOwned ↔
      login = s.server.registry.nickname c ∨ s.OwnedWithout c := by
  have hself : t.registry.nickname c = login := by simp [hregistry, Registry.storeLogin]
  have hother : ∀ d, d ≠ c → t.registry.nickname d = s.server.registry.nickname d := by
    intro d hd
    simp [hregistry, Registry.storeLogin, hd]
  have hmem : t.registry.connections = s.server.registry.connections := by
    rw [hregistry]
    rfl
  constructor
  · intro h
    by_cases hlogin : login = s.server.registry.nickname c
    · exact Or.inl hlogin
    · refine Or.inr fun hchild => ?_
      obtain ⟨d, hd, hnick⟩ := h _ hchild
      have hdc : d ≠ c := by
        rintro rfl
        exact hlogin (hself.symm.trans hnick)
      exact ⟨d, hmem ▸ hd, hdc, (hother d hdc).symm.trans hnick⟩
  · intro h nickname hnickname
    obtain ⟨d, hd, hnick⟩ := howned nickname hnickname
    by_cases hdc : d = c
    · subst hdc
      rcases h with hlogin | hwithout
      · exact ⟨d, hmem.symm ▸ hd, by rw [hself, hlogin, hnick]⟩
      · obtain ⟨d', hd', hne, hsame⟩ := hwithout (hnick ▸ hnickname)
        exact ⟨d', hmem.symm ▸ hd', by rw [hother d' hne, hsame, hnick]⟩
    · exact ⟨d, hmem.symm ▸ hd, (hother d hdc).trans hnick⟩

theorem mem_resumeDirectories {removeAll : Bool} {s : StoredServer}
    {st : ClientState} {nickname : Str} {d : List Str} :
    d ∈ s.resumeDirectories removeAll (.notifyDisconnection st nickname) ↔
      d ∈ s.directories ∧ ¬ (returnsEarly st s.server = false ∧ removeAll = true ∧
        Removes nickname d) := by
  cases hearly : returnsEarly st s.server with
  | true => simp [resumeDirectories, hearly]
  | false =>
    cases removeAll with
    | true => simp [resumeDirectories, hearly]
    | false => simp [resumeDirectories]

/-- A disconnection takes the connection away, and its directory if it removes it. -/
theorem storageOwned_disconnect_iff {cfg : Config} {removeAll : Bool} {s : StoredServer}
    {t : Server} {c : ConnId} {st : ClientState} {nickname : Str}
    (hnodup : s.server.registry.connections.Nodup) (howned : s.StorageOwned)
    (hregistry : t.registry = s.server.registry.disconnect cfg c st nickname) :
    (StoredServer.mk t (s.resumeDirectories removeAll
        (.notifyDisconnection st nickname))).StorageOwned ↔
      s.HandlerKeepsStorage removeAll c (.notifyDisconnection st nickname) := by
  have hmem : ∀ d, d ∈ t.registry.connections ↔ d ≠ c ∧ d ∈ s.server.registry.connections := by
    intro d
    rw [hregistry, Registry.connections_disconnect, hnodup.mem_erase_iff]
  have hnick : t.registry.nickname = s.server.registry.nickname := by
    rw [hregistry, Registry.nickname_disconnect]
  have hchild : ∀ name, name ∈ children (s.resumeDirectories removeAll
      (.notifyDisconnection st nickname)) ↔
      name ∈ children s.directories ∧ ¬ (returnsEarly st s.server = false ∧ removeAll = true ∧
        Removes nickname [name]) := by
    intro name
    rw [mem_children, mem_children, mem_resumeDirectories]
  constructor
  · intro h
    refine or_iff_not_imp_left.mpr fun hstays hold => ?_
    obtain ⟨d, hd, hsame⟩ := h _ ((hchild _).mpr ⟨hold, hstays⟩)
    obtain ⟨hdc, hd⟩ := (hmem d).mp hd
    exact ⟨d, hd, hdc, (congrFun hnick d).symm.trans hsame⟩
  · intro h name hname
    obtain ⟨hold, hstays⟩ := (hchild name).mp hname
    obtain ⟨d, hd, rfl⟩ := howned name hold
    by_cases hdc : d = c
    · subst hdc
      obtain ⟨d', hd', hne, hsame⟩ := h.resolve_left hstays hold
      exact ⟨d', (hmem d').mpr ⟨hne, hd'⟩, (congrFun hnick d').trans hsame⟩
    · exact ⟨d, (hmem d).mpr ⟨hdc, hd⟩, congrFun hnick d⟩

/-- The next section of a handler. -/
theorem storageOwned_resume_iff {cfg : Config} {removeAll : Bool} {s : StoredServer} {t : Server}
    {i : Nat} {c : ConnId} {rest : Continuation}
    (hnodup : s.server.registry.connections.Nodup) (howned : s.StorageOwned)
    (hrunning : s.server.running[i]? = some ⟨c, rest⟩)
    (ht : s.server.step cfg (.resume i) = some t) :
    (StoredServer.mk t (s.resumeDirectories removeAll rest)).StorageOwned ↔
      s.HandlerKeepsStorage removeAll c rest := by
  have hresumed : t = { s.server with running := s.server.running.eraseIdx i }.resumeHandler cfg c
      rest := by
    cases Server.transition_of_step ht with
    | resume hr =>
      obtain rfl := Option.some.inj (hrunning.symm.trans hr)
      rfl
  -- the other handlers make and remove nothing, and the connections stay
  have quiet : rest.login = none → Running.leaving ⟨c, rest⟩ = none →
      (StoredServer.mk t s.directories).StorageOwned := by
    intro hlogin hleaving nickname hnickname
    refine hasConnection_step ht ?_ (howned nickname hnickname)
    intro j hj r hr
    cases hj
    obtain rfl : ⟨c, rest⟩ = r := Option.some.inj (hrunning.symm.trans hr)
    exact ⟨hlogin, hleaving⟩
  cases rest with
  | storeLogin code id login =>
    exact storageOwned_storeLogin_iff howned (congrArg Server.registry hresumed)
  | notifyDisconnection st nickname =>
    have hregistry : t.registry = s.server.registry.disconnect cfg c st nickname := by
      rw [hresumed]
      exact congrArg Core.registry (Server.core_notifyDisconnection cfg c st nickname _)
    exact storageOwned_disconnect_iff hnodup howned hregistry
  | _ => exact iff_of_true (quiet rfl rfl) trivial

/-- From a state in which every storage directory is owned, a step leads to such a state
exactly when it keeps the storage. -/
theorem storageOwned_step_iff {cfg : Config} {s s' : StoredServer} {e : Event}
    (hnodup : s.server.registry.connections.Nodup) (howned : s.StorageOwned)
    (hstep : step cfg s e = some s') : s'.StorageOwned ↔ s.KeepsStorage cfg e := by
  obtain ⟨e, removeAll⟩ := e
  obtain ⟨t, ht, rfl⟩ := Option.map_eq_some_iff.mp hstep
  cases e with
  | read c m env => exact storageOwned_read_iff howned (registry_read ht)
  | resume i =>
    cases hrunning : s.server.running[i]? with
    | none => simp [Server.step, hrunning] at ht
    | some h =>
      have hkeeps : s.KeepsStorage cfg ⟨.resume i, removeAll⟩ ↔
          s.HandlerKeepsStorage removeAll h.conn h.rest := by simp [KeepsStorage, hrunning]
      rw [hkeeps, ← storageOwned_resume_iff hnodup howned hrunning ht]
      simp only [changeDirectories, hrunning]
  | _ =>
    refine iff_of_true (fun nickname hnickname => ?_) trivial
    exact hasConnection_step ht (fun _ he => nomatch he) (howned nickname hnickname)

theorem changeDirectories_of_disconnecting {cfg : Config} {s : StoredServer} {e : Event}
    {st : ClientState} {nickname : Str} (h : s.disconnecting e = some (st, nickname)) :
    s.changeDirectories cfg e =
      s.resumeDirectories e.removeAll (.notifyDisconnection st nickname) := by
  obtain ⟨e, removeAll⟩ := e
  cases e with
  | resume i =>
    obtain ⟨⟨c, rest⟩, hrunning, hrest⟩ := Option.bind_eq_some_iff.mp h
    cases rest with
    | notifyDisconnection st' nickname' =>
      obtain ⟨rfl, rfl⟩ := Prod.mk.inj (Option.some.inj hrest)
      simp only [changeDirectories, hrunning]
    | _ => cases hrest
  | _ => cases h

theorem removesDirectory_iff {cfg : Config} {s : StoredServer} {e : Event} :
    s.RemovesDirectory cfg e ↔ s.ReachesRemoval e := by
  refine forall_congr' fun ⟨st, nickname⟩ => forall_congr' fun hp => ?_
  rw [changeDirectories_of_disconnecting hp, mem_resumeDirectories, not_and, not_not]

/-! ## Runs -/

/-- On events that can happen: every storage directory has the nickname of a connection
in every state, and `notify_disconnection` leaves no directory of its nickname, exactly
as long as every step keeps the storage and reaches the removal. -/
theorem storage_owned_iff (cfg : Config) (users : List (Str × Str)) (es : List Event)
    (hes : (exec (step cfg) (initial cfg users) es).isSome) :
    (EachState (step cfg) StorageOwned (initial cfg users) es ∧
      EachStep (step cfg) (fun s e => s.RemovesDirectory cfg e) (initial cfg users) es) ↔
    EachStep (step cfg) (fun s e => s.KeepsStorage cfg e ∧ s.ReachesRemoval e)
      (initial cfg users) es := by
  have hbase : ∀ (s : StoredServer) (e : Event) (s' : StoredServer), s.server.core.Base →
      step cfg s e = some s' → s'.server.core.Base := by
    intro s e s' hs hstep
    obtain ⟨t, ht, rfl⟩ := Option.map_eq_some_iff.mp hstep
    exact hs.step (Server.step_core ht)
  have hinitial : (initial cfg users).server.core.Base := Core.base_initial cfg users
  have hempty : (initial cfg users).StorageOwned := fun _ h => absurd h List.not_mem_nil
  have hexact : ∀ (s : StoredServer) (e : Event) (s' : StoredServer),
      s.StorageOwned ∧ s.server.core.Base → step cfg s e = some s' →
      (s'.StorageOwned ∧ s'.server.core.Base ↔ s.KeepsStorage cfg e) := by
    rintro s e s' ⟨howned, hs⟩ hstep
    rw [and_iff_left (hbase s e s' hs hstep)]
    exact storageOwned_step_iff hs.nodup howned hstep
  simp only [removesDirectory_iff]
  rw [eachStep_and_iff, ← eachState_iff_eachStep_of_exec hexact ⟨hempty, hinitial⟩ hes,
    eachState_and_iff hbase hinitial]

open Server.Event in
/-- Two clients `a` and `b` register, and `b` downloads the file `/f` of `a`. -/
def downloadedFile : List Event :=
  let events : List Server.Event :=
    [.accept 0, .accept 0] ++ login 0 ['a'] ++ login 1 ['b'] ++ register 0 [['/', 'f']] ++
      register 1 [] ++ querryDownload 1 ['a'] ['/', 'f'] ++
      [readReply 0 ['2'] ['1'], .helloSender 2, .transferCompleted 2 true sampleEnv]
  events.map fun event => { event }

/-- A client disconnects, while no handler is running. -/
def leave (c : ConnId) : List Event := [{ event := .stop c }, { event := .resume 0 }]

/-- The owner of the file leaves first. -/
theorem storage_owned_owner_first :
    EachState (step sampleConfig) StorageOwned (initial sampleConfig [])
        (downloadedFile ++ leave 0 ++ leave 1) ∧
      EachStep (step sampleConfig) (fun s e => s.RemovesDirectory sampleConfig e)
        (initial sampleConfig []) (downloadedFile ++ leave 0 ++ leave 1) :=
  (storage_owned_iff sampleConfig [] _ (by decide +kernel)).mpr (by decide +kernel)

/-- The owner of the file leaves last: its directory stays, without a connection. -/
theorem directory_outlives_owner :
    ∃ s, Reach (step sampleConfig) anyStep (initial sampleConfig []) s ∧
      s.server.running = [] ∧ s.server.downloads.downloadTransactions.isEmpty = true ∧
      ¬ s.StorageOwned := by
  obtain ⟨s, hs, hrunning, hdone, howned⟩ := exists_reach_of_exec (step sampleConfig)
    (initial sampleConfig [])
    (fun s => s.server.running = [] ∧ s.server.downloads.downloadTransactions.isEmpty = true ∧
      ¬ s.StorageOwned)
    (downloadedFile ++ leave 1 ++ leave 0) (by decide +kernel)
  exact ⟨s, hs, hrunning, hdone, howned⟩

end StoredServer

end FspServer
