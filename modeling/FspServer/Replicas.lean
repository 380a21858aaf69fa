import FspServer.Listing
import FspServer.Connections

/-!
# Replicas of the files of other clients

A client that applies the messages it is sent about the files of another one
keeps a replica of its tree (`replica`). This module says what a step does to
the trees and to the replicas (`FileStep`, `Server.step_files`):

* a request of a client changes its own tree, and leaves a handler running that
  will announce the change;
* a handler that registers the files of a client, or that announces a change,
  writes to the other clients;
* no other step changes the shape of a tree or writes about files.

An update of a well-formed tree is the update of its set of paths
(`VfsOp.paths_apply`), so the same update keeps two trees with the same paths
alike.
-/

namespace FspServer

open Node PathSet RepresentationLemmas

/-! ## Updates of sets of paths -/

section Paths

variable {χ : Type} [DecidableEq χ]

open Classical in
/-- What an update does to the paths of a tree. -/
noncomputable def VfsOp.onPaths (sep : χ) (S : Set (List (List χ))) :
    VfsOp χ → Set (List (List χ))
  | .Add path =>
    if getComponents sep path = [] then S
    else if getComponents sep path ∈ S then {q | q ∈ S ∨ q = doubled (getComponents sep path)}
    else grow S (getComponents sep path)
  | .Remove path =>
    if getComponents sep path = [] ∨ getComponents sep path ∉ S then S
    else cut S (getComponents sep path)
  | .Rename path newPath =>
    if getComponents sep path = [] ∨ getComponents sep path ∉ S then S
    else if filename sep newPath = [] then S
    else move S (getComponents sep path) (filename sep newPath)
  | .SetCached .. => S

theorem doFindNode_eq_none_iff {sep : χ} {path : List χ} {root : Node χ} :
    doFindNode sep path root = none ↔
      getComponents sep path = [] ∨ getComponents sep path ∉ root.paths := by
  unfold doFindNode
  split
  · next h => simp [h]
  · next c cs h => simp [h, paths]

variable {sep : χ} {owner : List χ} {root root' : Node χ} {op : VfsOp χ}

theorem VfsOp.keepsNames_congr (hpaths : root'.paths = root.paths) :
    op.KeepsNames sep root' ↔ op.KeepsNames sep root := by
  cases op <;> simp only [KeepsNames, doFindNode_eq_none_iff, RenameFree, hpaths]

/-- An update of a well-formed tree, seen on its paths. -/
theorem VfsOp.paths_apply (h : WellFormed sep root) (hkeep : op.KeepsNames sep root)
    (hop : op.apply sep owner root = some root') : root'.paths = op.onPaths sep root.paths := by
  cases op with
  | Add path =>
    obtain rfl := Option.some.inj ((add_eq h.uniq path).symm.trans hop)
    by_cases hnil : getComponents sep path = []
    · simp [onPaths, hnil, insertPath]
    · by_cases hmem : getComponents sep path ∈ root.paths
      · rw [paths_insertPath_of_mem hnil hmem (hkeep.resolve_left hnil)]
        simp [onPaths, hnil, hmem]
      · rw [paths_insertPath_of_not_mem hmem]
        simp [onPaths, hnil, hmem]
  | Remove path =>
    obtain rfl := Option.some.inj hop
    unfold remove
    split
    · next hnone => simp [onPaths, doFindNode_eq_none_iff.mp hnone]
    · next n hn =>
      have hne := (doFindNode_some hn).1
      rw [paths_alterAt_delete h.uniq hne]
      simp [onPaths, hne, mem_paths_of_doFindNode hn]
  | Rename path newPath =>
    obtain rfl := Option.some.inj hop
    unfold rename
    split
    · next hnone => simp [onPaths, doFindNode_eq_none_iff.mp hnone]
    · next n hn =>
      have hne := (doFindNode_some hn).1
      have hmem := mem_paths_of_doFindNode hn
      by_cases hfile : filename sep newPath = []
      · simp [onPaths, hfile]
      · have hfree := (hkeep.resolve_left (by simp [hn])).resolve_left hfile
        simp only [hfile, ↓reduceIte]
        rw [paths_alterAt_setName h.uniq hne hmem hfree]
        simp [onPaths, hne, hmem, hfile]
  | SetCached path flag =>
    obtain rfl := Option.some.inj hop
    exact paths_of_shape_eq (shape_setCached sep path flag root)

theorem VfsOp.myName_apply (h : WellFormed sep root)
    (hop : op.apply sep owner root = some root') : root'.myName = root.myName := by
  cases op with
  | Add path =>
    obtain rfl := Option.some.inj ((add_eq h.uniq path).symm.trans hop)
    exact myName_insertPath _ _
  | Remove path =>
    obtain rfl := Option.some.inj hop
    unfold remove
    split
    · rfl
    · exact myName_alterAt _ _ _
  | Rename path newPath =>
    obtain rfl := Option.some.inj hop
    unfold rename
    split
    · rfl
    · dsimp only
      split
      · rfl
      · exact myName_alterAt _ _ _
  | SetCached path flag =>
    obtain rfl := Option.some.inj hop
    unfold setCached
    split
    · rfl
    · exact myName_alterAt _ _ _

end Paths

/-! ## Replicas -/

/-- What a client does with a message, for its replica of the files of `owner`. -/
def replicaStep (cfg : Config) (owner : Str) (replica : Option (Node Char)) :
    Outgoing → Option (Node Char)
  | .notification (.FILES_OF_OTHER_USERS files) =>
    match files.find? fun e => e.1 = owner with
    | some e => addAll cfg.PATH_SEPARATOR_CHR e.2 (new cfg.PATH_ROOT)
    | none => replica
  | .notification (.USER_REGISTERED_FILES o files) =>
    if o = owner then addAll cfg.PATH_SEPARATOR_CHR (files.getD []) (new cfg.PATH_ROOT)
    else replica
  | .notification (.USER_ADDED_NEW_FILE o fileName) =>
    if o = owner then
      replica.bind fun root => (VfsOp.Add fileName).apply cfg.PATH_SEPARATOR_CHR owner root
    else replica
  | .notification (.USER_DELETED_FILE o fileName) =>
    if o = owner then
      replica.bind fun root => (VfsOp.Remove fileName).apply cfg.PATH_SEPARATOR_CHR owner root
    else replica
  | .notification (.USER_RENAMED_FILE o fileName fileNewName) =>
    if o = owner then
      replica.bind fun root =>
        (VfsOp.Rename fileName fileNewName).apply cfg.PATH_SEPARATOR_CHR owner root
    else replica
  | _ => replica

/-- The replica of the files of `owner` after the messages. -/
def replica (cfg : Config) (owner : Str) (sent : List Outgoing) : Option (Node Char) :=
  sent.foldl (replicaStep cfg owner) (some (new cfg.PATH_ROOT))

theorem replica_append (cfg : Config) (owner : Str) (sent : List Outgoing) (m : Outgoing) :
    replica cfg owner (sent ++ [m]) = replicaStep cfg owner (replica cfg owner sent) m := by
  simp [replica, List.foldl_append]

theorem replicaStep_of_not_isNews {cfg : Config} {owner : Str} {m : Outgoing}
    (h : m.isNews = false) (r : Option (Node Char)) : replicaStep cfg owner r m = r := by
  cases m with
  | notification n => cases n <;> simp_all [Outgoing.isNews, replicaStep]
  | _ => rfl

namespace Server

/-- The shapes of the trees, and the replicas that the clients have. -/
def files (cfg : Config) (s : Server) :
    (ConnId → Node Char) × (ConnId → Str → Option (Node Char)) :=
  (fun c => (s.tree c).shape, fun c owner => replica cfg owner (s.sent c))

theorem blind_files (cfg : Config) : Blind (files cfg) where
  startWrite c m s hm := by
    refine Prod.ext rfl (funext fun d => funext fun owner => ?_)
    by_cases hd : d = c
    · subst hd
      simp [files, startWrite, replica_append, replicaStep_of_not_isNews hm]
    · simp [files, startWrite, hd]
  downloads _ _ _ := rfl
  setCached sep path o halted s := by
    refine Prod.ext (funext fun d => ?_) rfl
    by_cases hd : d = o
    · subst hd
      simp [files, shape_setCached]
    · simp [files, hd]

/-- A broadcast reaches each recipient once. -/
theorem sent_broadcast (cfg : Config) (n : Notification) (counter : Nat) {recipients : List ConnId}
    (hnodup : recipients.Nodup) (s : Server) (d : ConnId) :
    (s.broadcast cfg n counter recipients).sent d =
      if d ∈ recipients then s.sent d ++ [.notification n] else s.sent d := by
  unfold broadcast
  generalize hs : ({ s with
    registry := s.registry.storeShared cfg n counter recipients } : Server) = t
  have hsent : t.sent d = s.sent d := by rw [← hs]
  rw [← hsent]
  clear hs hsent
  induction recipients generalizing t with
  | nil => simp
  | cons c recipients ih =>
    obtain ⟨hc, hrest⟩ := List.nodup_cons.mp hnodup
    rw [List.foldl_cons, ih hrest]
    by_cases hd : d = c
    · subst hd
      simp [hc, startWrite]
    · simp [hd, startWrite]

theorem tree_foldl_startWrite (m : Outgoing) (recipients : List ConnId) (s : Server) :
    (recipients.foldl (fun s c => s.startWrite c m) s).tree = s.tree := by
  induction recipients generalizing s with
  | nil => rfl
  | cons c recipients ih => rw [List.foldl_cons, ih]; rfl

@[simp] theorem tree_broadcast (cfg : Config) (n : Notification) (counter : Nat)
    (recipients : List ConnId) (s : Server) :
    (s.broadcast cfg n counter recipients).tree = s.tree := by
  rw [broadcast, tree_foldl_startWrite]

theorem tree_notifyFilesRegistration (cfg : Config) (c : ConnId) (s : Server) :
    (s.notifyFilesRegistration cfg c).tree = s.tree := by
  unfold notifyFilesRegistration
  dsimp only
  split
  · rfl
  · simp only [startWrite, tree_broadcast]

theorem tree_doNotify (cfg : Config) (notifier : Str) (n : Notification) (s : Server) :
    (s.doNotify cfg notifier n).tree = s.tree := by
  unfold doNotify
  split
  · rfl
  · exact tree_broadcast ..

/-- An announcement reaches the processing clients with another nickname, unless
the counter is one. -/
theorem sent_doNotify (cfg : Config) (notifier : Str) (n : Notification) {s : Server}
    (hnodup : s.registry.processing.Nodup) (d : ConnId) :
    (s.doNotify cfg notifier n).sent d =
      if s.registry.processingCounter ≠ 1 ∧ d ∈ s.registry.processing ∧
          s.registry.nickname d ≠ notifier then
        s.sent d ++ [.notification n]
      else s.sent d := by
  unfold doNotify
  split
  · next hone => rw [if_neg fun h => h.1 hone]
  · next hone =>
    rw [sent_broadcast cfg _ _ (hnodup.filter _)]
    simp [hone]

end Server

/-! ## Changes that are not announced yet -/

/-- The update of the client's tree that a request asks for. -/
def Request.change : Request → Option (VfsOp Char)
  | .addFile _ file => some (.Add file)
  | .removePath _ path => some (.Remove path)
  | .renamePath _ old new => some (.Rename old new)
  | _ => none

/-- The update that a handler has made and will announce. -/
def Continuation.change : Continuation → Option (VfsOp Char)
  | .notifyFileAdd file => some (.Add file)
  | .notifyPathRemoved path => some (.Remove path)
  | .notifyPathRenamed old new => some (.Rename old new)
  | _ => none

/-- The updates of the client's tree that are not announced yet. -/
def Core.pending (k : Core) (c : ConnId) : List (VfsOp Char) :=
  k.running.filterMap fun h => if h.conn = c then h.rest.change else none

/-- The notification that announces an update of the owner's tree. -/
def VfsOp.notification (owner : Str) : VfsOp Char → Notification
  | .Add file => .USER_ADDED_NEW_FILE owner file
  | .Remove path => .USER_DELETED_FILE owner path
  | .Rename old new => .USER_RENAMED_FILE owner old new
  | .SetCached .. => .USER_LOGGED_OUT owner

namespace Core

theorem pending_append {k k' : Core} {h : Running} (hrunning : k'.running = k.running ++ [h])
    (c : ConnId) :
    k'.pending c = k.pending c ++ if h.conn = c then h.rest.change.toList else [] := by
  unfold pending
  rw [hrunning, List.filterMap_append]
  congr 1
  split
  · next hc => cases hrest : h.rest.change <;> simp [hc, hrest]
  · next hc => simp [hc]

theorem pending_congr {k k' : Core} (hrunning : k'.running = k.running) (c : ConnId) :
    k'.pending c = k.pending c := by
  rw [pending, pending, hrunning]

/-- The updates around the one of the handler at an index. -/
theorem pending_erase {k : Core} {i : Nat} {h : Running} (hi : k.running[i]? = some h)
    (c : ConnId) :
    ∃ before after, (k.eraseRunning i).pending c = before ++ after ∧
      k.pending c = before ++ (if h.conn = c then h.rest.change.toList else []) ++ after := by
  obtain ⟨l₁, l₂, hl, he⟩ := split_of_getElem? hi
  have herase : (k.eraseRunning i).running = l₁ ++ l₂ := he
  refine ⟨_, _, by rw [pending, herase, List.filterMap_append], ?_⟩
  rw [pending, hl, List.filterMap_append, List.filterMap_cons]
  by_cases hc : h.conn = c
  · cases hrest : h.rest.change <;> simp [hc]
  · simp [hc]

theorem pending_erase_of_none {k : Core} {i : Nat} {h : Running} (hi : k.running[i]? = some h)
    (hrest : h.rest.change = none) (c : ConnId) : (k.eraseRunning i).pending c = k.pending c := by
  obtain ⟨before, after, herase, hall⟩ := pending_erase hi c
  rw [herase, hall, hrest]
  simp

theorem pending_stop (k : Core) (d c : ConnId) : (k.stop d).pending c = k.pending c := by
  unfold Core.stop
  split
  · rfl
  · rw [pending_append (k := k) rfl]
    simp [Continuation.change]

end Core

/-! ## Steps -/

open Server

/-- What an event can do to the trees, to the replicas and to the changes that are
not announced yet. -/
inductive FileStep (cfg : Config) (s : Server) : Event → Server → Prop
  /-- No shape of a tree and no replica changes, and nobody registers. -/
  | quiet {e : Event} {s' : Server} :
      s'.files cfg = s.files cfg → (∀ c, s'.core.pending c = s.core.pending c) →
      (∀ i, e = .resume i → ∀ h ∈ s.running[i]?, h.rest ≠ .notifyFilesRegistration) →
      FileStep cfg s e s'
  /-- A request changes the tree of its client. -/
  | change {i : Nat} {dbFails : Bool} {env : FileEnv} {t : Task} (op : VfsOp Char)
      {root : Node Char} {s' : Server} :
      s.tasks[i]? = some t → t.request.change = some op →
      op.apply cfg.PATH_SEPARATOR_CHR (s.registry.nickname t.conn) (s.tree t.conn) = some root →
      s'.files cfg = (Function.update (s.files cfg).1 t.conn root.shape, (s.files cfg).2) →
      (∀ c, s'.core.pending c = s.core.pending c ++ if t.conn = c then [op] else []) →
      FileStep cfg s (.execute i dbFails env) s'
  /-- `PUSH_FILES` adds files to the tree of its client. -/
  | push {i : Nat} {dbFails : Bool} {env : FileEnv} {t : Task} {id : Str} {paths : List Str}
      {root : Node Char} {s' : Server} :
      s.tasks[i]? = some t → t.request = .pushFiles id paths →
      addAll cfg.PATH_SEPARATOR_CHR paths (s.tree t.conn) = some root →
      s'.files cfg = (Function.update (s.files cfg).1 t.conn root.shape, (s.files cfg).2) →
      (∀ c, s'.core.pending c = s.core.pending c) →
      FileStep cfg s (.execute i dbFails env) s'
  | register {i : Nat} {c : ConnId} :
      s.running[i]? = some ⟨c, .notifyFilesRegistration⟩ →
      FileStep cfg s (.resume i)
        ({ s with running := s.running.eraseIdx i }.notifyFilesRegistration cfg c)
  | notify {i : Nat} {h : Running} (op : VfsOp Char) :
      s.running[i]? = some h → h.rest.change = some op →
      FileStep cfg s (.resume i) ({ s with running := s.running.eraseIdx i }.doNotify cfg
        (s.registry.nickname h.conn) (op.notification (s.registry.nickname h.conn)))

namespace Server

variable {cfg : Config}

theorem files_update (s : Server) (c : ConnId) (root : Node Char) :
    { s with tree := Function.update s.tree c root }.files cfg =
      (Function.update (s.files cfg).1 c root.shape, (s.files cfg).2) := by
  refine Prod.ext (funext fun d => ?_) rfl
  by_cases hd : d = c
  · subst hd
    simp [files]
  · simp [files, hd]

theorem files_stop (c : ConnId) (s : Server) : (s.stop c).files cfg = s.files cfg := by
  unfold stop
  split <;> rfl

/-- What `changeTree` does to the files, and to the changes not announced yet. -/
theorem files_changeTree (s : Server) (c : ConnId) (root : Node Char) (code : Response) (id : Str)
    (rest : Continuation) :
    (s.changeTree c root code id rest).files cfg =
      (Function.update (s.files cfg).1 c root.shape, (s.files cfg).2) :=
  ((blind_files cfg).writeReply code id c _).trans (files_update s c root)

theorem pending_changeTree (s : Server) (c : ConnId) (root : Node Char) (code : Response)
    (id : Str) (rest : Continuation) (d : ConnId) :
    (s.changeTree c root code id rest).core.pending d =
      s.core.pending d ++ if c = d then rest.change.toList else [] :=
  Core.pending_append (k := s.core) (h := ⟨c, rest⟩) rfl d

/-- Executing a task. -/
theorem fileStep_executed {dbFails : Bool} {env : FileEnv} {i : Nat} {t : Task} {s s' : Server}
    (ht : s.tasks[i]? = some t)
    (h : Executed cfg dbFails env t.conn { s with tasks := s.tasks.eraseIdx i } t.request s') :
    FileStep cfg s (.execute i dbFails env) s' := by
  have hblind := blind_files cfg
  have quiet : s'.files cfg = s.files cfg → (∀ c, s'.core.pending c = s.core.pending c) →
      FileStep cfg s (.execute i dbFails env) s' :=
    fun hfiles hpending => .quiet hfiles hpending fun _ he => by simp at he
  -- a handler that changes no tree is started
  have started : ∀ {u : Server} {rest : Continuation}, rest.change = none →
      u.core.running = s.core.running ++ [⟨t.conn, rest⟩] → ∀ c,
      u.core.pending c = s.core.pending c := by
    intro u rest hrest hrunning c
    rw [Core.pending_append hrunning]
    simp [hrest]
  obtain ⟨priority, c, request⟩ := t
  cases h with
  | refuse code id => exact quiet (hblind.writeReply ..) fun _ => rfl
  | signin => exact quiet rfl (started rfl rfl)
  | signup => exact quiet rfl (started rfl rfl)
  | pushFiles hroot =>
    refine .push ht rfl hroot (files_changeTree ..) fun d => ?_
    rw [pending_changeTree]
    simp [Continuation.change]
    rfl
  | deleteAccount => exact quiet (hblind.writeReply ..) fun _ => rfl
  | logout =>
    refine quiet (files_stop ..) fun d => ?_
    rw [core_stop, Core.pending_stop]
    rfl
  | downloadFile =>
    refine quiet (hblind.resolveDownloadFileQuerry ..) fun d => ?_
    exact Core.pending_congr (congrArg Core.running (blind_core.resolveDownloadFileQuerry ..)) d
  | @addFile id file root hroot =>
    exact .change (.Add file) ht rfl hroot (files_changeTree ..) fun d => pending_changeTree ..
  | @removePath id path root ops hremove =>
    refine .change (.Remove path) ht rfl ?_ (files_changeTree ..) fun d => pending_changeTree ..
    exact congrArg (fun r => some r.2.1) hremove
  | @renamePath id old new root ops hrename =>
    refine .change (.Rename old new) ht rfl ?_ (files_changeTree ..) fun d => pending_changeTree ..
    exact congrArg (fun r => some r.2.1) hrename

theorem files_notifyDisconnection (c : ConnId) (st : ClientState) (nickname : Str) (s : Server) :
    (s.notifyDisconnection cfg c st nickname).files cfg = s.files cfg := by
  have hfold : ∀ (recipients : List ConnId) (s : Server),
      (recipients.foldl (fun s c => s.startWrite c (.notification (.USER_LOGGED_OUT nickname)))
        s).files cfg = s.files cfg := by
    intro recipients
    induction recipients with
    | nil => exact fun _ => rfl
    | cons d recipients ih =>
      intro s
      rw [List.foldl_cons, ih]
      exact (blind_files cfg).startWrite d _ s rfl
  unfold notifyDisconnection
  dsimp only
  split
  · split
    · rfl
    · exact hfold _ _
  · rfl

/-- The next section of a handler. -/
theorem fileStep_resumeHandler {s : Server} {i : Nat} {h : Running}
    (hi : s.running[i]? = some h) :
    FileStep cfg s (.resume i)
      ({ s with running := s.running.eraseIdx i }.resumeHandler cfg h.conn h.rest) := by
  have quiet : h.rest.change = none → h.rest ≠ .notifyFilesRegistration → ∀ {s' : Server},
      s'.files cfg = s.files cfg →
      (∀ c, s'.core.pending c = (s.core.eraseRunning i).pending c) →
      FileStep cfg s (.resume i) s' := by
    intro hchange hreg s' hfiles hpending
    refine .quiet hfiles (fun c => (hpending c).trans (Core.pending_erase_of_none hi hchange c)) ?_
    rintro j hj r hr
    obtain rfl := Event.resume.inj hj
    obtain rfl := Option.some.inj (hi.symm.trans hr)
    exact hreg
  obtain ⟨c, rest⟩ := h
  cases rest with
  | isLogged id login =>
    refine quiet rfl (by simp) ?_ fun d => ?_ <;> simp only [resumeHandler] <;> split
    · exact (blind_files cfg).writeReply _ id c { s with running := s.running.eraseIdx i }
    · rfl
    · rfl
    · rw [Core.pending_append (k := s.core.eraseRunning i) rfl]
      simp [Continuation.change]
  | storeLogin code id login =>
    refine quiet rfl (by simp) ?_ fun d => rfl
    exact (blind_files cfg).writeReply code id c
      { s with
        running := s.running.eraseIdx i
        registry := s.registry.storeLogin c login
        logins := (c, login) :: s.logins }
  | notifyFilesRegistration => exact .register hi
  | notifyFileAdd file => exact .notify (.Add file) hi rfl
  | notifyPathRemoved path => exact .notify (.Remove path) hi rfl
  | notifyPathRenamed old new => exact .notify (.Rename old new) hi rfl
  | notifyDisconnection st nickname =>
    refine quiet rfl (by simp) (files_notifyDisconnection c st nickname _) fun d => ?_
    exact Core.pending_congr (congrArg Core.running (core_notifyDisconnection ..)) d

theorem files_sharedWriteCompleted (w : SharedWrite) (result : SendResult) (s : Server) :
    (s.sharedWriteCompleted cfg w result).files cfg = s.files cfg := by
  unfold sharedWriteCompleted
  dsimp only
  split
  · rfl
  · split
    · exact files_stop ..
    · split <;> rfl

theorem pending_sharedWriteCompleted (w : SharedWrite) (result : SendResult) (s : Server)
    (d : ConnId) : (s.sharedWriteCompleted cfg w result).core.pending d = s.core.pending d := by
  unfold sharedWriteCompleted
  dsimp only
  split
  · rfl
  · split
    · rw [core_stop, Core.pending_stop]
      rfl
    · split <;> rfl

/-- Every step is one of the steps on files. -/
theorem step_files {s s' : Server} {e : Event} (h : s.step cfg e = some s') :
    FileStep cfg s e s' := by
  have hblind := blind_files cfg
  have quiet : (∀ i, e ≠ .resume i) → s'.files cfg = s.files cfg →
      s'.core.running = s.core.running → FileStep cfg s e s' :=
    fun he hfiles hrunning => .quiet hfiles (Core.pending_congr hrunning) fun i hi =>
      absurd hi (he i)
  cases transition_of_step h with
  | accept => exact quiet (by simp) rfl rfl
  | heartbeat => exact quiet (by simp) (hblind.startWrite _ .heartbeat s rfl) rfl
  | refuse => exact quiet (by simp) (hblind.writeReply ..) rfl
  | reply =>
    exact quiet (by simp) (hblind.resolveDownloadReply ..)
      (congrArg Core.running (blind_core.resolveDownloadReply ..))
  | post => exact quiet (by simp) (hblind.writeReply _ _ _ s) rfl
  | execute ht _ hexec => exact fileStep_executed ht hexec
  | expired => exact quiet (by simp) rfl rfl
  | resume hi => exact fileStep_resumeHandler hi
  | stop => exact .quiet (files_stop ..) (fun d => by rw [core_stop, Core.pending_stop]) (by simp)
  | sharedWrite =>
    exact .quiet (files_sharedWriteCompleted ..) (pending_sharedWriteCompleted _ _ s) (by simp)
  | backupTimer =>
    exact quiet (by simp) (hblind.backupTimerExpired ..)
      (congrArg Core.running (blind_core.backupTimerExpired ..))
  | transactionTimer =>
    exact quiet (by simp) (hblind.transactionTimerExpired ..)
      (congrArg Core.running (blind_core.transactionTimerExpired ..))
  | helloSender =>
    exact quiet (by simp) (hblind.tryStartDownloadTransaction ..)
      (congrArg Core.running (blind_core.tryStartDownloadTransaction ..))
  | transferCompleted =>
    exact quiet (by simp) (hblind.transferCompleted ..)
      (congrArg Core.running (blind_core.transferCompleted ..))
  | uploadCompleted =>
    exact quiet (by simp) (hblind.endUploadTransaction ..)
      (congrArg Core.running (blind_core.endUploadTransaction ..))

end Server

end FspServer
