import FspServer.Step

/-!
# The transitions of the server

`Server.step` and `executeRequest` say what the server computes. `Transition` and
`Executed` list what can come out of them: one constructor for each way a step
can go, with what was checked on the way. Every invariant is proved from these
lists (`transition_of_step`, `executed_of_executeRequest`), and no other proof
takes the two functions apart.
-/

namespace FspServer

open Node

/-- The codes that answer a download query. -/
def Response.isDownloadAnswer : Response → Bool
  | .DOWNLOAD_DENY | .SSL_VERSION_INCOMPATIBLE => true
  | _ => false

namespace Server

/-- The tree of `c` has become `root`; the client is told and its handler goes on. -/
def changeTree (c : ConnId) (root : Node Char) (code : Response) (requestID : Str)
    (rest : Continuation) (s : Server) : Server :=
  ({ s with tree := Function.update s.tree c root }.writeReply code requestID c).continueWith c rest

/-- What a worker can do with a request of `c`. -/
inductive Executed (cfg : Config) (dbFails : Bool) (env : FileEnv) (c : ConnId) (s : Server) :
    Request → Server → Prop
  /-- The request is refused. -/
  | refuse {request : Request} (code : Response) (id : Str) : code.isDownloadAnswer = false →
      Executed cfg dbFails env c s request (s.writeReply code id c)
  | signin {id login password : Str} :
      retrieveUser s.users dbFails login password = .user_credentials_ok →
      Executed cfg dbFails env c s (.signin id login password)
        (s.continueWith c (.isLogged id login))
  | signup {id login password : Str} : dbFails = false → (∀ u ∈ s.users, u.1 ≠ login) →
      Executed cfg dbFails env c s (.signup id login password)
        ({ s with users := (login, password) :: s.users }.continueWith c
          (.storeLogin .REGISTERING_SUCCESSFULL id login))
  | pushFiles {id : Str} {paths : List Str} {root : Node Char} :
      addAll cfg.PATH_SEPARATOR_CHR paths (s.tree c) = some root →
      Executed cfg dbFails env c s (.pushFiles id paths)
        (s.changeTree c root .PUSH_FILES_SUCCESS id .notifyFilesRegistration)
  | deleteAccount {id : Str} : dbFails = false → (∃ u ∈ s.users, u.1 = s.registry.nickname c) →
      Executed cfg dbFails env c s (.deleteAccount id)
        ({ s with users := s.users.filter fun u => u.1 ≠ s.registry.nickname c }.writeReply
          .DELETING_ACCOUNT_SUCCESSFULL id c)
  | logout : Executed cfg dbFails env c s .logout (s.stop c)
  | downloadFile {id owner path ssl compressions : Str} :
      Executed cfg dbFails env c s (.downloadFile id owner path ssl compressions)
        (s.resolveDownloadFileQuerry cfg env c id owner path ssl compressions)
  | addFile {id file : Str} {root : Node Char} :
      add cfg.PATH_SEPARATOR_CHR file (s.tree c) = some root →
      Executed cfg dbFails env c s (.addFile id file)
        (s.changeTree c root .ADD_FILE_SUCCESSFULL id (.notifyFileAdd file))
  | removePath {id path : Str} {root : Node Char} {ops : List (DiskOp Char)} :
      remove cfg.PATH_SEPARATOR_CHR (s.registry.nickname c) path (s.tree c) = (true, root, ops) →
      Executed cfg dbFails env c s (.removePath id path)
        (s.changeTree c root .REMOVE_FILE_SUCCESSFULL id (.notifyPathRemoved path))
  | renamePath {id old new : Str} {root : Node Char} {ops : List (DiskOp Char)} :
      rename cfg.PATH_SEPARATOR_CHR (s.registry.nickname c) old new (s.tree c) =
        (true, root, ops) →
      Executed cfg dbFails env c s (.renamePath id old new)
        (s.changeTree c root .RENAME_FILE_SUCCESSFULL id (.notifyPathRenamed old new))

theorem executed_of_executeRequest {cfg : Config} {dbFails : Bool} {env : FileEnv} {c : ConnId}
    {s s' : Server} {request : Request}
    (h : s.executeRequest cfg dbFails env c request = some s') :
    Executed cfg dbFails env c s request s' := by
  cases request with
  | signin id login password =>
    obtain rfl := Option.some.inj h
    unfold doSignin
    split
    · next hok => exact .signin hok
    all_goals exact .refuse _ id rfl
  | signup id login password =>
    obtain rfl := Option.some.inj h
    unfold doSignup
    split
    · exact .refuse _ id rfl
    · next hdb =>
      split
      · exact .refuse _ id rfl
      · next hfree =>
        refine .signup (by simpa using hdb) fun u hu heq => hfree ?_
        exact List.any_eq_true.mpr ⟨u, hu, by simpa using heq⟩
  | pushFiles id paths =>
    obtain ⟨root, hroot, rfl⟩ := Option.map_eq_some_iff.mp h
    exact .pushFiles hroot
  | deleteAccount id =>
    obtain rfl := Option.some.inj h
    unfold doDeleteAccount
    dsimp only
    split
    · exact .refuse _ id rfl
    · next hdb =>
      split
      · next hany => exact .deleteAccount (by simpa using hdb) (by simpa using hany)
      · exact .refuse _ id rfl
  | logout =>
    obtain rfl := Option.some.inj h
    exact .logout
  | downloadFile id owner path ssl compressions =>
    obtain rfl := Option.some.inj h
    exact .downloadFile
  | addFile id file =>
    obtain ⟨root, hroot, rfl⟩ := Option.map_eq_some_iff.mp h
    exact .addFile hroot
  | removePath id path =>
    obtain rfl := Option.some.inj h
    unfold doRemovePath
    generalize hremove : remove cfg.PATH_SEPARATOR_CHR (s.registry.nickname c) path (s.tree c) = r
    obtain ⟨removed, root, ops⟩ := r
    cases removed with
    | true => exact .removePath hremove
    | false => exact .refuse _ id rfl
  | renamePath id old new =>
    obtain rfl := Option.some.inj h
    unfold doRemamePath
    generalize hrename :
      rename cfg.PATH_SEPARATOR_CHR (s.registry.nickname c) old new (s.tree c) = r
    obtain ⟨renamed, root, ops⟩ := r
    cases renamed with
    | true => exact .renamePath hrename
    | false => exact .refuse _ id rfl

/-- What a step can do. -/
inductive Transition (cfg : Config) (s : Server) : Event → Server → Prop
  | accept (position : Nat) :
      Transition cfg s (.accept position) { s with registry := s.registry.accept position }
  | heartbeat {c : ConnId} {m : Message} {env : FileEnv} : s.alive c = true →
      Transition cfg s (.read c m env) (s.startWrite c .heartbeat)
  /-- One of the validators objects. -/
  | refuse {c : ConnId} {m : Message} {env : FileEnv} {code : Response} {id : Str} :
      s.alive c = true → s.readError cfg c m = some (code, id) →
      Transition cfg s (.read c m env) (s.writeReply code id c)
  | reply {c : ConnId} {m : Message} {env : FileEnv} :
      s.alive c = true → s.readError cfg c m = none → m.command = .REPLY →
      Transition cfg s (.read c m env) (s.resolveDownloadReply cfg env c m).1
  | post {c : ConnId} {m : Message} {env : FileEnv} {code : Response} :
      s.alive c = true → s.readError cfg c m = none → confirm m.command = some code →
      Transition cfg s (.read c m env) { s.writeReply code (m.header .CommandId) c with
        tasks := s.tasks ++ messageTasks cfg c m }
  | execute {i : Nat} {dbFails : Bool} {env : FileEnv} {t : Task} {s' : Server} :
      s.tasks[i]? = some t → s.alive t.conn = true →
      Executed cfg dbFails env t.conn { s with tasks := s.tasks.eraseIdx i } t.request s' →
      Transition cfg s (.execute i dbFails env) s'
  /-- The connection of the task no longer exists. -/
  | expired {i : Nat} {dbFails : Bool} {env : FileEnv} {t : Task} :
      s.tasks[i]? = some t → s.alive t.conn = false →
      Transition cfg s (.execute i dbFails env) { s with tasks := s.tasks.eraseIdx i }
  | resume {i : Nat} {h : Running} : s.running[i]? = some h →
      Transition cfg s (.resume i)
        ({ s with running := s.running.eraseIdx i }.resumeHandler cfg h.conn h.rest)
  | stop {c : ConnId} : s.alive c = true → Transition cfg s (.stop c) (s.stop c)
  | sharedWrite {i : Nat} {w : SharedWrite} {result : SendResult} :
      s.registry.writes[i]? = some w → result.Fits w →
      Transition cfg s (.sharedWrite i result) (s.sharedWriteCompleted cfg w result)
  | backupTimer {id : Nat} {entry : Backup} :
      s.downloads.backedupRequests[id]? = some entry → entry.timerArmed = true →
      Transition cfg s (.backupTimer id) (s.backupTimerExpired id)
  | transactionTimer {id : Nat} : id ∈ s.downloads.transactionTimers →
      Transition cfg s (.transactionTimer id) (s.transactionTimerExpired cfg id)
  | helloSender (id : Nat) :
      Transition cfg s (.helloSender id) (s.tryStartDownloadTransaction id)
  | transferCompleted {id : Nat} {handler : CompletionHandler} (success : Bool) (env : FileEnv) :
      s.downloads.completionHandlers[id]? = some handler →
      Transition cfg s (.transferCompleted id success env)
        (s.transferCompleted cfg env id handler success)
  | uploadCompleted (id : Nat) :
      Transition cfg s (.uploadCompleted id) (s.endUploadTransaction cfg id)

theorem transition_of_readAction {cfg : Config} {env : FileEnv} {c : ConnId} {m : Message}
    {s s' : Server} {exit : Exit} (ha : s.alive c = true)
    (h : s.readAction cfg env c m = some (s', exit)) : Transition cfg s (.read c m env) s' := by
  unfold readAction at h
  split at h
  · obtain ⟨rfl, -⟩ := Prod.mk.inj (Option.some.inj h)
    exact .heartbeat ha
  · split at h
    · next code id herror =>
      obtain ⟨rfl, -⟩ := Prod.mk.inj (Option.some.inj h)
      exact .refuse ha herror
    · next hvalid =>
      split at h
      · next hreply =>
        obtain rfl := congrArg Prod.fst (Option.some.inj h)
        exact .reply ha hvalid hreply
      · obtain ⟨code, hconfirm, heq⟩ := Option.map_eq_some_iff.mp h
        obtain ⟨rfl, -⟩ := Prod.mk.inj heq
        exact .post ha hvalid hconfirm

/-- Every step is one of the transitions. -/
theorem transition_of_step {cfg : Config} {s s' : Server} {e : Event}
    (h : s.step cfg e = some s') : Transition cfg s e s' := by
  unfold step at h
  split at h
  · simp at h
  · cases e with
    | accept position =>
      obtain rfl := Option.some.inj h
      exact .accept position
    | read c m env =>
      obtain ⟨ha, hs⟩ := Option.ite_none_right_eq_some.mp h
      obtain ⟨⟨t, exit⟩, hread, rfl⟩ := Option.map_eq_some_iff.mp hs
      exact transition_of_readAction ha hread
    | execute i dbFails env =>
      obtain ⟨t, ht, hrest⟩ := Option.bind_eq_some_iff.mp h
      dsimp only at hrest
      split at hrest
      · next ha => exact .execute ht ha (executed_of_executeRequest hrest)
      · next ha =>
        obtain rfl := Option.some.inj hrest
        exact .expired ht (Bool.eq_false_iff.mpr ha)
    | resume i =>
      obtain ⟨r, hr, rfl⟩ := Option.map_eq_some_iff.mp h
      exact .resume hr
    | stop c =>
      obtain ⟨ha, hs⟩ := Option.ite_none_right_eq_some.mp h
      obtain rfl := Option.some.inj hs
      exact .stop ha
    | sharedWrite i result =>
      obtain ⟨w, hw, hrest⟩ := Option.bind_eq_some_iff.mp h
      obtain ⟨hfits, hs⟩ := Option.ite_none_right_eq_some.mp hrest
      obtain rfl := Option.some.inj hs
      exact .sharedWrite hw hfits
    | backupTimer id =>
      obtain ⟨entry, hentry, hrest⟩ := Option.bind_eq_some_iff.mp h
      obtain ⟨harmed, hs⟩ := Option.ite_none_right_eq_some.mp hrest
      obtain rfl := Option.some.inj hs
      exact .backupTimer hentry harmed
    | transactionTimer id =>
      obtain ⟨harmed, hs⟩ := Option.ite_none_right_eq_some.mp h
      obtain rfl := Option.some.inj hs
      exact .transactionTimer harmed
    | helloSender id =>
      obtain rfl := Option.some.inj h
      exact .helloSender id
    | transferCompleted id success env =>
      obtain ⟨handler, hhandler, rfl⟩ := Option.map_eq_some_iff.mp h
      exact .transferCompleted success env hhandler
    | uploadCompleted id =>
      obtain rfl := Option.some.inj h
      exact .uploadCompleted id

end Server

end FspServer
