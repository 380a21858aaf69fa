import FspServer.Frame
import FspServer.Transitions

/-!
# What a step does to connections, tasks and handlers

Most of the server's state is of no concern to the registry of connections and
to who may run which handler. `Server.core` keeps that part, and `CoreStep` says
once everything that a step can do to it; `Server.step_core` connects the two.
The invariants about connections are proved over `CoreStep`.

* Reading only posts tasks that the state of the client admits.
* Executing a task only starts a handler of the same connection that follows the
  task (`Continuation.Follows`).
* Everything else on the core is one of the sections of `connection_manager`.
-/

namespace FspServer

/-- The connections, the queued tasks, the running handlers and the logins. -/
structure Core where
  registry : Registry
  tasks : List Task
  running : List Running
  logins : List (ConnId × Str)

namespace Server

def core (s : Server) : Core := ⟨s.registry, s.tasks, s.running, s.logins⟩

@[simp] theorem core_startWrite (c : ConnId) (m : Outgoing) (s : Server) :
    (s.startWrite c m).core = s.core := rfl

theorem blind_core : Blind core where
  startWrite _ _ _ _ := rfl
  downloads _ _ _ := rfl
  setCached _ _ _ _ _ := rfl

end Server

/-! ## The sections of the connection manager on the registry -/

namespace Registry

/-- The registry after `notify_disconnection`. -/
def disconnect (cfg : Config) (c : ConnId) (st : ClientState) (nickname : Str) (r : Registry) :
    Registry :=
  let r := { r with connections := r.connections.erase c }
  if st = .processing then
    let counter := decrement r.processingCounter
    let r := { r with processingCounter := counter }
    if counter = 0 then r
    else r.storeShared cfg (.USER_LOGGED_OUT nickname) counter r.processing
  else r

/-- The registry after `notify_files_registration` with the notification `n`. -/
def register (cfg : Config) (c : ConnId) (n : Notification) (r : Registry) : Registry :=
  let counter := r.processingCounter + 1
  let r := { r with processingCounter := counter, registered := c :: r.registered }
  if counter = 1 then r.setState c .processing
  else (r.storeShared cfg n (counter - 1) r.processing).setState c .processing

/-- The registry after `do_notify`. -/
def doNotify (cfg : Config) (notifier : Str) (n : Notification) (r : Registry) : Registry :=
  if r.processingCounter = 1 then r
  else r.storeShared cfg n (decrement r.processingCounter)
    (r.processing.filter fun c => r.nickname c ≠ notifier)

/-- The registry without an unfinished shared write. -/
def eraseWrite (w : SharedWrite) (r : Registry) : Registry :=
  { r with writes := r.writes.erase w }

/-- The registry after a part of a shared write was sent. -/
def continueWrite (w : SharedWrite) (transferred : Nat) (r : Registry) : Registry :=
  { r with writes := r.writes.erase w ++ [{ w with offset := w.offset + transferred }] }

/-- The registry after a shared write was sent completely. -/
def finishWrite (build : Build) (w : SharedWrite) (r : Registry) : Registry :=
  let r := (r.eraseWrite w).notifySharedWriteDone build w.bufferID
  { r with finished := (w.conn, w.bufferID) :: r.finished }

end Registry

namespace Server

/-- Changing the registry changes nothing else of the core. -/
theorem core_mapRegistry (f : Registry → Registry) {s : Server} {k : Core} (h : s.core = k) :
    ({ s with registry := f s.registry } : Server).core = { k with registry := f k.registry } := by
  subst h
  rfl

theorem core_foldl_startWrite (n : Outgoing) (recipients : List ConnId) (s : Server) :
    (recipients.foldl (fun s c => s.startWrite c n) s).core = s.core := by
  induction recipients generalizing s with
  | nil => rfl
  | cons c recipients ih => rw [List.foldl_cons, ih, core_startWrite]

theorem core_broadcast (cfg : Config) (n : Notification) (counter : Nat)
    (recipients : List ConnId) (s : Server) :
    (s.broadcast cfg n counter recipients).core =
      { s.core with registry := s.registry.storeShared cfg n counter recipients } := by
  rw [broadcast, core_foldl_startWrite]
  rfl

theorem core_notifyDisconnection (cfg : Config) (c : ConnId) (st : ClientState)
    (nickname : Str) (s : Server) :
    (s.notifyDisconnection cfg c st nickname).core =
      { s.core with registry := s.registry.disconnect cfg c st nickname } := by
  unfold notifyDisconnection Registry.disconnect
  dsimp only
  split
  · split
    · rfl
    · rw [core_broadcast]
      rfl
  · rfl

theorem core_notifyFilesRegistration (cfg : Config) (c : ConnId) (s : Server) :
    ∃ n, (s.notifyFilesRegistration cfg c).core =
      { s.core with registry := s.registry.register cfg c n } := by
  refine ⟨.USER_REGISTERED_FILES (s.registry.nickname c)
    (if (s.tree c).empty then none else some (getFiles cfg (s.tree c))), ?_⟩
  unfold notifyFilesRegistration Registry.register
  dsimp only
  split
  · rfl
  · rw [core_mapRegistry (Registry.setState c .processing) (core_startWrite _ _ _),
      core_broadcast]
    rfl

theorem core_doNotify (cfg : Config) (notifier : Str) (n : Notification) (s : Server) :
    (s.doNotify cfg notifier n).core =
      { s.core with registry := s.registry.doNotify cfg notifier n } := by
  unfold doNotify Registry.doNotify
  split
  · rfl
  · rw [core_broadcast]

end Server

/-! ## Steps on the core -/

namespace Core

/-- Some `shared_ptr` to the connection is held. -/
def Alive (k : Core) (c : ConnId) : Prop :=
  c ∈ k.registry.connections ∨ ∃ h ∈ k.running, h.conn = c

/-- `connection::stop` up to the section of `notify_disconnection`. -/
def stop (c : ConnId) (k : Core) : Core :=
  if k.registry.stopped c then k
  else
    { k with
      registry := k.registry.setStopped c
      running := k.running ++
        [⟨c, .notifyDisconnection (k.registry.state c) (k.registry.nickname c)⟩] }

def eraseTask (i : Nat) (k : Core) : Core := { k with tasks := k.tasks.eraseIdx i }

def eraseRunning (i : Nat) (k : Core) : Core := { k with running := k.running.eraseIdx i }

end Core

/-- The command whose request a task carries out. -/
def Request.command : Request → Command
  | .signin .. => .SIGNIN
  | .signup .. => .SIGNUP
  | .pushFiles .. => .PUSH_FILES
  | .deleteAccount .. => .DELETE_ACCOUNT
  | .logout => .LOGOUT
  | .downloadFile .. | .addFile .. | .removePath .. | .renamePath .. => .QUERRY

/-- The handlers that are left running by the first step of a task. -/
def Continuation.Follows : Continuation → Request → Prop
  | .isLogged .., .signin .. => True
  | .storeLogin code .., .signup .. => code = .REGISTERING_SUCCESSFULL
  | .notifyFilesRegistration, .pushFiles .. => True
  | .notifyFileAdd file, .addFile _ file' => file = file'
  | .notifyPathRemoved path, .removePath _ path' => path = path'
  | .notifyPathRenamed old new, .renamePath _ old' new' => old = old' ∧ new = new'
  | _, _ => False

/-- The notification of a change of files, with the given owner. -/
def Continuation.notification (owner : Str) : Continuation → Option Notification
  | .notifyFileAdd file => some (.USER_ADDED_NEW_FILE owner file)
  | .notifyPathRemoved path => some (.USER_DELETED_FILE owner path)
  | .notifyPathRenamed old new => some (.USER_RENAMED_FILE owner old new)
  | _ => none

/-- The nickname that a handler is about to store. -/
def Continuation.login : Continuation → Option Str
  | .storeLogin _ _ login => some login
  | _ => none

open Server

/-- What an event can do to the core. -/
inductive CoreStep (cfg : Config) (k : Core) : Event → Core → Prop
  | accept (position : Nat) :
      CoreStep cfg k (.accept position) { k with registry := k.registry.accept position }
  | read {c : ConnId} {m : Message} {env : FileEnv} (new : List Task) :
      k.Alive c →
      (∀ t ∈ new, t.conn = c ∧ transitionValidate t.request.command (k.registry.state c) = none) →
      CoreStep cfg k (.read c m env) { k with tasks := k.tasks ++ new }
  | execute {i : Nat} {dbFails : Bool} {env : FileEnv} (t : Task) (started : List Running) :
      k.tasks[i]? = some t →
      (∀ h ∈ started, h.conn = t.conn ∧ h.rest.Follows t.request ∧ k.Alive t.conn) →
      CoreStep cfg k (.execute i dbFails env)
        { k.eraseTask i with running := k.running ++ started }
  | logout {i : Nat} {dbFails : Bool} {env : FileEnv} (t : Task) :
      k.tasks[i]? = some t → t.request = .logout → k.Alive t.conn →
      CoreStep cfg k (.execute i dbFails env) ((k.eraseTask i).stop t.conn)
  | isLogged {i : Nat} {c : ConnId} {id login : Str} (started : List Running) :
      k.running[i]? = some ⟨c, .isLogged id login⟩ →
      (∀ h ∈ started, h = ⟨c, .storeLogin .LOGIN_SUCCESSFULL id login⟩) →
      CoreStep cfg k (.resume i)
        { k.eraseRunning i with running := (k.eraseRunning i).running ++ started }
  | storeLogin {i : Nat} {c : ConnId} {code : Response} {id login : Str} :
      k.running[i]? = some ⟨c, .storeLogin code id login⟩ →
      CoreStep cfg k (.resume i)
        { k.eraseRunning i with
          registry := k.registry.storeLogin c login
          logins := (c, login) :: k.logins }
  | register {i : Nat} {c : ConnId} (n : Notification) :
      k.running[i]? = some ⟨c, .notifyFilesRegistration⟩ →
      CoreStep cfg k (.resume i)
        { k.eraseRunning i with registry := k.registry.register cfg c n }
  | notify {i : Nat} {h : Running} {n : Notification} :
      k.running[i]? = some h → h.rest.notification (k.registry.nickname h.conn) = some n →
      CoreStep cfg k (.resume i)
        { k.eraseRunning i with
          registry := k.registry.doNotify cfg (k.registry.nickname h.conn) n }
  | disconnect {i : Nat} {c : ConnId} {st : ClientState} {nickname : Str} :
      k.running[i]? = some ⟨c, .notifyDisconnection st nickname⟩ →
      CoreStep cfg k (.resume i)
        { k.eraseRunning i with registry := k.registry.disconnect cfg c st nickname }
  | stop {c : ConnId} : k.Alive c → CoreStep cfg k (.stop c) (k.stop c)
  | dropWrite {i : Nat} {w : SharedWrite} {result : SendResult} :
      k.registry.writes[i]? = some w → ¬ k.Alive w.conn →
      CoreStep cfg k (.sharedWrite i result) { k with registry := k.registry.eraseWrite w }
  | failWrite {i : Nat} {w : SharedWrite} :
      k.registry.writes[i]? = some w → k.Alive w.conn →
      CoreStep cfg k (.sharedWrite i .failed)
        ({ k with registry := k.registry.eraseWrite w }.stop w.conn)
  | continueWrite {i transferred : Nat} {w : SharedWrite} :
      k.registry.writes[i]? = some w → k.Alive w.conn →
      CoreStep cfg k (.sharedWrite i (.bytes transferred))
        { k with registry := k.registry.continueWrite w transferred }
  | finishWrite {i transferred : Nat} {w : SharedWrite} :
      k.registry.writes[i]? = some w → k.Alive w.conn →
      CoreStep cfg k (.sharedWrite i (.bytes transferred))
        { k with registry := k.registry.finishWrite cfg.build w }
  | other {e : Event} : CoreStep cfg k e k

namespace Server

theorem alive_iff {s : Server} {c : ConnId} : s.alive c = true ↔ s.core.Alive c := by
  simp [alive, Core.Alive, core]

theorem core_stop (c : ConnId) (s : Server) : (s.stop c).core = s.core.stop c := by
  by_cases h : s.registry.stopped c = true
  · simp [stop, Core.stop, core, h]
  · simp [stop, Core.stop, core, h, continueWith, Registry.setStopped]

theorem command_of_mem_messageTasks {cfg : Config} {c : ConnId} {m : Message} {t : Task}
    (h : t ∈ messageTasks cfg c m) : t.conn = c ∧ t.request.command = m.command := by
  unfold messageTasks querryTasks at h
  split at h <;> rename_i hcommand
  case h_4 =>
    rw [hcommand]
    simp only [List.mem_append] at h
    rcases h with ((h | h) | h) | h <;> split at h <;> simp at h <;> subst h <;> exact ⟨rfl, rfl⟩
  all_goals
    simp only [List.mem_singleton, List.not_mem_nil] at h
    try (subst h; exact ⟨rfl, hcommand.symm⟩)

theorem transitionValidate_of_readError {cfg : Config} {c : ConnId} {m : Message} {s : Server}
    (h : s.readError cfg c m = none) :
    transitionValidate m.command (s.registry.state c) = none := by
  unfold readError at h
  split at h
  · simp at h
  · split at h
    · simp at h
    · assumption

/-- A task only starts a handler of its own connection that follows it; logging
out stops the connection. -/
theorem core_executed {cfg : Config} {dbFails : Bool} {env : FileEnv} {c : ConnId}
    {s s' : Server} {request : Request} (h : Executed cfg dbFails env c s request s') :
    (request = .logout ∧ s'.core = s.core.stop c) ∨
      ∃ started : List Running, s'.core = { s.core with running := s.running ++ started } ∧
        ∀ r ∈ started, r.conn = c ∧ r.rest.Follows request := by
  have unchanged : s'.core = s.core → ∃ started : List Running,
      s'.core = { s.core with running := s.running ++ started } ∧
        ∀ r ∈ started, r.conn = c ∧ r.rest.Follows request :=
    fun hcore => ⟨[], by rw [hcore, List.append_nil]; rfl, fun _ hr => absurd hr List.not_mem_nil⟩
  have continues : ∀ rest : Continuation, rest.Follows request →
      s'.core = { s.core with running := s.running ++ [⟨c, rest⟩] } →
      ∃ started : List Running, s'.core = { s.core with running := s.running ++ started } ∧
        ∀ r ∈ started, r.conn = c ∧ r.rest.Follows request := by
    intro rest hrest hcore
    refine ⟨[⟨c, rest⟩], hcore, fun r hr => ?_⟩
    rw [List.mem_singleton.mp hr]
    exact ⟨rfl, hrest⟩
  cases h with
  | refuse => exact Or.inr (unchanged rfl)
  | signin => exact Or.inr (continues (.isLogged _ _) trivial rfl)
  | signup => exact Or.inr (continues (.storeLogin .REGISTERING_SUCCESSFULL _ _) rfl rfl)
  | pushFiles => exact Or.inr (continues .notifyFilesRegistration trivial rfl)
  | deleteAccount => exact Or.inr (unchanged rfl)
  | logout => exact Or.inl ⟨rfl, core_stop c s⟩
  | downloadFile => exact Or.inr (unchanged (blind_core.resolveDownloadFileQuerry ..))
  | addFile => exact Or.inr (continues (.notifyFileAdd _) rfl rfl)
  | removePath => exact Or.inr (continues (.notifyPathRemoved _) rfl rfl)
  | renamePath => exact Or.inr (continues (.notifyPathRenamed _ _) ⟨rfl, rfl⟩ rfl)

/-- Every section of a running handler is one of the steps of the core. -/
theorem core_resumeHandler {cfg : Config} {s : Server} {i : Nat} {h : Running}
    (hi : s.running[i]? = some h) :
    CoreStep cfg s.core (.resume i)
      ({ s with running := s.running.eraseIdx i }.resumeHandler cfg h.conn h.rest).core := by
  obtain ⟨c, rest⟩ := h
  have notify : ∀ {n : Notification},
      rest.notification (s.registry.nickname c) = some n →
      CoreStep cfg s.core (.resume i) { s.core.eraseRunning i with
        registry := s.registry.doNotify cfg (s.registry.nickname c) n } :=
    fun hn => .notify (h := ⟨c, rest⟩) hi hn
  cases rest with
  | isLogged id login =>
    by_cases hl : { s with running := s.running.eraseIdx i }.isLogged login = true
    · have hstep : CoreStep cfg s.core (.resume i) _ :=
        .isLogged [] hi fun _ hh => absurd hh List.not_mem_nil
      rw [List.append_nil] at hstep
      simp only [resumeHandler, hl, ↓reduceIte]
      exact hstep
    · have hstep : CoreStep cfg s.core (.resume i) _ :=
        .isLogged [⟨c, .storeLogin .LOGIN_SUCCESSFULL id login⟩] hi
          fun _ hh => List.mem_singleton.mp hh
      simp only [resumeHandler, hl, Bool.false_eq_true, ↓reduceIte]
      exact hstep
  | storeLogin code id login => exact .storeLogin hi
  | notifyFilesRegistration =>
    obtain ⟨n, hn⟩ :=
      core_notifyFilesRegistration cfg c { s with running := s.running.eraseIdx i }
    simp only [resumeHandler, hn]
    exact .register n hi
  | notifyFileAdd file =>
    simp only [resumeHandler, notifyFileAdd, core_doNotify]
    exact notify rfl
  | notifyPathRemoved path =>
    simp only [resumeHandler, notifyPathRemoved, core_doNotify]
    exact notify rfl
  | notifyPathRenamed old new =>
    simp only [resumeHandler, notifyPathRenamed, core_doNotify]
    exact notify rfl
  | notifyDisconnection st nickname =>
    simp only [resumeHandler, core_notifyDisconnection]
    exact .disconnect hi

theorem core_sharedWriteCompleted {cfg : Config} {s : Server} {i : Nat} {w : SharedWrite}
    (hi : s.registry.writes[i]? = some w) (result : SendResult) :
    CoreStep cfg s.core (.sharedWrite i result) (s.sharedWriteCompleted cfg w result).core := by
  unfold sharedWriteCompleted
  dsimp only
  split
  · next ha =>
    refine .dropWrite hi fun halive => ?_
    have hdead : (!s.alive w.conn) = true := ha
    simp [alive_iff.mpr halive] at hdead
  · next ha =>
    have hnot : ¬ (!s.alive w.conn) = true := ha
    have halive : s.core.Alive w.conn := alive_iff.mp (by simpa using hnot)
    split
    · rw [core_stop]
      exact .failWrite hi halive
    · split
      · exact .continueWrite hi halive
      · exact .finishWrite hi halive

/-- Every step of the server is a step of its core. -/
theorem step_core {cfg : Config} {s s' : Server} {e : Event} (h : s.step cfg e = some s') :
    CoreStep cfg s.core e s'.core := by
  -- a read that posts nothing
  have silent : ∀ {c : ConnId} {m : Message} {env : FileEnv} {t : Server}, s.alive c = true →
      t.core = s.core → CoreStep cfg s.core (.read c m env) t.core := by
    intro c m env t ha hcore
    have hstep : CoreStep cfg s.core (.read c m env) _ :=
      .read [] (alive_iff.mp ha) fun _ ht => absurd ht List.not_mem_nil
    rw [hcore]
    simpa using hstep
  cases transition_of_step h with
  | accept position => exact .accept position
  | heartbeat ha => exact silent ha rfl
  | refuse ha => exact silent ha rfl
  | reply ha => exact silent ha (blind_core.resolveDownloadReply ..)
  | post ha hvalid =>
    refine .read (messageTasks cfg _ _) (alive_iff.mp ha) fun t ht => ?_
    obtain ⟨hconn, hcommand⟩ := command_of_mem_messageTasks ht
    exact ⟨hconn, hcommand ▸ transitionValidate_of_readError hvalid⟩
  | @execute i dbFails env t _ ht ha hexec =>
    rcases core_executed hexec with ⟨hlogout, hcore⟩ | ⟨started, hcore, hstarted⟩
    · rw [hcore]
      exact .logout t ht hlogout (alive_iff.mp ha)
    · rw [hcore]
      exact .execute t started ht fun r hr =>
        ⟨(hstarted r hr).1, (hstarted r hr).2, alive_iff.mp ha⟩
  | @expired i dbFails env t ht =>
    have hstep : CoreStep cfg s.core (.execute i dbFails env) _ :=
      .execute t [] ht fun _ hr => absurd hr List.not_mem_nil
    simpa [core, Core.eraseTask] using hstep
  | resume hi => exact core_resumeHandler hi
  | @stop c ha =>
    rw [core_stop]
    exact .stop (alive_iff.mp ha)
  | sharedWrite hw => exact core_sharedWriteCompleted hw _
  | backupTimer =>
    rw [blind_core.backupTimerExpired]
    exact .other
  | transactionTimer =>
    rw [blind_core.transactionTimerExpired]
    exact .other
  | helloSender id =>
    rw [blind_core.tryStartDownloadTransaction]
    exact .other
  | transferCompleted =>
    rw [blind_core.transferCompleted]
    exact .other
  | uploadCompleted id =>
    rw [blind_core.endUploadTransaction]
    exact .other

end Server

end FspServer
