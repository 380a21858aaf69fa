import FspServer.Admission
import FspServer.Replies

/-!
# Clients that follow the declared machine

The server never runs the machine that is declared for its clients (`clientMsm`), but a client
can run it on its side: the replies that announce a success are its events, and what they lead
to is the client's view of its own state (`Server.view`). A client follows the machine
(`Server.FollowsMachine`) when it sends `SIGNIN`, `SIGNUP` or `PUSH_FILES` only where its view
has a transition for it, and only after all of these that it has sent were answered. It may send
anything else at any time, and the steps of the server are interleaved in any way.

What one step can do to the requests of a client that move its state is said once
(`Advances`, `advances_of_step`).

* `clients_in_step`: then the view of each client is the state in which the server has it, or is
  ahead of it by a registration that is being announced to the others. No handler runs in a
  state that does not admit it, and none of the three commands is refused for the state.
-/

namespace FspServer

open Runs Server

/-! ## The view of a client -/

/-- The transition that a reply announces to its client. -/
def Outgoing.announces : Outgoing → Option MsmEvent
  | .reply .LOGIN_SUCCESSFULL _ => some .signin
  | .reply .REGISTERING_SUCCESSFULL _ => some .signup
  | .reply .PUSH_FILES_SUCCESS _ => some .push_files
  | _ => none

/-- The transition that a client asks for. -/
def Command.asksFor : Command → Option MsmEvent
  | .SIGNIN => some .signin
  | .SIGNUP => some .signup
  | .PUSH_FILES => some .push_files
  | _ => none

/-- The state of the declared machine after the events. The guards let everything pass. -/
def MsmState.after (events : List MsmEvent) : Option MsmState :=
  events.foldlM (clientMsm true) .Connected

/-- The state of the declared machine that a state of a client stands for. -/
def ClientState.declared : ClientState → MsmState
  | .connected => .Connected
  | .logged => .Logged
  | .processing => .Running

namespace Core

/-- The requests of `c` that move its state and have not been answered. -/
def asked (c : ConnId) (k : Core) : Nat :=
  k.tasks.countP (fun t => t.conn = c ∧ t.request.command.movesState) +
    k.running.countP fun h => h.conn = c ∧ h.rest.awaits.isSome

/-- The registrations of `c` that are under way. -/
def registering (c : ConnId) (k : Core) : Nat :=
  k.running.countP fun h => h.conn = c ∧ h.rest = .notifyFilesRegistration

end Core

namespace Server

/-- The transitions that `c` was told of. -/
def told (c : ConnId) (s : Server) : List MsmEvent := (s.sent c).filterMap Outgoing.announces

def view (c : ConnId) (s : Server) : Option MsmState := MsmState.after (s.told c)

/-- The requests of `c` are answered, and its view has a transition for the event. -/
def MayAsk (c : ConnId) (event : MsmEvent) (s : Server) : Prop :=
  s.core.asked c = 0 ∧ ((s.view c).bind fun st => clientMsm true st event).isSome

instance (c : ConnId) (event : MsmEvent) (s : Server) : Decidable (s.MayAsk c event) :=
  inferInstanceAs (Decidable (_ ∧ _))

/-- The client that sends a message asks for nothing that its view does not allow. -/
def FollowsMachine (s : Server) : Event → Prop
  | .read c m _ => ∀ event ∈ m.command.asksFor, s.MayAsk c event
  | _ => True

instance (s : Server) (e : Event) : Decidable (s.FollowsMachine e) :=
  match e with
  | .read c m _ => inferInstanceAs (Decidable (∀ event ∈ m.command.asksFor, s.MayAsk c event))
  | .accept _ | .execute .. | .resume _ | .stop _ | .sharedWrite .. | .backupTimer _ |
    .transactionTimer _ | .helloSender _ | .transferCompleted .. | .uploadCompleted _ =>
    inferInstanceAs (Decidable True)

end Server

/-! ## What a step does to it -/

/-- For a connection: the requests that move its state and are unanswered, the registrations
that are under way, and the transitions that it was told of. -/
structure Progress where
  asked : Nat
  registering : Nat
  told : List MsmEvent
deriving DecidableEq, Repr

/-- What a step can do to the progress of a client and to its state. -/
inductive Advances (p : Progress) (st : ClientState) : Progress → ClientState → Prop
  | same : Advances p st p st
  /-- A request is read. -/
  | ask {command : Command} {event : MsmEvent} : command.asksFor = some event → p.asked = 0 →
      ((MsmState.after p.told).bind fun st => clientMsm true st event).isSome →
      Advances p st { p with asked := p.asked + 1 } st
  /-- A request is refused, or its connection is gone. -/
  | drop {n : Nat} : p.asked = n + 1 → Advances p st { p with asked := n } st
  /-- The client is told before it is registered. -/
  | push {n : Nat} : p.asked = n + 1 → st = .logged →
      Advances p st ⟨n, p.registering + 1, p.told ++ [.push_files]⟩ st
  | login {n : Nat} {event : MsmEvent} : p.asked = n + 1 → st = .connected →
      clientMsm true .Connected event = some .Logged →
      Advances p st ⟨n, p.registering, p.told ++ [event]⟩ .logged
  | register {n : Nat} : p.registering = n + 1 →
      Advances p st { p with registering := n } .processing

/-- The view of the client is its state on the server, or ahead of it by one registration. -/
structure Progress.InStep (p : Progress) (st : ClientState) : Prop where
  alone : p.asked + p.registering ≤ 1
  view : MsmState.after p.told = some (if p.registering = 0 then st.declared else .Running)
  logged : p.registering ≠ 0 → st = .logged

theorem MsmState.after_concat (events : List MsmEvent) (event : MsmEvent) :
    MsmState.after (events ++ [event]) =
      (MsmState.after events).bind fun st => clientMsm true st event := by
  simp [MsmState.after, List.foldlM_append]

/-- No transition that a client asks for leaves the last state. -/
theorem Command.clientMsm_running {command : Command} {event : MsmEvent}
    (h : command.asksFor = some event) : clientMsm true .Running event = none := by
  cases command <;> cases h <;> rfl

theorem Progress.InStep.advance {p p' : Progress} {st st' : ClientState} (h : p.InStep st)
    (hstep : Advances p st p' st') : p'.InStep st' := by
  have halone := h.alone
  cases hstep with
  | same => exact h
  | @ask command event hevent hasked hmay =>
    have hnone : p.registering = 0 := by
      by_contra hne
      rw [h.view, if_neg hne, Option.bind_some, Command.clientMsm_running hevent] at hmay
      cases hmay
    exact ⟨by simp only; omega, h.view, h.logged⟩
  | drop hasked => exact ⟨by simp only; omega, h.view, h.logged⟩
  | push hasked hst =>
    have hnone : p.registering = 0 := by omega
    refine ⟨by simp only; omega, ?_, fun _ => hst⟩
    rw [MsmState.after_concat, h.view, if_pos hnone, hst, if_neg (Nat.succ_ne_zero _)]
    rfl
  | login hasked hst hlogin =>
    have hnone : p.registering = 0 := by omega
    refine ⟨by simp only; omega, ?_, fun hne => absurd hnone hne⟩
    rw [MsmState.after_concat, h.view, if_pos hnone, hst, if_pos hnone]
    exact hlogin
  | @register n hregistering =>
    obtain rfl : n = 0 := by omega
    refine ⟨by simp only; omega, ?_, fun hne => absurd rfl hne⟩
    rw [h.view, if_neg (by omega)]
    rfl

/-! ## Messages that announce nothing -/

namespace Server

variable {c : ConnId}

def progress (c : ConnId) (s : Server) : Progress :=
  ⟨s.core.asked c, s.core.registering c, s.told c⟩

theorem told_startWrite (d : ConnId) (m : Outgoing) (s : Server) :
    (s.startWrite d m).told c = s.told c ++ if d = c then m.announces.toList else [] := by
  simp only [told, startWrite, Function.update_apply, eq_comm (a := d)]
  split
  · next hdc => cases hm : m.announces <;> simp [hm, hdc]
  · rw [List.append_nil]

theorem progress_startWrite {m : Outgoing} (hm : m.announces = none) (d : ConnId) (s : Server) :
    (s.startWrite d m).progress c = s.progress c := by
  simp [progress, told_startWrite, hm]

theorem progress_continueWith (d : ConnId) (rest : Continuation) (s : Server) :
    (s.continueWith d rest).progress c =
      ⟨s.core.asked c + if d = c ∧ rest.awaits.isSome then 1 else 0,
        s.core.registering c + if d = c ∧ rest = .notifyFilesRegistration then 1 else 0,
        s.told c⟩ := by
  simp [progress, Core.asked, Core.registering, core, continueWith, told, List.countP_append,
    List.countP_singleton, Nat.add_assoc]

theorem deaf_progress (c : ConnId) : Deaf (progress c) where
  notification _ d s := progress_startWrite rfl d s
  registry _ _ := rfl
  closing d _ _ s := by
    rw [progress_continueWith]
    simp [progress, Continuation.awaits]

/-- What leaves the core alone and says nothing leaves the progress alone. -/
theorem progress_congr {s s' : Server} (hcore : s'.core = s.core) (htold : s'.told c = s.told c) :
    s'.progress c = s.progress c := by
  rw [progress, progress, hcore, htold]

/-! ## The download side -/

theorem told_answer {m : Outgoing} (hm : m.announces = none) (d : ConnId) (ticket : Nat)
    (s : Server) : (s.answer d ticket m).told c = s.told c := by
  have hwrite : (s.answer d ticket m).told c = (s.startWrite d m).told c := rfl
  simp [hwrite, told_startWrite, hm]

theorem told_denyDownload (r : DownloadRequest) (s : Server) :
    (s.denyDownload r).told c = s.told c := told_answer rfl ..

theorem told_deliverFileFromLocalStorage (cfg : Config) (env : FileEnv) (path : Str)
    (r : DownloadRequest) (s : Server) :
    (s.deliverFileFromLocalStorage cfg env path r).told c = s.told c := by
  unfold deliverFileFromLocalStorage
  split
  · exact told_answer rfl ..
  · exact told_denyDownload ..

theorem told_forEachAndRemove {f : DownloadRequest → Server → Server}
    (hf : ∀ r s, (f r s).told c = s.told c) (id : Nat) (s : Server) :
    (s.forEachAndRemove id f).told c = s.told c := by
  unfold forEachAndRemove
  split
  · rfl
  · next entry _ => exact Blind.foldl hf entry.info.requests s

theorem told_resolveDownloadFileQuerry (cfg : Config) (env : FileEnv) (d : ConnId)
    (id owner path ssl compressions : Str) (s : Server) :
    (s.resolveDownloadFileQuerry cfg env d id owner path ssl compressions).told c = s.told c := by
  unfold resolveDownloadFileQuerry
  dsimp only
  split
  · exact told_answer rfl ..
  · split
    · exact told_denyDownload ..
    · exact told_deliverFileFromLocalStorage ..
    · next o _ =>
      split
      · rfl
      · calc _ = (s.startWrite o (.downloadQuerry _ path)).told c := rfl
          _ = s.told c := by simp [told_startWrite, Outgoing.announces]

theorem told_beginDownloadTransaction (cfg : Config) (env : FileEnv) (d : ConnId) (id : Nat)
    (compression : Compression) (info : DownloadInfo) (s : Server) :
    (s.beginDownloadTransaction cfg env d id compression info).1.told c = s.told c := by
  unfold beginDownloadTransaction notifyFileDownload
  dsimp only
  split
  · rfl
  · split
    · exact told_forEachAndRemove told_denyDownload id _
    · split
      · simp only [told_startWrite, Outgoing.announces, Option.toList_none, ite_self,
          List.append_nil]
        rfl
      · rfl

theorem told_resolveDownloadReply (cfg : Config) (env : FileEnv) (d : ConnId) (m : Message)
    (s : Server) : (s.resolveDownloadReply cfg env d m).1.told c = s.told c := by
  unfold resolveDownloadReply
  split
  · rfl
  · dsimp only
    split
    · rfl
    · split
      · rfl
      · split
        · rfl
        · exact told_beginDownloadTransaction ..

theorem told_endDownloadTransaction (cfg : Config) (id : Nat) (s : Server) :
    (s.endDownloadTransaction cfg id).told c = s.told c := by
  unfold endDownloadTransaction
  split <;> rfl

theorem told_transferCompleted (cfg : Config) (env : FileEnv) (id : Nat)
    (handler : CompletionHandler) (success : Bool) (s : Server) :
    (s.transferCompleted cfg env id handler success).told c = s.told c := by
  have hcached : (s.setFileToCached cfg handler.fileOwner handler.filePath).told c = s.told c := by
    unfold setFileToCached
    split <;> rfl
  unfold transferCompleted
  split
  · dsimp only
    split
    · exact hcached
    · rw [told_endDownloadTransaction]
      exact (told_forEachAndRemove (told_deliverFileFromLocalStorage cfg env _) id _).trans hcached
  · rw [told_endDownloadTransaction]
    exact told_forEachAndRemove told_denyDownload id s

end Server

/-! ## Requests -/

/-- What carrying out a request of `d` does to the progress of `c`. -/
inductive Carried (c d : ConnId) (request : Request) (p : Progress) : Progress → Prop
  | done : Carried c d request p p
  | goesOn : d = c → request.command.movesState = true →
      Carried c d request p { p with asked := p.asked + 1 }
  | pushed : d = c → request.command = .PUSH_FILES →
      Carried c d request p ⟨p.asked, p.registering + 1, p.told ++ [.push_files]⟩

namespace Server

variable {c : ConnId}

/-- A login goes on in a handler. -/
theorem carried_continueWith {d : ConnId} {request : Request} {rest : Continuation}
    (hmoves : request.command.movesState = true) (hrest : rest.awaits.isSome = true) (s : Server) :
    Carried c d request (s.progress c) ((s.continueWith d rest).progress c) := by
  have hnot : rest ≠ .notifyFilesRegistration := by
    rintro rfl
    cases hrest
  rw [progress_continueWith]
  simp only [hnot, and_false, if_false, hrest, and_true, Nat.add_zero]
  split
  · next hdc => exact .goesOn hdc hmoves
  · exact .done

theorem carried_executeRequest {cfg : Config} {dbFails : Bool} {env : FileEnv} {d : ConnId}
    {request : Request} {s s' : Server} (h : s.executeRequest cfg dbFails env d request = some s') :
    Carried c d request (s.progress c) (s'.progress c) := by
  have same : ∀ {s' : Server}, s'.progress c = s.progress c →
      Carried c d request (s.progress c) (s'.progress c) := fun heq => heq ▸ .done
  have refused : ∀ {code : Response} {requestID : Str},
      (Outgoing.reply code requestID).announces = none →
      Carried c d request (s.progress c) ((s.writeReply code requestID d).progress c) :=
    fun hm => same (progress_startWrite hm d s)
  -- the tree was changed, the client is told and the others will be
  have changed : ∀ {code : Response} {requestID : Str} {rest : Continuation} (root : Node Char),
      (Outgoing.reply code requestID).announces = none → rest.awaits = none →
      rest ≠ .notifyFilesRegistration → Carried c d request (s.progress c)
        ((({ s with tree := Function.update s.tree d root }.writeReply code requestID d
          ).continueWith d rest).progress c) := by
    intro code requestID rest root hm hawaits hrest
    have hwritten : ({ s with tree := Function.update s.tree d root }.writeReply code requestID d
        ).progress c = s.progress c := progress_startWrite hm d _
    refine same ((progress_continueWith d rest _).trans (Eq.trans ?_ hwritten))
    simp [hawaits, hrest, progress]
  cases request with
  | signin requestID login password =>
    obtain rfl := Option.some.inj h
    unfold doSignin
    split
    · exact carried_continueWith rfl rfl s
    all_goals exact refused rfl
  | signup requestID login password =>
    obtain rfl := Option.some.inj h
    unfold doSignup
    split
    · exact refused rfl
    · split
      · exact refused rfl
      · exact carried_continueWith rfl rfl { s with users := (login, password) :: s.users }
  | pushFiles requestID paths =>
    obtain ⟨root, -, rfl⟩ := Option.map_eq_some_iff.mp h
    rw [progress_continueWith, writeReply, told_startWrite]
    rcases eq_or_ne d c with rfl | hdc
    · have hpushed : ∀ p : Progress, Carried d d (.pushFiles requestID paths) p
          ⟨p.asked, p.registering + 1, p.told ++ [.push_files]⟩ := fun _ => .pushed rfl rfl
      simp only [true_and, if_true]
      exact hpushed (s.progress d)
    · simp only [hdc, false_and, if_false, List.append_nil, Nat.add_zero]
      exact .done
  | deleteAccount requestID =>
    obtain rfl := Option.some.inj h
    unfold doDeleteAccount
    dsimp only
    split
    · exact refused rfl
    · split
      · exact same (progress_startWrite (m := .reply .DELETING_ACCOUNT_SUCCESSFULL requestID) rfl d
          { s with users := s.users.filter fun u => u.1 ≠ s.registry.nickname d })
      · exact refused rfl
  | logout =>
    obtain rfl := Option.some.inj h
    exact same ((deaf_progress c).stop d s)
  | downloadFile requestID owner path ssl compressions =>
    obtain rfl := Option.some.inj h
    exact same (progress_congr (blind_core.resolveDownloadFileQuerry ..)
      (told_resolveDownloadFileQuerry ..))
  | addFile requestID fileName =>
    obtain ⟨root, -, rfl⟩ := Option.map_eq_some_iff.mp h
    exact changed root rfl rfl (by simp)
  | removePath requestID pathName =>
    obtain rfl := Option.some.inj h
    unfold doRemovePath
    split
    split
    · exact changed _ rfl rfl (by simp)
    · exact refused rfl
  | renamePath requestID old new =>
    obtain rfl := Option.some.inj h
    unfold doRemamePath
    split
    split
    · exact changed _ rfl rfl (by simp)
    · exact refused rfl

/-- A task leaves the queue. -/
theorem progress_eraseTask {s : Server} {i : Nat} {t : Task} (ht : s.tasks[i]? = some t) :
    s.progress c = { ({ s with tasks := s.tasks.eraseIdx i } : Server).progress c with
      asked := (({ s with tasks := s.tasks.eraseIdx i } : Server).progress c).asked +
        if t.conn = c ∧ t.request.command.movesState then 1 else 0 } := by
  have hcount := countP_eraseIdx
    (p := fun t => decide (t.conn = c ∧ t.request.command.movesState)) ht
  simp only [decide_eq_true_eq] at hcount
  simp only [progress, Core.asked, core, hcount, Progress.mk.injEq]
  exact ⟨by omega, rfl, rfl⟩

/-- A handler ends or goes on. -/
theorem progress_eraseRunning {s : Server} {i : Nat} {h : Running} (hi : s.running[i]? = some h) :
    s.progress c =
      ⟨(({ s with running := s.running.eraseIdx i } : Server).progress c).asked +
          if h.conn = c ∧ h.rest.awaits.isSome then 1 else 0,
        (({ s with running := s.running.eraseIdx i } : Server).progress c).registering +
          if h.conn = c ∧ h.rest = .notifyFilesRegistration then 1 else 0, s.told c⟩ := by
  have hasked := countP_eraseIdx
    (p := fun h => decide (h.conn = c ∧ h.rest.awaits.isSome)) hi
  have hregistering := countP_eraseIdx
    (p := fun h => decide (h.conn = c ∧ h.rest = .notifyFilesRegistration)) hi
  simp only [decide_eq_true_eq] at hasked hregistering
  simp only [progress, Core.asked, Core.registering, core, hasked, hregistering,
    Progress.mk.injEq, and_true]
  omega

/-! ## Steps -/

/-- A worker takes a task. -/
theorem advances_execute {cfg : Config} {s s' : Server} {i : Nat} {dbFails : Bool} {env : FileEnv}
    (hadmitted : s.core.Admitted) (h : s.step cfg (.execute i dbFails env) = some s') :
    Advances (s.progress c) (s.registry.state c) (s'.progress c) (s.registry.state c) := by
  obtain ⟨-, hexecute⟩ := Option.ite_none_left_eq_some.mp h
  obtain ⟨t, ht, hrest⟩ := Option.bind_eq_some_iff.mp hexecute
  have herased := progress_eraseTask (c := c) ht
  dsimp only at hrest
  generalize ({ s with tasks := s.tasks.eraseIdx i } : Server) = u at hrest herased
  have hcarried : Carried c t.conn t.request (u.progress c) (s'.progress c) := by
    split at hrest
    · exact carried_executeRequest hrest
    · obtain rfl := Option.some.inj hrest
      exact .done
  generalize s'.progress c = p' at hcarried
  have hcounted : t.conn = c → t.request.command.movesState = true →
      (s.progress c).asked = (u.progress c).asked + 1 := fun hconn hmoves => by
    rw [herased]
    simp [hconn, hmoves]
  have hsame : (s.progress c).registering = (u.progress c).registering ∧
      (s.progress c).told = (u.progress c).told := by
    rw [herased]
    exact ⟨rfl, rfl⟩
  cases hcarried with
  | done =>
    split at herased
    · rw [herased]
      exact .drop rfl
    · rw [herased]
      exact .same
  | goesOn hconn hmoves =>
    rw [← hcounted hconn hmoves, ← hsame.1, ← hsame.2]
    exact .same
  | pushed hconn hcommand =>
    -- a queued request is admitted by the state of its client
    have hlogged : s.registry.state c = .logged := by
      have hvalid := hadmitted t.conn t.request.command
        (Core.mem_pendingCommands.mpr (.inl ⟨t, List.mem_of_getElem? ht, rfl, rfl⟩))
      rw [hcommand, hconn] at hvalid
      cases hst : s.core.registry.state c with
      | logged => exact hst
      | _ => simp [hst, transitionValidate] at hvalid
    rw [← hsame.1, ← hsame.2]
    exact .push (hcounted hconn (by rw [hcommand]; rfl)) hlogged

/-- The code of a reply that confirms or refuses a message announces nothing. -/
theorem announces_of_quiet {code : Response} {requestID : Str}
    (h : Quiet (.reply code requestID)) : (Outgoing.reply code requestID).announces = none := by
  have hconcludes := (h requestID).2
  cases code <;> first | rfl | simp [Outgoing.concludes, Response.concludes] at hconcludes

/-- Reading a request that passes the validators. -/
theorem advances_post {cfg : Config} {s : Server} {d : ConnId} {m : Message} {code : Response}
    (hconfirm : confirm m.command = some code)
    (hfollows : ∀ event ∈ m.command.asksFor, s.MayAsk d event) :
    Advances (s.progress c) (s.registry.state c)
      (({ s.writeReply code (m.header .CommandId) d with
        tasks := s.tasks ++ messageTasks cfg d m } : Server).progress c) (s.registry.state c) := by
  have hsilent : (Outgoing.reply code (m.header .CommandId)).announces = none := by
    cases hcommand : m.command <;> rw [hcommand] at hconfirm <;> cases hconfirm <;> rfl
  have hposted : (({ s.writeReply code (m.header .CommandId) d with
      tasks := s.tasks ++ messageTasks cfg d m } : Server).progress c) =
      { s.progress c with
        asked := (s.progress c).asked +
          (messageTasks cfg d m).countP (fun t => t.conn = c ∧ t.request.command.movesState) } := by
    have htold : (s.writeReply code (m.header .CommandId) d).told c = s.told c := by
      rw [writeReply, told_startWrite, hsilent]
      simp
    simp only [progress, Core.asked, core, List.countP_append, Progress.mk.injEq]
    exact ⟨by simp only [writeReply, startWrite]; omega, rfl, htold⟩
  rw [hposted]
  cases hevent : m.command.asksFor with
  | none =>
    have hnone : (messageTasks cfg d m).countP
        (fun t => t.conn = c ∧ t.request.command.movesState) = 0 := by
      refine List.countP_eq_zero.mpr fun t ht hcounted => ?_
      have hmoves := (of_decide_eq_true hcounted).2
      rw [(command_of_mem_messageTasks ht).2] at hmoves
      cases hcommand : m.command <;> simp_all [Command.asksFor, Command.movesState]
    rw [hnone]
    exact .same
  | some event =>
    have hmoves : m.command.movesState = true := by
      cases hcommand : m.command <;> simp_all [Command.asksFor, Command.movesState]
    have hone : (messageTasks cfg d m).length = 1 :=
      length_messageTasks hconfirm (by rintro hquerry; simp [hquerry, Command.asksFor] at hevent)
    rcases eq_or_ne d c with rfl | hdc
    · have hall : (messageTasks cfg d m).countP
          (fun t => t.conn = d ∧ t.request.command.movesState) = 1 := by
        refine (List.countP_eq_length.mpr fun t ht => ?_).trans hone
        obtain ⟨hconn, hcommand⟩ := command_of_mem_messageTasks ht
        exact decide_eq_true ⟨hconn, by rw [hcommand, hmoves]⟩
      rw [hall]
      obtain ⟨hasked, hview⟩ := hfollows event hevent
      exact .ask hevent hasked hview
    · have hnone : (messageTasks cfg d m).countP
          (fun t => t.conn = c ∧ t.request.command.movesState) = 0 := by
        refine List.countP_eq_zero.mpr fun t ht hcounted => hdc ?_
        exact (command_of_mem_messageTasks ht).1.symm.trans (of_decide_eq_true hcounted).1
      rw [hnone]
      exact .same

end Server

/-- Nothing that is queued or running moves the state of a client for which nothing is counted. -/
theorem Core.movesState_of_zero {k : Core} {c : ConnId} (hasked : k.asked c = 0)
    (hregistering : k.registering c = 0) :
    ∀ command ∈ k.pendingCommands c, command.movesState = false := by
  obtain ⟨htasks, hhandlers⟩ := Nat.add_eq_zero_iff.mp hasked
  intro command hcommand
  rcases mem_pendingCommands.mp hcommand with ⟨t, ht, hconn, rfl⟩ | ⟨r, hr, hconn, hrest⟩
  · simpa [hconn] using List.countP_eq_zero.mp htasks t ht
  · have hanswered := List.countP_eq_zero.mp hhandlers r hr
    have hregistered := List.countP_eq_zero.mp hregistering r hr
    obtain ⟨d, rest⟩ := r
    cases rest <;> simp_all [Continuation.awaits, Continuation.command] <;> subst hrest <;> rfl

/-- A handler that would store a login without announcing it. -/
def Continuation.Unannounced : Continuation → Prop
  | .storeLogin code requestID _ =>
    ∀ event ∈ (Outgoing.reply code requestID).announces, clientMsm true .Connected event = none
  | _ => False

/-- No running handler stores a login without announcing it. -/
def Core.Announcing (k : Core) : Prop :=
  k.Tracks (fun _ => False) Continuation.Unannounced fun _ => False

theorem Core.Announcing.step {cfg : Config} {k k' : Core} {e : Event} (h : k.Announcing)
    (hstep : CoreStep cfg k e k') : k'.Announcing := by
  refine Tracks.step h hstep (fun _ hf => hf) (fun _ _ _ _ hf => hf)
    (fun rest r hfollows hrest => ?_) (fun _ _ hrest => ?_) fun _ _ hrest => hrest
  · cases rest <;> cases r <;>
      simp_all [Continuation.Follows, Continuation.Unannounced, Outgoing.announces, clientMsm]
  · simp [Continuation.Unannounced, Outgoing.announces, clientMsm] at hrest

namespace Server

variable {c : ConnId}

/-- The reply that a handler stores a login with leads from the first state to the second. -/
theorem announcedLogin {code : Response} {requestID login : Str}
    (h : ¬ (Continuation.storeLogin code requestID login).Unannounced) :
    ∃ event, (Outgoing.reply code requestID).announces = some event ∧
      clientMsm true .Connected event = some .Logged := by
  simp only [Continuation.Unannounced, not_forall] at h
  obtain ⟨event, hevent, hlogin⟩ := h
  refine ⟨event, hevent, ?_⟩
  cases code <;> cases hevent <;> first | rfl | exact absurd rfl hlogin

/-- A handler that stores a login runs in the first state. -/
theorem connected_of_storeLogin {s : Server} (hadmitted : s.core.Admitted) {d : ConnId}
    {code : Response} {requestID login : Str}
    (hr : ⟨d, .storeLogin code requestID login⟩ ∈ s.running) :
    s.registry.state d = .connected := by
  have hvalid := hadmitted.handler hr rfl
  cases hst : s.core.registry.state d with
  | connected => exact hst
  | _ =>
    rw [hst] at hvalid
    split at hvalid <;> simp [transitionValidate] at hvalid

/-- The next section of a handler. -/
theorem advances_resumeHandler {cfg : Config} {s : Server} {i : Nat} {h : Running}
    (hadmitted : s.core.Admitted) (hannounced : ¬ h.rest.Unannounced)
    (hi : s.running[i]? = some h) :
    Advances (s.progress c) (s.registry.state c)
      (({ s with running := s.running.eraseIdx i }.resumeHandler cfg h.conn h.rest).progress c)
      (({ s with running := s.running.eraseIdx i }.resumeHandler cfg h.conn h.rest
        ).registry.state c) := by
  obtain ⟨d, rest⟩ := h
  have hcore : CoreStep cfg s.core (.resume i)
      ({ s with running := s.running.eraseIdx i }.resumeHandler cfg d rest).core :=
    core_resumeHandler hi
  have herased := progress_eraseRunning (c := c) hi
  generalize hu : ({ s with running := s.running.eraseIdx i } : Server) = u at hcore herased ⊢
  have hregistry : u.registry = s.registry := by rw [← hu]
  have htold : u.told c = s.told c := by rw [← hu]; rfl
  have hkept : rest.target = none →
      (u.resumeHandler cfg d rest).registry.state c = s.registry.state c := by
    intro htarget
    rcases Core.state_step hcore with hst | ⟨j, r, st, hj, hr, hsome, -⟩
    · exact congrFun hst c
    · obtain rfl := Event.resume.inj hj
      obtain rfl := Option.some.inj (hi.symm.trans hr)
      rw [htarget] at hsome
      cases hsome
  -- a section of a handler that neither asks nor registers
  have quiet : rest.awaits = none → rest ≠ .notifyFilesRegistration → rest.target = none →
      (u.resumeHandler cfg d rest).progress c = u.progress c →
      Advances (s.progress c) (s.registry.state c) ((u.resumeHandler cfg d rest).progress c)
        ((u.resumeHandler cfg d rest).registry.state c) := by
    intro hawaits hrest htarget hprogress
    have hsame : s.progress c = u.progress c := by
      rw [herased]
      simp [hawaits, hrest, progress, htold]
    rw [hkept htarget, hprogress, ← hsame]
    exact .same
  cases rest with
  | isLogged requestID login =>
    rw [hkept rfl]
    simp only [resumeHandler]
    split
    · have hrefused : (u.writeReply .USER_ALREADY_LOGGED requestID d).progress c = u.progress c :=
        progress_startWrite rfl d u
      rw [hrefused, herased, ← htold]
      simp only [reduceCtorEq, and_false, if_false, Nat.add_zero]
      split
      · exact .drop rfl
      · exact .same
    · rw [progress_continueWith, herased, ← htold]
      simp only [reduceCtorEq, and_false, if_false]
      exact .same
  | storeLogin code requestID login =>
    have hstored : (u.resumeHandler cfg d (.storeLogin code requestID login)).progress c =
        ⟨(u.progress c).asked, (u.progress c).registering, (u.progress c).told ++
          if d = c then (Outgoing.reply code requestID).announces.toList else []⟩ := by
      simp only [resumeHandler, writeReply, progress, told_startWrite]
      rfl
    have hstate : (u.resumeHandler cfg d (.storeLogin code requestID login)).registry.state c =
        Function.update s.registry.state d .logged c := by
      rw [← hregistry]
      rfl
    rw [hstored, hstate]
    rcases eq_or_ne d c with rfl | hdc
    · have hasked : s.progress d = { u.progress d with asked := (u.progress d).asked + 1 } := by
        rw [herased, ← htold]
        simp [Continuation.awaits, progress]
      obtain ⟨event, hevent, hlogin⟩ := announcedLogin hannounced
      rw [hasked, hevent, Function.update_self, if_pos rfl]
      exact .login rfl (connected_of_storeLogin hadmitted (List.mem_of_getElem? hi)) hlogin
    · have hsame : s.progress c = u.progress c := by
        rw [herased, ← htold]
        simp [hdc, progress]
      rw [hsame, if_neg hdc, List.append_nil, Function.update_of_ne hdc.symm]
      exact .same
  | notifyFilesRegistration =>
    have hprogress : (u.resumeHandler cfg d .notifyFilesRegistration).progress c = u.progress c :=
      (deaf_progress c).notifyFilesRegistration cfg d u
    obtain ⟨n, hn⟩ := core_notifyFilesRegistration cfg d u
    have hstate : (u.resumeHandler cfg d .notifyFilesRegistration).registry.state =
        Function.update s.registry.state d .processing := by
      rw [← hregistry]
      exact (congrArg (fun k => k.registry.state) hn).trans (Registry.state_register ..)
    rw [hprogress, hstate]
    rcases eq_or_ne d c with rfl | hdc
    · have hregistering : s.progress d =
          { u.progress d with registering := (u.progress d).registering + 1 } := by
        rw [herased, ← htold]
        simp [Continuation.awaits, progress]
      rw [hregistering, Function.update_self]
      exact .register rfl
    · have hsame : s.progress c = u.progress c := by
        rw [herased, ← htold]
        simp [hdc, progress]
      rw [hsame, Function.update_of_ne hdc.symm]
      exact .same
  | notifyFileAdd fileName => exact quiet rfl (by simp) rfl ((deaf_progress c).doNotify ..)
  | notifyPathRemoved filePath => exact quiet rfl (by simp) rfl ((deaf_progress c).doNotify ..)
  | notifyPathRenamed old new => exact quiet rfl (by simp) rfl ((deaf_progress c).doNotify ..)
  | notifyDisconnection st nickname =>
    exact quiet rfl (by simp) rfl ((deaf_progress c).notifyDisconnection ..)

/-- Every step of the server advances each of its clients, if the client that sends a message
follows the machine. -/
theorem advances_of_step {cfg : Config} {s s' : Server} {e : Event}
    (hadmitted : s.core.Admitted) (hannouncing : s.core.Announcing) (hfollows : s.FollowsMachine e)
    (h : s.step cfg e = some s') :
    Advances (s.progress c) (s.registry.state c) (s'.progress c) (s'.registry.state c) := by
  have hstate : (∀ i, e ≠ .resume i) → s'.registry.state c = s.registry.state c := fun hother => by
    rcases Core.state_step (step_core h) with hst | ⟨i, -, -, rfl, -⟩
    · exact congrFun hst c
    · exact absurd rfl (hother i)
  have same : (∀ i, e ≠ .resume i) → s'.progress c = s.progress c →
      Advances (s.progress c) (s.registry.state c) (s'.progress c) (s'.registry.state c) :=
    fun hother heq => by
      rw [hstate hother, heq]
      exact .same
  cases transition_of_step h with
  | accept => exact .same
  | heartbeat => exact same (by simp) (progress_startWrite rfl _ s)
  | refuse _ herror =>
    exact same (by simp) (progress_startWrite (announces_of_quiet (quiet_of_readError herror)) _ s)
  | reply =>
    exact same (by simp) (progress_congr (blind_core.resolveDownloadReply ..)
      (told_resolveDownloadReply ..))
  | post _ _ hconfirm => exact advances_post hconfirm hfollows
  | execute | expired =>
    rw [hstate (by simp)]
    exact advances_execute hadmitted h
  | resume hi =>
    exact advances_resumeHandler hadmitted
      (fun hrest => hannouncing.running _ (List.mem_of_getElem? hi) hrest) hi
  | stop => exact same (by simp) ((deaf_progress c).stop ..)
  | sharedWrite => exact same (by simp) ((deaf_progress c).sharedWriteCompleted ..)
  | @backupTimer id =>
    exact same (by simp) (progress_congr (blind_core.backupTimerExpired id s)
      (told_forEachAndRemove told_denyDownload id s))
  | @transactionTimer id =>
    refine same (by simp) (progress_congr (blind_core.transactionTimerExpired cfg id s) ?_)
    rw [transactionTimerExpired, told_endDownloadTransaction]
    exact told_forEachAndRemove told_denyDownload id _
  | helloSender id =>
    refine same (by simp) ?_
    unfold tryStartDownloadTransaction
    split <;> rfl
  | transferCompleted success env =>
    exact same (by simp) (progress_congr (blind_core.transferCompleted ..)
      (told_transferCompleted ..))
  | uploadCompleted id =>
    refine same (by simp) ?_
    unfold endUploadTransaction
    split <;> rfl

/-! ## Whole runs -/

/-- A handler that moves the state of its client is the only request of it that does. -/
theorem movesAlone_of_inStep {s : Server} (h : ∀ c, (s.progress c).InStep (s.registry.state c))
    (e : Event) : s.core.MovesAlone e := by
  rintro i rfl ⟨d, rest⟩ hr htarget
  have halone := (h d).alone
  rw [progress_eraseRunning (c := d) hr] at halone
  dsimp only at halone
  have hcounted : 1 ≤ (if d = d ∧ rest.awaits.isSome then 1 else 0) +
      if d = d ∧ rest = .notifyFilesRegistration then 1 else 0 := by
    cases rest <;> simp_all [Continuation.target, Continuation.awaits]
  have hasked : (({ s with running := s.running.eraseIdx i } : Server).progress d).asked = 0 := by
    omega
  have hregistering :
      (({ s with running := s.running.eraseIdx i } : Server).progress d).registering = 0 := by
    omega
  exact Core.movesState_of_zero hasked hregistering

/-- What every run of clients that follow the machine keeps. -/
structure Followed (s : Server) : Prop where
  admitted : s.core.Admitted
  announcing : s.core.Announcing
  clients : ∀ c, (s.progress c).InStep (s.registry.state c)

theorem followed_initial (cfg : Config) (users : List (Str × Str)) :
    (Server.initial cfg users).Followed where
  admitted := Core.admitted_initial cfg users
  announcing := ⟨fun _ h => absurd h List.not_mem_nil, fun _ h => absurd h List.not_mem_nil⟩
  clients _ := ⟨Nat.zero_le 1, rfl, fun h => absurd rfl h⟩

theorem Followed.step {cfg : Config} {s s' : Server} {e : Event} (h : s.Followed)
    (hfollows : s.FollowsMachine e) (hstep : s.step cfg e = some s') : s'.Followed where
  admitted := h.admitted.step (movesAlone_of_inStep h.clients e) (step_core hstep)
  announcing := h.announcing.step (step_core hstep)
  clients c := (h.clients c).advance
    (advances_of_step h.admitted h.announcing hfollows hstep)

end Server

/-- In every run in which the clients follow the declared machine, for every client: its view is
the state in which the server has it, or it was told of a registration that is under way; each
request of it that is queued and each handler that runs is admitted by that state; and no
command that it may send is refused for that state. -/
theorem clients_in_step {cfg : Config} {users : List (Str × Str)} {s : Server}
    (h : Reach (Server.step cfg) Server.FollowsMachine (Server.initial cfg users) s) (c : ConnId) :
    (s.view c = some (s.registry.state c).declared ∨
      s.view c = some .Running ∧ s.registry.state c = .logged ∧
        ⟨c, .notifyFilesRegistration⟩ ∈ s.running) ∧
    (∀ command ∈ s.core.pendingCommands c,
      transitionValidate command (s.registry.state c) = none) ∧
    ∀ command event, command.asksFor = some event → s.MayAsk c event →
      transitionValidate command (s.registry.state c) = none := by
  have hfollowed : s.Followed := h.invariant (Server.followed_initial cfg users)
    fun _ _ _ hs hfollows hstep => hs.step hfollows hstep
  have hclient := hfollowed.clients c
  have hview : s.view c = some (if (s.progress c).registering = 0 then
      (s.registry.state c).declared else .Running) := hclient.view
  refine ⟨?_, hfollowed.admitted c, fun command event hevent hmay => ?_⟩
  · split at hview
    · exact .inl hview
    · next hregistering =>
      obtain ⟨r, hr, hcounted⟩ := List.countP_pos_iff.mp (Nat.pos_of_ne_zero hregistering)
      obtain ⟨rfl, hrest⟩ := of_decide_eq_true hcounted
      exact .inr ⟨hview, hclient.logged hregistering, hrest ▸ hr⟩
  · have hallowed := hmay.2
    rw [hview, Option.bind_some] at hallowed
    split at hallowed
    · cases hst : s.registry.state c <;> cases command <;> cases hevent <;>
        simp_all [ClientState.declared, clientMsm, transitionValidate]
    · rw [Command.clientMsm_running hevent] at hallowed
      cases hallowed

open Server.Event in
/-- A client that was told of its registration is still logged on the server. -/
theorem clients_in_step_while_registering :
    ∃ s, Reach (Server.step sampleConfig) Server.FollowsMachine
        (Server.initial sampleConfig []) s ∧
      s.view 0 = some .Running ∧ s.registry.state 0 = .logged ∧
      (s.view 0 = some (s.registry.state 0).declared ∨
        s.view 0 = some .Running ∧ s.registry.state 0 = .logged ∧
          ⟨0, .notifyFilesRegistration⟩ ∈ s.running) := by
  obtain ⟨s, hs, hview, hstate⟩ := exists_reach_of_exec_guarded (Server.step sampleConfig)
    Server.FollowsMachine (Server.initial sampleConfig [])
    (fun s => s.view 0 = some .Running ∧ s.registry.state 0 = .logged)
    ([.accept 0] ++ login 0 ['a'] ++ [readPushFiles 0 [['f']], executeFirst]) (by decide +kernel)
  exact ⟨s, hs, hview, hstate, (clients_in_step hs 0).1⟩

end FspServer
