import FspServer.RequiredHeaders

/-!
# The routes of a message

`readEffects` is what `read_action` does, in order: the messages it writes, the
reply it resolves and the tasks it posts. `readAction_eq_perform` connects it to
the state of the server. A message should take exactly one `Route`, and an
acceptance should post exactly one task.

* All validated commands are confirmed and posted once, except for a query: no
  validator looks at its type, and `resolve_querry` has no branch for a type that
  is none of its four.
* `dispatches_iff` says that these queries are the only exception, together with
  those whose type is the text of two of the four constants.
-/

namespace FspServer

/-- What `read_action` does to the rest of the server. -/
inductive ReadEffect where
  | write (message : Outgoing)
  | resolveDownloadReply
  | post (task : Task)
deriving DecidableEq, Repr

inductive Route where
  | heartbeatEcho
  | errorReply
  | replyResolution
  | acceptance
deriving DecidableEq, Repr

/-- The codes of `confirmator::confirm`. -/
def Response.IsAcceptance (code : Response) : Prop := ∃ command, confirm command = some code

namespace Server

/-- The effects of `read_action`; `none` where a null confirmation would be written. -/
def readEffects (cfg : Config) (c : ConnId) (m : Message) (s : Server) :
    Option (List ReadEffect) :=
  if m.command = .HEARTBEAT then some [.write .heartbeat]
  else match s.readError cfg c m with
    | some (code, requestID) => some [.write (.reply code requestID)]
    | none =>
      if m.command = .REPLY then some [.resolveDownloadReply]
      else (confirm m.command).map fun code =>
        .write (.reply code (m.header .CommandId)) :: (messageTasks cfg c m).map .post

/-- One effect. -/
def performEffect (cfg : Config) (env : FileEnv) (c : ConnId) (m : Message) (s : Server) :
    ReadEffect → Server × Exit
  | .write message => (s.startWrite c message, .returned)
  | .resolveDownloadReply => s.resolveDownloadReply cfg env c m
  | .post task => ({ s with tasks := s.tasks ++ [task] }, .returned)

/-- The effects in order, up to one that ends with an exception. -/
def perform (cfg : Config) (env : FileEnv) (c : ConnId) (m : Message) :
    Server → List ReadEffect → Server × Exit
  | s, [] => (s, .returned)
  | s, e :: es =>
    match s.performEffect cfg env c m e with
    | (s', .returned) => perform cfg env c m s' es
    | (s', .raised) => (s', .raised)

/-- The message takes the route when its effects are `effects`. -/
def Takes (cfg : Config) (c : ConnId) (m : Message) (s : Server) (effects : List ReadEffect) :
    Route → Prop
  | .heartbeatEcho => m.command = .HEARTBEAT ∧ effects = [.write .heartbeat]
  | .errorReply => ∃ code requestID, s.readError cfg c m = some (code, requestID) ∧
      effects = [.write (.reply code requestID)]
  | .replyResolution => m.command = .REPLY ∧ effects = [.resolveDownloadReply]
  | .acceptance => ∃ code task, confirm m.command = some code ∧
      effects = [.write (.reply code (m.header .CommandId)), .post task]

/-- The message takes exactly one route, and is not acknowledged as accepted without
a task. -/
def Dispatches (cfg : Config) (env : FileEnv) (c : ConnId) (m : Message) (s : Server) : Prop :=
  ∃ effects, s.readEffects cfg c m = some effects ∧
    s.readAction cfg env c m = some (s.perform cfg env c m effects) ∧
    (∃! route, s.Takes cfg c m effects route) ∧
    ∀ code requestID, code.IsAcceptance → .write (.reply code requestID) ∈ effects →
      ∃ task, .post task ∈ effects

variable {cfg : Config} {env : FileEnv} {c : ConnId} {m : Message} {s : Server}

/-! ## The effects of a message -/

theorem perform_posts (tasks : List Task) :
    s.perform cfg env c m (tasks.map .post) =
      ({ s with tasks := s.tasks ++ tasks }, .returned) := by
  induction tasks generalizing s with
  | nil => simp [perform]
  | cons task tasks ih => simp [perform, performEffect, ih]

theorem perform_singleton (e : ReadEffect) :
    s.perform cfg env c m [e] = s.performEffect cfg env c m e := by
  simp only [perform]
  split
  · next h => exact h.symm
  · next h => exact h.symm

/-- What `read_action` does to the server are its effects in order. -/
theorem readAction_eq_perform :
    s.readAction cfg env c m = (s.readEffects cfg c m).map (s.perform cfg env c m) := by
  unfold readAction readEffects
  split
  · simp [perform_singleton, performEffect]
  · cases s.readError cfg c m with
    | some error => simp [perform_singleton, performEffect, writeReply]
    | none =>
      dsimp only
      split
      · simp [perform_singleton, performEffect]
      · cases confirm m.command with
        | none => rfl
        | some code => simp [perform, performEffect, perform_posts, writeReply]

theorem readError_eq_none_iff :
    s.readError cfg c m = none ↔
      m.Validated cfg ∧ transitionValidate m.command (s.registry.state c) = none := by
  unfold readError Message.Validated
  cases basicValidate m with
  | some code => simp
  | none =>
    cases transitionValidate m.command (s.registry.state c) with
    | some code => simp
    | none => simp

/-- An error reply is never one of the acceptances. -/
theorem not_isAcceptance_of_readError {code : Response} {requestID : Str}
    (h : s.readError cfg c m = some (code, requestID)) : ¬ code.IsAcceptance := by
  rintro ⟨command, hconfirm⟩
  have hcode : code ∈ [.SIGNIN_CMD_ACCEPTED, .SIGNUP_CMD_ACCEPTED, .DELETE_ACCOUNT_CMD_ACCEPTED,
      .LOGOUT_CMD_ACCEPTED, .PUSH_FILES_CMD_ACCEPTED, .QUERRY_CMD_ACCEPTED] := by
    cases command <;> simp_all [confirm]
  unfold readError at h
  split at h
  · next hbasic =>
    unfold basicValidate at hbasic
    grind
  · split at h
    · next htransition =>
      unfold transitionValidate at htransition
      grind
    · simp only [Option.map_eq_some_iff] at h
      obtain ⟨code', hsemantic, rfl, rfl⟩ := h
      unfold semanticValidate validateAuthentication validatePushFiles validateQuerry at hsemantic
      grind

/-- A query posts one task for each of the four constants that its type is. -/
theorem length_querryTasks :
    (querryTasks cfg c m).length =
      [cfg.DOWNLOAD_FILE, cfg.ADD_FILE, cfg.REMOVE_PATH, cfg.RENAME_PATH].count
        (m.header .QuerryType) := by
  simp only [querryTasks, List.length_append, apply_ite List.length, List.length_cons,
    List.length_nil, List.count_cons, List.count_nil, Nat.zero_add, beq_iff_eq,
    eq_comm (b := m.header _)]
  omega

/-- A confirmed command that is no query posts one task. -/
theorem length_messageTasks {code : Response} (hconfirm : confirm m.command = some code)
    (hquerry : m.command ≠ .QUERRY) : (messageTasks cfg c m).length = 1 := by
  unfold messageTasks
  cases hc : m.command <;> simp_all [confirm]

/-! ## The routes exclude each other -/

theorem Takes.unique {effects : List ReadEffect} {route route' : Route}
    (h : s.Takes cfg c m effects route) (h' : s.Takes cfg c m effects route') : route = route' := by
  cases route <;> cases route' <;> simp only [Takes] at h h' <;> grind

/-- A message that is confirmed takes the route of an acceptance or none. -/
theorem readEffects_confirmed {code : Response} (hread : s.readError cfg c m = none)
    (hconfirm : confirm m.command = some code) :
    s.readEffects cfg c m =
      some (.write (.reply code (m.header .CommandId)) :: (messageTasks cfg c m).map .post) := by
  have hheartbeat : m.command ≠ .HEARTBEAT := by
    rintro h
    simp [h, confirm] at hconfirm
  have hreply : m.command ≠ .REPLY := by
    rintro h
    simp [h, confirm] at hconfirm
  simp [readEffects, hheartbeat, hread, hreply, hconfirm]

/-- A confirmed message is dispatched when it posts exactly one task. -/
theorem dispatches_confirmed_iff {code : Response} (hread : s.readError cfg c m = none)
    (hconfirm : confirm m.command = some code) :
    s.Dispatches cfg env c m ↔ (messageTasks cfg c m).length = 1 := by
  have heffects := readEffects_confirmed hread hconfirm
  constructor
  · rintro ⟨effects, hsome, -, ⟨route, htakes, -⟩, -⟩
    obtain rfl := Option.some.inj (heffects.symm.trans hsome)
    cases route with
    | heartbeatEcho => simp [Takes] at htakes
    | errorReply => simp [Takes, hread] at htakes
    | replyResolution => simp [Takes] at htakes
    | acceptance =>
      obtain ⟨_, task, -, hshape⟩ := htakes
      obtain ⟨-, htasks⟩ := List.cons.inj hshape
      simpa using congrArg List.length htasks
  · intro hlength
    obtain ⟨task, htask⟩ := List.length_eq_one_iff.mp hlength
    rw [htask] at heffects
    refine ⟨_, heffects, by simp [readAction_eq_perform, heffects], ⟨.acceptance,
      ⟨code, task, hconfirm, rfl⟩, fun route h => h.unique ⟨code, task, hconfirm, rfl⟩⟩, ?_⟩
    intro _ _ _ _
    exact ⟨task, by simp⟩

/-- A message with one effect that is no acceptance is dispatched by its route. -/
theorem dispatches_of_takes (e : ReadEffect) (route : Route)
    (heffects : s.readEffects cfg c m = some [e]) (htakes : s.Takes cfg c m [e] route)
    (he : ∀ code requestID, e = .write (.reply code requestID) → ¬ code.IsAcceptance) :
    s.Dispatches cfg env c m := by
  refine ⟨[e], heffects, by simp [readAction_eq_perform, heffects],
    ⟨route, htakes, fun route' h => h.unique htakes⟩, fun code requestID hcode hmem => ?_⟩
  exact absurd hcode (he code requestID (List.mem_singleton.mp hmem).symm)

/-- Every message is dispatched, but for a validated query whose type is not exactly one
of the four types that `resolve_querry` compares it with. -/
theorem dispatches_iff (cfg : Config) (env : FileEnv) (c : ConnId) (m : Message) (s : Server) :
    s.Dispatches cfg env c m ↔
      (m.command = .QUERRY → m.Validated cfg → s.registry.state c = .processing →
        [cfg.DOWNLOAD_FILE, cfg.ADD_FILE, cfg.REMOVE_PATH, cfg.RENAME_PATH].count
          (m.header .QuerryType) = 1) := by
  rcases eq_or_ne m.command .HEARTBEAT with hheartbeat | hheartbeat
  · exact iff_of_true (dispatches_of_takes (.write .heartbeat) .heartbeatEcho
      (by simp [readEffects, hheartbeat]) ⟨hheartbeat, rfl⟩ (by simp)) (by simp [hheartbeat])
  cases hread : s.readError cfg c m with
  | some error =>
    refine iff_of_true (dispatches_of_takes (.write (.reply error.1 error.2)) .errorReply
      (by simp [readEffects, hheartbeat, hread]) ⟨error.1, error.2, hread, rfl⟩ ?_)
      fun hquerry hvalid hstate => ?_
    · rintro code requestID h
      obtain ⟨rfl, rfl⟩ : error.1 = code ∧ error.2 = requestID := by simpa using h
      exact not_isAcceptance_of_readError hread
    · have hnone : s.readError cfg c m = none :=
        readError_eq_none_iff.mpr ⟨hvalid, by simp [hquerry, hstate, transitionValidate]⟩
      cases hread.symm.trans hnone
  | none =>
    obtain ⟨hvalid, htransition⟩ := readError_eq_none_iff.mp hread
    rcases eq_or_ne m.command .REPLY with hreply | hreply
    · exact iff_of_true (dispatches_of_takes .resolveDownloadReply .replyResolution
        (by simp [readEffects, hread, hreply]) ⟨hreply, rfl⟩ (by simp)) (by simp [hreply])
    · obtain ⟨code, hconfirm⟩ := confirm_of_transitionValidate htransition hreply
      rw [dispatches_confirmed_iff hread hconfirm]
      rcases eq_or_ne m.command .QUERRY with hquerry | hquerry
      · have hstate : s.registry.state c = .processing := by
          cases hs : s.registry.state c <;> simp_all [transitionValidate]
        simp [messageTasks, hquerry, hvalid, hstate, length_querryTasks]
      · exact iff_of_true (length_messageTasks hconfirm hquerry) (by simp [hquerry])

open Runs Event in
/-- A client in processing state sends a query of an unknown type: it is answered with
`QUERRY_CMD_ACCEPTED` and nothing is posted. -/
theorem querry_of_unknown_type_accepted :
    ∃ s, Reach (Server.step sampleConfig) anyStep (Server.initial sampleConfig []) s ∧
      ∃ m : Message, m.Validated sampleConfig ∧ s.readEffects sampleConfig 0 m =
        some [.write (.reply .QUERRY_CMD_ACCEPTED ['3'])] ∧
      ¬ s.Dispatches sampleConfig sampleEnv 0 m := by
  obtain ⟨s, hs, hstate⟩ := exists_reach_of_exec (Server.step sampleConfig)
    (Server.initial sampleConfig []) (fun s => s.registry.state 0 = .processing)
    (.accept 0 :: login 0 ['a'] ++ register 0 [['/', 'f']]) (by decide +kernel)
  let m : Message := ⟨.QUERRY, [(.CommandId, ['3']), (.QuerryType, ['x'])], []⟩
  have hvalid : m.Validated sampleConfig := ⟨by decide, by decide⟩
  have hread : s.readError sampleConfig 0 m = none :=
    readError_eq_none_iff.mpr ⟨hvalid, by simp [m, hstate, transitionValidate]⟩
  have htasks : messageTasks sampleConfig 0 m = [] := by decide
  refine ⟨s, hs, m, hvalid, ?_, ?_⟩
  · rw [readEffects_confirmed hread rfl, htasks]
    rfl
  · rw [dispatches_confirmed_iff hread rfl, htasks]
    decide

end Server
end FspServer
