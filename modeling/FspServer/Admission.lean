import FspServer.Connections

/-!
# Requests in the state that admits them

`transition_validator` looks at the state of the client when a message is read;
the handler runs later, from a queue and on another thread. Three commands move
the state: `SIGNIN` and `SIGNUP` to the logged state, `PUSH_FILES` to the
processing state. A request that was admitted before such a move may run after
it.

No handler runs in a state that does not admit its command as long as the moves
are made alone (`Core.MovesAlone`): when the section that moves the state of a
connection runs, no other `SIGNIN`, `SIGNUP` or `PUSH_FILES` of that connection
is queued or running.
-/

namespace FspServer

open Runs Server

/-- The commands whose handlers move the state of the client. -/
def Command.movesState : Command → Bool
  | .SIGNIN | .SIGNUP | .PUSH_FILES => true
  | _ => false

/-- The command whose handler is running. `notify_disconnection` belongs to no
command: a connection is stopped for many reasons. -/
def Continuation.command : Continuation → Option Command
  | .isLogged .. => some .SIGNIN
  | .storeLogin code .. => some (if code = .REGISTERING_SUCCESSFULL then .SIGNUP else .SIGNIN)
  | .notifyFilesRegistration => some .PUSH_FILES
  | .notifyFileAdd _ | .notifyPathRemoved _ | .notifyPathRenamed .. => some .QUERRY
  | .notifyDisconnection .. => none

/-- The state that a section stores. -/
def Continuation.target : Continuation → Option ClientState
  | .storeLogin .. => some .logged
  | .notifyFilesRegistration => some .processing
  | _ => none

/-- The moves that the state of a client may make in one step. -/
inductive ClientState.Moves : ClientState → ClientState → Prop
  | stay (st : ClientState) : Moves st st
  | login : Moves .connected .logged
  | register : Moves .logged .processing

/-- A handler that runs in a state which admits its command makes one of the
moves, and what the old state admits besides such handlers, the new one admits. -/
theorem Continuation.moves_of_target {rest : Continuation} {command : Command}
    {st st' : ClientState} (hcommand : rest.command = some command)
    (htarget : rest.target = some st') (hvalid : transitionValidate command st = none) :
    st.Moves st' ∧ ∀ other : Command, other.movesState = false →
      transitionValidate other st = none → transitionValidate other st' = none := by
  cases rest with
  | storeLogin code id login =>
    obtain rfl : .logged = st' := Option.some.inj htarget
    have hconnected : st = .connected := by
      obtain rfl := Option.some.inj hcommand
      cases st with
      | connected => rfl
      | _ => split at hvalid <;> simp [transitionValidate] at hvalid
    subst hconnected
    refine ⟨.login, fun other hother hold => ?_⟩
    -- the first state admits nothing but logins
    cases other <;> simp_all [transitionValidate, Command.movesState]
  | notifyFilesRegistration =>
    obtain rfl : .processing = st' := Option.some.inj htarget
    obtain rfl : .PUSH_FILES = command := Option.some.inj hcommand
    have hlogged : st = .logged := by
      cases st with
      | logged => rfl
      | _ => simp [transitionValidate] at hvalid
    subst hlogged
    refine ⟨.register, fun other hother hold => ?_⟩
    cases other <;> simp_all [transitionValidate, Command.movesState]
  | _ => simp [Continuation.target] at htarget

namespace Core

/-- The commands of `c` that are queued or whose handler is running. -/
def pendingCommands (k : Core) (c : ConnId) : List Command :=
  (k.tasks.filter fun t => t.conn = c).map (fun t => t.request.command) ++
    (k.running.filter fun h => h.conn = c).filterMap fun h => h.rest.command

theorem mem_pendingCommands {k : Core} {c : ConnId} {command : Command} :
    command ∈ k.pendingCommands c ↔
      (∃ t ∈ k.tasks, t.conn = c ∧ t.request.command = command) ∨
        ∃ h ∈ k.running, h.conn = c ∧ h.rest.command = some command := by
  simp [pendingCommands, and_assoc]

/-- The state of a client is moved while no other request that moves it is
pending. -/
def MovesAlone (k : Core) (e : Event) : Prop :=
  ∀ i, e = .resume i → ∀ h ∈ k.running[i]?, h.rest.target ≠ none →
    ∀ command ∈ (k.eraseRunning i).pendingCommands h.conn, command.movesState = false

instance (k : Core) (e : Event) : Decidable (k.MovesAlone e) :=
  match e with
  | .resume i =>
    decidable_of_iff (∀ h ∈ k.running[i]?, h.rest.target ≠ none →
      ∀ command ∈ (k.eraseRunning i).pendingCommands h.conn, command.movesState = false)
      ⟨fun h j hj => by cases hj; exact h, fun h => h i rfl⟩
  | .accept _ | .read .. | .execute .. | .stop _ | .sharedWrite .. | .backupTimer _ |
    .transactionTimer _ | .helloSender _ | .transferCompleted .. | .uploadCompleted _ =>
    isTrue fun _ h => by cases h

/-- Every pending command is admitted by the current state of its client. -/
def Admitted (k : Core) : Prop :=
  ∀ c, ∀ command ∈ k.pendingCommands c, transitionValidate command (k.registry.state c) = none

/-- The invariant for one command, as a fact about the connections that have a
pending request of that command. -/
theorem admitted_iff_tracks {k : Core} :
    k.Admitted ↔ ∀ command, k.Tracks (fun r => r.command = command)
      (fun rest => rest.command = some command)
      (fun c => transitionValidate command (k.registry.state c) = none) := by
  constructor
  · intro h command
    refine ⟨fun t ht hcommand => ?_, fun r hr hcommand => ?_⟩
    · exact h t.conn command (mem_pendingCommands.mpr (Or.inl ⟨t, ht, rfl, hcommand⟩))
    · exact h r.conn command (mem_pendingCommands.mpr (Or.inr ⟨r, hr, rfl, hcommand⟩))
  · intro h c command hpending
    rcases mem_pendingCommands.mp hpending with ⟨t, ht, rfl, hcommand⟩ | ⟨r, hr, rfl, hcommand⟩
    · exact (h command).tasks t ht hcommand
    · exact (h command).running r hr hcommand

/-- A step changes the state of a client only in the sections that store one. -/
theorem state_step {cfg : Config} {k k' : Core} {e : Event} (hstep : CoreStep cfg k e k') :
    k'.registry.state = k.registry.state ∨
      ∃ i h st, e = .resume i ∧ k.running[i]? = some h ∧ h.rest.target = some st ∧
        k'.tasks = k.tasks ∧ k'.running = k.running.eraseIdx i ∧
        k'.registry.state = Function.update k.registry.state h.conn st := by
  cases hstep with
  | @storeLogin i d code id login hi =>
    exact Or.inr ⟨i, _, .logged, rfl, hi, rfl, rfl, rfl, rfl⟩
  | @register i d n hi =>
    exact Or.inr ⟨i, _, .processing, rfl, hi, rfl, rfl, rfl, Registry.state_register ..⟩
  | notify => exact Or.inl (by simp)
  | disconnect => exact Or.inl (by simp)
  | logout => exact Or.inl (by simp)
  | stop => exact Or.inl (by simp)
  | failWrite => exact Or.inl (by simp [Registry.eraseWrite])
  | _ => exact Or.inl rfl

/-- Every section that stores a state belongs to a command. -/
theorem exists_command_of_target {rest : Continuation} {st : ClientState}
    (h : rest.target = some st) : ∃ command, rest.command = some command := by
  cases rest with
  | storeLogin => exact ⟨_, rfl⟩
  | notifyFilesRegistration => exact ⟨_, rfl⟩
  | _ => simp [Continuation.target] at h

theorem Admitted.handler {k : Core} (h : k.Admitted) {r : Running} (hr : r ∈ k.running)
    {command : Command} (hcommand : r.rest.command = some command) :
    transitionValidate command (k.registry.state r.conn) = none :=
  h r.conn command (mem_pendingCommands.mpr (Or.inr ⟨r, hr, rfl, hcommand⟩))

/-- The client states that a step from an admitted state makes. -/
theorem Admitted.moves {cfg : Config} {k k' : Core} {e : Event} (h : k.Admitted)
    (hstep : CoreStep cfg k e k') (c : ConnId) :
    (k.registry.state c).Moves (k'.registry.state c) := by
  rcases state_step hstep with hst | ⟨i, r, st, rfl, hi, htarget, -, -, hst⟩
  · rw [hst]
    exact .stay _
  · rw [hst, Function.update_apply]
    split
    · next hc =>
      subst hc
      obtain ⟨command, hcommand⟩ := exists_command_of_target htarget
      exact (Continuation.moves_of_target hcommand htarget
        (h.handler (List.mem_of_getElem? hi) hcommand)).1
    · exact .stay _

theorem Admitted.step {cfg : Config} {k k' : Core} {e : Event} (h : k.Admitted)
    (halone : k.MovesAlone e) (hstep : CoreStep cfg k e k') : k'.Admitted := by
  rcases state_step hstep with hst | ⟨i, r, st, rfl, hi, htarget, htasks, hrunning, hst⟩
  · -- no state changes: what is pending was pending, follows it, or was just admitted
    refine admitted_iff_tracks.mpr fun command => ?_
    refine (admitted_iff_tracks.mp h command).step hstep (fun c hc => by rw [hst]; exact hc)
      (fun c request _ hvalid hcommand => ?_) (fun rest request hfollows hcommand => ?_)
      (fun _ _ hcommand => hcommand) (fun c _ hcommand => by cases hcommand)
    · rw [hst, ← hcommand]
      exact hvalid
    · cases rest <;> cases request <;>
        simp_all [Continuation.Follows, Continuation.command, Request.command]
  · intro c command hpending
    have hold : command ∈ (k.eraseRunning i).pendingCommands c := by
      rw [mem_pendingCommands, htasks, hrunning] at hpending
      exact mem_pendingCommands.mpr hpending
    have hvalid : transitionValidate command (k.registry.state c) = none := by
      refine h c command ?_
      rcases mem_pendingCommands.mp hold with ht | ⟨r', hr', hconn, hcommand⟩
      · exact mem_pendingCommands.mpr (Or.inl ht)
      · exact mem_pendingCommands.mpr
          (Or.inr ⟨r', List.mem_of_mem_eraseIdx hr', hconn, hcommand⟩)
    rw [hst, Function.update_apply]
    split
    · next hc =>
      subst hc
      have hother : command.movesState = false :=
        halone i rfl r hi (by simp [htarget]) command hold
      obtain ⟨own, hown⟩ := exists_command_of_target htarget
      exact (Continuation.moves_of_target hown htarget
        (h.handler (List.mem_of_getElem? hi) hown)).2 command hother hvalid
    · exact hvalid

theorem admitted_initial (cfg : Config) (users : List (Str × Str)) :
    (Server.initial cfg users).core.Admitted :=
  fun _ _ h => absurd h List.not_mem_nil

end Core

/-- The connection and the command of the handler that an event runs. -/
def Server.Event.handles (s : Server) : Event → Option (ConnId × Command)
  | .execute i .. => (s.tasks[i]?).map fun t => (t.conn, t.request.command)
  | .resume i => (s.running[i]?).bind fun h => h.rest.command.map fun command => (h.conn, command)
  | _ => none

theorem Server.Event.mem_pendingCommands_of_handles {s : Server} {e : Event} {c : ConnId}
    {command : Command} (h : e.handles s = some (c, command)) :
    command ∈ s.core.pendingCommands c := by
  cases e with
  | execute i dbFails env =>
    obtain ⟨t, ht, heq⟩ := Option.map_eq_some_iff.mp h
    obtain ⟨rfl, rfl⟩ := Prod.mk.inj heq
    exact Core.mem_pendingCommands.mpr (Or.inl ⟨t, List.mem_of_getElem? ht, rfl, rfl⟩)
  | resume i =>
    obtain ⟨r, hr, hrest⟩ := Option.bind_eq_some_iff.mp h
    obtain ⟨own, hown, heq⟩ := Option.map_eq_some_iff.mp hrest
    obtain ⟨rfl, rfl⟩ := Prod.mk.inj heq
    exact Core.mem_pendingCommands.mpr (Or.inr ⟨r, List.mem_of_getElem? hr, rfl, hown⟩)
  | _ => cases h

end FspServer
