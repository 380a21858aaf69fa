import FspServer.NicknameUniqueness
import FspServer.Authentication

/-!
# Terminal commands

In the declared state machine of a client (`clientMsm`) `delete_account` and
`logout` lead to `Disconnected`, and no transition leaves it. The handlers are
written without that machine: a successful `do_delete_account` only answers, and
`do_logout` stops the connection, which removes it from `connections_` in a later
section, while queued requests and running handlers of the connection go on.

`Monitored` runs the server and records on which connections a terminal command
has been carried out. From then on the connection is gone and its requests change
nothing but the queue, as long as terminal commands are completed alone
(`Monitored.EndsAlone`): when one is completed, nothing else holds the connection,
neither `connections_` nor another handler.
-/

namespace FspServer

open Runs Server

/-! ## The declared machine -/

/-- The states of `client_msm_`. -/
inductive MsmState where
  | Connected
  | Logged
  | Running
  | Disconnected
deriving DecidableEq, Repr

/-- The events of `client_msm_`. -/
inductive MsmEvent where
  | signin
  | signup
  | push_files
  | connection_closed
  | logout
  | delete_account
deriving DecidableEq, Repr

/-- The transition table of `client_msm_`; `guard` is the answer of the guard of
the row, `none` is `no_transition`. -/
def clientMsm (guard : Bool) : MsmState → MsmEvent → Option MsmState
  | .Connected, .signin => if guard then some .Logged else none
  | .Connected, .signup => if guard then some .Logged else none
  | .Connected, .connection_closed => some .Disconnected
  | .Logged, .push_files => if guard then some .Running else none
  | .Logged, .logout => some .Disconnected
  | .Logged, .delete_account => some .Disconnected
  | .Logged, .connection_closed => some .Disconnected
  | .Running, .logout => some .Disconnected
  | .Running, .connection_closed => some .Disconnected
  | _, _ => none

/-- No transition leaves the state. -/
def MsmState.Final (st : MsmState) : Prop := ∀ guard event, clientMsm guard st event = none

theorem MsmState.final_iff {st : MsmState} : st.Final ↔ st = .Disconnected := by
  constructor
  · intro h
    cases st with
    | Disconnected => rfl
    | _ => cases h true .connection_closed
  · rintro rfl guard event
    cases event <;> rfl

/-! ## Connections that nothing holds -/

namespace Core

/-- A handler runs only on a connection that was held before the step. -/
theorem alive_of_mem_running {cfg : Config} {k k' : Core} {e : Event}
    (hstep : CoreStep cfg k e k') {r : Running} (hr : r ∈ k'.running) : k.Alive r.conn := by
  have old : ∀ {r : Running}, r ∈ k.running → k.Alive r.conn := fun hr => Or.inr ⟨_, hr, rfl⟩
  have erased : ∀ {r : Running} {i : Nat}, r ∈ k.running.eraseIdx i → k.Alive r.conn := fun hr =>
    old (List.mem_of_mem_eraseIdx hr)
  have stopped : ∀ {l : Core} {c : ConnId}, r ∈ (l.stop c).running → l.running = k.running →
      k.Alive c → k.Alive r.conn := by
    intro l c hr hl halive
    unfold stop at hr
    split at hr
    · exact old (hl ▸ hr)
    · rcases List.mem_append.mp hr with hr | hr
      · exact old (hl ▸ hr)
      · obtain rfl := List.mem_singleton.mp hr
        exact halive
  cases hstep with
  | execute t started ht hstarted =>
    rcases List.mem_append.mp hr with hr | hr
    · exact old hr
    · obtain ⟨hconn, -, halive⟩ := hstarted r hr
      exact hconn ▸ halive
  | logout t ht hlogout halive => exact stopped hr rfl halive
  | isLogged started hi hstarted =>
    rcases List.mem_append.mp hr with hr | hr
    · exact erased hr
    · obtain rfl := hstarted r hr
      exact Or.inr ⟨_, List.mem_of_getElem? hi, rfl⟩
  | storeLogin => exact erased hr
  | register => exact erased hr
  | notify => exact erased hr
  | disconnect => exact erased hr
  | stop halive => exact stopped hr rfl halive
  | failWrite hi halive => exact stopped hr rfl halive
  | _ => exact old hr

theorem accepted_le_step {cfg : Config} {k k' : Core} {e : Event} (hstep : CoreStep cfg k e k') :
    k.registry.accepted ≤ k'.registry.accepted := by
  have stopped : ∀ (l : Core) (c : ConnId), (l.stop c).registry.accepted = l.registry.accepted := by
    intro l c
    unfold stop
    split <;> rfl
  cases hstep with
  | accept => exact Nat.le_succ _
  | register => simp
  | notify => simp
  | disconnect => simp
  | logout => rw [stopped]; rfl
  | stop => rw [stopped]
  | failWrite => rw [stopped]; rfl
  | _ => exact le_rfl

/-- A connection that was accepted and that nothing holds any more. -/
def Gone (k : Core) (c : ConnId) : Prop := c < k.registry.accepted ∧ ¬ k.Alive c

/-- Nobody can get hold of a connection again. -/
theorem Gone.step {cfg : Config} {k k' : Core} {e : Event} {c : ConnId} (h : k.Gone c)
    (hstep : CoreStep cfg k e k') : k'.Gone c := by
  refine ⟨h.1.trans_le (accepted_le_step hstep), ?_⟩
  rintro (hmem | ⟨r, hr, rfl⟩)
  · rcases mem_connections_step hstep hmem with hmem | ⟨rfl, -, -⟩
    · exact h.2 (Or.inl hmem)
    · exact lt_irrefl _ h.1
  · exact h.2 (alive_of_mem_running hstep hr)

end Core

/-! ## The monitor -/

/-- The server with a record of the terminal commands. -/
structure Monitored where
  server : Server
  /-- The connections that a `do_logout` is disconnecting. -/
  loggingOut : List ConnId := []
  /-- The connections on which `do_delete_account` has succeeded or `do_logout` has
  been executed. -/
  ended : List ConnId := []

namespace Monitored

/-- The connection on which an event begins to carry out `do_logout`. -/
def logsOut (m : Monitored) : Event → Option ConnId
  | .execute i .. =>
    (m.server.tasks[i]?).bind fun t =>
      if m.server.alive t.conn ∧ t.request = .logout ∧ m.server.registry.stopped t.conn = false
      then some t.conn else none
  | _ => none

/-- The connection on which an event completes a terminal command. `do_logout` on
a connection that is already stopped returns at once. -/
def ends (m : Monitored) : Event → Option ConnId
  | .execute i dbFails _ =>
    (m.server.tasks[i]?).bind fun t =>
      if m.server.alive t.conn then
        match t.request with
        | .deleteAccount _ =>
          if dbFails = false ∧ ∃ u ∈ m.server.users, u.1 = m.server.registry.nickname t.conn
          then some t.conn else none
        | .logout => if m.server.registry.stopped t.conn then some t.conn else none
        | _ => none
      else none
  | .resume i =>
    (m.server.running[i]?).bind fun h =>
      match h.rest with
      | .notifyDisconnection .. => if h.conn ∈ m.loggingOut then some h.conn else none
      | _ => none
  | _ => none

/-- A step of the server, recorded. -/
def step (cfg : Config) (m : Monitored) (e : Event) : Option Monitored :=
  (m.server.step cfg e).map fun server =>
    ⟨server, (m.logsOut e).toList ++ m.loggingOut, (m.ends e).toList ++ m.ended⟩

def initial (cfg : Config) (users : List (Str × Str)) : Monitored :=
  { server := Server.initial cfg users }

/-- The state of the declared machine of a connection. -/
def client (m : Monitored) (c : ConnId) : MsmState :=
  if c ∈ m.ended then .Disconnected
  else match m.server.registry.state c with
    | .connected => .Connected
    | .logged => .Logged
    | .processing => .Running

theorem final_client_iff {m : Monitored} {c : ConnId} : (m.client c).Final ↔ c ∈ m.ended := by
  rw [MsmState.final_iff]
  unfold client
  split
  · simp_all
  · split <;> simp_all

/-- When a terminal command is completed on a connection, no other handler of the
connection is running and `connections_` does not hold it, or gives it up in this
section. -/
def EndsAlone (m : Monitored) (e : Event) : Prop :=
  ∀ c ∈ m.ends e,
    match e with
    | .resume i => ∀ h ∈ m.server.running.eraseIdx i, h.conn ≠ c
    | _ => m.server.alive c = false

instance (m : Monitored) (e : Event) : Decidable (m.EndsAlone e) :=
  match e with
  | .resume i =>
    inferInstanceAs (Decidable (∀ c ∈ m.ends (.resume i), ∀ h ∈ m.server.running.eraseIdx i, _))
  | .execute i dbFails env =>
    inferInstanceAs (Decidable (∀ c ∈ m.ends (.execute i dbFails env), _ = false))
  | .accept _ | .read .. | .stop _ | .sharedWrite .. | .backupTimer _ | .transactionTimer _ |
    .helloSender _ | .transferCompleted .. | .uploadCompleted _ =>
    isTrue fun _ h => by cases h

theorem alive_of_ends_execute {m : Monitored} {i : Nat} {dbFails : Bool} {env : FileEnv}
    {c : ConnId} (h : m.ends (.execute i dbFails env) = some c) : m.server.alive c = true := by
  obtain ⟨t, ht, hrest⟩ := Option.bind_eq_some_iff.mp h
  obtain ⟨halive, hends⟩ := Option.ite_none_right_eq_some.mp hrest
  split at hends
  · obtain ⟨-, hconn⟩ := Option.ite_none_right_eq_some.mp hends
    exact Option.some.inj hconn ▸ halive
  · obtain ⟨-, hconn⟩ := Option.ite_none_right_eq_some.mp hends
    exact Option.some.inj hconn ▸ halive
  · cases hends

theorem handler_of_ends_resume {m : Monitored} {i : Nat} {c : ConnId}
    (h : m.ends (.resume i) = some c) :
    ∃ st nick, m.server.running[i]? = some ⟨c, .notifyDisconnection st nick⟩ := by
  obtain ⟨r, hr, hends⟩ := Option.bind_eq_some_iff.mp h
  split at hends
  · next st nick hrest =>
    obtain ⟨-, hconn⟩ := Option.ite_none_right_eq_some.mp hends
    obtain rfl := Option.some.inj hconn
    exact ⟨st, nick, by rw [hr, ← hrest]⟩
  · cases hends

/-- A connection on which a terminal command is completed alone is gone. -/
theorem gone_of_ends {cfg : Config} {m : Monitored} {e : Event} {s' : Server} {c : ConnId}
    (hbase : m.server.core.Base) (halone : m.EndsAlone e) (hstep : m.server.step cfg e = some s')
    (hends : m.ends e = some c) : s'.core.Gone c := by
  cases e with
  | execute i dbFails env =>
    have hdead : m.server.alive c = false := halone c hends
    rw [alive_of_ends_execute hends] at hdead
    cases hdead
  | resume i =>
    obtain ⟨st, nick, hi⟩ := handler_of_ends_resume hends
    have hothers : ∀ h ∈ m.server.running.eraseIdx i, h.conn ≠ c := halone c hends
    have hknown : c < m.server.core.registry.accepted :=
      hbase.known.running _ (List.mem_of_getElem? hi) trivial
    have hs' : s'.core = { m.server.core.eraseRunning i with
        registry := m.server.registry.disconnect cfg c st nick } := by
      cases transition_of_step hstep with
      | resume hi' =>
        obtain rfl := Option.some.inj (hi.symm.trans hi')
        simp only [resumeHandler, core_notifyDisconnection]
        rfl
    rw [hs']
    refine ⟨by rw [Registry.accepted_disconnect]; exact hknown, ?_⟩
    rintro (hmem | ⟨r, hr, hconn⟩)
    · rw [Registry.connections_disconnect] at hmem
      exact hbase.nodup.not_mem_erase hmem
    · exact hothers r hr hconn
  | _ => cases hends

/-- The invariant: what has ended is gone. -/
structure Terminal (m : Monitored) : Prop where
  base : m.server.core.Base
  gone : ∀ c ∈ m.ended, m.server.core.Gone c

theorem Terminal.step {cfg : Config} {m m' : Monitored} {e : Event} (h : m.Terminal)
    (halone : m.EndsAlone e) (hstep : m.step cfg e = some m') : m'.Terminal := by
  obtain ⟨s', hs', rfl⟩ := Option.map_eq_some_iff.mp hstep
  refine ⟨h.base.step (step_core hs'), fun c hc => ?_⟩
  rcases List.mem_append.mp hc with hc | hc
  · exact gone_of_ends h.base halone hs' (Option.mem_toList.mp hc)
  · exact (h.gone c hc).step (step_core hs')

theorem terminal_initial (cfg : Config) (users : List (Str × Str)) :
    (initial cfg users).Terminal :=
  ⟨Core.base_initial cfg users, fun _ h => absurd h List.not_mem_nil⟩

/-- A request of a connection that is gone only leaves the queue. -/
theorem step_of_gone {cfg : Config} {s s' : Server} {e : Event} {c : ConnId} (h : s.core.Gone c)
    (hstep : s.step cfg e = some s') (hactor : e.actor s = some c) :
    s' = { s with tasks := s'.tasks } := by
  have dead : ∀ {d : ConnId}, d = c → s.alive d = true → s' = { s with tasks := s'.tasks } := by
    rintro d rfl halive
    exact absurd (alive_iff.mp halive) h.2
  cases transition_of_step hstep with
  | heartbeat ha => exact dead (by simpa [Event.actor] using hactor) ha
  | refuse ha => exact dead (by simpa [Event.actor] using hactor) ha
  | reply ha => exact dead (by simpa [Event.actor] using hactor) ha
  | post ha => exact dead (by simpa [Event.actor] using hactor) ha
  | execute ht ha => exact dead (by simpa [Event.actor, ht] using hactor) ha
  | expired => rfl
  | @resume i r hr =>
    obtain rfl : r.conn = c := by simpa [Event.actor, hr] using hactor
    exact absurd (Or.inr ⟨r, List.mem_of_getElem? hr, rfl⟩) h.2
  | _ => cases hactor

end Monitored

end FspServer
