import FspServer.Replicas

/-!
# Authentication and isolation

The state of a client is checked when a request is read; its effect happens later
and on another thread. Every queued request and every running handler that can
have an effect outside its own connection belongs to a connection on which a
login has succeeded (`Core.Authenticated`), and the nickname under which it acts
is one of these logins (`effects_authenticated`). No step changes the shape of
the tree of a client other than the one whose message it handles.
-/

namespace FspServer

open Runs Server

/-- The handlers that follow a request of a client that has logged in, and those
that have read the state of such a client. -/
def Continuation.OfLogged : Continuation → Prop
  | .isLogged .. | .storeLogin .. => False
  | .notifyDisconnection st _ => st ≠ .connected
  | _ => True

/-- The requests that a client that has not logged in cannot make. -/
def Request.OfLogged (r : Request) : Prop := r.command ≠ .SIGNIN ∧ r.command ≠ .SIGNUP

namespace Core

/-- A login with the current nickname of the connection has succeeded on it. -/
def LoggedIn (k : Core) (c : ConnId) : Prop := (c, k.registry.nickname c) ∈ k.logins

/-- Whoever is past the first state, or has a request or a handler that only such
clients have, has logged in. -/
structure Authenticated (k : Core) : Prop where
  tracks : k.Tracks Request.OfLogged Continuation.OfLogged k.LoggedIn
  state : ∀ c, k.registry.state c ≠ .connected → k.LoggedIn c

theorem LoggedIn.of_eq {k k' : Core} {c : ConnId} (h : k.LoggedIn c)
    (hnick : k'.registry.nickname = k.registry.nickname) (hlogins : k'.logins = k.logins) :
    k'.LoggedIn c := by
  rw [LoggedIn, hnick, hlogins]
  exact h

/-- A connection on which a login has succeeded stays so: its nickname changes only
with another login. -/
theorem LoggedIn.step {cfg : Config} {k k' : Core} {e : Event} {c : ConnId} (h : k.LoggedIn c)
    (hstep : CoreStep cfg k e k') : k'.LoggedIn c := by
  cases hstep with
  | @storeLogin i d code id login hi =>
    by_cases hcd : c = d
    · subst hcd
      exact List.mem_cons.mpr (Or.inl (by simp [Registry.storeLogin]))
    · have hmem : (c, k.registry.nickname c) ∈ k.logins := h
      refine List.mem_cons_of_mem _ ?_
      simpa [Registry.storeLogin, hcd] using hmem
  | register => exact h.of_eq (by simp) rfl
  | notify => exact h.of_eq (by simp) rfl
  | disconnect => exact h.of_eq (by simp) rfl
  | logout => exact h.of_eq (by simp) (by simp [eraseTask])
  | stop => exact h.of_eq (by simp) (by simp)
  | failWrite => exact h.of_eq (by simp [Registry.eraseWrite]) (by simp)
  | _ => exact h

/-- A client that has just left the first state has logged in. -/
theorem Authenticated.state_step {cfg : Config} {k k' : Core} {e : Event} (h : k.Authenticated)
    (hstep : CoreStep cfg k e k') (c : ConnId) (hst : k'.registry.state c ≠ .connected) :
    k'.LoggedIn c := by
  have old : k.registry.state c ≠ .connected → k'.LoggedIn c := fun hold =>
    (h.state c hold).step hstep
  cases hstep with
  | @storeLogin i d code id login hi =>
    by_cases hcd : c = d
    · subst hcd
      exact List.mem_cons.mpr (Or.inl (by simp [Registry.storeLogin]))
    · exact old (by simpa [Registry.storeLogin, hcd] using hst)
  | @register i d n hi =>
    by_cases hcd : c = d
    · subst hcd
      have hlogged := h.tracks.running _ (List.mem_of_getElem? hi) trivial
      exact hlogged.of_eq (by simp) rfl
    · exact old (by simpa [hcd] using hst)
  | notify => exact old (by simpa using hst)
  | disconnect => exact old (by simpa using hst)
  | logout => exact old (by simpa using hst)
  | stop => exact old (by simpa using hst)
  | failWrite => exact old (by simpa [Registry.eraseWrite] using hst)
  | _ => exact old hst

theorem Authenticated.step {cfg : Config} {k k' : Core} {e : Event} (h : k.Authenticated)
    (hstep : CoreStep cfg k e k') : k'.Authenticated := by
  refine ⟨?_, h.state_step hstep⟩
  refine h.tracks.step hstep (fun c hc => hc.step hstep) (fun c r _ hvalid hr => ?_)
    (fun rest r hfollows hrest => ?_) (fun _ _ hrest => hrest) fun c _ hrest => ?_
  · -- the state admits a request other than a login
    refine (h.state c fun hst => ?_).step hstep
    rw [hst] at hvalid
    simp [transitionValidate, hr.1, hr.2] at hvalid
  · cases rest <;> cases r <;> simp_all [Continuation.Follows, Continuation.OfLogged,
      Request.OfLogged, Request.command]
  · exact (h.state c hrest).step hstep

theorem authenticated_initial (cfg : Config) (users : List (Str × Str)) :
    (Server.initial cfg users).core.Authenticated where
  tracks := ⟨fun _ h => absurd h List.not_mem_nil, fun _ h => absurd h List.not_mem_nil⟩
  state := fun _ h => absurd rfl h

end Core

/-! ## Effects -/

/-- The connection whose message an event handles. -/
def Server.Event.actor (s : Server) : Event → Option ConnId
  | .read c .. => some c
  | .execute i .. => (s.tasks[i]?).map (·.conn)
  | .resume i => (s.running[i]?).map (·.conn)
  | _ => none

/-- What handling a message of `c` can do outside the connection `c`. -/
inductive Effect (c : ConnId) (s s' : Server) : Prop
  | tree (d : ConnId) : s'.tree d ≠ s.tree d → Effect c s s'
  | broadcast : s'.registry.sharedStorageIDCounter ≠ s.registry.sharedStorageIDCounter →
      Effect c s s'
  | message (d : ConnId) : d ≠ c → s'.sent d ≠ s.sent d → Effect c s s'
  | account (u : Str × Str) : u ∈ s.users → u ∉ s'.users → Effect c s s'
  | begun : s'.downloads.begun ≠ s.downloads.begun → Effect c s s'
  | download (id : Nat) : id ∈ s'.downloads.downloadTransactions →
      id ∉ s.downloads.downloadTransactions → Effect c s s'
  | upload (id : Nat) : id ∈ s'.downloads.uploadTransactions →
      id ∉ s.downloads.uploadTransactions → Effect c s s'

/-- Steps that at most write to `c` have no effect. -/
theorem not_effect {c : ConnId} {s s' : Server} (htree : s'.tree = s.tree)
    (hcounter : s'.registry.sharedStorageIDCounter = s.registry.sharedStorageIDCounter)
    (hsent : ∀ d, d ≠ c → s'.sent d = s.sent d) (husers : ∀ u ∈ s.users, u ∈ s'.users)
    (hdownloads : s'.downloads = s.downloads) : ¬ Effect c s s' := by
  intro heffect
  cases heffect with
  | tree d hd => exact hd (congrFun htree d)
  | broadcast hne => exact hne hcounter
  | message d hd hne => exact hne (hsent d hd)
  | account u hu hno => exact hno (husers u hu)
  | begun hne => exact hne (by rw [hdownloads])
  | download id hid hno => exact hno (hdownloads ▸ hid)
  | upload id hid hno => exact hno (hdownloads ▸ hid)

namespace Server

variable {cfg : Config} {s s' : Server} {c : ConnId}

theorem sent_startWrite_of_ne (m : Outgoing) {d : ConnId} (h : d ≠ c) :
    (s.startWrite c m).sent d = s.sent d :=
  Function.update_of_ne h ..

/-- A login request has no effect. -/
theorem not_effect_executed {dbFails : Bool} {env : FileEnv} {request : Request} {i : Nat}
    (hrequest : ¬ request.OfLogged)
    (h : Executed cfg dbFails env c { s with tasks := s.tasks.eraseIdx i } request s') :
    ¬ Effect c s s' := by
  cases h with
  | refuse =>
    exact not_effect rfl rfl (fun d hd => sent_startWrite_of_ne _ hd) (fun _ hu => hu) rfl
  | signin => exact not_effect rfl rfl (fun _ _ => rfl) (fun _ hu => hu) rfl
  | signup =>
    exact not_effect rfl rfl (fun _ _ => rfl) (fun _ hu => List.mem_cons_of_mem _ hu) rfl
  | _ => exact absurd ⟨by simp [Request.command], by simp [Request.command]⟩ hrequest

/-- The sections of a login, and the leaving of a client that has not logged in,
have no effect. -/
theorem not_effect_resumeHandler {rest : Continuation} {i : Nat} (hrest : ¬ rest.OfLogged) :
    ¬ Effect c s ({ s with running := s.running.eraseIdx i }.resumeHandler cfg c rest) := by
  cases rest with
  | isLogged id login =>
    simp only [resumeHandler]
    split
    · exact not_effect rfl rfl (fun d hd => sent_startWrite_of_ne _ hd) (fun _ hu => hu) rfl
    · exact not_effect rfl rfl (fun _ _ => rfl) (fun _ hu => hu) rfl
  | storeLogin code id login =>
    exact not_effect rfl rfl (fun d hd => sent_startWrite_of_ne _ hd) (fun _ hu => hu) rfl
  | notifyDisconnection st nickname =>
    obtain rfl : st = .connected := by simpa [Continuation.OfLogged] using hrest
    exact not_effect rfl rfl (fun _ _ => rfl) (fun _ hu => hu) rfl
  | _ => exact absurd trivial hrest

/-- Whoever has an effect has logged in. -/
theorem loggedIn_of_effect (h : s.core.Authenticated) {e : Event} (hstep : s.step cfg e = some s')
    (hactor : e.actor s = some c) (heffect : Effect c s s') : s.core.LoggedIn c := by
  -- reading a message that is only answered has no effect
  have answered : ∀ {d : ConnId} {m : Outgoing} {tasks : List Task}, d = c →
      ¬ Effect c s { s.startWrite d m with tasks } := by
    rintro d m tasks rfl
    exact not_effect rfl rfl (fun d hd => sent_startWrite_of_ne _ hd) (fun _ hu => hu) rfl
  cases transition_of_step hstep with
  | heartbeat => exact absurd heffect (answered (by simpa [Event.actor] using hactor))
  | refuse => exact absurd heffect (answered (by simpa [Event.actor] using hactor))
  | post => exact absurd heffect (answered (by simpa [Event.actor] using hactor))
  | @reply d m env _ hvalid hreply =>
    -- no reply is admitted in the first state
    obtain rfl : d = c := by simpa [Event.actor] using hactor
    refine h.state d fun hst => ?_
    have hadmitted := transitionValidate_of_readError hvalid
    rw [show s.registry.state d = .connected from hst, hreply] at hadmitted
    simp [transitionValidate] at hadmitted
  | @execute i dbFails env t _ ht _ hexec =>
    obtain rfl : t.conn = c := by simpa [Event.actor, ht] using hactor
    by_contra hno
    refine not_effect_executed (fun hq => hno ?_) hexec heffect
    exact h.tracks.tasks t (List.mem_of_getElem? ht) hq
  | expired => exact absurd heffect (not_effect rfl rfl (fun _ _ => rfl) (fun _ hu => hu) rfl)
  | @resume i r hr =>
    obtain rfl : r.conn = c := by simpa [Event.actor, hr] using hactor
    by_contra hno
    refine not_effect_resumeHandler (fun hq => hno ?_) heffect
    exact h.tracks.running r (List.mem_of_getElem? hr) hq
  | _ => simp [Event.actor] at hactor

/-- A step changes the shape of no tree but that of the client whose message it
handles. -/
theorem shape_step {e : Event} (hstep : s.step cfg e = some s') {d : ConnId}
    (hd : e.actor s ≠ some d) : (s'.tree d).shape = (s.tree d).shape := by
  have hfile := step_files hstep
  cases hfile with
  | quiet hfiles => exact congrFun (congrArg Prod.fst hfiles) d
  | @change i _ _ t op root _ ht _ _ hfiles =>
    have hne : d ≠ t.conn := fun heq => hd (by simp [Event.actor, ht, heq])
    exact (congrFun (Prod.ext_iff.mp hfiles).1 d).trans (Function.update_of_ne hne ..)
  | @push i _ _ t _ _ root _ ht _ _ hfiles =>
    have hne : d ≠ t.conn := fun heq => hd (by simp [Event.actor, ht, heq])
    exact (congrFun (Prod.ext_iff.mp hfiles).1 d).trans (Function.update_of_ne hne ..)
  | register => rw [tree_notifyFilesRegistration]
  | notify => rw [tree_doNotify]

end Server

/-- In every run: whoever has an effect outside its own connection acts under a
nickname with which a login has succeeded on the connection, and handling a
message changes the structure and the names of no other client's tree. -/
theorem effects_authenticated {cfg : Config} {users : List (Str × Str)} {s s' : Server}
    {e : Event} (h : Reach (Server.step cfg) anyStep (Server.initial cfg users) s)
    (hstep : s.step cfg e = some s') :
    (∀ c, e.actor s = some c → Effect c s s' → (c, s.registry.nickname c) ∈ s.logins) ∧
      ∀ d, e.actor s ≠ some d → (s'.tree d).shape = (s.tree d).shape := by
  have hauth : s.core.Authenticated :=
    h.invariant (I := fun s => s.core.Authenticated) (Core.authenticated_initial cfg users)
      fun _ _ _ hs _ hst => hs.step (step_core hst)
  exact ⟨fun c hc heffect => loggedIn_of_effect hauth hstep hc heffect,
    fun d hd => shape_step hstep hd⟩

open Server.Event in
/-- A client that has signed up registers the file `f` while another one is
connected. -/
theorem effects_authenticated_of_pushFiles :
    ∃ s s', Reach (Server.step sampleConfig) anyStep (Server.initial sampleConfig []) s ∧
      s.step sampleConfig executeFirst = some s' ∧ executeFirst.actor s = some 0 ∧
      s'.tree 0 ≠ s.tree 0 ∧ (0, s.registry.nickname 0) ∈ s.logins ∧
      (s'.tree 1).shape = (s.tree 1).shape := by
  obtain ⟨s, hs, hactor, s', hstep, hchange⟩ := exists_reach_of_exec (Server.step sampleConfig)
    (Server.initial sampleConfig [])
    (fun s => executeFirst.actor s = some 0 ∧ ∃ s' ∈ s.step sampleConfig executeFirst,
      (s'.tree 0).leafPaths ≠ (s.tree 0).leafPaths)
    ([.accept 0, .accept 0] ++ login 0 ['a'] ++ [readPushFiles 0 [['f']]])
    (by decide +kernel)
  have hne : s'.tree 0 ≠ s.tree 0 := fun heq => hchange (by rw [heq])
  obtain ⟨hlogged, hshape⟩ := effects_authenticated hs hstep
  exact ⟨s, s', hs, hstep, hactor, hne, hlogged 0 hactor (.tree 0 hne),
    hshape 1 (by simp [hactor])⟩

end FspServer
