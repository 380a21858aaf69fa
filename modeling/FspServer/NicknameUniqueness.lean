import FspServer.Admission

/-!
# One connection for each nickname

A sign-in looks through `connections_` for the nickname and stores it in a later
section; a sign-up asks the account store only; deleting an account leaves its
connection as it is. So between the check of one login and its store another
login can pass the same check.

A connection claims a nickname when it is logged in with it or has passed the
check and is about to store it (`Core.Claims`). A step makes a claim only by
passing a check (`claims_step`), so nicknames stay unique as long as checks pass
only while no other connection claims the nickname (`Server.ChecksAlone`).
-/

namespace FspServer

open Runs Server

namespace Core

/-- `c` is in `connections_` and is logged in with the nickname or about to store
it. -/
def Claims (k : Core) (c : ConnId) (nickname : Str) : Prop :=
  c ∈ k.registry.connections ∧
    ((k.registry.state c ≠ .connected ∧ k.registry.nickname c = nickname) ∨
      ∃ h ∈ k.running, h.conn = c ∧ h.rest.login = some nickname)

instance (k : Core) (c : ConnId) (nickname : Str) : Decidable (k.Claims c nickname) :=
  inferInstanceAs (Decidable (_ ∧ (_ ∨ ∃ h ∈ k.running, _)))

/-- A connection enters `connections_` when it is accepted and at no other time. -/
theorem mem_connections_step {cfg : Config} {k k' : Core} {e : Event}
    (hstep : CoreStep cfg k e k') {c : ConnId} (hc : c ∈ k'.registry.connections) :
    c ∈ k.registry.connections ∨
      c = k.registry.accepted ∧ k'.registry.state = k.registry.state ∧ k'.running = k.running := by
  cases hstep with
  | accept position =>
    rcases (List.mem_insertIdx (Nat.min_le_right _ _)).mp hc with rfl | hc
    · exact Or.inr ⟨rfl, rfl, rfl⟩
    · exact Or.inl hc
  | register => exact Or.inl (by simpa using hc)
  | notify => exact Or.inl (by simpa using hc)
  | disconnect =>
    rw [Registry.connections_disconnect] at hc
    exact Or.inl (List.mem_of_mem_erase hc)
  | logout => exact Or.inl (by simpa using hc)
  | stop => exact Or.inl (by simpa using hc)
  | failWrite => exact Or.inl (by simpa [Registry.eraseWrite] using hc)
  | _ => exact Or.inl hc

/-- Stopping a connection starts no login. -/
theorem mem_running_of_stop {k : Core} {c : ConnId} {r : Running} {nickname : Str}
    (h : r ∈ (k.stop c).running) (hlogin : r.rest.login = some nickname) : r ∈ k.running := by
  unfold stop at h
  split at h
  · exact h
  · rcases List.mem_append.mp h with h | h
    · exact h
    · obtain rfl := List.mem_singleton.mp h
      cases hlogin

/-- A client that has logged in never comes back to the first state. -/
theorem state_ne_connected_step {cfg : Config} {k k' : Core} {e : Event}
    (hstep : CoreStep cfg k e k') {c : ConnId} (hc : k.registry.state c ≠ .connected) :
    k'.registry.state c ≠ .connected := by
  rcases state_step hstep with hst | ⟨i, r, st, -, -, htarget, -, -, hst⟩
  · rw [hst]
    exact hc
  · rw [hst, Function.update_apply]
    split
    · intro heq
      subst heq
      cases hrest : r.rest <;> simp [Continuation.target, hrest] at htarget
    · exact hc

/-- Whoever has sent `PUSH_FILES` has logged in before. -/
def Pushed (k : Core) : Prop :=
  k.Tracks (fun r => r.command = .PUSH_FILES) (fun rest => rest = .notifyFilesRegistration)
    (fun c => k.registry.state c ≠ .connected)

theorem Pushed.step {cfg : Config} {k k' : Core} {e : Event} (h : k.Pushed)
    (hstep : CoreStep cfg k e k') : k'.Pushed := by
  refine Tracks.step h hstep (fun c hc => state_ne_connected_step hstep hc)
    (fun c r _ hvalid hr => ?_) (fun rest r hfollows hrest => ?_) (fun _ _ hrest => by cases hrest)
    (fun c _ hrest => by cases hrest)
  · refine state_ne_connected_step hstep fun hst => ?_
    rw [hst, hr] at hvalid
    simp [transitionValidate] at hvalid
  · subst hrest
    cases r <;> simp_all [Continuation.Follows, Request.command]

/-- The name under which a client is logged in after a step was claimed before. -/
theorem claims_of_named {cfg : Config} {k k' : Core} {e : Event} (hbase : k.Base)
    (hpushed : k.Pushed) (hstep : CoreStep cfg k e k') {c : ConnId}
    (hc : c ∈ k'.registry.connections) (hst : k'.registry.state c ≠ .connected) :
    k.Claims c (k'.registry.nickname c) := by
  rcases mem_connections_step hstep hc with hold | ⟨rfl, hstate, -⟩
  · have old : k'.registry.state c = k.registry.state c →
        k'.registry.nickname c = k.registry.nickname c →
        k.Claims c (k'.registry.nickname c) := fun hs hn =>
      ⟨hold, Or.inl ⟨hs ▸ hst, hn.symm⟩⟩
    cases hstep with
    | @storeLogin i d code id login hi =>
      by_cases hcd : c = d
      · subst hcd
        exact ⟨hold, Or.inr ⟨_, List.mem_of_getElem? hi, rfl, by
          simp [Continuation.login, Registry.storeLogin]⟩⟩
      · exact old (by simp [Registry.storeLogin, hcd]) (by simp [Registry.storeLogin, hcd])
    | @register i d n hi =>
      by_cases hcd : c = d
      · subst hcd
        exact ⟨hold, Or.inl ⟨hpushed.running _ (List.mem_of_getElem? hi) rfl, by simp⟩⟩
      · exact old (by simp [hcd]) (by simp)
    | notify => exact old (by simp) (by simp)
    | disconnect => exact old (by simp) (by simp)
    | logout => exact old (by simp) (by simp)
    | stop => exact old (by simp) (by simp)
    | failWrite => exact old (by simp [Registry.eraseWrite]) (by simp [Registry.eraseWrite])
    | _ => exact old rfl rfl
  · -- a connection that was just accepted has not logged in
    rw [hstate] at hst
    exact absurd (hbase.fresh _ le_rfl).1 hst

end Core

/-! ## Passing a check -/

/-- The connection and the nickname of a login whose check an event passes:
`register_user` for a sign-up, `isLogged` for a sign-in. -/
def Server.Event.passes (s : Server) : Event → Option (ConnId × Str)
  | .execute i dbFails _ =>
    (s.tasks[i]?).bind fun t =>
      match t.request with
      | .signup _ login _ =>
        if dbFails = false ∧ ∀ u ∈ s.users, u.1 ≠ login then some (t.conn, login) else none
      | _ => none
  | .resume i =>
    (s.running[i]?).bind fun h =>
      match h.rest with
      | .isLogged _ login => if s.isLogged login then none else some (h.conn, login)
      | _ => none
  | _ => none

namespace Server

/-- A check passes only while no other connection claims the nickname. -/
def ChecksAlone (s : Server) (e : Event) : Prop :=
  ∀ p ∈ e.passes s, p.1 ∈ s.registry.connections →
    ∀ d ∈ s.registry.connections, s.core.Claims d p.2 → d = p.1

instance (s : Server) (e : Event) : Decidable (s.ChecksAlone e) :=
  inferInstanceAs (Decidable (∀ p ∈ e.passes s, _ → ∀ d ∈ s.registry.connections, _ → _))

/-- A worker leaves a handler that is about to store a login only when it has
registered the account. -/
theorem passes_of_executed {cfg : Config} {s s' : Server} {i : Nat} {dbFails : Bool}
    {env : FileEnv} {t : Task} (ht : s.tasks[i]? = some t)
    (h : Executed cfg dbFails env t.conn { s with tasks := s.tasks.eraseIdx i } t.request s')
    {r : Running} (hr : r ∈ s'.running) {nickname : Str} (hlogin : r.rest.login = some nickname) :
    r ∈ s.running ∨ Event.passes s (.execute i dbFails env) = some (r.conn, nickname) := by
  have continues : ∀ {rest : Continuation}, rest.login = none →
      s'.running = s.running ++ [⟨t.conn, rest⟩] → r ∈ s.running := by
    intro rest hrest hrunning
    rw [hrunning] at hr
    rcases List.mem_append.mp hr with hr | hr
    · exact hr
    · obtain rfl := List.mem_singleton.mp hr
      simp [hrest] at hlogin
  generalize hrequest : t.request = request at h
  cases h with
  | refuse => exact Or.inl hr
  | signin => exact Or.inl (continues rfl rfl)
  | @signup id login password hdb hfree =>
    rcases List.mem_append.mp hr with hr | hr
    · exact Or.inl hr
    · obtain rfl := List.mem_singleton.mp hr
      obtain rfl : login = nickname := by simpa [Continuation.login] using hlogin
      have hfree' : ∀ u ∈ s.users, u.1 ≠ login := hfree
      refine Or.inr ?_
      simp only [Event.passes, ht, Option.bind_some, hrequest]
      exact if_pos ⟨hdb, hfree'⟩
  | pushFiles => exact Or.inl (continues rfl rfl)
  | deleteAccount => exact Or.inl hr
  | logout =>
    have hcore : r ∈ (stop t.conn { s with tasks := s.tasks.eraseIdx i }).core.running := hr
    rw [core_stop] at hcore
    exact Or.inl (Core.mem_running_of_stop hcore hlogin)
  | downloadFile =>
    have hcore : r ∈ (resolveDownloadFileQuerry cfg env t.conn _ _ _ _ _ _).core.running := hr
    rw [blind_core.resolveDownloadFileQuerry] at hcore
    exact Or.inl hcore
  | addFile => exact Or.inl (continues rfl rfl)
  | removePath => exact Or.inl (continues rfl rfl)
  | renamePath => exact Or.inl (continues rfl rfl)

/-- A handler is about to store a login only after its check has passed. -/
theorem passes_of_step {cfg : Config} {s s' : Server} {e : Event} (h : s.step cfg e = some s')
    {r : Running} (hr : r ∈ s'.running) {nickname : Str} (hlogin : r.rest.login = some nickname) :
    r ∈ s.running ∨ e.passes s = some (r.conn, nickname) := by
  have hr' : r ∈ s'.core.running := hr
  have hcore := step_core h
  generalize s'.core = k' at hcore hr'
  cases hcore with
  | execute =>
    cases transition_of_step h with
    | execute ht _ hexec => exact passes_of_executed ht hexec hr hlogin
    | expired => exact Or.inl hr
  | @isLogged i c id login started hi hstarted =>
    cases transition_of_step h with
    | @resume _ r₀ hi' =>
      obtain rfl : ⟨c, .isLogged id login⟩ = r₀ := Option.some.inj (hi.symm.trans hi')
      simp only [resumeHandler] at hr
      split at hr
      · exact Or.inl (List.mem_of_mem_eraseIdx hr)
      · next hfree =>
        rcases List.mem_append.mp hr with hr | hr
        · exact Or.inl (List.mem_of_mem_eraseIdx hr)
        · obtain rfl := List.mem_singleton.mp hr
          obtain rfl : login = nickname := by simpa [Continuation.login] using hlogin
          refine Or.inr ?_
          simp only [Event.passes, hi', Option.bind_some]
          exact if_neg hfree
  | logout => exact Or.inl (Core.mem_running_of_stop hr' hlogin)
  | storeLogin => exact Or.inl (List.mem_of_mem_eraseIdx hr')
  | register => exact Or.inl (List.mem_of_mem_eraseIdx hr')
  | notify => exact Or.inl (List.mem_of_mem_eraseIdx hr')
  | disconnect => exact Or.inl (List.mem_of_mem_eraseIdx hr')
  | stop => exact Or.inl (Core.mem_running_of_stop hr' hlogin)
  | failWrite => exact Or.inl (Core.mem_running_of_stop hr' hlogin)
  | _ => exact Or.inl hr'

/-- A step makes a claim only by passing a check. -/
theorem claims_step {cfg : Config} {s s' : Server} {e : Event} (hbase : s.core.Base)
    (hpushed : s.core.Pushed) (h : s.step cfg e = some s') {c : ConnId} {nickname : Str}
    (hc : s'.core.Claims c nickname) :
    s.core.Claims c nickname ∨
      (e.passes s = some (c, nickname) ∧ c ∈ s.registry.connections) := by
  obtain ⟨hmem, ⟨hst, rfl⟩ | ⟨r, hr, rfl, hlogin⟩⟩ := hc
  · exact Or.inl (Core.claims_of_named hbase hpushed (step_core h) hmem hst)
  · rcases Core.mem_connections_step (step_core h) hmem with hmem | ⟨hnew, -, hrunning⟩
    · rcases passes_of_step h hr hlogin with hr | hpasses
      · exact Or.inl ⟨hmem, Or.inr ⟨r, hr, rfl, hlogin⟩⟩
      · exact Or.inr ⟨hpasses, hmem⟩
    · -- no handler runs on a connection that was just accepted
      rw [hrunning] at hr
      have hlt : r.conn < s.core.registry.accepted := hbase.known.running r hr trivial
      exact absurd hnew hlt.ne

/-- Every nickname is claimed by at most one connection. -/
structure NamesUnique (s : Server) : Prop where
  base : s.core.Base
  pushed : s.core.Pushed
  once : ∀ {c d : ConnId} {nickname : Str},
    s.core.Claims c nickname → s.core.Claims d nickname → c = d

theorem NamesUnique.step {cfg : Config} {s s' : Server} {e : Event} (h : s.NamesUnique)
    (halone : s.ChecksAlone e) (hstep : s.step cfg e = some s') : s'.NamesUnique where
  base := h.base.step (step_core hstep)
  pushed := h.pushed.step (step_core hstep)
  once := by
    intro c d nickname hc hd
    rcases claims_step h.base h.pushed hstep hc with hc | ⟨hpc, hmc⟩
    · rcases claims_step h.base h.pushed hstep hd with hd | ⟨hpd, hmd⟩
      · exact h.once hc hd
      · exact halone _ hpd hmd c hc.1 hc
    · rcases claims_step h.base h.pushed hstep hd with hd | ⟨hpd, hmd⟩
      · exact (halone _ hpc hmc d hd.1 hd).symm
      · exact (Prod.mk.inj (Option.some.inj (hpc.symm.trans hpd))).1

theorem namesUnique_initial (cfg : Config) (users : List (Str × Str)) :
    (Server.initial cfg users).NamesUnique where
  base := Core.base_initial cfg users
  pushed := ⟨fun _ h => absurd h List.not_mem_nil, fun _ h => absurd h List.not_mem_nil⟩
  once := fun hc => absurd hc.1 List.not_mem_nil

end Server

/-- In every run in which the check of a login passes only while no other
connection claims the nickname, no two connections are logged in with the same
nickname, in any state reached. -/
theorem nicknames_unique {cfg : Config} {users : List (Str × Str)} {s : Server}
    (h : Reach (Server.step cfg) ChecksAlone (Server.initial cfg users) s) :
    ∀ c ∈ s.registry.connections, ∀ d ∈ s.registry.connections, c ≠ d →
      s.registry.state c ≠ .connected → s.registry.state d ≠ .connected →
      s.registry.nickname c ≠ s.registry.nickname d := by
  have hunique : s.NamesUnique :=
    h.invariant (namesUnique_initial cfg users) fun _ _ _ hs halone hst => hs.step halone hst
  intro c hc d hd hne hstc hstd hnick
  exact hne (hunique.once ⟨hc, Or.inl ⟨hstc, hnick⟩⟩ ⟨hd, Or.inl ⟨hstd, rfl⟩⟩)

open Server.Event in
/-- Client `a` leaves and comes back on another connection while `b` is there. -/
theorem nicknames_unique_after_signin :
    ∃ s, Reach (Server.step sampleConfig) ChecksAlone (Server.initial sampleConfig []) s ∧
      s.registry.connections = [2, 1] ∧ s.registry.nickname 2 = ['a'] ∧
      s.registry.nickname 1 ≠ s.registry.nickname 2 := by
  obtain ⟨s, hs, hconnections, hone, htwo, hnick⟩ := exists_reach_of_exec_guarded
    (Server.step sampleConfig) ChecksAlone (Server.initial sampleConfig [])
    (fun s => s.registry.connections = [2, 1] ∧ s.registry.state 1 = .logged ∧
      s.registry.state 2 = .logged ∧ s.registry.nickname 2 = ['a'])
    ([.accept 0, .accept 0] ++ login 0 ['a'] ++ login 1 ['b'] ++
      [.stop 0, .resume 0, .accept 0, readSignin 2 ['a'], executeFirst, .resume 0, .resume 0])
    (by decide +kernel)
  exact ⟨s, hs, hconnections, hnick, nicknames_unique hs 1 (by simp [hconnections]) 2
    (by simp [hconnections]) (by decide) (by simp [hone]) (by simp [htwo])⟩

open Server.Event in
/-- Two clients sign in to one account: both pass `isLogged` before either of them
stores the nickname. -/
theorem signin_twice_with_one_nickname :
    ∃ s, Reach (Server.step sampleConfig) anyStep (Server.initial sampleConfig [(['a'], [])]) s ∧
      ∃ c ∈ s.registry.connections, ∃ d ∈ s.registry.connections, c ≠ d ∧
        s.registry.state c = .logged ∧ s.registry.state d = .logged ∧
        s.registry.nickname c = s.registry.nickname d :=
  exists_reach_of_exec (Server.step sampleConfig) (Server.initial sampleConfig [(['a'], [])]) _
    [.accept 0, .accept 0, readSignin 0 ['a'], readSignin 1 ['a'], executeFirst, executeFirst,
      .resume 0, .resume 0, .resume 0, .resume 0] (by decide +kernel)

open Server.Event in
/-- One after the other: an account is deleted while its connection stays, and a
sign-up with the same nickname succeeds on another connection. -/
example :
    ∃ s, Reach (Server.step sampleConfig) anyStep (Server.initial sampleConfig []) s ∧
      ∃ c ∈ s.registry.connections, ∃ d ∈ s.registry.connections, c ≠ d ∧
        s.registry.state c = .logged ∧ s.registry.state d = .logged ∧
        s.registry.nickname c = s.registry.nickname d :=
  exists_reach_of_exec (Server.step sampleConfig) (Server.initial sampleConfig []) _
    ([.accept 0, .accept 0] ++ login 0 ['a'] ++
      [.read 0 ⟨.DELETE_ACCOUNT, [(.CommandId, ['2'])], []⟩ sampleEnv, executeFirst] ++
      login 1 ['a']) (by decide +kernel)

end FspServer
