import FspServer.Connections

/-!
# The counter of processing connections

`processing_counter_` is kept by hand: registration counts a connection, the
notification of its disconnection discounts it. It equals the number of
processing connections as long as (`Core.KeepsCount`)

* a connection registers its files only while it is not stopped and not already
  processing (a client may send `PUSH_FILES` twice before the first one is
  executed, and a stop may overtake a running `PUSH_FILES`);
* a login is not stored on a processing connection (it moves the client back to
  the logged state without discounting it).
-/

namespace FspServer

open Runs

namespace Registry

/-! ## Counting processing connections -/

theorem processing_congr {r r' : Registry} (hconnections : r'.connections = r.connections)
    (hstate : ∀ c ∈ r.connections, r'.state c = .processing ↔ r.state c = .processing) :
    r'.processing = r.processing := by
  unfold processing
  rw [hconnections]
  exact List.filter_congr fun c hc => by simp [hstate c hc]

/-- One connection taken apart from the others. -/
theorem length_processing_of_mem {r : Registry} {c : ConnId} (hc : c ∈ r.connections) :
    r.processing.length =
      ((r.connections.erase c).filter fun d => r.state d = .processing).length +
        if r.state c = .processing then 1 else 0 := by
  simpa [processing] using length_filter_of_mem hc fun d => decide (r.state d = .processing)

theorem length_processing_accept (r : Registry) (position : Nat)
    (hnew : r.state r.accepted = .connected) :
    (r.accept position).processing.length = r.processing.length := by
  have hperm : (r.accept position).connections.Perm (r.accepted :: r.connections) :=
    List.perm_insertIdx _ _ (Nat.min_le_right _ _)
  unfold processing
  rw [(hperm.filter _).length_eq, List.filter_cons_of_neg (by simp [accept, hnew])]
  rfl

theorem length_processing_register {cfg : Config} {c : ConnId} {n : Notification} {r : Registry}
    (hnodup : r.connections.Nodup) (hc : c ∈ r.connections) (hst : r.state c ≠ .processing) :
    (r.register cfg c n).processing.length = r.processing.length + 1 := by
  rw [length_processing_of_mem hc, length_processing_of_mem (by simpa using hc)]
  simp only [connections_register, state_register, Function.update_self, ↓reduceIte, hst,
    Nat.add_zero]
  congr 2
  refine List.filter_congr fun d hd => ?_
  have hdc : d ≠ c := fun hdc => (List.Nodup.not_mem_erase hnodup) (hdc ▸ hd)
  simp [hdc]

end Registry

/-! ## The steps that keep the count -/

/-- The running handler that an event resumes. -/
def Server.Event.handler (k : Core) : Server.Event → Option Running
  | .resume i => k.running[i]?
  | _ => none

namespace Core

/-- The condition on a handler that is about to do its next section. -/
def HandlerKeepsCount (r : Registry) (c : ConnId) : Continuation → Prop
  | .notifyFilesRegistration => r.stopped c = false ∧ r.state c ≠ .processing
  | .storeLogin .. => c ∈ r.connections → r.state c ≠ .processing
  | _ => True

/-- The steps that keep the counter equal to the number of processing
connections. -/
def KeepsCount (k : Core) (e : Server.Event) : Prop :=
  ∀ h ∈ e.handler k, HandlerKeepsCount k.registry h.conn h.rest

instance (r : Registry) (c : ConnId) (rest : Continuation) :
    Decidable (HandlerKeepsCount r c rest) :=
  match rest with
  | .notifyFilesRegistration => inferInstanceAs (Decidable (_ ∧ _))
  | .storeLogin .. => inferInstanceAs (Decidable (_ → _))
  | .isLogged .. | .notifyFileAdd _ | .notifyPathRemoved _ | .notifyPathRenamed .. |
    .notifyDisconnection .. => inferInstanceAs (Decidable True)

instance (k : Core) (e : Server.Event) : Decidable (k.KeepsCount e) :=
  inferInstanceAs (Decidable (∀ h ∈ e.handler k, _))

/-- The counter is exact, and a handler that is about to remove a connection has
read whether it is processing now. -/
structure Counted (k : Core) : Prop where
  base : k.Base
  count : k.registry.processingCounter = k.registry.processing.length
  read : ∀ c st nick, (⟨c, .notifyDisconnection st nick⟩ : Running) ∈ k.running →
    (st = .processing ↔ k.registry.state c = .processing)

theorem Counted.counter_ne_zero {k : Core} (h : k.Counted) {c : ConnId}
    (hc : c ∈ k.registry.processing) : k.registry.processingCounter ≠ 0 := by
  rw [h.count]
  exact List.length_pos_of_mem hc |>.ne'

theorem Counted.counter_ne_one {k : Core} (h : k.Counted) {c d : ConnId}
    (hc : c ∈ k.registry.processing) (hd : d ∈ k.registry.processing) (hne : c ≠ d) :
    k.registry.processingCounter ≠ 1 := by
  rw [h.count]
  intro hone
  obtain ⟨a, ha⟩ := List.length_eq_one_iff.mp hone
  rw [ha, List.mem_singleton] at hc hd
  exact hne (hc.trans hd.symm)

/-- Steps that change no state of a client on the registry. -/
theorem Counted.of_state_eq {k k' : Core} (h : k.Counted) (hbase : k'.Base)
    (hconnections : k'.registry.connections = k.registry.connections)
    (hstate : k'.registry.state = k.registry.state)
    (hcounter : k'.registry.processingCounter = k.registry.processingCounter)
    (hrunning : ∀ c st nick, (⟨c, .notifyDisconnection st nick⟩ : Running) ∈ k'.running →
      (⟨c, .notifyDisconnection st nick⟩ : Running) ∈ k.running) : k'.Counted where
  base := hbase
  count := by
    rw [hcounter, Registry.processing_congr hconnections fun c _ => by rw [hstate]]
    exact h.count
  read := fun c st nick hr => by
    rw [hstate]
    exact h.read c st nick (hrunning c st nick hr)

theorem Counted.stop {k : Core} (h : k.Counted) {c : ConnId} (hc : k.Alive c) :
    (k.stop c).Counted := by
  have hbase := h.base.stop hc
  unfold Core.stop at hbase ⊢
  split
  · exact h
  · next hs =>
    rw [if_neg hs] at hbase
    refine ⟨hbase, h.count, fun d st nick hr => ?_⟩
    rcases List.mem_append.mp hr with hr | hr
    · exact h.read d st nick hr
    · obtain ⟨rfl, hrest⟩ := Running.mk.inj (List.mem_singleton.mp hr)
      obtain ⟨rfl, rfl⟩ := Continuation.notifyDisconnection.inj hrest
      rfl

theorem Counted.storeLogin {k : Core} (h : k.Counted) {i : Nat} {c : ConnId} {login : Str}
    {logins : List (ConnId × Str)}
    (hbase : Base { k.eraseRunning i with registry := k.registry.storeLogin c login, logins })
    (hkeep : c ∈ k.registry.connections → k.registry.state c ≠ .processing) :
    Counted { k.eraseRunning i with registry := k.registry.storeLogin c login, logins } := by
  have hsame : ∀ d ∈ k.registry.connections,
      (k.registry.storeLogin c login).state d = .processing ↔
        k.registry.state d = .processing := by
    intro d hd
    by_cases hdc : d = c
    · subst hdc
      simp [Registry.storeLogin, hkeep hd]
    · simp [Registry.storeLogin, hdc]
  refine ⟨hbase, ?_, fun d st nick hr => ?_⟩
  · show k.registry.processingCounter = (k.registry.storeLogin c login).processing.length
    have hprocessing : (k.registry.storeLogin c login).processing = k.registry.processing :=
      Registry.processing_congr rfl hsame
    rw [hprocessing]
    exact h.count
  · have hr' := List.mem_of_mem_eraseIdx hr
    have hd : d ∈ k.registry.connections :=
      (h.base.leaving d (List.mem_filterMap.mpr ⟨_, hr', rfl⟩)).1
    exact (h.read d st nick hr').trans (hsame d hd).symm

theorem Counted.register {cfg : Config} {k : Core} (h : k.Counted) {i : Nat} {c : ConnId}
    {n : Notification} (hi : k.running[i]? = some ⟨c, .notifyFilesRegistration⟩)
    (hbase : Base { k.eraseRunning i with registry := k.registry.register cfg c n })
    (hs : k.registry.stopped c = false) (hst : k.registry.state c ≠ .processing) :
    Counted { k.eraseRunning i with registry := k.registry.register cfg c n } := by
  have hc : c ∈ k.registry.connections :=
    h.base.mem_of_alive (Or.inr ⟨_, List.mem_of_getElem? hi, rfl⟩) hs
  refine ⟨hbase, ?_, fun d st nick hr => ?_⟩
  · show (k.registry.register cfg c n).processingCounter =
      (k.registry.register cfg c n).processing.length
    rw [Registry.length_processing_register h.base.nodup hc hst,
      Registry.processingCounter_register, h.count]
  · have hr' := List.mem_of_mem_eraseIdx hr
    have hd := (h.base.leaving d (List.mem_filterMap.mpr ⟨_, hr', rfl⟩)).2
    have hdc : d ≠ c := fun hdc => by
      rw [hdc, hs] at hd
      simp at hd
    simpa [hdc] using h.read d st nick hr'

theorem Counted.disconnect {cfg : Config} {k : Core} (h : k.Counted) {i : Nat} {c : ConnId}
    {st : ClientState} {nick : Str}
    (hi : k.running[i]? = some ⟨c, .notifyDisconnection st nick⟩) :
    Counted { k.eraseRunning i with registry := k.registry.disconnect cfg c st nick } := by
  have hmem := List.mem_of_getElem? hi
  have hc : c ∈ k.registry.connections :=
    (h.base.leaving c (List.mem_filterMap.mpr ⟨_, hmem, rfl⟩)).1
  have hread := h.read c st nick hmem
  have hcount := h.count
  rw [Registry.length_processing_of_mem hc] at hcount
  refine ⟨h.base.disconnect hi, ?_, fun d st' nick' hr => ?_⟩
  · show (k.registry.disconnect cfg c st nick).processingCounter =
      (k.registry.disconnect cfg c st nick).processing.length
    simp only [Registry.processing, Registry.connections_disconnect, Registry.state_disconnect,
      Registry.processingCounter_disconnect]
    by_cases hp : st = .processing
    · rw [if_pos hp, hcount, if_pos (hread.mp hp)]
      rfl
    · rw [if_neg hp, hcount, if_neg fun hp' => hp (hread.mpr hp')]
      rfl
  · simpa using h.read d st' nick' (List.mem_of_mem_eraseIdx hr)

/-- The counter stays exact in a step that keeps the count. -/
theorem Counted.step {cfg : Config} {k k' : Core} {e : Server.Event} (h : k.Counted)
    (hkeep : k.KeepsCount e) (hstep : CoreStep cfg k e k') : k'.Counted := by
  have hbase := h.base.step hstep
  cases hstep with
  | accept position =>
    refine ⟨hbase, ?_, h.read⟩
    exact h.count.trans (Registry.length_processing_accept k.registry position
      (h.base.fresh _ le_rfl).1).symm
  | read => exact h.of_state_eq hbase rfl rfl rfl fun _ _ _ hr => hr
  | @execute i _ _ t started ht hstarted =>
    refine h.of_state_eq hbase rfl rfl rfl fun c st nick hr => ?_
    rcases List.mem_append.mp hr with hr | hr
    · exact hr
    · have hfollows := (hstarted _ hr).2.1
      simp [Continuation.Follows] at hfollows
  | @logout i _ _ t ht _ halive =>
    exact (h.of_state_eq (h.base.eraseTask i) rfl rfl rfl fun _ _ _ hr => hr).stop halive
  | @isLogged i c id login started hi hstarted =>
    refine h.of_state_eq hbase rfl rfl rfl fun d st nick hr => ?_
    rcases List.mem_append.mp hr with hr | hr
    · exact List.mem_of_mem_eraseIdx hr
    · have := hstarted _ hr
      simp at this
  | storeLogin hi => exact h.storeLogin hbase (hkeep _ hi)
  | register n hi => exact h.register hi hbase (hkeep _ hi).1 (hkeep _ hi).2
  | notify hi _ =>
    exact h.of_state_eq hbase (by simp) (by simp) (by simp) fun _ _ _ hr =>
      List.mem_of_mem_eraseIdx hr
  | disconnect hi => exact h.disconnect hi
  | stop halive => exact h.stop halive
  | dropWrite => exact h.of_state_eq hbase rfl rfl rfl fun _ _ _ hr => hr
  | @failWrite i w hi halive =>
    exact (h.of_state_eq (h.base.eraseWrite w) rfl rfl rfl fun _ _ _ hr => hr).stop halive
  | continueWrite => exact h.of_state_eq hbase rfl rfl rfl fun _ _ _ hr => hr
  | finishWrite => exact h.of_state_eq hbase rfl rfl rfl fun _ _ _ hr => hr
  | other => exact h

theorem counted_initial (cfg : Config) (users : List (Str × Str)) :
    (Server.initial cfg users).core.Counted :=
  ⟨base_initial cfg users, rfl, fun _ _ _ h => absurd h List.not_mem_nil⟩

end Core

/-- In every run whose steps all keep the count, the counter is the number of
processing connections in every state reached. -/
theorem processingCounter_of_reach {cfg : Config} {users : List (Str × Str)} {s : Server}
    (h : Reach (Server.step cfg) (fun s e => s.core.KeepsCount e) (Server.initial cfg users) s) :
    s.registry.processingCounter = s.registry.processing.length := by
  have hcounted : s.core.Counted :=
    h.invariant (I := fun s => s.core.Counted) (Core.counted_initial cfg users)
      fun _ _ _ hc hk hs => hc.step hk (Server.step_core hs)
  exact hcounted.count

open Server.Event in
/-- Two clients register and one of them leaves. -/
theorem processingCounter_after_disconnection :
    ∃ s, Reach (Server.step sampleConfig) (fun s e => s.core.KeepsCount e)
        (Server.initial sampleConfig []) s ∧ s.registry.processing = [1] ∧
      s.registry.processingCounter = s.registry.processing.length := by
  obtain ⟨s, hs, hone⟩ := exists_reach_of_exec_guarded (Server.step sampleConfig)
    (fun s e => s.core.KeepsCount e) (Server.initial sampleConfig [])
    (fun s => s.registry.processing = [1])
    ([.accept 0, .accept 0] ++ login 0 ['a'] ++ login 1 ['b'] ++ register 0 [] ++
      register 1 [] ++ [.stop 0, .resume 0]) (by decide +kernel)
  exact ⟨s, hs, hone, processingCounter_of_reach hs⟩

open Server.Event in
/-- A client sends `PUSH_FILES` twice before the first one is executed: it is
counted twice. -/
theorem pushFiles_twice_counted_twice :
    ∃ s, Reach (Server.step sampleConfig) anyStep (Server.initial sampleConfig []) s ∧
      s.registry.processingCounter ≠ s.registry.processing.length := by
  obtain ⟨s, hs, hbad⟩ := exists_reach_of_exec (Server.step sampleConfig)
    (Server.initial sampleConfig [])
    (fun s => s.registry.processingCounter ≠ s.registry.processing.length)
    ([.accept 0] ++ login 0 ['a'] ++ [readPushFiles 0 [], readPushFiles 0 [],
      executeFirst, executeFirst, .resume 0, .resume 0]) (by decide +kernel)
  exact ⟨s, hs, hbad⟩

end FspServer
