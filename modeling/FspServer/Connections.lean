import FspServer.Core
import Mathlib.Data.List.Perm.Basic

/-!
# Connections

Facts about connections that hold in every run, whatever the clients send and
however the handlers interleave:

* `Core.Tracks`: a fact about connections that only grows and that holds when a
  request is admitted holds for every queued task and running handler of that
  kind;
* `Core.Base`: `connections_` has no connection twice, a connection leaves it
  only after it was stopped, and at most one handler is about to remove it.
-/

namespace FspServer

/-- The elements around an index. -/
theorem split_of_getElem? {α : Type*} {l : List α} {i : Nat} {a : α} (h : l[i]? = some a) :
    ∃ l₁ l₂, l = l₁ ++ a :: l₂ ∧ l.eraseIdx i = l₁ ++ l₂ := by
  induction l generalizing i with
  | nil => simp at h
  | cons b l ih =>
    cases i with
    | zero => exact ⟨[], l, by simpa using h, rfl⟩
    | succ i =>
      obtain ⟨l₁, l₂, hl, he⟩ := ih (i := i) (by simpa using h)
      exact ⟨b :: l₁, l₂, by rw [hl, List.cons_append], by rw [List.eraseIdx_cons_succ, he]; rfl⟩

/-- Filtering a list with one element taken apart from the others. -/
theorem length_filter_of_mem {α : Type*} [DecidableEq α] {l : List α} {a : α} (h : a ∈ l)
    (p : α → Bool) :
    (l.filter p).length = ((l.erase a).filter p).length + if p a then 1 else 0 := by
  rw [((List.perm_cons_erase h).filter _).length_eq, List.filter_cons]
  by_cases hp : p a <;> simp [hp]

/-- A weaker test lets at least as many elements through. -/
theorem length_filter_le {α : Type*} {l : List α} {p q : α → Bool}
    (h : ∀ a ∈ l, p a = true → q a = true) : (l.filter p).length ≤ (l.filter q).length := by
  rw [← List.countP_eq_length_filter, ← List.countP_eq_length_filter]
  exact List.countP_mono_left h

/-! ## The fields of the registry after each section -/

namespace Registry

variable (cfg : Config) (c : ConnId) (st : ClientState) (nick : Str) (n : Notification)
  (w : SharedWrite) (r : Registry)

@[simp] theorem accepted_disconnect : (r.disconnect cfg c st nick).accepted = r.accepted := by
  unfold disconnect; dsimp only; split <;> [split; skip] <;> rfl

@[simp] theorem connections_disconnect :
    (r.disconnect cfg c st nick).connections = r.connections.erase c := by
  unfold disconnect; dsimp only; split <;> [split; skip] <;> rfl

@[simp] theorem state_disconnect : (r.disconnect cfg c st nick).state = r.state := by
  unfold disconnect; dsimp only; split <;> [split; skip] <;> rfl

@[simp] theorem nickname_disconnect : (r.disconnect cfg c st nick).nickname = r.nickname := by
  unfold disconnect; dsimp only; split <;> [split; skip] <;> rfl

@[simp] theorem stopped_disconnect : (r.disconnect cfg c st nick).stopped = r.stopped := by
  unfold disconnect; dsimp only; split <;> [split; skip] <;> rfl

@[simp] theorem registered_disconnect :
    (r.disconnect cfg c st nick).registered = r.registered := by
  unfold disconnect; dsimp only; split <;> [split; skip] <;> rfl

theorem processingCounter_disconnect :
    (r.disconnect cfg c st nick).processingCounter =
      if st = .processing then decrement r.processingCounter else r.processingCounter := by
  unfold disconnect
  dsimp only
  split
  · split <;> rfl
  · rfl

@[simp] theorem accepted_register : (r.register cfg c n).accepted = r.accepted := by
  unfold register; dsimp only; split <;> rfl

@[simp] theorem connections_register : (r.register cfg c n).connections = r.connections := by
  unfold register; dsimp only; split <;> rfl

@[simp] theorem state_register :
    (r.register cfg c n).state = Function.update r.state c .processing := by
  unfold register; dsimp only; split <;> rfl

@[simp] theorem nickname_register : (r.register cfg c n).nickname = r.nickname := by
  unfold register; dsimp only; split <;> rfl

@[simp] theorem stopped_register : (r.register cfg c n).stopped = r.stopped := by
  unfold register; dsimp only; split <;> rfl

@[simp] theorem registered_register :
    (r.register cfg c n).registered = c :: r.registered := by
  unfold register; dsimp only; split <;> rfl

@[simp] theorem processingCounter_register :
    (r.register cfg c n).processingCounter = r.processingCounter + 1 := by
  unfold register; dsimp only; split <;> rfl

@[simp] theorem accepted_doNotify : (r.doNotify cfg nick n).accepted = r.accepted := by
  unfold doNotify; split <;> rfl

@[simp] theorem connections_doNotify : (r.doNotify cfg nick n).connections = r.connections := by
  unfold doNotify; split <;> rfl

@[simp] theorem state_doNotify : (r.doNotify cfg nick n).state = r.state := by
  unfold doNotify; split <;> rfl

@[simp] theorem nickname_doNotify : (r.doNotify cfg nick n).nickname = r.nickname := by
  unfold doNotify; split <;> rfl

@[simp] theorem stopped_doNotify : (r.doNotify cfg nick n).stopped = r.stopped := by
  unfold doNotify; split <;> rfl

@[simp] theorem registered_doNotify : (r.doNotify cfg nick n).registered = r.registered := by
  unfold doNotify; split <;> rfl

@[simp] theorem processingCounter_doNotify :
    (r.doNotify cfg nick n).processingCounter = r.processingCounter := by
  unfold doNotify; split <;> rfl

end Registry

namespace Core

@[simp] theorem registry_eraseTask (i : Nat) (k : Core) :
    (k.eraseTask i).registry = k.registry := rfl

@[simp] theorem connections_stop (c : ConnId) (k : Core) :
    (k.stop c).registry.connections = k.registry.connections := by
  unfold stop; split <;> rfl

@[simp] theorem state_stop (c : ConnId) (k : Core) :
    (k.stop c).registry.state = k.registry.state := by
  unfold stop; split <;> rfl

@[simp] theorem nickname_stop (c : ConnId) (k : Core) :
    (k.stop c).registry.nickname = k.registry.nickname := by
  unfold stop; split <;> rfl

@[simp] theorem logins_stop (c : ConnId) (k : Core) : (k.stop c).logins = k.logins := by
  unfold stop; split <;> rfl

end Core

/-! ## Facts about the connections of tasks and handlers -/

namespace Core

/-- Every queued task of the kind `Qr` and every running handler of the kind
`Qc` belongs to a connection of which `F` holds. -/
structure Tracks (Qr : Request → Prop) (Qc : Continuation → Prop) (F : ConnId → Prop)
    (k : Core) : Prop where
  tasks : ∀ t ∈ k.tasks, Qr t.request → F t.conn
  running : ∀ h ∈ k.running, Qc h.rest → F h.conn

theorem Tracks.mono {Qr : Request → Prop} {Qc : Continuation → Prop} {F F' : ConnId → Prop}
    {k : Core} (h : k.Tracks Qr Qc F) (hF : ∀ c, F c → F' c) : k.Tracks Qr Qc F' :=
  ⟨fun t ht hq => hF _ (h.tasks t ht hq), fun r hr hq => hF _ (h.running r hr hq)⟩

theorem Tracks.stop {Qr : Request → Prop} {Qc : Continuation → Prop} {F : ConnId → Prop}
    {k : Core} (h : k.Tracks Qr Qc F) {c : ConnId}
    (hc : Qc (.notifyDisconnection (k.registry.state c) (k.registry.nickname c)) → F c) :
    (k.stop c).Tracks Qr Qc F := by
  unfold Core.stop
  split
  · exact h
  · refine ⟨h.tasks, fun r hr hq => ?_⟩
    rcases List.mem_append.mp hr with hr | hr
    · exact h.running r hr hq
    · obtain rfl := List.mem_singleton.mp hr
      exact hc hq

/-- One step keeps tracking `F` when `F` only grows and holds for the connection
whenever a request of the kind is admitted or a connection is stopped. -/
theorem Tracks.step {cfg : Config} {k k' : Core} {e : Server.Event} {Qr : Request → Prop}
    {Qc : Continuation → Prop} {F F' : ConnId → Prop} (h : k.Tracks Qr Qc F)
    (hstep : CoreStep cfg k e k') (hmono : ∀ c, F c → F' c)
    (hread : ∀ c r, k.Alive c → transitionValidate r.command (k.registry.state c) = none →
      Qr r → F' c)
    (hfollow : ∀ (rest : Continuation) (r : Request), rest.Follows r → Qc rest → Qr r)
    (hlogged : ∀ id login, Qc (.storeLogin .LOGIN_SUCCESSFULL id login) → Qc (.isLogged id login))
    (hstop : ∀ c, k.Alive c →
      Qc (.notifyDisconnection (k.registry.state c) (k.registry.nickname c)) → F' c) :
    k'.Tracks Qr Qc F' := by
  have h' : k.Tracks Qr Qc F' := h.mono hmono
  have erased : ∀ i, (k.eraseRunning i).Tracks Qr Qc F' := fun i =>
    ⟨h'.tasks, fun r hr => h'.running r (List.mem_of_mem_eraseIdx hr)⟩
  have erasedTask : ∀ i, (k.eraseTask i).Tracks Qr Qc F' := fun i =>
    ⟨fun t ht => h'.tasks t (List.mem_of_mem_eraseIdx ht), h'.running⟩
  cases hstep with
  | accept position => exact ⟨h'.tasks, h'.running⟩
  | read new halive hnew =>
    refine ⟨fun t ht hq => ?_, h'.running⟩
    rcases List.mem_append.mp ht with ht | ht
    · exact h'.tasks t ht hq
    · obtain ⟨rfl, hvalid⟩ := hnew t ht
      exact hread _ _ halive hvalid hq
  | @execute i _ _ t started ht hstarted =>
    refine ⟨(erasedTask i).tasks, fun r hr hq => ?_⟩
    rcases List.mem_append.mp hr with hr | hr
    · exact h'.running r hr hq
    · obtain ⟨hconn, hfollows, -⟩ := hstarted r hr
      rw [hconn]
      exact h'.tasks t (List.mem_of_getElem? ht) (hfollow _ _ hfollows hq)
  | @logout i _ _ t ht hlogout halive => exact (erasedTask i).stop (hstop _ halive)
  | @isLogged i c id login started hi hstarted =>
    refine ⟨h'.tasks, fun r hr hq => ?_⟩
    rcases List.mem_append.mp hr with hr | hr
    · exact (erased i).running r hr hq
    · obtain rfl := hstarted r hr
      exact h'.running ⟨c, .isLogged id login⟩ (List.mem_of_getElem? hi) (hlogged id login hq)
  | @storeLogin i => exact ⟨h'.tasks, (erased i).running⟩
  | @register i => exact ⟨h'.tasks, (erased i).running⟩
  | @notify i => exact ⟨h'.tasks, (erased i).running⟩
  | @disconnect i => exact ⟨h'.tasks, (erased i).running⟩
  | stop halive => exact h'.stop (hstop _ halive)
  | dropWrite => exact ⟨h'.tasks, h'.running⟩
  | @failWrite i w hi halive =>
    exact Tracks.stop (k := { k with registry := k.registry.eraseWrite w })
      ⟨h'.tasks, h'.running⟩ (hstop _ halive)
  | continueWrite => exact ⟨h'.tasks, h'.running⟩
  | finishWrite => exact ⟨h'.tasks, h'.running⟩
  | other => exact h'

/-- The nickname of a connection changes only when a login is stored on it. -/
theorem nickname_step {cfg : Config} {k k' : Core} {e : Server.Event}
    (hstep : CoreStep cfg k e k') (c : ConnId) :
    k'.registry.nickname c = k.registry.nickname c ∨
      ∃ i code id login, e = .resume i ∧ k.running[i]? = some ⟨c, .storeLogin code id login⟩ ∧
        k'.registry.nickname c = login := by
  cases hstep with
  | @storeLogin i d code id login hi =>
    by_cases hcd : c = d
    · subst hcd
      exact Or.inr ⟨i, code, id, login, rfl, hi, by simp [Registry.storeLogin]⟩
    · exact Or.inl (by simp [Registry.storeLogin, hcd])
  | logout => exact Or.inl (by simp)
  | stop => exact Or.inl (by simp)
  | failWrite => exact Or.inl (by simp [Registry.eraseWrite])
  | register => exact Or.inl (by simp)
  | notify => exact Or.inl (by simp)
  | disconnect => exact Or.inl (by simp)
  | _ => exact Or.inl rfl

/-! ## Connections that leave -/

end Core

namespace Registry

theorem mem_processing {r : Registry} {c : ConnId} :
    c ∈ r.processing ↔ c ∈ r.connections ∧ r.state c = .processing := by
  simp [Registry.processing]

theorem mem_processing_register {cfg : Config} {c d : ConnId} {n : Notification} {r : Registry}
    (h : d ∈ (r.register cfg c n).processing) : d = c ∨ d ∈ r.processing := by
  rw [mem_processing, connections_register, state_register, Function.update_apply] at h
  by_cases hdc : d = c
  · exact Or.inl hdc
  · rw [if_neg hdc] at h
    exact Or.inr (mem_processing.mpr h)

end Registry

/-- The connection that a handler is about to remove from `connections_`. -/
def Running.leaving (h : Running) : Option ConnId :=
  match h.rest with
  | .notifyDisconnection .. => some h.conn
  | _ => none

namespace Core

/-- What holds of the connections in every run. -/
structure Base (k : Core) : Prop where
  nodup : k.registry.connections.Nodup
  accepted : ∀ c ∈ k.registry.connections, c < k.registry.accepted
  fresh : ∀ c, k.registry.accepted ≤ c →
    k.registry.state c = .connected ∧ k.registry.stopped c = false
  gone : ∀ c < k.registry.accepted, c ∉ k.registry.connections → k.registry.stopped c = true
  known : k.Tracks (fun _ => True) (fun _ => True) (· < k.registry.accepted)
  leaving : ∀ c ∈ k.running.filterMap Running.leaving,
    c ∈ k.registry.connections ∧ k.registry.stopped c = true
  leavingOnce : (k.running.filterMap Running.leaving).Nodup

theorem Base.lt_of_alive {k : Core} (h : k.Base) {c : ConnId} (hc : k.Alive c) :
    c < k.registry.accepted := by
  rcases hc with hc | ⟨r, hr, rfl⟩
  · exact h.accepted c hc
  · exact h.known.running r hr trivial

/-- A connection that exists and was not stopped is in `connections_`. -/
theorem Base.mem_of_alive {k : Core} (h : k.Base) {c : ConnId} (hc : k.Alive c)
    (hs : k.registry.stopped c = false) : c ∈ k.registry.connections := by
  by_contra hmem
  simp [h.gone c (h.lt_of_alive hc) hmem] at hs

/-- Handlers that are no disconnections may come and go. -/
theorem Base.of_registry_eq {k k' : Core} (h : k.Base)
    (haccepted : k'.registry.accepted = k.registry.accepted)
    (hconnections : k'.registry.connections = k.registry.connections)
    (hstopped : k'.registry.stopped = k.registry.stopped)
    (hfresh : ∀ c, k.registry.accepted ≤ c → k'.registry.state c = .connected)
    (hknown : k'.Tracks (fun _ => True) (fun _ => True) (· < k.registry.accepted))
    (hleaving : (k'.running.filterMap Running.leaving).Sublist
      (k.running.filterMap Running.leaving)) : k'.Base where
  nodup := by rw [hconnections]; exact h.nodup
  accepted := by rw [hconnections, haccepted]; exact h.accepted
  fresh := by
    rw [haccepted, hstopped]
    exact fun c hc => ⟨hfresh c hc, (h.fresh c hc).2⟩
  gone := by rw [hconnections, haccepted, hstopped]; exact h.gone
  known := by rw [haccepted]; exact hknown
  leaving := by
    rw [hconnections, hstopped]
    exact fun c hc => h.leaving c (hleaving.subset hc)
  leavingOnce := h.leavingOnce.sublist hleaving

theorem Base.eraseTask {k : Core} (h : k.Base) (i : Nat) : (k.eraseTask i).Base :=
  h.of_registry_eq rfl rfl rfl (fun c hc => (h.fresh c hc).1)
    ⟨fun t ht => h.known.tasks t (List.mem_of_mem_eraseIdx ht), h.known.running⟩
    (List.Sublist.refl _)

theorem Base.eraseWrite {k : Core} (h : k.Base) (w : SharedWrite) :
    Base { k with registry := k.registry.eraseWrite w } :=
  h.of_registry_eq rfl rfl rfl (fun c hc => (h.fresh c hc).1)
    ⟨h.known.tasks, h.known.running⟩ (List.Sublist.refl _)

theorem Base.accept {k : Core} (h : k.Base) (position : Nat) :
    Base { k with registry := k.registry.accept position } := by
  have hperm : (k.registry.accept position).connections.Perm
      (k.registry.accepted :: k.registry.connections) :=
    List.perm_insertIdx _ _ (Nat.min_le_right _ _)
  have hmem : ∀ c, c ∈ (k.registry.accept position).connections ↔
      c = k.registry.accepted ∨ c ∈ k.registry.connections := fun c => by
    rw [hperm.mem_iff, List.mem_cons]
  have hnew : k.registry.accepted ∉ k.registry.connections := fun hc =>
    absurd (h.accepted _ hc) (lt_irrefl _)
  refine ⟨hperm.nodup_iff.mpr (List.nodup_cons.mpr ⟨hnew, h.nodup⟩), ?_, ?_, ?_, ?_, ?_,
    h.leavingOnce⟩
  · intro c hc
    rcases (hmem c).mp hc with rfl | hc
    · exact Nat.lt_succ_self _
    · exact Nat.lt_succ_of_lt (h.accepted c hc)
  · exact fun c hc => h.fresh c (Nat.le_of_succ_le hc)
  · intro c hc hnot
    have hnot' := mt (hmem c).mpr hnot
    have hlt : c < k.registry.accepted :=
      lt_of_le_of_ne (Nat.lt_succ_iff.mp hc) fun he => hnot' (Or.inl he)
    exact h.gone c hlt fun hcm => hnot' (Or.inr hcm)
  · exact Tracks.mono ⟨h.known.tasks, h.known.running⟩ fun c hc => Nat.lt_succ_of_lt hc
  · intro c hc
    exact ⟨(hmem c).mpr (Or.inr (h.leaving c hc).1), (h.leaving c hc).2⟩

theorem Base.stop {k : Core} (h : k.Base) {c : ConnId} (hc : k.Alive c) : (k.stop c).Base := by
  unfold Core.stop
  split
  · exact h
  · next hs =>
    have hs : k.registry.stopped c = false := by simpa using hs
    have hmem := h.mem_of_alive hc hs
    have hmono : ∀ d, k.registry.stopped d = true →
        Function.update k.registry.stopped c true d = true := by
      intro d hd
      by_cases hdc : d = c
      · simp [hdc]
      · simpa [hdc] using hd
    have hnot : c ∉ k.running.filterMap Running.leaving := fun hl => by
      simp [(h.leaving c hl).2] at hs
    have hleaving : (k.running ++ [(⟨c, .notifyDisconnection (k.registry.state c)
        (k.registry.nickname c)⟩ : Running)]).filterMap Running.leaving =
          k.running.filterMap Running.leaving ++ [c] := by
      simp [Running.leaving]
    refine ⟨h.nodup, h.accepted, fun d hd => ⟨(h.fresh d hd).1, ?_⟩,
      fun d hd hdm => hmono d (h.gone d hd hdm), ⟨h.known.tasks, fun r hr _ => ?_⟩, ?_, ?_⟩
    · have hdc : d ≠ c := fun hdc => absurd (h.accepted c hmem) (by rw [← hdc]; exact not_lt.mpr hd)
      simpa [Registry.setStopped, hdc] using (h.fresh d hd).2
    · rcases List.mem_append.mp hr with hr | hr
      · exact h.known.running r hr trivial
      · rw [List.mem_singleton.mp hr]
        exact h.accepted c hmem
    · intro d hd
      rw [hleaving] at hd
      rcases List.mem_append.mp hd with hd | hd
      · exact ⟨(h.leaving d hd).1, hmono d (h.leaving d hd).2⟩
      · rw [List.mem_singleton.mp hd]
        exact ⟨hmem, by simp [Registry.setStopped]⟩
    · rw [hleaving]
      exact List.nodup_append.mpr ⟨h.leavingOnce, by simp, by
        intro d hd e he hde
        rw [List.mem_singleton.mp he] at hde
        exact hnot (hde ▸ hd)⟩

/-- The handlers without one, seen as leaving connections. -/
theorem leaving_eraseIdx {k : Core} {i : Nat} {h : Running} (hi : k.running[i]? = some h) :
    ∃ l₁ l₂, k.running.filterMap Running.leaving = l₁ ++ h.leaving.toList ++ l₂ ∧
      (k.running.eraseIdx i).filterMap Running.leaving = l₁ ++ l₂ := by
  obtain ⟨l₁, l₂, hl, he⟩ := split_of_getElem? hi
  refine ⟨l₁.filterMap Running.leaving, l₂.filterMap Running.leaving, ?_, ?_⟩
  · rw [hl, List.filterMap_append, List.filterMap_cons]
    cases h.leaving <;> simp
  · rw [he, List.filterMap_append]

theorem leaving_eraseIdx_sublist (k : Core) (i : Nat) :
    ((k.running.eraseIdx i).filterMap Running.leaving).Sublist
      (k.running.filterMap Running.leaving) :=
  (List.eraseIdx_sublist _ _).filterMap _

theorem Base.disconnect {cfg : Config} {k : Core} (h : k.Base) {i : Nat} {c : ConnId}
    {st : ClientState} {nick : Str}
    (hi : k.running[i]? = some ⟨c, .notifyDisconnection st nick⟩) :
    Base { k.eraseRunning i with registry := k.registry.disconnect cfg c st nick } := by
  obtain ⟨l₁, l₂, hl, he⟩ := leaving_eraseIdx hi
  have hl : k.running.filterMap Running.leaving = l₁ ++ c :: l₂ := by
    simpa [Running.leaving] using hl
  have honce := h.leavingOnce
  rw [hl] at honce
  have hc := h.leaving c (by simp [hl])
  have hrest : c ∉ l₁ ++ l₂ := by
    have := (List.perm_middle.nodup_iff.mp honce)
    exact (List.nodup_cons.mp this).1
  refine ⟨?_, ?_, ?_, ?_, ?_, ?_, ?_⟩
  · simpa using h.nodup.erase c
  · intro d hd
    simp only [Registry.connections_disconnect] at hd
    simpa using h.accepted d (List.mem_of_mem_erase hd)
  · simpa using h.fresh
  · intro d hd hdm
    simp only [Registry.connections_disconnect, Registry.accepted_disconnect,
      Registry.stopped_disconnect] at hd hdm ⊢
    by_cases hdc : d = c
    · rw [hdc]
      exact hc.2
    · exact h.gone d hd fun hm => hdm ((List.mem_erase_of_ne hdc).mpr hm)
  · simp only [Registry.accepted_disconnect]
    exact ⟨h.known.tasks, fun r hr => h.known.running r (List.mem_of_mem_eraseIdx hr)⟩
  · intro d hd
    change d ∈ (k.running.eraseIdx i).filterMap Running.leaving at hd
    rw [he] at hd
    have hdc : d ≠ c := fun hdc => hrest (hdc ▸ hd)
    have hdk := h.leaving d (by
      rw [hl]
      rcases List.mem_append.mp hd with hd | hd
      · exact List.mem_append_left _ hd
      · exact List.mem_append_right _ (List.mem_cons_of_mem _ hd))
    simpa [List.mem_erase_of_ne hdc] using hdk
  · show ((k.running.eraseIdx i).filterMap Running.leaving).Nodup
    exact h.leavingOnce.sublist (leaving_eraseIdx_sublist k i)

/-- The base facts are kept by every step. -/
theorem Base.step {cfg : Config} {k k' : Core} {e : Server.Event} (h : k.Base)
    (hstep : CoreStep cfg k e k') : k'.Base := by
  have hknown : k'.registry.accepted = k.registry.accepted →
      k'.Tracks (fun _ => True) (fun _ => True) (· < k.registry.accepted) := fun _ =>
    h.known.step hstep (fun _ hc => hc) (fun c _ halive _ _ => h.lt_of_alive halive)
      (fun _ _ _ _ => trivial) (fun _ _ _ => trivial) (fun c halive _ => h.lt_of_alive halive)
  have hfresh := fun c hc => (h.fresh c hc).1
  cases hstep with
  | accept position => exact h.accept position
  | read new _ _ => exact h.of_registry_eq rfl rfl rfl hfresh (hknown rfl) (List.Sublist.refl _)
  | @execute i _ _ t started ht hstarted =>
    refine h.of_registry_eq rfl rfl rfl hfresh (hknown rfl) ?_
    have hnone : started.filterMap Running.leaving = [] := by
      refine List.filterMap_eq_nil_iff.mpr fun r hr => ?_
      have hfollows := (hstarted r hr).2.1
      unfold Running.leaving
      split
      · next hrest =>
        rw [hrest] at hfollows
        simp [Continuation.Follows] at hfollows
      · rfl
    simp [hnone]
  | @logout i _ _ t ht _ halive => exact (h.eraseTask i).stop halive
  | @isLogged i c id login started hi hstarted =>
    refine h.of_registry_eq rfl rfl rfl hfresh (hknown rfl) ?_
    have hnone : started.filterMap Running.leaving = [] := by
      refine List.filterMap_eq_nil_iff.mpr fun r hr => ?_
      rw [hstarted r hr]
      rfl
    simpa [hnone, eraseRunning] using leaving_eraseIdx_sublist k i
  | @storeLogin i c code id login hi =>
    have hlt : c < k.registry.accepted := h.known.running _ (List.mem_of_getElem? hi) trivial
    refine h.of_registry_eq rfl rfl rfl (fun d hd => ?_) (hknown rfl) (leaving_eraseIdx_sublist k i)
    have hdc : d ≠ c := fun hdc => absurd hlt (by rw [← hdc]; exact not_lt.mpr hd)
    simpa [Registry.storeLogin, hdc] using hfresh d hd
  | @register i c n hi =>
    have hlt : c < k.registry.accepted := h.known.running _ (List.mem_of_getElem? hi) trivial
    refine h.of_registry_eq (by simp) (by simp) (by simp) (fun d hd => ?_) (hknown (by simp))
      (leaving_eraseIdx_sublist k i)
    have hdc : d ≠ c := fun hdc => absurd hlt (by rw [← hdc]; exact not_lt.mpr hd)
    simpa [hdc] using hfresh d hd
  | @notify i =>
    exact h.of_registry_eq (by simp) (by simp) (by simp) (by simpa using hfresh) (hknown (by simp))
      (leaving_eraseIdx_sublist k i)
  | disconnect hi => exact h.disconnect hi
  | stop halive => exact h.stop halive
  | dropWrite => exact h.of_registry_eq rfl rfl rfl hfresh (hknown rfl) (List.Sublist.refl _)
  | @failWrite i w hi halive => exact (h.eraseWrite w).stop halive
  | continueWrite => exact h.of_registry_eq rfl rfl rfl hfresh (hknown rfl) (List.Sublist.refl _)
  | finishWrite => exact h.of_registry_eq rfl rfl rfl hfresh (hknown rfl) (List.Sublist.refl _)
  | other => exact h

theorem base_initial (cfg : Config) (users : List (Str × Str)) :
    (Server.initial cfg users).core.Base where
  nodup := List.nodup_nil
  accepted := fun _ h => absurd h List.not_mem_nil
  fresh := fun _ _ => ⟨rfl, rfl⟩
  gone := fun c h => absurd h (Nat.not_lt_zero c)
  known := ⟨fun _ h => absurd h List.not_mem_nil, fun _ h => absurd h List.not_mem_nil⟩
  leaving := fun _ h => absurd h List.not_mem_nil
  leavingOnce := List.nodup_nil

/-- Only a registration makes a connection processing. -/
theorem Base.processing_step {cfg : Config} {k k' : Core} {e : Server.Event} (h : k.Base)
    (hstep : CoreStep cfg k e k')
    (hreg : ∀ i, e = .resume i → ∀ r ∈ k.running[i]?, r.rest ≠ .notifyFilesRegistration) :
    ∀ c ∈ k'.registry.processing, c ∈ k.registry.processing := by
  intro c hc
  cases hstep with
  | accept position =>
    obtain ⟨hmem, hst⟩ := Registry.mem_processing.mp hc
    rcases (List.mem_insertIdx (Nat.min_le_right _ _)).mp hmem with rfl | hmem
    · have hfresh := (h.fresh _ le_rfl).1
      rw [show k.registry.state k.registry.accepted = .processing from hst] at hfresh
      cases hfresh
    · exact Registry.mem_processing.mpr ⟨hmem, hst⟩
  | @storeLogin i d =>
    obtain ⟨hmem, hst⟩ := Registry.mem_processing.mp hc
    by_cases hcd : c = d
    · simp [Registry.storeLogin, hcd] at hst
    · exact Registry.mem_processing.mpr ⟨hmem, by simpa [Registry.storeLogin, hcd] using hst⟩
  | register n hi => exact absurd rfl (hreg _ rfl _ hi)
  | notify => simpa [Registry.mem_processing] using hc
  | disconnect =>
    obtain ⟨hmem, hst⟩ := Registry.mem_processing.mp hc
    rw [Registry.connections_disconnect] at hmem
    rw [Registry.state_disconnect] at hst
    exact Registry.mem_processing.mpr ⟨List.mem_of_mem_erase hmem, hst⟩
  | logout => simpa [Registry.mem_processing] using hc
  | stop => simpa [Registry.mem_processing] using hc
  | failWrite => simpa [Registry.mem_processing, Registry.eraseWrite] using hc
  | _ => exact hc

end Core

end FspServer
