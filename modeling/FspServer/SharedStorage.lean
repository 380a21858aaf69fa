import FspServer.ProcessingCounter
import Mathlib.Data.List.Nodup

/-!
# Shared buffers

A broadcast stores one buffer with a counter and starts a shared write of it on
each recipient; every completed write decrements the counter, and the one that
makes it zero erases the buffer. The counter is computed from
`processing_counter_`, the recipients are chosen by a scan over the connections.

* A buffer is kept as long as it is being written (`sharedWrites_stored`) when
  every notification of a change of files is made by a connection that is still
  in `connections_`.
* A buffer is erased once every recipient has sent it or has left
  (`sharedStorage_reclaimed`), when in addition the counter is exact, no other
  processing client has the notifier's nickname, no shared write fails, and no
  connection leaves with an unfinished shared write.

Both are instances of `Registry.Accounted`, which relates the counter of each
buffer to the number of its unfinished writes.
-/

namespace FspServer

open Runs

namespace Registry

/-! ## The counter of a buffer and its unfinished writes -/

/-- The number of unfinished writes of a buffer. -/
def pending (r : Registry) (id : Nat) : Nat := r.writes.countP fun w => w.bufferID = id

/-- Every buffer that is being written is stored, and `rel` relates the number of
its unfinished writes to its counter. -/
structure Accounted (rel : Nat → Nat → Prop) (r : Registry) : Prop where
  known : ∀ id ∈ r.sharedStorage, id ≤ r.sharedStorageIDCounter
  stored : ∀ w ∈ r.writes, w.bufferID ∈ r.sharedStorage
  counter : ∀ id b, r.sharedStorage[id]? = some b → rel (r.pending id) b.counter

theorem pending_pos {r : Registry} {w : SharedWrite} (hw : w ∈ r.writes) :
    0 < r.pending w.bufferID :=
  List.countP_pos_iff.mpr ⟨w, hw, by simp⟩

theorem pending_erase {r : Registry} {w : SharedWrite} (hw : w ∈ r.writes) (id : Nat) :
    r.pending id = (r.eraseWrite w).pending id + if w.bufferID = id then 1 else 0 := by
  unfold pending eraseWrite
  rw [(List.perm_cons_erase hw).countP_eq, List.countP_cons]
  simp

variable {rel : Nat → Nat → Prop} {r : Registry}

/-- Only the shared buffers and their writes matter. -/
theorem Accounted.congr {r' : Registry} (h : r.Accounted rel)
    (hstorage : r'.sharedStorage = r.sharedStorage)
    (hcounter : r'.sharedStorageIDCounter = r.sharedStorageIDCounter)
    (hwrites : r'.writes = r.writes) : r'.Accounted rel where
  known := by rw [hstorage, hcounter]; exact h.known
  stored := by rw [hstorage, hwrites]; exact h.stored
  counter := by
    rw [hstorage]
    unfold pending
    rw [hwrites]
    exact h.counter

/-- A broadcast whose counter fits the number of its recipients. -/
theorem Accounted.storeShared (h : r.Accounted rel) (cfg : Config) (n : Notification)
    (counter : Nat) (recipients : List ConnId) (hrel : rel recipients.length counter) :
    (r.storeShared cfg n counter recipients).Accounted rel := by
  have hfresh : r.sharedStorageIDCounter + 1 ∉ r.sharedStorage := fun hid =>
    absurd (h.known _ hid) (Nat.not_succ_le_self _)
  have hwrites : ∀ id, (r.storeShared cfg n counter recipients).pending id =
      r.pending id + if r.sharedStorageIDCounter + 1 = id then recipients.length else 0 := by
    intro id
    by_cases hid : r.sharedStorageIDCounter + 1 = id
    · simp [pending, Registry.storeShared, hid, List.countP_map, Function.comp_def]
    · simp [pending, Registry.storeShared, hid, List.countP_map, Function.comp_def]
  refine ⟨fun id hid => ?_, fun w hw => ?_, fun id b hb => ?_⟩
  · rcases Std.TreeMap.mem_insertIfNew.mp hid with hid | hid
    · exact le_of_eq (Nat.compare_eq_eq.mp hid).symm
    · exact Nat.le_succ_of_le (h.known id hid)
  · refine Std.TreeMap.mem_insertIfNew.mpr ?_
    rcases List.mem_append.mp hw with hw | hw
    · exact Or.inr (h.stored w hw)
    · obtain ⟨c, -, rfl⟩ := List.mem_map.mp hw
      exact Or.inl (Nat.compare_eq_eq.mpr rfl)
  · rw [hwrites]
    simp only [Registry.storeShared, Std.TreeMap.getElem?_insertIfNew, hfresh, not_false_eq_true,
      and_true, Nat.compare_eq_eq] at hb
    by_cases hid : r.sharedStorageIDCounter + 1 = id
    · have hnone : r.pending id = 0 := by
        refine List.countP_eq_zero.mpr fun w hw hwid => hfresh ?_
        rw [hid, ← (by simpa using hwid : w.bufferID = id)]
        exact h.stored w hw
      rw [if_pos hid] at hb
      obtain rfl := Option.some.inj hb
      simpa [hid, hnone] using hrel
    · rw [if_neg hid] at hb
      simpa [hid] using h.counter id b hb

theorem Accounted.continueWrite (h : r.Accounted rel) {w : SharedWrite} (hw : w ∈ r.writes)
    (transferred : Nat) : (r.continueWrite w transferred).Accounted rel := by
  have hpending : ∀ id, (r.continueWrite w transferred).pending id = r.pending id := by
    intro id
    rw [pending_erase hw]
    simp [pending, Registry.continueWrite, eraseWrite, List.countP_cons]
  refine ⟨h.known, fun v hv => ?_, fun id b hb => by rw [hpending]; exact h.counter id b hb⟩
  rcases List.mem_append.mp hv with hv | hv
  · exact h.stored v (List.mem_of_mem_erase hv)
  · rw [List.mem_singleton.mp hv]
    exact h.stored w hw

/-- A write that is given up. -/
theorem Accounted.eraseWrite (h : r.Accounted rel) {w : SharedWrite} (hw : w ∈ r.writes)
    (hrel : ∀ n m, rel (n + 1) m → rel n m) : (r.eraseWrite w).Accounted rel := by
  refine ⟨h.known, fun v hv => h.stored v (List.mem_of_mem_erase hv), fun id b hb => ?_⟩
  have hcounter := h.counter id b hb
  rw [pending_erase hw] at hcounter
  split at hcounter
  · exact hrel _ _ hcounter
  · exact hcounter

/-- A buffer with an unfinished write is stored, and its counter is positive. -/
theorem Accounted.exists_counter (h : r.Accounted rel) {w : SharedWrite} (hw : w ∈ r.writes)
    (hle : ∀ n m, rel n m → n ≤ m) :
    ∃ b m, r.sharedStorage[w.bufferID]? = some b ∧ b.counter = m + 1 ∧
      rel ((r.eraseWrite w).pending w.bufferID + 1) (m + 1) := by
  obtain ⟨b, hb⟩ := Option.isSome_iff_exists.mp
    (Std.TreeMap.isSome_getElem?_iff_mem.mpr (h.stored w hw))
  have hcounter := h.counter _ b hb
  rw [pending_erase hw, if_pos rfl] at hcounter
  obtain ⟨m, hm⟩ : ∃ m, b.counter = m + 1 :=
    Nat.exists_eq_succ_of_ne_zero fun h0 => by
      have := hle _ _ hcounter
      omega
  exact ⟨b, m, hb, hm, hm ▸ hcounter⟩

/-- The entries after a complete write: the counter of its buffer goes down, and
the entry goes when it reaches zero and the assertion is evaluated. -/
theorem getElem?_finishWrite (build : Build) {w : SharedWrite} {b : SharedBuffer} {m : Nat}
    (hb : r.sharedStorage[w.bufferID]? = some b) (hm : b.counter = m + 1) (id : Nat) :
    (r.finishWrite build w).sharedStorage[id]? =
      if w.bufferID = id then
        if m = 0 ∧ build = .debug then none else some { b with counter := m }
      else r.sharedStorage[id]? := by
  have hentry : (r.eraseWrite w).sharedStorage[w.bufferID]? = some b := hb
  have hdec : decrement b.counter = m := by simp [decrement, hm]
  simp only [Registry.finishWrite, notifySharedWriteDone, hentry, Option.getD_some, hdec]
  by_cases hlast : m = 0 ∧ build = .debug
  · rw [if_pos hlast, if_pos hlast, Std.TreeMap.getElem?_erase, Std.TreeMap.getElem?_insert]
    by_cases hid : w.bufferID = id
    · simp [hid]
    · simp [hid, Registry.eraseWrite]
  · rw [if_neg hlast, if_neg hlast, Std.TreeMap.getElem?_insert]
    by_cases hid : w.bufferID = id
    · simp [hid]
    · simp [hid, Registry.eraseWrite]

/-- A write that is complete. The buffer goes when its counter reaches zero. -/
theorem Accounted.finishWrite (h : r.Accounted rel) {w : SharedWrite} (hw : w ∈ r.writes)
    (build : Build) (hle : ∀ n m, rel n m → n ≤ m)
    (hrel : ∀ n m, rel (n + 1) (m + 1) → (m = 0 → build = .release) → rel n m) :
    (r.finishWrite build w).Accounted rel := by
  obtain ⟨b, m, hb, hm, hcounter⟩ := h.exists_counter hw hle
  have hleft : (r.eraseWrite w).pending w.bufferID ≤ m := Nat.le_of_succ_le_succ (hle _ _ hcounter)
  have hget := getElem?_finishWrite build hb hm
  refine ⟨fun id hid => ?_, fun v hv => ?_, fun id b' hb' => ?_⟩
  · rw [← Std.TreeMap.isSome_getElem?_iff_mem, hget] at hid
    split at hid
    · next heq => exact heq ▸ h.known _ (h.stored w hw)
    · exact h.known id (Std.TreeMap.isSome_getElem?_iff_mem.mp hid)
  · rw [← Std.TreeMap.isSome_getElem?_iff_mem, hget]
    split
    · next heq =>
      -- another write of the buffer is left, so this one was not the last
      have hpos : 0 < (r.eraseWrite w).pending w.bufferID :=
        heq ▸ pending_pos (r := r.eraseWrite w) hv
      rw [if_neg (by omega)]
      rfl
    · exact Std.TreeMap.isSome_getElem?_iff_mem.mpr (h.stored v (List.mem_of_mem_erase hv))
  · show rel ((r.eraseWrite w).pending id) b'.counter
    rw [hget] at hb'
    split at hb'
    · next heq =>
      subst heq
      split at hb'
      · simp at hb'
      · next hlast =>
        obtain rfl := Option.some.inj hb'
        refine hrel _ _ hcounter fun h0 => ?_
        cases build with
        | debug => exact absurd ⟨h0, rfl⟩ hlast
        | release => rfl
    · next hne =>
      have hold := h.counter id b' hb'
      rwa [pending_erase hw id, if_neg hne] at hold

theorem accounted_initial (rel : Nat → Nat → Prop) : ({} : Registry).Accounted rel where
  known := fun id hid => absurd hid Std.TreeMap.not_mem_emptyc
  stored := fun _ hw => absurd hw List.not_mem_nil
  counter := fun id b hb => by simp at hb

/-! ## The connections that are counted -/

/-- The connections of `connections_` that went through registration. -/
def present (r : Registry) : List ConnId := r.connections.filter fun c => c ∈ r.registered

theorem length_processing_le_present {r : Registry}
    (h : ∀ c, r.state c = .processing → c ∈ r.registered) :
    r.processing.length ≤ r.present.length :=
  length_filter_le fun c _ hc => by simpa using h c (by simpa using hc)

theorem length_present_register {cfg : Config} {c : ConnId} {n : Notification} {r : Registry}
    (hnodup : r.connections.Nodup) :
    (r.register cfg c n).present.length ≤ r.present.length + 1 := by
  unfold present
  simp only [connections_register, registered_register]
  by_cases hc : c ∈ r.connections
  · rw [length_filter_of_mem hc]
    refine Nat.add_le_add ?_ (by split <;> simp)
    refine (length_filter_le (q := fun d => d ∈ r.registered) fun d hd hmem => ?_).trans
      ((List.erase_sublist.filter _).length_le)
    have hdc : d ≠ c := fun hdc => (List.Nodup.not_mem_erase hnodup) (hdc ▸ hd)
    simpa [hdc] using hmem
  · refine (length_filter_le fun d hd hmem => ?_).trans (Nat.le_succ _)
    have hdc : d ≠ c := fun hdc => hc (hdc ▸ hd)
    simpa [hdc] using hmem

theorem length_present_accept (r : Registry) (position : Nat)
    (hnew : r.accepted ∉ r.registered) :
    (r.accept position).present.length = r.present.length := by
  have hperm : (r.accept position).connections.Perm (r.accepted :: r.connections) :=
    List.perm_insertIdx _ _ (Nat.min_le_right _ _)
  unfold present
  rw [(hperm.filter _).length_eq, List.filter_cons_of_neg (by simp [accept, hnew])]
  rfl

end Registry

/-! ## No buffer goes while it is being written -/

/-- The handlers whose connection has registered: those that notify of a change
of files, and those that have read a processing client's state. -/
def Continuation.OfRegistered : Continuation → Prop
  | .notifyFileAdd _ | .notifyPathRemoved _ | .notifyPathRenamed .. => True
  | .notifyDisconnection st _ => st = .processing
  | _ => False

theorem Continuation.ofRegistered_of_notification {rest : Continuation} {owner : Str}
    {n : Notification} (h : rest.notification owner = some n) : rest.OfRegistered := by
  cases rest <;> simp_all [notification, OfRegistered]

namespace Core

/-- A change of files is announced only by a connection that is still in
`connections_`. -/
def NotifierPresent (k : Core) (e : Server.Event) : Prop :=
  ∀ h ∈ e.handler k, (h.rest.notification []).isSome → h.conn ∈ k.registry.connections

instance (k : Core) (e : Server.Event) : Decidable (k.NotifierPresent e) :=
  inferInstanceAs (Decidable (∀ h ∈ e.handler k, _ → _))

/-- The counter covers the registered connections, and the counter of each buffer
covers its unfinished writes. -/
structure Covered (k : Core) : Prop where
  base : k.Base
  accepted : ∀ c ∈ k.registry.registered, c < k.registry.accepted
  processing : ∀ c, k.registry.state c = .processing → c ∈ k.registry.registered
  tracks : k.Tracks (fun r => r.command = .QUERRY) Continuation.OfRegistered
    (· ∈ k.registry.registered)
  counter : k.registry.present.length ≤ k.registry.processingCounter
  accounted : k.registry.Accounted (· ≤ ·)

theorem Covered.tracks_step {cfg : Config} {k k' : Core} {e : Server.Event} (h : k.Covered)
    (hstep : CoreStep cfg k e k')
    (hmono : ∀ c ∈ k.registry.registered, c ∈ k'.registry.registered) :
    k'.Tracks (fun r => r.command = .QUERRY) Continuation.OfRegistered
      (· ∈ k'.registry.registered) := by
  refine h.tracks.step hstep hmono (fun c r _ hvalid hq => ?_) ?_ (fun _ _ hq => hq.elim)
    fun c _ hst => hmono c (h.processing c hst)
  · refine hmono c (h.processing c ?_)
    cases hst : k.registry.state c <;> simp_all [transitionValidate]
  · intro rest r hfollows hq
    cases rest <;> cases r <;> simp_all [Continuation.Follows, Continuation.OfRegistered,
      Request.command]

/-- Steps that leave the registered connections and the states alone. -/
theorem Covered.of_registry {cfg : Config} {k k' : Core} {e : Server.Event} (h : k.Covered)
    (hstep : CoreStep cfg k e k')
    (haccepted : k'.registry.accepted = k.registry.accepted)
    (hconnections : k'.registry.connections = k.registry.connections)
    (hregistered : k'.registry.registered = k.registry.registered)
    (hprocessing : ∀ c, k'.registry.state c = .processing → k.registry.state c = .processing)
    (hcounter : k'.registry.processingCounter = k.registry.processingCounter)
    (haccounted : k'.registry.Accounted (· ≤ ·)) : k'.Covered where
  base := h.base.step hstep
  accepted := by rw [hregistered, haccepted]; exact h.accepted
  processing := by
    rw [hregistered]
    exact fun c hc => h.processing c (hprocessing c hc)
  tracks := h.tracks_step hstep (by rw [hregistered]; exact fun _ hc => hc)
  counter := by
    rw [hcounter]
    unfold Registry.present
    rw [hconnections, hregistered]
    exact h.counter
  accounted := haccounted

theorem Registry.accounted_doNotify {cfg : Config} {r : Registry} {c : ConnId} {n : Notification}
    (h : r.Accounted (· ≤ ·)) (hc : c ∈ r.present) (hnodup : r.connections.Nodup)
    (hprocessing : ∀ d, r.state d = .processing → d ∈ r.registered)
    (hcounter : r.present.length ≤ r.processingCounter) :
    (r.doNotify cfg (r.nickname c) n).Accounted (· ≤ ·) := by
  unfold Registry.doNotify
  split
  · exact h
  · refine h.storeShared cfg n _ _ ?_
    obtain ⟨hmem, hreg⟩ := List.mem_filter.mp hc
    -- the recipients are registered connections other than the notifier
    have hrecipients : (r.processing.filter fun d => r.nickname d ≠ r.nickname c).length ≤
        ((r.connections.erase c).filter fun d => d ∈ r.registered).length := by
      rw [hnodup.erase_eq_filter, Registry.processing, List.filter_filter, List.filter_filter]
      refine length_filter_le fun d _ hd => ?_
      simp only [Bool.and_eq_true, decide_eq_true_eq, bne_iff_ne] at hd ⊢
      exact ⟨hprocessing d hd.2, fun hdc => hd.1 (by rw [hdc])⟩
    have hpresent : r.present.length =
        ((r.connections.erase c).filter fun d => d ∈ r.registered).length + 1 := by
      rw [Registry.present, length_filter_of_mem hmem, if_pos hreg]
    have hdec : decrement r.processingCounter = r.processingCounter - 1 := by
      unfold decrement
      rw [if_neg (by omega)]
    show _ ≤ _
    omega

theorem Covered.disconnect {cfg : Config} {k : Core} (h : k.Covered) {i : Nat} {c : ConnId}
    {st : ClientState} {nick : Str}
    (hi : k.running[i]? = some ⟨c, .notifyDisconnection st nick⟩) :
    Covered { k.eraseRunning i with registry := k.registry.disconnect cfg c st nick } := by
  have hstep : CoreStep cfg k (.resume i) _ := .disconnect hi
  have hmem := List.mem_of_getElem? hi
  have hc : c ∈ k.registry.connections :=
    (h.base.leaving c (List.mem_filterMap.mpr ⟨_, hmem, rfl⟩)).1
  have hpresent : k.registry.present.length =
      ((k.registry.connections.erase c).filter fun d => d ∈ k.registry.registered).length +
        if c ∈ k.registry.registered then 1 else 0 := by
    simpa [Registry.present] using
      length_filter_of_mem hc fun d => decide (d ∈ k.registry.registered)
  have hcounter := h.counter
  -- a client that was read as processing has registered, so it is counted
  have hreg : st = .processing → c ∈ k.registry.registered := fun hst =>
    h.tracks.running _ hmem hst
  have hdec : st = .processing →
      decrement k.registry.processingCounter = k.registry.processingCounter - 1 := by
    intro hst
    rw [hpresent, if_pos (hreg hst)] at hcounter
    unfold decrement
    rw [if_neg (by omega)]
  have hleft : ((k.registry.connections.erase c).filter
      fun d => d ∈ k.registry.registered).length ≤
        (k.registry.disconnect cfg c st nick).processingCounter := by
    rw [Registry.processingCounter_disconnect]
    split
    · next hst =>
      rw [hdec hst]
      rw [hpresent, if_pos (hreg hst)] at hcounter
      omega
    · omega
  refine ⟨h.base.step hstep, by simpa using h.accepted, by simpa using h.processing,
    h.tracks_step hstep (by simp), by simpa [Registry.present] using hleft, ?_⟩
  rw [Registry.processingCounter_disconnect] at hleft
  unfold Registry.disconnect
  dsimp only
  split
  · next hst =>
    rw [if_pos hst] at hleft
    split
    · exact h.accounted.congr rfl rfl rfl
    · refine Registry.Accounted.storeShared ?_ cfg _ _ _ (le_trans ?_ hleft)
      · exact h.accounted.congr rfl rfl rfl
      · exact length_filter_le fun d _ hd => by simpa using h.processing d (by simpa using hd)
  · exact h.accounted.congr rfl rfl rfl

theorem Covered.register {cfg : Config} {k : Core} (h : k.Covered) {i : Nat} {c : ConnId}
    {n : Notification} (hi : k.running[i]? = some ⟨c, .notifyFilesRegistration⟩) :
    Covered { k.eraseRunning i with registry := k.registry.register cfg c n } := by
  have hstep : CoreStep cfg k (.resume i) _ := .register n hi
  have hlt : c < k.registry.accepted := h.base.known.running _ (List.mem_of_getElem? hi) trivial
  refine ⟨h.base.step hstep, ?_, fun d hd => ?_, h.tracks_step hstep ?_, ?_, ?_⟩
  · simpa using ⟨hlt, h.accepted⟩
  · by_cases hdc : d = c
    · simp [hdc]
    · simp only [Registry.state_register, Function.update_of_ne hdc] at hd
      simpa using Or.inr (h.processing d hd)
  · simpa using fun d hd => Or.inr hd
  · simp only [Registry.processingCounter_register]
    exact (Registry.length_present_register h.base.nodup).trans (Nat.succ_le_succ h.counter)
  · unfold Registry.register
    dsimp only
    split
    · exact h.accounted.congr rfl rfl rfl
    · have hle : k.registry.processing.length ≤ k.registry.processingCounter :=
        (Registry.length_processing_le_present h.processing).trans h.counter
      have hstored := h.accounted.storeShared cfg n (k.registry.processingCounter + 1 - 1)
        k.registry.processing hle
      exact hstored.congr rfl rfl rfl

theorem Covered.stop {k : Core} (h : k.Covered) {c : ConnId} (hc : k.Alive c) :
    (k.stop c).Covered := by
  have hbase := h.base.stop hc
  have htracks := h.tracks.stop (c := c) (h.processing c)
  unfold Core.stop at hbase htracks ⊢
  split
  · exact h
  · next hs =>
    rw [if_neg hs] at hbase htracks
    exact ⟨hbase, h.accepted, h.processing, htracks, h.counter, h.accounted.congr rfl rfl rfl⟩

theorem Covered.eraseWrite {k : Core} (h : k.Covered) {w : SharedWrite}
    (hw : w ∈ k.registry.writes) : Covered { k with registry := k.registry.eraseWrite w } :=
  ⟨h.base.eraseWrite w, h.accepted, h.processing, ⟨h.tracks.tasks, h.tracks.running⟩, h.counter,
    h.accounted.eraseWrite hw fun _ _ hle => Nat.le_of_succ_le hle⟩

theorem Covered.eraseTask {k : Core} (h : k.Covered) (i : Nat) : (k.eraseTask i).Covered :=
  ⟨h.base.eraseTask i, h.accepted, h.processing,
    ⟨fun t ht => h.tracks.tasks t (List.mem_of_mem_eraseIdx ht), h.tracks.running⟩, h.counter,
    h.accounted⟩

/-- A step in which the notifier is present keeps every buffer covered. -/
theorem Covered.step {cfg : Config} {k k' : Core} {e : Server.Event} (h : k.Covered)
    (hkeep : k.NotifierPresent e) (hstep : CoreStep cfg k e k') : k'.Covered := by
  have hsame := h.of_registry hstep
  cases hstep with
  | accept position =>
    have hstep : CoreStep cfg k (.accept position) _ := .accept position
    refine ⟨h.base.step hstep, fun c hc => Nat.lt_succ_of_lt (h.accepted c hc), h.processing,
      h.tracks_step hstep fun _ hc => hc, ?_, h.accounted.congr rfl rfl rfl⟩
    have hnew : k.registry.accepted ∉ k.registry.registered := fun hc =>
      absurd (h.accepted _ hc) (lt_irrefl _)
    exact le_of_eq_of_le (Registry.length_present_accept k.registry position hnew) h.counter
  | read => exact hsame rfl rfl rfl (fun _ hc => hc) rfl h.accounted
  | execute => exact hsame rfl rfl rfl (fun _ hc => hc) rfl h.accounted
  | @logout i _ _ t ht _ halive => exact (h.eraseTask i).stop halive
  | isLogged => exact hsame rfl rfl rfl (fun _ hc => hc) rfl h.accounted
  | @storeLogin i c =>
    refine hsame rfl rfl rfl (fun d hd => ?_) rfl (h.accounted.congr rfl rfl rfl)
    by_cases hdc : d = c
    · simp [Registry.storeLogin, hdc] at hd
    · simpa [Registry.storeLogin, hdc] using hd
  | register n hi => exact h.register hi
  | @notify i r n hi hn =>
    have hreg : r.conn ∈ k.registry.registered :=
      h.tracks.running r (List.mem_of_getElem? hi) (Continuation.ofRegistered_of_notification hn)
    have hsome : (r.rest.notification []).isSome := by
      cases hrest : r.rest <;> simp_all [Continuation.notification]
    have hpresent : r.conn ∈ k.registry.present :=
      List.mem_filter.mpr ⟨hkeep r hi hsome, by simpa using hreg⟩
    exact hsame (by simp) (by simp) (by simp) (by simp) (by simp)
      (Registry.accounted_doNotify h.accounted hpresent h.base.nodup h.processing h.counter)
  | disconnect hi => exact h.disconnect hi
  | stop halive => exact h.stop halive
  | dropWrite hi _ => exact h.eraseWrite (List.mem_of_getElem? hi)
  | failWrite hi halive => exact (h.eraseWrite (List.mem_of_getElem? hi)).stop halive
  | continueWrite hi _ =>
    exact hsame rfl rfl rfl (fun _ hc => hc) rfl
      (h.accounted.continueWrite (List.mem_of_getElem? hi) _)
  | finishWrite hi _ =>
    exact hsame rfl rfl rfl (fun _ hc => hc) rfl
      (h.accounted.finishWrite (List.mem_of_getElem? hi) cfg.build (fun _ _ hle => hle)
        fun _ _ hle _ => Nat.le_of_succ_le_succ hle)
  | other => exact h

theorem covered_initial (cfg : Config) (users : List (Str × Str)) :
    (Server.initial cfg users).core.Covered where
  base := base_initial cfg users
  accepted := fun _ h => absurd h List.not_mem_nil
  processing := fun _ h => by simp [Server.core, Server.initial] at h
  tracks := ⟨fun _ h => absurd h List.not_mem_nil, fun _ h => absurd h List.not_mem_nil⟩
  counter := Nat.le_refl 0
  accounted := Registry.accounted_initial _

end Core

/-- In every run in which changes of files are announced only by connections that
are still in `connections_`, every buffer that is being written is stored with a
positive counter: it was not erased, `notify_shared_write_done` finds it, and its
decrement does not wrap. -/
theorem sharedWrites_stored {cfg : Config} {users : List (Str × Str)} {s : Server}
    (h : Reach (Server.step cfg) (fun s e => s.core.NotifierPresent e)
      (Server.initial cfg users) s) :
    ∀ w ∈ s.registry.writes, ∃ b, s.registry.sharedStorage[w.bufferID]? = some b ∧
      0 < b.counter := by
  have hcovered : s.core.Covered :=
    h.invariant (I := fun s => s.core.Covered) (Core.covered_initial cfg users)
      fun _ _ _ hc hk hs => hc.step hk (Server.step_core hs)
  intro w hw
  have hacc : s.registry.Accounted (· ≤ ·) := hcovered.accounted
  obtain ⟨b, hb⟩ := Option.isSome_iff_exists.mp
    (Std.TreeMap.isSome_getElem?_iff_mem.mpr (hacc.stored w hw))
  exact ⟨b, hb, lt_of_lt_of_le (Registry.pending_pos hw) (hacc.counter _ b hb)⟩

open Server.Event in
/-- A client adds a file and the other one is told of it. -/
theorem sharedWrites_stored_after_add :
    ∃ s, Reach (Server.step sampleConfig) (fun s e => s.core.NotifierPresent e)
        (Server.initial sampleConfig []) s ∧
      s.registry.writes = [⟨0, 1, 1, 0⟩, ⟨1, 2, 1, 0⟩] ∧
      ∀ w ∈ s.registry.writes, ∃ b, s.registry.sharedStorage[w.bufferID]? = some b ∧
        0 < b.counter := by
  obtain ⟨s, hs, hw⟩ := exists_reach_of_exec_guarded (Server.step sampleConfig)
    (fun s e => s.core.NotifierPresent e) (Server.initial sampleConfig [])
    (fun s => s.registry.writes = [⟨0, 1, 1, 0⟩, ⟨1, 2, 1, 0⟩])
    ([.accept 0, .accept 0] ++ login 0 ['a'] ++ login 1 ['b'] ++ register 0 [] ++
      register 1 [] ++ [readQuerry 0 ['a'] ['f'] [], executeFirst, .resume 0])
    (by decide +kernel)
  exact ⟨s, hs, hw, sharedWrites_stored hs⟩

open Server.Event in
/-- A client is stopped between adding a file and announcing it. The buffer is
stored for one recipient and written to two; the first one to finish erases it. -/
theorem late_notifier_erases_buffer :
    ∃ s, Reach (Server.step sampleConfig) anyStep (Server.initial sampleConfig []) s ∧
      ∃ w ∈ s.registry.writes, s.registry.sharedStorage[w.bufferID]? = none := by
  obtain ⟨s, hs, w, hw, hnone⟩ := exists_reach_of_exec (Server.step sampleConfig)
    (Server.initial sampleConfig [])
    (fun s => ∃ w ∈ s.registry.writes, s.registry.sharedStorage[w.bufferID]?.isNone)
    ([.accept 0, .accept 0, .accept 0] ++ login 0 ['a'] ++ login 1 ['b'] ++ login 2 ['c'] ++
      register 0 [] ++ register 1 [] ++ register 2 [] ++
      [readQuerry 0 ['a'] ['f'] [], executeFirst, .stop 0, .resume 1, .resume 0,
        .sharedWrite 2 (.bytes 1), .sharedWrite 2 (.bytes 1), .sharedWrite 3 (.bytes 1)])
    (by decide +kernel)
  exact ⟨s, hs, w, hw, Option.isNone_iff_eq_none.mp hnone⟩

/-! ## Every buffer is reclaimed -/

namespace Core

/-- The condition on a handler that is about to do its next section: a change of
files is announced by a connection that is in `connections_`, is processing and
shares its nickname with no other processing connection; a connection leaves
without unfinished shared writes. -/
def HandlerKeepsBuffers (r : Registry) (c : ConnId) : Continuation → Prop
  | .notifyFileAdd _ | .notifyPathRemoved _ | .notifyPathRenamed .. =>
    c ∈ r.processing ∧ ∀ d ∈ r.processing, r.nickname d = r.nickname c → d = c
  | .notifyDisconnection .. => ∀ w ∈ r.writes, w.conn ≠ c
  | _ => True

instance (r : Registry) (c : ConnId) (rest : Continuation) :
    Decidable (HandlerKeepsBuffers r c rest) :=
  match rest with
  | .notifyFileAdd _ | .notifyPathRemoved _ | .notifyPathRenamed .. =>
    inferInstanceAs (Decidable (_ ∧ _))
  | .notifyDisconnection .. => inferInstanceAs (Decidable (∀ w ∈ _, _))
  | .isLogged .. | .storeLogin .. | .notifyFilesRegistration => inferInstanceAs (Decidable True)

/-- No shared write fails. -/
def WriteSucceeds : Server.Event → Prop
  | .sharedWrite _ .failed => False
  | _ => True

instance (e : Server.Event) : Decidable (WriteSucceeds e) :=
  match e with
  | .sharedWrite _ .failed => inferInstanceAs (Decidable False)
  | .sharedWrite _ (.bytes _) | .accept _ | .read .. | .execute .. | .resume _ | .stop _ |
    .backupTimer _ | .transactionTimer _ | .helloSender _ | .transferCompleted .. |
    .uploadCompleted _ => inferInstanceAs (Decidable True)

/-- The steps that keep the counter of every buffer equal to the number of its
unfinished writes. -/
def KeepsBuffers (k : Core) (e : Server.Event) : Prop :=
  k.KeepsCount e ∧ WriteSucceeds e ∧
    ∀ h ∈ e.handler k, HandlerKeepsBuffers k.registry h.conn h.rest

instance (k : Core) (e : Server.Event) : Decidable (k.KeepsBuffers e) :=
  inferInstanceAs (Decidable (_ ∧ _ ∧ _))

end Core

/-- The counter is the number of unfinished writes, and there is one. -/
def Exact (n m : Nat) : Prop := n = m ∧ 0 < m

namespace Registry

/-- The unfinished writes are of connections in `connections_`, and each is of a
buffer that was handed to the connection and that it has not finished. -/
structure WritesOpen (r : Registry) : Prop where
  connections : ∀ w ∈ r.writes, w.conn ∈ r.connections
  handed : ∀ w ∈ r.writes, (w.conn, w.bufferID) ∈ r.handed
  unfinished : ∀ w ∈ r.writes, (w.conn, w.bufferID) ∉ r.finished
  distinct : (r.writes.map fun w => (w.conn, w.bufferID)).Nodup
  known : ∀ p ∈ r.finished, p.2 ≤ r.sharedStorageIDCounter

theorem WritesOpen.congr {r r' : Registry} (h : r.WritesOpen)
    (hconnections : ∀ w ∈ r.writes, w.conn ∈ r'.connections) (hwrites : r'.writes = r.writes)
    (hhanded : r'.handed = r.handed) (hfinished : r'.finished = r.finished)
    (hcounter : r'.sharedStorageIDCounter = r.sharedStorageIDCounter) : r'.WritesOpen where
  connections := by rw [hwrites]; exact hconnections
  handed := by rw [hwrites, hhanded]; exact h.handed
  unfinished := by rw [hwrites, hfinished]; exact h.unfinished
  distinct := by rw [hwrites]; exact h.distinct
  known := by rw [hfinished, hcounter]; exact h.known

theorem WritesOpen.storeShared {r : Registry} (h : r.WritesOpen) (cfg : Config) (n : Notification)
    (counter : Nat) {recipients : List ConnId} (hids : ∀ w ∈ r.writes,
      w.bufferID ≤ r.sharedStorageIDCounter) (hmem : ∀ c ∈ recipients, c ∈ r.connections)
    (hnodup : recipients.Nodup) : (r.storeShared cfg n counter recipients).WritesOpen := by
  have split : ∀ w ∈ (r.storeShared cfg n counter recipients).writes,
      w ∈ r.writes ∨ (w.conn ∈ recipients ∧ w.bufferID = r.sharedStorageIDCounter + 1) := by
    intro w hw
    rcases List.mem_append.mp hw with hw | hw
    · exact Or.inl hw
    · obtain ⟨c, hc, rfl⟩ := List.mem_map.mp hw
      exact Or.inr ⟨hc, rfl⟩
  refine ⟨fun w hw => ?_, fun w hw => ?_, fun w hw hfin => ?_, ?_, fun p hp =>
    Nat.le_succ_of_le (h.known p hp)⟩
  · rcases split w hw with hw | ⟨hc, -⟩
    · exact h.connections w hw
    · exact hmem _ hc
  · rcases split w hw with hw | ⟨hc, hid⟩
    · exact List.mem_append_left _ (h.handed w hw)
    · exact List.mem_append_right _ (List.mem_map.mpr ⟨w.conn, hc, by rw [hid]⟩)
  · rcases split w hw with hw | ⟨-, hid⟩
    · exact h.unfinished w hw hfin
    · have := h.known _ hfin
      rw [hid] at this
      exact absurd this (Nat.not_succ_le_self _)
  · have hmap : (r.storeShared cfg n counter recipients).writes.map
        (fun w => (w.conn, w.bufferID)) = r.writes.map (fun w => (w.conn, w.bufferID)) ++
          recipients.map fun c => (c, r.sharedStorageIDCounter + 1) := by
      simp [Registry.storeShared, Function.comp_def]
    rw [hmap]
    refine List.nodup_append.mpr ⟨h.distinct,
      List.Nodup.map (fun c d hcd => congrArg Prod.fst hcd) hnodup, fun p hp q hq hpq => ?_⟩
    obtain ⟨w, hw, rfl⟩ := List.mem_map.mp hp
    obtain ⟨c, -, rfl⟩ := List.mem_map.mp hq
    have hid : w.bufferID = r.sharedStorageIDCounter + 1 := congrArg Prod.snd hpq
    exact absurd (hids w hw) (by rw [hid]; exact Nat.not_succ_le_self _)

theorem WritesOpen.continueWrite {r : Registry} (h : r.WritesOpen) {w : SharedWrite}
    (hw : w ∈ r.writes) (transferred : Nat) : (r.continueWrite w transferred).WritesOpen := by
  have hperm : ((r.continueWrite w transferred).writes.map fun w => (w.conn, w.bufferID)).Perm
      (r.writes.map fun w => (w.conn, w.bufferID)) := by
    refine List.Perm.trans ?_ ((List.perm_cons_erase hw).map _).symm
    simp [Registry.continueWrite]
  have same : ∀ v ∈ (r.continueWrite w transferred).writes,
      ∃ u ∈ r.writes, (u.conn, u.bufferID) = (v.conn, v.bufferID) := by
    intro v hv
    exact List.mem_map.mp (hperm.mem_iff.mp (List.mem_map.mpr ⟨v, hv, rfl⟩))
  refine ⟨fun v hv => ?_, fun v hv => ?_, fun v hv => ?_, hperm.nodup_iff.mpr h.distinct, h.known⟩
  all_goals obtain ⟨u, hu, hsame⟩ := same v hv
  · have hconn : u.conn = v.conn := congrArg Prod.fst hsame
    rw [← hconn]
    exact h.connections u hu
  · rw [← hsame]
    exact h.handed u hu
  · rw [← hsame]
    exact h.unfinished u hu

theorem WritesOpen.finishWrite {r : Registry} (h : r.WritesOpen) (build : Build)
    {w : SharedWrite} (hw : w ∈ r.writes) (hid : w.bufferID ≤ r.sharedStorageIDCounter) :
    (r.finishWrite build w).WritesOpen := by
  have hperm := (List.perm_cons_erase hw).map fun w => (w.conn, w.bufferID)
  have hdistinct := hperm.nodup_iff.mp h.distinct
  rw [List.map_cons, List.nodup_cons] at hdistinct
  have old : ∀ v ∈ (r.finishWrite build w).writes, v ∈ r.writes := fun v hv =>
    List.mem_of_mem_erase hv
  refine ⟨fun v hv => h.connections v (old v hv), fun v hv => h.handed v (old v hv),
    fun v hv hfin => ?_, hdistinct.2, fun p hp => ?_⟩
  · rcases List.mem_cons.mp hfin with hsame | hfin
    · exact hdistinct.1 (List.mem_map.mpr ⟨v, hv, hsame⟩)
    · exact h.unfinished v (old v hv) hfin
  · rcases List.mem_cons.mp hp with rfl | hp
    · exact hid
    · exact h.known p hp

end Registry

namespace Core

/-- The counter of processing connections and the counter of every buffer are
exact. -/
structure Reclaimed (k : Core) : Prop where
  counted : k.Counted
  accounted : k.registry.Accounted Exact
  writes : k.registry.WritesOpen

namespace Reclaimed

variable {cfg : Config} {k k' : Core}

theorem bufferID_le (h : k.Reclaimed) {w : SharedWrite} (hw : w ∈ k.registry.writes) :
    w.bufferID ≤ k.registry.sharedStorageIDCounter :=
  h.accounted.known _ (h.accounted.stored w hw)

/-- Steps that leave the buffers and their writes alone. -/
theorem of_registry (h : k.Reclaimed) (hcounted : k'.Counted)
    (hconnections : ∀ w ∈ k.registry.writes, w.conn ∈ k'.registry.connections)
    (hstorage : k'.registry.sharedStorage = k.registry.sharedStorage)
    (hcounter : k'.registry.sharedStorageIDCounter = k.registry.sharedStorageIDCounter)
    (hwrites : k'.registry.writes = k.registry.writes)
    (hhanded : k'.registry.handed = k.registry.handed)
    (hfinished : k'.registry.finished = k.registry.finished) : k'.Reclaimed :=
  ⟨hcounted, h.accounted.congr hstorage hcounter hwrites,
    h.writes.congr hconnections hwrites hhanded hfinished hcounter⟩

/-- The buffers and their writes after a broadcast to `counter` connections. -/
theorem storeShared (h : k.Reclaimed) {r : Registry} (cfg : Config) (n : Notification)
    (counter : Nat) (recipients : List ConnId)
    (hconnections : ∀ w ∈ k.registry.writes, w.conn ∈ r.connections)
    (hstorage : r.sharedStorage = k.registry.sharedStorage)
    (hcounter : r.sharedStorageIDCounter = k.registry.sharedStorageIDCounter)
    (hwrites : r.writes = k.registry.writes) (hhanded : r.handed = k.registry.handed)
    (hfinished : r.finished = k.registry.finished)
    (hmem : ∀ c ∈ recipients, c ∈ r.connections) (hnodup : recipients.Nodup)
    (hexact : Exact recipients.length counter) :
    (r.storeShared cfg n counter recipients).Accounted Exact ∧
      (r.storeShared cfg n counter recipients).WritesOpen := by
  refine ⟨(h.accounted.congr hstorage hcounter hwrites).storeShared cfg n _ _ hexact, ?_⟩
  refine (h.writes.congr hconnections hwrites hhanded hfinished hcounter).storeShared cfg n counter
    (fun w hw => ?_) hmem hnodup
  rw [hwrites] at hw
  rw [hcounter]
  exact h.bufferID_le hw

theorem doNotify (h : k.Reclaimed) (cfg : Config) (n : Notification) {c : ConnId}
    (hc : c ∈ k.registry.processing)
    (hsole : ∀ d ∈ k.registry.processing, k.registry.nickname d = k.registry.nickname c → d = c) :
    (k.registry.doNotify cfg (k.registry.nickname c) n).Accounted Exact ∧
      (k.registry.doNotify cfg (k.registry.nickname c) n).WritesOpen := by
  have hnodup : k.registry.processing.Nodup := h.counted.base.nodup.filter _
  have hrecipients : (k.registry.processing.filter
      fun d => k.registry.nickname d ≠ k.registry.nickname c) = k.registry.processing.erase c := by
    rw [hnodup.erase_eq_filter]
    refine List.filter_congr fun d hd => ?_
    by_cases hdc : d = c
    · simp [hdc]
    · have hne : k.registry.nickname d ≠ k.registry.nickname c := fun he => hdc (hsole d hd he)
      simp [hdc, hne]
  have hlength : (k.registry.processing.erase c).length + 1 = k.registry.processingCounter := by
    have hpos := List.length_pos_of_mem hc
    rw [List.length_erase_of_mem hc, h.counted.count]
    omega
  unfold Registry.doNotify
  split
  · exact ⟨h.accounted, h.writes⟩
  · next hone =>
    rw [hrecipients]
    refine h.storeShared cfg n _ _ h.writes.connections rfl rfl rfl rfl rfl (fun d hd => ?_)
      (hnodup.erase c) ?_
    · exact (List.mem_filter.mp (List.mem_of_mem_erase hd)).1
    · unfold Exact decrement
      rw [if_neg (by omega)]
      omega

theorem register (h : k.Reclaimed) {i : Nat} {c : ConnId} {n : Notification}
    (hcounted : Counted { k.eraseRunning i with registry := k.registry.register cfg c n }) :
    Reclaimed { k.eraseRunning i with registry := k.registry.register cfg c n } := by
  suffices hboth : (k.registry.register cfg c n).Accounted Exact ∧
      (k.registry.register cfg c n).WritesOpen from ⟨hcounted, hboth.1, hboth.2⟩
  unfold Registry.register
  dsimp only
  split
  · exact ⟨h.accounted.congr rfl rfl rfl, h.writes.congr h.writes.connections rfl rfl rfl rfl⟩
  · next hone =>
    -- the recipients are the connections that were processing, and the counter was exact
    obtain ⟨hacc, hopen⟩ := h.storeShared
      (r := { k.registry with
        processingCounter := k.registry.processingCounter + 1
        registered := c :: k.registry.registered })
      cfg n (k.registry.processingCounter + 1 - 1) k.registry.processing h.writes.connections
      rfl rfl rfl rfl rfl (fun d hd => (List.mem_filter.mp hd).1)
      (h.counted.base.nodup.filter _) (by
        have hcount := h.counted.count
        unfold Exact
        omega)
    exact ⟨hacc.congr rfl rfl rfl, hopen.congr hopen.connections rfl rfl rfl rfl⟩

theorem disconnect (h : k.Reclaimed) {i : Nat} {c : ConnId} {st : ClientState} {nick : Str}
    (hcounted : Counted { k.eraseRunning i with registry := k.registry.disconnect cfg c st nick })
    (hdone : ∀ w ∈ k.registry.writes, w.conn ≠ c) :
    Reclaimed { k.eraseRunning i with registry := k.registry.disconnect cfg c st nick } := by
  have hconnections : ∀ w ∈ k.registry.writes, w.conn ∈ k.registry.connections.erase c :=
    fun w hw => (List.mem_erase_of_ne (hdone w hw)).mpr (h.writes.connections w hw)
  have hcount : (k.registry.disconnect cfg c st nick).processingCounter =
      ((k.registry.connections.erase c).filter
        fun d => k.registry.state d = .processing).length := by
    simpa [Registry.processing] using hcounted.count
  rw [Registry.processingCounter_disconnect] at hcount
  suffices hboth : (k.registry.disconnect cfg c st nick).Accounted Exact ∧
      (k.registry.disconnect cfg c st nick).WritesOpen from ⟨hcounted, hboth.1, hboth.2⟩
  unfold Registry.disconnect
  dsimp only
  split
  · next hst =>
    rw [if_pos hst] at hcount
    split
    · exact ⟨h.accounted.congr rfl rfl rfl, h.writes.congr hconnections rfl rfl rfl rfl⟩
    · next hzero =>
      refine h.storeShared (r := { k.registry with
          connections := k.registry.connections.erase c
          processingCounter := decrement k.registry.processingCounter })
        cfg _ _ _ hconnections rfl rfl rfl rfl rfl (fun d hd => (List.mem_filter.mp hd).1)
        ((h.counted.base.nodup.erase c).filter _) ?_
      exact ⟨hcount.symm, Nat.pos_of_ne_zero hzero⟩
  · exact ⟨h.accounted.congr rfl rfl rfl, h.writes.congr hconnections rfl rfl rfl rfl⟩

theorem stop (h : k.Reclaimed) {c : ConnId} (hcounted : (k.stop c).Counted) :
    (k.stop c).Reclaimed := by
  unfold Core.stop at hcounted ⊢
  split
  · exact h
  · next hs =>
    rw [if_neg hs] at hcounted
    exact h.of_registry hcounted h.writes.connections rfl rfl rfl rfl rfl

/-- The counters stay exact in a step that keeps them, as long as the assertions
are evaluated. -/
theorem step (h : k.Reclaimed) {e : Server.Event} (hbuild : cfg.build = .debug)
    (hkeep : k.KeepsBuffers e) (hstep : CoreStep cfg k e k') : k'.Reclaimed := by
  have hcounted := h.counted.step hkeep.1 hstep
  cases hstep with
  | accept position =>
    refine h.of_registry hcounted (fun w hw => ?_) rfl rfl rfl rfl rfl
    exact (List.mem_insertIdx (Nat.min_le_right _ _)).mpr (Or.inr (h.writes.connections w hw))
  | read => exact h.of_registry hcounted h.writes.connections rfl rfl rfl rfl rfl
  | execute => exact h.of_registry hcounted h.writes.connections rfl rfl rfl rfl rfl
  | @logout i =>
    refine stop (k := k.eraseTask i) ?_ hcounted
    exact ⟨⟨h.counted.base.eraseTask i, h.counted.count, h.counted.read⟩, h.accounted, h.writes⟩
  | isLogged => exact h.of_registry hcounted h.writes.connections rfl rfl rfl rfl rfl
  | storeLogin => exact h.of_registry hcounted h.writes.connections rfl rfl rfl rfl rfl
  | register n hi => exact h.register hcounted
  | @notify i r n hi hn =>
    have hhandler := hkeep.2.2 r hi
    have hsole : r.conn ∈ k.registry.processing ∧ ∀ d ∈ k.registry.processing,
        k.registry.nickname d = k.registry.nickname r.conn → d = r.conn := by
      obtain ⟨c, rest⟩ := r
      cases rest with
      | notifyFileAdd => exact hhandler
      | notifyPathRemoved => exact hhandler
      | notifyPathRenamed => exact hhandler
      | _ => simp [Continuation.notification] at hn
    obtain ⟨hacc, hopen⟩ := h.doNotify cfg n hsole.1 hsole.2
    exact ⟨hcounted, hacc, hopen⟩
  | disconnect hi => exact h.disconnect hcounted (hkeep.2.2 _ hi)
  | stop => exact h.stop hcounted
  | dropWrite hi hdead =>
    exact absurd (Or.inl (h.writes.connections _ (List.mem_of_getElem? hi))) hdead
  | failWrite => exact absurd hkeep.2.1 (by simp [WriteSucceeds])
  | continueWrite hi _ =>
    have hw := List.mem_of_getElem? hi
    exact ⟨hcounted, h.accounted.continueWrite hw _, h.writes.continueWrite hw _⟩
  | finishWrite hi _ =>
    have hw := List.mem_of_getElem? hi
    refine ⟨hcounted, ?_, h.writes.finishWrite cfg.build hw (h.bufferID_le hw)⟩
    refine h.accounted.finishWrite hw cfg.build (fun n m hexact => hexact.1.le)
      fun n m hexact hzero => ⟨Nat.succ.inj hexact.1, Nat.pos_of_ne_zero fun h0 => ?_⟩
    simp [hbuild] at hzero
    exact hzero h0
  | other => exact h

end Reclaimed

theorem reclaimed_initial (cfg : Config) (users : List (Str × Str)) :
    (Server.initial cfg users).core.Reclaimed where
  counted := counted_initial cfg users
  accounted := Registry.accounted_initial _
  writes := ⟨fun _ h => absurd h List.not_mem_nil, fun _ h => absurd h List.not_mem_nil,
    fun _ h => absurd h List.not_mem_nil, List.nodup_nil, fun _ h => absurd h List.not_mem_nil⟩

end Core

/-- In every run whose steps keep the counters exact, with assertions evaluated, a
buffer is erased once every connection it was handed to has sent it or has left. -/
theorem sharedStorage_reclaimed {cfg : Config} {users : List (Str × Str)} {s : Server}
    (hbuild : cfg.build = .debug)
    (h : Reach (Server.step cfg) (fun s e => s.core.KeepsBuffers e)
      (Server.initial cfg users) s) (id : Nat)
    (hdone : ∀ c, (c, id) ∈ s.registry.handed →
      (c, id) ∈ s.registry.finished ∨ c ∉ s.registry.connections) :
    id ∉ s.registry.sharedStorage := by
  have hrec : s.core.Reclaimed :=
    h.invariant (I := fun s => s.core.Reclaimed) (Core.reclaimed_initial cfg users)
      fun _ _ _ hc hk hs => hc.step hbuild hk (Server.step_core hs)
  intro hid
  obtain ⟨b, hb⟩ := Option.isSome_iff_exists.mp (Std.TreeMap.isSome_getElem?_iff_mem.mpr hid)
  obtain ⟨hcount, hpos⟩ := hrec.accounted.counter id b hb
  rw [← hcount] at hpos
  obtain ⟨w, hw, hwid⟩ := List.countP_pos_iff.mp hpos
  obtain rfl : w.bufferID = id := by simpa using hwid
  rcases hdone w.conn (hrec.writes.handed w hw) with hfin | hgone
  · exact hrec.writes.unfinished w hw hfin
  · exact hgone (hrec.writes.connections w hw)

open Server.Event in
/-- A client registers, and the other one has sent all of the notification. -/
theorem sharedStorage_reclaimed_after_write :
    sampleConfig.build = .debug ∧ ∃ s,
      Reach (Server.step sampleConfig) (fun s e => s.core.KeepsBuffers e)
        (Server.initial sampleConfig []) s ∧
      s.registry.handed = [(0, 1)] ∧ 1 ∉ s.registry.sharedStorage := by
  obtain ⟨s, hs, hhanded, hfinished⟩ := exists_reach_of_exec_guarded (Server.step sampleConfig)
    (fun s e => s.core.KeepsBuffers e) (Server.initial sampleConfig [])
    (fun s => s.registry.handed = [(0, 1)] ∧ s.registry.finished = [(0, 1)])
    ([.accept 0, .accept 0] ++ login 0 ['a'] ++ login 1 ['b'] ++ register 0 [] ++
      register 1 [] ++ [.sharedWrite 0 (.bytes 1)]) (by decide +kernel)
  refine ⟨rfl, s, hs, hhanded, sharedStorage_reclaimed rfl hs 1 fun c hc => Or.inl ?_⟩
  rwa [hhanded, ← hfinished] at hc

open Server.Event in
/-- The only recipient of a notification is stopped before it has sent it: nobody
is left to erase the buffer. -/
theorem disconnected_recipient_keeps_buffer :
    ∃ s, Reach (Server.step sampleConfig) anyStep (Server.initial sampleConfig []) s ∧
      (∀ c, (c, 1) ∈ s.registry.handed →
        (c, 1) ∈ s.registry.finished ∨ c ∉ s.registry.connections) ∧
      1 ∈ s.registry.sharedStorage := by
  obtain ⟨s, hs, hhanded, hgone, hkey⟩ := exists_reach_of_exec (Server.step sampleConfig)
    (Server.initial sampleConfig [])
    (fun s => (s.registry.handed.filter fun p => p.2 = 1) = [(0, 1)] ∧
      0 ∉ s.registry.connections ∧ (s.registry.sharedStorage[1]?).isSome)
    ([.accept 0, .accept 0] ++ login 0 ['a'] ++ login 1 ['b'] ++ register 0 [] ++
      register 1 [] ++ [.stop 0, .resume 0, .sharedWrite 0 (.bytes 1)]) (by decide +kernel)
  refine ⟨s, hs, fun c hc => Or.inr ?_, Std.TreeMap.isSome_getElem?_iff_mem.mp hkey⟩
  have hmem : (c, 1) ∈ s.registry.handed.filter fun p => p.2 = 1 :=
    List.mem_filter.mpr ⟨hc, by simp⟩
  rw [hhanded, List.mem_singleton] at hmem
  obtain ⟨rfl, -⟩ := Prod.mk.inj hmem
  exact hgone

end FspServer
