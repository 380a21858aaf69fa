import FspServer.Answers
import FspServer.Replies
import FspServer.Lib.Work
import Mathlib.Data.Finset.Card
import Mathlib.Data.Finset.Range

/-!
# The server at rest

The workers, the sends, the timers and the transfers that queries wait for go on without the
clients (`Server.Works`). What is left for them to do is measured by the connections that were
not stopped, the queued tasks, the sections of the running handlers, and what is sent or waited
for, in this order (`Server.load`).

* `comes_to_rest`: they cannot go on forever without new connections or messages, and from
  every reachable state they come to a state in which nothing is left to do.
* `confirmed_concluded`: each confirmed request of a connection was concluded or is under way,
  and a timer or a transfer concludes each query on hold.
* `settled_at_rest`: at rest no handler runs, no buffer is being sent, no query is on hold, the
  stopped connections are gone, and each confirmed request has had its concluding reply.
-/

namespace FspServer

open Runs Server

/-! ## What the server does by itself -/

namespace Server

/-- The workers execute tasks and run handlers, buffers are sent, timers expire, and a transfer
ends for which queries wait. -/
def Works (s : Server) : Event → Prop
  | .execute .. | .resume _ | .sharedWrite .. | .backupTimer _ | .transactionTimer _ => True
  | .transferCompleted id .. => id ∈ s.downloads.backedupRequests
  | _ => False

/-- A client connects or sends a message. -/
def Event.Arrives : Event → Prop
  | .accept _ | .read .. => True
  | _ => False

/-- Nothing is left to do. -/
def Rests (cfg : Config) (s : Server) : Prop := ∀ e, s.Works e → s.step cfg e = none

end Server

/-! ## What is left to do -/

/-- The sections that a handler still has, this one included. -/
def Continuation.sections : Continuation → Nat
  | .isLogged .. => 2
  | _ => 1

/-- The bytes left, and the completion. -/
def SharedWrite.remaining (w : SharedWrite) : Nat := w.size - w.offset + 1

namespace Core

/-- The number of the accepted connections that were not stopped. -/
def unstopped (k : Core) : Nat :=
  ((Finset.range k.registry.accepted).filter fun c => k.registry.stopped c = false).card

def sections (k : Core) : Nat := (k.running.map fun h => h.rest.sections).sum

def sending (k : Core) : Nat := (k.registry.writes.map SharedWrite.remaining).sum

theorem unstopped_congr {k k' : Core} (haccepted : k'.registry.accepted = k.registry.accepted)
    (hstopped : k'.registry.stopped = k.registry.stopped) : k'.unstopped = k.unstopped := by
  rw [unstopped, haccepted, hstopped, unstopped]

/-- A connection that is stopped for the first time counts no more. -/
theorem unstopped_stop {k : Core} {c : ConnId} (hc : c < k.registry.accepted)
    (hs : k.registry.stopped c = false) : (k.stop c).unstopped < k.unstopped := by
  have hstop : (k.stop c).registry = k.registry.setStopped c := by
    rw [Core.stop, if_neg (by simp [hs])]
  have hstopped : ∀ d, (k.registry.setStopped c).stopped d = false ↔
      d ≠ c ∧ k.registry.stopped d = false := fun d => by
    rcases eq_or_ne d c with rfl | hdc
    · simp [Registry.setStopped]
    · simp [Registry.setStopped, hdc]
  rw [unstopped, unstopped, hstop]
  refine Finset.card_lt_card ((Finset.ssubset_iff_of_subset ?_).mpr ⟨c, ?_, ?_⟩)
  · intro d hd
    rw [Finset.mem_filter] at hd ⊢
    exact ⟨hd.1, ((hstopped d).mp hd.2).2⟩
  · exact Finset.mem_filter.mpr ⟨Finset.mem_range.mpr hc, hs⟩
  · exact fun hmem => ((hstopped c).mp (Finset.mem_filter.mp hmem).2).1 rfl

/-- Stopping a connection again does nothing. -/
theorem stop_eq_or_unstopped_lt {k : Core} {c : ConnId} (hc : c < k.registry.accepted) :
    k.stop c = k ∨ (k.stop c).unstopped < k.unstopped := by
  cases hs : k.registry.stopped c with
  | true => exact .inl (by rw [Core.stop, if_pos hs])
  | false => exact .inr (unstopped_stop hc hs)

end Core

/-- An element of a list and the others, under a sum. -/
theorem sum_eraseIdx {β : Type} {l : List β} {i : Nat} {b : β} (h : l[i]? = some b) (f : β → Nat) :
    (l.map f).sum = f b + ((l.eraseIdx i).map f).sum := by
  obtain ⟨hi, rfl⟩ := List.getElem?_eq_some_iff.mp h
  rw [← ((List.getElem_cons_eraseIdx_perm hi).map f).sum_nat, List.map_cons, List.sum_cons]

namespace Server

/-- What waits in the downloads, with the timers and the handlers of the transfers. -/
structure Waiting where
  requests : Std.TreeMap Nat Backup
  timers : List Nat
  handlers : Std.TreeMap Nat CompletionHandler
  transactions : Std.TreeMap Nat (Option FileReceiver)

def waiting (s : Server) : Waiting :=
  ⟨s.downloads.backedupRequests, s.downloads.transactionTimers, s.downloads.completionHandlers,
    s.downloads.downloadTransactions⟩

/-- The entries and timers that are left, and what is being sent. -/
def waits (s : Server) : Nat :=
  s.core.sending + Lookup.total (fun _ => 1) s.waiting.requests + s.waiting.timers.length

/-- What is left to do, the most important first. -/
def load (s : Server) : Nat ×ₗ Nat ×ₗ Nat ×ₗ Nat :=
  toLex (s.core.unstopped, toLex (s.tasks.length, toLex (s.core.sections, s.waits)))

variable {cfg : Config} {s s' : Server}

theorem load_lt_iff : s'.load < s.load ↔ s'.core.unstopped < s.core.unstopped ∨
    s'.core.unstopped = s.core.unstopped ∧ (s'.tasks.length < s.tasks.length ∨
      s'.tasks.length = s.tasks.length ∧ (s'.core.sections < s.core.sections ∨
        s'.core.sections = s.core.sections ∧ s'.waits < s.waits)) := by
  simp only [load, Prod.Lex.toLex_lt_toLex]

theorem load_lt_of_tasks (hunstopped : s'.core.unstopped ≤ s.core.unstopped)
    (htasks : s'.tasks.length < s.tasks.length) : s'.load < s.load := by
  rw [load_lt_iff]
  omega

theorem load_lt_of_sections (hunstopped : s'.core.unstopped = s.core.unstopped)
    (htasks : s'.tasks = s.tasks) (hsections : s'.core.sections < s.core.sections) :
    s'.load < s.load := by
  rw [load_lt_iff, htasks]
  omega

/-- The same connections, tasks and sections are left. -/
def SameWork (s s' : Server) : Prop :=
  s'.core.unstopped = s.core.unstopped ∧ s'.tasks = s.tasks ∧ s'.core.sections = s.core.sections

theorem SameWork.of_core (h : s'.core = s.core) : s.SameWork s' :=
  ⟨congrArg Core.unstopped h, congrArg Core.tasks h, congrArg Core.sections h⟩

theorem SameWork.load_lt (h : s.SameWork s') (hwaits : s'.waits < s.waits) : s'.load < s.load := by
  obtain ⟨hunstopped, htasks, hsections⟩ := h
  rw [load_lt_iff, htasks]
  omega

theorem SameWork.load_le (h : s.SameWork s') (hwaits : s'.waits ≤ s.waits) :
    s'.load ≤ s.load := by
  rcases hwaits.lt_or_eq with hlt | heq
  · exact (h.load_lt hlt).le
  · obtain ⟨hunstopped, htasks, hsections⟩ := h
    rw [load, hunstopped, htasks, hsections, heq, load]

/-! ## Entries that go -/

/-- The entry with the id is gone, and maybe the transaction too. -/
structure Waiting.Drops (id : Nat) (w w' : Waiting) : Prop where
  requests : ∀ j : Nat, w'.requests[j]? = if j = id then none else w.requests[j]?
  total : Lookup.total (fun _ => 1) w'.requests + w.requests[id]?.elim 0 (fun _ => 1) =
    Lookup.total (fun _ => 1) w.requests
  timers : w'.timers = w.timers
  handlers : w'.handlers = w.handlers
  transactions : ∀ (j : Nat) (receiver : Option FileReceiver),
    w'.transactions[j]? = some receiver → w.transactions[j]? = some receiver

/-- The handler of a request leaves alone what waits. -/
def KeepsWaiting (f : DownloadRequest → Server → Server) : Prop :=
  ∀ r s, (f r s).waiting = s.waiting

theorem keepsWaiting_denyDownload : KeepsWaiting denyDownload := fun _ _ => rfl

theorem keepsWaiting_deliverFileFromLocalStorage (env : FileEnv) (path : Str) :
    KeepsWaiting (deliverFileFromLocalStorage cfg env path) := by
  intro r s
  unfold deliverFileFromLocalStorage
  split
  · next id size compression downloads h =>
    unfold Downloads.beginUploadTransaction at h
    split at h
    · cases h
    · split at h
      · cases h
      · simp only [Option.some.injEq, Prod.mk.injEq] at h
        obtain ⟨-, -, -, rfl⟩ := h
        rfl
  · exact keepsWaiting_denyDownload r s

theorem drops_forEachAndRemove {f : DownloadRequest → Server → Server} (hf : KeepsWaiting f)
    (id : Nat) {w : Waiting} (hw : s.waiting = w) :
    w.Drops id (s.forEachAndRemove id f).waiting := by
  subst hw
  unfold forEachAndRemove
  split
  · next hnone =>
    have hnone : s.waiting.requests[id]? = none := hnone
    refine ⟨fun j => ?_, by rw [hnone]; rfl, rfl, rfl, fun _ _ h => h⟩
    split
    · next hj => rw [hj, hnone]
    · rfl
  · next entry hentry =>
    have hloop := Blind.foldl (p := waiting) hf entry.info.requests s
    generalize entry.info.requests.foldl (fun s r => if s.alive r.conn then f r s else s) s = t
      at hloop
    obtain ⟨hrequests, htimers, hhandlers, htransactions⟩ := Waiting.mk.inj hloop
    refine ⟨fun j => ?_, ?_, htimers, hhandlers, fun j receiver h => ?_⟩
    · show (t.downloads.backedupRequests.erase id)[j]? = _
      rw [hrequests, Lookup.getElem?_erase]
      rfl
    · show Lookup.total _ (t.downloads.backedupRequests.erase id) + _ = _
      rw [hrequests]
      exact Lookup.total_erase _ _ _
    · have hsame : t.downloads.downloadTransactions = s.waiting.transactions := htransactions
      exact hsame ▸ h

/-- The end of a transaction. -/
theorem drops_endDownloadTransaction {w : Waiting} {id : Nat} (h : w.Drops id s.waiting) :
    w.Drops id (s.endDownloadTransaction cfg id).waiting := by
  unfold endDownloadTransaction
  split
  · exact h
  · exact ⟨h.requests, h.total, h.timers, h.handlers, fun j receiver hj =>
      h.transactions j receiver (Lookup.of_getElem?_erase hj).2⟩

theorem drops_transactionTimerExpired (id : Nat) (s : Server) :
    { s.waiting with timers := s.waiting.timers.filter fun i => i ≠ id }.Drops id
      (s.transactionTimerExpired cfg id).waiting :=
  drops_endDownloadTransaction (drops_forEachAndRemove keepsWaiting_denyDownload id rfl)

theorem waiting_setFileToCached (owner path : Str) (s : Server) :
    (s.setFileToCached cfg owner path).waiting = s.waiting := by
  unfold setFileToCached
  split <;> rfl

/-- The end of a transfer, unless the process ends. -/
theorem drops_transferCompleted (env : FileEnv) (id : Nat) (handler : CompletionHandler)
    (success : Bool) (s : Server) :
    (s.transferCompleted cfg env id handler success).halted = true ∨
      ∃ handlers, (∀ j ∈ s.waiting.handlers, j ∈ handlers) ∧
        { s.waiting with handlers }.Drops id
          (s.transferCompleted cfg env id handler success).waiting := by
  have hcached := @waiting_setFileToCached cfg handler.fileOwner handler.filePath s
  unfold transferCompleted
  split
  · dsimp only
    generalize s.setFileToCached cfg handler.fileOwner handler.filePath = t at hcached
    split
    · next hhalted => exact .inl hhalted
    · refine .inr ⟨t.downloads.completionHandlers.insert id
        ⟨handler.filePath, handler.fileOwner ++ handler.filePath⟩, fun j hj => ?_, ?_⟩
      · have hhandlers : t.downloads.completionHandlers = s.waiting.handlers :=
          congrArg Waiting.handlers hcached
        rw [Std.TreeMap.mem_insert, hhandlers]
        exact .inr hj
      · rw [← hcached]
        exact drops_endDownloadTransaction (drops_forEachAndRemove
          (keepsWaiting_deliverFileFromLocalStorage env _) id rfl)
  · exact .inr ⟨_, fun _ hj => hj,
      drops_endDownloadTransaction (drops_forEachAndRemove keepsWaiting_denyDownload id rfl)⟩

/-! ## Work makes the load smaller -/

/-- A handler has its next section. -/
theorem resumed (c : ConnId) (rest : Continuation) (t : Server) :
    (t.resumeHandler cfg c rest).core.unstopped = t.core.unstopped ∧
      (t.resumeHandler cfg c rest).tasks = t.tasks ∧
      (t.resumeHandler cfg c rest).core.sections < t.core.sections + rest.sections := by
  -- a section of the connection manager, which changes the registry only
  have managed : ∀ {u : Server} {registry : Registry},
      u.core = { t.core with registry } → registry.accepted = t.registry.accepted →
      registry.stopped = t.registry.stopped →
      u.core.unstopped = t.core.unstopped ∧ u.tasks = t.tasks ∧
        u.core.sections < t.core.sections + 1 := by
    intro u registry hcore haccepted hstopped
    have htasks : u.tasks = t.tasks := congrArg Core.tasks hcore
    have hsections : u.core.sections = t.core.sections := by rw [hcore]; rfl
    refine ⟨?_, htasks, by omega⟩
    rw [hcore]
    exact Core.unstopped_congr haccepted hstopped
  cases rest with
  | isLogged id login =>
    simp only [resumeHandler]
    split
    · exact ⟨rfl, rfl, by simp [core_startWrite, writeReply, Continuation.sections]⟩
    · refine ⟨rfl, rfl, ?_⟩
      simp [Core.sections, core, continueWith, Continuation.sections]
  | storeLogin code id login => exact ⟨rfl, rfl, Nat.lt_succ_self _⟩
  | notifyFilesRegistration =>
    obtain ⟨n, hcore⟩ := core_notifyFilesRegistration cfg c t
    exact managed hcore (by simp) (by simp)
  | notifyFileAdd file => exact managed (core_doNotify ..) (by simp) (by simp)
  | notifyPathRemoved path => exact managed (core_doNotify ..) (by simp) (by simp)
  | notifyPathRenamed old new => exact managed (core_doNotify ..) (by simp) (by simp)
  | notifyDisconnection st nickname =>
    exact managed (core_notifyDisconnection ..) (by simp) (by simp)

theorem load_stop {c : ConnId} (hc : c < s.registry.accepted) : (s.stop c).load ≤ s.load := by
  rcases Core.stop_eq_or_unstopped_lt (k := s.core) hc with hsame | hlt
  · have hcore : (s.stop c).core = s.core := (core_stop c s).trans hsame
    have hwaiting : (s.stop c).waiting = s.waiting := by
      unfold Server.stop
      split <;> rfl
    exact (SameWork.of_core hcore).load_le (by rw [waits, hcore, hwaiting, waits])
  · rw [← core_stop] at hlt
    exact (load_lt_iff.mpr (.inl hlt)).le

/-- A part of a buffer is sent, or the send fails. -/
theorem load_sharedWriteCompleted {w : SharedWrite} {result : SendResult} (hbase : s.core.Base)
    (hw : w ∈ s.registry.writes) (hfits : result.Fits w) :
    (s.sharedWriteCompleted cfg w result).load < s.load := by
  have hsending : (s.registry.writes.map SharedWrite.remaining).sum =
      w.remaining + ((s.registry.writes.erase w).map SharedWrite.remaining).sum := by
    rw [((List.perm_cons_erase hw).map _).sum_nat, List.map_cons, List.sum_cons]
  have hpos : 0 < w.remaining := Nat.succ_pos _
  -- the writes that are left are less
  have less : ∀ registry : Registry, registry.accepted = s.registry.accepted →
      registry.stopped = s.registry.stopped →
      (registry.writes.map SharedWrite.remaining).sum <
        (s.registry.writes.map SharedWrite.remaining).sum →
      ({ s with registry } : Server).load < s.load := by
    intro registry haccepted hstopped hless
    refine SameWork.load_lt ⟨Core.unstopped_congr haccepted hstopped, rfl, rfl⟩ ?_
    simp only [waits, Core.sending, core, waiting]
    omega
  have herased := less { s.registry with writes := s.registry.writes.erase w } rfl rfl
    (by simp only; omega)
  unfold sharedWriteCompleted
  dsimp only
  split
  · exact herased
  · next halive =>
    have hnot : ¬ (!s.alive w.conn) = true := halive
    have hlive : s.core.Alive w.conn := alive_iff.mp (by simpa using hnot)
    split
    · generalize ht : ({ s with registry.writes := s.registry.writes.erase w } : Server) = t
        at herased ⊢
      have hc : w.conn < t.registry.accepted := by
        rw [← ht]
        exact hbase.lt_of_alive hlive
      exact (load_stop hc).trans_lt herased
    · next transferred =>
      obtain ⟨htransferred, hoffset⟩ := hfits
      split
      · refine less _ rfl rfl ?_
        simp only [List.map_append, List.sum_append, List.map_cons, List.map_nil, List.sum_cons,
          List.sum_nil, hsending, SharedWrite.remaining]
        omega
      · refine less _ rfl rfl ?_
        show ((s.registry.writes.erase w).map SharedWrite.remaining).sum < _
        omega

/-- A task is executed. -/
theorem load_execute {i : Nat} {dbFails : Bool} {env : FileEnv} (hbase : s.core.Base) {t : Task}
    (ht : s.tasks[i]? = some t) (halive : s.alive t.conn = true)
    (h : Executed cfg dbFails env t.conn { s with tasks := s.tasks.eraseIdx i } t.request s') :
    s'.load < s.load := by
  have hlength : (s.tasks.eraseIdx i).length < s.tasks.length := by
    obtain ⟨hi, -⟩ := List.getElem?_eq_some_iff.mp ht
    rw [List.length_eraseIdx_of_lt hi]
    omega
  rcases core_executed h with ⟨-, hcore⟩ | ⟨started, hcore, -⟩
  · have hlt : t.conn < s.registry.accepted := hbase.lt_of_alive (alive_iff.mp halive)
    rcases Core.stop_eq_or_unstopped_lt (k := Server.core { s with tasks := s.tasks.eraseIdx i })
      hlt with hsame | hless
    · have hcore := hcore.trans hsame
      have htasks : s'.tasks = s.tasks.eraseIdx i := congrArg Core.tasks hcore
      refine load_lt_of_tasks ?_ (htasks ▸ hlength)
      rw [hcore]
      exact Nat.le_refl _
    · rw [← hcore] at hless
      exact load_lt_iff.mpr (.inl hless)
  · have htasks : s'.tasks = s.tasks.eraseIdx i := congrArg Core.tasks hcore
    refine load_lt_of_tasks ?_ (htasks ▸ hlength)
    rw [hcore]
    exact Nat.le_refl _

/-- An entry goes, with a timer or without. -/
theorem load_drops {id : Nat} {w : Waiting} (hdrops : w.Drops id s'.waiting)
    (hcore : s'.core = s.core) (hrequests : w.requests = s.waiting.requests)
    (htimers : w.timers.length ≤ s.waiting.timers.length) :
    s'.load ≤ s.load ∧
      (w.timers.length < s.waiting.timers.length ∨ id ∈ s.downloads.backedupRequests →
        s'.load < s.load) := by
  have htotal := hdrops.total
  rw [hrequests] at htotal
  have hwaits : s'.waits = s.core.sending + Lookup.total (fun _ => 1) s'.waiting.requests +
      w.timers.length := by
    rw [waits, hcore, hdrops.timers]
  have hsame := SameWork.of_core hcore
  refine ⟨hsame.load_le ?_, fun hless => hsame.load_lt ?_⟩
  · rw [hwaits, waits]
    omega
  · rw [hwaits, waits]
    rcases hless with hless | hid
    · omega
    · obtain ⟨entry, hentry⟩ := Option.isSome_iff_exists.mp
        (Std.TreeMap.mem_iff_isSome_getElem?.mp hid)
      have hone : s.waiting.requests[id]?.elim 0 (fun _ => 1) = 1 := by
        rw [show s.waiting.requests[id]? = some entry from hentry]
        rfl
      omega

/-- A step that is not the arrival of a connection or a message ends the process or leaves no
more to do, and less when it is work. -/
theorem load_step {e : Event} (hbase : s.core.Base) (h : s.step cfg e = some s')
    (harrives : ¬ e.Arrives) :
    s'.halted = true ∨ s'.load < s.load ∨ s'.load ≤ s.load ∧ ¬ s.Works e := by
  cases transition_of_step h with
  | accept | heartbeat | refuse | reply | post => exact absurd trivial harrives
  | execute ht halive hexec => exact .inr (.inl (load_execute hbase ht halive hexec))
  | @expired i _ _ t ht =>
    obtain ⟨hi, -⟩ := List.getElem?_eq_some_iff.mp ht
    refine .inr (.inl (load_lt_of_tasks (Nat.le_refl _) ?_))
    rw [List.length_eraseIdx_of_lt hi]
    omega
  | @resume i r hr =>
    obtain ⟨hunstopped, htasks, hsections⟩ :=
      @resumed cfg r.conn r.rest { s with running := s.running.eraseIdx i }
    refine .inr (.inl (load_lt_of_sections hunstopped htasks ?_))
    have hall : s.core.sections = r.rest.sections +
        ((s.running.eraseIdx i).map fun h => h.rest.sections).sum := sum_eraseIdx hr _
    rw [hall, Nat.add_comm]
    exact hsections
  | stop halive =>
    exact .inr (.inr ⟨load_stop (hbase.lt_of_alive (alive_iff.mp halive)), id⟩)
  | sharedWrite hw hfits =>
    exact .inr (.inl (load_sharedWriteCompleted hbase (List.mem_of_getElem? hw) hfits))
  | @backupTimer id entry hentry =>
    have hid : id ∈ s.downloads.backedupRequests :=
      Std.TreeMap.mem_iff_isSome_getElem?.mpr (by rw [hentry]; rfl)
    exact .inr (.inl ((load_drops (drops_forEachAndRemove keepsWaiting_denyDownload id rfl)
      (blind_core.backupTimerExpired id s) rfl (Nat.le_refl _)).2 (.inr hid)))
  | @transactionTimer id hid =>
    have hless : (s.waiting.timers.filter fun i => i ≠ id).length < s.waiting.timers.length :=
      List.length_filter_lt_length_iff_exists.mpr ⟨id, hid, by simp⟩
    exact .inr (.inl ((load_drops (drops_transactionTimerExpired id s)
      (blind_core.transactionTimerExpired cfg id s) rfl hless.le).2 (.inl hless)))
  | helloSender id =>
    refine .inr (.inr ⟨?_, fun hworks => hworks⟩)
    refine (SameWork.of_core (blind_core.tryStartDownloadTransaction id s)).load_le ?_
    unfold tryStartDownloadTransaction
    split
    · exact Nat.le_refl _
    · exact Nat.add_le_add_left (List.length_filter_le _ _) _
  | @transferCompleted id handler success env hhandler =>
    rcases @drops_transferCompleted cfg env id handler success s with
      hhalted | ⟨handlers, -, hdrops⟩
    · exact .inl hhalted
    · obtain ⟨hle, hlt⟩ := load_drops hdrops
        (blind_core.transferCompleted cfg env id handler success s) rfl (Nat.le_refl _)
      rcases Classical.em (id ∈ s.downloads.backedupRequests) with hid | hid
      · exact .inr (.inl (hlt (.inr hid)))
      · exact .inr (.inr ⟨hle, hid⟩)
  | uploadCompleted id =>
    refine .inr (.inr ⟨(SameWork.of_core (blind_core.endUploadTransaction cfg id s)).load_le ?_,
      fun hworks => hworks⟩)
    unfold endUploadTransaction
    split <;> exact Nat.le_refl _

/-- The load, while the process has not ended. -/
def left (s : Server) : Nat ×ₗ Nat ×ₗ Nat ×ₗ Nat ×ₗ Nat := toLex (if s.halted then 0 else 1, s.load)

theorem halted_eq_false_of_step {e : Event} (h : s.step cfg e = some s') : s.halted = false := by
  cases hs : s.halted with
  | false => rfl
  | true => simp [Server.step, hs] at h

theorem runsDown (cfg : Config) : RunsDown (Server.step cfg) (fun s => s.core.Base) Works
    (fun _ e => ¬ e.Arrives) left where
  kept _ _ _ hbase h := hbase.step (step_core h)
  lt s e s' hbase hworks h := by
    have hs := halted_eq_false_of_step h
    have harrives : ¬ e.Arrives := by cases e <;> simp_all [Works, Event.Arrives]
    rw [left, left, Prod.Lex.toLex_lt_toLex]
    cases hs' : s'.halted with
    | true => exact .inl (by simp [hs])
    | false =>
      rcases load_step hbase h harrives with hhalted | hlt | ⟨-, hidle⟩
      · simp [hs'] at hhalted
      · exact .inr ⟨by simp [hs], hlt⟩
      · exact absurd hworks hidle
  le s e s' hbase harrives h := by
    have hs := halted_eq_false_of_step h
    rw [left, left, Prod.Lex.toLex_le_toLex]
    cases hs' : s'.halted with
    | true => exact .inl (by simp [hs])
    | false =>
      rcases load_step hbase h harrives with hhalted | hlt | ⟨hle, -⟩
      · simp [hs'] at hhalted
      · exact .inr ⟨by simp [hs], hlt.le⟩
      · exact .inr ⟨by simp [hs], hle⟩

end Server

/-- In an infinite run only finitely many steps are the work of the server, if only finitely many
connections and messages arrive; and from every reachable state some of its work leads to a
state in which nothing is left to do. -/
theorem comes_to_rest (cfg : Config) (users : List (Str × Str)) :
    (∀ (states : Nat → Server) (events : Nat → Event), states 0 = Server.initial cfg users →
      (∀ n, (states n).step cfg (events n) = some (states (n + 1))) →
      (∃ N, ∀ n, N ≤ n → ¬ (events n).Arrives) →
      ∃ N, ∀ n, N ≤ n → ¬ (states n).Works (events n)) ∧
    ∀ s, Reach (Server.step cfg) anyStep (Server.initial cfg users) s →
      ∃ es s', exec (Server.step cfg) s es = some s' ∧ EachStep (Server.step cfg) Works s es ∧
        s'.Rests cfg := by
  have hinitial := Core.base_initial cfg users
  constructor
  · rintro states events hstart hstep ⟨N, harrives⟩
    exact (runsDown cfg).exists_forall_not (by rwa [hstart]) hstep
      fun n hn => .inr (harrives n hn)
  · intro s hs
    have hbase : s.core.Base := hs.invariant (I := fun s => s.core.Base) hinitial
      fun _ _ _ hbase _ hstep => hbase.step (step_core hstep)
    exact (runsDown cfg).exists_rest hbase

/-- A client connects and leaves; then a peer says hello for ever. -/
theorem comes_to_rest_after_leaving :
    ∃ (states : Nat → Server) (events : Nat → Event),
      states 0 = Server.initial sampleConfig [] ∧ (states 2).Works (events 2) ∧
      (∀ n, (states n).step sampleConfig (events n) = some (states (n + 1))) ∧
      ∃ N, ∀ n, N ≤ n → ¬ (states n).Works (events n) := by
  let connected : Server := { Server.initial sampleConfig [] with
    registry := ({} : Registry).accept 0 }
  let leaving : Server := connected.stop 0
  let gone : Server :=
    { leaving with running := [] }.notifyDisconnection sampleConfig 0 .connected []
  let states : Nat → Server := fun
    | 0 => Server.initial sampleConfig []
    | 1 => connected
    | 2 => leaving
    | _ + 3 => gone
  let events : Nat → Event := fun
    | 0 => .accept 0
    | 1 => .stop 0
    | 2 => .resume 0
    | _ + 3 => .helloSender 0
  have hstep : ∀ n, (states n).step sampleConfig (events n) = some (states (n + 1)) := fun
    | 0 | 1 | 2 | _ + 3 => rfl
  have harrives : ∀ n, 1 ≤ n → ¬ (events n).Arrives := fun
    | 1, _ | 2, _ | _ + 3, _ => id
  exact ⟨states, events, rfl, trivial, hstep,
    (comes_to_rest sampleConfig []).1 states events rfl hstep ⟨1, harrives⟩⟩

/-! ## Connections that were stopped -/

namespace Core

/-- A handler is about to remove each stopped connection that is still in `connections_`. -/
def Departing (k : Core) : Prop :=
  ∀ c ∈ k.registry.connections, k.registry.stopped c = true →
    c ∈ k.running.filterMap Running.leaving

/-- A handler of another kind, or of another connection, has gone on. -/
theorem mem_leaving_eraseIdx {k : Core} {i : Nat} {h : Running} {c : ConnId}
    (hi : k.running[i]? = some h) (hother : h.leaving ≠ some c)
    (hc : c ∈ k.running.filterMap Running.leaving) :
    c ∈ (k.running.eraseIdx i).filterMap Running.leaving := by
  obtain ⟨l₁, l₂, hl, he⟩ := leaving_eraseIdx hi
  rw [hl, List.mem_append, List.mem_append, Option.mem_toList] at hc
  rw [he, List.mem_append]
  rcases hc with (hc | hc) | hc
  · exact .inl hc
  · exact absurd hc hother
  · exact .inr hc

theorem Departing.stop {k : Core} (h : k.Departing) (c : ConnId) : (k.stop c).Departing := by
  unfold Core.stop
  split
  · exact h
  · intro d hd hstopped
    rw [List.filterMap_append, List.mem_append]
    rcases eq_or_ne d c with rfl | hdc
    · exact .inr (by simp [Running.leaving])
    · exact .inl (h d hd (by simpa [Registry.setStopped, hdc] using hstopped))

/-- Every step keeps this. -/
theorem Departing.step {cfg : Config} {k k' : Core} {e : Event} (hbase : k.Base)
    (h : k.Departing) (hstep : CoreStep cfg k e k') : k'.Departing := by
  -- a section of a handler of another kind
  have resumed : ∀ {i : Nat} {r : Running} {k' : Core} (started : List Running),
      k.running[i]? = some r → r.leaving = none →
      k'.registry.connections = k.registry.connections →
      k'.registry.stopped = k.registry.stopped →
      k'.running = k.running.eraseIdx i ++ started → k'.Departing := by
    intro i r k' started hi hnone hconnections hstopped hrunning c hc hstop
    rw [hrunning, List.filterMap_append, List.mem_append]
    refine .inl (mem_leaving_eraseIdx hi (by simp [hnone]) (h c ?_ ?_))
    · rwa [← hconnections]
    · rwa [← hstopped]
  cases hstep with
  | accept position =>
    intro c hc hstopped
    have hperm : (k.registry.accept position).connections.Perm
        (k.registry.accepted :: k.registry.connections) :=
      List.perm_insertIdx _ _ (Nat.min_le_right _ _)
    rcases List.mem_cons.mp (hperm.mem_iff.mp hc) with rfl | hc
    · have hfresh := (hbase.fresh _ (Nat.le_refl _)).2
      exact absurd (hfresh.symm.trans hstopped) (by simp)
    · exact h c hc hstopped
  | read => exact h
  | execute =>
    intro c hc hstopped
    rw [List.filterMap_append, List.mem_append]
    exact .inl (h c hc hstopped)
  | @logout i _ _ t => exact Departing.stop (k := k.eraseTask i) h t.conn
  | isLogged started hi => exact resumed started hi rfl rfl rfl rfl
  | storeLogin hi => exact resumed [] hi rfl rfl rfl (List.append_nil _).symm
  | register n hi => exact resumed [] hi rfl (by simp) (by simp) (List.append_nil _).symm
  | @notify i r n hi hn =>
    have hnone : r.leaving = none := by
      unfold Running.leaving
      split
      · next hrest => rw [hrest] at hn; cases hn
      · rfl
    exact resumed [] hi hnone (by simp) (by simp) (List.append_nil _).symm
  | @disconnect i c st nickname hi =>
    intro d hd hstopped
    have hd : d ∈ k.registry.connections.erase c := by simpa using hd
    obtain ⟨hdc, hmem⟩ := (hbase.nodup.mem_erase_iff).mp hd
    refine mem_leaving_eraseIdx hi ?_ (h d hmem (by simpa using hstopped))
    simpa [Running.leaving] using hdc.symm
  | stop => exact h.stop _
  | @failWrite _ w =>
    exact Departing.stop (k := { k with registry := k.registry.eraseWrite w }) h w.conn
  | dropWrite | continueWrite | finishWrite | other => exact h

end Core

/-! ## Queries on hold that are attended to -/

namespace Server

/-- Something will answer each entry: its timer, the timer of its transaction or its transfer.
A receiver that was stored has a handler. -/
structure Waiting.Attended (w : Waiting) : Prop where
  entry : ∀ (id : Nat) (entry : Backup), w.requests[id]? = some entry →
    entry.timerArmed = true ∨ id ∈ w.timers ∨ id ∈ w.handlers
  receiver : ∀ (id : Nat) (receiver : FileReceiver),
    w.transactions[id]? = some (some receiver) → id ∈ w.handlers

/-- An approving reply for an entry has a file size, and the directories for the file can be
made, unless a transfer is under way for the entry. -/
def BeginsTransfers (cfg : Config) (s : Server) : Event → Prop
  | .read c m env => s.readError cfg c m = none → ∀ id ∈ m.approves cfg,
      id ∈ s.downloads.backedupRequests →
      (stoull (m.header .FileSize)).isSome ∧ env.createDirectories = true ∨
        id ∈ s.downloads.transactionTimers ∨ id ∈ s.downloads.completionHandlers
  | _ => True

instance (cfg : Config) (s : Server) (e : Event) : Decidable (s.BeginsTransfers cfg e) :=
  match e with
  | .read .. => inferInstanceAs (Decidable (_ → ∀ id ∈ _, _))
  | .accept _ | .execute .. | .resume _ | .stop _ | .sharedWrite .. | .backupTimer _ |
    .transactionTimer _ | .helloSender _ | .transferCompleted .. | .uploadCompleted _ =>
    inferInstanceAs (Decidable True)

variable {cfg : Config} {s s' : Server} {w w' : Waiting}

/-- The entry with the id goes, and the timer of its transaction may go too. -/
theorem Waiting.Attended.drops {id : Nat} {w₁ : Waiting} (h : w.Attended)
    (hdrops : w₁.Drops id w') (hrequests : ∀ j, j ≠ id → w₁.requests[j]? = w.requests[j]?)
    (htransactions : w₁.transactions = w.transactions)
    (htimers : ∀ j ∈ w.timers, j ≠ id → j ∈ w₁.timers)
    (hhandlers : ∀ j ∈ w.handlers, j ∈ w₁.handlers) : w'.Attended where
  entry j entry hentry := by
    rw [hdrops.requests] at hentry
    split at hentry
    · cases hentry
    · next hj =>
      rw [hdrops.timers, hdrops.handlers]
      rw [hrequests j hj] at hentry
      exact (h.entry j entry hentry).imp_right
        (.imp (fun htimer => htimers j htimer hj) (hhandlers j))
  receiver j receiver hreceiver := by
    rw [hdrops.handlers]
    have hold := hdrops.transactions j _ hreceiver
    rw [htransactions] at hold
    exact hhandlers j (h.receiver j receiver hold)

/-- An entry is stored that is attended to. -/
theorem Waiting.Attended.store (h : w.Attended) {id : Nat} {entry : Backup}
    (hentry : entry.timerArmed = true ∨ id ∈ w.timers ∨ id ∈ w.handlers) :
    { w with requests := w.requests.insert id entry }.Attended where
  entry j stored hstored := by
    rcases Lookup.of_getElem?_insert hstored with ⟨rfl, rfl⟩ | ⟨-, hold⟩
    · exact hentry
    · exact h.entry j stored hold
  receiver := h.receiver

/-- A transfer begins for an entry. -/
theorem Waiting.Attended.begins (h : w.Attended) (id : Nat) (entry : Backup)
    (receiver : Option FileReceiver) (handler : CompletionHandler) :
    Waiting.Attended {
      requests := w.requests.insert id entry
      timers := id :: w.timers
      handlers := if id ∈ w.transactions ∨ receiver = none then w.handlers
        else w.handlers.insert id handler
      transactions := w.transactions.insertIfNew id receiver } := by
  have hhandlers : ∀ j ∈ w.handlers, j ∈ if id ∈ w.transactions ∨ receiver = none then w.handlers
      else w.handlers.insert id handler := by
    intro j hj
    split
    · exact hj
    · exact Std.TreeMap.mem_insert.mpr (.inr hj)
  refine ⟨fun j stored hstored => ?_, fun j new hnew => ?_⟩
  · rcases Lookup.of_getElem?_insert hstored with ⟨rfl, -⟩ | ⟨-, hold⟩
    · exact .inr (.inl List.mem_cons_self)
    · exact (h.entry j stored hold).imp_right (.imp (List.mem_cons_of_mem _) (hhandlers j))
  · have hnew : (w.transactions.insertIfNew id receiver)[j]? = some (some new) := hnew
    rcases Decidable.em (id ∈ w.transactions) with hid | hid
    · rw [Std.TreeMap.getElem?_insertIfNew, if_neg fun hj => hj.2 hid] at hnew
      exact hhandlers j (h.receiver j new hnew)
    · rcases Lookup.of_getElem?_insertIfNew hnew with ⟨rfl, rfl⟩ | hold
      · show j ∈ if _ then _ else _
        rw [if_neg (by simp [hid])]
        exact Std.TreeMap.mem_insert.mpr (.inl (Nat.compare_eq_eq.mpr rfl))
      · exact hhandlers j (h.receiver j new hold)

/-- A query is executed. -/
theorem attended_resolveDownloadFileQuerry (env : FileEnv) (c : ConnId)
    (id owner path ssl compressions : Str) (h : s.waiting.Attended) :
    (s.resolveDownloadFileQuerry cfg env c id owner path ssl compressions).waiting.Attended := by
  unfold resolveDownloadFileQuerry
  dsimp only
  split
  · exact h
  · split
    · exact h
    · rw [keepsWaiting_deliverFileFromLocalStorage]
      exact h
    · split
      · next downloads hjoin =>
        obtain ⟨⟨key, entry⟩, hfind, rfl⟩ := Option.map_eq_some_iff.mp hjoin
        have hentry : s.waiting.requests[key]? = some entry :=
          Std.TreeMap.mem_toList_iff_getElem?_eq_some.mp (List.mem_of_find?_eq_some hfind)
        exact h.store (h.entry key entry hentry)
      · exact h.store (.inl rfl)

/-- A reply is resolved. -/
theorem attended_resolveDownloadReply {env : FileEnv} {c : ConnId} {m : Message}
    (h : s.waiting.Attended) (herror : s.readError cfg c m = none) (hreply : m.command = .REPLY)
    (hbegins : s.BeginsTransfers cfg (.read c m env)) :
    (s.resolveDownloadReply cfg env c m).1.waiting.Attended := by
  unfold resolveDownloadReply
  split
  · exact h
  · next id hid =>
    dsimp only
    split
    · exact h
    · next hcode =>
      split
      · exact h
      · next entry hentry =>
        have happroves : m.approves cfg = some id := by
          rw [Message.approves, if_pos ⟨hreply, not_not.mp hcode⟩]
          exact hid
        have hmem : id ∈ s.downloads.backedupRequests :=
          Std.TreeMap.mem_iff_isSome_getElem?.mpr (by rw [hentry]; rfl)
        have hbegin := hbegins herror id happroves hmem
        split
        · next hsize =>
          refine h.store (.inr (hbegin.resolve_left ?_))
          simp [hsize]
        · unfold beginDownloadTransaction
          dsimp only
          split
          · next hdirectories =>
            refine h.store (.inr (hbegin.resolve_left ?_))
            simp_all
          · split
            · refine h.drops (drops_forEachAndRemove keepsWaiting_denyDownload id rfl)
                (fun j hj => ?_) rfl (fun _ htimer _ => htimer) (fun _ hold => hold)
              exact (Lookup.getElem?_insert _ id _ j).trans (if_neg hj)
            · have hnotify : ∀ t : Server, (t.notifyFileDownload cfg entry.info.fileOwner id
                  (getCompression (cfg.csvCompressions (m.header .Compressions)))).waiting =
                  t.waiting := fun t => by
                simp only [waiting, downloads_notifyFileDownload]
              rw [hnotify]
              exact h.begins id { entry with timerArmed := false } _ _

/-- A step leaves each entry attended to, or ends the process. -/
theorem attended_step {e : Event} (h : s.waiting.Attended) (hstep : s.step cfg e = some s')
    (hbegins : s.BeginsTransfers cfg e) : s'.halted = true ∨ s'.waiting.Attended := by
  have same : s'.downloads = s.downloads → s'.halted = true ∨ s'.waiting.Attended := by
    intro hsame
    right
    rw [waiting, hsame]
    exact h
  cases transition_of_step hstep with
  | accept | heartbeat | refuse | post => exact .inr h
  | reply _ herror hreply => exact .inr (attended_resolveDownloadReply h herror hreply hbegins)
  | @execute i dbFails env t _ ht halive hexec =>
    cases hquerried : t.request.querried cfg t.conn with
    | none =>
      have hsame := downloads_executed hquerried hexec
      exact same hsame
    | some q =>
      generalize hr : t.request = request at hexec hquerried
      cases hexec with
      | downloadFile => exact .inr (attended_resolveDownloadFileQuerry (s := { s with
          tasks := s.tasks.eraseIdx i }) env t.conn _ _ _ _ _ h)
      | refuse => exact same rfl
      | _ => cases hquerried
  | expired => exact .inr h
  | resume => exact same (downloads_resumeHandler ..)
  | stop => exact same (deaf_downloads.stop ..)
  | sharedWrite => exact same (deaf_downloads.sharedWriteCompleted ..)
  | @backupTimer id =>
    exact .inr (h.drops (drops_forEachAndRemove keepsWaiting_denyDownload id rfl)
      (fun _ _ => rfl) rfl (fun _ htimer _ => htimer) fun _ hold => hold)
  | @transactionTimer id =>
    refine .inr (h.drops (drops_transactionTimerExpired id s) (fun _ _ => rfl) rfl
      (fun j htimer hj => List.mem_filter.mpr ⟨htimer, ?_⟩) fun _ hold => hold)
    exact decide_eq_true hj
  | helloSender id =>
    unfold tryStartDownloadTransaction
    split
    · exact .inr h
    · next receiver hreceiver =>
      cases receiver with
      | none => exact .inl rfl
      | some receiver =>
        -- the transfer has a handler, which takes over from the timer
        refine .inr ⟨fun j entry hentry => ?_, h.receiver⟩
        rcases h.entry j entry hentry with harmed | htimer | hhandler
        · exact .inl harmed
        · rcases eq_or_ne j id with rfl | hj
          · exact .inr (.inr (h.receiver j receiver hreceiver))
          · exact .inr (.inl (List.mem_filter.mpr ⟨htimer, decide_eq_true hj⟩))
        · exact .inr (.inr hhandler)
  | @transferCompleted id handler success env =>
    refine (@drops_transferCompleted cfg env id handler success s).imp_right ?_
    rintro ⟨handlers, hhandlers, hdrops⟩
    exact h.drops hdrops (fun _ _ => rfl) rfl (fun _ htimer _ => htimer) hhandlers
  | uploadCompleted =>
    right
    unfold endUploadTransaction
    split <;> exact h

/-- The timer of the entry will answer it, the timer of its transaction or its transfer. -/
def Attends (s : Server) (id : Nat) (entry : Backup) : Prop :=
  entry.timerArmed = true ∨ id ∈ s.downloads.transactionTimers ∨
    id ∈ s.downloads.completionHandlers

theorem attends_of_reach {users : List (Str × Str)}
    (h : Reach (Server.step cfg) (BeginsTransfers cfg) (Server.initial cfg users) s)
    (hs : s.halted = false) {id : Nat} {entry : Backup}
    (hentry : s.downloads.backedupRequests[id]? = some entry) : s.Attends id entry := by
  have hattended : s.halted = true ∨ s.waiting.Attended := by
    have hinitial : (Server.initial cfg users).waiting.Attended :=
      ⟨fun id entry hentry => by simp [waiting, Server.initial] at hentry,
        fun id receiver hreceiver => by simp [waiting, Server.initial] at hreceiver⟩
    refine h.invariant (I := fun s => s.halted = true ∨ s.waiting.Attended) (.inr hinitial) ?_
    intro s e s' hold hbegins hstep
    rcases hold with hhalted | hold
    · simp [halted_eq_false_of_step hstep] at hhalted
    · exact attended_step hold hstep hbegins
  exact (hattended.resolve_left (by simp [hs])).entry id entry hentry

/-! ## What answers the entries -/

/-- The timer of the entry expires or that of its transaction, or its transfer ends. -/
def Event.Answers (key : Nat) : Event → Prop
  | .backupTimer id | .transactionTimer id | .transferCompleted id .. => id = key
  | _ => False

variable {key : Nat} {entry : Backup}

theorem Attends.exists_answers (h : s.Attends key entry) (hs : s.halted = false)
    (hentry : s.downloads.backedupRequests[key]? = some entry) :
    ∃ e, Event.Answers key e ∧ (s.step cfg e).isSome := by
  rcases h with harmed | htimer | hhandler
  · exact ⟨.backupTimer key, rfl, by simp [step, hs, hentry, harmed]⟩
  · exact ⟨.transactionTimer key, rfl, by simp [step, hs, htimer]⟩
  · obtain ⟨handler, hsome⟩ := Option.isSome_iff_exists.mp
      (Std.TreeMap.isSome_getElem?_iff_mem.mpr hhandler)
    exact ⟨.transferCompleted key false ⟨false, false, none, false⟩, rfl, by
      simp [step, hs, hsome]⟩

/-- Each of these events concludes the requests of the entry, unless it ends the process. -/
theorem concluded_of_answers {c : ConnId} {id : Str} {e : Event} (halive : s.alive c = true)
    (hentry : s.downloads.backedupRequests[key]? = some entry) (he : e.Answers key)
    (hstep : s.step cfg e = some s') (hs' : s'.halted = false) :
    (s'.ledger c id).concluded = (s.ledger c id).concluded + entry.waits c id := by
  cases transition_of_step hstep with
  | backupTimer =>
    obtain rfl := he
    exact concluded_forEachAndRemove concludes_denyDownload halive hentry
  | transactionTimer =>
    obtain rfl := he
    rw [transactionTimerExpired, ledger_endDownloadTransaction]
    exact concluded_forEachAndRemove concludes_denyDownload halive hentry
  | @transferCompleted key handler success env =>
    obtain rfl := he
    cases success with
    | false =>
      rw [transferCompleted, if_neg Bool.false_ne_true, ledger_endDownloadTransaction]
      exact concluded_forEachAndRemove concludes_denyDownload halive hentry
    | true =>
      have hcore := blind_core.setFileToCached cfg handler.fileOwner handler.filePath s
      have hledger := @ledger_setFileToCached c id cfg handler.fileOwner handler.filePath s
      have hrequests : (s.setFileToCached cfg handler.fileOwner handler.filePath
          ).downloads.backedupRequests = s.downloads.backedupRequests :=
        congrArg Waiting.requests (waiting_setFileToCached ..)
      unfold transferCompleted at hs' ⊢
      simp only [if_true] at hs' ⊢
      split at hs'
      · next hhalted => rw [hhalted] at hs'; cases hs'
      · next hgoes =>
        rw [if_neg hgoes, ledger_endDownloadTransaction, ← hledger]
        refine concluded_forEachAndRemove (concludes_deliverFileFromLocalStorage cfg env _)
          ((alive_of_core_eq hcore c).trans halive) ?_
        exact (congrArg (·[key]?) hrequests).trans hentry
  | _ => exact he.elim

end Server

/-- In every run in which each query that is read has one of the four types and each approving
reply begins its transfer, and for every connection that still exists: every confirmed request
was concluded, or a task, a handler or an entry on hold is to conclude it. Such an entry has a
timer armed or its transfer under way, and each of these events concludes its requests. No reply
is lost. -/
theorem confirmed_concluded {cfg : Config} (hdistinct : cfg.TypesDistinct)
    {users : List (Str × Str)} {s : Server}
    (h : Reach (Server.step cfg) (fun s e => e.KnownType cfg ∧ s.BeginsTransfers cfg e)
      (Server.initial cfg users) s) {c : ConnId} (halive : s.alive c = true) (id : Str) :
    (s.ledger c id).concluded + (s.ledger c id).queued + (s.ledger c id).handled +
        (s.ledger c id).onHold = (s.ledger c id).confirmed ∧
      (s.halted = false → ∀ (key : Nat) (entry : Backup),
        s.downloads.backedupRequests[key]? = some entry → 0 < entry.waits c id →
          s.Attends key entry ∧ (∃ e, Event.Answers key e ∧ (s.step cfg e).isSome) ∧
            ∀ e s', Event.Answers key e → s.step cfg e = some s' → s'.halted = false →
              (s'.ledger c id).concluded = (s.ledger c id).concluded + entry.waits c id) := by
  refine ⟨(due_eq_confirmed hdistinct (h.mono fun _ _ hguard => hguard.1)).2 c id halive, ?_⟩
  intro hs key entry hentry _
  have hattends := attends_of_reach (h.mono fun _ _ hguard => hguard.2) hs hentry
  exact ⟨hattends, hattends.exists_answers hs hentry, fun e s' he hstep hs' =>
    concluded_of_answers halive hentry he hstep hs'⟩

open Server.Event in
/-- The transfer of the file has begun, and the timer of its transaction runs. -/
theorem confirmed_concluded_on_hold :
    ∃ s, Reach (Server.step sampleConfig)
        (fun s e => e.KnownType sampleConfig ∧ s.BeginsTransfers sampleConfig e)
        (Server.initial sampleConfig []) s ∧
      s.ledger 1 ['3'] = ⟨1, 0, 0, 0, 1⟩ ∧ (s.ledger 1 ['3']).concluded +
        (s.ledger 1 ['3']).queued + (s.ledger 1 ['3']).handled + (s.ledger 1 ['3']).onHold =
          (s.ledger 1 ['3']).confirmed ∧
      ∃ entry, s.downloads.backedupRequests[2]? = some entry ∧ entry.waits 1 ['3'] = 1 ∧
        s.Attends 2 entry ∧ ∃ e s', Event.Answers 2 e ∧ s.step sampleConfig e = some s' ∧
          (s'.ledger 1 ['3']).concluded = 1 := by
  obtain ⟨s, hs, halive, hhalted, hledger, hends, hheld⟩ :=
    exists_reach_of_exec_guarded (Server.step sampleConfig)
      (fun s e => e.KnownType sampleConfig ∧ s.BeginsTransfers sampleConfig e)
      (Server.initial sampleConfig [])
      (fun s => s.alive 1 = true ∧ s.halted = false ∧ s.ledger 1 ['3'] = ⟨1, 0, 0, 0, 1⟩ ∧
        (s.step sampleConfig (.transactionTimer 2)).map Server.halted = some false ∧
        ∃ entry ∈ s.downloads.backedupRequests[2]?, entry.waits 1 ['3'] = 1)
      (querryOfFile ++ [readReply 0 ['2'] ['1']]) (by decide +kernel)
  obtain ⟨entry, hentry, hwaits⟩ := hheld
  obtain ⟨s', hs', hgoes⟩ := Option.map_eq_some_iff.mp hends
  obtain ⟨hequal, hheld⟩ :=
    confirmed_concluded (show sampleConfig.TypesDistinct by decide) hs halive ['3']
  obtain ⟨hattends, -, hanswers⟩ := hheld hhalted 2 entry hentry (by omega)
  have hconcluded := hanswers (.transactionTimer 2) s' rfl hs' hgoes
  rw [hledger, hwaits] at hconcluded
  exact ⟨s, hs, hledger, hequal, entry, hentry, hwaits, hattends, .transactionTimer 2, s', rfl, hs',
    hconcluded⟩

/-! ## At rest -/

/-- The tree cannot take the paths of the request: `do_add` uses a component that is not
there. -/
def Request.Undefined (cfg : Config) (root : Node Char) : Request → Prop
  | .pushFiles _ paths => Node.addAll cfg.PATH_SEPARATOR_CHR paths root = none
  | .addFile _ fileName => Node.add cfg.PATH_SEPARATOR_CHR fileName root = none
  | _ => False

namespace Server

variable {cfg : Config} {s s' : Server}

theorem undefined_of_executeRequest {dbFails : Bool} {env : FileEnv} {c : ConnId}
    {request : Request} (h : s.executeRequest cfg dbFails env c request = none) :
    request.Undefined cfg (s.tree c) := by
  cases request with
  | pushFiles id paths => exact Option.map_eq_none_iff.mp h
  | addFile id fileName => exact Option.map_eq_none_iff.mp h
  | _ => cases h

/-- Only such a task cannot be executed. -/
theorem undefined_of_execute (hs : s.halted = false) {i : Nat} {t : Task}
    (ht : s.tasks[i]? = some t) {dbFails : Bool} {env : FileEnv}
    (h : s.step cfg (.execute i dbFails env) = none) :
    t.request.Undefined cfg (s.tree t.conn) := by
  simp only [Server.step, hs, Bool.false_eq_true, if_false, ht, Option.bind_some] at h
  split at h
  · have hundefined := undefined_of_executeRequest h
    exact hundefined
  · cases h

/-- What is left undone at rest. -/
theorem Rests.cases (hrest : s.Rests cfg) (hs : s.halted = false) :
    s.running = [] ∧ s.registry.writes = [] ∧ s.downloads.transactionTimers = [] ∧
      (∀ t ∈ s.tasks, t.request.Undefined cfg (s.tree t.conn)) ∧
      ∀ (id : Nat) (entry : Backup), s.downloads.backedupRequests[id]? = some entry →
        entry.timerArmed = false ∧ id ∉ s.downloads.completionHandlers := by
  have hstep : ∀ e, s.Works e → s.step cfg e = none := hrest
  refine ⟨?_, ?_, ?_, fun t ht => ?_, fun id entry hentry => ⟨?_, fun hhandler => ?_⟩⟩
  · have hresume := hstep (.resume 0) trivial
    simp only [Server.step, hs, Bool.false_eq_true, if_false, Option.map_eq_none_iff] at hresume
    simpa using hresume
  · have hwrite := hstep (.sharedWrite 0 .failed) trivial
    cases hwrites : s.registry.writes with
    | nil => rfl
    | cons w writes => simp [Server.step, hs, hwrites, SendResult.Fits] at hwrite
  · refine List.eq_nil_iff_forall_not_mem.mpr fun id hid => ?_
    have htimer := hstep (.transactionTimer id) trivial
    simp [Server.step, hs, hid] at htimer
  · obtain ⟨i, hi⟩ := List.mem_iff_getElem?.mp ht
    exact undefined_of_execute hs hi (hstep (.execute i false sampleEnv) trivial)
  · have htimer := hstep (.backupTimer id) trivial
    simp only [Server.step, hs, Bool.false_eq_true, if_false, hentry, Option.bind_some] at htimer
    simpa using htimer
  · have hmem : id ∈ s.downloads.backedupRequests :=
      Std.TreeMap.mem_iff_isSome_getElem?.mpr (by rw [hentry]; rfl)
    have htransfer := hstep (.transferCompleted id false sampleEnv) hmem
    simp only [Server.step, hs, Bool.false_eq_true, if_false, Option.map_eq_none_iff] at htransfer
    exact absurd (Std.TreeMap.mem_iff_isSome_getElem?.mp hhandler) (by simp [htransfer])

/-- At rest no query is on hold, if each approving reply began its transfer. -/
theorem Rests.none_on_hold {users : List (Str × Str)}
    (h : Reach (Server.step cfg) (BeginsTransfers cfg) (Server.initial cfg users) s)
    (hs : s.halted = false) (hrest : s.Rests cfg) (id : Nat) :
    s.downloads.backedupRequests[id]? = none := by
  obtain ⟨-, -, htimers, -, hentries⟩ := hrest.cases hs
  refine Option.eq_none_iff_forall_ne_some.mpr fun entry hentry => ?_
  obtain ⟨harmed, hhandler⟩ := hentries id entry hentry
  rcases attends_of_reach h hs hentry with ha | ht | hh
  · simp [harmed] at ha
  · simp [htimers] at ht
  · exact hhandler hh

/-- At rest each confirmed request of a connection was concluded, or is still queued. -/
theorem Rests.concluded (hdistinct : cfg.TypesDistinct) {users : List (Str × Str)}
    (h : Reach (Server.step cfg) (fun s e => e.KnownType cfg ∧ s.BeginsTransfers cfg e)
      (Server.initial cfg users) s) (hs : s.halted = false) (hrest : s.Rests cfg) {c : ConnId}
    (hc : c ∈ s.registry.connections) (id : Str) :
    (s.ledger c id).concluded + (s.ledger c id).queued = (s.ledger c id).confirmed := by
  have halive : s.alive c = true := by
    simp [alive, hc]
  have hall := (due_eq_confirmed hdistinct (h.mono fun _ _ hguard => hguard.1)).2 c id halive
  have hnone := hrest.none_on_hold (h.mono fun _ _ hguard => hguard.2) hs
  have hhandled : (s.ledger c id).handled = 0 := by
    simp [ledger, (hrest.cases hs).1]
  have hheld : (s.ledger c id).onHold = 0 := by
    have hlist : s.downloads.backedupRequests.toList = [] :=
      List.eq_nil_iff_forall_not_mem.mpr fun e he => by
        have hsome := Std.TreeMap.mem_toList_iff_getElem?_eq_some.mp (show (e.1, e.2) ∈ _ from he)
        simp [hnone] at hsome
    simp [ledger, Lookup.total, hlist]
  rw [Ledger.due] at hall
  omega

end Server

/-- In every run in which each query has one of the four types and each approving reply begins
its transfer: when nothing is left to do, the connections that exist are those that were
accepted and not stopped, no handler runs, nothing is being sent, no timer runs, no query is on
hold, the tasks left are those that the trees cannot take, and every other confirmed request of
a connection was concluded. -/
theorem settled_at_rest {cfg : Config} (hdistinct : cfg.TypesDistinct)
    {users : List (Str × Str)} {s : Server}
    (h : Reach (Server.step cfg) (fun s e => e.KnownType cfg ∧ s.BeginsTransfers cfg e)
      (Server.initial cfg users) s) (hs : s.halted = false) (hrest : s.Rests cfg) :
    (∀ c, c ∈ s.registry.connections ↔ c < s.registry.accepted ∧ s.registry.stopped c = false) ∧
      s.running = [] ∧ s.registry.writes = [] ∧ s.downloads.transactionTimers = [] ∧
      (∀ id : Nat, s.downloads.backedupRequests[id]? = none) ∧
      (∀ t ∈ s.tasks, t.request.Undefined cfg (s.tree t.conn)) ∧
      ∀ c ∈ s.registry.connections, ∀ id,
        (s.ledger c id).concluded + (s.ledger c id).queued = (s.ledger c id).confirmed := by
  obtain ⟨hrunning, hwrites, htimers, htasks, -⟩ := hrest.cases hs
  have hdeparting : s.core.Base ∧ s.core.Departing := by
    refine h.invariant (I := fun s => s.core.Base ∧ s.core.Departing)
      ⟨Core.base_initial cfg users, fun _ hc => absurd hc List.not_mem_nil⟩ ?_
    exact fun _ _ _ hold _ hstep =>
      ⟨hold.1.step (step_core hstep), hold.2.step hold.1 (step_core hstep)⟩
  refine ⟨fun c => ⟨fun hc => ⟨hdeparting.1.accepted c hc, ?_⟩, fun hc => ?_⟩, hrunning, hwrites,
    htimers, hrest.none_on_hold (h.mono fun _ _ hguard => hguard.2) hs, htasks,
    fun c hc id => hrest.concluded hdistinct h hs hc id⟩
  · cases hstopped : s.registry.stopped c with
    | false => rfl
    | true =>
      have hleaving := hdeparting.2 c hc hstopped
      rw [show s.core.running = [] from hrunning] at hleaving
      simp at hleaving
  · by_contra hmem
    have hgone : s.registry.stopped c = true := hdeparting.1.gone c hc.1 hmem
    simp [hc.2] at hgone

/-- When nothing is queued, running, being sent or waited for, the server rests. -/
theorem Server.rests_of_nothing {cfg : Config} {s : Server} (htasks : s.tasks = [])
    (hrunning : s.running = []) (hwrites : s.registry.writes = [])
    (htimers : s.downloads.transactionTimers = [])
    (hrequests : s.downloads.backedupRequests.toList = []) : s.Rests cfg := by
  have hnone : ∀ id : Nat, s.downloads.backedupRequests[id]? = none := fun id => by
    refine Option.eq_none_iff_forall_ne_some.mpr fun entry hentry => ?_
    have hmem := Std.TreeMap.mem_toList_iff_getElem?_eq_some.mpr hentry
    simp [hrequests] at hmem
  intro e hworks
  cases e with
  | transferCompleted id success env =>
    have hsome := Std.TreeMap.mem_iff_isSome_getElem?.mp (show id ∈ _ from hworks)
    simp [hnone] at hsome
  | execute => simp [Server.step, htasks]
  | resume => simp [Server.step, hrunning]
  | sharedWrite => simp [Server.step, hwrites]
  | backupTimer => simp [Server.step, hnone]
  | transactionTimer => simp [Server.step, htimers]
  | _ => cases hworks

open Server.Event in
/-- The owner of a file approves a query, the file is transferred, and the requester leaves. -/
theorem settled_at_rest_after_transfer :
    ∃ s, Reach (Server.step sampleConfig)
        (fun s e => e.KnownType sampleConfig ∧ s.BeginsTransfers sampleConfig e)
        (Server.initial sampleConfig []) s ∧ s.Rests sampleConfig ∧
      s.registry.connections = [0] ∧ (s.ledger 0 ['1']).confirmed = 1 ∧
      (s.ledger 0 ['1']).concluded + (s.ledger 0 ['1']).queued = (s.ledger 0 ['1']).confirmed := by
  obtain ⟨s, hs, hhalted, hconnections, hconfirmed, htasks, hrunning, hwrites, htimers,
      hrequests⟩ :=
    exists_reach_of_exec_guarded (Server.step sampleConfig)
      (fun s e => e.KnownType sampleConfig ∧ s.BeginsTransfers sampleConfig e)
      (Server.initial sampleConfig [])
      (fun s => s.halted = false ∧ s.registry.connections = [0] ∧
        (s.ledger 0 ['1']).confirmed = 1 ∧ s.tasks = [] ∧ s.running = [] ∧
        s.registry.writes = [] ∧ s.downloads.transactionTimers = [] ∧
        s.downloads.backedupRequests.toList = [])
      (querryOfFile ++ [readReply 0 ['2'] ['1'], .helloSender 2,
        .transferCompleted 2 true sampleEnv, .sharedWrite 0 (.bytes 1), .stop 1, .resume 0,
        .sharedWrite 0 (.bytes 1)]) (by decide +kernel)
  have hrest : s.Rests sampleConfig := rests_of_nothing htasks hrunning hwrites htimers hrequests
  obtain ⟨-, -, -, -, -, -, hconcluded⟩ :=
    settled_at_rest (show sampleConfig.TypesDistinct by decide) hs hhalted hrest
  exact ⟨s, hs, hrest, hconnections, hconfirmed, hconcluded 0 (by simp [hconnections]) ['1']⟩

end FspServer
