import FspServer.Coalescing
import FspServer.DownloadQueries

/-!
# Download queries under way

`resolve_download_file_querry` finds the owner under one lock, checks and joins the
pending downloads under another, increments and reads a counter that has no lock,
writes to the owner, and inserts the request with two more reads of the counter.
`Asking` is the server with each of these as a step of its own: between two steps of
a query, other queries go on, and messages are read, handlers run and timers expire.

A query whose steps follow each other does what the one step of the server does
(`Asking.exec_query`).
-/

namespace FspServer

open Runs Server Node

/-- A download query that has found its owner: the owner's connection, and the request
that waits. -/
structure OwnerQuery where
  owner : ConnId
  fileOwner : Str
  filePath : Str
  request : DownloadRequest
deriving DecidableEq, Repr

def OwnerQuery.info (x : OwnerQuery) : DownloadInfo := ⟨x.fileOwner, x.filePath, [x.request]⟩

/-! ## What other steps do to the entries -/

/-- What the queries are after a step that puts none on hold: the requests in an entry
stay, or the entry is gone and those whose connection existed are answered. -/
structure Queries.Quiet (s : Server) (q' : Queries) : Prop where
  idCounter : q'.idCounter = s.queries.idCounter
  asked : q'.asked = s.queries.asked
  executed : s.queries.executed ≤ q'.executed
  answered : ∀ t ∈ s.queries.answered, t ∈ q'.answered
  info : ∀ id entry', q'.entry id = some entry' →
    ∃ entry, s.queries.entry id = some entry ∧ entry'.info = entry.info
  removed : ∀ id entry, s.queries.entry id = some entry → q'.entry id = none →
    ∀ r ∈ entry.info.requests, s.alive r.conn = true → r.ticket ∈ q'.answered

namespace Queries.Quiet

variable {s : Server} {id : Nat} {entry : Backup}

theorem refl (s : Server) : Quiet s s.queries where
  idCounter := rfl
  asked := rfl
  executed := le_rfl
  answered _ ht := ht
  info _ entry he := ⟨entry, he, rfl⟩
  removed _ _ hentry hnone := by simp [hentry] at hnone

/-- The timer of an entry is started or stopped. -/
theorem store (hentry : s.queries.entry id = some entry) (timerArmed : Bool) :
    Quiet s (s.queries.store id { entry with timerArmed }) where
  idCounter := rfl
  asked := rfl
  executed := le_rfl
  answered _ ht := ht
  info j entry' he := by
    rcases entry_of_store he with ⟨rfl, rfl⟩ | ⟨-, he⟩
    · exact ⟨entry, hentry, rfl⟩
    · exact ⟨entry', he, rfl⟩
  removed j entry' he hnone := by
    by_cases hj : j = id
    · simp [Queries.store, hj] at hnone
    · simp [Queries.store, hj, he] at hnone

/-- The waiting requests of an entry are answered. -/
theorem remove (s : Server) {as : List Answer} (has : as.map (·.ticket) = s.answerable id) :
    Quiet s (s.queries.remove id as) where
  idCounter := by rw [Queries.remove, foldl_answer]
  asked := by rw [Queries.remove, foldl_answer]
  executed := by rw [Queries.remove, foldl_answer]
  answered t ht := by
    rw [Sound.answered_remove]
    exact List.mem_append_right _ ht
  info j entry' he := ⟨entry', (entry_of_remove he).2, rfl⟩
  removed j entry' he hnone r hr halive := by
    obtain rfl : j = id := by
      by_contra hne
      simp [Queries.remove, hne, he] at hnone
    rw [Sound.answered_remove, has]
    refine List.mem_append_left _ (List.mem_reverse.mpr (List.mem_map_of_mem ?_))
    exact List.mem_filter.mpr ⟨by simpa [waiting, he] using hr, halive⟩

/-- Nothing is said about the transactions. -/
theorem of_live {q' : Queries} (h : Quiet s q') (live : Nat → Bool) (begun : List Begun) :
    Quiet s { q' with live, begun } :=
  ⟨h.idCounter, h.asked, h.executed, h.answered, h.info, h.removed⟩

theorem of_queryStep {cfg : Config} {e : Event} {q' : Queries} (hstep : QueryStep cfg s e q')
    (hheld : q'.held = s.queries.held) : Quiet s q' := by
  cases hstep with
  | other => exact refl s
  | answer a _ _ =>
    exact ⟨rfl, rfl, Nat.le_succ _, fun _ ht => List.mem_cons_of_mem _ ht, (refl s).info,
      fun _ _ hentry hnone => by simp [Queries.answer, hentry] at hnone⟩
  | join => exact absurd (congrArg List.length hheld) (by simp [hold, Queries.store])
  | backup => exact absurd (congrArg List.length hheld) (by simp)
  | unparsed _ _ hentry => exact store hentry false
  | noDirectory _ _ hentry => exact (store hentry false).of_live _ _
  | noFile as _ _ _ _ _ _ htickets => exact (remove s htickets).of_live _ _
  | begin _ _ hentry => exact (store hentry false).of_live _ _
  | finish as _ _ htickets => exact (remove s htickets).of_live _ _

/-- The timer of an entry expires, and its handler takes another id. -/
theorem expired (hentry : s.queries.entry id = some entry) (other : Nat) :
    Quiet s ({ s with
      downloads := s.downloads.stopTimer id entry }.backupTimerExpired other).queries := by
  generalize hs : { s with downloads := s.downloads.stopTimer id entry } = t
  have hstop : t.queries = s.queries.store id { entry with timerArmed := false } :=
    hs ▸ queries_stopTimer id entry s
  have halive : ∀ c, t.alive c = s.alive c := alive_of_core_eq (hs ▸ rfl)
  obtain ⟨as, htickets, -, hqueries⟩ := queries_forEachAndRemove answers_denyDownload other t
  have hstopped : Quiet s t.queries := hstop ▸ store hentry false
  have hlast : Quiet t (t.backupTimerExpired other).queries := by
    rw [backupTimerExpired, hqueries]
    exact remove t htickets
  refine ⟨hlast.idCounter.trans hstopped.idCounter, hlast.asked.trans hstopped.asked,
    hstopped.executed.trans hlast.executed, fun u hu => hlast.answered u (hstopped.answered u hu),
    fun j e he => ?_, fun j e he hnone r hr hr' => ?_⟩
  · obtain ⟨e', he', hinfo'⟩ := hlast.info j e he
    obtain ⟨e'', he'', hinfo''⟩ := hstopped.info j e' he'
    exact ⟨e'', he'', hinfo'.trans hinfo''⟩
  · -- stopping the timer has left the entry there
    rcases hstored : t.queries.entry j with _ | e'
    · exact hlast.answered _ (hstopped.removed j e he hstored r hr hr')
    · obtain ⟨e'', he'', hinfo⟩ := hstopped.info j e' hstored
      obtain rfl : e'' = e := Option.some.inj (he''.symm.trans he)
      exact hlast.removed j e' hstored hnone r (hinfo ▸ hr) ((halive r.conn).trans hr')

end Queries.Quiet

namespace Server

/-- `resolve_download_file_querry` up to `IsDownloadPending`; `none` when it answers the
query before. -/
def findOwner (cfg : Config) (c : ConnId)
    (requestID fileOwner filePath sslVersion compressions : Str) (s : Server) :
    Option (Server × OwnerQuery) :=
  let ticket := s.downloads.executed
  let s := { s with downloads.executed := ticket + 1 }
  if cfg.version sslVersion ≠ .sslv23 then none
  else
    let owner := (s.findConnection fileOwner).bind fun o =>
      (find cfg.PATH_SEPARATOR_CHR filePath (s.tree o)).map fun cached => (o, cached)
    match owner with
    | some (o, false) =>
      some (s, ⟨o, fileOwner, filePath,
        ⟨c, getCompression (cfg.csvCompressions compressions), requestID, ticket⟩⟩)
    | _ => none

/-- What the first part does to a query that goes on. -/
theorem findOwner_spec {cfg : Config} {c : ConnId} {requestID owner path ssl compressions : Str}
    {s s' : Server} {x : OwnerQuery}
    (h : s.findOwner cfg c requestID owner path ssl compressions = some (s', x)) :
    s'.core = s.core ∧ s'.queries = { s.queries with executed := s.queries.executed + 1 } ∧
      x.request.ticket = s.queries.executed ∧ s.registry.nickname x.owner = x.fileOwner ∧
      s'.halted = s.halted := by
  unfold findOwner at h
  dsimp only at h
  split at h
  · cases h
  · split at h
    · next o howner =>
      cases h
      obtain ⟨o', hfind, hcached⟩ := Option.bind_eq_some_iff.mp howner
      obtain ⟨_, _, hpair⟩ := Option.map_eq_some_iff.mp hcached
      obtain rfl : o' = o := congrArg Prod.fst hpair
      exact ⟨rfl, rfl, rfl, nickname_of_findConnection
        (s := { s with downloads.executed := s.downloads.executed + 1 }) hfind, rfl⟩
    · cases h

/-- A query that does not go on is answered. -/
theorem held_resolveDownloadFileQuerry {cfg : Config} (env : FileEnv) {c : ConnId}
    {requestID owner path ssl compressions : Str} {s : Server}
    (h : s.findOwner cfg c requestID owner path ssl compressions = none) :
    (s.resolveDownloadFileQuerry cfg env c requestID owner path ssl compressions).queries.held =
      s.queries.held := by
  have answered : ∀ {f : DownloadRequest → Server → Server}, Answers f → ∀ r (t : Server),
      (f r t).queries.held = t.queries.held := by
    intro f hf r t
    obtain ⟨-, a, -, -, heq⟩ := hf r t
    rw [heq]
    rfl
  unfold findOwner at h
  unfold resolveDownloadFileQuerry
  dsimp only at h ⊢
  split at h
  · next hssl =>
    rw [if_pos hssl, queries_answer rfl]
    rfl
  · next hssl =>
    rw [if_neg hssl]
    split at h
    · cases h
    · next hother =>
      split
      · exact answered answers_denyDownload _ _
      · exact answered (answers_deliverFileFromLocalStorage cfg env _) _ _
      · next o howner => exact (hother o howner).elim

/-- The query that an event brings under way. -/
def ownerQuery (cfg : Config) (s : Server) : Event → Option (Server × OwnerQuery)
  | .execute i _ _ =>
    (s.tasks[i]?).bind fun t =>
      let s := { s with tasks := s.tasks.eraseIdx i }
      if s.alive t.conn then
        match t.request with
        | .downloadFile id owner path ssl compressions =>
          s.findOwner cfg t.conn id owner path ssl compressions
        | _ => none
      else none
  | _ => none

theorem ownerQuery_spec {cfg : Config} {s s' : Server} {e : Event} {x : OwnerQuery}
    (h : s.ownerQuery cfg e = some (s', x)) :
    s'.core = { s.core with tasks := s'.tasks } ∧
      s'.queries = { s.queries with executed := s.queries.executed + 1 } ∧
      x.request.ticket = s.queries.executed ∧ s.registry.nickname x.owner = x.fileOwner ∧
      s'.halted = s.halted := by
  cases e with
  | execute i dbFails env =>
    obtain ⟨t, -, hfind⟩ := Option.bind_eq_some_iff.mp h
    dsimp only at hfind
    split at hfind
    · split at hfind
      · obtain ⟨hcore, hrest⟩ := findOwner_spec hfind
        refine ⟨?_, hrest⟩
        have htasks := congrArg Core.tasks hcore
        rw [hcore]
        simp [core] at htasks ⊢
        exact htasks.symm
      · cases hfind
    · cases hfind
  | _ => cases h

/-- No other event puts a query on hold. -/
theorem held_of_ownerQuery {cfg : Config} {s s' : Server} {e : Event}
    (hcodes : ∀ h ∈ s.running, ¬ h.rest.Misanswers) (h : s.ownerQuery cfg e = none)
    (hstep : s.step cfg e = some s') : s'.queries.held = s.queries.held := by
  have hqueries := step_queries hcodes hstep
  cases e with
  | execute i dbFails env =>
    cases transition_of_step hstep with
    | @execute _ _ _ t _ ht halive hexec =>
      rcases queries_executed hexec with heq | ⟨_, _, _, _, _, hrequest, rfl⟩
      · exact congrArg Queries.held heq
      · refine held_resolveDownloadFileQuerry env ?_
        have halive' : { s with tasks := s.tasks.eraseIdx i }.alive t.conn = true := halive
        simpa [ownerQuery, ht, halive', hrequest] using h
    | expired => rfl
  | _ =>
    generalize s'.queries = q' at hqueries
    cases hqueries <;> first | rfl | rw [Queries.remove, foldl_answer]

/-- The event locks the backed up requests. -/
def locksRequests (cfg : Config) (s : Server) : Event → Bool
  | .read c m _ => s.readError cfg c m = none ∧ (m.approves cfg).isSome
  | .backupTimer _ | .transactionTimer _ | .transferCompleted .. => true
  | _ => false

end Server

/-- An entry that was removed: its id, the requests in it, and those of them whose
connection still existed. -/
structure Removed where
  id : Nat
  requests : List DownloadRequest
  waiting : List DownloadRequest
deriving DecidableEq, Repr

/-- The server with the queries that are under way. -/
structure Asking where
  server : Server
  /-- The queries that have found their owner, before `IsDownloadPending`. -/
  found : List OwnerQuery := []
  /-- The queries for which `IsDownloadPending` found no entry. -/
  queries : List OwnerQuery := []
  stage : Nat → Stage := fun _ => .done
  /-- The id that the handler of a query's timer holds. -/
  captured : Nat → Nat := fun _ => 0
  /-- The id that the handler of an entry's timer holds. -/
  handler : Nat → Nat := fun id => id
  /-- History: the queries that were sent to their owner, with the id. -/
  asked : List (Nat × OwnerQuery) := []
  /-- History: the queries whose request was inserted, with the id. -/
  inserted : List (Nat × OwnerQuery) := []
  /-- History. -/
  removed : List Removed := []

namespace Asking

def counter (a : Asking) : Nat := a.server.downloads.downloadTransactionsIDCounter

def setStage (q : Nat) (st : Stage) (a : Asking) : Asking :=
  { a with stage := Function.update a.stage q st }

/-- Some query holds the lock of the backed up requests. -/
def locked (a : Asking) : Bool := (List.range a.queries.length).any fun q => (a.stage q).locks

/-- The entries that are there in `s` and no longer in `s'`. -/
def removedEntries (s s' : Server) : List Removed :=
  (s.downloads.backedupRequests.toList.filter fun e =>
    !s'.downloads.backedupRequests.contains e.1).map fun e =>
      ⟨e.1, e.2.info.requests, e.2.info.requests.filter fun r => s.alive r.conn⟩

/-- The server has gone on to `s'`. -/
def setServer (s' : Server) (a : Asking) : Asking :=
  { a with server := s', removed := removedEntries a.server s' ++ a.removed }

/-- `IsDownloadPending`. -/
def check (i : Nat) (a : Asking) : Option Asking :=
  if a.locked then none
  else (a.found[i]?).map fun x =>
    let a := { a with found := a.found.eraseIdx i }
    match a.server.downloads.isDownloadPending x.fileOwner x.filePath x.request with
    | some downloads =>
      { a with server.downloads := { downloads with held := x.request.ticket :: downloads.held } }
    | none =>
      { a with
        queries := a.queries ++ [x]
        stage := Function.update a.stage a.queries.length .passed }

/-- `start_write` of the query to the owner, with an id just read. -/
def ask (q : Nat) (x : OwnerQuery) (a : Asking) : Asking :=
  { a with
    server := a.server.startWrite x.owner (.downloadQuerry a.counter x.filePath)
    asked := (a.counter, x) :: a.asked }.setStage q .asked

/-- `emplace`. -/
def emplace (q key : Nat) (x : OwnerQuery) (a : Asking) : Asking :=
  if a.server.downloads.backedupRequests.contains key then a.setStage q .stored
  else
    { a with
      server.downloads.backedupRequests :=
        a.server.downloads.backedupRequests.insert key ⟨x.info, false⟩
      handler := Function.update a.handler key (a.captured q)
      inserted := (key, x) :: a.inserted }.setStage q .stored

/-- The start of the timer of `operator[]`; an entry that it has to make has none. -/
def start (q : Nat) (x : OwnerQuery) (a : Asking) : Asking :=
  match a.server.downloads.backedupRequests[a.counter]? with
  | none => { a with server.halted := true }
  | some entry =>
    { a with
      server.downloads := { a.server.downloads with
        backedupRequests :=
          a.server.downloads.backedupRequests.insert a.counter { entry with timerArmed := true }
        held := x.request.ticket :: a.server.downloads.held } }.setStage q .done

/-- The next step of a query. -/
def advance (q : Nat) (a : Asking) : Option Asking :=
  (a.queries[q]?).bind fun x =>
    match a.stage q with
    | .done => none
    | .passed =>
      some ({ a with server.downloads.downloadTransactionsIDCounter := a.counter + 1 }.setStage q
        .incremented)
    | .incremented => some (a.ask q x)
    | .asked =>
      some ({ a with captured := Function.update a.captured q a.counter }.setStage q .captured)
    | .captured => if a.locked then none else some (a.setStage q (.keyed a.counter))
    | .keyed key => some (a.emplace q key x)
    | .stored => some (a.start q x)

/-- The timer of an entry expires. Its handler takes the id that it holds. -/
def timer (id : Nat) (a : Asking) : Option Asking :=
  if a.locked then none
  else (a.server.downloads.backedupRequests[id]?).bind fun entry =>
    if entry.timerArmed then
      some (a.setServer ({ a.server with
        downloads := a.server.downloads.stopTimer id entry }.backupTimerExpired (a.handler id)))
    else none

inductive Event where
  | server (e : Server.Event)
  | check (i : Nat)
  | advance (q : Nat)
  | timer (id : Nat)

/-- A step of the server. A download query whose owner is asked comes under way, and the
timers of the entries are left to `timer`. -/
def serverStep (cfg : Config) (e : Server.Event) (a : Asking) : Option Asking :=
  if a.locked ∧ a.server.locksRequests cfg e then none
  else match e with
    | .backupTimer _ => none
    | e =>
      match a.server.ownerQuery cfg e with
      | some (server, x) => some { a with server, found := a.found ++ [x] }
      | none => (a.server.step cfg e).map fun s' => a.setServer s'

def step (cfg : Config) (a : Asking) (e : Event) : Option Asking :=
  if a.server.halted then none
  else match e with
    | .server e => a.serverStep cfg e
    | .check i => a.check i
    | .advance q => a.advance q
    | .timer id => a.timer id

def initial (cfg : Config) (users : List (Str × Str)) : Asking :=
  { server := Server.initial cfg users }

end Asking

/-! ## A query without interruption -/

namespace Server

/-- The rest of `resolve_download_file_querry`, in one step: the query joins the entry for
its file, or its owner is asked under the next id. -/
def finishQuery (x : OwnerQuery) (s : Server) : Server :=
  match s.downloads.isDownloadPending x.fileOwner x.filePath x.request with
  | some downloads =>
    { s with downloads := { downloads with held := x.request.ticket :: downloads.held } }
  | none =>
    let id := s.downloads.downloadTransactionsIDCounter + 1
    let s := { s with downloads.downloadTransactionsIDCounter := id }
    let s := s.startWrite x.owner (.downloadQuerry id x.filePath)
    let downloads := s.downloads.backupAndStartTimer id x.info
    { s with downloads := { downloads with held := x.request.ticket :: downloads.held } }

theorem finishQuery_of_findOwner {cfg : Config} (env : FileEnv) {c : ConnId}
    {requestID owner path ssl compressions : Str} {s t : Server} {x : OwnerQuery}
    (h : s.findOwner cfg c requestID owner path ssl compressions = some (t, x)) :
    s.resolveDownloadFileQuerry cfg env c requestID owner path ssl compressions =
      t.finishQuery x := by
  unfold findOwner at h
  unfold resolveDownloadFileQuerry
  dsimp only at h ⊢
  split at h
  · cases h
  · next hssl =>
    rw [if_neg hssl]
    split at h
    · next o howner =>
      cases h
      rw [howner]
      rfl
    · cases h

theorem step_of_ownerQuery {cfg : Config} {s t : Server} {e : Event} {x : OwnerQuery}
    (hhalted : s.halted = false) (h : s.ownerQuery cfg e = some (t, x)) :
    s.step cfg e = some (t.finishQuery x) := by
  cases e with
  | execute i dbFails env =>
    obtain ⟨task, htask, hfind⟩ := Option.bind_eq_some_iff.mp h
    dsimp only at hfind
    split at hfind
    · next halive =>
      split at hfind
      · next hrequest =>
        rw [step]
        refine (if_neg (by simp [hhalted])).trans (Option.bind_eq_some_iff.mpr ⟨task, htask, ?_⟩)
        refine (if_pos halive).trans ?_
        rw [hrequest, executeRequest, finishQuery_of_findOwner env hfind]
      · cases hfind
    · cases hfind
  | _ => cases h

end Server

namespace Asking

section Advance

variable {cfg : Config} {a : Asking} {q : Nat} {x : OwnerQuery}

theorem exec_advance {a' : Asking} {es : List Event} (hhalted : a.server.halted = false)
    (hs : a.advance q = some a') :
    exec (step cfg) a (.advance q :: es) = exec (step cfg) a' es := by
  simp [exec, step, hhalted, hs]

theorem advance_passed (hx : a.queries[q]? = some x) (h : a.stage q = .passed) :
    a.advance q = some ({ a with
      server.downloads.downloadTransactionsIDCounter := a.counter + 1 }.setStage q
        .incremented) := by
  simp [advance, hx, h]

theorem advance_incremented (hx : a.queries[q]? = some x) (h : a.stage q = .incremented) :
    a.advance q = some (a.ask q x) := by
  simp [advance, hx, h]

theorem advance_asked (hx : a.queries[q]? = some x) (h : a.stage q = .asked) :
    a.advance q = some ({ a with
      captured := Function.update a.captured q a.counter }.setStage q .captured) := by
  simp [advance, hx, h]

theorem advance_captured (hx : a.queries[q]? = some x) (h : a.stage q = .captured)
    (hunlocked : a.locked = false) : a.advance q = some (a.setStage q (.keyed a.counter)) := by
  simp [advance, hx, h, hunlocked]

theorem advance_keyed {k : Nat} (hx : a.queries[q]? = some x) (h : a.stage q = .keyed k)
    (hfree : a.server.queries.entry k = none) :
    a.advance q = some ({ a with
      server.downloads.backedupRequests :=
        a.server.downloads.backedupRequests.insert k ⟨x.info, false⟩
      handler := Function.update a.handler k (a.captured q)
      inserted := (k, x) :: a.inserted }.setStage q .stored) := by
  have hnot : k ∉ a.server.downloads.backedupRequests := by
    have hnone : a.server.downloads.backedupRequests[k]? = none := hfree
    simp [Std.TreeMap.mem_iff_isSome_getElem?, hnone]
  simp [advance, hx, h, emplace, hnot]

theorem advance_stored {e : Backup} (hx : a.queries[q]? = some x) (h : a.stage q = .stored)
    (hentry : a.server.queries.entry a.counter = some e) :
    a.advance q = some ({ a with
      server.downloads := { a.server.downloads with
        backedupRequests :=
          a.server.downloads.backedupRequests.insert a.counter { e with timerArmed := true }
        held := x.request.ticket :: a.server.downloads.held } }.setStage q .done) := by
  have hentry' : a.server.downloads.backedupRequests[a.counter]? = some e := hentry
  simp [advance, hx, h, start, hentry']

end Advance

/-- When nothing comes between its steps, a query does what the server does in one step. -/
theorem exec_query {cfg : Config} {a : Asking} {e : Server.Event} {t : Server} {x : OwnerQuery}
    (hhalted : a.server.halted = false) (hdone : ∀ q, a.stage q = .done)
    (hquery : a.server.ownerQuery cfg e = some (t, x))
    (hfree : a.server.queries.entry (a.counter + 1) = none) :
    ∃ a', exec (step cfg) a (.server e :: .check a.found.length ::
        if (t.downloads.isDownloadPending x.fileOwner x.filePath x.request).isSome then []
        else List.replicate 6 (.advance a.queries.length)) = some a' ∧
      a'.found = a.found ∧ (∀ q, a'.stage q = .done) ∧
      ∃ s', a.server.step cfg e = some s' ∧ a'.server.queries = s'.queries ∧
        a'.server.core = s'.core ∧ a'.server.sent = s'.sent ∧ a'.server.tree = s'.tree := by
  have hunlocked : ∀ {b : Asking}, (∀ q, (b.stage q).locks = false) → b.locked = false := by
    intro b hb
    simp [locked, hb]
  have hrest : (a.server.step cfg e) = some (t.finishQuery x) := step_of_ownerQuery hhalted hquery
  obtain ⟨-, hqueries, -, -, hsame⟩ := ownerQuery_spec hquery
  have hhalted' : t.halted = false := hsame.trans hhalted
  have htaken : ∀ es, exec (step cfg) a (.server e :: es) =
      exec (step cfg) { a with server := t, found := a.found ++ [x] } es := by
    intro es
    have hlocked : a.locked = false := hunlocked fun q => by rw [hdone q]; rfl
    cases e with
    | execute i dbFails env => simp [exec, step, hhalted, serverStep, hlocked, hquery]
    | _ => cases hquery
  have hlocked' : ({ a with server := t, found := a.found ++ [x] } : Asking).locked = false :=
    hunlocked fun q => by
      show (a.stage q).locks = false
      rw [hdone q]
      rfl
  rw [htaken, hrest]
  rcases hpending : t.downloads.isDownloadPending x.fileOwner x.filePath x.request
    with _ | downloads
  · generalize hid : t.downloads.downloadTransactionsIDCounter + 1 = id
    have hcounter : t.downloads.downloadTransactionsIDCounter = a.counter :=
      congrArg Queries.idCounter hqueries
    have hnone : t.downloads.backedupRequests[id]? = none := by
      rw [← hid, hcounter]
      exact (congrFun (congrArg Queries.entry hqueries) _).trans hfree
    have hcheck : ∀ es, exec (step cfg) { a with server := t, found := a.found ++ [x] }
        (.check a.found.length :: es) = exec (step cfg) { a with
          server := t
          queries := a.queries ++ [x]
          stage := Function.update a.stage a.queries.length .passed } es := by
      simp [exec, step, hhalted', check, hlocked', hpending, List.eraseIdx_append_of_length_le]
    simp only [Option.isSome_none, Bool.false_eq_true, if_false, List.replicate]
    rw [hcheck, exec_advance ?_ (advance_passed (x := x) ?_ ?_),
      exec_advance ?_ (advance_incremented (x := x) ?_ ?_),
      exec_advance ?_ (advance_asked (x := x) ?_ ?_),
      exec_advance ?_ (advance_captured (x := x) ?_ ?_ ?_),
      exec_advance ?_ (advance_keyed (x := x) (k := id) ?_ ?_ ?_),
      exec_advance ?_ (advance_stored (x := x) (e := ⟨x.info, false⟩) ?_ ?_ ?_)]
    · refine ⟨_, rfl, rfl, fun q => ?_, _, rfl, ?_⟩
      · simp [setStage, ask, Function.update_apply, hdone]
      · have hfinish : t.finishQuery x =
            { { t with downloads.downloadTransactionsIDCounter := id }.startWrite x.owner
                (.downloadQuerry id x.filePath) with
              downloads := { t.downloads.backupAndStartTimer id x.info with
                downloadTransactionsIDCounter := id
                held := x.request.ticket :: t.downloads.held } } := by
          simp only [finishQuery, hpending, hid]
          rfl
        rw [hfinish]
        refine ⟨?_, rfl, ?_, rfl⟩
        · -- the entry was inserted before its timer was started
          have hentries : ∀ j : Nat,
              ((t.downloads.backedupRequests.insert id ⟨x.info, false⟩).insert id
                ⟨x.info, true⟩)[j]? =
                  (t.downloads.backupAndStartTimer id x.info).backedupRequests[j]? := by
            intro j
            simp only [Downloads.backupAndStartTimer, hnone, Option.getD_none,
              Lookup.getElem?_insert]
            split <;> rfl
          subst hid
          simp only [Server.queries, Queries.mk.injEq]
          exact ⟨funext hentries, rfl, rfl, rfl, rfl, rfl, rfl, rfl, rfl⟩
        · subst hid
          rfl
    any_goals exact hhalted'
    any_goals exact Function.update_self ..
    any_goals exact List.getElem?_concat_length ..
    · show (t.downloads.backedupRequests.insert id ⟨x.info, false⟩)[
        t.downloads.downloadTransactionsIDCounter + 1]? = _
      rw [hid, Lookup.getElem?_insert, if_pos rfl]
    · exact (Function.update_self ..).trans (congrArg Stage.keyed hid)
    · exact hnone
    · refine hunlocked fun q => ?_
      simp only [setStage, ask, Function.update_idem, Function.update_apply, hdone]
      split <;> rfl
  · have hcheck : exec (step cfg) { a with server := t, found := a.found ++ [x] }
        [.check a.found.length] = some { a with
          server := { t with
            downloads := { downloads with held := x.request.ticket :: downloads.held } } } := by
      simp [exec, step, hhalted', check, hlocked', hpending, List.eraseIdx_append_of_length_le]
    refine ⟨_, hcheck, rfl, hdone, _, rfl, ?_⟩
    simp [finishQuery, hpending]

end Asking

end FspServer
