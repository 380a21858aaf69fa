import FspServer.Lib.Lookup
import FspServer.Connections

/-!
# What a step does to the download queries

`Server.queries` keeps what the life of a download query depends on, with maps as
functions: the entries of `backedup_requests_`, the ids of
`download_transactions_`, the answers written and the owners asked. `QueryStep`
says once everything that a step can do to it; `Server.step_queries` connects
the two.

A query that is executed gets the next ticket. It is answered at once, joins the
entry for the same file, or opens a new entry whose owner is asked. An owner's
reply and the end of a timer or of a transfer work on the one entry that they
name.
-/

namespace FspServer

/-- The message answers a download query. -/
def Outgoing.isAnswer : Outgoing → Bool
  | .reply .DOWNLOAD_DENY _ | .reply .SSL_VERSION_INCOMPATIBLE _ | .downloadApproved .. => true
  | _ => false

/-- The id under which the message asks an owner for a file. -/
def Outgoing.asks : Outgoing → Option Nat
  | .downloadQuerry id _ => some id
  | _ => none

/-- The id that a reply names with which a download is approved. -/
def Message.approves (cfg : Config) (m : Message) : Option Nat :=
  if m.command = .REPLY ∧ m.header .ReplyCode = cfg.DOWNLOAD_FILE_QUERRY_APPROVED then
    stoull (m.header .CommandId)
  else none

/-- The id whose waiting requests the event answers. -/
def Server.Event.ends : Server.Event → Option Nat
  | .backupTimer id | .transactionTimer id | .transferCompleted id .. => some id
  | _ => none

structure Queries where
  entry : Nat → Option Backup
  idCounter : Nat
  /-- The ids with an entry of `download_transactions_`. -/
  live : Nat → Bool
  executed : Nat
  held : List Nat
  answers : List Answer
  begun : List Begun
  /-- The answers to download queries among the messages written. -/
  written : ConnId → List Outgoing
  /-- The ids under which a connection was asked for a file. -/
  asked : ConnId → List Nat

namespace Queries

/-- The tickets of the queries that were answered. -/
def answered (q : Queries) : List Nat := q.answers.map (·.ticket)

/-- The requests that wait in an entry. -/
def waiting (q : Queries) (id : Nat) : List DownloadRequest :=
  (q.entry id).elim [] fun entry => entry.info.requests

def answer (q : Queries) (a : Answer) : Queries :=
  { q with
    answers := a :: q.answers
    written := Function.update q.written a.conn (q.written a.conn ++ [a.message]) }

def store (id : Nat) (entry : Backup) (q : Queries) : Queries :=
  { q with entry := Function.update q.entry id (some entry) }

/-- The answers `as` are written and the entry is erased. -/
def remove (id : Nat) (as : List Answer) (q : Queries) : Queries :=
  { as.foldl answer q with entry := Function.update q.entry id none }

/-- The next query is put on hold. -/
def hold (q : Queries) : Queries :=
  { q with executed := q.executed + 1, held := q.executed :: q.held }

/-- An entry that is there after another was stored. -/
theorem entry_of_store {q : Queries} {id j : Nat} {new entry : Backup}
    (h : (q.store id new).entry j = some entry) :
    (j = id ∧ new = entry) ∨ (j ≠ id ∧ q.entry j = some entry) := by
  change Function.update q.entry id (some new) j = some entry at h
  rw [Function.update_apply] at h
  split at h
  · next hj => exact Or.inl ⟨hj, Option.some.inj h⟩
  · next hj => exact Or.inr ⟨hj, h⟩

/-- An entry that is there after another was removed. -/
theorem entry_of_remove {q : Queries} {id j : Nat} {as : List Answer} {entry : Backup}
    (h : (q.remove id as).entry j = some entry) : j ≠ id ∧ q.entry j = some entry := by
  change Function.update q.entry id none j = some entry at h
  rw [Function.update_apply] at h
  split at h
  · cases h
  · next hj => exact ⟨hj, h⟩

end Queries

namespace Server

def queries (s : Server) : Queries where
  entry id := s.downloads.backedupRequests[id]?
  idCounter := s.downloads.downloadTransactionsIDCounter
  live id := s.downloads.downloadTransactions.contains id
  executed := s.downloads.executed
  held := s.downloads.held
  answers := s.downloads.answers
  begun := s.downloads.begun
  written c := (s.sent c).filter Outgoing.isAnswer
  asked c := (s.sent c).filterMap Outgoing.asks

/-- The tickets of the waiting requests of an entry whose connection still exists. -/
def answerable (s : Server) (id : Nat) : List Nat :=
  ((s.queries.waiting id).filter fun r => s.alive r.conn).map (·.ticket)

end Server

open Server

/-- What an event can do to the download queries. -/
inductive QueryStep (cfg : Config) (s : Server) : Event → Queries → Prop
  | other {e : Event} : QueryStep cfg s e s.queries
  /-- A query is answered when it is executed. -/
  | answer {i : Nat} {dbFails : Bool} {env : FileEnv} (a : Answer) :
      a.ticket = s.queries.executed → a.message.isAnswer = true →
      QueryStep cfg s (.execute i dbFails env)
        { s.queries.answer a with executed := s.queries.executed + 1 }
  /-- A query joins the entry for the same file. -/
  | join {i : Nat} {dbFails : Bool} {env : FileEnv} {id : Nat} {entry : Backup}
      (r : DownloadRequest) :
      s.queries.entry id = some entry → r.ticket = s.queries.executed →
      QueryStep cfg s (.execute i dbFails env) (s.queries.store id
        { entry with info := { entry.info with requests := r :: entry.info.requests } }).hold
  /-- A query opens a new entry. -/
  | backup {i : Nat} {dbFails : Bool} {env : FileEnv} (o : ConnId) (filePath : Str) {id : Nat}
      (r : DownloadRequest) :
      s.queries.idCounter + 1 = id → r.ticket = s.queries.executed →
      QueryStep cfg s (.execute i dbFails env)
        { s.queries.store id { (s.queries.entry id).getD
            ⟨⟨s.registry.nickname o, filePath, [r]⟩, false⟩ with timerArmed := true } with
          idCounter := id
          executed := s.queries.executed + 1
          held := s.queries.executed :: s.queries.held
          asked := Function.update s.queries.asked o (s.queries.asked o ++ [id]) }
  /-- An approving reply whose file size is no number: only the timer is stopped. -/
  | unparsed {c : ConnId} {m : Message} {env : FileEnv} {id : Nat} {entry : Backup} :
      s.readError cfg c m = none → m.approves cfg = some id → s.queries.entry id = some entry →
      stoull (m.header .FileSize) = none →
      QueryStep cfg s (.read c m env) (s.queries.store id { entry with timerArmed := false })
  /-- The directories for the file cannot be made. -/
  | noDirectory {c : ConnId} {m : Message} {env : FileEnv} {id : Nat} {entry : Backup} :
      s.readError cfg c m = none → m.approves cfg = some id → s.queries.entry id = some entry →
      (stoull (m.header .FileSize)).isSome → env.createDirectories = false →
      QueryStep cfg s (.read c m env)
        { s.queries.store id { entry with timerArmed := false } with
          begun := ⟨id, s.registry.nickname c, entry.info.fileOwner⟩ :: s.queries.begun }
  /-- The file cannot be made. -/
  | noFile {c : ConnId} {m : Message} {env : FileEnv} {id : Nat} {entry : Backup}
      (as : List Answer) :
      s.readError cfg c m = none → m.approves cfg = some id → s.queries.entry id = some entry →
      (stoull (m.header .FileSize)).isSome → env.createDirectories = true →
      env.createFile = false → as.map (·.ticket) = s.answerable id →
      (∀ a ∈ as, a.message.isAnswer = true) →
      QueryStep cfg s (.read c m env)
        { s.queries.remove id as with
          begun := ⟨id, s.registry.nickname c, entry.info.fileOwner⟩ :: s.queries.begun }
  /-- The transfer can start. -/
  | begin {c : ConnId} {m : Message} {env : FileEnv} {id : Nat} {entry : Backup} :
      s.readError cfg c m = none → m.approves cfg = some id → s.queries.entry id = some entry →
      (stoull (m.header .FileSize)).isSome → env.createDirectories = true →
      env.createFile = true →
      QueryStep cfg s (.read c m env)
        { s.queries.store id { entry with timerArmed := false } with
          live := Function.update s.queries.live id true
          begun := ⟨id, s.registry.nickname c, entry.info.fileOwner⟩ :: s.queries.begun }
  /-- A timer expires or a transfer ends. -/
  | finish {e : Event} {id : Nat} {live : Nat → Bool} (as : List Answer) :
      e.ends = some id → (∀ j, j ≠ id → live j = s.queries.live j) →
      as.map (·.ticket) = s.answerable id → (∀ a ∈ as, a.message.isAnswer = true) →
      QueryStep cfg s e { s.queries.remove id as with live }

namespace Server

/-! ## Writing messages -/

theorem queries_startWrite {m : Outgoing} (hanswer : m.isAnswer = false) (hasks : m.asks = none)
    (c : ConnId) (s : Server) : (s.startWrite c m).queries = s.queries := by
  have hsent : ∀ d, (s.startWrite c m).sent d = if d = c then s.sent c ++ [m] else s.sent d := by
    intro d
    simp [startWrite, Function.update_apply]
  simp only [queries, Queries.mk.injEq]
  refine ⟨rfl, rfl, rfl, rfl, rfl, rfl, rfl, funext fun d => ?_, funext fun d => ?_⟩
  all_goals
    rw [hsent]
    split
    · next hdc => simp [hdc, hanswer, hasks]
    · rfl

theorem queries_answer {m : Outgoing} (hanswer : m.isAnswer = true) (c : ConnId) (ticket : Nat)
    (s : Server) : (s.answer c ticket m).queries = s.queries.answer ⟨ticket, c, m⟩ := by
  have hasks : m.asks = none := by cases m <;> simp_all [Outgoing.isAnswer, Outgoing.asks]
  simp only [queries, Queries.answer, Queries.mk.injEq]
  refine ⟨rfl, rfl, rfl, rfl, rfl, rfl, rfl, funext fun d => ?_, funext fun d => ?_⟩
  all_goals
    by_cases hdc : d = c
    · subst hdc
      simp [answer, startWrite, hanswer, hasks]
    · simp [answer, startWrite, hdc]

theorem queries_writeReply (code : Response) {id : Str}
    (hanswer : (Outgoing.reply code id).isAnswer = false) (c : ConnId) (s : Server) :
    (s.writeReply code id c).queries = s.queries :=
  queries_startWrite hanswer rfl c s

theorem queries_foldl_startWrite (n : Notification) (recipients : List ConnId) (s : Server) :
    (recipients.foldl (fun s c => s.startWrite c (.notification n)) s).queries = s.queries := by
  induction recipients generalizing s with
  | nil => rfl
  | cons c recipients ih =>
    rw [List.foldl_cons, ih, queries_startWrite rfl rfl]

@[simp] theorem queries_broadcast (cfg : Config) (n : Notification) (counter : Nat)
    (recipients : List ConnId) (s : Server) :
    (s.broadcast cfg n counter recipients).queries = s.queries := by
  rw [broadcast, queries_foldl_startWrite]
  rfl

@[simp] theorem queries_notifyDisconnection (cfg : Config) (c : ConnId) (st : ClientState)
    (nickname : Str) (s : Server) :
    (s.notifyDisconnection cfg c st nickname).queries = s.queries := by
  unfold notifyDisconnection
  dsimp only
  split
  · split
    · rfl
    · rw [queries_broadcast]
      rfl
  · rfl

@[simp] theorem queries_notifyFilesRegistration (cfg : Config) (c : ConnId) (s : Server) :
    (s.notifyFilesRegistration cfg c).queries = s.queries := by
  unfold notifyFilesRegistration
  dsimp only
  split
  · rfl
  · calc _ = (((_ : Server).broadcast cfg _ _ _).startWrite c _).queries := rfl
      _ = _ := by rw [queries_startWrite rfl rfl, queries_broadcast]; rfl

@[simp] theorem queries_doNotify (cfg : Config) (notifier : Str) (n : Notification) (s : Server) :
    (s.doNotify cfg notifier n).queries = s.queries := by
  unfold doNotify
  split
  · rfl
  · exact queries_broadcast ..

@[simp] theorem queries_stop (c : ConnId) (s : Server) : (s.stop c).queries = s.queries := by
  unfold stop
  split <;> rfl

@[simp] theorem queries_sharedWriteCompleted (cfg : Config) (w : SharedWrite)
    (result : SendResult) (s : Server) :
    (s.sharedWriteCompleted cfg w result).queries = s.queries := by
  unfold sharedWriteCompleted
  dsimp only
  split
  · rfl
  · split
    · rw [queries_stop]
      rfl
    · split <;> rfl

/-! ## Entries and transactions -/

theorem queries_stopTimer (id : Nat) (entry : Backup) (s : Server) :
    { s with downloads := s.downloads.stopTimer id entry }.queries =
      s.queries.store id { entry with timerArmed := false } := by
  simp only [queries, Downloads.stopTimer, Queries.store, Lookup.getElem?_insert_eq_update]

/-- The handler writes one answer to the request and does nothing else to the
queries or to the connections. -/
def Answers (f : DownloadRequest → Server → Server) : Prop :=
  ∀ r s, (f r s).core = s.core ∧ ∃ a : Answer, a.ticket = r.ticket ∧ a.message.isAnswer = true ∧
    (f r s).queries = s.queries.answer a

theorem answers_denyDownload : Answers denyDownload := fun r s =>
  ⟨rfl, _, rfl, rfl, queries_answer rfl r.conn r.ticket s⟩

theorem queries_beginUploadTransaction {env : FileEnv} {path : Str} {compression : Compression}
    {s : Server} {id size : Nat} {chosen : Compression} {downloads : Downloads}
    (h : s.downloads.beginUploadTransaction env path compression =
      some (id, size, chosen, downloads)) :
    { s with downloads }.queries = s.queries := by
  unfold Downloads.beginUploadTransaction at h
  split at h
  · simp at h
  · split at h
    · simp at h
    · simp only [Option.some.injEq, Prod.mk.injEq] at h
      obtain ⟨-, -, -, rfl⟩ := h
      rfl

theorem answers_deliverFileFromLocalStorage (cfg : Config) (env : FileEnv) (path : Str) :
    Answers (deliverFileFromLocalStorage cfg env path) := by
  intro r s
  refine ⟨blind_core.deliverFileFromLocalStorage cfg env path r s, ?_⟩
  unfold deliverFileFromLocalStorage
  split
  · next id size compression downloads h =>
    refine ⟨⟨r.ticket, r.conn, .downloadApproved r.requestID size cfg.downloadPort id compression⟩,
      rfl, rfl, ?_⟩
    rw [queries_answer rfl, queries_beginUploadTransaction h]
  · exact (answers_denyDownload r s).2

theorem alive_of_core_eq {s s' : Server} (h : s'.core = s.core) (c : ConnId) :
    s'.alive c = s.alive c := by
  have hiff : s'.alive c = true ↔ s.alive c = true := by rw [alive_iff, alive_iff, h]
  exact Bool.eq_iff_iff.mpr hiff

/-- The loop answers the requests whose connection still exists. -/
theorem queries_foldl {f : DownloadRequest → Server → Server} (hf : Answers f)
    (requests : List DownloadRequest) (s : Server) :
    ∃ as : List Answer, as.map (·.ticket) =
        (requests.filter fun r => s.alive r.conn).map (·.ticket) ∧
      (∀ a ∈ as, a.message.isAnswer = true) ∧
      (requests.foldl (fun s r => if s.alive r.conn then f r s else s) s).queries =
        as.foldl Queries.answer s.queries := by
  induction requests generalizing s with
  | nil => exact ⟨[], rfl, fun _ h => absurd h List.not_mem_nil, rfl⟩
  | cons r requests ih =>
    rw [List.foldl_cons]
    by_cases halive : s.alive r.conn = true
    · obtain ⟨hcore, a, hticket, hanswer, hqueries⟩ := hf r s
      obtain ⟨as, htickets, hanswers, hrest⟩ := ih (f r s)
      simp only [alive_of_core_eq hcore] at htickets
      refine ⟨a :: as, ?_, ?_, ?_⟩
      · simp [halive, hticket, htickets]
      · exact List.forall_mem_cons.mpr ⟨hanswer, hanswers⟩
      · rw [if_pos halive, hrest, hqueries, List.foldl_cons]
    · obtain ⟨as, htickets, hanswers, hrest⟩ := ih s
      rw [if_neg halive]
      exact ⟨as, by simp [halive, htickets], hanswers, hrest⟩

/-- Writing answers changes only the answers. -/
theorem foldl_answer (as : List Answer) (q : Queries) :
    as.foldl Queries.answer q = { q with
      answers := as.reverse ++ q.answers
      written := (as.foldl Queries.answer q).written } := by
  induction as generalizing q with
  | nil => rfl
  | cons a as ih =>
    rw [List.foldl_cons, ih]
    simp [Queries.answer]

theorem queries_forEachAndRemove {f : DownloadRequest → Server → Server} (hf : Answers f)
    (id : Nat) (s : Server) :
    ∃ as : List Answer, as.map (·.ticket) = s.answerable id ∧
      (∀ a ∈ as, a.message.isAnswer = true) ∧
      (s.forEachAndRemove id f).queries = s.queries.remove id as := by
  unfold forEachAndRemove
  split
  · next hnone =>
    have hentry : s.queries.entry id = none := hnone
    refine ⟨[], by simp [answerable, Queries.waiting, hentry],
      fun _ h => absurd h List.not_mem_nil, ?_⟩
    simp [Queries.remove, ← hentry]
  · next entry hsome =>
    have hentry : s.queries.entry id = some entry := hsome
    obtain ⟨as, htickets, hanswers, hqueries⟩ := queries_foldl hf entry.info.requests s
    refine ⟨as, by rw [htickets]; simp [answerable, Queries.waiting, hentry], hanswers, ?_⟩
    have hentries := congrArg Queries.entry hqueries
    rw [foldl_answer] at hentries
    dsimp only
    simp only [queries, Queries.remove, Lookup.getElem?_erase_eq_update] at hqueries hentries ⊢
    rw [hentries, ← hqueries]

theorem queries_endDownloadTransaction (cfg : Config) (id : Nat) (s : Server) :
    ∃ live : Nat → Bool, (∀ j, j ≠ id → live j = s.queries.live j) ∧
      (s.endDownloadTransaction cfg id).queries = { s.queries with live } := by
  unfold endDownloadTransaction
  split
  · exact ⟨_, fun _ _ => rfl, rfl⟩
  · refine ⟨fun j => (s.downloads.downloadTransactions.erase id).contains j, fun j hj => ?_, rfl⟩
    simp [queries, Ne.symm hj]

@[simp] theorem queries_setFileToCached (cfg : Config) (owner path : Str) (s : Server) :
    (s.setFileToCached cfg owner path).queries = s.queries := by
  unfold setFileToCached
  split <;> rfl

@[simp] theorem queries_notifyFileDownload (cfg : Config) (owner : Str) (id : Nat)
    (compression : Compression) (s : Server) :
    (s.notifyFileDownload cfg owner id compression).queries = s.queries := by
  unfold notifyFileDownload
  split
  · exact queries_startWrite rfl rfl _ s
  · rfl

@[simp] theorem queries_tryStartDownloadTransaction (id : Nat) (s : Server) :
    (s.tryStartDownloadTransaction id).queries = s.queries := by
  unfold tryStartDownloadTransaction
  split <;> rfl

@[simp] theorem queries_endUploadTransaction (cfg : Config) (id : Nat) (s : Server) :
    (s.endUploadTransaction cfg id).queries = s.queries := by
  unfold endUploadTransaction
  split <;> rfl

/-! ## Queries and replies -/

theorem nickname_of_findConnection {s : Server} {nickname : Str} {o : ConnId}
    (h : s.findConnection nickname = some o) : s.registry.nickname o = nickname := by
  simpa using List.find?_some h

/-- The entry that a query joins. -/
theorem entry_of_isDownloadPending {s : Server} {owner path : Str} {r : DownloadRequest}
    {downloads : Downloads} (h : s.downloads.isDownloadPending owner path r = some downloads) :
    ∃ id entry, s.queries.entry id = some entry ∧
      { s with downloads }.queries = s.queries.store id
        { entry with info := { entry.info with requests := r :: entry.info.requests } } := by
  unfold Downloads.isDownloadPending at h
  obtain ⟨⟨id, entry⟩, hfind, rfl⟩ := Option.map_eq_some_iff.mp h
  have hentry : s.queries.entry id = some entry :=
    Std.TreeMap.mem_toList_iff_getElem?_eq_some.mp (List.mem_of_find?_eq_some hfind)
  refine ⟨id, entry, hentry, ?_⟩
  simp only [queries, Queries.store, Lookup.getElem?_insert_eq_update]

theorem queries_backupAndStartTimer (id : Nat) (info : DownloadInfo) (held : List Nat)
    (s : Server) :
    { s with downloads := { s.downloads.backupAndStartTimer id info with held } }.queries =
      { s.queries.store id
          { (s.queries.entry id).getD ⟨info, false⟩ with timerArmed := true } with held } := by
  simp only [queries, Queries.store, Downloads.backupAndStartTimer,
    Lookup.getElem?_insert_eq_update]

/-- An owner is asked for a file. -/
theorem queries_startWrite_downloadQuerry (o : ConnId) (id : Nat) (path : Str) (s : Server) :
    (s.startWrite o (.downloadQuerry id path)).queries =
      { s.queries with
        asked := Function.update s.queries.asked o (s.queries.asked o ++ [id]) } := by
  simp only [queries, startWrite, Queries.mk.injEq, true_and]
  refine ⟨funext fun d => ?_, funext fun d => ?_⟩
  all_goals
    by_cases hd : d = o
    · subst hd
      simp [Outgoing.isAnswer, Outgoing.asks]
    · simp [hd]

/-- Executing a download query. -/
theorem queryStep_resolveDownloadFileQuerry (cfg : Config) (env : FileEnv) (c : ConnId)
    (id owner path ssl compressions : Str) {s t : Server} {i : Nat} {dbFails : Bool}
    {env' : FileEnv} (hregistry : t.registry = s.registry) (hqueries : t.queries = s.queries) :
    QueryStep cfg s (.execute i dbFails env')
      (t.resolveDownloadFileQuerry cfg env c id owner path ssl compressions).queries := by
  have hexecuted : t.downloads.executed = s.queries.executed :=
    congrArg Queries.executed hqueries
  -- the state with the ticket of the query taken
  have hnext : { t with downloads.executed := t.downloads.executed + 1 }.queries =
      { s.queries with executed := s.queries.executed + 1 } := by
    rw [← hqueries]
    rfl
  have hanswered : ∀ {f : DownloadRequest → Server → Server}, Answers f →
      QueryStep cfg s (.execute i dbFails env')
        (f ⟨c, getCompression (cfg.csvCompressions compressions), id, t.downloads.executed⟩
          { t with downloads.executed := t.downloads.executed + 1 }).queries := by
    intro f hf
    obtain ⟨-, a, hticket, hanswer, heq⟩ := hf _ _
    rw [heq, hnext]
    exact .answer a (hticket.trans hexecuted) hanswer
  unfold resolveDownloadFileQuerry
  dsimp only
  split
  · rw [queries_answer rfl, hnext]
    exact .answer _ hexecuted rfl
  · split
    · exact hanswered answers_denyDownload
    · exact hanswered (answers_deliverFileFromLocalStorage cfg env _)
    · next o howner =>
      obtain ⟨o', hfind, hcached⟩ := Option.bind_eq_some_iff.mp howner
      obtain ⟨_, _, hpair⟩ := Option.map_eq_some_iff.mp hcached
      obtain rfl : o' = o := congrArg Prod.fst hpair
      have hnick : s.registry.nickname o' = owner := by
        rw [← hregistry]
        exact nickname_of_findConnection
          (s := { t with downloads.executed := t.downloads.executed + 1 }) hfind
      split
      · next downloads hpending =>
        obtain ⟨j, entry, hentry, hstore⟩ := entry_of_isDownloadPending
          (s := { t with downloads.executed := t.downloads.executed + 1 }) hpending
        rw [hnext] at hentry hstore
        have hheld : downloads.held = s.queries.held := congrArg Queries.held hstore
        have hstep : QueryStep cfg s (.execute i dbFails env') _ :=
          .join ⟨c, getCompression (cfg.csvCompressions compressions), id, t.downloads.executed⟩
            hentry hexecuted
        convert hstep using 1
        calc _ = { { t with downloads := downloads }.queries with
              held := t.downloads.executed :: downloads.held } := rfl
          _ = _ := by rw [hstore, hheld, hexecuted]; rfl
      · have hstep : QueryStep cfg s (.execute i dbFails env') _ :=
          .backup o' path ⟨c, getCompression (cfg.csvCompressions compressions), id,
            t.downloads.executed⟩ rfl hexecuted
        convert hstep using 1
        rw [← hqueries, hnick]
        refine (queries_backupAndStartTimer _ _ _ _).trans ?_
        rw [queries_startWrite_downloadQuerry]
        rfl

theorem foldl_answer_congr (as : List Answer) (q : Queries) (entry : Nat → Option Backup)
    (begun : List Begun) :
    as.foldl Queries.answer { q with entry, begun } =
      { as.foldl Queries.answer q with entry, begun } := by
  induction as generalizing q with
  | nil => rfl
  | cons a as ih => exact ih (q.answer a)

/-- Denying the waiting requests of an entry whose timer was just stopped. -/
theorem queries_deny_stopped {s t : Server} {id : Nat} {entry : Backup} {begun : List Begun}
    (hcore : t.core = s.core) (hentry : s.queries.entry id = some entry)
    (hqueries : t.queries =
      { s.queries.store id { entry with timerArmed := false } with begun }) :
    ∃ as : List Answer, as.map (·.ticket) = s.answerable id ∧
      (∀ a ∈ as, a.message.isAnswer = true) ∧
      (t.forEachAndRemove id denyDownload).queries = { s.queries.remove id as with begun } := by
  obtain ⟨as, htickets, hanswers, heq⟩ := queries_forEachAndRemove answers_denyDownload id t
  have hwaiting : t.queries.waiting id = s.queries.waiting id := by
    rw [hqueries]
    simp [Queries.waiting, Queries.store, hentry]
  refine ⟨as, ?_, hanswers, ?_⟩
  · rw [htickets, answerable, answerable, hwaiting]
    simp only [alive_of_core_eq hcore]
  · rw [heq, hqueries]
    simp [Queries.remove, Queries.store, foldl_answer_congr]

/-- A reply works on the entry that it names. -/
theorem queryStep_resolveDownloadReply {cfg : Config} (env : FileEnv) {c : ConnId} {m : Message}
    {s : Server} (hread : s.readError cfg c m = none) (hreply : m.command = .REPLY) :
    QueryStep cfg s (.read c m env) (s.resolveDownloadReply cfg env c m).1.queries := by
  unfold resolveDownloadReply
  split
  · exact .other
  · next id hid =>
    dsimp only
    split
    · exact .other
    · next hcode =>
      have happroves : m.approves cfg = some id := by
        rw [Message.approves, if_pos ⟨hreply, not_not.mp hcode⟩]
        exact hid
      split
      · exact .other
      · next entry hentry =>
        have hstop := queries_stopTimer id entry s
        split
        · next hsize =>
          rw [hstop]
          exact .unparsed hread happroves hentry hsize
        · next size hsize =>
          have hparsed : (stoull (m.header .FileSize)).isSome := by rw [hsize]; rfl
          unfold beginDownloadTransaction
          dsimp only
          split
          · next hdir =>
            have hstep : QueryStep cfg s (.read c m env) _ :=
              .noDirectory hread happroves hentry hparsed (by simpa using hdir)
            rw [← hstop] at hstep
            exact hstep
          · next hdir =>
            have hdirs : env.createDirectories = true := by simpa using hdir
            split
            · next hfile =>
              obtain ⟨as, htickets, hanswers, heq⟩ := queries_deny_stopped (s := s)
                (t := { s with downloads := { s.downloads.stopTimer id entry with
                  begun := ⟨id, s.registry.nickname c, entry.info.fileOwner⟩ ::
                    s.downloads.begun } }) rfl hentry (by rw [← hstop]; rfl)
              have hstep : QueryStep cfg s (.read c m env) _ :=
                .noFile as hread happroves hentry hparsed hdirs (by simpa using hfile) htickets
                  hanswers
              exact heq ▸ hstep
            · next hfile =>
              have hstep : QueryStep cfg s (.read c m env) _ :=
                .begin hread happroves hentry hparsed hdirs (by simpa using hfile)
              rw [← hstop] at hstep
              rw [queries_notifyFileDownload]
              convert hstep using 1
              simp only [queries, Downloads.storeTransaction, Downloads.stopTimer,
                Lookup.contains_insertIfNew_eq_update]

/-! ## Timers and transfers -/

/-- The waiting requests of an entry are answered and its transaction ends. -/
theorem queryStep_finish {cfg : Config} {s t : Server} {e : Event} {id : Nat}
    {f : DownloadRequest → Server → Server} (hf : Answers f) (hcore : t.core = s.core)
    (hqueries : t.queries = s.queries) (he : e.ends = some id) :
    QueryStep cfg s e ((t.forEachAndRemove id f).endDownloadTransaction cfg id).queries := by
  obtain ⟨as, htickets, hanswers, hremove⟩ := queries_forEachAndRemove hf id t
  obtain ⟨live, hlive, hend⟩ := queries_endDownloadTransaction cfg id (t.forEachAndRemove id f)
  have hkept : (t.forEachAndRemove id f).queries.live = s.queries.live := by
    rw [hremove, Queries.remove, foldl_answer, hqueries]
  rw [hend, hremove, hqueries]
  refine .finish as he (fun j hj => (hlive j hj).trans (congrFun hkept j)) ?_ hanswers
  rw [htickets, answerable, answerable, hqueries]
  simp only [alive_of_core_eq hcore]

theorem queryStep_transferCompleted (cfg : Config) (env : FileEnv) (id : Nat)
    (handler : CompletionHandler) (success : Bool) (s : Server) :
    QueryStep cfg s (.transferCompleted id success env)
      (s.transferCompleted cfg env id handler success).queries := by
  unfold transferCompleted
  split
  · dsimp only
    split
    · rw [queries_setFileToCached]
      exact .other
    · exact queryStep_finish (answers_deliverFileFromLocalStorage cfg env _)
        (blind_core.setFileToCached cfg handler.fileOwner handler.filePath s)
        (queries_setFileToCached cfg handler.fileOwner handler.filePath s) rfl
  · exact queryStep_finish answers_denyDownload rfl rfl rfl

theorem queryStep_backupTimerExpired (cfg : Config) (id : Nat) (s : Server) :
    QueryStep cfg s (.backupTimer id) (s.backupTimerExpired id).queries := by
  obtain ⟨as, htickets, hanswers, hremove⟩ := queries_forEachAndRemove answers_denyDownload id s
  rw [backupTimerExpired, hremove]
  have hstep : QueryStep cfg s (.backupTimer id)
      { s.queries.remove id as with live := s.queries.live } :=
    .finish as rfl (fun _ _ => rfl) htickets hanswers
  convert hstep using 1
  rw [Queries.remove, foldl_answer]

/-! ## Steps -/

/-- The code of an error reply is no answer to a download query. -/
theorem isAnswer_of_readError {cfg : Config} {c : ConnId} {m : Message} {s : Server}
    {code : Response} {id : Str} (h : s.readError cfg c m = some (code, id)) (id' : Str) :
    (Outgoing.reply code id').isAnswer = false := by
  unfold readError at h
  split at h
  · next hbasic =>
    obtain ⟨rfl, -⟩ := Prod.mk.inj (Option.some.inj h)
    unfold basicValidate at hbasic
    split at hbasic <;> simp at hbasic
    subst hbasic
    rfl
  · split at h
    · next htransition =>
      obtain ⟨rfl, -⟩ := Prod.mk.inj (Option.some.inj h)
      unfold transitionValidate at htransition
      split at htransition
      all_goals
        split at htransition <;> simp at htransition
        subst htransition
        rfl
    · obtain ⟨code', hsemantic, heq⟩ := Option.map_eq_some_iff.mp h
      obtain ⟨rfl, -⟩ := Prod.mk.inj heq
      unfold semanticValidate validateAuthentication validatePushFiles validateQuerry at hsemantic
      repeat' split at hsemantic
      all_goals simp at hsemantic
      all_goals
        subst hsemantic
        rfl

theorem isAnswer_of_confirm {command : Command} {code : Response}
    (h : confirm command = some code) (id : Str) : (Outgoing.reply code id).isAnswer = false := by
  cases command <;> simp [confirm] at h <;> subst h <;> rfl

theorem isAnswer_reply {code : Response} (h : code.isDownloadAnswer = false) (id : Str) :
    (Outgoing.reply code id).isAnswer = false := by
  cases code <;> first | rfl | simp [Response.isDownloadAnswer] at h

/-- Only a download query that is executed does something to the queries. -/
theorem queries_executed {cfg : Config} {dbFails : Bool} {env : FileEnv} {c : ConnId}
    {s s' : Server} {request : Request} (h : Executed cfg dbFails env c s request s') :
    s'.queries = s.queries ∨
      ∃ id owner path ssl compressions, request = .downloadFile id owner path ssl compressions ∧
        s' = s.resolveDownloadFileQuerry cfg env c id owner path ssl compressions := by
  have changed : ∀ {root : Node Char} {code : Response} {id : Str} {rest : Continuation},
      code.isDownloadAnswer = false → (s.changeTree c root code id rest).queries = s.queries :=
    fun hcode => queries_writeReply _ (isAnswer_reply hcode _) c s
  cases h with
  | refuse code id hcode => exact Or.inl (queries_writeReply code (isAnswer_reply hcode id) c s)
  | signin => exact Or.inl rfl
  | signup => exact Or.inl rfl
  | pushFiles => exact Or.inl (changed rfl)
  | deleteAccount => exact Or.inl (queries_writeReply .DELETING_ACCOUNT_SUCCESSFULL rfl c s)
  | logout => exact Or.inl (queries_stop c s)
  | downloadFile => exact Or.inr ⟨_, _, _, _, _, rfl, rfl⟩
  | addFile => exact Or.inl (changed rfl)
  | removePath => exact Or.inl (changed rfl)
  | renamePath => exact Or.inl (changed rfl)

theorem queryStep_executed {cfg : Config} {dbFails : Bool} {env : FileEnv} {c : ConnId}
    {s t s' : Server} {request : Request} {i : Nat} (hregistry : t.registry = s.registry)
    (hqueries : t.queries = s.queries) (h : Executed cfg dbFails env c t request s') :
    QueryStep cfg s (.execute i dbFails env) s'.queries := by
  rcases queries_executed h with heq | ⟨_, _, _, _, _, -, rfl⟩
  · rw [heq, hqueries]
    exact .other
  · exact queryStep_resolveDownloadFileQuerry _ _ _ _ _ _ _ _ hregistry hqueries

end Server

/-- A handler that would end a login with an answer to a download query. -/
def Continuation.Misanswers : Continuation → Prop
  | .storeLogin code id _ => (Outgoing.reply code id).isAnswer = true
  | _ => False

namespace Server

theorem queries_resumeHandler {cfg : Config} {c : ConnId} {rest : Continuation} {s : Server}
    (hrest : ¬ rest.Misanswers) : (s.resumeHandler cfg c rest).queries = s.queries := by
  cases rest with
  | isLogged id login =>
    simp only [resumeHandler]
    split
    · exact queries_writeReply _ rfl c s
    · rfl
  | storeLogin code id login =>
    exact queries_writeReply _ (by simpa [Continuation.Misanswers] using hrest) c
      { s with registry := s.registry.storeLogin c login, logins := (c, login) :: s.logins }
  | notifyFilesRegistration => exact queries_notifyFilesRegistration cfg c s
  | notifyFileAdd file => exact queries_doNotify ..
  | notifyPathRemoved path => exact queries_doNotify ..
  | notifyPathRenamed old new => exact queries_doNotify ..
  | notifyDisconnection st nickname => exact queries_notifyDisconnection ..

/-- Every step of the server is a step of its download queries. -/
theorem step_queries {cfg : Config} {s s' : Server} {e : Event}
    (hcodes : ∀ h ∈ s.running, ¬ h.rest.Misanswers) (h : s.step cfg e = some s') :
    QueryStep cfg s e s'.queries := by
  have same : s'.queries = s.queries → QueryStep cfg s e s'.queries := fun heq => by
    rw [heq]
    exact .other
  cases transition_of_step h with
  | accept => exact .other
  | heartbeat => exact same (queries_startWrite rfl rfl _ s)
  | refuse _ herror => exact same (queries_writeReply _ (isAnswer_of_readError herror _) _ s)
  | @reply c m env _ hvalid hreply => exact queryStep_resolveDownloadReply env hvalid hreply
  | post _ _ hconfirm => exact same (queries_writeReply _ (isAnswer_of_confirm hconfirm _) _ s)
  | @execute i dbFails env t _ _ _ hexec =>
    exact queryStep_executed (t := { s with tasks := s.tasks.eraseIdx i }) rfl rfl hexec
  | expired => exact .other
  | resume hi => exact same (queries_resumeHandler (hcodes _ (List.mem_of_getElem? hi)))
  | stop => exact same (queries_stop ..)
  | sharedWrite => exact same (queries_sharedWriteCompleted ..)
  | backupTimer => exact queryStep_backupTimerExpired ..
  | transactionTimer => exact queryStep_finish answers_denyDownload rfl rfl rfl
  | helloSender => exact same (queries_tryStartDownloadTransaction ..)
  | transferCompleted => exact queryStep_transferCompleted ..
  | uploadCompleted => exact same (queries_endUploadTransaction ..)

end Server

/-! ## Login codes -/

namespace Core

/-- No running handler ends a login with an answer to a download query. -/
def LoginCodes (k : Core) : Prop :=
  k.Tracks (fun _ => False) Continuation.Misanswers fun _ => False

theorem LoginCodes.step {cfg : Config} {k k' : Core} {e : Event} (h : k.LoginCodes)
    (hstep : CoreStep cfg k e k') : k'.LoginCodes := by
  refine Tracks.step h hstep (fun _ hf => hf) (fun _ _ _ _ hf => hf)
    (fun rest r hfollows hrest => ?_) (fun _ _ hrest => ?_) fun _ _ hrest => hrest
  · cases rest <;> cases r <;>
      simp_all [Continuation.Follows, Continuation.Misanswers, Outgoing.isAnswer]
  · simp [Continuation.Misanswers, Outgoing.isAnswer] at hrest

theorem loginCodes_initial (cfg : Config) (users : List (Str × Str)) :
    (Server.initial cfg users).core.LoginCodes :=
  ⟨fun _ h => absurd h List.not_mem_nil, fun _ h => absurd h List.not_mem_nil⟩

end Core

end FspServer
