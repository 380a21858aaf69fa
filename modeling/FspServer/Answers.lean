import FspServer.DownloadQueries
import FspServer.Lib.Simulation
import Mathlib.Data.List.Pairwise
import Mathlib.Data.List.ReduceOption

/-!
# Answers to download queries

What a requester is told belongs to what it asked for. A run is observed together with the
download queries that it executes (`Server.observe`), and each answer is compared with one of
them: `Querried.AnsweredBy` says that it goes out under the id of the query and, when it
approves the download, names a transaction that delivers the file asked for.

`Downloads.Pending` ties what waits to the queries that were executed, and
`Downloads.Answered` what was answered; the functions of the download side keep both.

* `answers_match`: in every run the answers written to a connection are answers to different
  queries of it, each to its own file, and no transaction is named twice.

Each function is one step here; `Uploads` has the two steps of `BeginUploadTransaction`.
-/

namespace FspServer

open Runs

/-- A download query as it is executed. -/
structure Querried where
  conn : ConnId
  requestID : Str
  fileOwner : Str
  filePath : Str
  /-- What `GetCompression` chooses among those that the requester has. -/
  compression : Compression
deriving DecidableEq, Repr

/-- The local path of the file that the query asks for. -/
def Querried.localFilePath (q : Querried) : Str := q.fileOwner ++ q.filePath

/-- The download query that a request is. -/
def Request.querried (cfg : Config) (c : ConnId) : Request → Option Querried
  | .downloadFile id owner path _ compressions =>
    some ⟨c, id, owner, path, getCompression (cfg.csvCompressions compressions)⟩
  | _ => none

/-- The transaction that an answer names. -/
def Outgoing.transaction : Outgoing → Option Nat
  | .downloadApproved _ _ _ id _ => some id
  | _ => none

def Answer.transaction (a : Answer) : Option Nat := a.message.transaction

namespace Server

/-- The download query that an event executes. -/
def querried (cfg : Config) (s : Server) : Event → Option Querried
  | .execute i _ _ =>
    (s.tasks[i]?).bind fun t => if s.alive t.conn then t.request.querried cfg t.conn else none
  | _ => none

/-- A step, with the download query that it executes. -/
def observe (cfg : Config) (s : Server) (e : Event) : Option (Server × Option Querried) :=
  (s.step cfg e).map fun s' => (s', s.querried cfg e)

end Server

/-- The message answers the query. When it approves the download, the transaction that it
names delivers the file that was asked for, until it is ended, and the compression is the one
chosen for the requester or none. -/
def Querried.AnsweredBy (cfg : Config) (uploads : Std.TreeMap Nat Str)
    (es : List Server.Event) (q : Querried) : Outgoing → Prop
  | .reply code id => code.isDownloadAnswer = true ∧ id = q.requestID
  | .downloadApproved id size port key compression =>
    id = q.requestID ∧ 0 < size ∧ port = cfg.downloadPort ∧
      (compression = .nocompression ∨ compression = q.compression) ∧
      (uploads[key]? = some q.localFilePath ∨ Server.Event.uploadCompleted key ∈ es)
  | _ => False

/-- The waiting request was made by a query for the file. -/
def DownloadRequest.MadeBy (queries : List Querried) (fileOwner filePath : Str)
    (r : DownloadRequest) : Prop :=
  queries[r.ticket]? = some ⟨r.conn, r.requestID, fileOwner, filePath, r.compression⟩

namespace Downloads

/-- What waits was asked for, and a transaction that may end has the file of its entry. -/
structure Pending (queries : List Querried) (d : Downloads) : Prop where
  executed : d.executed = queries.length
  waiting : ∀ (id : Nat) (entry : Backup), d.backedupRequests[id]? = some entry →
    ∀ r ∈ entry.info.requests, r.MadeBy queries entry.info.fileOwner entry.info.filePath
  handler : ∀ (id : Nat) (handler : CompletionHandler) (entry : Backup),
    d.completionHandlers[id]? = some handler → d.backedupRequests[id]? = some entry →
      handler = ⟨entry.info.filePath, entry.info.fileOwner⟩
  entry_le : ∀ (id : Nat) (entry : Backup), d.backedupRequests[id]? = some entry →
    id ≤ d.downloadTransactionsIDCounter
  handler_le : ∀ (id : Nat) (handler : CompletionHandler),
    d.completionHandlers[id]? = some handler → id ≤ d.downloadTransactionsIDCounter

/-- Each answer is one to a query that was executed, and names a transaction of its own. -/
structure Answered (cfg : Config) (es : List Server.Event) (queries : List Querried)
    (d : Downloads) : Prop where
  matched : ∀ a ∈ d.answers, ∃ q, queries[a.ticket]? = some q ∧ a.conn = q.conn ∧
    q.AnsweredBy cfg d.uploadTransactions es a.message
  upload_lt : ∀ (key : Nat) (file : Str), d.uploadTransactions[key]? = some file →
    key < d.uploadTransactionsIDCounter
  named_lt : ∀ key ∈ d.answers.filterMap Answer.transaction,
    key < d.uploadTransactionsIDCounter
  distinct : (d.answers.filterMap Answer.transaction).Nodup

/-- Nothing that waits has changed. -/
structure SamePending (d d' : Downloads) : Prop where
  executed : d'.executed = d.executed
  requests : d'.backedupRequests = d.backedupRequests
  handlers : d'.completionHandlers = d.completionHandlers
  counter : d'.downloadTransactionsIDCounter = d.downloadTransactionsIDCounter

/-! ## Queries that are executed -/

variable {cfg : Config} {es : List Server.Event} {queries : List Querried} {d d' : Downloads}

/-- A query stays where it is when others follow. -/
theorem getElem?_append_of_some {l : List Querried} {n : Nat} {q : Querried}
    (h : l[n]? = some q) (l' : List Querried) : (l ++ l')[n]? = some q := by
  obtain ⟨hlt, -⟩ := List.getElem?_eq_some_iff.mp h
  rw [List.getElem?_append_left hlt, h]

theorem Pending.same (h : d.Pending queries) (hsame : d.SamePending d') : d'.Pending queries where
  executed := hsame.executed.trans h.executed
  waiting := hsame.requests ▸ h.waiting
  handler := by
    rw [hsame.requests, hsame.handlers]
    exact h.handler
  entry_le := by
    rw [hsame.requests, hsame.counter]
    exact h.entry_le
  handler_le := by
    rw [hsame.handlers, hsame.counter]
    exact h.handler_le

/-- The next query is executed. -/
theorem Pending.execute (h : d.Pending queries) (q : Querried) :
    { d with executed := d.executed + 1 }.Pending (queries ++ [q]) where
  executed := by simp [h.executed]
  waiting id entry hentry r hr := getElem?_append_of_some (h.waiting id entry hentry r hr) [q]
  handler := h.handler
  entry_le := h.entry_le
  handler_le := h.handler_le

/-- The query of the ticket that was taken. -/
theorem Pending.madeBy_execute (h : d.Pending queries) (q : Querried) :
    DownloadRequest.MadeBy (queries ++ [q]) q.fileOwner q.filePath
      ⟨q.conn, q.compression, q.requestID, d.executed⟩ := by
  rw [DownloadRequest.MadeBy, h.executed]
  simp

/-- A transaction keeps its file until an event ends it. -/
theorem AnsweredBy_mono {q : Querried} {m : Outgoing} {uploads uploads' : Std.TreeMap Nat Str}
    {es' : List Server.Event} (h : q.AnsweredBy cfg uploads es m) (hes : es ⊆ es')
    (huploads : ∀ (key : Nat) (file : Str), uploads[key]? = some file →
      uploads'[key]? = some file ∨ Server.Event.uploadCompleted key ∈ es') :
    q.AnsweredBy cfg uploads' es' m := by
  cases m with
  | reply code id => exact h
  | downloadApproved id size port key compression =>
    obtain ⟨hid, hsize, hport, hcompression, hfile⟩ := h
    refine ⟨hid, hsize, hport, hcompression, ?_⟩
    rcases hfile with hfile | hended
    · exact huploads key _ hfile
    · exact .inr (hes hended)
  | heartbeat => exact h
  | downloadQuerry id file => exact h
  | notification n => exact h

/-- More queries and events, and transactions that are ended. -/
theorem Answered.mono (h : d.Answered cfg es queries) {es' : List Server.Event}
    (hes : es ⊆ es') (l : List Querried) (hanswers : d'.answers = d.answers)
    (hcounter : d'.uploadTransactionsIDCounter = d.uploadTransactionsIDCounter)
    (huploads : ∀ (key : Nat) (file : Str), d.uploadTransactions[key]? = some file →
      d'.uploadTransactions[key]? = some file ∨ Server.Event.uploadCompleted key ∈ es')
    (hold : ∀ (key : Nat) (file : Str), d'.uploadTransactions[key]? = some file →
      d.uploadTransactions[key]? = some file) : d'.Answered cfg es' (queries ++ l) where
  matched a ha := by
    obtain ⟨q, hq, hconn, hanswered⟩ := h.matched a (hanswers ▸ ha)
    exact ⟨q, getElem?_append_of_some hq l, hconn, AnsweredBy_mono hanswered hes huploads⟩
  upload_lt key file hfile := hcounter ▸ h.upload_lt key file (hold key file hfile)
  named_lt := by
    rw [hanswers, hcounter]
    exact h.named_lt
  distinct := hanswers ▸ h.distinct

/-- Steps that touch neither the answers nor the uploads. -/
theorem Answered.same (h : d.Answered cfg es queries) (hanswers : d'.answers = d.answers)
    (hcounter : d'.uploadTransactionsIDCounter = d.uploadTransactionsIDCounter)
    (huploads : d'.uploadTransactions = d.uploadTransactions) : d'.Answered cfg es queries := by
  have hmono : d'.Answered cfg es (queries ++ []) := h.mono (List.Subset.refl es) [] hanswers
    hcounter (fun key file hfile => .inl (huploads ▸ hfile)) fun key file hfile => huploads ▸ hfile
  rwa [List.append_nil] at hmono

/-! ## Answers and transactions -/

/-- An answer to one of the queries, with a transaction that no other answer names. -/
theorem Answered.answer (h : d.Answered cfg es queries) {a : Answer} {q : Querried}
    (hq : queries[a.ticket]? = some q) (hconn : a.conn = q.conn)
    (hanswered : q.AnsweredBy cfg d.uploadTransactions es a.message)
    (hnew : ∀ key ∈ a.transaction, key < d.uploadTransactionsIDCounter ∧
      key ∉ d.answers.filterMap Answer.transaction) :
    { d with answers := a :: d.answers }.Answered cfg es queries where
  matched b hb := by
    rcases List.mem_cons.mp hb with rfl | hb
    · exact ⟨q, hq, hconn, hanswered⟩
    · exact h.matched b hb
  upload_lt := h.upload_lt
  named_lt key hkey := by
    obtain ⟨b, hb, hname⟩ := List.mem_filterMap.mp hkey
    rcases List.mem_cons.mp hb with rfl | hb
    · exact (hnew key hname).1
    · exact h.named_lt key (List.mem_filterMap.mpr ⟨b, hb, hname⟩)
  distinct := by
    show ((a :: d.answers).filterMap Answer.transaction).Nodup
    cases hname : a.transaction with
    | none =>
      rw [List.filterMap_cons_none hname]
      exact h.distinct
    | some key =>
      rw [List.filterMap_cons_some hname]
      exact List.nodup_cons.mpr ⟨(hnew key hname).2, h.distinct⟩

/-- A transaction is stored under the next key. -/
theorem Answered.storeUpload (h : d.Answered cfg es queries) (file : Str) :
    { d with
      uploadTransactions :=
        d.uploadTransactions.insertIfNew d.uploadTransactionsIDCounter file
      uploadTransactionsIDCounter := d.uploadTransactionsIDCounter + 1
      }.Answered cfg es queries := by
  have hfree : d.uploadTransactions[d.uploadTransactionsIDCounter]? = none :=
    Option.eq_none_iff_forall_ne_some.mpr fun file hfile =>
      absurd (h.upload_lt _ file hfile) (lt_irrefl _)
  have hkept : ∀ (key : Nat) (old : Str), d.uploadTransactions[key]? = some old →
      (d.uploadTransactions.insertIfNew d.uploadTransactionsIDCounter file)[key]? =
        some old := by
    intro key old hold
    rw [Lookup.getElem?_insertIfNew hfree, if_neg (h.upload_lt key old hold).ne, hold]
  constructor
  · intro a ha
    obtain ⟨q, hq, hconn, hanswered⟩ := h.matched a ha
    exact ⟨q, hq, hconn, AnsweredBy_mono hanswered (List.Subset.refl es) fun key old hold =>
      .inl (hkept key old hold)⟩
  · intro key old hold
    rcases Lookup.of_getElem?_insertIfNew hold with ⟨rfl, -⟩ | hold
    · exact Nat.lt_succ_self _
    · exact Nat.lt_succ_of_lt (h.upload_lt key old hold)
  · exact fun key hkey => Nat.lt_succ_of_lt (h.named_lt key hkey)
  · exact h.distinct

/-- A transaction is named by one answer only. -/
theorem Answered.eq_of_transaction (h : d.Answered cfg es queries) {a b : Answer} {key : Nat}
    (ha : a ∈ d.answers) (hb : b ∈ d.answers) (haname : a.transaction = some key)
    (hbname : b.transaction = some key) : a = b := by
  have hdistinct := List.pairwise_filterMap.mp h.distinct
  by_contra hne
  have hsymm : Std.Symm fun a b : Answer => ∀ k, a.transaction = some k →
      ∀ l, b.transaction = some l → k ≠ l := ⟨fun _ _ hab k hk l hl => (hab l hl k hk).symm⟩
  exact hdistinct.forall ha hb hne key haname key hbname rfl

theorem SamePending.refl (d : Downloads) : d.SamePending d := ⟨rfl, rfl, rfl, rfl⟩

theorem SamePending.trans {d₁ d₂ d₃ : Downloads} (h : d₁.SamePending d₂)
    (h' : d₂.SamePending d₃) : d₁.SamePending d₃ :=
  ⟨h'.executed.trans h.executed, h'.requests.trans h.requests, h'.handlers.trans h.handlers,
    h'.counter.trans h.counter⟩

/-! ## Entries -/

/-- The entry with the id is gone, and only the handler of the id may have changed. -/
structure Removed (id : Nat) (d d' : Downloads) : Prop where
  executed : d'.executed = d.executed
  counter : d'.downloadTransactionsIDCounter = d.downloadTransactionsIDCounter
  requests : ∀ (j : Nat) (entry : Backup), d'.backedupRequests[j]? = some entry →
    j ≠ id ∧ d.backedupRequests[j]? = some entry
  handlers : ∀ (j : Nat) (handler : CompletionHandler),
    d'.completionHandlers[j]? = some handler →
      d.completionHandlers[j]? = some handler ∨ j = id ∧ id ≤ d.downloadTransactionsIDCounter

theorem Pending.removed (h : d.Pending queries) {id : Nat} (hremoved : d.Removed id d') :
    d'.Pending queries where
  executed := hremoved.executed.trans h.executed
  waiting j entry hentry := h.waiting j entry (hremoved.requests j entry hentry).2
  handler j handler entry hhandler hentry := by
    obtain ⟨hj, hold⟩ := hremoved.requests j entry hentry
    rcases hremoved.handlers j handler hhandler with hhandler | ⟨hid, -⟩
    · exact h.handler j handler entry hhandler hold
    · exact absurd hid hj
  entry_le j entry hentry :=
    hremoved.counter ▸ h.entry_le j entry (hremoved.requests j entry hentry).2
  handler_le j handler hhandler := by
    rw [hremoved.counter]
    rcases hremoved.handlers j handler hhandler with hhandler | ⟨rfl, hle⟩
    · exact h.handler_le j handler hhandler
    · exact hle

/-- An entry is stored for the file of the entry that was there, if there was one, and all
that waits in it was asked for. -/
theorem Pending.store (h : d.Pending queries) {id : Nat} {entry : Backup} {counter : Nat}
    (hid : id ≤ counter) (hcounter : d.downloadTransactionsIDCounter ≤ counter)
    (hwaiting : ∀ r ∈ entry.info.requests,
      r.MadeBy queries entry.info.fileOwner entry.info.filePath)
    (hhandler : ∀ handler, d.completionHandlers[id]? = some handler →
      handler = ⟨entry.info.filePath, entry.info.fileOwner⟩) :
    { d with
      backedupRequests := d.backedupRequests.insert id entry
      downloadTransactionsIDCounter := counter }.Pending queries where
  executed := h.executed
  waiting j e he := by
    rcases Lookup.of_getElem?_insert he with ⟨-, rfl⟩ | ⟨-, he⟩
    · exact hwaiting
    · exact h.waiting j e he
  handler j handler e hj he := by
    rcases Lookup.of_getElem?_insert he with ⟨rfl, rfl⟩ | ⟨-, he⟩
    · exact hhandler handler hj
    · exact h.handler j handler e hj he
  entry_le j e he := by
    rcases Lookup.of_getElem?_insert he with ⟨rfl, -⟩ | ⟨-, he⟩
    · exact hid
    · exact (h.entry_le j e he).trans hcounter
  handler_le j handler hj := (h.handler_le j handler hj).trans hcounter

/-- An entry that is there is stored again, with the same file. -/
theorem Pending.restore (h : d.Pending queries) {id : Nat} {old entry : Backup}
    (hold : d.backedupRequests[id]? = some old)
    (howner : entry.info.fileOwner = old.info.fileOwner)
    (hpath : entry.info.filePath = old.info.filePath)
    (hwaiting : ∀ r ∈ entry.info.requests, r ∈ old.info.requests ∨
      r.MadeBy queries old.info.fileOwner old.info.filePath) :
    { d with backedupRequests := d.backedupRequests.insert id entry }.Pending queries := by
  refine h.store (h.entry_le id old hold) le_rfl (fun r hr => ?_) fun handler hhandler => ?_
  · rw [howner, hpath]
    rcases hwaiting r hr with hr | hr
    · exact h.waiting id old hold r hr
    · exact hr
  · rw [howner, hpath]
    exact h.handler id handler old hhandler hold

theorem Pending.stopTimer (h : d.Pending queries) {id : Nat} {entry : Backup}
    (hentry : d.backedupRequests[id]? = some entry) : (d.stopTimer id entry).Pending queries :=
  h.restore hentry rfl rfl fun _ hr => .inl hr

/-- A request joins the entry for its file. -/
theorem Pending.join (h : d.Pending queries) {owner path : Str} {r : DownloadRequest}
    (hr : r.MadeBy queries owner path) (hpending : d.isDownloadPending owner path r = some d') :
    d'.Pending queries := by
  unfold isDownloadPending at hpending
  obtain ⟨⟨id, entry⟩, hfind, rfl⟩ := Option.map_eq_some_iff.mp hpending
  have hentry : d.backedupRequests[id]? = some entry :=
    Std.TreeMap.mem_toList_iff_getElem?_eq_some.mp (List.mem_of_find?_eq_some hfind)
  obtain ⟨rfl, rfl⟩ : entry.info.fileOwner = owner ∧ entry.info.filePath = path := by
    simpa using List.find?_some hfind
  refine h.restore hentry rfl rfl fun r' hr' => ?_
  rcases List.mem_cons.mp hr' with rfl | hr'
  · exact .inr hr
  · exact .inl hr'

/-- A new entry under the next id. -/
theorem Pending.backup (h : d.Pending queries) {owner path : Str} {r : DownloadRequest}
    (hr : r.MadeBy queries owner path) :
    ({ d with downloadTransactionsIDCounter := d.downloadTransactionsIDCounter + 1
      }.backupAndStartTimer (d.downloadTransactionsIDCounter + 1) ⟨owner, path, [r]⟩
      ).Pending queries := by
  have hnone : d.backedupRequests[d.downloadTransactionsIDCounter + 1]? = none :=
    Option.eq_none_iff_forall_ne_some.mpr fun entry hentry =>
      absurd (h.entry_le _ entry hentry) (Nat.not_succ_le_self _)
  unfold backupAndStartTimer
  dsimp only
  rw [hnone, Option.getD_none]
  refine h.store le_rfl (Nat.le_succ _) (fun r' hr' => ?_) fun handler hhandler => ?_
  · obtain rfl := List.mem_singleton.mp hr'
    exact hr
  · exact absurd (h.handler_le _ handler hhandler) (Nat.not_succ_le_self _)

/-- A transaction begins for an entry. -/
theorem Pending.storeTransaction (h : d.Pending queries) {id : Nat} {entry : Backup}
    (hentry : d.backedupRequests[id]? = some entry) (receiver : Option FileReceiver) :
    (d.storeTransaction id receiver ⟨entry.info.filePath, entry.info.fileOwner⟩
      ).Pending queries := by
  have hnew : ∀ (j : Nat) (handler : CompletionHandler),
      (d.storeTransaction id receiver ⟨entry.info.filePath, entry.info.fileOwner⟩
        ).completionHandlers[j]? = some handler →
      j = id ∧ handler = ⟨entry.info.filePath, entry.info.fileOwner⟩ ∨
        d.completionHandlers[j]? = some handler := by
    intro j handler hhandler
    unfold Downloads.storeTransaction at hhandler
    dsimp only at hhandler
    split at hhandler
    · exact .inr hhandler
    · rcases Lookup.of_getElem?_insert hhandler with ⟨hj, heq⟩ | ⟨-, hold⟩
      · exact .inl ⟨hj, heq.symm⟩
      · exact .inr hold
  constructor
  · exact h.executed
  · exact h.waiting
  · intro j handler e hhandler he
    rcases hnew j handler hhandler with ⟨rfl, rfl⟩ | hold
    · obtain rfl : entry = e := Option.some.inj (hentry.symm.trans he)
      rfl
    · exact h.handler j handler e hold he
  · exact h.entry_le
  · intro j handler hhandler
    rcases hnew j handler hhandler with ⟨rfl, -⟩ | hold
    · exact h.entry_le _ entry hentry
    · exact h.handler_le j handler hold

end Downloads

namespace Server

open Downloads

variable {cfg : Config} {es : List Event} {queries : List Querried}

/-! ## Answering what waits -/

/-- The handler answers requests made by queries for the file, and changes nothing that
waits. -/
def AnswersFor (cfg : Config) (es : List Event) (queries : List Querried)
    (fileOwner filePath : Str) (f : DownloadRequest → Server → Server) : Prop :=
  ∀ r s, r.MadeBy queries fileOwner filePath → s.downloads.Answered cfg es queries →
    (f r s).downloads.Answered cfg es queries ∧ s.downloads.SamePending (f r s).downloads

theorem answersFor_reply {code : Response} (hcode : code.isDownloadAnswer = true)
    (owner path : Str) : AnswersFor cfg es queries owner path fun r s =>
      s.answer r.conn r.ticket (.reply code r.requestID) := by
  intro r s hr h
  refine ⟨h.answer hr rfl ⟨hcode, rfl⟩ fun key hkey => ?_, ⟨rfl, rfl, rfl, rfl⟩⟩
  cases hkey

theorem answersFor_denyDownload (owner path : Str) :
    AnswersFor cfg es queries owner path denyDownload :=
  answersFor_reply rfl owner path

/-- The file of the entry is delivered. -/
theorem answersFor_deliverFileFromLocalStorage (env : FileEnv) (owner path : Str) :
    AnswersFor cfg es queries owner path
      (deliverFileFromLocalStorage cfg env (owner ++ path)) := by
  intro r s hr h
  unfold deliverFileFromLocalStorage
  split
  · next id size compression downloads hbegin =>
    unfold Downloads.beginUploadTransaction at hbegin
    split at hbegin
    · cases hbegin
    · split at hbegin
      · cases hbegin
      · next hsize =>
        obtain ⟨rfl, rfl, hcompression, rfl⟩ := by
          simpa only [Option.some.injEq, Prod.mk.injEq] using hbegin
        refine ⟨(h.storeUpload (owner ++ path)).answer hr rfl ⟨rfl, ?_, rfl, ?_, .inl ?_⟩ ?_,
          ⟨rfl, rfl, rfl, rfl⟩⟩
        · exact Nat.pos_of_ne_zero fun hzero => hsize (.inl hzero)
        · rw [← hcompression]
          split
          · next hzlib => exact .inr hzlib.2.symm
          · exact .inl rfl
        · refine (Lookup.getElem?_insertIfNew ?_ _ _).trans (if_pos rfl)
          exact Option.eq_none_iff_forall_ne_some.mpr fun file hfile =>
            absurd (h.upload_lt _ file hfile) (lt_irrefl _)
        · intro key hkey
          obtain rfl := Option.some.inj hkey
          exact ⟨Nat.lt_succ_self _, fun hmem => absurd (h.named_lt _ hmem) (lt_irrefl _)⟩
  · exact answersFor_denyDownload owner path r s hr h

/-- The loop over the waiting requests of an entry. -/
theorem answersFor_foldl {owner path : Str} {f : DownloadRequest → Server → Server}
    (hf : AnswersFor cfg es queries owner path f) {requests : List DownloadRequest}
    (hrequests : ∀ r ∈ requests, r.MadeBy queries owner path) {s : Server}
    (h : s.downloads.Answered cfg es queries) :
    (requests.foldl (fun s r => if s.alive r.conn then f r s else s) s
        ).downloads.Answered cfg es queries ∧
      s.downloads.SamePending
        (requests.foldl (fun s r => if s.alive r.conn then f r s else s) s).downloads := by
  induction requests generalizing s with
  | nil => exact ⟨h, .refl _⟩
  | cons r requests ih =>
    obtain ⟨hr, hrest⟩ := List.forall_mem_cons.mp hrequests
    rw [List.foldl_cons]
    split
    · obtain ⟨hanswered, hsame⟩ := hf r s hr h
      obtain ⟨hall, hsame'⟩ := ih hrest hanswered
      exact ⟨hall, hsame.trans hsame'⟩
    · exact ih hrest h

theorem forEachAndRemove_spec {id : Nat} {f : DownloadRequest → Server → Server} {s : Server}
    (hf : ∀ entry, s.downloads.backedupRequests[id]? = some entry →
      AnswersFor cfg es queries entry.info.fileOwner entry.info.filePath f)
    (hwaiting : ∀ entry, s.downloads.backedupRequests[id]? = some entry →
      ∀ r ∈ entry.info.requests, r.MadeBy queries entry.info.fileOwner entry.info.filePath)
    (h : s.downloads.Answered cfg es queries) :
    (s.forEachAndRemove id f).downloads.Answered cfg es queries ∧
      Removed id s.downloads (s.forEachAndRemove id f).downloads := by
  unfold forEachAndRemove
  split
  · next hnone =>
    refine ⟨h, rfl, rfl, fun j entry hentry => ⟨?_, hentry⟩, fun _ _ hj => .inl hj⟩
    rintro rfl
    exact absurd (hnone.symm.trans hentry) (by simp)
  · next entry hentry =>
    obtain ⟨hanswered, hsame⟩ := answersFor_foldl (hf entry hentry) (hwaiting entry hentry) h
    refine ⟨hanswered.same rfl rfl rfl, hsame.executed, hsame.counter, fun j e he => ?_,
      fun j handler hhandler => .inl (hsame.handlers ▸ hhandler)⟩
    obtain ⟨hj, hold⟩ := Lookup.of_getElem?_erase he
    exact ⟨hj, hsame.requests ▸ hold⟩

/-! ## The download side -/

/-- What waits was asked for, and what was answered too. -/
structure Faithful (cfg : Config) (es : List Event) (queries : List Querried)
    (s : Server) : Prop where
  pending : s.downloads.Pending queries
  answered : s.downloads.Answered cfg es queries

variable {s s' : Server}

/-- Steps that leave the downloads alone. -/
theorem Faithful.same (h : s.Faithful cfg es queries) (hsame : s'.downloads = s.downloads) :
    s'.Faithful cfg es queries :=
  ⟨hsame ▸ h.pending, hsame ▸ h.answered⟩

theorem Faithful.forEachAndRemove (h : s.Faithful cfg es queries) (id : Nat)
    {f : DownloadRequest → Server → Server}
    (hf : ∀ owner path, AnswersFor cfg es queries owner path f) :
    (s.forEachAndRemove id f).Faithful cfg es queries := by
  obtain ⟨hanswered, hremoved⟩ := forEachAndRemove_spec (fun entry _ => hf _ _)
    (h.pending.waiting id) h.answered
  exact ⟨h.pending.removed hremoved, hanswered⟩

theorem Faithful.endDownloadTransaction (h : s.Faithful cfg es queries) (id : Nat) :
    (s.endDownloadTransaction cfg id).Faithful cfg es queries := by
  unfold Server.endDownloadTransaction
  split
  · exact h
  · exact ⟨h.pending.same ⟨rfl, rfl, rfl, rfl⟩, h.answered.same rfl rfl rfl⟩

/-- A download query is executed. -/
theorem Faithful.resolveDownloadFileQuerry (h : s.Faithful cfg es queries) (env : FileEnv)
    (c : ConnId) (id owner path ssl compressions : Str) :
    (s.resolveDownloadFileQuerry cfg env c id owner path ssl compressions).Faithful cfg es
      (queries ++ [⟨c, id, owner, path, getCompression (cfg.csvCompressions compressions)⟩]) := by
  -- the query with its ticket, and the state with the ticket taken
  generalize hq : Querried.mk c id owner path (getCompression (cfg.csvCompressions compressions))
    = q
  have hr : DownloadRequest.MadeBy (queries ++ [q]) owner path
      ⟨c, getCompression (cfg.csvCompressions compressions), id, s.downloads.executed⟩ := by
    subst hq
    exact h.pending.madeBy_execute _
  have hpending := h.pending.execute q
  have hanswered : { s.downloads with executed := s.downloads.executed + 1 }.Answered cfg es
      (queries ++ [q]) :=
    h.answered.mono (List.Subset.refl es) [q] rfl rfl (fun _ _ hfile => .inl hfile)
      fun _ _ hfile => hfile
  have hreplied : ∀ {f : DownloadRequest → Server → Server},
      AnswersFor cfg es (queries ++ [q]) owner path f →
      (f ⟨c, getCompression (cfg.csvCompressions compressions), id, s.downloads.executed⟩
        { s with downloads.executed := s.downloads.executed + 1 }).Faithful cfg es
          (queries ++ [q]) := by
    intro f hf
    obtain ⟨hanswered', hsame⟩ :=
      hf _ { s with downloads.executed := s.downloads.executed + 1 } hr hanswered
    exact ⟨hpending.same hsame, hanswered'⟩
  unfold Server.resolveDownloadFileQuerry
  dsimp only
  split
  · exact hreplied (answersFor_reply rfl owner path)
  · split
    · exact hreplied (answersFor_denyDownload owner path)
    · exact hreplied (answersFor_deliverFileFromLocalStorage env owner path)
    · split
      · next downloads hjoin =>
        refine ⟨(hpending.join hr hjoin).same ⟨rfl, rfl, rfl, rfl⟩, ?_⟩
        unfold Downloads.isDownloadPending at hjoin
        obtain ⟨e, -, rfl⟩ := Option.map_eq_some_iff.mp hjoin
        exact hanswered.same rfl rfl rfl
      · exact ⟨(hpending.backup hr).same ⟨rfl, rfl, rfl, rfl⟩, hanswered.same rfl rfl rfl⟩

theorem downloads_notifyFileDownload (owner : Str) (id : Nat) (compression : Compression)
    (s : Server) : (s.notifyFileDownload cfg owner id compression).downloads = s.downloads := by
  unfold notifyFileDownload
  split <;> rfl

theorem Faithful.beginDownloadTransaction (h : s.Faithful cfg es queries) (env : FileEnv)
    (c : ConnId) {id : Nat} {entry : Backup}
    (hentry : s.downloads.backedupRequests[id]? = some entry) (compression : Compression) :
    (s.beginDownloadTransaction cfg env c id compression entry.info).1.Faithful cfg es
      queries := by
  have hbegun : { s with downloads.begun := ⟨id, s.registry.nickname c, entry.info.fileOwner⟩ ::
      s.downloads.begun }.Faithful cfg es queries :=
    ⟨h.pending.same ⟨rfl, rfl, rfl, rfl⟩, h.answered.same rfl rfl rfl⟩
  unfold Server.beginDownloadTransaction
  dsimp only
  split
  · exact hbegun
  · split
    · exact hbegun.forEachAndRemove id answersFor_denyDownload
    · refine Faithful.same ⟨?_, ?_⟩ (downloads_notifyFileDownload ..)
      · exact hbegun.pending.storeTransaction hentry _
      · exact hbegun.answered.same rfl rfl rfl

theorem Faithful.resolveDownloadReply (h : s.Faithful cfg es queries) (env : FileEnv)
    (c : ConnId) (m : Message) :
    (s.resolveDownloadReply cfg env c m).1.Faithful cfg es queries := by
  unfold Server.resolveDownloadReply
  split
  · exact h
  · next id _ =>
    dsimp only
    split
    · exact h
    · split
      · exact h
      · next entry hentry =>
        have hstopped : { s with downloads := s.downloads.stopTimer id entry }.Faithful cfg es
            queries := ⟨h.pending.stopTimer hentry, h.answered.same rfl rfl rfl⟩
        split
        · exact hstopped
        · -- the entry with its timer stopped
          have hstored : (s.downloads.stopTimer id entry).backedupRequests[id]? =
              some { entry with timerArmed := false } :=
            (Lookup.getElem?_insert _ id _ id).trans (if_pos rfl)
          exact hstopped.beginDownloadTransaction env c hstored _

/-- Those who wait in an entry get its file. The handler of the id may change. -/
theorem Faithful.deliver (h : s.Faithful cfg es queries) (env : FileEnv) {id : Nat}
    {handler : CompletionHandler}
    (hhandler : s.downloads.completionHandlers[id]? = some handler) (new : CompletionHandler) :
    ({ s with
      downloads.completionHandlers := s.downloads.completionHandlers.insert id new
      }.forEachAndRemove id (deliverFileFromLocalStorage cfg env
        (handler.fileOwner ++ handler.filePath))).Faithful cfg es queries := by
  have hf : ∀ entry, s.downloads.backedupRequests[id]? = some entry →
      AnswersFor cfg es queries entry.info.fileOwner entry.info.filePath
        (deliverFileFromLocalStorage cfg env (handler.fileOwner ++ handler.filePath)) := by
    intro entry hentry
    obtain rfl := h.pending.handler id handler entry hhandler hentry
    exact answersFor_deliverFileFromLocalStorage env _ _
  obtain ⟨hanswered, hremoved⟩ := forEachAndRemove_spec (s := { s with
      downloads.completionHandlers := s.downloads.completionHandlers.insert id new })
    hf (h.pending.waiting id) (h.answered.same rfl rfl rfl)
  refine ⟨h.pending.removed ⟨hremoved.executed, hremoved.counter, hremoved.requests,
    fun j old hold => ?_⟩, hanswered⟩
  have hle : id ≤ s.downloads.downloadTransactionsIDCounter :=
    h.pending.handler_le id handler hhandler
  rcases hremoved.handlers j old hold with hold | ⟨hj, -⟩
  · rcases Lookup.of_getElem?_insert hold with ⟨hj, -⟩ | ⟨-, hold⟩
    · exact .inr ⟨hj, hle⟩
    · exact .inl hold
  · exact .inr ⟨hj, hle⟩

/-- The transfer of a transaction ends. -/
theorem Faithful.transferCompleted (h : s.Faithful cfg es queries) (env : FileEnv) {id : Nat}
    {handler : CompletionHandler}
    (hhandler : s.downloads.completionHandlers[id]? = some handler) (success : Bool) :
    (s.transferCompleted cfg env id handler success).Faithful cfg es queries := by
  have hcached : (s.setFileToCached cfg handler.fileOwner handler.filePath).downloads =
      s.downloads := by
    unfold setFileToCached
    split <;> rfl
  unfold Server.transferCompleted
  split
  · dsimp only
    generalize s.setFileToCached cfg handler.fileOwner handler.filePath = t at hcached
    split
    · exact h.same hcached
    · exact ((h.same hcached).deliver env (hcached ▸ hhandler) _).endDownloadTransaction id
  · exact (h.forEachAndRemove id answersFor_denyDownload).endDownloadTransaction id

theorem Faithful.endUploadTransaction (h : s.Faithful cfg es queries) {id : Nat}
    (hid : Event.uploadCompleted id ∈ es) :
    (s.endUploadTransaction cfg id).Faithful cfg es queries := by
  unfold Server.endUploadTransaction
  split
  · exact h
  · refine ⟨h.pending.same ⟨rfl, rfl, rfl, rfl⟩, ?_⟩
    have hmono : ({ s.downloads with
        uploadTransactions := s.downloads.uploadTransactions.erase id } : Downloads).Answered cfg es
          (queries ++ []) :=
      h.answered.mono (List.Subset.refl es) [] rfl rfl (fun key file hfile => ?_)
        fun key file hfile => (Lookup.of_getElem?_erase hfile).2
    · rwa [List.append_nil] at hmono
    · rcases eq_or_ne key id with rfl | hkey
      · exact .inr hid
      · exact .inl ((Lookup.getElem?_erase _ id key).trans ((if_neg hkey).trans hfile))

/-! ## The other functions -/

theorem deaf_downloads : Deaf fun s => s.downloads where
  notification _ _ _ := rfl
  registry _ _ := rfl
  closing _ _ _ _ := rfl

theorem downloads_resumeHandler (cfg : Config) (c : ConnId) (s : Server) (rest : Continuation) :
    (s.resumeHandler cfg c rest).downloads = s.downloads := by
  cases rest with
  | isLogged id login =>
    simp only [resumeHandler]
    split <;> rfl
  | storeLogin code id login => rfl
  | notifyFilesRegistration => exact deaf_downloads.notifyFilesRegistration ..
  | notifyFileAdd file => exact deaf_downloads.doNotify ..
  | notifyPathRemoved path => exact deaf_downloads.doNotify ..
  | notifyPathRenamed old new => exact deaf_downloads.doNotify ..
  | notifyDisconnection st nickname => exact deaf_downloads.notifyDisconnection ..

/-- A request that is no download query. -/
theorem downloads_executed {dbFails : Bool} {env : FileEnv} {c : ConnId} {request : Request}
    (hrequest : request.querried cfg c = none)
    (h : Executed cfg dbFails env c s request s') : s'.downloads = s.downloads := by
  cases h with
  | logout => exact deaf_downloads.stop c s
  | downloadFile => cases hrequest
  | _ => rfl

/-! ## Runs -/

theorem Faithful.mono (h : s.Faithful cfg es queries) {es' : List Event} (hes : es ⊆ es') :
    s.Faithful cfg es' queries := by
  have hmono : s.downloads.Answered cfg es' (queries ++ []) :=
    h.answered.mono hes [] rfl rfl (fun _ _ hfile => .inl hfile) fun _ _ hfile => hfile
  rw [List.append_nil] at hmono
  exact ⟨h.pending, hmono⟩

/-- A task is executed. -/
theorem Faithful.execute (h : s.Faithful cfg es queries) {i : Nat} {dbFails : Bool}
    {env : FileEnv} (hstep : s.step cfg (.execute i dbFails env) = some s') :
    s'.Faithful cfg es (queries ++ (s.querried cfg (.execute i dbFails env)).toList) := by
  unfold Server.step at hstep
  split at hstep
  · cases hstep
  · obtain ⟨t, ht, hexec⟩ := Option.bind_eq_some_iff.mp hstep
    have hquerried : s.querried cfg (.execute i dbFails env) =
        if s.alive t.conn then t.request.querried cfg t.conn else none := by
      simp [querried, ht]
    have halive : { s with tasks := s.tasks.eraseIdx i }.alive t.conn = s.alive t.conn := rfl
    dsimp only at hexec
    rw [halive] at hexec
    rw [hquerried]
    split at hexec
    · next hconn =>
      rw [if_pos hconn]
      cases hrequest : t.request.querried cfg t.conn with
      | none =>
        rw [Option.toList_none, List.append_nil]
        have hsame := downloads_executed hrequest (executed_of_executeRequest hexec)
        exact h.same hsame
      | some q =>
        cases hr : t.request with
        | downloadFile id owner path ssl compressions =>
          rw [hr] at hexec hrequest
          obtain rfl := Option.some.inj hexec
          obtain rfl := Option.some.inj hrequest
          have herased : { s with tasks := s.tasks.eraseIdx i }.Faithful cfg es queries :=
            h.same rfl
          exact herased.resolveDownloadFileQuerry env t.conn id owner path ssl compressions
        | _ =>
          rw [hr] at hrequest
          cases hrequest
    · next hconn =>
      obtain rfl := Option.some.inj hexec
      rw [if_neg hconn, Option.toList_none, List.append_nil]
      exact h.same rfl

/-- Every step keeps the answers right. -/
theorem Faithful.step (h : s.Faithful cfg es queries) {e : Event}
    (hstep : s.step cfg e = some s') :
    s'.Faithful cfg (es ++ [e]) (queries ++ (s.querried cfg e).toList) := by
  have hmore : s.Faithful cfg (es ++ [e]) queries := h.mono (List.subset_append_left es [e])
  have hquiet : (∀ i dbFails env, e ≠ .execute i dbFails env) →
      s'.Faithful cfg (es ++ [e]) queries →
      s'.Faithful cfg (es ++ [e]) (queries ++ (s.querried cfg e).toList) := by
    intro hother hnext
    cases e with
    | execute i dbFails env => exact absurd rfl (hother i dbFails env)
    | _ => simpa [querried] using hnext
  cases transition_of_step hstep with
  | execute => exact hmore.execute hstep
  | expired => exact hmore.execute hstep
  | accept => exact hquiet (by simp) (hmore.same rfl)
  | heartbeat => exact hquiet (by simp) (hmore.same rfl)
  | refuse => exact hquiet (by simp) (hmore.same rfl)
  | post => exact hquiet (by simp) (hmore.same rfl)
  | @reply c m env => exact hquiet (by simp) (hmore.resolveDownloadReply env c m)
  | resume => exact hquiet (by simp) (hmore.same (downloads_resumeHandler ..))
  | stop => exact hquiet (by simp) (hmore.same (deaf_downloads.stop ..))
  | sharedWrite => exact hquiet (by simp) (hmore.same (deaf_downloads.sharedWriteCompleted ..))
  | @backupTimer id =>
    exact hquiet (by simp) (hmore.forEachAndRemove id answersFor_denyDownload)
  | @transactionTimer id =>
    have hstopped : { s with downloads.transactionTimers :=
        s.downloads.transactionTimers.filter fun i => i ≠ id }.Faithful cfg _ queries :=
      ⟨hmore.pending.same ⟨rfl, rfl, rfl, rfl⟩, hmore.answered.same rfl rfl rfl⟩
    exact hquiet (by simp)
      ((hstopped.forEachAndRemove id answersFor_denyDownload).endDownloadTransaction id)
  | helloSender id =>
    refine hquiet (by simp) ?_
    unfold tryStartDownloadTransaction
    split
    · exact hmore
    · exact ⟨hmore.pending.same ⟨rfl, rfl, rfl, rfl⟩, hmore.answered.same rfl rfl rfl⟩
  | transferCompleted success env hhandler =>
    exact hquiet (by simp) (hmore.transferCompleted env hhandler success)
  | uploadCompleted id => exact hquiet (by simp) (hmore.endUploadTransaction (by simp))

theorem faithful_initial (cfg : Config) (users : List (Str × Str)) :
    (Server.initial cfg users).Faithful cfg [] [] := by
  refine ⟨⟨rfl, ?_, ?_, ?_, ?_⟩, ⟨?_, ?_, ?_, List.nodup_nil⟩⟩
  all_goals simp [Server.initial]

/-- Only answers name a transaction. -/
theorem filterMap_transaction (l : List Outgoing) :
    l.filterMap Outgoing.transaction =
      (l.filter Outgoing.isAnswer).filterMap Outgoing.transaction := by
  rw [List.filterMap_filter]
  refine List.filterMap_congr fun m _ => ?_
  cases m with
  | downloadApproved => rfl
  | _ => simp [Outgoing.transaction]

/-- The transaction that a message names is that of an answer. -/
theorem exists_answer_of_transaction {s : Server} (h : s.queries.Sound) {c : ConnId} {key : Nat}
    (hkey : key ∈ (s.sent c).filterMap Outgoing.transaction) :
    ∃ a ∈ s.downloads.answers, a.conn = c ∧ a.transaction = some key := by
  rw [filterMap_transaction] at hkey
  obtain ⟨m, hwritten, hname⟩ := List.mem_filterMap.mp hkey
  have hlogged : (s.sent c).filter Outgoing.isAnswer =
      ((s.downloads.answers.filter fun a => a.conn = c).map (·.message)).reverse := h.logged c
  rw [hlogged, List.mem_reverse] at hwritten
  obtain ⟨a, ha, rfl⟩ := List.mem_map.mp hwritten
  obtain ⟨hmem, hconn⟩ := List.mem_filter.mp ha
  exact ⟨a, hmem, of_decide_eq_true hconn, hname⟩

end Server

/-- In every run, for every connection: the answers written to it are, one by one, answers to
different download queries that were executed for it, and each approval names a transaction
that delivers the file of that query until it is ended. No two approvals, on whatever
connections, name the same transaction. -/
theorem answers_match {cfg : Config} {users : List (Str × Str)} {es : List Server.Event}
    {s : Server} {os : List (Option Querried)}
    (h : outputs (Server.observe cfg) (Server.initial cfg users) es = some (s, os)) :
    (∀ c, ∃ tickets : List Nat, tickets.Nodup ∧
      List.Forall₂ (fun m ticket => ∃ q, os.reduceOption[ticket]? = some q ∧ q.conn = c ∧
          q.AnsweredBy cfg s.downloads.uploadTransactions es m)
        ((s.sent c).filter Outgoing.isAnswer) tickets) ∧
      (∀ c, ((s.sent c).filterMap Outgoing.transaction).Nodup) ∧
      ∀ c d key, key ∈ (s.sent c).filterMap Outgoing.transaction →
        key ∈ (s.sent d).filterMap Outgoing.transaction → c = d := by
  have hkept : s.Sound ∧ s.Faithful cfg es os.reduceOption := by
    have hinit : (Server.initial cfg users).Sound ∧ (Server.initial cfg users).Faithful cfg []
        ([] : List (Option Querried)).reduceOption :=
      ⟨sound_initial cfg users, Server.faithful_initial cfg users⟩
    refine invariant_of_outputs (I := fun s es os => s.Sound ∧ s.Faithful cfg es os.reduceOption)
      (fun s es os e s' o hs hstep => ?_) hinit h
    obtain ⟨t, ht, heq⟩ := Option.map_eq_some_iff.mp hstep
    obtain ⟨rfl, rfl⟩ := Prod.mk.inj heq
    rw [List.reduceOption_append, List.reduceOption_singleton]
    exact ⟨hs.1.step ht, hs.2.step ht⟩
  obtain ⟨⟨-, hsound⟩, hfaithful⟩ := hkept
  have hlogged : ∀ c, (s.sent c).filter Outgoing.isAnswer =
      ((s.downloads.answers.filter fun a => a.conn = c).map (·.message)).reverse := hsound.logged
  refine ⟨fun c => ?_, fun c => ?_, fun c d key hc hd => ?_⟩
  · refine ⟨((s.downloads.answers.filter fun a => a.conn = c).map (·.ticket)).reverse, ?_, ?_⟩
    · refine List.nodup_reverse.mpr (hsound.answered_nodup.sublist ?_)
      exact List.filter_sublist.map _
    · rw [hlogged c, List.forall₂_reverse_iff, List.forall₂_map_left_iff,
        List.forall₂_map_right_iff, List.forall₂_same]
      intro a ha
      obtain ⟨hmem, hconn⟩ := List.mem_filter.mp ha
      obtain ⟨q, hq, hqconn, hanswered⟩ := hfaithful.answered.matched a hmem
      exact ⟨q, hq, hqconn.symm.trans (of_decide_eq_true hconn), hanswered⟩
  · rw [Server.filterMap_transaction, hlogged c, List.filterMap_reverse, List.filterMap_map]
    refine List.nodup_reverse.mpr (hfaithful.answered.distinct.sublist ?_)
    exact List.filter_sublist.filterMap _
  · obtain ⟨a, ha, rfl, haname⟩ := Server.exists_answer_of_transaction hsound hc
    obtain ⟨b, hb, rfl, hbname⟩ := Server.exists_answer_of_transaction hsound hd
    rw [hfaithful.answered.eq_of_transaction ha hb haname hbname]

open Server.Event in
/-- Client 1 asks for the file of client 0, which sends it, and is told the transaction that
delivers the copy. -/
theorem answers_match_after_transfer :
    ∃ s os, outputs (Server.observe sampleConfig) (Server.initial sampleConfig [])
        (querryOfFile ++ [readReply 0 ['2'] ['1'], .transferCompleted 2 true sampleEnv]) =
          some (s, os) ∧
      (s.sent 1).filter Outgoing.isAnswer = [.downloadApproved ['3'] 1 8071 1 .nocompression] ∧
      ∃ tickets : List Nat, tickets.Nodup ∧
        List.Forall₂ (fun m ticket => ∃ q, os.reduceOption[ticket]? = some q ∧ q.conn = 1 ∧
            q.AnsweredBy sampleConfig s.downloads.uploadTransactions (querryOfFile ++
              [readReply 0 ['2'] ['1'], .transferCompleted 2 true sampleEnv]) m)
          ((s.sent 1).filter Outgoing.isAnswer) tickets := by
  have hrun : ((outputs (Server.observe sampleConfig) (Server.initial sampleConfig [])
      (querryOfFile ++ [readReply 0 ['2'] ['1'], .transferCompleted 2 true sampleEnv])).any
        fun r => decide ((r.1.sent 1).filter Outgoing.isAnswer =
          [.downloadApproved ['3'] 1 8071 1 .nocompression])) = true := by
    decide +kernel
  obtain ⟨⟨s, os⟩, hs, hanswers⟩ := (Option.any_eq_true _ _).mp hrun
  exact ⟨s, os, hs, of_decide_eq_true hanswers, (answers_match hs).1 1⟩

end FspServer
