import FspServer.Dispatch
import FspServer.DownloadQueries
import FspServer.TerminalCommands

/-!
# Replies to requests

A request that passes the validators is confirmed at once and carried out later, by a queued
task, a handler that goes on in several sections, or a download query on hold. A `Ledger`
counts, for one connection and one id, the confirmations and the concluding replies that were
written, and what is still under way between the two. `LedgerStep` says what a step can do to
it (`step_ledger`).

* `replies_of_confirmed`: in every run the concluding replies and what is still under way are
  never more than the confirmed requests: no request is concluded twice, and nothing is
  concluded that was not asked for.
* `Server.due_eq_confirmed`: they are as many, on a connection that still exists, when the
  type of each accepted query is one of the four.

Logging out is confirmed but has no concluding reply.
-/

namespace FspServer

open Runs Server

/-! ## Ledgers -/

/-- The code confirms a request that will be concluded. -/
def Response.confirms : Response → Bool
  | .SIGNIN_CMD_ACCEPTED | .SIGNUP_CMD_ACCEPTED | .DELETE_ACCOUNT_CMD_ACCEPTED
  | .PUSH_FILES_CMD_ACCEPTED | .QUERRY_CMD_ACCEPTED => true
  | _ => false

/-- The code concludes a request. -/
def Response.concludes : Response → Bool
  | .USER_ALREADY_LOGGED | .LOGIN_SUCCESSFULL | .NICKNAME_INCORRECT | .PASSWORD_INCORRECT
  | .REGISTERING_SUCCESSFULL | .USER_ALREADY_REGISTERED | .DELETING_ACCOUNT_SUCCESSFULL
  | .REMOVE_ACCOUNT_FAILED | .PUSH_FILES_SUCCESS | .ADD_FILE_SUCCESSFULL
  | .REMOVE_FILE_SUCCESSFULL | .REMOVE_FILE_FAILED | .RENAME_FILE_SUCCESSFULL
  | .RENAME_FILE_FAILED | .INTERNAL_SERVER_ERR | .DOWNLOAD_DENY | .SSL_VERSION_INCOMPATIBLE =>
    true
  | _ => false

/-- The message confirms a request with the id. -/
def Outgoing.confirms (id : Str) : Outgoing → Bool
  | .reply code requestID => code.confirms ∧ requestID = id
  | _ => false

/-- The message concludes a request with the id. -/
def Outgoing.concludes (id : Str) : Outgoing → Bool
  | .reply code requestID => code.concludes ∧ requestID = id
  | .downloadApproved requestID .. => requestID = id
  | _ => false

/-- The id under which a task will be concluded. -/
def Request.awaits : Request → Option Str
  | .signin id .. | .signup id .. | .pushFiles id _ | .deleteAccount id | .downloadFile id ..
  | .addFile id _ | .removePath id _ | .renamePath id .. => some id
  | .logout => none

/-- The id that a handler still has to conclude. -/
def Continuation.awaits : Continuation → Option Str
  | .isLogged id _ | .storeLogin _ id _ => some id
  | _ => none

/-- For a connection and an id: the confirmations and conclusions written, and the tasks, the
handlers and the queries on hold that are not yet concluded. -/
structure Ledger where
  confirmed : Nat
  concluded : Nat
  queued : Nat
  handled : Nat
  onHold : Nat
deriving DecidableEq, Repr

/-- What was concluded or is under way. -/
def Ledger.due (l : Ledger) : Nat := l.concluded + l.queued + l.handled + l.onHold

/-- A waiting request of the connection with the id. -/
def DownloadRequest.isOf (c : ConnId) (id : Str) (r : DownloadRequest) : Bool :=
  r.conn = c ∧ r.requestID = id

/-- The waiting requests of an entry. -/
def Backup.waits (c : ConnId) (id : Str) (e : Backup) : Nat :=
  e.info.requests.countP (DownloadRequest.isOf c id)

namespace Server

def ledger (c : ConnId) (id : Str) (s : Server) : Ledger where
  confirmed := (s.sent c).countP (Outgoing.confirms id)
  concluded := (s.sent c).countP (Outgoing.concludes id)
  queued := s.tasks.countP fun t => t.conn = c ∧ t.request.awaits = some id
  handled := s.running.countP fun h => h.conn = c ∧ h.rest.awaits = some id
  onHold := Lookup.total (Backup.waits c id) s.downloads.backedupRequests

end Server

/-- What a step can do to a ledger, given whether the connection exists and whether the type of
an accepted query is one of the four. -/
inductive LedgerStep (alive known : Prop) (l : Ledger) : Ledger → Prop
  | same : LedgerStep alive known l l
  /-- A request is confirmed, and a task is posted. -/
  | post (n : Nat) : alive → n ≤ 1 → (known → n = 1) →
      LedgerStep alive known l { l with confirmed := l.confirmed + 1, queued := l.queued + n }
  /-- A task is taken: the request is concluded, goes on in a handler, or is put on hold. -/
  | conclude {q : Nat} : alive → l.queued = q + 1 →
      LedgerStep alive known l { l with queued := q, concluded := l.concluded + 1 }
  | handle {q : Nat} : alive → l.queued = q + 1 →
      LedgerStep alive known l { l with queued := q, handled := l.handled + 1 }
  | hold {q : Nat} : alive → l.queued = q + 1 →
      LedgerStep alive known l { l with queued := q, onHold := l.onHold + 1 }
  /-- The connection of the task is gone. -/
  | drop {q : Nat} : ¬ alive → l.queued = q + 1 →
      LedgerStep alive known l { l with queued := q }
  /-- A handler comes to its end. -/
  | resume {n : Nat} : alive → l.handled = n + 1 →
      LedgerStep alive known l { l with handled := n, concluded := l.concluded + 1 }
  /-- Queries on hold are answered, unless the connection is gone. -/
  | release {n k : Nat} : alive → l.onHold = n + k →
      LedgerStep alive known l { l with onHold := n, concluded := l.concluded + k }
  | forget {n : Nat} : ¬ alive → n ≤ l.onHold →
      LedgerStep alive known l { l with onHold := n }

namespace LedgerStep

variable {alive known : Prop} {l l' : Ledger}

/-- A step concludes no more than what was confirmed and is under way. -/
theorem due_le (h : LedgerStep alive known l l') :
    l'.due + l.confirmed ≤ l.due + l'.confirmed := by
  cases h <;> simp only [Ledger.due] <;> omega

/-- While the connection exists nothing is lost. -/
theorem due_eq (h : LedgerStep alive known l l') (he : alive) (hk : known) :
    l'.due + l.confirmed = l.due + l'.confirmed := by
  cases h with
  | post n _ _ hn => simp only [Ledger.due, hn hk]; omega
  | drop hgone => exact absurd he hgone
  | forget hgone => exact absurd he hgone
  | _ => simp only [Ledger.due] <;> omega

/-- Nothing is written to a connection that is gone, and nothing new is done for it. -/
theorem gone (h : LedgerStep alive known l l') (hgone : ¬ alive) :
    l'.confirmed = l.confirmed ∧ l'.due ≤ l.due := by
  cases h with
  | same => exact ⟨rfl, Nat.le_refl _⟩
  | drop => exact ⟨rfl, by simp only [Ledger.due]; omega⟩
  | forget => exact ⟨rfl, by simp only [Ledger.due]; omega⟩
  | post _ he => exact absurd he hgone
  | conclude he | handle he | hold he | resume he | release he => exact absurd he hgone

end LedgerStep

namespace Server

variable {c : ConnId} {id : Str}

/-! ## Messages that say nothing about a request -/

/-- The message neither confirms nor concludes a request. -/
def Quiet (m : Outgoing) : Prop := ∀ id, m.confirms id = false ∧ m.concludes id = false

theorem quiet_notification (n : Notification) : Quiet (.notification n) := fun _ => ⟨rfl, rfl⟩

theorem quiet_reply {code : Response} (hconfirms : code.confirms = false)
    (hconcludes : code.concludes = false) (requestID : Str) : Quiet (.reply code requestID) :=
  fun id => ⟨by simp [Outgoing.confirms, hconfirms], by simp [Outgoing.concludes, hconcludes]⟩

theorem ledger_startWrite {m : Outgoing} (hm : Quiet m) (d : ConnId) (s : Server) :
    (s.startWrite d m).ledger c id = s.ledger c id := by
  obtain ⟨hconfirms, hconcludes⟩ := hm id
  simp only [ledger, startWrite, Function.update_apply]
  split
  · next hdc =>
    subst hdc
    simp [hconfirms, hconcludes]
  · rfl

/-- A handler that awaits nothing is of no concern. -/
theorem ledger_continueWith {rest : Continuation} (hrest : rest.awaits = none) (d : ConnId)
    (s : Server) : (s.continueWith d rest).ledger c id = s.ledger c id := by
  simp [ledger, continueWith, List.countP_append, hrest]

theorem deaf_ledger (c : ConnId) (id : Str) : Deaf (ledger c id) where
  notification n d s := ledger_startWrite (quiet_notification n) d s
  registry _ _ := rfl
  closing d _ _ s := ledger_continueWith rfl d s

/-! ## Confirming and concluding -/

/-- A reply that concludes a request. -/
theorem ledger_concludes {m : Outgoing} {requestID : Str}
    (hconfirms : ∀ id, m.confirms id = false) (hm : ∀ id, m.concludes id = decide (requestID = id))
    (d : ConnId) (s : Server) :
    (s.startWrite d m).ledger c id = { s.ledger c id with
      concluded := (s.ledger c id).concluded + if d = c ∧ requestID = id then 1 else 0 } := by
  simp only [ledger, startWrite, Function.update_apply]
  by_cases hdc : c = d
  · subst hdc
    simp [hconfirms, hm, List.countP_cons]
  · simp [hdc, Ne.symm hdc]

theorem ledger_writeReply {code : Response} (hconcludes : code.concludes = true) (requestID : Str)
    (d : ConnId) (s : Server) :
    (s.writeReply code requestID d).ledger c id = { s.ledger c id with
      concluded := (s.ledger c id).concluded + if d = c ∧ requestID = id then 1 else 0 } := by
  have hconfirms : code.confirms = false := by
    cases code <;> first | rfl | simp [Response.concludes] at hconcludes
  exact ledger_concludes (fun id => by simp [Outgoing.confirms, hconfirms])
    (fun id => by simp [Outgoing.concludes, hconcludes]) d s

/-- A handler that will conclude a request. -/
theorem ledger_continueWith_awaits {rest : Continuation} {requestID : Str}
    (hrest : rest.awaits = some requestID) (d : ConnId) (s : Server) :
    (s.continueWith d rest).ledger c id = { s.ledger c id with
      handled := (s.ledger c id).handled + if d = c ∧ requestID = id then 1 else 0 } := by
  simp [ledger, continueWith, List.countP_append, List.countP_cons, hrest]

/-- What is counted in a list, without an element of it. -/
theorem countP_eraseIdx {α : Type} {p : α → Bool} {l : List α} {i : Nat} {a : α}
    (h : l[i]? = some a) : l.countP p = (l.eraseIdx i).countP p + if p a then 1 else 0 := by
  obtain ⟨hi, rfl⟩ := List.getElem?_eq_some_iff.mp h
  rw [← (List.getElem_cons_eraseIdx_perm hi).countP_eq, List.countP_cons]

/-! ## Queries on hold -/

/-- The handler concludes the request and does nothing else to a ledger, to the entries or to
the connections. -/
def Concludes (f : DownloadRequest → Server → Server) : Prop :=
  ∀ r s, (f r s).core = s.core ∧
    (f r s).downloads.backedupRequests = s.downloads.backedupRequests ∧
    ∀ c id, (f r s).ledger c id = { s.ledger c id with
      concluded := (s.ledger c id).concluded + if r.isOf c id then 1 else 0 }

theorem ledger_answer {m : Outgoing} {r : DownloadRequest}
    (hconfirms : ∀ id, m.confirms id = false)
    (hm : ∀ id, m.concludes id = decide (r.requestID = id)) (s : Server) :
    (s.answer r.conn r.ticket m).ledger c id = { s.ledger c id with
      concluded := (s.ledger c id).concluded + if r.isOf c id then 1 else 0 } := by
  refine (ledger_concludes hconfirms hm r.conn s).trans ?_
  simp [DownloadRequest.isOf]

theorem concludes_denyDownload : Concludes denyDownload := fun _ s =>
  ⟨rfl, rfl, fun _ _ => ledger_answer (fun _ => rfl)
    (fun _ => by simp [Outgoing.concludes, Response.concludes]) s⟩

theorem concludes_deliverFileFromLocalStorage (cfg : Config) (env : FileEnv) (path : Str) :
    Concludes (deliverFileFromLocalStorage cfg env path) := by
  intro r s
  unfold deliverFileFromLocalStorage
  split
  · next id size compression downloads h =>
    have hrequests : downloads.backedupRequests = s.downloads.backedupRequests := by
      unfold Downloads.beginUploadTransaction at h
      split at h
      · cases h
      · split at h
        · cases h
        · simp only [Option.some.injEq, Prod.mk.injEq] at h
          obtain ⟨-, -, -, rfl⟩ := h
          rfl
    refine ⟨rfl, hrequests, fun c id => ?_⟩
    have hsame : ({ s with downloads } : Server).ledger c id = s.ledger c id := by
      simp only [ledger, hrequests]
    rw [ledger_answer (fun _ => rfl) (fun _ => by simp [Outgoing.concludes]), hsame]
  · exact concludes_denyDownload r s

/-- The loop concludes the requests of the connections that still exist. -/
theorem ledger_foldl {f : DownloadRequest → Server → Server} (hf : Concludes f)
    (requests : List DownloadRequest) (s : Server) :
    (requests.foldl (fun s r => if s.alive r.conn then f r s else s) s
      ).downloads.backedupRequests = s.downloads.backedupRequests ∧
    (requests.foldl (fun s r => if s.alive r.conn then f r s else s) s).ledger c id =
      { s.ledger c id with
        concluded := (s.ledger c id).concluded +
          if s.alive c then requests.countP (DownloadRequest.isOf c id) else 0 } := by
  induction requests generalizing s with
  | nil => exact ⟨rfl, by simp⟩
  | cons r requests ih =>
    obtain ⟨hcore, hrequests, hledger⟩ := hf r s
    rw [List.foldl_cons, List.countP_cons]
    by_cases hr : s.alive r.conn = true
    · rw [if_pos hr]
      obtain ⟨hrest, hloop⟩ := ih (f r s)
      refine ⟨hrest.trans hrequests, ?_⟩
      rw [hloop, hledger c id, alive_of_core_eq hcore]
      by_cases hof : r.isOf c id = true
      · have hc : s.alive c = true := (of_decide_eq_true hof).1 ▸ hr
        simp only [hof, hc, if_true]
        rw [Nat.add_right_comm, Nat.add_assoc]
      · simp [hof]
    · rw [if_neg hr]
      obtain ⟨hrest, hloop⟩ := ih s
      refine ⟨hrest, ?_⟩
      rw [hloop]
      by_cases hof : r.isOf c id = true
      · have hc : ¬ s.alive c = true := (of_decide_eq_true hof).1 ▸ hr
        simp only [if_neg hc]
      · simp [hof]

theorem ledger_requests (s : Server) (requests : Std.TreeMap Nat Backup) :
    ({ s with downloads.backedupRequests := requests } : Server).ledger c id =
      { s.ledger c id with onHold := Lookup.total (Backup.waits c id) requests } := rfl

/-- An entry is answered and erased. -/
theorem ledgerStep_forEachAndRemove {f : DownloadRequest → Server → Server} (hf : Concludes f)
    (known : Prop) (key : Nat) (s : Server) :
    LedgerStep (s.alive c = true) known (s.ledger c id)
      ((s.forEachAndRemove key f).ledger c id) := by
  unfold forEachAndRemove
  split
  · exact .same
  · next entry hentry =>
    obtain ⟨hrequests, hloop⟩ := @ledger_foldl c id _ hf entry.info.requests s
    have herase := Lookup.total_erase s.downloads.backedupRequests key (Backup.waits c id)
    rw [hentry] at herase
    generalize entry.info.requests.foldl (fun s r => if s.alive r.conn then f r s else s) s = t
      at hrequests hloop ⊢
    show LedgerStep _ _ _ (({ t with downloads.backedupRequests :=
      t.downloads.backedupRequests.erase key } : Server).ledger c id)
    rw [ledger_requests t, hrequests, hloop]
    by_cases hc : s.alive c = true
    · simp only [if_pos hc]
      exact .release hc herase.symm
    · simp only [if_neg hc, Nat.add_zero]
      exact .forget hc (Nat.le.intro herase)

/-- The requests of the entry are concluded. -/
theorem concluded_forEachAndRemove {f : DownloadRequest → Server → Server} (hf : Concludes f)
    {key : Nat} {entry : Backup} {s : Server} (halive : s.alive c = true)
    (hentry : s.downloads.backedupRequests[key]? = some entry) :
    ((s.forEachAndRemove key f).ledger c id).concluded =
      (s.ledger c id).concluded + entry.waits c id := by
  have hloop := (@ledger_foldl c id _ hf entry.info.requests s).2
  rw [if_pos halive] at hloop
  unfold forEachAndRemove
  rw [hentry]
  exact congrArg Ledger.concluded hloop

/-- An entry is stored whose requests wait already. -/
theorem ledger_insert {key : Nat} {entry entry' : Backup} {s : Server}
    (hentry : s.downloads.backedupRequests[key]? = some entry)
    (hwaits : entry'.info.requests = entry.info.requests) :
    ({ s with downloads.backedupRequests := s.downloads.backedupRequests.insert key entry' }
      : Server).ledger c id = s.ledger c id := by
  have hinsert := Lookup.total_insert s.downloads.backedupRequests key entry' (Backup.waits c id)
  rw [hentry] at hinsert
  have hsame : Backup.waits c id entry' = Backup.waits c id entry := by
    rw [Backup.waits, hwaits, Backup.waits]
  have htotal : Lookup.total (Backup.waits c id)
      (s.downloads.backedupRequests.insert key entry') =
      Lookup.total (Backup.waits c id) s.downloads.backedupRequests := by
    simp only [Option.elim_some, hsame] at hinsert
    omega
  rw [ledger_requests s, htotal]
  rfl

/-- A request is put on hold, in the entry for its file or in a new one. -/
theorem ledger_hold {key : Nat} {entry : Backup} {r : DownloadRequest} {s : Server}
    {requests : Std.TreeMap Nat Backup}
    (hrequests : requests = s.downloads.backedupRequests.insert key entry)
    (hentry : entry.info.requests =
      r :: (s.downloads.backedupRequests[key]?).elim [] fun e => e.info.requests) :
    ({ s with downloads.backedupRequests := requests } : Server).ledger c id =
      { s.ledger c id with
        onHold := (s.ledger c id).onHold + if r.isOf c id then 1 else 0 } := by
  have hinsert := Lookup.total_insert s.downloads.backedupRequests key entry (Backup.waits c id)
  have hwaits : Backup.waits c id entry =
      s.downloads.backedupRequests[key]?.elim 0 (Backup.waits c id) +
        if r.isOf c id then 1 else 0 := by
    rw [Backup.waits, hentry, List.countP_cons]
    cases s.downloads.backedupRequests[key]? <;> rfl
  rw [ledger_requests s, hrequests]
  have htotal : Lookup.total (Backup.waits c id) (s.downloads.backedupRequests.insert key entry) =
      (s.ledger c id).onHold + if r.isOf c id then 1 else 0 := by
    show _ = Lookup.total (Backup.waits c id) s.downloads.backedupRequests + _
    omega
  rw [htotal]

/-! ## Carrying out a request -/

/-- A request awaited under `awaits` by the connection `d` is concluded, goes on in a handler,
or is put on hold. -/
def Served (d : ConnId) (awaits : Option Str) (s s' : Server) : Prop :=
  ∀ c id, let n := if d = c ∧ awaits = some id then 1 else 0
    s'.ledger c id = { s.ledger c id with concluded := (s.ledger c id).concluded + n } ∨
    s'.ledger c id = { s.ledger c id with handled := (s.ledger c id).handled + n } ∨
    s'.ledger c id = { s.ledger c id with onHold := (s.ledger c id).onHold + n }

theorem Served.of_none {d : ConnId} {s s' : Server} (h : ∀ c id, s'.ledger c id = s.ledger c id) :
    Served d none s s' := fun c id => .inl (by simpa using h c id)

/-- A concluding reply, with other changes that are of no concern. -/
theorem Served.reply {d : ConnId} {requestID : Str} {code : Response} {s t s' : Server}
    (hcode : code.concludes = true) (ht : ∀ c id, t.ledger c id = s.ledger c id)
    (hs' : ∀ c id, s'.ledger c id = (t.writeReply code requestID d).ledger c id) :
    Served d (some requestID) s s' := fun c id => .inl <| by
  rw [hs', ledger_writeReply hcode, ht]
  simp only [Option.some.injEq]

theorem Served.answer {f : DownloadRequest → Server → Server} (hf : Concludes f)
    (r : DownloadRequest) {s t : Server} (ht : ∀ c id, t.ledger c id = s.ledger c id) :
    Served r.conn (some r.requestID) s (f r t) := fun c id => .inl <| by
  rw [(hf r t).2.2 c id, ht]
  simp [DownloadRequest.isOf]

theorem Served.hold {r : DownloadRequest} {s s' : Server} (h : ∀ c id, s'.ledger c id =
      { s.ledger c id with onHold := (s.ledger c id).onHold + if r.isOf c id then 1 else 0 }) :
    Served r.conn (some r.requestID) s s' := fun c id => .inr <| .inr <| by
  rw [h]
  simp [DownloadRequest.isOf]

/-- A download query. The next id has no entry yet. -/
theorem served_resolveDownloadFileQuerry (cfg : Config) (env : FileEnv) (d : ConnId)
    (requestID owner path ssl compressions : Str) {s : Server}
    (hfresh : s.downloads.backedupRequests[s.downloads.downloadTransactionsIDCounter + 1]? = none) :
    Served d (some requestID) s
      (s.resolveDownloadFileQuerry cfg env d requestID owner path ssl compressions) := by
  unfold resolveDownloadFileQuerry
  dsimp only
  split
  · exact .reply (show Response.SSL_VERSION_INCOMPATIBLE.concludes = true from rfl)
      (fun _ _ => rfl) fun _ _ => rfl
  · split
    · exact .answer concludes_denyDownload ⟨d, _, requestID, _⟩ fun _ _ => rfl
    · exact .answer (concludes_deliverFileFromLocalStorage cfg env _) ⟨d, _, requestID, _⟩
        fun _ _ => rfl
    · next o howner =>
      split
      · next downloads hpending =>
        obtain ⟨⟨key, entry⟩, hfind, rfl⟩ := Option.map_eq_some_iff.mp hpending
        have hentry : s.downloads.backedupRequests[key]? = some entry :=
          Std.TreeMap.mem_toList_iff_getElem?_eq_some.mp (List.mem_of_find?_eq_some hfind)
        refine .hold (r := ⟨d, getCompression (cfg.csvCompressions compressions), requestID,
          s.downloads.executed⟩) fun c id => ?_
        exact ledger_hold (s := s) rfl (by rw [hentry]; rfl)
      · refine .hold (r := ⟨d, getCompression (cfg.csvCompressions compressions), requestID,
          s.downloads.executed⟩) fun c id => ?_
        have hasked : (s.startWrite o (.downloadQuerry
            (s.downloads.downloadTransactionsIDCounter + 1) path)).ledger c id = s.ledger c id :=
          ledger_startWrite (fun _ => ⟨rfl, rfl⟩) o s
        rw [← hasked]
        exact ledger_hold (s := s.startWrite o _) rfl
          (by simp [startWrite, hfresh])

/-- A worker carries out a request. -/
theorem served_executeRequest {cfg : Config} {dbFails : Bool} {env : FileEnv} {d : ConnId}
    {s s' : Server} {request : Request}
    (hfresh : s.downloads.backedupRequests[s.downloads.downloadTransactionsIDCounter + 1]? = none)
    (h : s.executeRequest cfg dbFails env d request = some s') :
    Served d request.awaits s s' := by
  have refused : ∀ {code : Response} {requestID : Str}, code.concludes = true →
      Served d (some requestID) s (s.writeReply code requestID d) := fun hcode =>
    .reply hcode (fun _ _ => rfl) fun _ _ => rfl
  -- the tree was changed, the client is told and the others will be
  have changed : ∀ {code : Response} {requestID : Str} {rest : Continuation} (root : Node Char),
      code.concludes = true → rest.awaits = none → Served d (some requestID) s
        (({ s with tree := Function.update s.tree d root }.writeReply code requestID d
          ).continueWith d rest) := fun root hcode hrest =>
    .reply (t := { s with tree := Function.update s.tree d root }) hcode (fun _ _ => rfl)
      fun _ _ => ledger_continueWith hrest d _
  cases request with
  | signin requestID login password =>
    obtain rfl := Option.some.inj h
    unfold doSignin
    split
    · intro c id
      exact .inr <| .inl <| by
        rw [ledger_continueWith_awaits rfl]
        simp only [Request.awaits, Option.some.injEq]
    all_goals exact refused rfl
  | signup requestID login password =>
    obtain rfl := Option.some.inj h
    unfold doSignup
    split
    · exact refused rfl
    · split
      · exact refused rfl
      · intro c id
        exact .inr <| .inl <| by
          rw [ledger_continueWith_awaits rfl]
          simp only [Request.awaits, Option.some.injEq]
          rfl
  | pushFiles requestID paths =>
    obtain ⟨root, -, rfl⟩ := Option.map_eq_some_iff.mp h
    exact changed root rfl rfl
  | deleteAccount requestID =>
    obtain rfl := Option.some.inj h
    unfold doDeleteAccount
    dsimp only
    split
    · exact refused rfl
    · split
      · exact .reply (show Response.DELETING_ACCOUNT_SUCCESSFULL.concludes = true from rfl)
          (fun _ _ => rfl) fun _ _ => rfl
      · exact refused rfl
  | logout =>
    obtain rfl := Option.some.inj h
    exact .of_none fun c id => (deaf_ledger c id).stop d s
  | downloadFile requestID owner path ssl compressions =>
    obtain rfl := Option.some.inj h
    exact served_resolveDownloadFileQuerry cfg env d requestID owner path ssl compressions hfresh
  | addFile requestID fileName =>
    obtain ⟨root, -, rfl⟩ := Option.map_eq_some_iff.mp h
    exact changed root rfl rfl
  | removePath requestID pathName =>
    obtain rfl := Option.some.inj h
    unfold doRemovePath
    split
    split
    · exact changed _ rfl rfl
    · exact refused rfl
  | renamePath requestID old new =>
    obtain rfl := Option.some.inj h
    unfold doRemamePath
    split
    split
    · exact changed _ rfl rfl
    · exact refused rfl

/-! ## The other steps -/

/-- The end of a transaction is of no concern. -/
theorem ledger_endDownloadTransaction (cfg : Config) (key : Nat) (s : Server) :
    (s.endDownloadTransaction cfg key).ledger c id = s.ledger c id := by
  unfold endDownloadTransaction
  split <;> rfl

theorem ledger_setFileToCached (cfg : Config) (owner path : Str) (s : Server) :
    (s.setFileToCached cfg owner path).ledger c id = s.ledger c id := by
  unfold setFileToCached
  split <;> rfl

/-- Answering the entry of a state that differs in what is of no concern. -/
theorem ledgerStep_answered {f : DownloadRequest → Server → Server} (hf : Concludes f)
    (known : Prop) (key : Nat) {s t : Server} (hcore : t.core = s.core)
    (hledger : t.ledger c id = s.ledger c id) :
    LedgerStep (s.alive c = true) known (s.ledger c id)
      ((t.forEachAndRemove key f).ledger c id) := by
  rw [← alive_of_core_eq hcore, ← hledger]
  exact ledgerStep_forEachAndRemove hf known key t

theorem ledgerStep_resolveDownloadReply (cfg : Config) (env : FileEnv) (d : ConnId) (m : Message)
    (known : Prop) (s : Server) : LedgerStep (s.alive c = true) known (s.ledger c id)
      ((s.resolveDownloadReply cfg env d m).1.ledger c id) := by
  unfold resolveDownloadReply
  split
  · exact .same
  · next key hkey =>
    dsimp only
    split
    · exact .same
    · split
      · exact .same
      · next entry hentry =>
        have hstop :
            ({ s with downloads := s.downloads.stopTimer key entry } : Server).ledger c id =
              s.ledger c id :=
          ledger_insert hentry rfl
        split
        · exact hstop ▸ .same
        · unfold beginDownloadTransaction
          dsimp only
          split
          · exact hstop ▸ .same
          · split
            · exact ledgerStep_answered concludes_denyDownload known key rfl hstop
            · have hnotify : ∀ t : Server, (t.notifyFileDownload cfg entry.info.fileOwner key
                  (getCompression (cfg.csvCompressions (m.header .Compressions)))).ledger c id =
                  t.ledger c id := by
                intro t
                unfold notifyFileDownload
                split
                · exact ledger_startWrite (quiet_notification _) _ t
                · rfl
              rw [hnotify]
              exact hstop ▸ .same

theorem ledgerStep_transferCompleted (cfg : Config) (env : FileEnv) (key : Nat)
    (handler : CompletionHandler) (success : Bool) (known : Prop) (s : Server) :
    LedgerStep (s.alive c = true) known (s.ledger c id)
      ((s.transferCompleted cfg env key handler success).ledger c id) := by
  unfold transferCompleted
  split
  · have hcached : (s.setFileToCached cfg handler.fileOwner handler.filePath).ledger c id =
        s.ledger c id := ledger_setFileToCached ..
    dsimp only
    split
    · exact hcached ▸ .same
    · rw [ledger_endDownloadTransaction]
      exact ledgerStep_answered (concludes_deliverFileFromLocalStorage cfg env _) known key
        (blind_core.setFileToCached cfg handler.fileOwner handler.filePath s) hcached
  · rw [ledger_endDownloadTransaction]
    exact ledgerStep_answered concludes_denyDownload known key rfl rfl

end Server

/-- A handler that would end a login with a code that concludes nothing. -/
def Continuation.Inconclusive : Continuation → Prop
  | .storeLogin code .. => code.concludes = false
  | _ => False

/-- No running handler ends a login without concluding it. -/
def Core.Conclusive (k : Core) : Prop :=
  k.Tracks (fun _ => False) Continuation.Inconclusive fun _ => False

theorem Core.Conclusive.step {cfg : Config} {k k' : Core} {e : Event} (h : k.Conclusive)
    (hstep : CoreStep cfg k e k') : k'.Conclusive := by
  refine Tracks.step h hstep (fun _ hf => hf) (fun _ _ _ _ hf => hf)
    (fun rest r hfollows hrest => ?_) (fun _ _ hrest => ?_) fun _ _ hrest => hrest
  · cases rest <;> cases r <;>
      simp_all [Continuation.Follows, Continuation.Inconclusive, Response.concludes]
  · simp [Continuation.Inconclusive, Response.concludes] at hrest

namespace Server

variable {c : ConnId} {id : Str}

/-- The next section of a handler that is counted or not. -/
theorem ledgerStep_resumeHandler {cfg : Config} {s : Server} {i : Nat} {h : Running}
    (known : Prop) (hi : s.running[i]? = some h) (hrest : ¬ h.rest.Inconclusive) :
    LedgerStep (s.alive c = true) known (s.ledger c id)
      (({ s with running := s.running.eraseIdx i }.resumeHandler cfg h.conn h.rest
        ).ledger c id) := by
  obtain ⟨d, rest⟩ := h
  generalize ht : ({ s with running := s.running.eraseIdx i } : Server) = t
  have hcount := countP_eraseIdx
    (p := fun h => decide (h.conn = c ∧ h.rest.awaits = some id)) hi
  have hhandled : (s.ledger c id).handled = (t.ledger c id).handled +
      if d = c ∧ rest.awaits = some id then 1 else 0 := by
    rw [← ht]
    simpa [ledger] using hcount
  have hothers : s.ledger c id = { t.ledger c id with handled := (s.ledger c id).handled } := by
    rw [← ht]
    rfl
  have halive : d = c → s.alive c = true := by
    rintro rfl
    simp only [alive, decide_eq_true_eq]
    exact .inr (List.any_eq_true.mpr ⟨_, List.mem_of_getElem? hi, decide_eq_true rfl⟩)
  -- a section that ends the handler with a reply
  have concluded : ∀ {t' : Server} {requestID : Str}, rest.awaits = some requestID →
      t'.ledger c id = { t.ledger c id with
        concluded := (t.ledger c id).concluded + if d = c ∧ requestID = id then 1 else 0 } →
      LedgerStep (s.alive c = true) known (s.ledger c id) (t'.ledger c id) := by
    intro t' requestID hawaits hledger
    rw [hawaits] at hhandled
    simp only [Option.some.injEq] at hhandled
    rw [hledger, hothers]
    split
    · next hof =>
      rw [if_pos hof] at hhandled
      exact .resume (halive hof.1) hhandled
    · next hof =>
      rw [if_neg hof, Nat.add_zero] at hhandled
      rw [hhandled]
      exact .same
  -- a section of a handler that awaits nothing
  have silent : ∀ {t' : Server}, rest.awaits = none → t'.ledger c id = t.ledger c id →
      LedgerStep (s.alive c = true) known (s.ledger c id) (t'.ledger c id) := by
    intro t' hawaits hledger
    simp only [hawaits, reduceCtorEq, and_false, if_false, Nat.add_zero] at hhandled
    rw [hledger, hothers, hhandled]
    exact .same
  cases rest with
  | isLogged requestID login =>
    simp only [resumeHandler]
    split
    · exact concluded rfl (ledger_writeReply rfl requestID d t)
    · have hnext : (t.continueWith d (.storeLogin .LOGIN_SUCCESSFULL requestID login)).ledger c id =
          { t.ledger c id with
            handled := (t.ledger c id).handled + if d = c ∧ requestID = id then 1 else 0 } :=
        ledger_continueWith_awaits rfl d t
      simp only [Continuation.awaits, Option.some.injEq] at hhandled
      rw [hnext, ← hhandled, ← hothers]
      exact .same
  | storeLogin code requestID login =>
    refine concluded rfl ?_
    have hcode : code.concludes = true := by
      simpa [Continuation.Inconclusive] using hrest
    exact (ledger_writeReply hcode requestID d _).trans rfl
  | notifyFilesRegistration => exact silent rfl ((deaf_ledger c id).notifyFilesRegistration ..)
  | notifyFileAdd fileName => exact silent rfl ((deaf_ledger c id).doNotify ..)
  | notifyPathRemoved filePath => exact silent rfl ((deaf_ledger c id).doNotify ..)
  | notifyPathRenamed old new => exact silent rfl ((deaf_ledger c id).doNotify ..)
  | notifyDisconnection st nickname => exact silent rfl ((deaf_ledger c id).notifyDisconnection ..)

/-- A worker takes a task. -/
theorem ledgerStep_execute {cfg : Config} {s s' : Server} {i : Nat} {dbFails : Bool}
    {env : FileEnv} (known : Prop)
    (hfresh : s.downloads.backedupRequests[s.downloads.downloadTransactionsIDCounter + 1]? = none)
    (h : s.step cfg (.execute i dbFails env) = some s') :
    LedgerStep (s.alive c = true) known (s.ledger c id) (s'.ledger c id) := by
  obtain ⟨-, hexecute⟩ := Option.ite_none_left_eq_some.mp h
  obtain ⟨t, ht, hrest⟩ := Option.bind_eq_some_iff.mp hexecute
  dsimp only at hrest
  generalize hu : ({ s with tasks := s.tasks.eraseIdx i } : Server) = u at hrest
  have hcount := countP_eraseIdx
    (p := fun t => decide (t.conn = c ∧ t.request.awaits = some id)) ht
  have hqueued : (s.ledger c id).queued = (u.ledger c id).queued +
      if t.conn = c ∧ t.request.awaits = some id then 1 else 0 := by
    rw [← hu]
    simpa [ledger] using hcount
  have hothers : s.ledger c id = { u.ledger c id with queued := (s.ledger c id).queued } := by
    rw [← hu]
    rfl
  have halive : ∀ d, u.alive d = s.alive d := fun d => by
    rw [← hu]
    rfl
  rw [halive] at hrest
  split at hrest
  · next hconn =>
    have hserved := served_executeRequest (by rw [← hu]; exact hfresh) hrest c id
    dsimp only at hserved
    rw [hothers]
    split at hqueued
    · next hof =>
      have hc : s.alive c = true := hof.1 ▸ hconn
      simp only [if_pos hof] at hserved
      rcases hserved with hserved | hserved | hserved
      · exact hserved ▸ .conclude hc hqueued
      · exact hserved ▸ .handle hc hqueued
      · exact hserved ▸ .hold hc hqueued
    · next hof =>
      simp only [if_neg hof, Nat.add_zero] at hserved hqueued
      rw [hqueued]
      rcases hserved with hserved | hserved | hserved
      all_goals exact hserved ▸ .same
  · next hconn =>
    obtain rfl := Option.some.inj hrest
    rw [hothers]
    split at hqueued
    · next hof => exact .drop (hof.1 ▸ hconn) hqueued
    · rw [hqueued]
      exact .same

/-! ## Reading a request -/

/-- The code of an error reply says nothing about a confirmed request. -/
theorem quiet_of_readError {cfg : Config} {d : ConnId} {m : Message} {s : Server}
    {code : Response} {requestID : Str} (h : s.readError cfg d m = some (code, requestID)) :
    Quiet (.reply code requestID) := by
  refine quiet_reply ?_ ?_ requestID
  all_goals
    unfold readError at h
    split at h
    · next hbasic =>
      obtain ⟨rfl, -⟩ := Prod.mk.inj (Option.some.inj h)
      unfold basicValidate at hbasic
      split at hbasic <;> cases hbasic
      rfl
    · split at h
      · next htransition =>
        obtain ⟨rfl, -⟩ := Prod.mk.inj (Option.some.inj h)
        unfold transitionValidate at htransition
        split at htransition
        all_goals
          split at htransition <;> cases htransition
          rfl
      · obtain ⟨code', hsemantic, heq⟩ := Option.map_eq_some_iff.mp h
        obtain ⟨rfl, -⟩ := Prod.mk.inj heq
        unfold semanticValidate validateAuthentication validatePushFiles validateQuerry at hsemantic
        repeat' split at hsemantic
        all_goals cases hsemantic
        all_goals rfl

end Server

/-- The texts of the four types of query are different. -/
def Config.TypesDistinct (cfg : Config) : Prop :=
  [cfg.DOWNLOAD_FILE, cfg.ADD_FILE, cfg.REMOVE_PATH, cfg.RENAME_PATH].Nodup

instance (cfg : Config) : Decidable cfg.TypesDistinct := inferInstanceAs (Decidable (List.Nodup _))

/-- The type of the query is one of the four. -/
def Message.KnownType (cfg : Config) (m : Message) : Prop :=
  m.command = .QUERRY →
    m.header .QuerryType ∈ [cfg.DOWNLOAD_FILE, cfg.ADD_FILE, cfg.REMOVE_PATH, cfg.RENAME_PATH]

instance (cfg : Config) (m : Message) : Decidable (m.KnownType cfg) :=
  inferInstanceAs (Decidable (_ → _))

/-- A query that is read has one of the four types. -/
def Server.Event.KnownType (cfg : Config) : Server.Event → Prop
  | .read _ m _ => m.KnownType cfg
  | _ => True

instance (cfg : Config) (e : Server.Event) : Decidable (e.KnownType cfg) :=
  match e with
  | .read _ m _ => inferInstanceAs (Decidable (m.KnownType cfg))
  | .accept _ | .execute .. | .resume _ | .stop _ | .sharedWrite .. | .backupTimer _ |
    .transactionTimer _ | .helloSender _ | .transferCompleted .. | .uploadCompleted _ =>
    inferInstanceAs (Decidable True)

namespace Server

variable {c : ConnId} {id : Str}

/-- A confirmed request posts one task, and none for a query of another type. -/
theorem length_messageTasks_le {cfg : Config} (hdistinct : cfg.TypesDistinct) {d : ConnId}
    {m : Message} {code : Response} (hconfirm : confirm m.command = some code) :
    (messageTasks cfg d m).length ≤ 1 ∧
      (m.KnownType cfg → (messageTasks cfg d m).length = 1) := by
  rcases eq_or_ne m.command .QUERRY with hquerry | hquerry
  · have htasks : messageTasks cfg d m = querryTasks cfg d m := by
      simp only [messageTasks, hquerry]
    rw [htasks, length_querryTasks]
    exact ⟨List.nodup_iff_count_le_one.mp hdistinct _, fun hknown =>
      List.count_eq_one_of_mem hdistinct (hknown hquerry)⟩
  · have hone : (messageTasks cfg d m).length = 1 := length_messageTasks hconfirm hquerry
    exact ⟨hone.le, fun _ => hone⟩

/-- The tasks of a message are awaited under its id. -/
theorem awaits_of_mem_messageTasks {cfg : Config} {d : ConnId} {m : Message} {t : Task}
    (h : t ∈ messageTasks cfg d m) (hlogout : m.command ≠ .LOGOUT) :
    t.conn = d ∧ t.request.awaits = some (m.header .CommandId) := by
  unfold messageTasks querryTasks at h
  split at h <;> rename_i hcommand
  case h_4 =>
    simp only [List.mem_append] at h
    rcases h with ((h | h) | h) | h <;> split at h <;> simp at h <;> subst h <;> exact ⟨rfl, rfl⟩
  case h_6 => exact absurd hcommand hlogout
  all_goals
    simp only [List.mem_singleton, List.not_mem_nil] at h
    try (subst h; exact ⟨rfl, rfl⟩)

/-- Reading a request that passes the validators. -/
theorem ledgerStep_post {cfg : Config} (hdistinct : cfg.TypesDistinct) {d : ConnId} {m : Message}
    {code : Response} {s : Server} (halive : s.alive d = true)
    (hconfirm : confirm m.command = some code) :
    LedgerStep (s.alive c = true) (m.KnownType cfg) (s.ledger c id)
      (({ s.writeReply code (m.header .CommandId) d with
        tasks := s.tasks ++ messageTasks cfg d m } : Server).ledger c id) := by
  have hposted : (({ s.writeReply code (m.header .CommandId) d with
      tasks := s.tasks ++ messageTasks cfg d m } : Server).ledger c id) =
      { (s.writeReply code (m.header .CommandId) d).ledger c id with
        queued := (s.ledger c id).queued + (messageTasks cfg d m).countP
          fun t => t.conn = c ∧ t.request.awaits = some id } := by
    simp only [ledger, List.countP_append]
  rcases Decidable.em (m.command = .LOGOUT) with hlogout | hlogout
  · have hquiet : Quiet (.reply code (m.header .CommandId)) := by
      rw [hlogout] at hconfirm
      obtain rfl := Option.some.inj hconfirm
      exact quiet_reply rfl rfl _
    have hwritten : (s.startWrite d (.reply code (m.header .CommandId))).ledger c id =
        s.ledger c id := ledger_startWrite hquiet d s
    have hnone : (messageTasks cfg d m).countP
        (fun t => t.conn = c ∧ t.request.awaits = some id) = 0 := by
      simp [messageTasks, hlogout, Request.awaits]
    rw [hposted, writeReply, hwritten, hnone]
    exact .same
  · have hconfirms : code.confirms = true := by
      cases hcommand : m.command <;> rw [hcommand] at hconfirm <;> cases hconfirm <;>
        first | rfl | exact absurd hcommand hlogout
    have hconcludes : code.concludes = false := by
      cases code <;> first | rfl | cases hconfirms
    by_cases hof : d = c ∧ m.header .CommandId = id
    · obtain ⟨rfl, rfl⟩ := hof
      have hall : (messageTasks cfg d m).countP
          (fun t => t.conn = d ∧ t.request.awaits = some (m.header .CommandId)) =
          (messageTasks cfg d m).length := List.countP_eq_length.mpr fun t ht =>
        decide_eq_true (awaits_of_mem_messageTasks ht hlogout)
      have hlength := length_messageTasks_le (d := d) hdistinct hconfirm
      have hwritten : (s.writeReply code (m.header .CommandId) d).ledger d (m.header .CommandId) =
          { s.ledger d (m.header .CommandId) with
            confirmed := (s.ledger d (m.header .CommandId)).confirmed + 1 } := by
        simp [ledger, writeReply, startWrite, Outgoing.confirms, hconfirms,
          Outgoing.concludes, hconcludes]
      rw [hposted, hwritten, hall]
      exact .post _ halive hlength.1 hlength.2
    · have hnone : (messageTasks cfg d m).countP
          (fun t => t.conn = c ∧ t.request.awaits = some id) = 0 := by
        refine List.countP_eq_zero.mpr fun t ht hcounted => hof ?_
        obtain ⟨hconn, hawaits⟩ := awaits_of_mem_messageTasks ht hlogout
        obtain ⟨hc, hid⟩ := of_decide_eq_true hcounted
        exact ⟨hconn.symm.trans hc, Option.some.inj (hawaits.symm.trans hid)⟩
      have hwritten : (s.writeReply code (m.header .CommandId) d).ledger c id = s.ledger c id := by
        simp only [ledger, writeReply, startWrite, Function.update_apply]
        split
        · next hdc =>
          have hid : ¬ m.header .CommandId = id := fun hid => hof ⟨hdc.symm, hid⟩
          subst hdc
          simp [Outgoing.confirms, Outgoing.concludes, hid]
        · rfl
      rw [hposted, hwritten, hnone]
      exact .same

/-- Every step of the server is one of its ledgers. -/
theorem step_ledger {cfg : Config} (hdistinct : cfg.TypesDistinct) {s s' : Server} {e : Event}
    (hsound : s.queries.Sound) (hconclusive : s.core.Conclusive) (h : s.step cfg e = some s') :
    LedgerStep (s.alive c = true) (e.KnownType cfg) (s.ledger c id) (s'.ledger c id) := by
  have same : s'.ledger c id = s.ledger c id →
      LedgerStep (s.alive c = true) (e.KnownType cfg) (s.ledger c id) (s'.ledger c id) :=
    fun heq => heq ▸ .same
  cases transition_of_step h with
  | accept => exact .same
  | heartbeat => exact same (ledger_startWrite (fun _ => ⟨rfl, rfl⟩) _ s)
  | refuse _ herror => exact same (ledger_startWrite (quiet_of_readError herror) _ s)
  | reply => exact ledgerStep_resolveDownloadReply ..
  | post halive _ hconfirm => exact ledgerStep_post hdistinct halive hconfirm
  | execute => exact ledgerStep_execute _ (hsound.entry_eq_none rfl) h
  | expired => exact ledgerStep_execute _ (hsound.entry_eq_none rfl) h
  | resume hi =>
    exact ledgerStep_resumeHandler _ hi fun hrest =>
      hconclusive.running _ (List.mem_of_getElem? hi) hrest
  | stop => exact same ((deaf_ledger c id).stop ..)
  | sharedWrite => exact same ((deaf_ledger c id).sharedWriteCompleted ..)
  | backupTimer => exact ledgerStep_answered concludes_denyDownload _ _ rfl rfl
  | @transactionTimer key =>
    rw [transactionTimerExpired, ledger_endDownloadTransaction]
    exact ledgerStep_answered concludes_denyDownload _ _ rfl rfl
  | helloSender =>
    refine same ?_
    unfold tryStartDownloadTransaction
    split <;> rfl
  | transferCompleted => exact ledgerStep_transferCompleted ..
  | uploadCompleted =>
    refine same ?_
    unfold endUploadTransaction
    split <;> rfl

end Server

/-! ## Whole runs -/

namespace Server

/-- What every run keeps. -/
structure Settled (s : Server) : Prop where
  sound : s.Sound
  conclusive : s.core.Conclusive
  base : s.core.Base
  /-- Nothing is said to a connection before it is accepted. -/
  fresh : ∀ c id, s.registry.accepted ≤ c → (s.ledger c id).confirmed = 0 ∧
    (s.ledger c id).due = 0
  le : ∀ c id, (s.ledger c id).due ≤ (s.ledger c id).confirmed

theorem settled_initial (cfg : Config) (users : List (Str × Str)) :
    (Server.initial cfg users).Settled where
  sound := sound_initial cfg users
  conclusive := ⟨fun _ h => absurd h List.not_mem_nil, fun _ h => absurd h List.not_mem_nil⟩
  base := Core.base_initial cfg users
  fresh := fun _ _ _ => ⟨rfl, rfl⟩
  le := fun _ _ => Nat.le_refl 0

theorem Settled.step {cfg : Config} (hdistinct : cfg.TypesDistinct) {s s' : Server} {e : Event}
    (h : s.Settled) (hstep : s.step cfg e = some s') : s'.Settled where
  sound := h.sound.step hstep
  conclusive := h.conclusive.step (step_core hstep)
  base := h.base.step (step_core hstep)
  fresh := fun c id hc => by
    have hold : s.registry.accepted ≤ c := (Core.accepted_le_step (step_core hstep)).trans hc
    have hgone : ¬ s.alive c = true := fun halive =>
      absurd (h.base.lt_of_alive (alive_iff.mp halive)) (Nat.not_lt.mpr hold)
    have hledger : LedgerStep (s.alive c = true) _ (s.ledger c id) (s'.ledger c id) :=
      step_ledger hdistinct h.sound.2 h.conclusive hstep
    obtain ⟨hconfirmed, hdue⟩ := hledger.gone hgone
    obtain ⟨hzero, hnone⟩ := h.fresh c id hold
    exact ⟨hconfirmed.trans hzero, Nat.le_zero.mp (hdue.trans_eq hnone)⟩
  le := fun c id => by
    have hledger : LedgerStep (s.alive c = true) _ (s.ledger c id) (s'.ledger c id) :=
      step_ledger hdistinct h.sound.2 h.conclusive hstep
    have hle := hledger.due_le
    have hold := h.le c id
    omega

end Server

/-- In every run, for every connection and every id: the requests that were concluded, together
with those that a task, a handler or an entry on hold will conclude, are not more than those that
were confirmed. So no request is concluded twice, and none that was not confirmed. -/
theorem replies_of_confirmed {cfg : Config} (hdistinct : cfg.TypesDistinct)
    {users : List (Str × Str)} {s : Server}
    (h : Reach (Server.step cfg) anyStep (Server.initial cfg users) s) (c : ConnId) (id : Str) :
    (s.ledger c id).concluded + (s.ledger c id).queued + (s.ledger c id).handled +
      (s.ledger c id).onHold ≤ (s.ledger c id).confirmed := by
  have hsettled : s.Settled := h.invariant (settled_initial cfg users)
    fun _ _ _ hs _ hstep => hs.step hdistinct hstep
  exact hsettled.le c id

open Server.Event in
/-- A query is on hold while its client asks again under the same id. -/
theorem replies_of_confirmed_on_hold :
    ∃ s, Reach (Server.step sampleConfig) anyStep (Server.initial sampleConfig []) s ∧
      s.ledger 1 ['3'] = ⟨2, 0, 1, 0, 1⟩ ∧ (s.ledger 1 ['3']).concluded +
        (s.ledger 1 ['3']).queued + (s.ledger 1 ['3']).handled + (s.ledger 1 ['3']).onHold ≤
          (s.ledger 1 ['3']).confirmed := by
  obtain ⟨s, hs, hledger⟩ := exists_reach_of_exec (Server.step sampleConfig)
    (Server.initial sampleConfig []) (fun s => s.ledger 1 ['3'] = ⟨2, 0, 1, 0, 1⟩)
    (querryOfFile ++ [readQuerry 1 ['d'] ['f'] [(.FileOwner, ['a'])]]) (by decide +kernel)
  have hdistinct : sampleConfig.TypesDistinct := by decide
  exact ⟨s, hs, hledger, replies_of_confirmed hdistinct hs 1 ['3']⟩

/-- While each query that is read has one of the four types, nothing that was confirmed is lost
for a connection that exists. -/
theorem Server.due_eq_confirmed {cfg : Config} (hdistinct : cfg.TypesDistinct)
    {users : List (Str × Str)} {s : Server}
    (h : Reach (Server.step cfg) (fun _ e => e.KnownType cfg) (Server.initial cfg users) s) :
    s.Settled ∧ ∀ c id, s.alive c = true → (s.ledger c id).due = (s.ledger c id).confirmed := by
  refine h.invariant (I := fun s => s.Settled ∧
    ∀ c id, s.alive c = true → (s.ledger c id).due = (s.ledger c id).confirmed)
    ⟨settled_initial cfg users, fun _ _ _ => rfl⟩ fun s e s' hs hknown hstep =>
      ⟨hs.1.step hdistinct hstep, fun c id hc => ?_⟩
  have hledger : LedgerStep (s.alive c = true) _ (s.ledger c id) (s'.ledger c id) :=
    step_ledger hdistinct hs.1.sound.2 hs.1.conclusive hstep
  by_cases hold : s.alive c = true
  · have hkept := hledger.due_eq hold hknown
    have hequal := hs.2 c id hold
    omega
  · -- the connection was accepted by the step
    obtain ⟨hconfirmed, hdue⟩ := hledger.gone hold
    have hnew : s.registry.accepted ≤ c := Nat.not_lt.mp fun hlt =>
      (Core.Gone.step ⟨hlt, fun hcore => hold (alive_iff.mpr hcore)⟩ (step_core hstep)).2
        (alive_iff.mp hc)
    obtain ⟨hzero, hnone⟩ := hs.1.fresh c id hnew
    omega

open Server.Event in
/-- A query of another type is confirmed, and nothing will conclude it. -/
theorem unknown_type_not_concluded :
    ∃ s, Reach (Server.step sampleConfig) anyStep (Server.initial sampleConfig []) s ∧
      s.alive 0 = true ∧ s.ledger 0 ['3'] = ⟨1, 0, 0, 0, 0⟩ :=
  exists_reach_of_exec (Server.step sampleConfig) (Server.initial sampleConfig [])
    (fun s => s.alive 0 = true ∧ s.ledger 0 ['3'] = ⟨1, 0, 0, 0, 0⟩)
    ([.accept 0] ++ login 0 ['a'] ++ register 0 [] ++ [readQuerry 0 ['x'] ['f'] []])
    (by decide +kernel)

end FspServer
