import FspServer.OwnerQueries

/-!
# The owner's reply

`resolve_download_file_querry` sends the query to the owner first and registers the
waiting request afterwards, under the value that the shared counter has by then. The
owner's reply is read on another thread and may come in between: then its id is
unknown, and the reply is dropped although a requester waits.

In every run, an approving reply to a query finds the request of the query in the
entry with its id, or those who waited in that entry have been answered, exactly when
the request was inserted under that id before (`Asking.finds_iff_registered`).
-/

namespace FspServer

open Runs Server

namespace Asking

/-- The entry with the id holds the request, or it did until it was removed. -/
def Recorded (a : Asking) (id : Nat) (r : DownloadRequest) : Prop :=
  r ∈ a.server.queries.waiting id ∨ ∃ p ∈ a.removed, p.id = id ∧ r ∈ p.requests

/-- The entry with the id holds the request of the query, or it did, and those who
waited in it have all been answered. -/
def FoundOrAnswered (a : Asking) (id : Nat) (x : OwnerQuery) : Prop :=
  (∃ entry ∈ a.server.downloads.backedupRequests[id]?, x.request ∈ entry.info.requests) ∨
    ∃ p ∈ a.removed, p.id = id ∧ x.request ∈ p.requests ∧
      ∀ r ∈ p.waiting, r.ticket ∈ a.server.downloads.answers.map (·.ticket)

instance (a : Asking) (id : Nat) (x : OwnerQuery) : Decidable (a.FoundOrAnswered id x) :=
  inferInstanceAs (Decidable ((∃ entry ∈ _, _) ∨ ∃ p ∈ _, _))

/-- If the message approves queries that were sent to an owner, it finds each of them
or the answers to those who waited with it. -/
def Finds (cfg : Config) (a : Asking) (m : Message) : Prop :=
  ∀ p ∈ a.asked, p.1 ∈ m.approves cfg → a.FoundOrAnswered p.1 p.2

instance (cfg : Config) (a : Asking) (m : Message) : Decidable (a.Finds cfg m) :=
  inferInstanceAs (Decidable (∀ p ∈ _, _ → _))

/-- The requests of the queries that the message approves were inserted under the id
with which their owner was asked. -/
def Registered (cfg : Config) (a : Asking) (m : Message) : Prop :=
  ∀ p ∈ a.asked, p.1 ∈ m.approves cfg → p ∈ a.inserted

instance (cfg : Config) (a : Asking) (m : Message) : Decidable (a.Registered cfg m) :=
  inferInstanceAs (Decidable (∀ p ∈ _, _ → _))

/-! ## Entries that are removed -/

theorem mem_removedEntries {s s' : Server} {p : Removed} (h : p ∈ removedEntries s s') :
    ∃ entry, s.queries.entry p.id = some entry ∧ s'.queries.entry p.id = none ∧
      p.requests = entry.info.requests ∧
      p.waiting = entry.info.requests.filter fun r => s.alive r.conn := by
  obtain ⟨e, he, rfl⟩ := List.mem_map.mp h
  obtain ⟨hmem, hgone⟩ := List.mem_filter.mp he
  refine ⟨e.2, Std.TreeMap.mem_toList_iff_getElem?_eq_some.mp hmem, ?_, rfl, rfl⟩
  have hnot : s'.downloads.backedupRequests.contains e.1 = false := by simpa using hgone
  rw [Std.TreeMap.contains_eq_isSome_getElem?] at hnot
  exact Option.not_isSome_iff_eq_none.mp (hnot ▸ Bool.false_ne_true)

/-- An entry that a step removes is recorded. -/
theorem exists_removedEntries {s s' : Server} {id : Nat} {entry : Backup}
    (hentry : s.queries.entry id = some entry) (hgone : s'.queries.entry id = none) :
    ∃ p ∈ removedEntries s s', p.id = id ∧ p.requests = entry.info.requests := by
  have hgone' : s'.downloads.backedupRequests[id]? = none := hgone
  have hmem : (id, entry) ∈ s.downloads.backedupRequests.toList :=
    Std.TreeMap.mem_toList_iff_getElem?_eq_some.mpr hentry
  refine ⟨_, List.mem_map_of_mem (List.mem_filter.mpr ⟨hmem, ?_⟩), rfl, rfl⟩
  rw [Std.TreeMap.contains_eq_isSome_getElem?, hgone']
  rfl

theorem mem_waiting {q : Queries} {id : Nat} {r : DownloadRequest} :
    r ∈ q.waiting id ↔ ∃ entry, q.entry id = some entry ∧ r ∈ entry.info.requests := by
  rcases hentry : q.entry id with _ | entry <;> simp [Queries.waiting, hentry]

/-- A step that puts no query on hold loses no record and makes none. -/
theorem recorded_setServer {a : Asking} {s' : Server}
    (hquiet : Queries.Quiet a.server s'.queries) (id : Nat) (r : DownloadRequest) :
    (a.setServer s').Recorded id r ↔ a.Recorded id r := by
  constructor
  · rintro (hr | ⟨p, hp, rfl, hr⟩)
    · obtain ⟨entry', he, hr⟩ := mem_waiting.mp hr
      obtain ⟨entry, hentry, hinfo⟩ := hquiet.info id entry' he
      exact Or.inl (mem_waiting.mpr ⟨entry, hentry, hinfo ▸ hr⟩)
    · rcases List.mem_append.mp hp with hp | hp
      · obtain ⟨entry, hentry, -, hrequests, -⟩ := mem_removedEntries hp
        exact Or.inl (mem_waiting.mpr ⟨entry, hentry, hrequests ▸ hr⟩)
      · exact Or.inr ⟨p, hp, rfl, hr⟩
  · rintro (hr | ⟨p, hp, hid, hr⟩)
    · obtain ⟨entry, hentry, hr⟩ := mem_waiting.mp hr
      rcases hgone : s'.queries.entry id with _ | entry'
      · obtain ⟨p, hp, hid, hrequests⟩ := exists_removedEntries hentry hgone
        exact Or.inr ⟨p, List.mem_append_left _ hp, hid, hrequests ▸ hr⟩
      · obtain ⟨entry'', hentry'', hinfo⟩ := hquiet.info id entry' hgone
        obtain rfl := Option.some.inj (hentry.symm.trans hentry'')
        exact Or.inl (mem_waiting.mpr ⟨entry', hgone, hinfo ▸ hr⟩)
    · exact Or.inr ⟨p, List.mem_append_right _ hp, hid, hr⟩

/-- A request is added to an entry. -/
theorem recorded_cons {a a' : Asking} {j : Nat} {new : DownloadRequest}
    (hwaiting : ∀ id, a'.server.queries.waiting id =
      if id = j then new :: a.server.queries.waiting j else a.server.queries.waiting id)
    (hremoved : a'.removed = a.removed) (id : Nat) (r : DownloadRequest) :
    a'.Recorded id r ↔ a.Recorded id r ∨ id = j ∧ r = new := by
  rw [Recorded, Recorded, hwaiting, hremoved]
  by_cases hid : id = j
  · subst hid
    rw [if_pos rfl, List.mem_cons, or_assoc, or_comm]
    simp
  · simp [hid]

/-! ## The invariant -/

/-- The tickets of the queries under way are all different, and a request with such a
ticket is recorded exactly where its query was inserted. -/
structure Sound (a : Asking) : Prop where
  codes : a.server.core.LoginCodes
  ticket_lt : ∀ x ∈ a.found ++ a.queries, x.request.ticket < a.server.queries.executed
  distinct : ((a.found ++ a.queries).map (·.request.ticket)).Nodup
  recorded_lt : ∀ id r, a.Recorded id r → r.ticket < a.server.queries.executed
  fresh : ∀ id r, a.Recorded id r → ∀ x ∈ a.found, x.request.ticket ≠ r.ticket
  known : ∀ id r, a.Recorded id r → ∀ x ∈ a.queries, x.request.ticket = r.ticket →
    (id, x) ∈ a.inserted
  kept : ∀ p ∈ a.inserted, a.Recorded p.1 p.2.request
  asked : ∀ p ∈ a.asked, p.2 ∈ a.queries
  answered : ∀ p ∈ a.removed, ∀ r ∈ p.waiting, r.ticket ∈ a.server.queries.answered

theorem sound_initial (cfg : Config) (users : List (Str × Str)) : (initial cfg users).Sound where
  codes := Core.loginCodes_initial cfg users
  ticket_lt _ h := absurd h List.not_mem_nil
  distinct := List.nodup_nil
  recorded_lt _ _ h := by
    simp [Recorded, mem_waiting, initial, Server.initial, Server.queries] at h
  fresh _ _ _ _ h := absurd h List.not_mem_nil
  known _ _ _ _ h := absurd h List.not_mem_nil
  kept _ h := absurd h List.not_mem_nil
  asked _ h := absurd h List.not_mem_nil
  answered _ h := absurd h List.not_mem_nil

namespace Sound

variable {cfg : Config} {a a' : Asking}

/-- Steps that neither record a request nor let a query go on to another list. -/
theorem of_recorded (h : a.Sound) (hcodes : a'.server.core.LoginCodes)
    (hrecorded : ∀ id r, a'.Recorded id r ↔ a.Recorded id r) (hfound : a'.found = a.found)
    (hqueries : a'.queries = a.queries) (hinserted : a'.inserted = a.inserted)
    (hasked : ∀ p ∈ a'.asked, p ∈ a.asked ∨ p.2 ∈ a.queries)
    (hexecuted : a.server.queries.executed ≤ a'.server.queries.executed)
    (hanswered : ∀ p ∈ a'.removed, ∀ r ∈ p.waiting, r.ticket ∈ a'.server.queries.answered) :
    a'.Sound where
  codes := hcodes
  ticket_lt x hx := by
    rw [hfound, hqueries] at hx
    exact (h.ticket_lt x hx).trans_le hexecuted
  distinct := by rw [hfound, hqueries]; exact h.distinct
  recorded_lt id r hr := (h.recorded_lt id r ((hrecorded id r).mp hr)).trans_le hexecuted
  fresh id r hr := hfound ▸ h.fresh id r ((hrecorded id r).mp hr)
  known id r hr := by rw [hqueries, hinserted]; exact h.known id r ((hrecorded id r).mp hr)
  kept p hp := (hrecorded _ _).mpr (h.kept p (hinserted ▸ hp))
  asked p hp := hqueries ▸ (hasked p hp).elim (h.asked p) id
  answered := hanswered

/-- A step of the server that puts no query on hold. -/
theorem setServer (h : a.Sound) {s' : Server} (hcodes : s'.core.LoginCodes)
    (hquiet : Queries.Quiet a.server s'.queries) : (a.setServer s').Sound := by
  refine h.of_recorded hcodes (recorded_setServer hquiet) rfl rfl rfl (fun _ hp => Or.inl hp)
    hquiet.executed fun p hp r hr => ?_
  rcases List.mem_append.mp hp with hp | hp
  · obtain ⟨entry, hentry, hgone, -, hwaiting⟩ := mem_removedEntries hp
    obtain ⟨hr, halive⟩ := List.mem_filter.mp (hwaiting ▸ hr)
    exact hquiet.removed p.id entry hentry hgone r hr halive
  · exact hquiet.answered _ (h.answered p hp r hr)

/-- A query comes under way. -/
theorem find (h : a.Sound) {server : Server} {x : OwnerQuery}
    (hcodes : server.core.LoginCodes)
    (hqueries : server.queries =
      { a.server.queries with executed := a.server.queries.executed + 1 })
    (hticket : x.request.ticket = a.server.queries.executed) :
    { a with server, found := a.found ++ [x] }.Sound := by
  have hexecuted : server.queries.executed = a.server.queries.executed + 1 :=
    congrArg Queries.executed hqueries
  have hrecorded : ∀ id r, ({ a with server, found := a.found ++ [x] } : Asking).Recorded id r ↔
      a.Recorded id r := by
    intro id r
    rw [Recorded, Recorded, show server.queries.waiting = a.server.queries.waiting by
      rw [hqueries]; rfl]
  have hmem : ∀ y ∈ a.found ++ [x] ++ a.queries, y = x ∨ y ∈ a.found ++ a.queries := by
    intro y hy
    simp only [List.mem_append, List.mem_singleton] at hy ⊢
    tauto
  constructor
  · exact hcodes
  · intro y hy
    show _ < server.queries.executed
    rcases hmem y hy with rfl | hy
    · omega
    · have hlt := h.ticket_lt y hy
      omega
  · have hnew : ∀ y ∈ a.found ++ a.queries, y.request.ticket ≠ x.request.ticket := fun y hy =>
      (h.ticket_lt y hy).ne.trans_eq hticket.symm
    have hperm : (a.found ++ [x] ++ a.queries).Perm (x :: (a.found ++ a.queries)) := by
      rw [List.append_assoc]
      exact List.perm_middle
    refine ((hperm.map _).nodup_iff).mpr (List.nodup_cons.mpr ⟨fun hx => ?_, h.distinct⟩)
    obtain ⟨y, hy, heq⟩ := List.mem_map.mp hx
    exact hnew y hy heq
  · intro id r hr
    show _ < server.queries.executed
    have hlt := h.recorded_lt id r ((hrecorded id r).mp hr)
    omega
  · intro id r hr y hy
    have hold := (hrecorded id r).mp hr
    rcases List.mem_append.mp hy with hy | hy
    · exact h.fresh id r hold y hy
    · rw [List.mem_singleton.mp hy, hticket]
      exact (h.recorded_lt id r hold).ne'
  · exact fun id r hr => h.known id r ((hrecorded id r).mp hr)
  · exact fun p hp => (hrecorded _ _).mpr (h.kept p hp)
  · exact h.asked
  · intro p hp r hr
    show _ ∈ server.queries.answered
    rw [hqueries]
    exact h.answered p hp r hr

theorem found_perm {i : Nat} {x : OwnerQuery} (hi : a.found[i]? = some x) :
    (a.found ++ a.queries).Perm (x :: (a.found.eraseIdx i ++ a.queries)) := by
  obtain ⟨hlt, rfl⟩ := List.getElem?_eq_some_iff.mp hi
  exact (List.getElem_cons_eraseIdx_perm hlt).symm.append_right _

/-- A query is one of those that have found their owner; the others have other tickets. -/
theorem others (h : a.Sound) {i : Nat} {x : OwnerQuery} (hi : a.found[i]? = some x) :
    ((a.found.eraseIdx i ++ a.queries).map (·.request.ticket)).Nodup ∧
      ∀ y ∈ a.found.eraseIdx i ++ a.queries, y ∈ a.found ++ a.queries ∧
        y.request.ticket ≠ x.request.ticket := by
  have hperm := found_perm hi
  obtain ⟨hnew, hnodup⟩ :=
    List.nodup_cons.mp ((hperm.map fun y => y.request.ticket).nodup_iff.mp h.distinct)
  exact ⟨hnodup, fun y hy => ⟨hperm.mem_iff.mpr (List.mem_cons_of_mem _ hy),
    fun heq => hnew (List.mem_map.mpr ⟨y, hy, heq⟩)⟩⟩

/-- A request joins the entry of another query. -/
theorem join (h : a.Sound) {i : Nat} {x : OwnerQuery} (hi : a.found[i]? = some x)
    {downloads : Downloads} (hjoin : a.server.downloads.isDownloadPending x.fileOwner x.filePath
      x.request = some downloads) :
    { a with
      found := a.found.eraseIdx i
      server.downloads := { downloads with held := x.request.ticket :: downloads.held }
    }.Sound := by
  obtain ⟨j, entry, hentry, hstore⟩ := entry_of_isDownloadPending hjoin
  have hexecuted : downloads.executed = a.server.queries.executed :=
    congrArg Queries.executed hstore
  have hanswers : downloads.answers = a.server.queries.answers :=
    congrArg Queries.answers hstore
  have hx : x ∈ a.found := List.mem_of_getElem? hi
  obtain ⟨hfound, hless⟩ := h.others hi
  have hrecorded : ∀ id r, ({ a with
      found := a.found.eraseIdx i
      server.downloads := { downloads with held := x.request.ticket :: downloads.held } } :
        Asking).Recorded id r ↔ a.Recorded id r ∨ id = j ∧ r = x.request := by
    refine recorded_cons (fun id => ?_) rfl
    refine (congrArg (fun q => Queries.waiting q id) hstore).trans ?_
    rw [Queries.waiting_store]
    simp [Queries.waiting, hentry]
  constructor
  · exact h.codes
  · intro y hy
    show _ < downloads.executed
    exact hexecuted ▸ h.ticket_lt y (hless y hy).1
  · exact hfound
  · intro id r hr
    show _ < downloads.executed
    rw [hexecuted]
    rcases (hrecorded id r).mp hr with hr | ⟨-, rfl⟩
    · exact h.recorded_lt id r hr
    · exact h.ticket_lt x (List.mem_append_left _ hx)
  · intro id r hr y hy
    rcases (hrecorded id r).mp hr with hr | ⟨-, rfl⟩
    · exact h.fresh id r hr y (List.mem_of_mem_eraseIdx hy)
    · exact (hless y (List.mem_append_left _ hy)).2
  · intro id r hr y hy heq
    rcases (hrecorded id r).mp hr with hr | ⟨-, rfl⟩
    · exact h.known id r hr y hy heq
    · exact absurd heq (hless y (List.mem_append_right _ hy)).2
  · exact fun p hp => (hrecorded _ _).mpr (Or.inl (h.kept p hp))
  · exact h.asked
  · intro p hp r hr
    show _ ∈ downloads.answers.map (·.ticket)
    rw [hanswers]
    exact h.answered p hp r hr

/-- A query passes the check. -/
theorem pass (h : a.Sound) {i : Nat} {x : OwnerQuery} (hi : a.found[i]? = some x)
    (stage : Nat → Stage) :
    { a with found := a.found.eraseIdx i, queries := a.queries ++ [x], stage }.Sound := by
  have hx : x ∈ a.found := List.mem_of_getElem? hi
  have hperm : (a.found ++ a.queries).Perm (a.found.eraseIdx i ++ (a.queries ++ [x])) := by
    rw [← List.append_assoc]
    exact (found_perm hi).trans (List.perm_append_singleton x _).symm
  constructor
  · exact h.codes
  · exact fun y hy => h.ticket_lt y (hperm.mem_iff.mpr hy)
  · exact (hperm.map _).nodup_iff.mp h.distinct
  · exact h.recorded_lt
  · exact fun id r hr y hy => h.fresh id r hr y (List.mem_of_mem_eraseIdx hy)
  · intro id r hr y hy heq
    rcases List.mem_append.mp hy with hy | hy
    · exact h.known id r hr y hy heq
    · rw [List.mem_singleton.mp hy] at heq
      exact absurd heq (h.fresh id r hr x hx)
  · exact h.kept
  · exact fun p hp => List.mem_append_left _ (h.asked p hp)
  · exact h.answered

/-- The request of a query is inserted. -/
theorem emplace (h : a.Sound) {q key : Nat} {x : OwnerQuery} (hx : x ∈ a.queries) :
    (a.emplace q key x).Sound := by
  unfold Asking.emplace
  split
  · exact ⟨h.codes, h.ticket_lt, h.distinct, h.recorded_lt, h.fresh, h.known, h.kept, h.asked,
      h.answered⟩
  · next hfree =>
    have hnone : a.server.queries.entry key = none := by
      rw [Std.TreeMap.contains_eq_isSome_getElem?] at hfree
      exact Option.not_isSome_iff_eq_none.mp hfree
    have hqueries : ({ a.server with downloads.backedupRequests :=
        a.server.downloads.backedupRequests.insert key ⟨x.info, false⟩ } : Server).queries =
          a.server.queries.store key ⟨x.info, false⟩ := by
      simp only [Server.queries, Queries.store, Lookup.getElem?_insert_eq_update]
    generalize ha' : Asking.setStage q .stored _ = a'
    have hrecorded : ∀ id r, a'.Recorded id r ↔ a.Recorded id r ∨ id = key ∧ r = x.request := by
      subst ha'
      refine recorded_cons (fun id => ?_) rfl
      refine (congrArg (fun q => Queries.waiting q id) hqueries).trans ?_
      rw [Queries.waiting_store]
      simp [Queries.waiting, hnone, OwnerQuery.info]
    subst ha'
    constructor
    · exact h.codes
    · exact h.ticket_lt
    · exact h.distinct
    · intro id r hr
      rcases (hrecorded id r).mp hr with hr | ⟨-, rfl⟩
      · exact h.recorded_lt id r hr
      · exact h.ticket_lt x (List.mem_append_right _ hx)
    · intro id r hr y hy
      rcases (hrecorded id r).mp hr with hr | ⟨-, rfl⟩
      · exact h.fresh id r hr y hy
      · have hnodup := h.distinct
        rw [List.map_append] at hnodup
        exact (List.nodup_append.mp hnodup).2.2 _ (List.mem_map_of_mem hy) _
          (List.mem_map_of_mem hx)
    · intro id r hr y hy heq
      rcases (hrecorded id r).mp hr with hr | ⟨rfl, rfl⟩
      · exact List.mem_cons_of_mem _ (h.known id r hr y hy heq)
      · obtain rfl : y = x := List.inj_on_of_nodup_map h.distinct (List.mem_append_right _ hy)
          (List.mem_append_right _ hx) heq
        exact List.mem_cons_self
    · intro p hp
      rcases List.mem_cons.mp hp with rfl | hp
      · exact (hrecorded _ _).mpr (Or.inr ⟨rfl, rfl⟩)
      · exact (hrecorded _ _).mpr (Or.inl (h.kept p hp))
    · exact h.asked
    · exact h.answered

theorem check (h : a.Sound) {i : Nat} (hs : a.check i = some a') : a'.Sound := by
  obtain ⟨-, hs⟩ := Option.ite_none_left_eq_some.mp hs
  obtain ⟨x, hi, rfl⟩ := Option.map_eq_some_iff.mp hs
  dsimp only
  split
  · next downloads hjoin => exact h.join hi hjoin
  · exact h.pass hi _

theorem start (h : a.Sound) {q : Nat} (x : OwnerQuery) : (a.start q x).Sound := by
  unfold Asking.start
  split
  · exact ⟨h.codes, h.ticket_lt, h.distinct, h.recorded_lt, h.fresh, h.known, h.kept, h.asked,
      h.answered⟩
  · next entry hentry =>
    have hwaiting : ∀ id : Nat, Queries.waiting { a.server.queries with
        entry := fun j => (a.server.downloads.backedupRequests.insert a.counter
          { entry with timerArmed := true })[j]? } id = a.server.queries.waiting id := by
      intro id
      rw [Lookup.getElem?_insert_eq_update]
      refine (Queries.waiting_store a.server.queries a.counter _ id).trans ?_
      split
      · next hid => simp [hid, Queries.waiting, Server.queries, hentry]
      · rfl
    refine h.of_recorded h.codes (fun id r => ?_) rfl rfl rfl (fun _ hp => Or.inl hp) le_rfl
      h.answered
    rw [Recorded, Recorded, ← hwaiting id]
    rfl

theorem timer (h : a.Sound) {id : Nat} (hs : a.timer id = some a') : a'.Sound := by
  obtain ⟨-, hs⟩ := Option.ite_none_left_eq_some.mp hs
  obtain ⟨entry, hentry, hs⟩ := Option.bind_eq_some_iff.mp hs
  obtain ⟨-, hs⟩ := Option.ite_none_right_eq_some.mp hs
  obtain rfl := Option.some.inj hs
  refine h.setServer ?_ (Queries.Quiet.expired hentry _)
  rw [blind_core.backupTimerExpired]
  exact h.codes

theorem serverStep (h : a.Sound) {e : Server.Event}
    (hs : a.serverStep cfg e = some a') : a'.Sound := by
  obtain ⟨-, hs⟩ := Option.ite_none_left_eq_some.mp hs
  split at hs
  · cases hs
  · split at hs
    · next server x hquery =>
      obtain rfl := Option.some.inj hs
      obtain ⟨hcore, hqueries, hticket, -, -⟩ := ownerQuery_spec hquery
      refine h.find ?_ hqueries hticket
      rw [hcore]
      exact ⟨fun _ _ hf => hf.elim, h.codes.running⟩
    · next hquery =>
      obtain ⟨s', hs', rfl⟩ := Option.map_eq_some_iff.mp hs
      have hcodes : ∀ r ∈ a.server.running, ¬ r.rest.Misanswers := fun r hr hm =>
        h.codes.running r hr hm
      exact h.setServer (h.codes.step (step_core hs')) (Queries.Quiet.of_queryStep
        (step_queries hcodes hs') (held_of_ownerQuery hcodes hquery hs'))

theorem advance (h : a.Sound) {q : Nat} (hs : a.advance q = some a') : a'.Sound := by
  obtain ⟨x, hx, hs⟩ := Option.bind_eq_some_iff.mp hs
  have hmem : x ∈ a.queries := List.mem_of_getElem? hx
  -- steps that touch no entry
  have same : ∀ {b : Asking}, b.server.core = a.server.core →
      b.server.queries.entry = a.server.queries.entry → b.removed = a.removed →
      b.found = a.found → b.queries = a.queries → b.inserted = a.inserted →
      (∀ p ∈ b.asked, p ∈ a.asked ∨ p.2 ∈ a.queries) →
      b.server.queries.executed = a.server.queries.executed →
      b.server.queries.answers = a.server.queries.answers → b.Sound := by
    intro b hcore hentry hremoved hfound hqueries hinserted hasked hexecuted hanswers
    refine h.of_recorded (hcore ▸ h.codes) (fun id r => ?_) hfound hqueries hinserted hasked
      hexecuted.ge fun p hp r hr => ?_
    · rw [Recorded, Recorded, hremoved, Queries.waiting, Queries.waiting, hentry]
    · rw [Queries.answered, hanswers]
      exact h.answered p (hremoved ▸ hp) r hr
  split at hs
  · cases hs
  · obtain rfl := Option.some.inj hs
    exact same rfl rfl rfl rfl rfl rfl (fun _ hp => Or.inl hp) rfl rfl
  · obtain rfl := Option.some.inj hs
    refine same rfl rfl rfl rfl rfl rfl (fun p hp => ?_) rfl rfl
    rcases List.mem_cons.mp hp with rfl | hp
    · exact Or.inr hmem
    · exact Or.inl hp
  · obtain rfl := Option.some.inj hs
    exact same rfl rfl rfl rfl rfl rfl (fun _ hp => Or.inl hp) rfl rfl
  · obtain ⟨-, hs⟩ := Option.ite_none_left_eq_some.mp hs
    obtain rfl := Option.some.inj hs
    exact same rfl rfl rfl rfl rfl rfl (fun _ hp => Or.inl hp) rfl rfl
  · obtain rfl := Option.some.inj hs
    exact h.emplace hmem
  · obtain rfl := Option.some.inj hs
    exact h.start x

theorem step (h : a.Sound) {e : Event} (hstep : a.step cfg e = some a') : a'.Sound := by
  obtain ⟨-, hstep⟩ := Option.ite_none_left_eq_some.mp hstep
  cases e with
  | server e => exact h.serverStep hstep
  | check i => exact h.check hstep
  | advance q => exact h.advance hstep
  | timer id => exact h.timer hstep

/-- A query is found or answered exactly where its request is recorded. -/
theorem foundOrAnswered_iff (h : a.Sound) (id : Nat) (x : OwnerQuery) :
    a.FoundOrAnswered id x ↔ a.Recorded id x.request := by
  refine or_congr ⟨fun hfound => ?_, fun hr => ?_⟩ ⟨fun hanswered => ?_, fun hremoved => ?_⟩
  · obtain ⟨entry, hentry, hr⟩ := hfound
    exact mem_waiting.mpr ⟨entry, hentry, hr⟩
  · exact mem_waiting.mp hr
  · obtain ⟨p, hp, hid, hr, -⟩ := hanswered
    exact ⟨p, hp, hid, hr⟩
  · obtain ⟨p, hp, hid, hr⟩ := hremoved
    exact ⟨p, hp, hid, hr, h.answered p hp⟩

end Sound

/-- In every run, an approving reply to a query finds the request in the entry with its
id, or the answers to those who waited there, exactly when the request was inserted
under that id before the reply is read. -/
theorem finds_iff_registered {cfg : Config} {users : List (Str × Str)} {a : Asking}
    (h : Reach (step cfg) anyStep (initial cfg users) a) (m : Message) :
    a.Finds cfg m ↔ a.Registered cfg m := by
  have hsound : a.Sound :=
    h.invariant (sound_initial cfg users) fun _ _ _ hs _ hst => hs.step hst
  constructor
  · intro hfinds p hp hid
    have hrecorded := (hsound.foundOrAnswered_iff p.1 p.2).mp (hfinds p hp hid)
    exact hsound.known p.1 p.2.request hrecorded p.2 (hsound.asked p hp) rfl
  · intro hregistered p hp hid
    exact (hsound.foundOrAnswered_iff p.1 p.2).mpr (hsound.kept p (hregistered p hp hid))

/-- The reply with which an owner approves the download that has the first id. -/
def approval : Message :=
  ⟨.REPLY, [(.CommandId, ['2']), (.ReplyCode, ['y']), (.FileSize, ['1'])], []⟩

/-- The request is inserted, and then its owner approves it. -/
theorem finds_approval_after_registration :
    ∃ a, Reach (step sampleConfig) anyStep (initial sampleConfig []) a ∧
      a.asked.map (·.1) = [2] ∧ approval.approves sampleConfig = some 2 ∧
      a.Finds sampleConfig approval := by
  obtain ⟨a, ha, hasked, hregistered⟩ := exists_reach_of_exec (step sampleConfig)
    (initial sampleConfig [])
    (fun a => a.asked.map (·.1) = [2] ∧ a.Registered sampleConfig approval)
    (Server.Event.querryOfFile.map .server ++ .check 0 :: List.replicate 6 (.advance 0))
    (by decide +kernel)
  exact ⟨a, ha, hasked, by decide +kernel, (finds_iff_registered ha approval).mpr hregistered⟩

/-- The owner approves before the request is inserted. The reply is accepted and
dropped, and the request is then inserted and waits. -/
theorem approval_before_registration :
    ∃ a, Reach (step sampleConfig) anyStep (initial sampleConfig []) a ∧
      a.asked.map (·.1) = [2] ∧ a.server.readError sampleConfig 0 approval = none ∧
      approval.approves sampleConfig = some 2 ∧ ¬ a.Finds sampleConfig approval ∧
      ∃ a' ∈ exec (step sampleConfig) a
          (.server (.read 0 approval sampleEnv) :: List.replicate 4 (.advance 0)),
        ∃ entry ∈ a'.server.downloads.backedupRequests[2]?, entry.info.requests.length = 1 := by
  obtain ⟨a, ha, hrest⟩ := exists_reach_of_exec (step sampleConfig) (initial sampleConfig [])
    (fun a => a.asked.map (·.1) = [2] ∧ a.server.readError sampleConfig 0 approval = none ∧
      approval.approves sampleConfig = some 2 ∧ ¬ a.Finds sampleConfig approval ∧
      ∃ a' ∈ exec (step sampleConfig) a
          (.server (.read 0 approval sampleEnv) :: List.replicate 4 (.advance 0)),
        ∃ entry ∈ a'.server.downloads.backedupRequests[2]?, entry.info.requests.length = 1)
    (Server.Event.querryOfFile.map .server ++ [.check 0, .advance 0, .advance 0])
    (by decide +kernel)
  exact ⟨a, ha, hrest⟩

end Asking

end FspServer
