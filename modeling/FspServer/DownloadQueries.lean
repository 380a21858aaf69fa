import FspServer.Queries
import Mathlib.Data.List.Nodup

/-!
# The life of a download query

* `answers_once`: no query is answered twice, in any run.
* `held_recorded`: no query is lost. A query on hold that was not answered is in
  exactly one entry, and that entry has its timer armed or a transaction under
  its id, when every approving reply leaves something armed and an entry is
  removed only while the connections that wait in it exist.
-/

namespace FspServer

open Runs Server

namespace Queries

/-- The query waits in the entry. -/
def Waits (q : Queries) (ticket id : Nat) : Prop := ticket ∈ (q.waiting id).map (·.ticket)

/-- Every query is answered at most once, and none that waits was answered. -/
structure Sound (q : Queries) : Prop where
  known : ∀ id, (q.entry id).isSome → id ≤ q.idCounter
  waits_lt : ∀ t id, q.Waits t id → t < q.executed
  held_lt : ∀ t ∈ q.held, t < q.executed
  answered_lt : ∀ t ∈ q.answered, t < q.executed
  unanswered : ∀ t id, q.Waits t id → t ∉ q.answered
  once : ∀ t id id', q.Waits t id → q.Waits t id' → id = id'
  distinct : ∀ id, ((q.waiting id).map (·.ticket)).Nodup
  answered_nodup : q.answered.Nodup
  logged : ∀ c, q.written c = ((q.answers.filter fun a => a.conn = c).map (·.message)).reverse

theorem not_waits_of_entry_eq_none {q : Queries} {id t : Nat} (h : q.entry id = none) :
    ¬ q.Waits t id := by
  simp [Waits, waiting, h]

/-- The answers written, after one more. -/
theorem logged_answer {q : Queries} (h : ∀ c, q.written c =
      ((q.answers.filter fun a => a.conn = c).map (·.message)).reverse) (a : Answer) :
    ∀ c, (q.answer a).written c =
      (((q.answer a).answers.filter fun a => a.conn = c).map (·.message)).reverse := by
  intro c
  by_cases hc : c = a.conn
  · subst hc
    simp [answer, h]
  · simp [answer, h, hc, Ne.symm hc]

theorem logged_foldl_answer {q : Queries} (h : ∀ c, q.written c =
      ((q.answers.filter fun a => a.conn = c).map (·.message)).reverse) (as : List Answer) :
    ∀ c, (as.foldl answer q).written c =
      (((as.foldl answer q).answers.filter fun a => a.conn = c).map (·.message)).reverse := by
  induction as generalizing q with
  | nil => exact h
  | cons a as ih => exact ih (logged_answer h a)

namespace Sound

variable {q q' : Queries}

/-- Steps that keep what waits in every entry. -/
theorem of_waiting_eq (h : q.Sound) (hwaiting : ∀ id, q'.waiting id = q.waiting id)
    (hknown : ∀ id, (q'.entry id).isSome → (q.entry id).isSome)
    (hid : q'.idCounter = q.idCounter) (hexecuted : q'.executed = q.executed)
    (hheld : q'.held = q.held) (hanswers : q'.answers = q.answers)
    (hwritten : q'.written = q.written) : q'.Sound := by
  have hwaits : ∀ t id, q'.Waits t id ↔ q.Waits t id := fun t id => by
    rw [Waits, Waits, hwaiting]
  have hanswered : q'.answered = q.answered := by rw [answered, answered, hanswers]
  constructor
  · exact fun id hs => hid ▸ h.known id (hknown id hs)
  · exact fun t id hw => hexecuted ▸ h.waits_lt t id ((hwaits t id).mp hw)
  · rw [hheld, hexecuted]
    exact h.held_lt
  · rw [hanswered, hexecuted]
    exact h.answered_lt
  · rw [hanswered]
    exact fun t id hw => h.unanswered t id ((hwaits t id).mp hw)
  · exact fun t id id' hw hw' => h.once t id id' ((hwaits t id).mp hw) ((hwaits t id').mp hw')
  · exact fun id => hwaiting id ▸ h.distinct id
  · exact hanswered ▸ h.answered_nodup
  · rw [hwritten, hanswers]
    exact h.logged

/-- A query is answered when it is executed. -/
theorem answer (h : q.Sound) {a : Answer} (ha : a.ticket = q.executed) :
    { q.answer a with executed := q.executed + 1 }.Sound := by
  have hmem : ∀ t, t ∈ a.ticket :: q.answered → t = q.executed ∨ t ∈ q.answered := fun t ht =>
    (List.mem_cons.mp ht).imp (·.trans ha) id
  constructor
  · exact h.known
  · exact fun t id hw => Nat.lt_succ_of_lt (h.waits_lt t id hw)
  · exact fun t ht => Nat.lt_succ_of_lt (h.held_lt t ht)
  · intro t ht
    rcases hmem t ht with rfl | ht
    · exact Nat.lt_succ_self _
    · exact Nat.lt_succ_of_lt (h.answered_lt t ht)
  · intro t id hw ht
    rcases hmem t ht with rfl | ht
    · exact absurd (h.waits_lt _ id hw) (lt_irrefl _)
    · exact h.unanswered t id hw ht
  · exact h.once
  · exact h.distinct
  · refine List.nodup_cons.mpr ⟨fun ht => ?_, h.answered_nodup⟩
    exact absurd (ha ▸ h.answered_lt _ ht) (lt_irrefl _)
  · exact logged_answer h.logged a

/-- A query is put on hold in an entry. -/
theorem hold (h : q.Sound) (id : Nat) {r : DownloadRequest} (hr : r.ticket = q.executed)
    (hwaiting : ∀ j, q'.waiting j = if j = id then r :: q.waiting id else q.waiting j)
    (hknown : ∀ j, (q'.entry j).isSome → j ≤ q'.idCounter)
    (hexecuted : q'.executed = q.executed + 1) (hheld : q'.held = q.executed :: q.held)
    (hanswers : q'.answers = q.answers) (hwritten : q'.written = q.written) : q'.Sound := by
  have hwaits : ∀ t j, q'.Waits t j → (t = q.executed ∧ j = id) ∨ q.Waits t j := by
    intro t j hw
    rw [Waits, hwaiting] at hw
    split at hw
    · next hj =>
      subst hj
      rcases List.mem_cons.mp hw with ht | ht
      · exact Or.inl ⟨ht.trans hr, rfl⟩
      · exact Or.inr ht
    · exact Or.inr hw
  have hanswered : q'.answered = q.answered := by rw [answered, answered, hanswers]
  have hfresh : ∀ j, ¬ q.Waits q.executed j := fun j hw =>
    absurd (h.waits_lt _ j hw) (lt_irrefl _)
  constructor
  · exact hknown
  · intro t j hw
    rw [hexecuted]
    rcases hwaits t j hw with ⟨rfl, -⟩ | hw
    · exact Nat.lt_succ_self _
    · exact Nat.lt_succ_of_lt (h.waits_lt t j hw)
  · intro t ht
    rw [hexecuted]
    rw [hheld] at ht
    rcases List.mem_cons.mp ht with rfl | ht
    · exact Nat.lt_succ_self _
    · exact Nat.lt_succ_of_lt (h.held_lt t ht)
  · rw [hanswered, hexecuted]
    exact fun t ht => Nat.lt_succ_of_lt (h.answered_lt t ht)
  · intro t j hw
    rw [hanswered]
    rcases hwaits t j hw with ⟨rfl, -⟩ | hw
    · exact fun ht => absurd (h.answered_lt _ ht) (lt_irrefl _)
    · exact h.unanswered t j hw
  · intro t j j' hw hw'
    rcases hwaits t j hw with ⟨ht, hj⟩ | hw <;> rcases hwaits t j' hw' with ⟨ht', hj'⟩ | hw'
    · rw [hj, hj']
    · exact absurd (ht ▸ hw') (hfresh j')
    · exact absurd (ht' ▸ hw) (hfresh j)
    · exact h.once t j j' hw hw'
  · intro j
    rw [hwaiting]
    split
    · refine List.nodup_cons.mpr ⟨fun ht => ?_, h.distinct id⟩
      have hw : q.Waits r.ticket id := ht
      exact hfresh id (hr ▸ hw)
    · exact h.distinct j
  · exact hanswered ▸ h.answered_nodup
  · rw [hwritten, hanswers]
    exact h.logged

theorem waiting_remove (q : Queries) (id : Nat) (as : List Answer) (j : Nat) :
    (q.remove id as).waiting j = if j = id then [] else q.waiting j := by
  unfold waiting remove
  by_cases hj : j = id <;> simp [hj]

theorem answered_remove (q : Queries) (id : Nat) (as : List Answer) :
    (q.remove id as).answered = (as.map (·.ticket)).reverse ++ q.answered := by
  unfold answered remove
  rw [foldl_answer]
  simp

/-- Some of the waiting requests of an entry are answered and it is erased. -/
theorem remove (h : q.Sound) {id : Nat} {as : List Answer}
    (has : (as.map (·.ticket)).Sublist ((q.waiting id).map (·.ticket))) :
    (q.remove id as).Sound := by
  have hwaits : ∀ t j, (q.remove id as).Waits t j → j ≠ id ∧ q.Waits t j := by
    intro t j hw
    rw [Waits, waiting_remove] at hw
    split at hw
    · simp at hw
    · next hj => exact ⟨hj, hw⟩
  have hmem : ∀ t ∈ (q.remove id as).answered, q.Waits t id ∨ t ∈ q.answered := by
    intro t ht
    rw [answered_remove] at ht
    rcases List.mem_append.mp ht with ht | ht
    · exact Or.inl (has.subset (List.mem_reverse.mp ht))
    · exact Or.inr ht
  have hrest : (q.remove id as).executed = q.executed ∧ (q.remove id as).held = q.held ∧
      (q.remove id as).idCounter = q.idCounter := by
    unfold Queries.remove
    rw [foldl_answer]
    exact ⟨rfl, rfl, rfl⟩
  obtain ⟨hexecuted, hheld, hid⟩ := hrest
  constructor
  · intro j hj
    obtain ⟨entry, hentry⟩ := Option.isSome_iff_exists.mp hj
    rw [hid]
    exact h.known j (by rw [(entry_of_remove hentry).2]; rfl)
  · exact fun t j hw => hexecuted ▸ h.waits_lt t j (hwaits t j hw).2
  · rw [hheld, hexecuted]
    exact h.held_lt
  · intro t ht
    rw [hexecuted]
    rcases hmem t ht with hw | ht
    · exact h.waits_lt t id hw
    · exact h.answered_lt t ht
  · intro t j hw ht
    obtain ⟨hj, hw⟩ := hwaits t j hw
    rcases hmem t ht with hw' | ht
    · exact hj (h.once t j id hw hw')
    · exact h.unanswered t j hw ht
  · exact fun t j j' hw hw' => h.once t j j' (hwaits t j hw).2 (hwaits t j' hw').2
  · intro j
    rw [waiting_remove]
    split
    · exact List.nodup_nil
    · exact h.distinct j
  · rw [answered_remove]
    refine List.nodup_append.mpr ⟨List.nodup_reverse.mpr (has.nodup (h.distinct id)),
      h.answered_nodup, fun t ht u hu htu => ?_⟩
    exact h.unanswered t id (has.subset (List.mem_reverse.mp ht)) (htu ▸ hu)
  · exact logged_foldl_answer h.logged as

end Sound

theorem answerable_sublist (s : Server) (id : Nat) :
    (s.answerable id).Sublist ((s.queries.waiting id).map (·.ticket)) :=
  List.filter_sublist.map _

/-- What waits after a stored entry. -/
theorem waiting_store (q : Queries) (id : Nat) (entry : Backup) (j : Nat) :
    (q.store id entry).waiting j = if j = id then entry.info.requests else q.waiting j := by
  unfold waiting store
  by_cases hj : j = id <;> simp [hj]

theorem isSome_store {q : Queries} {id : Nat} {entry : Backup} {j : Nat}
    (h : ((q.store id entry).entry j).isSome) : j = id ∨ (q.entry j).isSome := by
  obtain ⟨e, he⟩ := Option.isSome_iff_exists.mp h
  rcases entry_of_store he with ⟨hj, -⟩ | ⟨-, he⟩
  · exact Or.inl hj
  · exact Or.inr (by rw [he]; rfl)

/-- The next id has no entry. -/
theorem Sound.entry_eq_none {q : Queries} (h : q.Sound) {id : Nat} (hid : q.idCounter + 1 = id) :
    q.entry id = none := by
  by_contra hsome
  have hle := h.known id (Option.ne_none_iff_isSome.mp hsome)
  omega

/-- Stopping the timer of an entry. -/
theorem Sound.stopTimer {q : Queries} (h : q.Sound) {id : Nat} {entry : Backup}
    (hentry : q.entry id = some entry) :
    (q.store id { entry with timerArmed := false }).Sound := by
  refine h.of_waiting_eq (fun j => ?_) (fun j hj => ?_) rfl rfl rfl rfl rfl
  · rw [waiting_store]
    split
    · next hj => simp [hj, waiting, hentry]
    · rfl
  · rcases isSome_store hj with rfl | hj
    · rw [hentry]
      rfl
    · exact hj

/-- Every step keeps the answers sound. -/
theorem Sound.step {cfg : Config} {s : Server} {e : Event} {q' : Queries} (h : s.queries.Sound)
    (hstep : QueryStep cfg s e q') : q'.Sound := by
  cases hstep with
  | other => exact h
  | answer a ha _ => exact h.answer ha
  | @join i _ _ id entry r hentry hr =>
    refine h.hold id hr (fun j => ?_) (fun j hj => ?_) rfl rfl rfl rfl
    · refine (waiting_store _ id _ j).trans ?_
      simp [waiting, hentry]
    · rcases isSome_store hj with rfl | hj
      · exact h.known j (by rw [hentry]; rfl)
      · exact h.known j hj
  | @backup i _ _ o path id r hid hr =>
    have hnone := h.entry_eq_none hid
    refine h.hold id hr (fun j => ?_) (fun j hj => ?_) rfl rfl rfl rfl
    · refine (waiting_store _ id _ j).trans ?_
      simp [waiting, hnone]
    · rcases isSome_store hj with rfl | hj
      · exact le_refl _
      · exact (h.known j hj).trans (hid ▸ Nat.le_succ _)
  | unparsed _ _ hentry => exact h.stopTimer hentry
  | noDirectory _ _ hentry =>
    exact (h.stopTimer hentry).of_waiting_eq (fun _ => rfl) (fun _ hj => hj) rfl rfl rfl rfl rfl
  | noFile as _ _ hentry _ _ _ htickets _ =>
    have hremove := h.remove (htickets ▸ answerable_sublist s _)
    exact hremove.of_waiting_eq (fun _ => rfl) (fun _ hj => hj) rfl rfl rfl rfl rfl
  | begin _ _ hentry =>
    exact (h.stopTimer hentry).of_waiting_eq (fun _ => rfl) (fun _ hj => hj) rfl rfl rfl rfl rfl
  | finish as _ _ htickets _ =>
    have hremove := h.remove (htickets ▸ answerable_sublist s _)
    exact hremove.of_waiting_eq (fun _ => rfl) (fun _ hj => hj) rfl rfl rfl rfl rfl

end Queries

/-- The answers are sound in every run. -/
def Server.Sound (s : Server) : Prop := s.core.LoginCodes ∧ s.queries.Sound

theorem sound_initial (cfg : Config) (users : List (Str × Str)) :
    (Server.initial cfg users).Sound := by
  refine ⟨Core.loginCodes_initial cfg users, ?_⟩
  constructor
  all_goals simp [Server.queries, Server.initial, Queries.Waits, Queries.waiting,
    Queries.answered]

theorem Server.Sound.step {cfg : Config} {s s' : Server} {e : Event} (h : s.Sound)
    (hstep : s.step cfg e = some s') : s'.Sound :=
  ⟨h.1.step (step_core hstep), h.2.step (step_queries (fun r hr hm => h.1.running r hr hm) hstep)⟩

/-- In every run: no query is answered twice, and the answers that were written to
a client are the recorded ones. -/
theorem answers_once {cfg : Config} {users : List (Str × Str)} {s : Server}
    (h : Reach (Server.step cfg) anyStep (Server.initial cfg users) s) :
    (s.downloads.answers.map (·.ticket)).Nodup ∧
      (∀ t ∈ s.downloads.answers.map (·.ticket), t < s.downloads.executed) ∧
      ∀ c, (s.sent c).filter Outgoing.isAnswer =
        ((s.downloads.answers.filter fun a => a.conn = c).map (·.message)).reverse := by
  have hsound : s.Sound := h.invariant (sound_initial cfg users) fun _ _ _ hs _ hst => hs.step hst
  exact ⟨hsound.2.answered_nodup, hsound.2.answered_lt, hsound.2.logged⟩

namespace Server.Event

/-- A client asks for a file of another one, while nothing else is queued. -/
def querryDownload (c : ConnId) (fileOwner fileName : Str) : List Event :=
  [readQuerry c ['d'] fileName [(.FileOwner, fileOwner)], executeFirst]

/-- Two clients `a` and `b` register, `a` with the file `/f`, and `b` asks for it. -/
def querryOfFile : List Event :=
  [.accept 0, .accept 0] ++ login 0 ['a'] ++ login 1 ['b'] ++ register 0 [['/', 'f']] ++
    register 1 [] ++ querryDownload 1 ['a'] ['/', 'f']

end Server.Event

open Server.Event in
/-- The owner approves the download twice, and the transfer ends twice. -/
theorem answers_once_after_transfer :
    ∃ s, Reach (Server.step sampleConfig) anyStep (Server.initial sampleConfig []) s ∧
      s.downloads.answers.length = 1 ∧ (s.downloads.answers.map (·.ticket)).Nodup := by
  obtain ⟨s, hs, hone⟩ := exists_reach_of_exec (Server.step sampleConfig)
    (Server.initial sampleConfig []) (fun s => s.downloads.answers.length = 1)
    (querryOfFile ++ [readReply 0 ['2'] ['1'], readReply 0 ['2'] ['1'],
      .transferCompleted 2 true sampleEnv]) (by decide +kernel)
  exact ⟨s, hs, hone, (answers_once hs).1⟩

/-! ## No query is lost -/

namespace Server

/-- Every request that waits in the entry is of a connection that still exists. -/
def WaitersAlive (s : Server) (id : Nat) : Prop :=
  ∀ r ∈ s.queries.waiting id, s.alive r.conn = true

instance (s : Server) (id : Nat) : Decidable (s.WaitersAlive id) :=
  inferInstanceAs (Decidable (∀ r ∈ _, _))

/-- An approving reply for an entry leaves something that will answer it: the file
size is a number and the directories can be made, or a transaction is already
there; and an entry is removed only while all connections that wait in it exist. -/
def KeepsQueries (cfg : Config) (s : Server) : Event → Prop
  | .read c m env => s.readError cfg c m = none → ∀ id ∈ m.approves cfg,
      (s.queries.entry id).isSome →
      if (stoull (m.header .FileSize)).isSome ∧ env.createDirectories then
        env.createFile = true ∨ s.WaitersAlive id
      else s.queries.live id = true
  | .backupTimer id | .transactionTimer id | .transferCompleted id .. => s.WaitersAlive id
  | _ => True

instance (cfg : Config) (s : Server) (e : Event) : Decidable (s.KeepsQueries cfg e) :=
  match e with
  | .read .. => inferInstanceAs (Decidable (_ → ∀ id ∈ _, _))
  | .backupTimer id | .transactionTimer id | .transferCompleted id .. =>
    inferInstanceAs (Decidable (s.WaitersAlive id))
  | .accept _ | .execute .. | .resume _ | .stop _ | .sharedWrite .. | .helloSender _ |
    .uploadCompleted _ => inferInstanceAs (Decidable True)

theorem keepsQueries_of_ends {cfg : Config} {s : Server} {e : Event} {id : Nat}
    (h : s.KeepsQueries cfg e) (he : e.ends = some id) : s.WaitersAlive id := by
  cases e <;> simp only [Event.ends, Option.some.injEq, reduceCtorEq] at he <;> subst he <;> exact h

theorem answerable_of_waitersAlive {s : Server} {id : Nat} (h : s.WaitersAlive id) :
    s.answerable id = (s.queries.waiting id).map (·.ticket) := by
  rw [answerable, List.filter_eq_self.mpr h]

end Server

namespace Queries

/-- Every entry has its timer armed or a transaction under its id, and every query
on hold waits in an entry until it is answered. -/
structure Watched (q : Queries) : Prop where
  armed : ∀ id entry, q.entry id = some entry → entry.timerArmed = true ∨ q.live id = true
  waits : ∀ t ∈ q.held, t ∉ q.answered → ∃ id, q.Waits t id

namespace Watched

variable {q q' : Queries}

/-- An entry is stored again without its timer, while it has a transaction. -/
theorem stopTimer (h : q.Watched) {id : Nat} {entry : Backup} (hentry : q.entry id = some entry)
    {live : Nat → Bool} (hlive : live id = true) (hmono : ∀ j, q.live j = true → live j = true)
    {begun : List Begun} :
    { q.store id { entry with timerArmed := false } with live, begun }.Watched := by
  refine ⟨fun j e he => ?_, fun t ht hans => ?_⟩
  · rcases entry_of_store he with ⟨rfl, -⟩ | ⟨-, he⟩
    · exact Or.inr hlive
    · exact (h.armed j e he).imp_right (hmono j)
  · obtain ⟨j, hw⟩ := h.waits t ht hans
    refine ⟨j, ?_⟩
    have hsame : (q.store id { entry with timerArmed := false }).waiting j = q.waiting j := by
      rw [waiting_store]
      split
      · next hj => simp [hj, waiting, hentry]
      · rfl
    rw [Waits]
    exact hsame ▸ hw

/-- An entry all of whose requests are answered is erased. -/
theorem remove (h : q.Watched) {id : Nat} {as : List Answer}
    (has : as.map (·.ticket) = (q.waiting id).map (·.ticket)) {live : Nat → Bool}
    (hlive : ∀ j, j ≠ id → live j = q.live j) (begun : List Begun) :
    { q.remove id as with live, begun }.Watched := by
  refine ⟨fun j e he => ?_, fun t ht hans => ?_⟩
  · have hremove : (q.remove id as).entry j = some e := he
    obtain ⟨hj, he⟩ := entry_of_remove hremove
    exact (h.armed j e he).imp_right fun hl => (hlive j hj).trans hl
  · have hans' : t ∉ (as.map (·.ticket)).reverse ++ q.answered := by
      rw [← Sound.answered_remove q id as]
      exact hans
    rw [List.mem_append, not_or, List.mem_reverse, has] at hans'
    have hheld : (q.remove id as).held = q.held := by
      unfold Queries.remove
      rw [foldl_answer]
    obtain ⟨j, hw⟩ := h.waits t (hheld ▸ ht) hans'.2
    have hj : j ≠ id := fun hj => hans'.1 (hj ▸ hw)
    refine ⟨j, ?_⟩
    have hsame := Sound.waiting_remove q id as j
    rw [if_neg hj] at hsame
    rw [Waits]
    exact hsame ▸ hw

/-- A query is put on hold. -/
theorem hold (h : q.Watched) {id : Nat} {r : DownloadRequest} {entry : Backup}
    (hr : r.ticket = q.executed) (hlive : q'.live = q.live)
    (hentry : q'.entry = Function.update q.entry id (some entry))
    (harmed : entry.timerArmed = true ∨ q.live id = true)
    (hrequests : entry.info.requests = r :: q.waiting id)
    (hheld : q'.held = q.executed :: q.held) (hanswers : q'.answers = q.answers) :
    q'.Watched := by
  have hwaiting : ∀ j, q'.waiting j = (q.store id entry).waiting j := fun j => by
    rw [waiting, hentry]
    rfl
  refine ⟨fun j e he => ?_, fun t ht hans => ?_⟩
  · rw [hlive]
    by_cases hj : j = id
    · subst hj
      obtain rfl : entry = e := by simpa [hentry] using he
      exact harmed
    · exact h.armed j e (by simpa [hentry, hj] using he)
  · rw [hheld] at ht
    rcases List.mem_cons.mp ht with rfl | ht
    · refine ⟨id, ?_⟩
      rw [Waits, hwaiting, waiting_store, if_pos rfl, hrequests, ← hr]
      exact List.mem_cons_self
    · obtain ⟨j, hw⟩ := h.waits t ht (by rwa [answered, hanswers] at hans)
      refine ⟨j, ?_⟩
      rw [Waits, hwaiting, waiting_store]
      split
      · next hj =>
        rw [hrequests]
        exact List.mem_cons_of_mem _ (hj ▸ hw)
      · exact hw

/-- A step that keeps the queries loses none. -/
theorem step {cfg : Config} {s : Server} {e : Event} (hsound : s.queries.Sound)
    (h : s.queries.Watched) (hkeep : s.KeepsQueries cfg e) (hstep : QueryStep cfg s e q') :
    q'.Watched := by
  cases hstep with
  | other => exact h
  | answer a ha _ =>
    refine ⟨h.armed, fun t ht hans => h.waits t ht fun hmem => hans ?_⟩
    exact List.mem_cons_of_mem _ hmem
  | @join i _ _ id entry r hentry hr =>
    refine h.hold hr rfl rfl (h.armed id entry hentry) ?_ rfl rfl
    simp [waiting, hentry]
  | @backup i _ _ o path id r hid hr =>
    have hnone := hsound.entry_eq_none hid
    refine h.hold hr rfl rfl (Or.inl rfl) ?_ rfl rfl
    simp [waiting, hnone]
  | unparsed hread happ hentry hsize =>
    have hlive := hkeep hread _ happ (by rw [hentry]; rfl)
    rw [if_neg (by simp [hsize])] at hlive
    exact h.stopTimer hentry hlive fun _ hl => hl
  | noDirectory hread happ hentry hsize hdir =>
    have hlive := hkeep hread _ happ (by rw [hentry]; rfl)
    rw [if_neg (by simp [hdir])] at hlive
    exact h.stopTimer hentry hlive fun _ hl => hl
  | noFile as hread happ hentry hsize hdir hfile htickets _ =>
    have halive := hkeep hread _ happ (by rw [hentry]; rfl)
    rw [if_pos ⟨hsize, hdir⟩] at halive
    have hall := halive.resolve_left (by simp [hfile])
    refine h.remove (htickets.trans (answerable_of_waitersAlive hall)) (fun j _ => ?_) _
    rw [Queries.remove, foldl_answer]
  | begin _ _ hentry _ _ _ =>
    refine h.stopTimer hentry (Function.update_self ..) fun j hl => ?_
    rw [Function.update_apply]
    split
    · rfl
    · exact hl
  | finish as he hlive htickets _ =>
    have hall := keepsQueries_of_ends hkeep he
    exact h.remove (htickets.trans (answerable_of_waitersAlive hall)) hlive _

end Watched

end Queries

namespace Server

/-- The query is recorded in exactly one entry, which has its timer armed or a
transaction under its id. -/
def Recorded (s : Server) (t : Nat) : Prop :=
  ∃ id entry, s.downloads.backedupRequests[id]? = some entry ∧
    t ∈ entry.info.requests.map (·.ticket) ∧
    (entry.timerArmed = true ∨ id ∈ s.downloads.downloadTransactions) ∧
    ∀ id' entry', s.downloads.backedupRequests[id']? = some entry' →
      t ∈ entry'.info.requests.map (·.ticket) → id' = id

end Server

/-- In every run whose steps keep the queries, every query on hold that was not
answered is recorded. -/
theorem held_recorded {cfg : Config} {users : List (Str × Str)} {s : Server}
    (h : Reach (Server.step cfg) (Server.KeepsQueries cfg) (Server.initial cfg users) s) :
    ∀ t ∈ s.downloads.held, t ∉ s.downloads.answers.map (·.ticket) → s.Recorded t := by
  obtain ⟨⟨-, hsound⟩, hwatched⟩ : s.Sound ∧ s.queries.Watched := by
    refine h.invariant (I := fun s => s.Sound ∧ s.queries.Watched)
      ⟨sound_initial cfg users, ?_⟩ fun s e s' hs hk hst => ⟨hs.1.step hst, ?_⟩
    · exact ⟨fun _ _ he => by simp [Server.queries, Server.initial] at he,
        fun _ ht => absurd ht List.not_mem_nil⟩
    · exact hs.2.step hs.1.2 hk (step_queries (fun r hr hm => hs.1.1.running r hr hm) hst)
  intro t ht hans
  obtain ⟨id, hw⟩ := hwatched.waits t ht hans
  obtain ⟨entry, hentry⟩ : ∃ entry, s.queries.entry id = some entry := by
    rw [← Option.ne_none_iff_exists']
    exact fun hnone => Queries.not_waits_of_entry_eq_none hnone hw
  have waits_of : ∀ {id' entry'}, s.queries.entry id' = some entry' →
      t ∈ entry'.info.requests.map (·.ticket) → s.queries.Waits t id' := by
    intro id' entry' he hmem
    simpa [Queries.Waits, Queries.waiting, he] using hmem
  refine ⟨id, entry, hentry, by simpa [Queries.Waits, Queries.waiting, hentry] using hw,
    hwatched.armed id entry hentry, fun id' entry' he hmem => ?_⟩
  exact hsound.once t id' id (waits_of he hmem) hw

open Server.Event in
/-- The owner approves the download, and its query is recorded until the end. -/
theorem held_recorded_after_reply :
    ∃ s, Reach (Server.step sampleConfig) (Server.KeepsQueries sampleConfig)
        (Server.initial sampleConfig []) s ∧
      s.downloads.held = [0] ∧ s.downloads.answers = [] ∧ s.Recorded 0 := by
  obtain ⟨s, hs, hheld, hanswers⟩ := exists_reach_of_exec_guarded (Server.step sampleConfig)
    (Server.KeepsQueries sampleConfig) (Server.initial sampleConfig [])
    (fun s => s.downloads.held = [0] ∧ s.downloads.answers = [])
    (querryOfFile ++ [readReply 0 ['2'] ['1']]) (by decide +kernel)
  exact ⟨s, hs, hheld, hanswers, held_recorded hs 0 (by simp [hheld]) (by simp [hanswers])⟩

open Server.Event in
/-- The file size of the approving reply is no number: the timer is stopped, and
nothing will answer the query. -/
theorem unparsed_fileSize_loses_query :
    ∃ s, Reach (Server.step sampleConfig) anyStep (Server.initial sampleConfig []) s ∧
      0 ∈ s.downloads.held ∧ 0 ∉ s.downloads.answers.map (·.ticket) ∧ ¬ s.Recorded 0 := by
  obtain ⟨s, hs, hheld, hanswers, htimers, hempty⟩ := exists_reach_of_exec
    (Server.step sampleConfig) (Server.initial sampleConfig [])
    (fun s => s.downloads.held = [0] ∧ s.downloads.answers = [] ∧
      (s.downloads.backedupRequests.toList.all fun e => !e.2.timerArmed) ∧
      s.downloads.downloadTransactions.isEmpty)
    (querryOfFile ++ [readReply 0 ['2'] ['x']]) (by decide +kernel)
  refine ⟨s, hs, by simp [hheld], by simp [hanswers], ?_⟩
  rintro ⟨id, entry, hentry, -, harmed | hlive, -⟩
  · have hmem := Std.TreeMap.mem_toList_iff_getElem?_eq_some.mpr hentry
    have := List.all_eq_true.mp htimers _ hmem
    simp [harmed] at this
  · exact absurd hlive (by simpa using Std.TreeMap.not_mem_of_isEmpty hempty)

end FspServer
