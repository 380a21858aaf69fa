import FspServer.OwnerReplies

/-!
# Who begins a transfer

A transfer is begun by the reply of any client, if it has the id of a pending
download. It is the owner of the file (`begun_by_owner`) when clients answer only what
they were asked and keep their nickname meanwhile, and when the counter is not
incremented while another query uses it: otherwise the request of one query can be
inserted under the id with which the owner of another file was asked.
-/

namespace FspServer

open Runs Server

/-- The query has not inserted its request. -/
def Stage.waits : Stage → Bool
  | .done | .stored => false
  | _ => true

namespace Asking

/-- A download that the connection was asked for is pending, or a query that found its
file there is under way. -/
def AskedFor (a : Asking) (c : ConnId) : Prop :=
  (∃ id ∈ a.server.queries.asked c, (a.server.queries.entry id).isSome) ∨
    (∃ x ∈ a.found, x.owner = c) ∨
      ∃ q < a.queries.length, (a.stage q).waits = true ∧ ∃ x ∈ a.queries[q]?, x.owner = c

instance (a : Asking) (c : ConnId) : Decidable (a.AskedFor c) :=
  inferInstanceAs (Decidable ((∃ id ∈ _, _) ∨ (∃ x ∈ _, _) ∨ ∃ q < _, _ ∧ ∃ x ∈ _, _))

/-- A client approves a pending download only when it was asked under its id, a login
gives a connection no other nickname while it is asked for a file, and the counter is
incremented only while no other query is between its increment and its last read. -/
def AnswersAsked (cfg : Config) (a : Asking) : Event → Prop
  | .server (.read c m _) => a.server.readError cfg c m = none → ∀ id ∈ m.approves cfg,
      (a.server.queries.entry id).isSome → (stoull (m.header .FileSize)).isSome →
      id ∈ a.server.queries.asked c
  | .server (.resume i) => ∀ h ∈ a.server.running[i]?, ∀ login ∈ h.rest.login,
      a.AskedFor h.conn → login = a.server.registry.nickname h.conn
  | .advance q => a.stage q = .passed → ∀ p < a.queries.length, (a.stage p).active = false
  | _ => True

instance (cfg : Config) (a : Asking) (e : Event) : Decidable (a.AnswersAsked cfg e) :=
  match e with
  | .server (.read ..) => inferInstanceAs (Decidable (_ → ∀ id ∈ _, _))
  | .server (.resume _) => inferInstanceAs (Decidable (∀ h ∈ _, _))
  | .advance _ => inferInstanceAs (Decidable (_ → ∀ p < _, _))
  | .server (.accept _) | .server (.execute ..) | .server (.stop _) | .server (.sharedWrite ..) |
    .server (.backupTimer _) | .server (.transactionTimer _) | .server (.helloSender _) |
    .server (.transferCompleted ..) | .server (.uploadCompleted _) | .check _ | .timer _ =>
    inferInstanceAs (Decidable True)

/-- Whoever is or will be asked for a download has the owner's nickname, and so had
whoever began a transfer. The query that uses the counter is the only one that does,
and its id is new. -/
structure Owned (a : Asking) : Prop where
  found : ∀ x ∈ a.found, a.server.registry.nickname x.owner = x.fileOwner
  waiting : ∀ q x, a.queries[q]? = some x → (a.stage q).waits = true →
    a.server.registry.nickname x.owner = x.fileOwner
  owner : ∀ id entry, a.server.queries.entry id = some entry →
    ∀ c, id ∈ a.server.queries.asked c → a.server.registry.nickname c = entry.info.fileOwner
  asked_le : ∀ c, ∀ id ∈ a.server.queries.asked c, id ≤ a.counter
  entry_le : ∀ id, (a.server.queries.entry id).isSome → id ≤ a.counter
  bounded : ∀ q, a.stage q ≠ .done → q < a.queries.length
  single : ∀ p q, (a.stage p).active = true → (a.stage q).active = true → p = q
  free : ∀ q, (a.stage q).owed = true → a.server.queries.entry a.counter = none
  key : ∀ q key, a.stage q = .keyed key → key = a.counter
  mine : ∀ q x, a.queries[q]? = some x → (a.stage q).owed = true →
    ∀ c, a.counter ∈ a.server.queries.asked c → c = x.owner
  begun : ∀ b ∈ a.server.queries.begun, b.sender = b.owner

theorem owned_initial (cfg : Config) (users : List (Str × Str)) : (initial cfg users).Owned where
  found _ h := absurd h List.not_mem_nil
  waiting _ _ h := by simp [initial] at h
  owner _ _ h := by simp [initial, Server.initial, Server.queries] at h
  asked_le _ _ h := by simp [initial, Server.initial, Server.queries] at h
  entry_le _ h := by simp [initial, Server.initial, Server.queries] at h
  bounded _ h := absurd rfl h
  single _ _ h := by cases h
  free _ h := by cases h
  key _ _ h := by cases h
  mine _ _ h := by simp [initial] at h
  begun _ h := absurd h List.not_mem_nil

namespace Owned

variable {cfg : Config} {a a' : Asking}

/-- Steps that ask nobody, open no entry and let no query go on. -/
theorem of_entry (h : a.Owned) (hfound : ∀ x ∈ a'.found, x ∈ a.found)
    (hqueries : a'.queries = a.queries) (hstage : a'.stage = a.stage)
    (hnick : ∀ c, a.AskedFor c → a'.server.registry.nickname c = a.server.registry.nickname c)
    (hentry : ∀ id entry', a'.server.queries.entry id = some entry' → ∃ entry,
      a.server.queries.entry id = some entry ∧ entry'.info.fileOwner = entry.info.fileOwner)
    (hasked : a'.server.queries.asked = a.server.queries.asked) (hcounter : a'.counter = a.counter)
    (hbegun : ∀ b ∈ a'.server.queries.begun, b ∈ a.server.queries.begun ∨ b.sender = b.owner) :
    a'.Owned where
  found x hx := by
    have hmem := hfound x hx
    rw [hnick _ (Or.inr (Or.inl ⟨x, hmem, rfl⟩))]
    exact h.found x hmem
  waiting q x hx hw := by
    rw [hqueries] at hx
    rw [hstage] at hw
    have hlt : q < a.queries.length := (List.getElem?_eq_some_iff.mp hx).1
    rw [hnick _ (Or.inr (Or.inr ⟨q, hlt, hw, x, hx, rfl⟩))]
    exact h.waiting q x hx hw
  owner id entry' he c hc := by
    rw [hasked] at hc
    obtain ⟨entry, hold, hsame⟩ := hentry id entry' he
    rw [hsame, hnick c (Or.inl ⟨id, hc, by rw [hold]; rfl⟩)]
    exact h.owner id entry hold c hc
  asked_le := by rw [hasked, hcounter]; exact h.asked_le
  entry_le id hid := by
    obtain ⟨entry', he⟩ := Option.isSome_iff_exists.mp hid
    obtain ⟨entry, hold, -⟩ := hentry id entry' he
    rw [hcounter]
    exact h.entry_le id (by rw [hold]; rfl)
  bounded := by rw [hstage, hqueries]; exact h.bounded
  single := by rw [hstage]; exact h.single
  free q hq := by
    rw [hcounter]
    rcases he : a'.server.queries.entry a.counter with _ | entry'
    · rfl
    · obtain ⟨entry, hold, -⟩ := hentry _ entry' he
      have hnone := h.free q (hstage ▸ hq)
      simp [hold] at hnone
  key := by rw [hstage, hcounter]; exact h.key
  mine := by rw [hqueries, hstage, hcounter, hasked]; exact h.mine
  begun b hb := (hbegun b hb).elim (h.begun b) id

/-- A query goes on without an increment. -/
theorem setStage (h : a.Owned) {q : Nat} {st : Stage} (hq : a.stage q ≠ .done)
    (hactive : st.active = true → (a.stage q).active = true)
    (howed : st.owed = true → (a.stage q).owed = true)
    (hwaits : st.waits = true → (a.stage q).waits = true)
    (hkey : ∀ key, st = .keyed key → key = a.counter) : (a.setStage q st).Owned := by
  have cases : ∀ p, (p = q ∧ (a.setStage q st).stage p = st) ∨
      (a.setStage q st).stage p = a.stage p := by
    intro p
    by_cases hp : p = q
    · exact Or.inl ⟨hp, hp ▸ Function.update_self ..⟩
    · exact Or.inr (Function.update_of_ne hp ..)
  have old : ∀ {f : Stage → Bool}, (f st = true → f (a.stage q) = true) → ∀ {p},
      f ((a.setStage q st).stage p) = true → f (a.stage p) = true := by
    intro f hf p hp
    rcases cases p with ⟨rfl, hst⟩ | hst <;> rw [hst] at hp
    · exact hf hp
    · exact hp
  refine ⟨h.found, fun p x hx hp => h.waiting p x hx (old hwaits hp), h.owner, h.asked_le,
    h.entry_le, fun p hp => ?_, fun p r hp hr => h.single p r (old hactive hp) (old hactive hr),
    fun p hp => h.free p (old howed hp), fun p key hp => ?_,
    fun p x hx hp => h.mine p x hx (old howed hp), h.begun⟩
  · rcases cases p with ⟨rfl, -⟩ | hst
    · exact h.bounded p hq
    · exact h.bounded p (hst ▸ hp)
  · rcases cases p with ⟨-, hst⟩ | hst <;> rw [hst] at hp
    · exact hkey key hp
    · exact h.key p key hp

/-- A query comes under way with the nickname of the owner that it found. -/
theorem find (h : a.Owned) {server : Server} {x : OwnerQuery}
    (hregistry : server.registry = a.server.registry)
    (hqueries : server.queries =
      { a.server.queries with executed := a.server.queries.executed + 1 })
    (hnick : a.server.registry.nickname x.owner = x.fileOwner) :
    { a with server, found := a.found ++ [x] }.Owned := by
  have hentry : server.queries.entry = a.server.queries.entry := by rw [hqueries]
  have hbegun : server.queries.begun = a.server.queries.begun := by rw [hqueries]
  have hkept : ({ a with server } : Asking).Owned :=
    h.of_entry (fun _ hx => hx) rfl rfl (fun c _ => congrArg (fun r => r.nickname c) hregistry)
      (fun id entry he => ⟨entry, (congrFun hentry id).symm.trans he, rfl⟩)
      (show server.queries.asked = _ by rw [hqueries])
      (show server.queries.idCounter = _ by rw [hqueries]; rfl) fun b hb => Or.inl (hbegun ▸ hb)
  refine ⟨fun y hy => ?_, hkept.waiting, hkept.owner, hkept.asked_le, hkept.entry_le,
    hkept.bounded, hkept.single, hkept.free, hkept.key, hkept.mine, hkept.begun⟩
  rcases List.mem_append.mp hy with hy | hy
  · exact hkept.found y hy
  · obtain rfl := List.mem_singleton.mp hy
    exact (congrArg (fun r => r.nickname y.owner) hregistry).trans hnick

/-- A query passes the check. -/
theorem pass (h : a.Owned) {i : Nat} {x : OwnerQuery} (hi : a.found[i]? = some x) :
    { a with
      found := a.found.eraseIdx i
      queries := a.queries ++ [x]
      stage := Function.update a.stage a.queries.length .passed }.Owned := by
  have hx : x ∈ a.found := List.mem_of_getElem? hi
  -- the new query, and one that was there
  have parts : ∀ q, (q = a.queries.length ∧
      Function.update a.stage a.queries.length Stage.passed q = .passed) ∨
      (q ≠ a.queries.length ∧
        Function.update a.stage a.queries.length Stage.passed q = a.stage q) := by
    intro q
    by_cases hq : q = a.queries.length
    · exact Or.inl ⟨hq, hq ▸ Function.update_self ..⟩
    · exact Or.inr ⟨hq, Function.update_of_ne hq ..⟩
  have old : ∀ {f : Stage → Bool}, f .passed = false → ∀ {q},
      f (Function.update a.stage a.queries.length Stage.passed q) = true →
      f (a.stage q) = true ∧ q ≠ a.queries.length := by
    intro f hf q hq
    rcases parts q with ⟨-, hst⟩ | ⟨hne, hst⟩ <;> rw [hst] at hq
    · simp [hf] at hq
    · exact ⟨hq, hne⟩
  have before : ∀ {q y}, (a.queries ++ [x])[q]? = some y → q ≠ a.queries.length →
      a.queries[q]? = some y := by
    intro q y hy hne
    have hlt := (List.getElem?_eq_some_iff.mp hy).1
    rw [List.length_append, List.length_singleton] at hlt
    rwa [List.getElem?_append_left (by omega)] at hy
  refine ⟨fun y hy => h.found y (List.mem_of_mem_eraseIdx hy), fun q y hy hw => ?_, h.owner,
    h.asked_le, h.entry_le, fun q hq => ?_,
    fun p q hp hq => h.single p q (old rfl hp).1 (old rfl hq).1,
    fun q hq => h.free q (old rfl hq).1, fun q key hq => ?_,
    fun q y hy hq => h.mine q y (before hy (old rfl hq).2) (old rfl hq).1, h.begun⟩
  · rcases parts q with ⟨rfl, -⟩ | ⟨hne, hst⟩
    · obtain rfl : x = y := by simpa using hy
      exact h.found x hx
    · exact h.waiting q y (before hy hne) (hst ▸ hw)
  · show q < (a.queries ++ [x]).length
    rw [List.length_append, List.length_singleton]
    rcases parts q with ⟨rfl, -⟩ | ⟨-, hst⟩
    · omega
    · exact Nat.lt_succ_of_lt (h.bounded q (hst ▸ hq))
  · rcases parts q with ⟨-, hst⟩ | ⟨-, hst⟩
    · cases hst.symm.trans hq
    · exact h.key q key (hst ▸ hq)

theorem check (h : a.Owned) {i : Nat} (hs : a.check i = some a') : a'.Owned := by
  obtain ⟨-, hs⟩ := Option.ite_none_left_eq_some.mp hs
  obtain ⟨x, hi, rfl⟩ := Option.map_eq_some_iff.mp hs
  dsimp only
  split
  · next downloads hjoin =>
    obtain ⟨j, entry, hentry, hstore⟩ := entry_of_isDownloadPending hjoin
    refine h.of_entry (fun y hy => List.mem_of_mem_eraseIdx hy) rfl rfl (fun _ _ => rfl)
      (fun id entry' he => ?_) rfl (congrArg Queries.idCounter hstore)
      fun b hb => Or.inl ((congrArg Queries.begun hstore) ▸ hb)
    have he' := (congrFun (congrArg Queries.entry hstore) id).symm.trans he
    rcases Queries.entry_of_store he' with ⟨rfl, rfl⟩ | ⟨-, he'⟩
    · exact ⟨entry, hentry, rfl⟩
    · exact ⟨entry', he', rfl⟩
  · exact h.pass hi

/-- The counter is incremented while no other query uses it. -/
theorem increment (h : a.Owned) {q : Nat} (hq : a.stage q = .passed)
    (halone : ∀ p < a.queries.length, (a.stage p).active = false) :
    ({ a with server.downloads.downloadTransactionsIDCounter := a.counter + 1 }.setStage q
      .incremented).Owned := by
  have inactive : ∀ p, (a.stage p).active = false := by
    intro p
    by_cases hp : a.stage p = .done
    · rw [hp]
      rfl
    · exact halone p (h.bounded p hp)
  have parts : ∀ p, p = q ∨ Function.update a.stage q Stage.incremented p = a.stage p := by
    intro p
    by_cases hp : p = q
    · exact Or.inl hp
    · exact Or.inr (Function.update_of_ne hp ..)
  -- only `q` uses the counter now
  have only : ∀ {p}, (Function.update a.stage q Stage.incremented p).active = true → p = q := by
    intro p hp
    rcases parts p with hpq | hst
    · exact hpq
    · rw [hst, inactive p] at hp
      cases hp
  have unasked : ∀ c, a.counter + 1 ∉ a.server.queries.asked c := fun c hmem =>
    absurd (h.asked_le c _ hmem) (Nat.not_succ_le_self _)
  refine ⟨h.found, fun p x hx hw => ?_, h.owner, fun c id hid => ?_, fun id hid => ?_,
    fun p hp => ?_, fun p r hp hr => (only hp).trans (only hr).symm, fun p _ => ?_,
    fun p key hp => ?_, fun p x _ _ c hc => absurd hc (unasked c), h.begun⟩
  · rcases parts p with rfl | hst
    · exact h.waiting p x hx (by rw [hq]; rfl)
    · exact h.waiting p x hx (hst ▸ hw)
  · exact (h.asked_le c id hid).trans (Nat.le_succ _)
  · exact (h.entry_le id hid).trans (Nat.le_succ _)
  · rcases parts p with rfl | hst
    · exact h.bounded p (by simp [hq])
    · exact h.bounded p (hst ▸ hp)
  · show a.server.queries.entry (a.counter + 1) = none
    by_contra hsome
    exact absurd (h.entry_le _ (Option.ne_none_iff_isSome.mp hsome)) (Nat.not_succ_le_self _)
  · have hkeyed : Function.update a.stage q Stage.incremented p = .keyed key := hp
    obtain rfl := only (by rw [hkeyed]; rfl)
    simp at hkeyed

/-- The owner is asked under the current id. -/
theorem ask (h : a.Owned) {q : Nat} {x : OwnerQuery} (hx : a.queries[q]? = some x)
    (hq : a.stage q = .incremented) : (a.ask q x).Owned := by
  have hset : (a.setStage q .asked).Owned :=
    h.setStage (by simp [hq]) (fun _ => by rw [hq]; rfl) (fun _ => by rw [hq]; rfl)
      (fun _ => by rw [hq]; rfl) (by simp)
  have hqueries := queries_startWrite_downloadQuerry x.owner a.counter x.filePath a.server
  have hupdate : (a.ask q x).server.queries.asked = Function.update a.server.queries.asked x.owner
      (a.server.queries.asked x.owner ++ [a.counter]) := congrArg Queries.asked hqueries
  have hasked : ∀ c, ∀ j ∈ (a.ask q x).server.queries.asked c,
      j ∈ a.server.queries.asked c ∨ c = x.owner ∧ j = a.counter := by
    intro c j hj
    rw [hupdate, Function.update_apply] at hj
    split at hj
    · next hc =>
      rw [hc]
      exact (List.mem_append.mp hj).imp_right fun hj => ⟨rfl, List.mem_singleton.mp hj⟩
    · exact Or.inl hj
  have hfree : a.server.queries.entry a.counter = none := h.free q (by rw [hq]; rfl)
  refine ⟨hset.found, hset.waiting, fun id entry he c hc => ?_, fun c id hid => ?_, hset.entry_le,
    hset.bounded, hset.single, hset.free, hset.key, fun p y hy hp c hc => ?_, hset.begun⟩
  · rcases hasked c id hc with hc | ⟨-, rfl⟩
    · exact h.owner id entry he c hc
    · cases hfree.symm.trans he
  · rcases hasked c id hid with hid | ⟨-, rfl⟩
    · exact h.asked_le c id hid
    · exact le_rfl
  · rcases hasked c _ hc with hc | ⟨howner, -⟩
    · exact hset.mine p y hy hp c hc
    · -- no other query uses the counter
      have hasks : (a.setStage q .asked).stage q = .asked := Function.update_self ..
      obtain rfl : p = q := hset.single p q (Stage.active_of_owed hp) (by rw [hasks]; rfl)
      obtain rfl := Option.some.inj (hy.symm.trans hx)
      exact howner

/-- The request of a query is inserted under the id with which its owner was asked. -/
theorem emplace (h : a.Owned) {q key : Nat} {x : OwnerQuery} (hx : a.queries[q]? = some x)
    (hq : a.stage q = .keyed key) : (a.emplace q key x).Owned := by
  obtain rfl := h.key q key hq
  have hset : (a.setStage q .stored).Owned :=
    h.setStage (by simp [hq]) (fun _ => by rw [hq]; rfl) (by simp [Stage.owed])
      (by simp [Stage.waits]) (by simp)
  unfold Asking.emplace
  split
  · exact hset
  · have hentry : ∀ id : Nat, (a.server.downloads.backedupRequests.insert a.counter
        ⟨x.info, false⟩)[id]? = if id = a.counter then some ⟨x.info, false⟩ else
          a.server.queries.entry id := fun id => Lookup.getElem?_insert ..
    refine ⟨hset.found, hset.waiting, fun id entry he c hc => ?_, hset.asked_le, fun id hid => ?_,
      hset.bounded, hset.single, fun p hp => ?_, hset.key, hset.mine, hset.begun⟩
    · have he' := (hentry id).symm.trans he
      split at he'
      · next hid =>
        obtain rfl := Option.some.inj he'
        obtain rfl := h.mine q x hx (by rw [hq]; rfl) c (hid ▸ hc)
        exact h.waiting q x hx (by rw [hq]; rfl)
      · exact h.owner id entry he' c hc
    · by_cases hcounter : id = a.counter
      · exact hcounter.le
      · refine h.entry_le id ?_
        have hsome := (congrArg Option.isSome (hentry id)).symm.trans hid
        rwa [if_neg hcounter] at hsome
    · -- `q` was the only one between its increment and its insertion
      have howed : ((a.setStage q .stored).stage p).owed = true := hp
      have hstores : (a.setStage q .stored).stage q = .stored := Function.update_self ..
      obtain rfl : p = q := hset.single p q (Stage.active_of_owed howed) (by rw [hstores]; rfl)
      rw [hstores] at howed
      cases howed

theorem start (h : a.Owned) {q : Nat} (x : OwnerQuery) (hq : a.stage q = .stored) :
    (a.start q x).Owned := by
  unfold Asking.start
  split
  · exact ⟨h.found, h.waiting, h.owner, h.asked_le, h.entry_le, h.bounded, h.single, h.free, h.key,
      h.mine, h.begun⟩
  · next entry hentry =>
    have hset : (a.setStage q .done).Owned :=
      h.setStage (by simp [hq]) (by simp [Stage.active, Stage.owed]) (by simp [Stage.owed])
        (by simp [Stage.waits]) (by simp)
    refine hset.of_entry (fun _ hx => hx) rfl rfl (fun _ _ => rfl) (fun id entry' he => ?_) rfl rfl
      fun b hb => Or.inl hb
    rcases Lookup.of_getElem?_insert he with ⟨rfl, rfl⟩ | ⟨-, he⟩
    · exact ⟨entry, hentry, rfl⟩
    · exact ⟨entry', he, rfl⟩

theorem advance (h : a.Owned) {q : Nat} (hkeep : a.AnswersAsked cfg (.advance q))
    (hs : a.advance q = some a') : a'.Owned := by
  obtain ⟨x, hx, hs⟩ := Option.bind_eq_some_iff.mp hs
  split at hs
  · cases hs
  · next hq =>
    obtain rfl := Option.some.inj hs
    exact h.increment hq (hkeep hq)
  · next hq =>
    obtain rfl := Option.some.inj hs
    exact h.ask hx hq
  · next hq =>
    obtain rfl := Option.some.inj hs
    obtain ⟨hfound, hwaiting, howner, hasked, hentry, hbounded, hsingle, hfree, hkey, hmine,
        hbegun⟩ : (a.setStage q .captured).Owned :=
      h.setStage (by simp [hq]) (fun _ => by rw [hq]; rfl) (fun _ => by rw [hq]; rfl)
        (fun _ => by rw [hq]; rfl) (by simp)
    exact ⟨hfound, hwaiting, howner, hasked, hentry, hbounded, hsingle, hfree, hkey, hmine, hbegun⟩
  · next hq =>
    obtain ⟨-, hs⟩ := Option.ite_none_left_eq_some.mp hs
    obtain rfl := Option.some.inj hs
    exact h.setStage (by simp [hq]) (fun _ => by rw [hq]; rfl) (fun _ => by rw [hq]; rfl)
      (fun _ => by rw [hq]; rfl) (fun key hkey => by cases hkey; rfl)
  · next hq =>
    obtain rfl := Option.some.inj hs
    exact h.emplace hx hq
  · next hq =>
    obtain rfl := Option.some.inj hs
    exact h.start x hq

/-- What a step of the server that puts no query on hold keeps. -/
theorem setServer (h : a.Owned) {s' : Server} (hquiet : Queries.Quiet a.server s'.queries)
    (hnick : ∀ c, a.AskedFor c → s'.registry.nickname c = a.server.registry.nickname c)
    (hbegun : ∀ b ∈ s'.queries.begun, b ∈ a.server.queries.begun ∨ b.sender = b.owner) :
    (a.setServer s').Owned := by
  refine h.of_entry (fun _ hx => hx) rfl rfl hnick (fun id entry' he => ?_) hquiet.asked
    hquiet.idCounter hbegun
  obtain ⟨entry, hentry, hinfo⟩ := hquiet.info id entry' he
  exact ⟨entry, hentry, congrArg DownloadInfo.fileOwner hinfo⟩

theorem timer (h : a.Owned) {id : Nat} (hs : a.timer id = some a') : a'.Owned := by
  obtain ⟨-, hs⟩ := Option.ite_none_left_eq_some.mp hs
  obtain ⟨entry, hentry, hs⟩ := Option.bind_eq_some_iff.mp hs
  obtain ⟨-, hs⟩ := Option.ite_none_right_eq_some.mp hs
  obtain rfl := Option.some.inj hs
  have hcore := blind_core.backupTimerExpired (a.handler id)
    { a.server with downloads := a.server.downloads.stopTimer id entry }
  refine h.setServer (Queries.Quiet.expired hentry _) (fun c _ => ?_) fun b hb => Or.inl ?_
  · exact congrArg (fun k => k.registry.nickname c) hcore
  · obtain ⟨as, -, -, hqueries⟩ := queries_forEachAndRemove answers_denyDownload (a.handler id)
      { a.server with downloads := a.server.downloads.stopTimer id entry }
    rw [backupTimerExpired, hqueries, Queries.remove, foldl_answer] at hb
    exact hb

/-- A transfer that a step begins, it begins with the reply of a client for an entry. -/
theorem begun_of_queryStep {s : Server} {e : Server.Event} {q' : Queries}
    (hstep : QueryStep cfg s e q') {b : Begun} (hb : b ∈ q'.begun) :
    b ∈ s.queries.begun ∨ ∃ c m env id entry, e = .read c m env ∧ s.readError cfg c m = none ∧
      m.approves cfg = some id ∧ s.queries.entry id = some entry ∧
      (stoull (m.header .FileSize)).isSome ∧
      b = ⟨id, s.registry.nickname c, entry.info.fileOwner⟩ := by
  have removed : ∀ id as, (s.queries.remove id as).begun = s.queries.begun := fun id as => by
    rw [Queries.remove, foldl_answer]
  cases hstep with
  | noDirectory hread happ hentry hsize _ =>
    exact (List.mem_cons.mp hb).symm.imp_right fun hb =>
      ⟨_, _, _, _, _, rfl, hread, happ, hentry, hsize, hb⟩
  | noFile as hread happ hentry hsize _ _ _ _ =>
    exact (List.mem_cons.mp hb).symm.imp_right fun hb =>
      ⟨_, _, _, _, _, rfl, hread, happ, hentry, hsize, hb⟩
  | begin hread happ hentry hsize _ _ =>
    exact (List.mem_cons.mp hb).symm.imp_right fun hb =>
      ⟨_, _, _, _, _, rfl, hread, happ, hentry, hsize, hb⟩
  | @finish _ id _ as => exact Or.inl (removed id as ▸ hb)
  | _ => exact Or.inl hb

theorem serverStep (hsound : a.Sound) (h : a.Owned) {e : Server.Event}
    (hkeep : a.AnswersAsked cfg (.server e)) (hs : a.serverStep cfg e = some a') : a'.Owned := by
  obtain ⟨-, hs⟩ := Option.ite_none_left_eq_some.mp hs
  split at hs
  · cases hs
  · split at hs
    · next server x hquery =>
      obtain rfl := Option.some.inj hs
      obtain ⟨hcore, hqueries, -, hnick, -⟩ := ownerQuery_spec hquery
      exact h.find (congrArg Core.registry hcore) hqueries hnick
    · next hquery =>
      obtain ⟨s', hs', rfl⟩ := Option.map_eq_some_iff.mp hs
      have hcodes : ∀ r ∈ a.server.running, ¬ r.rest.Misanswers := fun r hr hm =>
        hsound.codes.running r hr hm
      have hstep := step_queries hcodes hs'
      refine h.setServer (Queries.Quiet.of_queryStep hstep (held_of_ownerQuery hcodes hquery hs'))
        (fun c hasked => ?_) fun b hb => ?_
      · rcases Core.nickname_step (step_core hs') c with
          hsame | ⟨i, code, j, login, rfl, hi, hlogin⟩
        · exact hsame
        · exact hlogin.trans (hkeep _ hi login rfl hasked)
      · refine (begun_of_queryStep hstep hb).imp_right ?_
        rintro ⟨c, m, env, id, entry, rfl, hread, happ, hentry, hsize, rfl⟩
        exact h.owner id entry hentry c (hkeep hread id happ (by rw [hentry]; rfl) hsize)

theorem step (hsound : a.Sound) (h : a.Owned) {e : Event} (hkeep : a.AnswersAsked cfg e)
    (hstep : a.step cfg e = some a') : a'.Owned := by
  obtain ⟨-, hstep⟩ := Option.ite_none_left_eq_some.mp hstep
  cases e with
  | server e => exact serverStep hsound h hkeep hstep
  | check i => exact h.check hstep
  | advance q => exact h.advance hkeep hstep
  | timer id => exact h.timer hstep

end Owned

end Asking

/-- In every run in which clients answer only what they were asked, and the counter is
not incremented while another query uses it, a transfer is begun only by a reply of a
client with the nickname of the owner of the entry. -/
theorem begun_by_owner {cfg : Config} {users : List (Str × Str)} {a : Asking}
    (h : Reach (Asking.step cfg) (Asking.AnswersAsked cfg) (Asking.initial cfg users) a) :
    ∀ b ∈ a.server.downloads.begun, b.sender = b.owner := by
  have howned : a.Sound ∧ a.Owned := by
    refine h.invariant (I := fun a => a.Sound ∧ a.Owned)
      ⟨Asking.sound_initial cfg users, Asking.owned_initial cfg users⟩
      fun a e a' hs hk hst => ⟨hs.1.step hst, hs.2.step hs.1 hk hst⟩
  exact howned.2.begun

/-- The owner answers the query that it was sent. -/
theorem begun_by_owner_after_reply :
    ∃ a, Reach (Asking.step sampleConfig) (Asking.AnswersAsked sampleConfig)
        (Asking.initial sampleConfig []) a ∧
      a.server.downloads.begun = [⟨2, ['a'], ['a']⟩] ∧
      ∀ b ∈ a.server.downloads.begun, b.sender = b.owner := by
  obtain ⟨a, ha, hone⟩ := exists_reach_of_exec_guarded (Asking.step sampleConfig)
    (Asking.AnswersAsked sampleConfig) (Asking.initial sampleConfig [])
    (fun a => a.server.downloads.begun = [⟨2, ['a'], ['a']⟩])
    (Server.Event.querryOfFile.map .server ++ .check 0 :: List.replicate 6 (.advance 0) ++
      [.server (Server.Event.readReply 0 ['2'] ['1'])]) (by decide +kernel)
  exact ⟨a, ha, hone, begun_by_owner ha⟩

/-- The client that asked for the file approves the download itself. -/
theorem forged_reply_begins_transfer :
    ∃ a, Reach (Asking.step sampleConfig) anyStep (Asking.initial sampleConfig []) a ∧
      ∃ b ∈ a.server.downloads.begun, b.sender ≠ b.owner := by
  obtain ⟨a, ha, hbegun⟩ := exists_reach_of_exec (Asking.step sampleConfig)
    (Asking.initial sampleConfig [])
    (fun a => a.server.downloads.begun = [⟨2, ['b'], ['a']⟩])
    (Server.Event.querryOfFile.map .server ++ .check 0 :: List.replicate 6 (.advance 0) ++
      [.server (Server.Event.readReply 1 ['2'] ['1'])]) (by decide +kernel)
  exact ⟨a, ha, ⟨2, ['b'], ['a']⟩, by simp [hbegun], by decide⟩

end FspServer
