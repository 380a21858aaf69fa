import FspServer.Lib.Lookup
import FspServer.Step

/-!
# Download queries for one file

A query for a file that is not cached joins the entry for the same file when there
is one. Otherwise it increments `DownloadTransactionsIDCounter`, asks the owner
under the new id and backs the request up under it. The check and the insertion
are two critical sections, and the counter has no lock: it is read once for the
query to the owner, and `BackupAndStartTimer`, which takes it by reference, reads
it for the handler of the timer, for `emplace` and for `operator[]`.

`Coalescing` runs any number of queries, each step by step. There is one entry for
a file and one id for a query to an owner as long as (`Coalescing.Serialized`)

* a query passes the check for a file only while no other query for that file is
  between its check and its end;
* the counter is incremented only while no other query is between its increment
  and its last read of the counter.
-/

namespace FspServer

open Runs

/-- How far a query has come. -/
inductive Stage where
  /-- It has not begun, has joined an entry or has ended. -/
  | done
  /-- `IsDownloadPending` has found no entry. -/
  | passed
  | incremented
  /-- The query to the owner was sent. -/
  | asked
  /-- The handler of the timer holds its id. -/
  | captured
  /-- Under the lock: the key of `emplace` was read. -/
  | keyed (key : Nat)
  /-- Under the lock: the entry was inserted; its timer is not started. -/
  | stored
deriving DecidableEq, Repr

namespace Stage

/-- The query holds the lock of the backed up requests. -/
def locks : Stage → Bool
  | .keyed _ | .stored => true
  | _ => false

/-- The query is between its increment and its insertion. -/
def owed : Stage → Bool
  | .incremented | .asked | .captured | .keyed _ => true
  | _ => false

/-- The query is between its increment and its last read of the counter. -/
def active : Stage → Bool
  | .stored => true
  | st => st.owed

theorem active_of_owed {st : Stage} (h : st.owed = true) : st.active = true := by
  cases st with
  | stored => rfl
  | _ => exact h

end Stage

/-- The file that is waited for, by the names under which entries are looked up. -/
def DownloadInfo.file (info : DownloadInfo) : Str × Str := (info.fileOwner, info.filePath)

structure Coalescing where
  downloads : Downloads := {}
  /-- The ids that the handlers of timers hold. -/
  timers : List Nat := []
  /-- A null pointer was used. -/
  halted : Bool := false
  /-- The number of queries that have passed the check. -/
  begun : Nat := 0
  info : Nat → DownloadInfo := fun _ => ⟨[], [], []⟩
  stage : Nat → Stage := fun _ => .done
  /-- History: the ids that the queries to owners carry. -/
  askedIDs : List Nat := []
  /-- History: the queries whose entry was dropped by `emplace`. -/
  dropped : List Nat := []

namespace Coalescing

def counter (s : Coalescing) : Nat := s.downloads.downloadTransactionsIDCounter

def entry (s : Coalescing) (id : Nat) : Option Backup := s.downloads.backedupRequests[id]?

def setStage (q : Nat) (st : Stage) (s : Coalescing) : Coalescing :=
  { s with stage := Function.update s.stage q st }

/-- Some query holds the lock. -/
def locked (s : Coalescing) : Bool := (List.range s.begun).any fun q => (s.stage q).locks

/-- `IsDownloadPending`. -/
def check (fileOwner filePath : Str) (r : DownloadRequest) (s : Coalescing) :
    Option Coalescing :=
  if s.locked then none
  else match s.downloads.isDownloadPending fileOwner filePath r with
    | some downloads => some { s with downloads }
    | none => some { s with
        begun := s.begun + 1
        info := Function.update s.info s.begun ⟨fileOwner, filePath, [r]⟩
        stage := Function.update s.stage s.begun .passed }

/-- `emplace`. -/
def emplace (q key : Nat) (s : Coalescing) : Coalescing :=
  { s with
    downloads.backedupRequests := s.downloads.backedupRequests.insertIfNew key ⟨s.info q, false⟩
    dropped := if s.downloads.backedupRequests.contains key then q :: s.dropped else s.dropped
    stage := Function.update s.stage q .stored }

/-- The start of the timer of `operator[]`; an entry that it has to make has none. -/
def start (q : Nat) (s : Coalescing) : Coalescing :=
  match s.entry s.counter with
  | none => { s with halted := true }
  | some entry =>
    { s with
      downloads.backedupRequests :=
        s.downloads.backedupRequests.insert s.counter { entry with timerArmed := true }
      stage := Function.update s.stage q .done }

/-- The next step of a query. -/
def advance (q : Nat) (s : Coalescing) : Option Coalescing :=
  match s.stage q with
  | .done => none
  | .passed =>
    some ({ s with downloads.downloadTransactionsIDCounter := s.counter + 1 }.setStage q
      .incremented)
  | .incremented => some ({ s with askedIDs := s.counter :: s.askedIDs }.setStage q .asked)
  | .asked => some ({ s with timers := s.counter :: s.timers }.setStage q .captured)
  | .captured => if s.locked then none else some (s.setStage q (.keyed s.counter))
  | .keyed key => some (s.emplace q key)
  | .stored => some (s.start q)

/-- The entry is removed, under the lock, when its requests have been answered. -/
def remove (id : Nat) (s : Coalescing) : Option Coalescing :=
  if s.locked then none
  else some { s with downloads.backedupRequests := s.downloads.backedupRequests.erase id }

inductive Event where
  | check (fileOwner filePath : Str) (r : DownloadRequest)
  | advance (q : Nat)
  /-- A timer expires. -/
  | timer (i : Nat)
  /-- A transfer or its timer ends, or a transfer cannot be begun. -/
  | remove (id : Nat)

def step (s : Coalescing) (e : Event) : Option Coalescing :=
  if s.halted then none
  else match e with
    | .check fileOwner filePath r => s.check fileOwner filePath r
    | .advance q => s.advance q
    | .timer i => (s.timers[i]?).bind s.remove
    | .remove id => s.remove id

/-- At most one entry for each file, a different id in each query to an owner, and
no entry dropped. -/
structure Coalesced (s : Coalescing) : Prop where
  once : ∀ (id id' : Nat) (e e' : Backup), s.entry id = some e → s.entry id' = some e' →
    e.info.file = e'.info.file → id = id'
  distinct : s.askedIDs.Nodup
  kept : s.dropped = []

/-- The condition on the order of the steps of different queries. -/
def Serialized (s : Coalescing) : Event → Prop
  | .check fileOwner filePath r =>
    (s.downloads.isDownloadPending fileOwner filePath r).isNone = true →
      ∀ q < s.begun, s.stage q ≠ .done → (s.info q).file ≠ (fileOwner, filePath)
  | .advance q => s.stage q = .passed → ∀ p < s.begun, (s.stage p).active = false
  | _ => True

instance (s : Coalescing) (e : Event) : Decidable (s.Serialized e) :=
  match e with
  | .check .. => inferInstanceAs (Decidable (_ → ∀ q < s.begun, _ → _))
  | .advance _ => inferInstanceAs (Decidable (_ → ∀ p < s.begun, _))
  | .timer _ | .remove _ => inferInstanceAs (Decidable True)

/-! ## The invariant -/

/-- The invariant of the runs that meet the condition. -/
structure Serial (s : Coalescing) : Prop where
  coalesced : s.Coalesced
  bounded : ∀ q, s.stage q ≠ .done → q < s.begun
  single : ∀ p q, (s.stage p).active = true → (s.stage q).active = true → p = q
  above : ∀ id, s.counter < id → s.entry id = none
  free : ∀ q, (s.stage q).owed = true → s.entry s.counter = none
  key : ∀ q key, s.stage q = .keyed key → key = s.counter
  askedBelow : ∀ id ∈ s.askedIDs, id ≤ s.counter
  unasked : ∀ q, s.stage q = .incremented → s.counter ∉ s.askedIDs
  files : ∀ p q, s.stage p ≠ .done → s.stage q ≠ .done → (s.info p).file = (s.info q).file → p = q
  absent : ∀ q, s.stage q ≠ .done → s.stage q ≠ .stored → ∀ id e, s.entry id = some e →
    e.info.file ≠ (s.info q).file

/-- Entries may be removed and may get more requests. -/
theorem Serial.of_entries {s s' : Coalescing} (h : s.Serial) (hcounter : s'.counter = s.counter)
    (hbegun : s'.begun = s.begun) (hinfo : s'.info = s.info) (hstage : s'.stage = s.stage)
    (hasked : s'.askedIDs = s.askedIDs) (hdropped : s'.dropped = s.dropped)
    (hentry : ∀ id e', s'.entry id = some e' → ∃ e, s.entry id = some e ∧
      e.info.file = e'.info.file) : s'.Serial := by
  have none_of : ∀ {id}, s.entry id = none → s'.entry id = none := by
    intro id hnone
    cases he : s'.entry id with
    | none => rfl
    | some e' =>
      obtain ⟨e, hold, -⟩ := hentry id e' he
      simp [hnone] at hold
  refine ⟨⟨?_, hasked ▸ h.coalesced.distinct, hdropped ▸ h.coalesced.kept⟩, ?_, ?_, ?_, ?_, ?_, ?_,
    ?_, ?_, ?_⟩
  · intro id id' e e' he he' hfile
    obtain ⟨f, hf, hff⟩ := hentry id e he
    obtain ⟨f', hf', hff'⟩ := hentry id' e' he'
    exact h.coalesced.once id id' f f' hf hf' (by rw [hff, hff', hfile])
  · rw [hstage, hbegun]
    exact h.bounded
  · rw [hstage]
    exact h.single
  · rw [hcounter]
    exact fun id hid => none_of (h.above id hid)
  · rw [hstage, hcounter]
    exact fun q hq => none_of (h.free q hq)
  · rw [hstage, hcounter]
    exact h.key
  · rw [hasked, hcounter]
    exact h.askedBelow
  · rw [hstage, hcounter, hasked]
    exact h.unasked
  · rw [hstage, hinfo]
    exact h.files
  · rw [hstage, hinfo]
    intro q hq hstored id e' he'
    obtain ⟨e, he, hfile⟩ := hentry id e' he'
    exact hfile ▸ h.absent q hq hstored id e he

/-- An entry is replaced by one for the same file. -/
theorem file_of_insert {m : Std.TreeMap Nat Backup} {id : Nat} {e : Backup}
    (he : m[id]? = some e) (e' : Backup) (hfile : e'.info.file = e.info.file) (j : Nat) (f : Backup)
    (hf : (m.insert id e')[j]? = some f) : ∃ g, m[j]? = some g ∧ g.info.file = f.info.file := by
  rcases Lookup.of_getElem?_insert hf with ⟨rfl, rfl⟩ | ⟨-, hf⟩
  · exact ⟨e, he, hfile.symm⟩
  · exact ⟨f, hf, rfl⟩

/-- The stage of a query after one of them has gone on. -/
theorem stage_setStage_cases (s : Coalescing) (q : Nat) (st : Stage) (p : Nat) :
    (p = q ∧ (s.setStage q st).stage p = st) ∨
      (p ≠ q ∧ (s.setStage q st).stage p = s.stage p) := by
  by_cases hp : p = q
  · subst hp
    exact Or.inl ⟨rfl, Function.update_self ..⟩
  · exact Or.inr ⟨hp, Function.update_of_ne hp ..⟩

/-- A query goes on without an increment. -/
theorem Serial.setStage {s : Coalescing} (h : s.Serial) {q : Nat} {st : Stage}
    (hq : s.stage q ≠ .done) (hactive : st.active = true → (s.stage q).active = true)
    (howed : st.owed = true → (s.stage q).owed = true)
    (hkey : ∀ key, st = .keyed key → key = s.counter) (hincremented : st ≠ .incremented)
    (hstored : st ≠ .done → st ≠ .stored → s.stage q ≠ .stored) : (s.setStage q st).Serial := by
  -- what a query other than `done` has, it had before
  have old : ∀ {p}, (s.setStage q st).stage p ≠ .done → s.stage p ≠ .done := by
    intro p hp
    rcases s.stage_setStage_cases q st p with ⟨rfl, -⟩ | ⟨-, hst⟩
    · exact hq
    · rwa [hst] at hp
  have oldActive : ∀ {p}, ((s.setStage q st).stage p).active = true →
      (s.stage p).active = true := by
    intro p hp
    rcases s.stage_setStage_cases q st p with ⟨rfl, hst⟩ | ⟨-, hst⟩ <;> rw [hst] at hp
    · exact hactive hp
    · exact hp
  refine ⟨⟨h.coalesced.once, h.coalesced.distinct, h.coalesced.kept⟩,
    fun p hp => h.bounded p (old hp),
    fun p r hp hr => h.single p r (oldActive hp) (oldActive hr), h.above, ?_, ?_, h.askedBelow, ?_,
    fun p r hp hr => h.files p r (old hp) (old hr), ?_⟩
  · intro p hp
    refine h.free p ?_
    rcases s.stage_setStage_cases q st p with ⟨rfl, hst⟩ | ⟨-, hst⟩ <;> rw [hst] at hp
    · exact howed hp
    · exact hp
  · intro p key hp
    rcases s.stage_setStage_cases q st p with ⟨-, hst⟩ | ⟨-, hst⟩ <;> rw [hst] at hp
    · exact hkey key hp
    · exact h.key p key hp
  · intro p hp
    rcases s.stage_setStage_cases q st p with ⟨-, hst⟩ | ⟨-, hst⟩ <;> rw [hst] at hp
    · exact absurd hp hincremented
    · exact h.unasked p hp
  · intro p hp hps
    rcases s.stage_setStage_cases q st p with ⟨rfl, hst⟩ | ⟨-, hst⟩ <;> rw [hst] at hp hps
    · exact h.absent p hq (hstored hp hps)
    · exact h.absent p hp hps

/-- A query passes the check. -/
theorem Serial.pass {s : Coalescing} (h : s.Serial) {owner path : Str} {r : DownloadRequest}
    (hnone : s.downloads.isDownloadPending owner path r = none)
    (halone : ∀ q < s.begun, s.stage q ≠ .done → (s.info q).file ≠ (owner, path)) :
    Serial { s with
      begun := s.begun + 1
      info := Function.update s.info s.begun ⟨owner, path, [r]⟩
      stage := Function.update s.stage s.begun .passed } := by
  have hfree : ∀ id e, s.entry id = some e → e.info.file ≠ (owner, path) := by
    intro id e he hfile
    have hfind := List.find?_eq_none.mp (Option.map_eq_none_iff.mp hnone) (id, e)
      (Std.TreeMap.mem_toList_iff_getElem?_eq_some.mpr he)
    obtain ⟨howner, hpath⟩ := Prod.mk.inj hfile
    exact hfind (by simp [howner, hpath])
  -- the new query, and one that was there
  have parts : ∀ p, (p = s.begun ∧ Function.update s.stage s.begun .passed p = .passed ∧
      Function.update s.info s.begun ⟨owner, path, [r]⟩ p = ⟨owner, path, [r]⟩) ∨
      (Function.update s.stage s.begun .passed p = s.stage p ∧
        Function.update s.info s.begun ⟨owner, path, [r]⟩ p = s.info p) := by
    intro p
    by_cases hp : p = s.begun
    · subst hp
      exact Or.inl ⟨rfl, Function.update_self .., Function.update_self ..⟩
    · exact Or.inr ⟨Function.update_of_ne hp .., Function.update_of_ne hp ..⟩
  have oldActive : ∀ {p}, (Function.update s.stage s.begun .passed p).active = true →
      (s.stage p).active = true := by
    intro p hp
    rcases parts p with ⟨-, hst, -⟩ | ⟨hst, -⟩
    · simp [hst, Stage.active, Stage.owed] at hp
    · rwa [hst] at hp
  have other : ∀ {p}, s.stage p ≠ .done → (s.info p).file ≠ (owner, path) := fun hp =>
    halone _ (h.bounded _ hp) hp
  refine ⟨⟨h.coalesced.once, h.coalesced.distinct, h.coalesced.kept⟩, ?_,
    fun p q hp hq => h.single p q (oldActive hp) (oldActive hq), h.above, ?_, ?_, h.askedBelow, ?_,
    ?_, ?_⟩
  · intro p hp
    change Function.update s.stage s.begun .passed p ≠ .done at hp
    rcases parts p with ⟨rfl, -, -⟩ | ⟨hst, -⟩
    · exact Nat.lt_succ_self _
    · exact Nat.lt_succ_of_lt (h.bounded p (hst ▸ hp))
  · intro p hp
    change (Function.update s.stage s.begun .passed p).owed = true at hp
    rcases parts p with ⟨-, hst, -⟩ | ⟨hst, -⟩
    · simp [hst, Stage.owed] at hp
    · exact h.free p (hst ▸ hp)
  · intro p key hp
    change Function.update s.stage s.begun .passed p = .keyed key at hp
    rcases parts p with ⟨-, hst, -⟩ | ⟨hst, -⟩
    · cases hst.symm.trans hp
    · exact h.key p key (hst ▸ hp)
  · intro p hp
    change Function.update s.stage s.begun .passed p = .incremented at hp
    rcases parts p with ⟨-, hst, -⟩ | ⟨hst, -⟩
    · cases hst.symm.trans hp
    · exact h.unasked p (hst ▸ hp)
  · intro p q hp hq hfile
    change Function.update s.stage s.begun .passed p ≠ .done at hp
    change Function.update s.stage s.begun .passed q ≠ .done at hq
    change (Function.update s.info s.begun ⟨owner, path, [r]⟩ p).file =
      (Function.update s.info s.begun ⟨owner, path, [r]⟩ q).file at hfile
    rcases parts p with ⟨hpnew, -, hip⟩ | ⟨hstp, hip⟩ <;>
      rcases parts q with ⟨hqnew, -, hiq⟩ | ⟨hstq, hiq⟩ <;> rw [hip, hiq] at hfile
    · exact hpnew.trans hqnew.symm
    · exact absurd hfile.symm (other (hstq ▸ hq))
    · exact absurd hfile (other (hstp ▸ hp))
    · exact h.files p q (hstp ▸ hp) (hstq ▸ hq) hfile
  · intro p hp hps id e he
    change Function.update s.stage s.begun .passed p ≠ .done at hp
    change Function.update s.stage s.begun .passed p ≠ .stored at hps
    show e.info.file ≠ (Function.update s.info s.begun ⟨owner, path, [r]⟩ p).file
    rcases parts p with ⟨-, -, hinfo⟩ | ⟨hst, hinfo⟩ <;> rw [hinfo]
    · exact hfree id e he
    · exact h.absent p (hst ▸ hp) (hst ▸ hps) id e he

/-- The counter is incremented while no other query uses it. -/
theorem Serial.increment {s : Coalescing} (h : s.Serial) {q : Nat} (hq : s.stage q = .passed)
    (halone : ∀ p < s.begun, (s.stage p).active = false) :
    Serial ({ s with downloads.downloadTransactionsIDCounter := s.counter + 1 }.setStage q
      .incremented) := by
  have inactive : ∀ p, (s.stage p).active = false := by
    intro p
    by_cases hp : s.stage p = .done
    · rw [hp]
      rfl
    · exact halone p (h.bounded p hp)
  have old : ∀ {p}, (s.setStage q .incremented).stage p ≠ .done → s.stage p ≠ .done := by
    intro p hp
    rcases s.stage_setStage_cases q .incremented p with ⟨rfl, -⟩ | ⟨-, hst⟩
    · simp [hq]
    · rwa [hst] at hp
  -- only `q` uses the counter now
  have only : ∀ {p}, ((s.setStage q .incremented).stage p).active = true → p = q := by
    intro p hp
    rcases s.stage_setStage_cases q .incremented p with ⟨hpq, -⟩ | ⟨-, hst⟩
    · exact hpq
    · rw [hst, inactive p] at hp
      cases hp
  have hfree : s.entry (s.counter + 1) = none := h.above _ (Nat.lt_succ_self _)
  refine ⟨⟨h.coalesced.once, h.coalesced.distinct, h.coalesced.kept⟩,
    fun p hp => h.bounded p (old hp), fun p r hp hr => (only hp).trans (only hr).symm,
    fun id hid => h.above id (Nat.lt_of_succ_lt hid), fun _ _ => hfree, ?_,
    fun id hid => (h.askedBelow id hid).trans (Nat.le_succ _), ?_,
    fun p r hp hr => h.files p r (old hp) (old hr), ?_⟩
  · intro p key hp
    change (s.setStage q .incremented).stage p = .keyed key at hp
    rcases s.stage_setStage_cases q .incremented p with ⟨-, hst⟩ | ⟨hpq, -⟩
    · cases hst.symm.trans hp
    · exact absurd (only (by rw [hp]; rfl)) hpq
  · intro p _ hmem
    exact absurd (h.askedBelow _ hmem) (Nat.not_succ_le_self _)
  · intro p hp _
    refine h.absent p (old hp) fun hst => ?_
    have hinactive := inactive p
    rw [hst] at hinactive
    cases hinactive

/-- The owner is asked under the current id. -/
theorem Serial.ask {s : Coalescing} (h : s.Serial) {q : Nat} (hq : s.stage q = .incremented) :
    Serial ({ s with askedIDs := s.counter :: s.askedIDs }.setStage q .asked) := by
  have hset : (s.setStage q .asked).Serial :=
    h.setStage (by simp [hq]) (fun _ => by rw [hq]; rfl) (fun _ => by rw [hq]; rfl) (by simp)
      (by simp) (by simp [hq])
  have hnew := h.unasked q hq
  refine ⟨⟨hset.coalesced.once, List.nodup_cons.mpr ⟨hnew, h.coalesced.distinct⟩, h.coalesced.kept⟩,
    hset.bounded, hset.single, hset.above, hset.free, hset.key, ?_, ?_, hset.files, hset.absent⟩
  · intro id hid
    rcases List.mem_cons.mp hid with rfl | hid
    · exact le_rfl
    · exact h.askedBelow id hid
  · -- no other query has just incremented the counter
    intro p hp
    have hp' : (s.setStage q .asked).stage p = .incremented := hp
    rcases s.stage_setStage_cases q .asked p with ⟨-, hst⟩ | ⟨hpq, hst⟩ <;> rw [hst] at hp'
    · cases hp'
    · exact absurd (h.single p q (by rw [hp']; rfl) (by rw [hq]; rfl)) hpq

/-- The entry of a query is inserted under an id that is not in use. -/
theorem Serial.emplace {s : Coalescing} (h : s.Serial) {q key : Nat}
    (hq : s.stage q = .keyed key) : (s.emplace q key).Serial := by
  obtain rfl := h.key q key hq
  have hset : (s.setStage q .stored).Serial :=
    h.setStage (by simp [hq]) (fun _ => by rw [hq]; rfl) (by simp [Stage.owed]) (by simp) (by simp)
      (by simp)
  have hnone : s.entry s.counter = none := h.free q (by rw [hq]; rfl)
  have hentry : ∀ id, (s.emplace q s.counter).entry id =
      if id = s.counter then some ⟨s.info q, false⟩ else s.entry id := fun id =>
    Lookup.getElem?_insertIfNew hnone _ id
  have hfile : ∀ id e, s.entry id = some e → e.info.file ≠ (s.info q).file :=
    h.absent q (by simp [hq]) (by simp [hq])
  have hdropped : (s.emplace q s.counter).dropped = s.dropped := by
    have hcontains : s.downloads.backedupRequests.contains s.counter = false := by
      rw [Std.TreeMap.contains_eq_isSome_getElem?]
      exact congrArg Option.isSome hnone
    simp [Coalescing.emplace, hcontains]
  refine ⟨⟨?_, h.coalesced.distinct, hdropped.trans h.coalesced.kept⟩, hset.bounded, hset.single,
    ?_, ?_, hset.key, h.askedBelow, hset.unasked, hset.files, ?_⟩
  · intro id id' e e' he he' heq
    rw [hentry] at he he'
    split at he <;> split at he'
    · next hid hid' => exact hid.trans hid'.symm
    · obtain rfl := Option.some.inj he
      exact absurd heq.symm (hfile id' e' he')
    · obtain rfl := Option.some.inj he'
      exact absurd heq (hfile id e he)
    · exact h.coalesced.once id id' e e' he he' heq
  · intro id hid
    have hlt : s.counter < id := hid
    rw [hentry, if_neg hlt.ne']
    exact h.above id hlt
  · -- `q` was the only one between its increment and its insertion
    intro p hp
    have howed : ((s.setStage q .stored).stage p).owed = true := hp
    rcases s.stage_setStage_cases q .stored p with ⟨-, hst⟩ | ⟨hpq, hst⟩ <;> rw [hst] at howed
    · cases howed
    · exact absurd (h.single p q (Stage.active_of_owed howed) (by rw [hq]; rfl)) hpq
  · intro p hp hps id e he
    have hne : p ≠ q := by
      rintro rfl
      exact hps (Function.update_self ..)
    have hpdone : s.stage p ≠ .done := by
      simpa [Coalescing.emplace, hne] using hp
    show e.info.file ≠ (s.info p).file
    rw [hentry] at he
    split at he
    · obtain rfl := Option.some.inj he
      intro hfiles
      exact hne (h.files p q hpdone (by simp [hq]) hfiles.symm)
    · exact hset.absent p hp hps id e he

/-- The timer is started and the query ends. -/
theorem Serial.start {s : Coalescing} (h : s.Serial) {q : Nat} (hq : s.stage q = .stored) :
    (s.start q).Serial := by
  unfold Coalescing.start
  split
  · exact h.of_entries rfl rfl rfl rfl rfl rfl fun id e he => ⟨e, he, rfl⟩
  · next entry hentry =>
    have hset : (s.setStage q .done).Serial :=
      h.setStage (by simp [hq]) (by simp [Stage.active, Stage.owed]) (by simp [Stage.owed])
        (by simp) (by simp) (by simp)
    exact hset.of_entries rfl rfl rfl rfl rfl rfl fun id e he =>
      file_of_insert hentry { entry with timerArmed := true } rfl id e he

theorem Serial.advance {s s' : Coalescing} {q : Nat} (h : s.Serial)
    (halone : s.Serialized (.advance q)) (hs : s.advance q = some s') : s'.Serial := by
  unfold Coalescing.advance at hs
  split at hs
  · cases hs
  · next hq =>
    obtain rfl := Option.some.inj hs
    exact h.increment hq (halone hq)
  · next hq =>
    obtain rfl := Option.some.inj hs
    exact h.ask hq
  · next hq =>
    obtain rfl := Option.some.inj hs
    have hset : (s.setStage q .captured).Serial :=
      h.setStage (by simp [hq]) (fun _ => by rw [hq]; rfl) (fun _ => by rw [hq]; rfl) (by simp)
        (by simp) (by simp [hq])
    exact hset.of_entries rfl rfl rfl rfl rfl rfl fun id e he => ⟨e, he, rfl⟩
  · next hq =>
    obtain ⟨-, hs⟩ := Option.ite_none_left_eq_some.mp hs
    obtain rfl := Option.some.inj hs
    exact h.setStage (by simp [hq]) (fun _ => by rw [hq]; rfl) (fun _ => by rw [hq]; rfl)
      (fun key hkey => by cases hkey; rfl) (by simp) (by simp [hq])
  · next key hq =>
    obtain rfl := Option.some.inj hs
    exact h.emplace hq
  · next hq =>
    obtain rfl := Option.some.inj hs
    exact h.start hq

theorem Serial.check {s s' : Coalescing} {owner path : Str} {r : DownloadRequest} (h : s.Serial)
    (halone : s.Serialized (.check owner path r)) (hs : s.check owner path r = some s') :
    s'.Serial := by
  obtain ⟨-, hs⟩ := Option.ite_none_left_eq_some.mp hs
  split at hs
  · next downloads hjoin =>
    obtain rfl := Option.some.inj hs
    obtain ⟨⟨id, entry⟩, hfind, rfl⟩ := Option.map_eq_some_iff.mp hjoin
    have hentry : s.downloads.backedupRequests[id]? = some entry :=
      Std.TreeMap.mem_toList_iff_getElem?_eq_some.mp (List.mem_of_find?_eq_some hfind)
    exact h.of_entries rfl rfl rfl rfl rfl rfl fun j f hf => file_of_insert hentry
      { entry with info := { entry.info with requests := r :: entry.info.requests } } rfl j f hf
  · next hnone =>
    obtain rfl := Option.some.inj hs
    exact h.pass hnone (halone (by simp [hnone]))

theorem Serial.remove {s s' : Coalescing} {id : Nat} (h : s.Serial)
    (hs : s.remove id = some s') : s'.Serial := by
  obtain ⟨-, hs⟩ := Option.ite_none_left_eq_some.mp hs
  obtain rfl := Option.some.inj hs
  refine h.of_entries rfl rfl rfl rfl rfl rfl fun j f hf => ?_
  exact ⟨f, (Lookup.of_getElem?_erase hf).2, rfl⟩

theorem Serial.step {s s' : Coalescing} {e : Event} (h : s.Serial) (halone : s.Serialized e)
    (hs : s.step e = some s') : s'.Serial := by
  unfold Coalescing.step at hs
  split at hs
  · cases hs
  · cases e with
    | check fileOwner filePath r => exact h.check halone hs
    | advance q => exact h.advance halone hs
    | timer i =>
      obtain ⟨id, -, hs⟩ := Option.bind_eq_some_iff.mp hs
      exact h.remove hs
    | remove id => exact h.remove hs

theorem serial_initial : ({} : Coalescing).Serial where
  coalesced := ⟨fun _ _ _ _ h => by simp [entry] at h, List.nodup_nil, rfl⟩
  bounded := fun _ h => absurd rfl h
  single := fun _ _ h => by cases h
  above := fun _ _ => by simp [entry]
  free := fun _ h => by cases h
  key := fun _ _ h => by cases h
  askedBelow := fun _ h => absurd h List.not_mem_nil
  unasked := fun _ h => by cases h
  files := fun _ _ h => absurd rfl h
  absent := fun _ h => absurd rfl h

end Coalescing

/-! ## A query without interruption -/

namespace Coalescing

theorem locked_eq_false {s : Coalescing} (h : ∀ q, (s.stage q).locks = false) :
    s.locked = false := by
  simp [locked, h]

theorem exec_advance {s s' : Coalescing} {q : Nat} {es : List Event} (hhalted : s.halted = false)
    (h : s.advance q = some s') : exec step s (.advance q :: es) = exec step s' es := by
  simp [exec, step, hhalted, h]

section Advance

variable {s : Coalescing} {q : Nat}

theorem advance_passed (h : s.stage q = .passed) :
    s.advance q = some ({ s with
      downloads.downloadTransactionsIDCounter := s.counter + 1 }.setStage q .incremented) := by
  simp [advance, h]

theorem advance_incremented (h : s.stage q = .incremented) :
    s.advance q = some ({ s with askedIDs := s.counter :: s.askedIDs }.setStage q .asked) := by
  simp [advance, h]

theorem advance_asked (h : s.stage q = .asked) :
    s.advance q = some ({ s with timers := s.counter :: s.timers }.setStage q .captured) := by
  simp [advance, h]

theorem advance_captured (h : s.stage q = .captured) (hunlocked : s.locked = false) :
    s.advance q = some (s.setStage q (.keyed s.counter)) := by
  simp [advance, h, hunlocked]

theorem advance_keyed {key : Nat} (h : s.stage q = .keyed key) :
    s.advance q = some (s.emplace q key) := by
  simp [advance, h]

theorem advance_stored {entry : Backup} (h : s.stage q = .stored)
    (hentry : s.entry s.counter = some entry) :
    s.advance q = some { s with
      downloads.backedupRequests :=
        s.downloads.backedupRequests.insert s.counter { entry with timerArmed := true }
      stage := Function.update s.stage q .done } := by
  simp [advance, h, start, hentry]

end Advance

/-- When nothing comes between its steps, a query that finds no entry does what the
server's `resolve_download_file_querry` does in one step: the next id is sent to the
owner and the request is backed up under it. -/
theorem exec_query {s : Coalescing} {owner path : Str} {r : DownloadRequest}
    (hhalted : s.halted = false) (hdone : ∀ q, s.stage q = .done)
    (hnone : s.downloads.isDownloadPending owner path r = none)
    (hfree : s.entry (s.counter + 1) = none) :
    ∃ s', exec step s (.check owner path r :: List.replicate 6 (.advance s.begun)) = some s' ∧
      (∀ q, s'.stage q = .done) ∧ s'.counter = s.counter + 1 ∧
      s'.askedIDs = (s.counter + 1) :: s.askedIDs ∧
      ∀ id : Nat, s'.entry id = (s.downloads.backupAndStartTimer (s.counter + 1)
        ⟨owner, path, [r]⟩).backedupRequests[id]? := by
  have hunlocked : s.locked = false := locked_eq_false fun q => by rw [hdone q]; rfl
  have hcheck : ∀ es, exec step s (.check owner path r :: es) = exec step { s with
      begun := s.begun + 1
      info := Function.update s.info s.begun ⟨owner, path, [r]⟩
      stage := Function.update s.stage s.begun .passed } es := by
    simp [exec, step, check, hhalted, hunlocked, hnone]
  have hinserted : ∀ (info : DownloadInfo) (id : Nat), (s.downloads.backedupRequests.insertIfNew
      (s.counter + 1) ⟨info, false⟩)[id]? =
        if id = s.counter + 1 then some ⟨info, false⟩ else s.entry id := fun info id =>
    Lookup.getElem?_insertIfNew hfree _ id
  simp only [List.replicate]
  rw [hcheck, exec_advance ?_ (advance_passed ?_), exec_advance ?_ (advance_incremented ?_),
    exec_advance ?_ (advance_asked ?_), exec_advance ?_ (advance_captured ?_ ?_),
    exec_advance ?_ (@advance_keyed _ _ (s.counter + 1) ?_),
    exec_advance ?_ (@advance_stored _ _ ⟨⟨owner, path, [r]⟩, false⟩ ?_ ?_)]
  · refine ⟨_, rfl, fun q => ?_, rfl, rfl, fun id => ?_⟩
    · simp [emplace, setStage, Function.update_apply, hdone]
    · have hold : s.downloads.backedupRequests[s.counter + 1]? = none := hfree
      simp only [Downloads.backupAndStartTimer, hold, Option.getD_none, Lookup.getElem?_insert]
      refine (Lookup.getElem?_insert _ (s.counter + 1) _ id).trans ?_
      split
      · rfl
      · next hid => exact (hinserted _ id).trans (if_neg hid)
  any_goals exact hhalted
  any_goals exact Function.update_self ..
  · refine (hinserted _ (s.counter + 1)).trans ?_
    simp [setStage]
  · refine locked_eq_false fun q => ?_
    simp only [setStage, Function.update_idem, Function.update_apply, hdone]
    split <;> rfl

end Coalescing

/-- In every run that meets the condition there is at most one entry for each file,
no two queries to owners carry the same id, and no entry is dropped. -/
theorem requests_coalesced {s : Coalescing}
    (h : Reach Coalescing.step Coalescing.Serialized {} s) : s.Coalesced := by
  have hserial : s.Serial :=
    h.invariant Coalescing.serial_initial fun _ _ _ hs halone hst => hs.step halone hst
  exact hserial.coalesced

/-- A request for a file of `o`. -/
def sampleRequest (c : ConnId) : DownloadRequest := ⟨c, .nocompression, ['1'], 0⟩

/-- One query passes the check for the file `f` while another one, for the file `g`,
is under way; a third request joins the entry for `f`. -/
theorem requests_coalesced_after_join :
    ∃ s, Reach Coalescing.step Coalescing.Serialized {} s ∧
      s.askedIDs = [3, 2] ∧ s.Coalesced := by
  obtain ⟨s, hs, hasked⟩ := exists_reach_of_exec_guarded Coalescing.step Coalescing.Serialized {}
    (fun s => s.askedIDs = [3, 2])
    [.check ['o'] ['f'] (sampleRequest 0), .advance 0, .check ['o'] ['g'] (sampleRequest 1),
      .advance 0, .advance 0, .advance 0, .advance 0, .advance 0,
      .check ['o'] ['f'] (sampleRequest 2), .advance 1, .advance 1] (by decide +kernel)
  exact ⟨s, hs, hasked, requests_coalesced hs⟩

/-- Two queries for the file `f` pass the check, and both increment the counter
before either reads it: both ask the owner under the id 3, and the entry of the second
one is dropped. -/
theorem overlapping_queries_share_id :
    ∃ s, Reach Coalescing.step anyStep {} s ∧ s.askedIDs = [3, 3] ∧ s.dropped = [1] ∧
      ¬ s.Coalesced := by
  obtain ⟨s, hs, hasked, hdropped⟩ := exists_reach_of_exec Coalescing.step {}
    (fun s => s.askedIDs = [3, 3] ∧ s.dropped = [1])
    ([.check ['o'] ['f'] (sampleRequest 0), .check ['o'] ['f'] (sampleRequest 1),
      .advance 0, .advance 1] ++ List.replicate 5 (.advance 0) ++ List.replicate 4 (.advance 1))
    (by decide +kernel)
  refine ⟨s, hs, hasked, hdropped, fun hcoalesced => ?_⟩
  have hkept := hcoalesced.kept
  simp [hdropped] at hkept

end FspServer
