import FspServer.Lib.Lookup
import FspServer.Step

/-!
# Upload transactions

`BeginUploadTransaction` reads `upload_transactions_id_counter_` outside the lock,
for the clean-up handler, the timer handler and the id it returns, and later,
under `upload_mutex_`, stores the deliverer under the value that the counter has
then and increments it. Worker threads and the download thread call it at the same
time.

`Uploads` runs any number of such calls, each in its two steps. Every caller is
given the id of its own file as long as a call reads the counter only while no
other call is between its two steps (`Uploads.CapturesAlone`). A call whose two
steps follow each other is `Downloads.beginUploadTransaction`
(`insert_capture_eq_beginUploadTransaction`).
-/

namespace FspServer

open Runs

/-- A file deliverer with its timer. The call is history: the number of the call
that made it. -/
structure FileDeliver where
  file : Str
  compression : Compression
  /-- The id in the clean-up handler. -/
  cleanUpID : Nat
  /-- The id in the handler of the timer. -/
  timerID : Nat
  call : Nat
deriving DecidableEq, Repr

/-- A call of `BeginUploadTransaction` that has read the counter. -/
structure UploadCall where
  deliver : FileDeliver
  size : Nat
  transactionID : Nat
deriving DecidableEq, Repr

/-- What a call has returned (history). -/
structure UploadReturn where
  call : Nat
  file : Str
  transactionID : Nat
deriving DecidableEq, Repr

structure Uploads where
  uploadTransactions : Std.TreeMap Nat FileDeliver := ∅
  uploadTransactionsIDCounter : Nat := 1
  /-- The calls between their two steps. -/
  calls : List UploadCall := []
  /-- An assertion has failed. -/
  halted : Bool := false
  /-- History: the number of calls, what they have returned, and the ids that were
  erased. -/
  begun : Nat := 0
  returned : List UploadReturn := []
  ended : List Nat := []

namespace Uploads

/-- `BeginUploadTransaction` up to the lock. -/
def capture (env : FileEnv) (file : Str) (compression : Compression) (s : Uploads) : Uploads :=
  match env.fileSize with
  | none => s
  | some size =>
    if size = 0 ∨ !env.openFile then s
    else
      let compression :=
        if 104857600 < size ∧ compression = .zlib then .zlib else .nocompression
      let id := s.uploadTransactionsIDCounter
      { s with
        calls := s.calls ++ [⟨⟨file, compression, id, id, s.begun⟩, size, id⟩]
        begun := s.begun + 1 }

/-- `BeginUploadTransaction` under the lock: `emplace` keeps an entry that is
already there. -/
def insert (i : Nat) (s : Uploads) : Option Uploads :=
  (s.calls[i]?).map fun c =>
    let id := s.uploadTransactionsIDCounter
    { s with
      calls := s.calls.eraseIdx i
      uploadTransactions := s.uploadTransactions.insertIfNew id c.deliver
      uploadTransactionsIDCounter := id + 1
      returned := ⟨c.deliver.call, c.deliver.file, c.transactionID⟩ :: s.returned }

/-- `assert(EndUploadTransaction(id))`. -/
def endUploadTransaction (build : Build) (id : Nat) (s : Uploads) : Uploads :=
  match build with
  | .release => s
  | .debug =>
    { s with
      uploadTransactions := s.uploadTransactions.erase id
      halted := !s.uploadTransactions.contains id
      ended := id :: s.ended }

inductive Event where
  | capture (env : FileEnv) (file : Str) (compression : Compression)
  | insert (i : Nat)
  /-- The deliverer stored under the key calls its clean-up handler. -/
  | cleanUp (key : Nat)
  /-- The timer stored under the key expires. -/
  | timer (key : Nat)

def step (build : Build) (s : Uploads) (e : Event) : Option Uploads :=
  if s.halted then none
  else match e with
    | .capture env file compression => some (s.capture env file compression)
    | .insert i => s.insert i
    | .cleanUp key =>
      (s.uploadTransactions[key]?).map fun d => s.endUploadTransaction build d.cleanUpID
    | .timer key =>
      (s.uploadTransactions[key]?).map fun d => s.endUploadTransaction build d.timerID

/-- Each caller was given the key of its own deliverer, which is stored there or
was erased since; every deliverer ends its own transaction; all ids differ. -/
structure RightFiles (s : Uploads) : Prop where
  own : ∀ r ∈ s.returned,
    (∃ d, s.uploadTransactions[r.transactionID]? = some d ∧ d.call = r.call ∧ d.file = r.file) ∨
      (s.uploadTransactions[r.transactionID]? = none ∧ r.transactionID ∈ s.ended)
  cleanUp : ∀ (key : Nat) (d : FileDeliver), s.uploadTransactions[key]? = some d →
    d.cleanUpID = key ∧ d.timerID = key
  distinct : (s.returned.map (·.transactionID)).Nodup

/-- A call reads the counter only while no other call is between its steps. -/
def CapturesAlone (s : Uploads) : Event → Prop
  | .capture env .. => env.readable = true → s.calls = []
  | _ => True

instance (s : Uploads) (e : Event) : Decidable (s.CapturesAlone e) :=
  match e with
  | .capture .. => inferInstanceAs (Decidable (_ → _ = _))
  | .insert _ | .cleanUp _ | .timer _ => inferInstanceAs (Decidable True)

/-- The invariant of the runs without overlap. -/
structure Sequential (s : Uploads) : Prop where
  right : s.RightFiles
  single : s.calls.length ≤ 1
  current : ∀ c ∈ s.calls, c.transactionID = s.uploadTransactionsIDCounter ∧
    c.deliver.cleanUpID = s.uploadTransactionsIDCounter ∧
    c.deliver.timerID = s.uploadTransactionsIDCounter
  below : ∀ key, s.uploadTransactionsIDCounter ≤ key → s.uploadTransactions[key]? = none
  old : ∀ r ∈ s.returned, r.transactionID < s.uploadTransactionsIDCounter

theorem Sequential.capture {s : Uploads} (h : s.Sequential) {env : FileEnv} (file : Str)
    (compression : Compression) (halone : s.CapturesAlone (.capture env file compression)) :
    (s.capture env file compression).Sequential := by
  unfold Uploads.capture
  split
  · exact h
  · next size hsize =>
    split
    · exact h
    · next hopens =>
      rw [not_or] at hopens
      have hopen : env.openFile = true := by simpa using hopens.2
      have halone : s.calls = [] := halone (by simp [FileEnv.readable, hsize, hopens.1, hopen])
      refine ⟨⟨h.right.own, h.right.cleanUp, h.right.distinct⟩, ?_, ?_, h.below, h.old⟩
      · simp [halone]
      · intro c hc
        obtain rfl : c = _ := by simpa [halone] using hc
        exact ⟨rfl, rfl, rfl⟩

theorem Sequential.insert {s s' : Uploads} {i : Nat} (h : s.Sequential)
    (hs : s.insert i = some s') : s'.Sequential := by
  obtain ⟨c, hi, rfl⟩ := Option.map_eq_some_iff.mp hs
  obtain ⟨hid, hclean, htimer⟩ := h.current c (List.mem_of_getElem? hi)
  have hfresh := h.below _ le_rfl
  have hcalls : s.calls.eraseIdx i = [] := by
    have hsingle := h.single
    cases hlist : s.calls with
    | nil => simp
    | cons a l =>
      obtain rfl : l = [] := by simpa [hlist] using hsingle
      cases i with
      | zero => rfl
      | succ i => simp [hlist] at hi
  refine ⟨⟨?_, ?_, ?_⟩, by simp [hcalls], by simp [hcalls], ?_, ?_⟩
  · intro r hr
    simp only [Lookup.getElem?_insertIfNew hfresh]
    rcases List.mem_cons.mp hr with rfl | hr
    · exact Or.inl ⟨c.deliver, by simp [hid], rfl, rfl⟩
    · have hne : r.transactionID ≠ s.uploadTransactionsIDCounter := (h.old r hr).ne
      simpa [hne] using h.right.own r hr
  · intro key d hd
    rcases Lookup.of_getElem?_insertIfNew hd with ⟨hkey, rfl⟩ | hd
    · exact ⟨hclean.trans hkey.symm, htimer.trans hkey.symm⟩
    · exact h.right.cleanUp key d hd
  · refine List.nodup_cons.mpr ⟨fun hmem => ?_, h.right.distinct⟩
    obtain ⟨r, hr, heq⟩ := List.mem_map.mp hmem
    exact absurd (heq.trans hid) (h.old r hr).ne
  · intro key hkey
    have hle : s.uploadTransactionsIDCounter < key := hkey
    rw [Lookup.getElem?_insertIfNew hfresh, if_neg hle.ne']
    exact h.below key hle.le
  · intro r hr
    rcases List.mem_cons.mp hr with rfl | hr
    · exact hid ▸ Nat.lt_succ_self _
    · exact Nat.lt_succ_of_lt (h.old r hr)

/-- Ending a transaction by its own key. -/
theorem Sequential.endUploadTransaction {s : Uploads} (h : s.Sequential) (build : Build)
    (key : Nat) : (s.endUploadTransaction build key).Sequential := by
  cases build with
  | release => exact h
  | debug =>
    refine ⟨⟨?_, ?_, h.right.distinct⟩, h.single, h.current, ?_, h.old⟩
    · intro r hr
      show (∃ d, (s.uploadTransactions.erase key)[r.transactionID]? = some d ∧ _) ∨
        ((s.uploadTransactions.erase key)[r.transactionID]? = none ∧ _)
      rw [Lookup.getElem?_erase]
      split
      · next hkey => exact Or.inr ⟨rfl, hkey ▸ List.mem_cons_self⟩
      · exact (h.right.own r hr).imp id fun hended => ⟨hended.1, List.mem_cons_of_mem _ hended.2⟩
    · intro j d hd
      exact h.right.cleanUp j d (Lookup.of_getElem?_erase hd).2
    · intro j hj
      show (s.uploadTransactions.erase key)[j]? = none
      rw [Lookup.getElem?_erase, h.below j hj, ite_self]

theorem Sequential.step {build : Build} {s s' : Uploads} {e : Event} (h : s.Sequential)
    (halone : s.CapturesAlone e) (hs : s.step build e = some s') : s'.Sequential := by
  unfold Uploads.step at hs
  split at hs
  · cases hs
  · cases e with
    | capture env file compression =>
      obtain rfl := Option.some.inj hs
      exact h.capture file compression halone
    | insert i => exact h.insert hs
    | cleanUp key =>
      obtain ⟨d, hd, rfl⟩ := Option.map_eq_some_iff.mp hs
      exact h.endUploadTransaction build _
    | timer key =>
      obtain ⟨d, hd, rfl⟩ := Option.map_eq_some_iff.mp hs
      exact h.endUploadTransaction build _

theorem sequential_initial : ({} : Uploads).Sequential :=
  ⟨⟨fun _ h => absurd h List.not_mem_nil, fun _ _ h => by simp at h, List.nodup_nil⟩,
    Nat.zero_le _, fun _ h => absurd h List.not_mem_nil, fun _ _ => by simp,
    fun _ h => absurd h List.not_mem_nil⟩

/-! ## A call without interruption -/

/-- The transactions of the server, with the file that each one delivers. -/
def Matches (s : Uploads) (d : Downloads) : Prop :=
  s.uploadTransactionsIDCounter = d.uploadTransactionsIDCounter ∧
    ∀ key : Nat, d.uploadTransactions[key]? = (s.uploadTransactions[key]?).map (·.file)

/-- When nothing comes between its two steps, a call does what the server's
`beginUploadTransaction` does: it fails, or it returns the same id. -/
theorem insert_capture_eq_beginUploadTransaction {s : Uploads} {d : Downloads}
    (hmatch : s.Matches d) (hcalls : s.calls = []) (env : FileEnv) (file : Str)
    (compression : Compression) :
    match d.beginUploadTransaction env file compression with
    | none => s.capture env file compression = s
    | some (id, _, _, d') => ∃ s', (s.capture env file compression).insert 0 = some s' ∧
        s'.calls = [] ∧ s'.Matches d' ∧
        s'.returned = ⟨s.begun, file, id⟩ :: s.returned := by
  obtain ⟨hcounter, hstored⟩ := hmatch
  unfold Downloads.beginUploadTransaction capture
  cases env.fileSize with
  | none => rfl
  | some size =>
    by_cases hfail : size = 0 ∨ (!env.openFile) = true
    · simp only [if_pos hfail]
    · simp only [if_neg hfail]
      refine ⟨_, by simp only [insert, hcalls, List.nil_append]; rfl, rfl, ⟨?_, ?_⟩, ?_⟩
      · exact congrArg (· + 1) hcounter
      · intro key
        show (d.uploadTransactions.insertIfNew _ file)[key]? =
          ((s.uploadTransactions.insertIfNew _ _)[key]?).map _
        have hmem : d.uploadTransactionsIDCounter ∈ d.uploadTransactions ↔
            s.uploadTransactionsIDCounter ∈ s.uploadTransactions := by
          rw [Std.TreeMap.mem_iff_isSome_getElem?, Std.TreeMap.mem_iff_isSome_getElem?, hstored,
            hcounter, Option.isSome_map]
        rw [Std.TreeMap.getElem?_insertIfNew, Std.TreeMap.getElem?_insertIfNew, ← hcounter]
        rw [← hcounter] at hmem
        simp only [hmem]
        split
        · rfl
        · exact hstored key
      · exact congrArg (fun id => UploadReturn.mk s.begun file id :: s.returned) hcounter

end Uploads

/-- In every run in which a call reads the counter only while no other call is
between its two steps: each caller was given the key of its own deliverer, every
deliverer ends its own transaction, and no two callers got the same id. -/
theorem uploads_right {build : Build} {s : Uploads}
    (h : Reach (Uploads.step build) Uploads.CapturesAlone {} s) : s.RightFiles := by
  have hsequential : s.Sequential :=
    h.invariant Uploads.sequential_initial fun _ _ _ hs halone hst => hs.step halone hst
  exact hsequential.right

/-- Two files are begun one after the other and the first transfer ends. -/
theorem uploads_right_after_two :
    ∃ s, Reach (Uploads.step .debug) Uploads.CapturesAlone {} s ∧
      s.returned = [⟨1, ['g'], 2⟩, ⟨0, ['f'], 1⟩] ∧ s.ended = [1] ∧ s.RightFiles := by
  obtain ⟨s, hs, hreturned, hended⟩ := exists_reach_of_exec_guarded (Uploads.step .debug)
    Uploads.CapturesAlone {} (fun s => s.returned = [⟨1, ['g'], 2⟩, ⟨0, ['f'], 1⟩] ∧ s.ended = [1])
    [.capture sampleEnv ['f'] .zlib, .insert 0, .capture sampleEnv ['g'] .zlib, .insert 0,
      .cleanUp 1] (by decide +kernel)
  exact ⟨s, hs, hreturned, hended, uploads_right hs⟩

/-- Two calls overlap: both return the id 1, and the deliverer of the second file is
stored under 2, where its clean-up handler will not find it. -/
theorem overlapping_uploads_share_id :
    ∃ s, Reach (Uploads.step .debug) anyStep {} s ∧
      s.returned = [⟨1, ['g'], 1⟩, ⟨0, ['f'], 1⟩] ∧ ¬ s.RightFiles := by
  obtain ⟨s, hs, hreturned⟩ := exists_reach_of_exec (Uploads.step .debug) {}
    (fun s => s.returned = [⟨1, ['g'], 1⟩, ⟨0, ['f'], 1⟩])
    [.capture sampleEnv ['f'] .zlib, .capture sampleEnv ['g'] .zlib, .insert 0, .insert 0]
    (by decide +kernel)
  refine ⟨s, hs, hreturned, fun hright => ?_⟩
  have hdistinct := hright.distinct
  rw [hreturned] at hdistinct
  simp at hdistinct

end FspServer
