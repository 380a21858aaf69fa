import FspServer.Frame

/-!
# Debug and release builds

A release build defines `NDEBUG`, so the arguments of its assertions are not evaluated,
and five of them do something: `notify_shared_write_done` erases a shared buffer,
`SetFileToCached` marks a file, `EndDownloadTransaction` and `EndUploadTransaction`
erase a transaction, and `TryStartDownloadTransaction` writes the start byte.

`BuiltServer` is the server with the start bytes it has sent. `builds_agree_iff`: on a
sequence of events on which no assertion fails, the two builds go through the same
values exactly as long as none of these arguments is evaluated. All else in the code
is the same in both.
-/

namespace FspServer

open Node Runs

structure BuiltServer where
  server : Server
  /-- The bytes sent on the sockets of download transactions: the id of the transaction
  for each start byte. -/
  startBytes : List Nat := []

namespace BuiltServer

open Server

/-- The start bytes after an event: `TryStartDownloadTransaction` writes one in an
assertion, before it uses the receiver. -/
def sendStartByte (build : Build) (b : BuiltServer) : Server.Event → List Nat
  | .helloSender id =>
    if build = .debug && b.server.downloads.downloadTransactions.contains id then
      id :: b.startBytes
    else b.startBytes
  | _ => b.startBytes

def step (build : Build) (cfg : Config) (b : BuiltServer) (e : Server.Event) :
    Option BuiltServer :=
  (b.server.step { cfg with build } e).map fun server => ⟨server, b.sendStartByte build e⟩

/-- The values that are compared. -/
structure SameValues (cfg : Config) (a b : BuiltServer) : Prop where
  sharedStorage : ∀ id : Nat,
    a.server.registry.sharedStorage[id]? = b.server.registry.sharedStorage[id]?
  downloadTransactions : ∀ id : Nat, a.server.downloads.downloadTransactions[id]? =
    b.server.downloads.downloadTransactions[id]?
  uploadTransactions : ∀ id : Nat,
    a.server.downloads.uploadTransactions[id]? = b.server.downloads.uploadTransactions[id]?
  cached : ∀ c path, find cfg.PATH_SEPARATOR_CHR path (a.server.tree c) =
    find cfg.PATH_SEPARATOR_CHR path (b.server.tree c)
  startBytes : a.startBytes = b.startBytes

/-- An assertion fails in the step of a debug build. (The buffer that
`notify_shared_write_done` erases is always there; the start byte is written.) -/
def assertionFails (cfg : Config) (b : BuiltServer) (e : Server.Event) : Bool :=
  let s := b.server
  !s.halted &&
    match e with
    | .transactionTimer id =>
      s.downloads.transactionTimers.contains id && !s.downloads.downloadTransactions.contains id
    | .transferCompleted id success _ =>
      match s.downloads.completionHandlers[id]? with
      | none => false
      | some handler =>
        (success &&
          match s.findConnection handler.fileOwner with
          | none => false
          | some o => (find cfg.PATH_SEPARATOR_CHR handler.filePath (s.tree o)).isNone) ||
        !s.downloads.downloadTransactions.contains id
    | .uploadCompleted id => !s.downloads.uploadTransactions.contains id
    | _ => false

/-- The step evaluates an assertion that does something: it finishes the last write of a
shared buffer, ends a transfer, lets the timer of a transaction expire, or handles the
hello message of a sender for a stored transaction. -/
def evaluates (b : BuiltServer) (e : Server.Event) : Bool :=
  let s := b.server
  !s.halted &&
    match e with
    | .sharedWrite i (.bytes transferred) =>
      match s.registry.writes[i]? with
      | none => false
      | some w =>
        decide ((SendResult.bytes transferred).Fits w) && s.alive w.conn &&
          w.offset + transferred = w.size &&
          ((s.registry.sharedStorage[w.bufferID]?).getD {}).counter = 1
    | .transactionTimer id => s.downloads.transactionTimers.contains id
    | .transferCompleted id _ _ => s.downloads.completionHandlers.contains id
    | .uploadCompleted id => s.downloads.uploadTransactions.contains id
    | .helloSender id => s.downloads.downloadTransactions.contains id
    | _ => false

/-! ## Steps that are the same in both builds -/

theorem decrement_eq_zero_iff (n : Nat) : decrement n = 0 ↔ n = 1 := by
  unfold decrement
  split
  · simp_all
  · omega

/-- The builds differ in `notify_shared_write_done` when the counter comes to zero. -/
theorem notifySharedWriteDone_build (r : Registry) {id : Nat}
    (h : ((r.sharedStorage[id]?).getD {}).counter ≠ 1) :
    r.notifySharedWriteDone .debug id = r.notifySharedWriteDone .release id := by
  unfold Registry.notifySharedWriteDone
  have hcounter : decrement ((r.sharedStorage[id]?).getD {}).counter ≠ 0 :=
    fun hzero => h ((decrement_eq_zero_iff _).mp hzero)
  simp only [hcounter, false_and, ↓reduceIte]

theorem sharedWriteCompleted_build (cfg : Config) (w : SharedWrite) (result : SendResult)
    (s : Server)
    (h : ∀ transferred, result = .bytes transferred → s.alive w.conn = true →
      w.offset + transferred = w.size →
      ((s.registry.sharedStorage[w.bufferID]?).getD {}).counter ≠ 1) :
    s.sharedWriteCompleted { cfg with build := .debug } w result =
      s.sharedWriteCompleted { cfg with build := .release } w result := by
  unfold Server.sharedWriteCompleted
  dsimp only
  split
  · rfl
  · next halive =>
    cases result with
    | failed => rfl
    | bytes transferred =>
      dsimp only
      split
      · rfl
      · next hsize =>
        rw [Bool.not_eq_true, Bool.not_eq_false'] at halive
        have hcounter := h transferred rfl halive (by simpa using hsize)
        rw [notifySharedWriteDone_build { s.registry with writes := s.registry.writes.erase w }
          hcounter]

/-- A step in which no assertion fails and none does anything is the same in both builds.
-/
theorem step_build_eq {cfg : Config} {b : BuiltServer} {e : Server.Event}
    (hfails : assertionFails cfg b e = false) (hevaluates : evaluates b e = false) :
    step .debug cfg b e = step .release cfg b e := by
  unfold step Server.step
  cases hrunning : b.server.halted with
  | true => rfl
  | false =>
    simp only [assertionFails, evaluates, hrunning, Bool.not_false, Bool.true_and]
      at hfails hevaluates
    cases e with
    | accept position => rfl
    | read c m env => rfl
    | execute i dbFails env => rfl
    | resume i => rfl
    | stop c => rfl
    | backupTimer id => rfl
    | sharedWrite i result =>
      cases hi : b.server.registry.writes[i]? with
      | none => simp [hi]
      | some w =>
        by_cases hfits : result.Fits w
        · have hsame := sharedWriteCompleted_build cfg w result b.server (by
            rintro transferred rfl halive hsize hcounter
            simp [hi, hfits, halive, hsize, hcounter] at hevaluates)
          simp [hi, hfits, hsame, sendStartByte]
        · simp [hi, hfits]
    | transactionTimer id =>
      have hid : id ∉ b.server.downloads.transactionTimers := by simpa using hevaluates
      simp [hid]
    | helloSender id =>
      have hid : b.server.downloads.downloadTransactions.contains id = false := hevaluates
      simp [sendStartByte, hid]
    | transferCompleted id success env =>
      have hid : b.server.downloads.completionHandlers.contains id = false := hevaluates
      rw [Std.TreeMap.contains_eq_isSome_getElem?] at hid
      cases hhandler : b.server.downloads.completionHandlers[id]? with
      | none => simp [hhandler]
      | some handler =>
        rw [hhandler] at hid
        cases hid
    | uploadCompleted id =>
      have hid : b.server.downloads.uploadTransactions.contains id = false := hevaluates
      simp [hid] at hfails

/-! ## Steps in which they differ -/

theorem downloadTransactions_forEachAndRemove {f : DownloadRequest → Server → Server}
    (hf : ∀ r s, (f r s).downloads.downloadTransactions = s.downloads.downloadTransactions)
    (id : Nat) (s : Server) : (s.forEachAndRemove id f).downloads.downloadTransactions =
      s.downloads.downloadTransactions := by
  unfold Server.forEachAndRemove
  split
  · rfl
  · exact Blind.foldl (p := fun s => s.downloads.downloadTransactions) hf _ s

theorem downloadTransactions_denyDownload (r : DownloadRequest) (s : Server) :
    (s.denyDownload r).downloads.downloadTransactions = s.downloads.downloadTransactions := rfl

theorem downloadTransactions_deliver (cfg : Config) (env : FileEnv) (path : Str)
    (r : DownloadRequest) (s : Server) :
    (s.deliverFileFromLocalStorage cfg env path r).downloads.downloadTransactions =
      s.downloads.downloadTransactions := by
  unfold Server.deliverFileFromLocalStorage Downloads.beginUploadTransaction
  cases env.fileSize with
  | none => rfl
  | some size =>
    dsimp only
    split
    · next h =>
      split at h
      · cases h
      · cases h
        rfl
    · rfl

/-- The end of a transfer ends the transaction, and does nothing to the map before, unless
the process ends. -/
theorem exists_transferCompleted_eq {cfg : Config} (env : FileEnv) (id : Nat)
    (handler : CompletionHandler) {success : Bool} {s : Server}
    (hcached : success = true →
      (s.setFileToCached cfg handler.fileOwner handler.filePath).halted = false) :
    ∃ s' : Server,
      s.transferCompleted cfg env id handler success = s'.endDownloadTransaction cfg id ∧
      s'.downloads.downloadTransactions = s.downloads.downloadTransactions := by
  unfold Server.transferCompleted
  cases success with
  | false =>
    exact ⟨_, rfl, downloadTransactions_forEachAndRemove downloadTransactions_denyDownload id s⟩
  | true =>
    have hset : (s.setFileToCached cfg handler.fileOwner handler.filePath).downloads =
        s.downloads := by
      unfold Server.setFileToCached
      split <;> rfl
    rw [if_pos rfl]
    refine ⟨_, if_neg (by simp [hcached rfl]), ?_⟩
    rw [downloadTransactions_forEachAndRemove (downloadTransactions_deliver cfg env _)]
    show (s.setFileToCached cfg handler.fileOwner
      handler.filePath).downloads.downloadTransactions = _
    rw [hset]

theorem getElem?_endDownloadTransaction {cfg : Config} (hbuild : cfg.build = .debug) (id : Nat)
    (s : Server) :
    (s.endDownloadTransaction cfg id).downloads.downloadTransactions[id]? = none := by
  unfold Server.endDownloadTransaction
  rw [hbuild]
  simp

theorem endDownloadTransaction_release {cfg : Config} (hbuild : cfg.build = .release) (id : Nat)
    (s : Server) : s.endDownloadTransaction cfg id = s := by
  unfold Server.endDownloadTransaction
  rw [hbuild]

/-- A transaction that only one build erases shows in the values. -/
theorem not_sameValues_of_ended {cfg : Config} {a b : BuiltServer} (id : Nat)
    (ha : a.server.downloads.downloadTransactions[id]? = none)
    (hb : id ∈ b.server.downloads.downloadTransactions) : ¬ SameValues cfg a b := by
  intro h
  rw [Std.TreeMap.mem_iff_isSome_getElem?, ← h.downloadTransactions id, ha] at hb
  cases hb

/-- `SetFileToCached` does not end the process when its assertion holds. -/
theorem halted_setFileToCached {cfg : Config} {s : Server} {owner path : Str}
    (hrunning : s.halted = false)
    (hfound : ∀ o, s.findConnection owner = some o →
      (find cfg.PATH_SEPARATOR_CHR path (s.tree o)).isSome = true) :
    (s.setFileToCached cfg owner path).halted = false := by
  unfold Server.setFileToCached
  split
  · next o ho _ =>
    have hfind := hfound o ho
    unfold find at hfind
    unfold setCached
    cases hnode : doFindNode cfg.PATH_SEPARATOR_CHR path (s.tree o) with
    | none => simp [hnode] at hfind
    | some n => rfl
  · exact hrunning

/-- The last write of a shared buffer. -/
theorem sharedWriteCompleted_last {cfg : Config} {w : SharedWrite} {transferred : Nat} {s : Server}
    (halive : s.alive w.conn = true) (hsize : w.offset + transferred = w.size)
    (hcounter : ((s.registry.sharedStorage[w.bufferID]?).getD {}).counter = 1) :
    (s.sharedWriteCompleted cfg w (.bytes transferred)).registry.sharedStorage[w.bufferID]? =
      if cfg.build = .debug then none
      else some { ((s.registry.sharedStorage[w.bufferID]?).getD {}) with counter := 0 } := by
  have hdone : decrement ((s.registry.sharedStorage[w.bufferID]?).getD {}).counter = 0 :=
    (decrement_eq_zero_iff _).mpr hcounter
  unfold Server.sharedWriteCompleted
  dsimp only
  split
  · next hdead =>
    have hdead : s.alive w.conn = false := by
      rw [Bool.not_eq_true'] at hdead
      exact hdead
    rw [halive] at hdead
    cases hdead
  · rw [if_neg (by simpa using hsize)]
    simp only [Registry.notifySharedWriteDone, hdone, true_and]
    cases cfg.build with
    | debug => simp
    | release => simp

/-- The last write of a shared buffer: only the debug build erases the buffer. -/
theorem not_sameValues_lastWrite {cfg : Config} {s : Server} {w : SharedWrite} {transferred : Nat}
    (halive : s.alive w.conn = true) (hsize : w.offset + transferred = w.size)
    (hcounter : ((s.registry.sharedStorage[w.bufferID]?).getD {}).counter = 1)
    (debugBytes releaseBytes : List Nat) :
    ¬ SameValues cfg
      ⟨s.sharedWriteCompleted { cfg with build := .debug } w (.bytes transferred), debugBytes⟩
      ⟨s.sharedWriteCompleted { cfg with build := .release } w (.bytes transferred),
        releaseBytes⟩ := by
  intro hsame
  have hstorage := hsame.sharedStorage w.bufferID
  dsimp only at hstorage
  rw [sharedWriteCompleted_last halive hsize hcounter,
    sharedWriteCompleted_last halive hsize hcounter] at hstorage
  simp at hstorage

/-- The timer of a stored transaction: only the debug build erases the transaction. -/
theorem not_sameValues_transactionTimer {cfg : Config} {s : Server} {id : Nat}
    (hstored : id ∈ s.downloads.downloadTransactions) (debugBytes releaseBytes : List Nat) :
    ¬ SameValues cfg ⟨s.transactionTimerExpired { cfg with build := .debug } id, debugBytes⟩
      ⟨s.transactionTimerExpired { cfg with build := .release } id, releaseBytes⟩ := by
  refine not_sameValues_of_ended id (getElem?_endDownloadTransaction rfl id _) ?_
  show id ∈ (Server.endDownloadTransaction _ id _).downloads.downloadTransactions
  rw [endDownloadTransaction_release rfl,
    downloadTransactions_forEachAndRemove downloadTransactions_denyDownload]
  exact hstored

/-- A transfer of a stored transaction ends, and its file can be marked: only the debug
build erases the transaction. -/
theorem not_sameValues_transferCompleted {cfg : Config} {s : Server} {id : Nat}
    {handler : CompletionHandler} {success : Bool} (env : FileEnv)
    (hcached : ∀ build, success = true → (s.setFileToCached { cfg with build } handler.fileOwner
      handler.filePath).halted = false)
    (hstored : id ∈ s.downloads.downloadTransactions) (debugBytes releaseBytes : List Nat) :
    ¬ SameValues cfg
      ⟨s.transferCompleted { cfg with build := .debug } env id handler success, debugBytes⟩
      ⟨s.transferCompleted { cfg with build := .release } env id handler success,
        releaseBytes⟩ := by
  obtain ⟨d, hd, -⟩ := exists_transferCompleted_eq env id handler (hcached .debug)
  obtain ⟨r, hr, hmap⟩ := exists_transferCompleted_eq env id handler (hcached .release)
  refine not_sameValues_of_ended id ?_ ?_
  · dsimp only
    rw [hd]
    exact getElem?_endDownloadTransaction rfl id d
  · dsimp only
    rw [hr, endDownloadTransaction_release rfl, hmap]
    exact hstored

/-- The clean-up of a stored upload: only the debug build erases it. -/
theorem not_sameValues_endUploadTransaction {cfg : Config} {s : Server} {id : Nat}
    (hstored : s.downloads.uploadTransactions.contains id = true)
    (debugBytes releaseBytes : List Nat) :
    ¬ SameValues cfg ⟨s.endUploadTransaction { cfg with build := .debug } id, debugBytes⟩
      ⟨s.endUploadTransaction { cfg with build := .release } id, releaseBytes⟩ := by
  intro hsame
  have huploads := hsame.uploadTransactions id
  rw [Std.TreeMap.contains_eq_isSome_getElem?] at hstored
  have hnone : (none : Option Str) = s.downloads.uploadTransactions[id]? := by
    simpa [endUploadTransaction] using huploads
  rw [← hnone] at hstored
  cases hstored

/-- A step in which an assertion does something, and none fails, leads to other values. -/
theorem exists_step_differ {cfg : Config} {b : BuiltServer} {e : Server.Event}
    (hfails : assertionFails cfg b e = false) (hevaluates : evaluates b e = true) :
    ∃ d r, step .debug cfg b e = some d ∧ step .release cfg b e = some r ∧
      ¬ SameValues cfg d r := by
  cases hrunning : b.server.halted with
  | true => simp [evaluates, hrunning] at hevaluates
  | false =>
    simp only [assertionFails, evaluates, hrunning, Bool.not_false, Bool.true_and]
      at hfails hevaluates
    unfold step Server.step
    simp only [hrunning, Bool.false_eq_true, ↓reduceIte]
    cases e with
    | sharedWrite i result =>
      cases result with
      | failed => cases hevaluates
      | bytes transferred =>
        cases hi : b.server.registry.writes[i]? with
        | none => simp [hi] at hevaluates
        | some w =>
          simp only [hi, Bool.and_eq_true, decide_eq_true_eq] at hevaluates
          obtain ⟨⟨⟨hfits, halive⟩, hsize⟩, hcounter⟩ := hevaluates
          exact ⟨_, _, by simp only [hi, Option.bind_some, hfits, ↓reduceIte]; rfl,
            by simp only [hi, Option.bind_some, hfits, ↓reduceIte]; rfl,
            not_sameValues_lastWrite halive hsize hcounter _ _⟩
    | transactionTimer id =>
      have hid : id ∈ b.server.downloads.transactionTimers := by simpa using hevaluates
      have hstored : id ∈ b.server.downloads.downloadTransactions := by simpa [hid] using hfails
      exact ⟨_, _, by simp only [hid, ↓reduceIte]; rfl, by simp only [hid, ↓reduceIte]; rfl,
        not_sameValues_transactionTimer hstored _ _⟩
    | helloSender id =>
      have hstored : b.server.downloads.downloadTransactions.contains id = true := hevaluates
      refine ⟨_, _, rfl, rfl, fun hsame => ?_⟩
      have hbytes := hsame.startBytes
      simp [sendStartByte, hstored] at hbytes
    | transferCompleted id success env =>
      cases hhandler : b.server.downloads.completionHandlers[id]? with
      | none => simp [Std.TreeMap.contains_eq_isSome_getElem?, hhandler] at hevaluates
      | some handler =>
        simp only [hhandler, Bool.or_eq_false_iff, Bool.not_eq_false',
          Std.TreeMap.contains_iff_mem] at hfails
        obtain ⟨hcached, hstored⟩ := hfails
        refine ⟨_, _, by simp only [hhandler, Option.map_some]; rfl,
          by simp only [hhandler, Option.map_some]; rfl,
          not_sameValues_transferCompleted env ?_ hstored _ _⟩
        rintro build rfl
        refine halted_setFileToCached hrunning fun o ho => ?_
        simpa [ho] using hcached
    | uploadCompleted id =>
      have hstored : b.server.downloads.uploadTransactions.contains id = true := hevaluates
      exact ⟨_, _, rfl, rfl, not_sameValues_endUploadTransaction hstored _ _⟩
    | accept _ | read _ _ _ | execute _ _ _ | resume _ | stop _ | backupTimer _ => cases hevaluates

/-! ## Runs -/

/-- From any state, on events on which no assertion fails: the two builds go through the
same values exactly as long as no step evaluates an assertion that does something. -/
theorem builds_agree_iff (cfg : Config) (b : BuiltServer) (es : List Server.Event)
    (hfails : EachStep (step .debug cfg) (fun b e => assertionFails cfg b e = false) b es) :
    Lockstep (step .debug cfg) (step .release cfg) (SameValues cfg) b b es ↔
      EachStep (step .debug cfg) (fun b e => ¬ evaluates b e = true) b es := by
  refine lockstep_iff_eachStep (fun b => ⟨fun _ => rfl, fun _ => rfl, fun _ => rfl,
    fun _ _ => rfl, rfl⟩) ?_ ?_ hfails
  · intro b e hfails hevaluates
    exact step_build_eq hfails (Bool.not_eq_true _ ▸ hevaluates)
  · intro b e hfails hevaluates
    exact exists_step_differ hfails hevaluates

/-- Clients log in and register, one after the other. -/
def registrations (n : Nat) : List Server.Event :=
  (List.range n).flatMap fun c =>
    .accept c :: (Event.login c [Char.ofNat (97 + c)] ++ Event.register c [])

/-- Three clients register, and the first of the two writes of the last notification is
finished: both builds count it. -/
theorem builds_agree_first_write :
    Lockstep (step .debug sampleConfig) (step .release sampleConfig) (SameValues sampleConfig)
      ⟨Server.initial sampleConfig [], []⟩ ⟨Server.initial sampleConfig [], []⟩
      (registrations 3 ++ [.sharedWrite 1 (.bytes 1)]) :=
  (builds_agree_iff sampleConfig _ _ (by decide +kernel)).mpr (by decide +kernel)

/-- Two clients register and the only write of the notification is finished: the release
build keeps the buffer. -/
theorem last_write_differs :
    EachStep (step .debug sampleConfig) (fun b e => assertionFails sampleConfig b e = false)
        ⟨Server.initial sampleConfig [], []⟩ (registrations 2 ++ [.sharedWrite 0 (.bytes 1)]) ∧
      ¬ Lockstep (step .debug sampleConfig) (step .release sampleConfig) (SameValues sampleConfig)
        ⟨Server.initial sampleConfig [], []⟩ ⟨Server.initial sampleConfig [], []⟩
        (registrations 2 ++ [.sharedWrite 0 (.bytes 1)]) := by
  refine ⟨by decide +kernel, fun hlock => ?_⟩
  have hdebug : (exec (step .debug sampleConfig) ⟨Server.initial sampleConfig [], []⟩
      (registrations 2 ++ [.sharedWrite 0 (.bytes 1)])).map
        (fun b => (b.server.registry.sharedStorage[1]?).isSome) = some false := by decide +kernel
  have hrelease : (exec (step .release sampleConfig) ⟨Server.initial sampleConfig [], []⟩
      (registrations 2 ++ [.sharedWrite 0 (.bytes 1)])).map
        (fun b => (b.server.registry.sharedStorage[1]?).isSome) = some true := by decide +kernel
  obtain ⟨d, hd, hnone⟩ := Option.map_eq_some_iff.mp hdebug
  obtain ⟨r, hr, hsome⟩ := Option.map_eq_some_iff.mp hrelease
  have hsame := (hlock.of_exec hd hr).sharedStorage 1
  rw [← hsame, hnone] at hsome
  cases hsome

end BuiltServer

end FspServer
