import FspServer.Assertions

/-!
# The asserted facts

Each of the facts can fail (`facts_fail`):

* the owner changes its tree while the download is stored, or another connection comes
  to stand for the owner;
* a second hello message starts the transaction again, and the second transfer to end
  finds it erased;
* a second reply begins it again while it is running, which starts its timer, and the
  timer expires after the transfer has ended and the transaction is erased;
* two calls of `BeginUploadTransaction` read the same id for their handlers, and the
  second upload to end finds it erased.

`facts_hold`: in the runs without these no assertion fails. Three invariants carry it. A
stored download has a transfer only while its timer is off, and an erased one has
neither (`Tidy`); the owner of a stored download, if it is there, has the file
(`Resolved`); and the handlers of an upload hold its key.
-/

namespace FspServer

open Node PathSet RepresentationLemmas Runs

/-! ## Updates that spare a file -/

/-- The update does not touch the node with the path components `q`: it removes or
renames no node on the way to it, renames none to take its place, and adds none in
front of one on the way. -/
def VfsOp.Spares {χ : Type} [DecidableEq χ] (sep : χ) (q : List (List χ)) : VfsOp χ → Prop
  | .Add path => getComponents sep path = [] ∨ ¬ doubled (getComponents sep path) <+: q
  | .Remove path => getComponents sep path = [] ∨ ¬ getComponents sep path <+: q
  | .Rename path newPath =>
    filename sep newPath = [] ∨ getComponents sep path = [] ∨
      ¬ getComponents sep path <+: q ∧
        ¬ (getComponents sep path).dropLast ++ [filename sep newPath] <+: q
  | .SetCached _ _ => True

section Spares

variable {χ : Type} [DecidableEq χ] {sep : χ} {path : List χ} {root root' : Node χ}

theorem isSome_find_iff :
    (find sep path root).isSome = true ↔
      getComponents sep path ≠ [] ∧ getComponents sep path ∈ root.paths := by
  unfold find doFindNode
  cases getComponents sep path with
  | nil => simp
  | cons x p => simp [paths]

theorem paths_setCached (flag : Bool) (path' : List χ) :
    (setCached sep path' flag root).2.paths = root.paths := by
  unfold setCached
  cases hnode : doFindNode sep path' root with
  | none => rfl
  | some n =>
    have hmem := mem_paths_of_doFindNode hnode
    have hne := (doFindNode_some hnode).1
    ext q
    rw [paths_eq_marked, paths_eq_marked, mem_marked_alterAt_setCachedFlag hne hmem]
    by_cases hq : q = getComponents sep path'
    · rw [if_pos hq, hq, ← paths_eq_marked]
      exact iff_of_true trivial hmem
    · rw [if_neg hq]

theorem VfsOp.mem_paths_of_spares {owner : List χ} {op : VfsOp χ} {q : List (List χ)}
    (hop : op.apply sep owner root = some root') (h : op.Spares sep q) (hq : q ∈ root.paths) :
    q ∈ root'.paths := by
  cases op with
  | Add path =>
    obtain ⟨⟨n, left⟩, hadd, rfl⟩ := Option.map_eq_some_iff.mp hop
    exact mem_paths_doAdd hadd hq h
  | Remove path =>
    simp only [VfsOp.apply, remove, Option.some.injEq] at hop
    cases hnode : doFindNode sep path root with
    | none =>
      rw [hnode] at hop
      exact hop ▸ hq
    | some n =>
      rw [hnode] at hop
      have hp := h.resolve_left (doFindNode_some hnode).1
      exact hop ▸ mem_paths_alterAt hq hp (by simp)
  | Rename path newPath =>
    simp only [VfsOp.apply, rename, Option.some.injEq] at hop
    cases hnode : doFindNode sep path root with
    | none =>
      rw [hnode] at hop
      exact hop ▸ hq
    | some n =>
      rw [hnode] at hop
      dsimp only at hop
      split at hop
      · exact hop ▸ hq
      · next hname =>
        obtain ⟨hp, hnew⟩ := (h.resolve_left hname).resolve_left (doFindNode_some hnode).1
        refine hop ▸ mem_paths_alterAt hq hp fun c d hd => ?_
        rw [List.mem_singleton.mp hd, myName_setName]
        exact hnew
  | SetCached path flag =>
    simp only [VfsOp.apply, Option.some.injEq] at hop
    rw [← hop, paths_setCached]
    exact hq

end Spares

namespace DownloadServer

/-! ## What keeps the facts -/

/-- The first connection with the nickname of the owner, if there is one, has the file. -/
def Resolves (sep : Char) (connections : List Client) (handler : CompletionHandler) : Prop :=
  ∀ c, connections.find? (fun c => c.nickname = handler.fileOwner) = some c →
    (find sep handler.filePath c.remoteFileSystem).isSome = true

/-- Every stored download resolves. -/
def Resolved (sep : Char) (m : DownloadManager) (connections : List Client) : Prop :=
  ∀ (id : Nat) (t : Transaction CompletionHandler), m.downloadTransactions[id]? = some t →
    Resolves sep connections t.captures

/-- The steps that keep the facts. A hello message starts what was not started. A reply
begins a download of a file that its owner has, if the owner is there, and none that was
started. The requests of a client spare the files that are downloaded from it. A login,
a disconnection or a new connection puts no connection without the file in the place of
an owner. A call of `BeginUploadTransaction` reads the counter only while no other call is
between its two steps. -/
def KeepsFacts (cfg : Config) (s : DownloadServer) : Event → Prop
  | .manage _ (.beginDownload _ id _ handler) =>
    match s.manager.downloadTransactions[id]? with
    | none => Resolves cfg.PATH_SEPARATOR_CHR s.connections handler
    | some t => t.starts = 0
  | .manage _ e => DownloadManager.StartsFresh cfg.build s.manager e
  | .captureUpload r => r.env.readable = true → s.calls = []
  | .request k op => ∀ c, s.connections[k]? = some c →
    ∀ (id : Nat) (t : Transaction CompletionHandler),
      s.manager.downloadTransactions[id]? = some t → t.captures.fileOwner = c.nickname →
      op.Spares cfg.PATH_SEPARATOR_CHR (getComponents cfg.PATH_SEPARATOR_CHR t.captures.filePath)
  | e => ∀ connections, reconnect cfg s.connections e = some connections →
    Resolved cfg.PATH_SEPARATOR_CHR s.manager connections

/-- A stored transaction: its timer is off once it was started, and it has one transfer at
most, with a receiver and a socket. -/
def Phase {β : Type} (t : Transaction β) : Prop :=
  (0 < t.starts → t.timerArmed = false) ∧
    (0 < t.transfers → t.transfers = 1 ∧ 0 < t.starts ∧ t.worker.isSome = true ∧
      t.socket.isSome = true)

/-- An erased transaction: nothing is left that calls back. -/
def Quiet {β : Type} (t : Transaction β) : Prop := t.transfers = 0 ∧ t.timerArmed = false

/-- The invariant of the download manager in a debug build. -/
def Tidy (m : DownloadManager) : Prop :=
  DownloadManager.Each Phase Quiet (fun t => Phase t ∧ t.timerArmed = false) Quiet m

section Phases

variable {β : Type} {t : Transaction β}

theorem phase_new (captures : β) (worker : Option TransferWorker) :
    Phase ⟨captures, worker, false, none, 0, 0, 0, false⟩ := by
  simp [Phase]

theorem Phase.disarm (h : Phase t) : Phase t.disarm := ⟨fun _ => rfl, h.2⟩

theorem Phase.arm (h : Phase t) (hstarts : t.starts = 0) : Phase t.arm :=
  ⟨fun hpos => absurd hstarts (Nat.ne_of_gt hpos), h.2⟩

theorem Phase.start (h : Phase t) (hstarts : t.starts = 0) (hworker : t.worker.isSome = true)
    (socket : Nat) : Phase (t.disarm.start socket) := by
  have hnone : t.transfers = 0 := by
    by_contra hne
    have := (h.2 (Nat.pos_of_ne_zero hne)).2.1
    omega
  refine ⟨fun _ => rfl, fun _ => ⟨?_, Nat.succ_pos _, hworker, rfl⟩⟩
  show t.transfers + 1 = 1
  rw [hnone]

theorem Phase.finish (h : Phase t) (htransfer : 0 < t.transfers) :
    Phase t.finish ∧ Quiet t.finish := by
  obtain ⟨hone, hstarts, -, -⟩ := h.2 htransfer
  have hnone : t.finish.transfers = 0 := by
    show t.transfers - 1 = 0
    rw [hone]
  exact ⟨⟨h.1, fun hpos => absurd hnone (Nat.ne_of_gt hpos)⟩, hnone, h.1 hstarts⟩

/-- A timer that is armed belongs to a transaction without transfers. -/
theorem Phase.quiet_disarm (h : Phase t) (harmed : t.timerArmed = true) : Quiet t.disarm := by
  refine ⟨?_, rfl⟩
  by_contra hne
  have hoff := h.1 (h.2 (Nat.pos_of_ne_zero hne)).2.1
  rw [harmed] at hoff
  cases hoff

end Phases

section Tidy

open DownloadManager

variable {m : DownloadManager}

theorem Tidy.beginUploads (h : Tidy m) (uploads : List UploadRequest) :
    Tidy (uploads.foldl DownloadManager.beginUpload m) := by
  induction uploads generalizing m with
  | nil => exact h
  | cons r uploads ih =>
    exact ih (h.beginUpload (fun captures worker => ⟨phase_new captures worker, rfl⟩) r)

theorem closeDownloadTransaction_eq {id : Nat} {t : Transaction CompletionHandler}
    (hid : m.downloadTransactions[id]? = some t) (hworker : t.worker.isSome = true)
    (hsocket : t.socket.isSome = true) : m.closeDownloadTransaction id = m := by
  have hw : t.worker.isNone = false := by simpa using hworker
  have hs : t.socket.isNone = false := by simpa using hsocket
  simp only [closeDownloadTransaction, hid, hw, hs, Bool.or_false]

/-- The end of the only transfer of a stored download erases it, and what is begun on the
way are uploads. -/
theorem transferCompleted_eq {id : Nat} {t : Transaction CompletionHandler}
    (hid : m.downloadTransactions[id]? = some t) (hphase : Phase t) (htransfer : 0 < t.transfers)
    (hrunning : m.halted = false) (uploads : List UploadRequest) :
    m.transferCompleted .debug id uploads =
      (uploads.foldl DownloadManager.beginUpload
        { m with downloadTransactions := m.downloadTransactions.insert id t.finish }
        ).endDownloadTransaction .debug id := by
  obtain ⟨-, -, hworker, hsocket⟩ := hphase.2 htransfer
  simp only [transferCompleted, hid, htransfer, ↓reduceIte, completionHandler]
  rw [closeDownloadTransaction_eq (t := t.finish) (by simp) hworker hsocket]
  exact if_neg (by simp [hrunning])

/-- The end of a transfer erases a transaction that has no other transfer. -/
theorem Tidy.transferCompleted (h : Tidy m) (hrunning : m.halted = false) {id : Nat}
    {t : Transaction CompletionHandler} (hid : m.downloadTransactions[id]? = some t)
    (htransfer : 0 < t.transfers) (uploads : List UploadRequest) :
    Tidy (m.transferCompleted .debug id uploads) := by
  have ht := h.downloads id t hid
  rw [transferCompleted_eq hid ht htransfer hrunning]
  have hbegun : Tidy (uploads.foldl DownloadManager.beginUpload _) :=
    Tidy.beginUploads (h.insertDownload id (ht.finish htransfer).1) uploads
  refine hbegun.endDownloadTransaction .debug fun u hu => ?_
  rw [downloadTransactions_beginUploads] at hu
  simp only [Lookup.getElem?_insert, ↓reduceIte, Option.some.injEq] at hu
  exact hu ▸ (ht.finish htransfer).2

theorem Tidy.uploadCompleted (h : Tidy m) (id : Nat) : Tidy (m.uploadCompleted .debug id) := by
  unfold DownloadManager.uploadCompleted
  cases hid : m.uploadTransactions[id]? with
  | none => exact h
  | some t =>
    obtain ⟨ht, htimer⟩ := h.uploads id t hid
    dsimp only
    split
    · next htransfer =>
      refine (h.insertUpload id ⟨(ht.finish htransfer).1, htimer⟩).endUploadTransaction .debug
        fun u hu => ?_
      simp only [Lookup.getElem?_insert, ↓reduceIte, Option.some.injEq] at hu
      exact hu ▸ (ht.finish htransfer).2
    · exact h

/-- The download manager stays tidy while a hello message starts what was not started and
a reply begins what was not started. -/
theorem Tidy.step (h : Tidy m) (hrunning : m.halted = false) {e : DownloadManager.Event}
    (hfresh : StartsFresh .debug m e)
    (hbegin : ∀ env id compression handler, e = .beginDownload env id compression handler →
      ∀ t, m.downloadTransactions[id]? = some t → t.starts = 0) : Tidy (m.step .debug e) := by
  unfold DownloadManager.step
  rw [if_neg (by simp [hrunning])]
  cases e with
  | beginDownload env id compression handler =>
    refine h.beginDownloadTransaction env compression handler
      (fun captures worker => (phase_new captures worker).arm rfl) fun t hid => ?_
    exact (h.downloads id t hid).arm (hbegin env id compression handler rfl t hid)
  | beginUpload r => exact h.beginUploads [r]
  | hello env type id =>
    refine h.handleHandshake (fun _ ht => ht.disarm) (fun _ ht => ⟨ht.1.disarm, rfl⟩) .debug env
      type id ?_ ?_
    · rintro rfl t hid hworker hbyte
      exact (h.downloads id t hid).start (hfresh hrunning t hid hbyte) hworker _
    · rintro rfl t hid hworker
      exact ⟨(h.uploads id t hid).1.start (hfresh hrunning t hid) hworker _, rfl⟩
  | timer id =>
    exact h.timerExpired (fun _ ht => ht.disarm) (fun _ ht harmed => ht.quiet_disarm harmed)
      .debug id
  | erasedTimer i =>
    dsimp only [act, erasedTimerExpired]
    cases hi : m.erasedDownloads[i]? with
    | none => exact h
    | some p => simpa [(h.erasedDownloads p (List.mem_of_getElem? hi)).2] using h
  | uploadTimer id =>
    dsimp only [act, uploadTimerExpired]
    cases hid : m.uploadTransactions[id]? with
    | none => exact h
    | some t => simpa [(h.uploads id t hid).2] using h
  | completed id uploads =>
    cases hid : m.downloadTransactions[id]? with
    | none => simpa [act, DownloadManager.transferCompleted, hid] using h
    | some t =>
      by_cases htransfer : 0 < t.transfers
      · exact h.transferCompleted hrunning hid htransfer uploads
      · simpa [act, DownloadManager.transferCompleted, hid, htransfer] using h
  | erasedCompleted i uploads =>
    dsimp only [act, erasedTransferCompleted]
    cases hi : m.erasedDownloads[i]? with
    | none => exact h
    | some p => simpa [(h.erasedDownloads p (List.mem_of_getElem? hi)).1] using h
  | uploadCompleted id => exact h.uploadCompleted id
  | erasedUploadCompleted i =>
    dsimp only [act, DownloadManager.erasedUploadCompleted]
    cases hi : m.erasedUploads[i]? with
    | none => exact h
    | some p => simpa [(h.erasedUploads p (List.mem_of_getElem? hi)).1] using h

end Tidy

/-! ## The files of the stored downloads -/

section Resolved

variable {sep : Char} {connections : List Client}

theorem resolves_cons {handler : CompletionHandler} {c : Client} :
    Resolves sep (c :: connections) handler ↔
      if c.nickname = handler.fileOwner then
        (find sep handler.filePath c.remoteFileSystem).isSome = true
      else Resolves sep connections handler := by
  by_cases hname : c.nickname = handler.fileOwner
  · simp [Resolves, hname]
  · simp [Resolves, hname]

theorem setFileToCached_of_resolves {handler : CompletionHandler}
    (h : Resolves sep connections handler) :
    (setFileToCached sep handler connections).1 = true := by
  induction connections with
  | nil => rfl
  | cons c cs ih =>
    rw [resolves_cons] at h
    unfold setFileToCached
    by_cases hname : c.nickname = handler.fileOwner
    · rw [if_pos hname, find] at h
      rw [if_pos hname]
      cases hnode : doFindNode sep handler.filePath c.remoteFileSystem with
      | none => simp [hnode] at h
      | some n => simp [setCached, hnode]
    · rw [if_neg hname] at h
      rw [if_neg hname]
      exact ih h

/-- Setting the flag of a file leaves every file where it is. -/
theorem Resolves.setFileToCached {handler : CompletionHandler}
    (h : Resolves sep connections handler) (completed : CompletionHandler) :
    Resolves sep (setFileToCached sep completed connections).2 handler := by
  induction connections with
  | nil => exact h
  | cons c cs ih =>
    rw [resolves_cons] at h
    unfold DownloadServer.setFileToCached
    by_cases hcompleted : c.nickname = completed.fileOwner
    · rw [if_pos hcompleted]
      dsimp only
      simpa only [resolves_cons, isSome_find_iff, paths_setCached] using h
    · rw [if_neg hcompleted]
      dsimp only
      rw [resolves_cons]
      by_cases hname : c.nickname = handler.fileOwner
      · rw [if_pos hname] at h ⊢
        exact h
      · rw [if_neg hname] at h ⊢
        exact ih h

theorem Resolves.cacheFile {build : Build} {s : DownloadServer} {handler : CompletionHandler}
    (h : Resolves sep s.connections handler) (success : Bool) (e : DownloadManager.Event) :
    Resolves sep (s.cacheFile build sep success e) handler := by
  unfold DownloadServer.cacheFile
  cases completing s.manager e with
  | none => exact h
  | some p =>
    dsimp only
    split
    · exact h.setFileToCached _
    · exact h

/-- The requests of a client that spare a file keep it. -/
theorem Resolves.set {handler : CompletionHandler} (h : Resolves sep connections handler) {k : Nat}
    {c : Client} (hk : connections[k]? = some c) {op : VfsOp Char} {root : Node Char}
    (hop : op.apply sep c.nickname c.remoteFileSystem = some root)
    (hspares : handler.fileOwner = c.nickname →
      op.Spares sep (getComponents sep handler.filePath)) :
    Resolves sep (connections.set k { c with remoteFileSystem := root }) handler := by
  induction connections generalizing k with
  | nil => exact h
  | cons d ds ih =>
    cases k with
    | zero =>
      obtain rfl : d = c := by simpa using hk
      rw [List.set_cons_zero]
      rw [resolves_cons] at h ⊢
      by_cases hname : d.nickname = handler.fileOwner
      · rw [if_pos hname, isSome_find_iff] at h ⊢
        exact ⟨h.1, VfsOp.mem_paths_of_spares hop (hspares hname.symm) h.2⟩
      · rw [if_neg hname] at h ⊢
        exact h
    | succ k =>
      rw [List.set_cons_succ]
      rw [resolves_cons] at h ⊢
      by_cases hname : d.nickname = handler.fileOwner
      · rw [if_pos hname] at h ⊢
        exact h
      · rw [if_neg hname] at h ⊢
        exact ih h (by simpa using hk)

end Resolved

/-! ## The captures of the stored downloads -/

section Captures

open DownloadManager

/-- What is stored in `m'` was stored in `m`, with the same captures. -/
def SameCaptures (m m' : DownloadManager) : Prop :=
  ∀ (id : Nat) (t' : Transaction CompletionHandler), m'.downloadTransactions[id]? = some t' →
    ∃ t, m.downloadTransactions[id]? = some t ∧ t'.captures = t.captures

variable {m m' : DownloadManager}

theorem SameCaptures.insert (h : SameCaptures m m') {id : Nat}
    {t t' : Transaction CompletionHandler} (hid : m'.downloadTransactions[id]? = some t)
    (ht : t'.captures = t.captures) :
    SameCaptures m { m' with downloadTransactions := m'.downloadTransactions.insert id t' } := by
  intro j u hu
  rcases Lookup.of_getElem?_insert hu with ⟨rfl, rfl⟩ | ⟨-, hu⟩
  · obtain ⟨t₀, ht₀, hsame⟩ := h j t hid
    exact ⟨t₀, ht₀, ht.trans hsame⟩
  · exact h j u hu

theorem SameCaptures.endDownloadTransaction (h : SameCaptures m m') (build : Build) (id : Nat) :
    SameCaptures m (m'.endDownloadTransaction build id) := by
  cases build with
  | release => exact h
  | debug =>
    unfold DownloadManager.endDownloadTransaction
    cases m'.downloadTransactions[id]? with
    | none => exact h
    | some t =>
      exact fun j u hu => h j u (Lookup.of_getElem?_erase hu).2

theorem SameCaptures.of_eq (h : SameCaptures m m') {m'' : DownloadManager}
    (heq : m''.downloadTransactions = m'.downloadTransactions) : SameCaptures m m'' := by
  intro id t ht
  exact h id t (heq ▸ ht)

theorem sameCaptures_partsKeep (build : Build) :
    PartsKeep build (fun _ => True) (SameCaptures m) where
  finish h hid _ := h.insert hid rfl
  disarmErased h _ := h
  finishErased h _ _ := h
  disarmUpload h _ := h
  finishUpload h _ _ := h
  finishErasedUpload h _ _ := h
  close {m'} id h := by
    refine h.of_eq ?_
    unfold closeDownloadTransaction
    cases m'.downloadTransactions[id]? <;> rfl
  endDownload id h := h.endDownloadTransaction build id
  endUpload id h := h.of_eq (downloadTransactions_endUploadTransaction build id _)
  beginUpload _ h := h.of_eq (downloadTransactions_beginUpload _ _)

theorem SameCaptures.tryStartDownloadTransaction (h : SameCaptures m m') (build : Build)
    (env : HelloEnv) (id : Nat) :
    SameCaptures m (m'.tryStartDownloadTransaction build env id) := by
  unfold DownloadManager.tryStartDownloadTransaction
  cases hid : m'.downloadTransactions[id]? with
  | none => exact h
  | some t =>
    dsimp only
    cases t.worker with
    | none => exact h.insert hid rfl
    | some worker =>
      dsimp only
      split
      · exact h.insert hid rfl
      · exact h.insert hid rfl

/-- A step that begins no download stores nothing new and changes no capture. -/
theorem sameCaptures_step (build : Build) {e : DownloadManager.Event}
    (hbegin : ∀ env id compression handler, e ≠ .beginDownload env id compression handler) :
    SameCaptures m (m.step build e) := by
  have hrefl : SameCaptures m m := fun _ t ht => ⟨t, ht, rfl⟩
  refine (sameCaptures_partsKeep build).step hrefl e (fun _ _ => trivial) ?_ ?_ ?_
  · intro env id compression handler heq
    exact absurd heq (hbegin env id compression handler)
  · intro id _
    refine timerExpired_cases hrefl fun t hid _ => ?_
    have hsame : t.disarm.captures = t.captures := rfl
    exact (hrefl.insert hid hsame).endDownloadTransaction build id
  · intro env type id _
    cases type with
    | other => exact hrefl
    | RECEIVER_CODE_STR => exact hrefl.of_eq (downloadTransactions_tryStartUploadTransaction id m)
    | SENDER_CODE_STR => exact hrefl.tryStartDownloadTransaction build env id

end Captures

/-! ## Runs -/

section Runs

open DownloadManager

variable {cfg : Config} {s : DownloadServer} {m : DownloadManager} {success : Bool}
  {e : DownloadManager.Event}

theorem phase_extendCapture {t : Transaction CompletionHandler} :
    Phase (extendCapture t) ↔ Phase t := by
  unfold extendCapture
  split <;> exact Iff.rfl

theorem quiet_extendCapture {t : Transaction CompletionHandler} :
    Quiet (extendCapture t) ↔ Quiet t := by
  unfold extendCapture
  split <;> exact Iff.rfl

theorem Tidy.extendCaptures (h : Tidy m) (e : DownloadManager.Event) :
    Tidy (extendCaptures m e) := by
  unfold DownloadServer.extendCaptures
  cases e with
  | completed id uploads =>
    dsimp only
    cases hid : m.downloadTransactions[id]? with
    | none => exact h
    | some t => exact h.insertDownload id (phase_extendCapture.mpr (h.downloads id t hid))
  | erasedCompleted i uploads =>
    dsimp only
    cases hi : m.erasedDownloads[i]? with
    | none => exact h
    | some p =>
      have hquiet := h.erasedDownloads p (List.mem_of_getElem? hi)
      exact h.setErasedDownload i p.1 (quiet_extendCapture.mpr hquiet)
  | beginDownload _ _ _ _ | beginUpload _ | hello _ _ _ | timer _ | erasedTimer _ | uploadTimer _
  | uploadCompleted _ | erasedUploadCompleted _ => exact h

theorem halted_extendCaptures (m : DownloadManager) (e : DownloadManager.Event) :
    (extendCaptures m e).halted = m.halted := by
  unfold extendCaptures
  cases e with
  | completed id uploads =>
    dsimp only
    cases m.downloadTransactions[id]? <;> rfl
  | erasedCompleted i uploads =>
    dsimp only
    cases m.erasedDownloads[i]? <;> rfl
  | beginDownload _ _ _ _ | beginUpload _ | hello _ _ _ | timer _ | erasedTimer _ | uploadTimer _
  | uploadCompleted _ | erasedUploadCompleted _ => rfl

/-- The completion handler of a stored transaction that resolves: the receiver has a socket,
the file is there, and the transaction is stored. -/
theorem completionAssertion_eq_none {sep : Char} {id : Nat} {t : Transaction CompletionHandler}
    (hid : s.manager.downloadTransactions[id]? = some t) (hphase : Phase t)
    (htransfer : 0 < t.transfers) (hresolves : Resolves sep s.connections t.captures) :
    s.completionAssertion sep id t.captures success = none := by
  obtain ⟨-, -, hworker, hsocket⟩ := hphase.2 htransfer
  obtain ⟨worker, hworker⟩ := Option.isSome_iff_exists.mp hworker
  obtain ⟨socket, hsocket⟩ := Option.isSome_iff_exists.mp hsocket
  have hcached := setFileToCached_of_resolves hresolves
  simp only [completionAssertion, hid, hworker, hsocket]
  simp [hcached, Lookup.mem_of_getElem? hid]

/-- While the manager is tidy, the stored downloads resolve, and the handlers of each upload
hold its key, no assertion fails. -/
theorem failing_eq_none {sep : Char} (hhandlers : ∀ key, s.handlerID key = key)
    (htidy : Tidy s.manager)
    (hresolved : Resolved sep s.manager s.connections) : s.failing sep success e = none := by
  cases e with
  | beginDownload _ _ _ _ | beginUpload _ | hello _ _ _ => rfl
  | completed id uploads =>
    dsimp only [failing, completing]
    cases hid : s.manager.downloadTransactions[id]? with
    | none => rfl
    | some t =>
      by_cases htransfer : 0 < t.transfers
      · simp [htransfer, completionAssertion_eq_none hid (htidy.downloads id t hid) htransfer
          (hresolved id t hid)]
      · simp [htransfer]
  | erasedCompleted i uploads =>
    dsimp only [failing, completing]
    cases hi : s.manager.erasedDownloads[i]? with
    | none => rfl
    | some p => simp [(htidy.erasedDownloads p (List.mem_of_getElem? hi)).1]
  | timer id =>
    dsimp only [failing]
    cases hid : s.manager.downloadTransactions[id]? with
    | none => rfl
    | some t => simp [timerAssertion, Lookup.mem_of_getElem? hid]
  | erasedTimer i =>
    dsimp only [failing]
    cases hi : s.manager.erasedDownloads[i]? with
    | none => rfl
    | some p => simp [timerAssertion, (htidy.erasedDownloads p (List.mem_of_getElem? hi)).2]
  | uploadTimer key =>
    dsimp only [failing]
    cases hkey : s.manager.uploadTransactions[key]? with
    | none => rfl
    | some t => simp [uploadAssertion, hhandlers, Lookup.mem_of_getElem? hkey]
  | uploadCompleted key =>
    dsimp only [failing]
    cases hkey : s.manager.uploadTransactions[key]? with
    | none => rfl
    | some t => simp [uploadAssertion, hhandlers, Lookup.mem_of_getElem? hkey]
  | erasedUploadCompleted i =>
    dsimp only [failing]
    cases hi : s.manager.erasedUploads[i]? with
    | none => rfl
    | some p => simp [uploadAssertion, (htidy.erasedUploads p (List.mem_of_getElem? hi)).1]

theorem uploadCounter_endDownloadTransaction (build : Build) (id : Nat) (m : DownloadManager) :
    (m.endDownloadTransaction build id).uploadTransactionsIDCounter =
      m.uploadTransactionsIDCounter := by
  cases build with
  | release => rfl
  | debug =>
    unfold DownloadManager.endDownloadTransaction
    cases m.downloadTransactions[id]? <;> rfl

theorem uploadCounter_endUploadTransaction (build : Build) (id : Nat) (m : DownloadManager) :
    (m.endUploadTransaction build id).uploadTransactionsIDCounter =
      m.uploadTransactionsIDCounter := by
  cases build with
  | release => rfl
  | debug =>
    unfold DownloadManager.endUploadTransaction
    cases m.uploadTransactions[id]? <;> rfl

theorem uploadCounter_partsKeep (build : Build) (n : Nat) :
    PartsKeep build (fun _ => False) fun m => m.uploadTransactionsIDCounter = n where
  finish h _ _ := h
  disarmErased h _ := h
  finishErased h _ _ := h
  disarmUpload h _ := h
  finishUpload h _ _ := h
  finishErasedUpload h _ _ := h
  close {m} id h := by
    unfold closeDownloadTransaction
    cases m.downloadTransactions[id]? <;> exact h
  endDownload id h := (uploadCounter_endDownloadTransaction build id _).trans h
  endUpload id h := (uploadCounter_endUploadTransaction build id _).trans h
  beginUpload hr _ := hr.elim

/-- A step that begins no upload leaves the counter of the uploads. -/
theorem uploadCounter_step (build : Build) (huploads : e.uploads = []) :
    (m.step build e).uploadTransactionsIDCounter = m.uploadTransactionsIDCounter := by
  refine (uploadCounter_partsKeep build _).step rfl e (by simp [huploads]) ?_ ?_ ?_
  · intro env id compression handler _
    unfold DownloadManager.beginDownloadTransaction
    split <;> rfl
  · intro id _
    refine timerExpired_cases
      (I := fun m' => m'.uploadTransactionsIDCounter = m.uploadTransactionsIDCounter) rfl
      fun t _ _ => ?_
    exact uploadCounter_endDownloadTransaction build id _
  · intro env type id _
    cases type with
    | other => rfl
    | RECEIVER_CODE_STR =>
      show (m.tryStartUploadTransaction id).uploadTransactionsIDCounter = _
      unfold tryStartUploadTransaction
      cases m.uploadTransactions[id]? with
      | none => rfl
      | some t => cases hworker : t.worker <;> simp [hworker]
    | SENDER_CODE_STR =>
      show (m.tryStartDownloadTransaction build env id).uploadTransactionsIDCounter = _
      unfold DownloadManager.tryStartDownloadTransaction
      cases m.downloadTransactions[id]? with
      | none => rfl
      | some t =>
        cases hworker : t.worker with
        | none => simp [hworker]
        | some worker =>
          simp only [hworker]
          split <;> rfl

theorem getElem?_transferCompleted {id : Nat} {t : Transaction CompletionHandler}
    (hid : m.downloadTransactions[id]? = some t) (hphase : Phase t) (htransfer : 0 < t.transfers)
    (hrunning : m.halted = false) (uploads : List UploadRequest) :
    (m.transferCompleted .debug id uploads).downloadTransactions[id]? = none := by
  rw [transferCompleted_eq hid hphase htransfer hrunning]
  simp [endDownloadTransaction, downloadTransactions_beginUploads]

/-- A stored download is as it was, or it is the one whose transfer ends. -/
theorem getElem?_extendCaptures {id : Nat} {t' : Transaction CompletionHandler}
    (h : (extendCaptures m e).downloadTransactions[id]? = some t') :
    m.downloadTransactions[id]? = some t' ∨
      (∃ uploads, e = .completed id uploads) ∧ 0 < t'.transfers := by
  unfold extendCaptures at h
  cases e with
  | completed j uploads =>
    dsimp only at h
    cases hj : m.downloadTransactions[j]? with
    | none =>
      rw [hj] at h
      exact .inl h
    | some t =>
      rw [hj] at h
      rcases Lookup.of_getElem?_insert h with ⟨rfl, rfl⟩ | ⟨-, h⟩
      · unfold extendCapture
        split
        · next htransfer => exact .inr ⟨⟨uploads, rfl⟩, htransfer⟩
        · exact .inl hj
      · exact .inl h
  | erasedCompleted i uploads =>
    dsimp only at h
    cases hi : m.erasedDownloads[i]? with
    | none =>
      rw [hi] at h
      exact .inl h
    | some p =>
      rw [hi] at h
      exact .inl h
  | beginDownload _ _ _ _ | beginUpload _ | hello _ _ _ | timer _ | erasedTimer _ | uploadTimer _
  | uploadCompleted _ | erasedUploadCompleted _ => exact .inl h

theorem Tidy.captured (h : Tidy m) (success : Bool) (e : DownloadManager.Event) :
    Tidy (captured success m e) := by
  cases success with
  | false => exact h
  | true => exact h.extendCaptures e

theorem uploadCounter_captured (m : DownloadManager) (success : Bool)
    (e : DownloadManager.Event) :
    (captured success m e).uploadTransactionsIDCounter = m.uploadTransactionsIDCounter := by
  cases success with
  | false => rfl
  | true =>
    unfold captured extendCaptures
    cases e with
    | completed id uploads =>
      simp only [if_true]
      cases m.downloadTransactions[id]? <;> rfl
    | erasedCompleted i uploads =>
      simp only [if_true]
      cases m.erasedDownloads[i]? <;> rfl
    | _ => rfl

theorem halted_captured (m : DownloadManager) (success : Bool) (e : DownloadManager.Event) :
    (captured success m e).halted = m.halted := by
  cases success with
  | false => rfl
  | true => exact halted_extendCaptures m e

/-- What a step stores that begins no download was stored with the same captures: a
capture that the step changes is that of a transaction it erases. -/
theorem sameCaptures_captured (success : Bool) (htidy : Tidy m) (hrunning : m.halted = false)
    (hbegin : ∀ env id compression handler, e ≠ .beginDownload env id compression handler) :
    SameCaptures m ((captured success m e).step .debug e) := by
  intro id t' ht'
  obtain ⟨t, ht, hsame⟩ := sameCaptures_step .debug hbegin id t' ht'
  cases success with
  | false => exact ⟨t, ht, hsame⟩
  | true =>
    rcases getElem?_extendCaptures ht with hold | ⟨⟨uploads, rfl⟩, htransfer⟩
    · exact ⟨t, hold, hsame⟩
    · have hrunning' : (extendCaptures m (.completed id uploads)).halted = false :=
        (halted_extendCaptures m _).trans hrunning
      have hphase := (htidy.extendCaptures (.completed id uploads)).downloads id t ht
      have hnone : (captured true m (.completed id uploads)).transferCompleted .debug id uploads
          |>.downloadTransactions[id]? = none :=
        getElem?_transferCompleted ht hphase htransfer hrunning' uploads
      rw [DownloadManager.step, if_neg (by simp [captured, hrunning'])] at ht'
      rw [act, hnone] at ht'
      cases ht'

/-- After a step of the manager the stored downloads still resolve. -/
theorem Resolved.step {sep : Char} (htidy : Tidy s.manager)
    (hresolved : Resolved sep s.manager s.connections) (hrunning : s.manager.halted = false)
    (hbegin : ∀ env id compression handler, e = .beginDownload env id compression handler →
      s.manager.downloadTransactions[id]? = none → Resolves sep s.connections handler) :
    Resolved sep ((captured success s.manager e).step .debug e)
      (s.cacheFile .debug sep success e) := by
  intro j t ht
  refine Resolves.cacheFile ?_ success e
  by_cases he : ∃ env id compression handler, e = .beginDownload env id compression handler
  · obtain ⟨env, id, compression, handler, rfl⟩ := he
    have hstep : (captured success s.manager (.beginDownload env id compression handler)).step
        .debug (.beginDownload env id compression handler) =
        s.manager.beginDownloadTransaction env id compression handler := by
      simp [captured, extendCaptures, DownloadManager.step, hrunning, act]
    rw [hstep] at ht
    unfold DownloadManager.beginDownloadTransaction at ht
    split at ht
    · exact hresolved j t ht
    · rcases Lookup.of_getElem?_insert ht with ⟨rfl, rfl⟩ | ⟨-, ht⟩
      · cases hid : s.manager.downloadTransactions[j]? with
        | none => exact hbegin env j compression handler rfl hid
        | some u => exact hresolved j u hid
      · exact hresolved j t ht
  · have hother : ∀ env id compression handler, e ≠ .beginDownload env id compression handler :=
      fun env id compression handler heq => he ⟨env, id, compression, handler, heq⟩
    obtain ⟨u, hu, hsame⟩ := sameCaptures_captured success htidy hrunning hother j t ht
    rw [hsame]
    exact hresolved j u hu

/-- The invariant: no assertion has failed and, where assertions are evaluated, none is
about to. -/
structure Facts (cfg : Config) (s : DownloadServer) : Prop where
  failed : s.failed = none
  handlers : ∀ key, s.handlerID key = key
  single : s.calls.length ≤ 1
  current : ∀ c ∈ s.calls, c.id = s.manager.uploadTransactionsIDCounter
  tidy : cfg.build = .debug → Tidy s.manager
  resolved : cfg.build = .debug → Resolved cfg.PATH_SEPARATOR_CHR s.manager s.connections

theorem StartsFresh.captured {build : Build} (h : StartsFresh build m e) (success : Bool) :
    StartsFresh build (captured success m e) e := by
  cases success with
  | false => exact h
  | true =>
    cases e with
    | hello env type id => exact h
    | beginDownload _ _ _ _ | beginUpload _ | timer _ | erasedTimer _ | uploadTimer _
    | completed _ _ | erasedCompleted _ _ | uploadCompleted _ | erasedUploadCompleted _ =>
      exact fun _ => trivial

/-- What the condition says of a step of the manager. -/
theorem keepsFacts_manage (h : KeepsFacts cfg s (.manage success e)) :
    StartsFresh cfg.build s.manager e ∧
      ∀ env id compression handler, e = .beginDownload env id compression handler →
        (∀ t, s.manager.downloadTransactions[id]? = some t → t.starts = 0) ∧
        (s.manager.downloadTransactions[id]? = none →
          Resolves cfg.PATH_SEPARATOR_CHR s.connections handler) := by
  cases e with
  | beginDownload env id compression handler =>
    refine ⟨fun _ => trivial, ?_⟩
    rintro _ _ _ _ heq
    cases heq
    dsimp only [KeepsFacts] at h
    cases hid : s.manager.downloadTransactions[id]? with
    | none =>
      rw [hid] at h
      exact ⟨by simp, fun _ => h⟩
    | some t =>
      rw [hid] at h
      exact ⟨by simpa using h, by simp⟩
  | beginUpload _ | hello _ _ _ | timer _ | erasedTimer _ | uploadTimer _
  | completed _ _ | erasedCompleted _ _ | uploadCompleted _ | erasedUploadCompleted _ =>
    exact ⟨h, by simp⟩

theorem Facts.manage (h : Facts cfg s) (hrunning : s.manager.halted = false)
    (huploads : e.uploads = []) (hkeeps : KeepsFacts cfg s (.manage success e)) :
    Facts cfg (s.manage cfg.build cfg.PATH_SEPARATOR_CHR success e) := by
  -- the handlers of an upload hold its key
  have hhandlers : s.handlerID = fun key => key := funext h.handlers
  have hstep : ∀ build, callUploadHandler build s.handlerID (captured success s.manager e) e =
      (captured success s.manager e).step build e := by
    intro build
    rw [hhandlers, callUploadHandler_key, DownloadManager.step, if_neg]
    simp [halted_captured, hrunning]
  have hcurrent : ∀ build, ∀ c ∈ s.calls, c.id = ((captured success s.manager e).step build
      e).uploadTransactionsIDCounter := by
    intro build c hc
    rw [uploadCounter_step build huploads, uploadCounter_captured]
    exact h.current c hc
  cases hbuild : cfg.build with
  | release =>
    have hmanage : s.manage .release cfg.PATH_SEPARATOR_CHR success e = { s with
        connections := s.cacheFile .release cfg.PATH_SEPARATOR_CHR success e
        manager := (captured success s.manager e).step .release e } := by
      unfold DownloadServer.manage
      rw [hstep]
    rw [hmanage]
    exact ⟨h.failed, h.handlers, h.single, hcurrent _, by simp [hbuild], by simp [hbuild]⟩
  | debug =>
    have htidy := h.tidy hbuild
    have hresolved := h.resolved hbuild
    obtain ⟨hfresh, hbegin⟩ := keepsFacts_manage hkeeps
    rw [hbuild] at hfresh
    unfold DownloadServer.manage
    rw [failing_eq_none h.handlers htidy hresolved, hstep]
    refine ⟨h.failed, h.handlers, h.single, hcurrent _, fun _ => ?_, fun _ => ?_⟩
    · refine (htidy.captured success e).step ((halted_captured _ success e).trans hrunning)
        (StartsFresh.captured hfresh success) ?_
      rintro env id compression handler rfl t ht
      refine (hbegin env id compression handler rfl).1 t ?_
      cases success with
      | false => exact ht
      | true => exact ht
    · exact Resolved.step htidy hresolved hrunning fun env id compression handler heq =>
        (hbegin env id compression handler heq).2

/-- A call reads the counter while there is no other. -/
theorem Facts.captureUpload (h : Facts cfg s) {r : UploadRequest}
    (halone : r.env.readable = true → s.calls = []) : Facts cfg (s.captureUpload r) := by
  unfold DownloadServer.captureUpload
  split
  · next hreadable =>
    rw [halone hreadable]
    refine ⟨h.failed, h.handlers, le_rfl, fun c hc => ?_, h.tidy, h.resolved⟩
    rw [List.mem_singleton.mp hc]
  · exact h

/-- The call stores its upload under the id that its handlers hold. -/
theorem Facts.storeUpload (h : Facts cfg s) {i : Nat} {s' : DownloadServer}
    (hs : s.storeUpload i = some s') : Facts cfg s' := by
  obtain ⟨c, hi, rfl⟩ := Option.map_eq_some_iff.mp hs
  have hid := h.current c (List.mem_of_getElem? hi)
  have hcalls : s.calls.eraseIdx i = [] := by
    refine List.eq_nil_of_length_eq_zero ?_
    have hlt := (List.getElem?_eq_some_iff.mp hi).1
    have hsingle := h.single
    rw [List.length_eraseIdx_of_lt hlt]
    omega
  refine ⟨h.failed, fun key => ?_, by simp [hcalls], by simp [hcalls], fun hbuild => ?_,
    fun hbuild id t ht => ?_⟩
  · show Function.update s.handlerID s.manager.uploadTransactionsIDCounter c.id key = key
    rw [Function.update_apply]
    split
    · next hkey => exact hid.trans hkey.symm
    · exact h.handlers key
  · exact (h.tidy hbuild).beginUploads [c.request]
  · exact h.resolved hbuild id t (by rwa [downloadTransactions_beginUpload] at ht)

theorem Facts.step (h : Facts cfg s) {e : Event} {s' : DownloadServer}
    (hkeeps : KeepsFacts cfg s e) (hstep : step cfg s e = some s') : Facts cfg s' := by
  unfold DownloadServer.step at hstep
  cases hrunning : s.manager.halted with
  | true => simp [hrunning] at hstep
  | false =>
    rw [if_neg (by simp [hrunning])] at hstep
    -- the other events change the connections only
    have hconnections : ∀ connections, (cfg.build = .debug →
        Resolved cfg.PATH_SEPARATOR_CHR s.manager connections) →
        Facts cfg { s with connections } := fun connections hresolved =>
      ⟨h.failed, h.handlers, h.single, h.current, h.tidy, hresolved⟩
    cases e with
    | manage success e =>
      obtain ⟨huploads, hstep⟩ := Option.ite_none_right_eq_some.mp hstep
      obtain rfl := Option.some.inj hstep
      exact h.manage hrunning huploads hkeeps
    | captureUpload r =>
      obtain rfl := Option.some.inj hstep
      exact h.captureUpload hkeeps
    | storeUpload i => exact h.storeUpload hstep
    | accept position =>
      obtain ⟨connections, hre, rfl⟩ := Option.map_eq_some_iff.mp hstep
      exact hconnections connections fun _ => hkeeps connections hre
    | login k nickname =>
      obtain ⟨connections, hre, rfl⟩ := Option.map_eq_some_iff.mp hstep
      exact hconnections connections fun _ => hkeeps connections hre
    | disconnect k =>
      obtain ⟨connections, hre, rfl⟩ := Option.map_eq_some_iff.mp hstep
      exact hconnections connections fun _ => hkeeps connections hre
    | request k op =>
      obtain ⟨connections, hre, rfl⟩ := Option.map_eq_some_iff.mp hstep
      refine hconnections connections fun hbuild id t hid => ?_
      obtain ⟨c, hk, root, hop, rfl⟩ : ∃ c, s.connections[k]? = some c ∧ ∃ root,
          op.apply cfg.PATH_SEPARATOR_CHR c.nickname c.remoteFileSystem = some root ∧
          s.connections.set k { c with remoteFileSystem := root } = connections := by
        cases op with
        | SetCached path flag => cases hre
        | Add _ | Remove _ | Rename _ _ =>
          obtain ⟨c, hk, hre⟩ := Option.bind_eq_some_iff.mp hre
          exact ⟨c, hk, Option.map_eq_some_iff.mp hre⟩
      exact (h.resolved hbuild id t hid).set hk hop (hkeeps c hk id t hid)

end Runs

/-- In every run of these steps no assertion fails. -/
theorem facts_hold {cfg : Config} {s : DownloadServer}
    (h : Reach (step cfg) (KeepsFacts cfg) {} s) : s.failed = none := by
  have hfacts : Facts cfg s := by
    refine h.invariant (I := Facts cfg) ⟨rfl, fun _ => rfl, Nat.zero_le _,
      fun _ hc => absurd hc List.not_mem_nil, fun _ => ?_, fun _ => ?_⟩ ?_
    · exact DownloadManager.each_initial
    · intro id t hid
      simp at hid
    · intro s e s' hs hkeeps hstep
      exact hs.step hkeeps hstep
  exact hfacts.failed

/-- The owner logs in and shares a file, and its download is begun, started and completed:
the file is cached. -/
theorem facts_hold_download :
    ∃ s, Reach (step sampleConfig) (KeepsFacts sampleConfig) {} s ∧
      s.connections.map (fun c => find '/' ['/', 'f'] c.remoteFileSystem) = [some true] ∧
      s.failed = none := by
  have hnone : ∀ connections, Resolved '/' {} connections := by
    intro connections id t hid
    simp at hid
  have h₀ : Reach (step sampleConfig) (KeepsFacts sampleConfig) {} {} := .init
  have h₁ := h₀.next (e := .accept 0) (by exact fun connections _ => hnone connections) rfl
  have h₂ := h₁.next (e := .login 0 ['a']) (by exact fun connections _ => hnone connections) rfl
  have h₃ := h₂.next (e := .request 0 (.Add ['/', 'f']))
    (by intro c _ id t hid; simp at hid) rfl
  have h₄ := h₃.next (e := .manage true
    (.beginDownload ⟨true, true, some 1, true⟩ 2 .nocompression ⟨['/', 'f'], ['a']⟩))
    (by intro c hc; cases hc; rfl) rfl
  have h₅ := h₄.next (e := .manage true (.hello ⟨true, true⟩ .SENDER_CODE_STR 2))
    (by intro _ t ht _; cases ht; rfl) rfl
  have h₆ := h₅.next (e := .manage true (.completed 2 [])) (by exact fun _ => trivial) rfl
  exact ⟨_, h₆, rfl, facts_hold h₆⟩

/-- The owner of a download that is begun and started. -/
def sharedFile : List Event :=
  [.accept 0, .login 0 ['a'], .request 0 (.Add ['/', 'f']),
    .manage true
      (.beginDownload ⟨true, true, some 1, true⟩ 2 .nocompression ⟨['/', 'f'], ['a']⟩),
    .manage true (.hello ⟨true, true⟩ .SENDER_CODE_STR 2)]

/-- Each of the conditions is needed. The owner removes the file before the transfer ends;
a second hello message starts the transaction again, and the second transfer to end finds
it erased; a second reply begins it again, and its timer expires after the transfer. Two
calls of `BeginUploadTransaction` overlap, and both transfers end the first upload. -/
theorem facts_fail :
    (exec (step sampleConfig) {} (sharedFile ++
      [.request 0 (.Remove ['/', 'f']), .manage true (.completed 2 [])])).map (·.failed) =
        some (some .SetFileToCached) ∧
    (exec (step sampleConfig) {} (sharedFile ++
      [.manage true (.hello ⟨true, true⟩ .SENDER_CODE_STR 2), .manage true (.completed 2 []),
        .manage false (.erasedCompleted 0 [])])).map (·.failed) =
        some (some .EndDownloadTransaction) ∧
    (exec (step sampleConfig) {} (sharedFile ++
      [.manage true
        (.beginDownload ⟨true, true, some 1, true⟩ 2 .nocompression ⟨['/', 'f'], ['a']⟩),
        .manage true (.completed 2 []), .manage true (.erasedTimer 0)])).map (·.failed) =
        some (some .EndDownloadTransaction) ∧
    (exec (step sampleConfig) {}
      [.captureUpload ⟨sampleEnv, ['f'], .zlib⟩, .captureUpload ⟨sampleEnv, ['g'], .zlib⟩,
        .storeUpload 0, .storeUpload 0,
        .manage true (.hello ⟨true, true⟩ .RECEIVER_CODE_STR 1),
        .manage true (.hello ⟨true, true⟩ .RECEIVER_CODE_STR 2),
        .manage true (.uploadCompleted 1), .manage true (.uploadCompleted 2)]).map (·.failed) =
        some (some .EndUploadTransaction) := by
  decide +kernel

end DownloadServer

end FspServer
