import FspServer.DownloadManager

/-!
# Transactions of the download manager

Three things are asked of the transactions, and each fails on the code as it is.

1. The mode announced is the mode used (`announced_iff`). A receiver is made for
   two compressions, and `GetCompression` negotiates a third one; and a second
   approving reply announces its own compression for the receiver that the first
   one has made.
2. A transaction is started once (`started_once_iff`). `TryStart…` stops the timer
   of the transaction it finds and does not look whether it was running.
3. A transaction that is not started expires (`expiryArmed_of_reach`). The timer of an
   upload is never started, and in a release build the timer of a download erases
   nothing.
-/

namespace FspServer

open Runs

namespace DownloadManager

/-! ## The mode announced -/

/-- The worker that a peer expects when it is told a compression. -/
def expectedWorker (compression : Compression) : TransferWorker :=
  if compression = .nocompression then .stream else .compressed compression

/-- When an approving reply that offers `compressions` begins a transaction, the
receiver stored under the id is the one that `NotifyFileDownload` announces. -/
def DownloadAnnounced (m : DownloadManager) (env : FileEnv) (id : Nat)
    (compressions : List Compression) (handler : CompletionHandler) : Prop :=
  env.createDirectories = true → env.createFile = true →
    ∃ t : Transaction CompletionHandler,
      (m.beginDownloadTransaction env id (getCompression compressions) handler
        ).downloadTransactions[id]? = some t ∧
      t.worker = some (expectedWorker (getCompression compressions))

/-- When a transaction is begun for a requester that offers `compressions`, the
deliverer stored is the one that the approving reply names. -/
def UploadAnnounced (m : DownloadManager) (env : FileEnv) (file : Str)
    (compressions : List Compression) : Prop :=
  ∀ id compression m',
    m.beginUploadTransaction ⟨env, file, getCompression compressions⟩ =
      some (id, compression, m') →
    ∃ t : Transaction Str, m'.uploadTransactions[id]? = some t ∧
      t.worker = some (expectedWorker compression)

theorem makeWorker_eq_iff (compression : Compression) :
    makeWorker compression = some (expectedWorker compression) ↔
      compression = .nocompression ∨ compression = .zlib := by
  cases compression <;> decide

theorem getCompression_eq_ite (compressions : List Compression) :
    getCompression compressions =
      if .zlib ∈ compressions then .zlib
      else if .gzip ∈ compressions then .gzip else .nocompression := by
  unfold getCompression
  by_cases hzlib : Compression.zlib ∈ compressions
  · simp [hzlib]
  · by_cases hgzip : Compression.gzip ∈ compressions <;> simp [hzlib, hgzip]

/-- A receiver is made for what is negotiated unless that is `gzip`. -/
theorem makeWorker_getCompression_iff (compressions : List Compression) :
    makeWorker (getCompression compressions) =
        some (expectedWorker (getCompression compressions)) ↔
      .zlib ∈ compressions ∨ .gzip ∉ compressions := by
  rw [makeWorker_eq_iff, getCompression_eq_ite]
  by_cases hzlib : Compression.zlib ∈ compressions
  · simp [hzlib]
  · by_cases hgzip : Compression.gzip ∈ compressions <;> simp [hzlib, hgzip]

theorem downloadAnnounced_iff (m : DownloadManager) (env : FileEnv) (id : Nat)
    (compressions : List Compression) (handler : CompletionHandler) :
    m.DownloadAnnounced env id compressions handler ↔
      (env.createDirectories = true → env.createFile = true →
        match m.downloadTransactions[id]? with
        | none => .zlib ∈ compressions ∨ .gzip ∉ compressions
        | some t => t.worker = some (expectedWorker (getCompression compressions))) := by
  unfold DownloadAnnounced
  refine forall_congr' fun hdirectories => forall_congr' fun hfile => ?_
  simp only [beginDownloadTransaction, hdirectories, hfile, Bool.not_true, Bool.or_self,
    Bool.false_eq_true, ↓reduceIte, Lookup.getElem?_insert, Option.some.injEq, exists_eq_left']
  cases m.downloadTransactions[id]? with
  | none => exact makeWorker_getCompression_iff compressions
  | some t => exact Iff.rfl

/-- The deliverer is always the one announced. -/
theorem uploadAnnounced {m : DownloadManager} (h : Fresh m) (env : FileEnv) (file : Str)
    (compressions : List Compression) : m.UploadAnnounced env file compressions := by
  intro id compression m' hbegin
  unfold beginUploadTransaction at hbegin
  cases hsize : env.fileSize with
  | none => simp [hsize] at hbegin
  | some size =>
    simp only [hsize, Option.ite_none_left_eq_some, Option.some.injEq, Prod.mk.injEq] at hbegin
    obtain ⟨-, rfl, hcompression, rfl⟩ := hbegin
    refine ⟨_, by rw [Lookup.getElem?_insertIfNew (h _ (Nat.le_refl _)), if_pos rfl], ?_⟩
    rw [hcompression]
    refine (makeWorker_eq_iff compression).mpr ?_
    rw [← hcompression]
    split
    · split
      · next hzlib => exact Or.inr hzlib
      · exact Or.inl rfl
    · exact Or.inl rfl

/-- In every state: the mode announced is the mode used, for a download begun by a
reply and for an upload begun for a request, exactly when the receiver already
stored under the id is the one of the compression negotiated or, with none stored,
the reply offers `zlib` or does not offer `gzip`. -/
theorem announced_iff {build : Build} {m : DownloadManager} (h : Reach (run build) anyStep {} m)
    (env : FileEnv) (id : Nat) (compressions : List Compression) (handler : CompletionHandler) :
    (m.DownloadAnnounced env id compressions handler ∧
        ∀ env' file compressions', m.UploadAnnounced env' file compressions') ↔
      (env.createDirectories = true → env.createFile = true →
        match m.downloadTransactions[id]? with
        | none => .zlib ∈ compressions ∨ .gzip ∉ compressions
        | some t => t.worker = some (expectedWorker (getCompression compressions))) := by
  rw [downloadAnnounced_iff]
  exact and_iff_left fun env' file compressions' =>
    uploadAnnounced (fresh_of_reach h) env' file compressions'

/-- The first reply, which offers `zlib`. -/
theorem announced_iff_zlib :
    ({} : DownloadManager).DownloadAnnounced ⟨true, true, some 1, true⟩ 1 [.zlib] ⟨['f'], ['o']⟩ :=
  ((@announced_iff .debug {} .init ⟨true, true, some 1, true⟩ 1 [.zlib] ⟨['f'], ['o']⟩).mpr
    fun _ _ => by simp).1

/-- A reply that offers `gzip` alone: the pointer stays null, and the owner is told
`gzip`. -/
theorem gzip_not_announced :
    getCompression [.gzip] = .gzip ∧
      ¬ ({} : DownloadManager).DownloadAnnounced ⟨true, true, some 1, true⟩ 1 [.gzip]
        ⟨['f'], ['o']⟩ := by
  refine ⟨rfl, fun h => ?_⟩
  have := (downloadAnnounced_iff _ _ _ _ _).mp h rfl rfl
  simp at this

/-! ## One start -/

/-- `Start` was called once at most, no socket was replaced during a transfer, and
the completion handler has run once at most. -/
def StartedOnce {β : Type} (t : Transaction β) : Prop :=
  t.starts ≤ 1 ∧ t.replaced = false ∧ t.completions ≤ 1

/-- A hello message names a transaction only while it was not started. (A debug
build that cannot write the start byte ends there.) -/
def StartsFresh (build : Build) (m : DownloadManager) (e : Event) : Prop :=
  m.halted = false →
    match e with
    | .hello env .SENDER_CODE_STR id => ∀ t : Transaction CompletionHandler,
        m.downloadTransactions[id]? = some t → (build = .debug → env.startByte = true) →
        t.starts = 0
    | .hello _ .RECEIVER_CODE_STR id => ∀ t : Transaction Str,
        m.uploadTransactions[id]? = some t → t.starts = 0
    | _ => True

/-- Each transfer belongs to a start, and what was started has a worker. -/
def Counted {β : Type} (t : Transaction β) : Prop :=
  t.transfers + t.completions ≤ t.starts ∧ (0 < t.starts → t.worker.isSome = true)

section Once

variable {β : Type}

theorem kept_counted : Kept (Counted (β := β)) where
  new _ _ := ⟨Nat.le_refl 0, fun h => absurd h (Nat.lt_irrefl 0)⟩
  disarm _ h := h
  finish t h htransfer := by
    refine ⟨?_, h.2⟩
    have hle := h.1
    show t.transfers - 1 + (t.completions + 1) ≤ t.starts
    omega

theorem Counted.start {t : Transaction β} (h : Counted t) (hworker : t.worker.isSome = true)
    (socket : Nat) : Counted (t.disarm.start socket) := by
  refine ⟨?_, fun _ => hworker⟩
  have hle := h.1
  show t.transfers + 1 + t.completions ≤ t.starts + 1
  omega

theorem kept_startedOnce :
    Kept (fun t : Transaction β => StartedOnce t ∧ Counted t) where
  new _ _ := ⟨⟨Nat.zero_le 1, rfl, Nat.zero_le 1⟩, kept_counted.new _ _⟩
  disarm _ h := h
  finish t h htransfer := by
    have hcounted := kept_counted.finish t h.2 htransfer
    refine ⟨⟨h.1.1, h.1.2.1, ?_⟩, hcounted⟩
    have hle : t.finish.transfers + t.finish.completions ≤ t.starts := hcounted.1
    have hone := h.1.1
    omega

/-- The first start of a transaction. -/
theorem StartedOnce.start {t : Transaction β} (h : StartedOnce t) (hcounted : Counted t)
    (hfresh : t.starts = 0) (socket : Nat) : StartedOnce (t.disarm.start socket) := by
  have hle := hcounted.1
  have hnone : t.transfers = 0 := by omega
  refine ⟨?_, ?_, ?_⟩
  · show t.starts + 1 ≤ 1
    omega
  · show (t.replaced || decide (0 < t.transfers)) = false
    rw [h.2.1, hnone]
    rfl
  · show t.completions ≤ 1
    omega

end Once

/-- A start that is not the first one is counted. -/
theorem starts_of_startedOnce_start {β : Type} {t : Transaction β} {socket : Nat}
    (h : StartedOnce (t.disarm.start socket)) : t.starts = 0 := by
  have hone : t.starts + 1 ≤ 1 := h.1
  omega

theorem getElem?_tryStartDownload {build : Build} {env : HelloEnv} {id : Nat} {m : DownloadManager}
    {t : Transaction CompletionHandler} (hid : m.downloadTransactions[id]? = some t)
    (hworker : t.worker.isSome = true) (hbyte : build = .debug → env.startByte = true) :
    (m.tryStartDownloadTransaction build env id).downloadTransactions[id]? =
      some (t.disarm.start m.sessions) := by
  obtain ⟨worker, hworker⟩ := Option.isSome_iff_exists.mp hworker
  have hwritten : (decide (build = .debug) && !env.startByte) = false := by
    cases build with
    | debug => simp [hbyte rfl]
    | release => rfl
  simp only [tryStartDownloadTransaction, hid, hworker, hwritten, Bool.false_eq_true, ↓reduceIte,
    Lookup.getElem?_insert]

theorem getElem?_tryStartUpload {id : Nat} {m : DownloadManager} {t : Transaction Str}
    (hid : m.uploadTransactions[id]? = some t) (hworker : t.worker.isSome = true) :
    (m.tryStartUploadTransaction id).uploadTransactions[id]? =
      some (t.disarm.start m.sessions) := by
  obtain ⟨worker, hworker⟩ := Option.isSome_iff_exists.mp hworker
  simp only [tryStartUploadTransaction, hid, hworker, Lookup.getElem?_insert, ↓reduceIte]

/-- Every transaction was started once at most. -/
def AllStartedOnce (m : DownloadManager) : Prop := All StartedOnce StartedOnce m

theorem all_counted_step {build : Build} {m : DownloadManager} (h : All Counted Counted m)
    (e : Event) : All Counted Counted (m.step build e) :=
  h.step kept_counted kept_counted build e (fun _ ht => ht)
    (fun _ _ _ t hid hworker _ => (h.downloads _ t hid).start hworker _)
    (fun _ _ _ t hid hworker => (h.uploads _ t hid).start hworker _)

/-- A null receiver was not started. -/
theorem Counted.starts_eq_zero {β : Type} {t : Transaction β} (h : Counted t)
    (hworker : t.worker.isSome = false) : t.starts = 0 := by
  by_contra hne
  have hstarted := h.2 (Nat.pos_of_ne_zero hne)
  rw [hworker] at hstarted
  exact Bool.false_ne_true hstarted

/-- A hello message that starts a transaction again shows after the step. -/
theorem startsFresh_of_step {build : Build} {m : DownloadManager} {e : Event}
    (hcounted : All Counted Counted m) (hafter : AllStartedOnce (m.step build e)) :
    StartsFresh build m e := by
  intro hrunning
  have hstep : m.step build e = m.act build e := by
    rw [step, hrunning]
    rfl
  rw [hstep] at hafter
  cases e with
  | hello env type id =>
    cases type with
    | SENDER_CODE_STR =>
      intro t hid hbyte
      cases hworker : t.worker.isSome with
      | false => exact (hcounted.downloads id t hid).starts_eq_zero hworker
      | true =>
        exact starts_of_startedOnce_start
          (hafter.downloads id _ (getElem?_tryStartDownload hid hworker hbyte))
    | RECEIVER_CODE_STR =>
      intro t hid
      cases hworker : t.worker.isSome with
      | false => exact (hcounted.uploads id t hid).starts_eq_zero hworker
      | true =>
        exact starts_of_startedOnce_start
          (hafter.uploads id _ (getElem?_tryStartUpload hid hworker))
    | other => trivial
  | beginDownload _ _ _ _ | beginUpload _ | timer _ | erasedTimer _ | uploadTimer _
  | completed _ _ | erasedCompleted _ _ | uploadCompleted _ | erasedUploadCompleted _ => trivial

theorem AllStartedOnce.step {build : Build} {m : DownloadManager} {e : Event}
    (h : AllStartedOnce m) (hcounted : All Counted Counted m) (hfresh : StartsFresh build m e) :
    AllStartedOnce (m.step build e) := by
  cases hhalted : m.halted with
  | true =>
    rw [DownloadManager.step, hhalted]
    exact h
  | false =>
    have hboth : All (fun t => StartedOnce t ∧ Counted t) (fun t => StartedOnce t ∧ Counted t) m :=
      ⟨fun id t hid => ⟨h.downloads id t hid, hcounted.downloads id t hid⟩,
        fun p hp => ⟨h.erasedDownloads p hp, hcounted.erasedDownloads p hp⟩,
        fun id t hid => ⟨h.uploads id t hid, hcounted.uploads id t hid⟩,
        fun p hp => ⟨h.erasedUploads p hp, hcounted.erasedUploads p hp⟩⟩
    have hafter := hboth.step kept_startedOnce kept_startedOnce build e (fun _ ht => ht)
      (by
        rintro env id rfl t hid hworker hbyte
        have ht := hboth.downloads id t hid
        exact ⟨ht.1.start ht.2 (hfresh hhalted t hid hbyte) _, ht.2.start hworker _⟩)
      (by
        rintro env id rfl t hid hworker
        have ht := hboth.uploads id t hid
        exact ⟨ht.1.start ht.2 (hfresh hhalted t hid) _, ht.2.start hworker _⟩)
    exact ⟨fun id t hid => (hafter.downloads id t hid).1,
      fun p hp => (hafter.erasedDownloads p hp).1,
      fun id t hid => (hafter.uploads id t hid).1, fun p hp => (hafter.erasedUploads p hp).1⟩

/-- A step from a state in which every transaction was started once at most leads to
another one exactly when it starts none that was started. -/
theorem allStartedOnce_step_iff {build : Build} {m : DownloadManager} {e : Event}
    (h : AllStartedOnce m) (hcounted : All Counted Counted m) :
    AllStartedOnce (m.step build e) ↔ StartsFresh build m e :=
  ⟨startsFresh_of_step hcounted, h.step hcounted⟩

/-- A run visits only states in which every transaction was started once at most
exactly when every hello message in it names a transaction that was not started. -/
theorem started_once_iff (build : Build) (es : List Event) :
    EachState (run build) AllStartedOnce {} es ↔
      EachStep (run build) (StartsFresh build) {} es := by
  have hcounted : ∀ m e m', All Counted Counted m → run build m e = some m' →
      All Counted Counted m' := by
    intro m e m' h hstep
    obtain rfl := Option.some.inj hstep
    exact all_counted_step h e
  rw [← eachState_and_iff hcounted each_initial es]
  refine eachState_iff_eachStep (fun m e _ => ⟨_, rfl⟩) ?_ ⟨each_initial, each_initial⟩ es
  rintro m e m' ⟨h, hc⟩ hstep
  obtain rfl := Option.some.inj hstep
  rw [← allStartedOnce_step_iff h hc]
  exact and_iff_left (all_counted_step hc e)

/-- Two hello messages with one id: the second one replaces the socket of the
transfer that the first one has started, and both transfers complete. -/
theorem second_hello_starts_again :
    ∃ m t, exec (run .release) {}
        [.beginDownload ⟨true, true, some 1, true⟩ 1 .nocompression ⟨['f'], ['o']⟩,
          .hello ⟨true, true⟩ .SENDER_CODE_STR 1, .hello ⟨true, true⟩ .SENDER_CODE_STR 1,
          .completed 1 [], .completed 1 []] = some m ∧
      m.downloadTransactions[1]? = some t ∧ t.starts = 2 ∧ t.replaced = true ∧
      t.completions = 2 := by
  refine ⟨_, _, rfl, rfl, ?_⟩
  decide

/-! ## Expiry -/

/-- Every stored transaction that was not started has its timer armed, as long as the
process runs. -/
def ExpiryArmed (m : DownloadManager) : Prop :=
  m.halted = false →
    (∀ (id : Nat) (t : Transaction CompletionHandler), m.downloadTransactions[id]? = some t →
      t.starts = 0 → t.timerArmed = true) ∧
    (∀ (id : Nat) (t : Transaction Str), m.uploadTransactions[id]? = some t →
      t.starts = 0 → t.timerArmed = true)

/-- The file is empty or cannot be opened, so no transaction is stored. -/
def UploadFails (r : UploadRequest) : Prop :=
  r.env.fileSize = none ∨ r.env.fileSize = some 0 ∨ r.env.openFile = false

/-- The step stores no upload, and is not the expiry of the timer of a download that
was not started in a release build. -/
def KeepsExpiry (build : Build) (m : DownloadManager) (e : Event) : Prop :=
  (∀ r ∈ e.uploads, UploadFails r) ∧
    ∀ id, e = .timer id → build = .debug ∨ ∀ t : Transaction CompletionHandler,
      m.downloadTransactions[id]? = some t → 0 < t.starts

theorem beginUpload_of_fails {r : UploadRequest} (h : UploadFails r) (m : DownloadManager) :
    m.beginUpload r = m := by
  unfold beginUpload beginUploadTransaction
  rcases h with hsize | hsize | hopen
  · simp [hsize]
  · simp [hsize]
  · cases r.env.fileSize with
    | none => rfl
    | some size => simp [hopen]

/-- The invariant of the runs that store no upload. -/
structure Expiring (m : DownloadManager) : Prop where
  armed : m.halted = false → ∀ (id : Nat) (t : Transaction CompletionHandler),
    m.downloadTransactions[id]? = some t → t.starts = 0 → t.timerArmed = true
  noUploads : ∀ id : Nat, m.uploadTransactions[id]? = none

theorem Expiring.expiryArmed {m : DownloadManager} (h : Expiring m) : ExpiryArmed m := by
  refine fun hrunning => ⟨h.armed hrunning, fun id t hid => ?_⟩
  rw [h.noUploads id] at hid
  cases hid

/-- A transaction is put in its place, armed or started. -/
theorem Expiring.insert {m : DownloadManager} (h : Expiring m) (id : Nat)
    {t : Transaction CompletionHandler}
    (ht : m.halted = false → t.starts = 0 → t.timerArmed = true) :
    Expiring { m with downloadTransactions := m.downloadTransactions.insert id t } where
  armed := by
    intro hrunning j u hu
    rcases Lookup.of_getElem?_insert hu with ⟨-, rfl⟩ | ⟨-, hu⟩
    · exact ht hrunning
    · exact h.armed hrunning j u hu
  noUploads := h.noUploads

/-- The process may end. -/
theorem Expiring.halt {m : DownloadManager} (h : Expiring m) (b : Bool) :
    Expiring { m with halted := m.halted || b } where
  armed hrunning := h.armed (Bool.or_eq_false_iff.mp hrunning).1
  noUploads := h.noUploads

theorem Expiring.halted {m : DownloadManager} (hrunning : m.halted = true)
    (hnone : ∀ id : Nat, m.uploadTransactions[id]? = none) : Expiring m where
  armed h := by rw [hrunning] at h; cases h
  noUploads := hnone

theorem Expiring.erase {m : DownloadManager} (h : Expiring m) (id : Nat)
    (erasedDownloads : List (Nat × Transaction CompletionHandler)) :
    Expiring { m with
      downloadTransactions := m.downloadTransactions.erase id, erasedDownloads } where
  armed := by
    intro hrunning j u hu
    exact h.armed hrunning j u (Lookup.of_getElem?_erase hu).2
  noUploads := h.noUploads

theorem Expiring.endDownloadTransaction {m : DownloadManager} (h : Expiring m) (build : Build)
    (id : Nat) : Expiring (m.endDownloadTransaction build id) := by
  cases build with
  | release => exact h
  | debug =>
    unfold DownloadManager.endDownloadTransaction
    cases m.downloadTransactions[id]? with
    | none => exact .halted rfl h.noUploads
    | some t => exact h.erase id _

theorem Expiring.endUploadTransaction {m : DownloadManager} (h : Expiring m) (build : Build)
    (id : Nat) : Expiring (m.endUploadTransaction build id) := by
  cases build with
  | release => exact h
  | debug =>
    unfold DownloadManager.endUploadTransaction
    rw [h.noUploads id]
    exact .halted rfl h.noUploads

theorem expiring_partsKeep (build : Build) : PartsKeep build UploadFails Expiring where
  finish {m id t} h hid _ := h.insert id (t := t.finish) fun hrunning => h.armed hrunning id t hid
  disarmErased h _ := ⟨h.armed, h.noUploads⟩
  finishErased h _ _ := ⟨h.armed, h.noUploads⟩
  disarmUpload h hid := by rw [h.noUploads] at hid; cases hid
  finishUpload h hid _ := by rw [h.noUploads] at hid; cases hid
  finishErasedUpload h _ _ := ⟨h.armed, h.noUploads⟩
  close {m} id h := by
    unfold closeDownloadTransaction
    cases m.downloadTransactions[id]? with
    | none => exact h
    | some t =>
      dsimp only
      rw [Bool.or_assoc]
      exact h.halt _
  endDownload id h := h.endDownloadTransaction build id
  endUpload id h := h.endUploadTransaction build id
  beginUpload hr h := by rw [beginUpload_of_fails hr]; exact h

theorem Expiring.beginDownloadTransaction {m : DownloadManager} (h : Expiring m) (env : FileEnv)
    (id : Nat) (compression : Compression) (handler : CompletionHandler) :
    Expiring (m.beginDownloadTransaction env id compression handler) := by
  unfold DownloadManager.beginDownloadTransaction
  split
  · exact h
  · exact h.insert id fun _ _ => rfl

/-- The timer of a download erases it, or it was started. -/
theorem Expiring.timerExpired {m : DownloadManager} (h : Expiring m) {build : Build} {id : Nat}
    (hkeeps : build = .debug ∨ ∀ t : Transaction CompletionHandler,
      m.downloadTransactions[id]? = some t → 0 < t.starts) :
    Expiring (m.timerExpired build id) := by
  refine timerExpired_cases h fun t hid _ => ?_
  cases build with
  | debug =>
    -- the transaction is disarmed and erased
    unfold DownloadManager.endDownloadTransaction
    simp only [Lookup.getElem?_insert, ↓reduceIte]
    refine ⟨fun hrunning j u hu => ?_, h.noUploads⟩
    obtain ⟨hj, hu⟩ := Lookup.of_getElem?_erase hu
    rcases Lookup.of_getElem?_insert hu with ⟨heq, -⟩ | ⟨-, hu⟩
    · exact absurd heq hj
    · exact h.armed hrunning j u hu
  | release =>
    have hstarted : 0 < t.starts := hkeeps.resolve_left (by decide) t hid
    refine h.insert id fun _ hzero => ?_
    exact absurd hzero (Nat.ne_of_gt hstarted)

theorem Expiring.handleHandshake {m : DownloadManager} (h : Expiring m) (build : Build)
    (env : HelloEnv) (type : HelloType) (id : Nat) :
    Expiring (m.handleHandshake build env type id) := by
  have hsession : ∀ m' : DownloadManager, Expiring m' →
      Expiring { m' with sessions := m.sessions + 1 } := fun m' h' => ⟨h'.armed, h'.noUploads⟩
  unfold DownloadManager.handleHandshake
  apply hsession
  cases type with
  | other => exact h
  | RECEIVER_CODE_STR =>
    dsimp only [tryStartUploadTransaction]
    rw [h.noUploads id]
    exact h
  | SENDER_CODE_STR =>
    dsimp only [tryStartDownloadTransaction]
    cases hid : m.downloadTransactions[id]? with
    | none => exact h
    | some t =>
      dsimp only
      cases t.worker with
      | none => exact .halted rfl h.noUploads
      | some worker =>
        dsimp only
        split
        · exact .halted rfl h.noUploads
        · have hstarted := h.insert id (t := t.disarm.start m.sessions)
            fun _ hzero => absurd hzero (Nat.succ_ne_zero _)
          exact hstarted.halt _

/-- In every run that stores no upload and, in a release build, in which no download
expires before it is started, every stored transaction that was not started has its
timer armed. -/
theorem expiryArmed_of_reach {build : Build} {m : DownloadManager}
    (h : Reach (run build) (KeepsExpiry build) {} m) : ExpiryArmed m := by
  have hexpiring : Expiring m := by
    refine h.invariant (I := Expiring) ⟨by simp, by simp⟩ ?_
    intro m e m' hm hkeeps hstep
    obtain rfl := Option.some.inj hstep
    refine (expiring_partsKeep build).step hm e hkeeps.1 ?_ ?_ ?_
    · intro env id compression handler _
      exact hm.beginDownloadTransaction env id compression handler
    · intro id heq
      exact hm.timerExpired (hkeeps.2 id heq)
    · intro env type id _
      exact hm.handleHandshake build env type id
  exact hexpiring.expiryArmed

theorem keepsExpiry_of_quiet {build : Build} {m : DownloadManager} {e : Event}
    (huploads : e.uploads = []) (htimer : ∀ id, e ≠ .timer id) : KeepsExpiry build m e :=
  ⟨by simp [huploads], fun id heq => absurd heq (htimer id)⟩

/-- A download is begun and started, and another one begun. -/
theorem expiryArmed_of_reach_two_downloads :
    ∃ m t, Reach (run .release) (KeepsExpiry .release) {} m ∧
      m.downloadTransactions[2]? = some t ∧ t.starts = 0 ∧ ExpiryArmed m := by
  have h₀ : Reach (run .release) (KeepsExpiry .release) {} {} := .init
  have h₁ := h₀.next
    (e := .beginDownload ⟨true, true, some 1, true⟩ 1 .nocompression ⟨['f'], ['o']⟩)
    (keepsExpiry_of_quiet rfl (by simp)) rfl
  have h₂ := h₁.next (e := .hello ⟨true, true⟩ .SENDER_CODE_STR 1)
    (keepsExpiry_of_quiet rfl (by simp)) rfl
  have h₃ := h₂.next (e := .beginDownload ⟨true, true, some 1, true⟩ 2 .zlib ⟨['g'], ['o']⟩)
    (keepsExpiry_of_quiet rfl (by simp)) rfl
  exact ⟨_, _, h₃, rfl, rfl, expiryArmed_of_reach h₃⟩

/-- In every run: no timer of an upload is ever armed, so one that was not started
never expires. -/
theorem uploadTimer_not_armed {build : Build} {m : DownloadManager}
    (h : Reach (run build) anyStep {} m) {id : Nat} {t : Transaction Str}
    (hid : m.uploadTransactions[id]? = some t) : t.timerArmed = false := by
  have hall : All (fun _ => True) (fun t => t.timerArmed = false) m := by
    refine h.invariant (I := All (fun _ => True) (fun t => t.timerArmed = false)) each_initial ?_
    intro m e m' hm _ hstep
    obtain rfl := Option.some.inj hstep
    exact hm.step ⟨fun _ _ => trivial, fun _ _ => trivial, fun _ _ _ => trivial⟩
      ⟨fun _ _ => rfl, fun _ _ => rfl, fun _ ht _ => ht⟩ build e (fun _ _ => trivial)
      (fun _ _ _ _ _ _ _ => trivial) (fun _ _ _ _ _ _ => rfl)
  exact hall.uploads id t hid

/-- A file is delivered from the local storage: the peer that never comes keeps the
transaction. -/
theorem upload_never_expires :
    ∃ m t, exec (run .debug) {} [.beginUpload ⟨⟨true, true, some 1, true⟩, ['f'], .zlib⟩] = some m ∧
      m.uploadTransactions[1]? = some t ∧ t.starts = 0 ∧ t.timerArmed = false ∧
      ¬ ExpiryArmed m := by
  refine ⟨_, _, rfl, rfl, rfl, rfl, fun h => ?_⟩
  exact Bool.false_ne_true ((h rfl).2 1 _ rfl rfl)

end DownloadManager

end FspServer
