import Mathlib.Algebra.GroupWithZero.Nat
import FspServer.Transfers
import FspServer.Lib.Run

/-!
# The two receivers compared

`StreamModeFileReceiver` and `CompressedModeFileReceiver` are driven here by what
happens to them: reads of the socket that bring something or fail, and writes of
the file that succeed or fail, in any order that the pending operations allow. A
compressed receiver has one more place where it waits, the blocking read of the
header of a chunk; `Decodes` says which of its events are one event of a stream
receiver that gets the decoded content.

* On events that decode to each other they are in the same stage and have
  written the same number of bytes (`alike_after`).
* Both report at most once and wait for nothing afterwards (`Alike.ended`).
* They end differently in one place. When a write of the file fails, the
  compressed receiver compares what it has written with the size of the file, as
  both do at every other exit, and the stream receiver reports a failure at once.
  `receivers_agree_iff` says that this is the only difference.
-/

namespace FspServer

open Runs

/-! ## Events of a transfer -/

/-- What happens to a stream receiver. -/
inductive TransferEvent where
  /-- A read of the socket ends, with an error or not. -/
  | read (error : Bool) (content : Bytes)
  /-- A write of the file ends: the bytes transferred, `none` when it failed. -/
  | written (transferred : Option Nat)
deriving DecidableEq, Repr

/-- What happens to a compressed receiver. -/
inductive CompressedEvent where
  /-- The blocking read of a header ends; `none` when it failed. -/
  | header (header : Option Bytes)
  | read (error : Bool) (bytes : Bytes)
  | written (transferred : Option Nat)
deriving DecidableEq, Repr

/-- The bytes written in the course of the events. -/
def bytesWritten (events : List TransferEvent) : Nat :=
  (events.map fun
    | .written (some transferred) => transferred
    | _ => 0).sum

/-- The events of a compressed receiver that are one event of a stream receiver. A read
that fails without data may be the one of the header or the one of the chunk. -/
inductive Decodes (decompressor : AbstractCompressor) :
    TransferEvent → List CompressedEvent → Prop
  | data {error : Bool} {header bytes content : Bytes} (hbytes : error = false ∨ bytes ≠ [])
      (hcontent : error = false ∨ content ≠ [])
      (hdecompress : decompressor.decompress bytes = some content) :
      Decodes decompressor (.read error content) [.header (some header), .read error bytes]
  | headerFailed : Decodes decompressor (.read true []) [.header none]
  | chunkFailed {header : Bytes} :
      Decodes decompressor (.read true []) [.header (some header), .read true []]
  | written (transferred : Option Nat) :
      Decodes decompressor (.written transferred) [.written transferred]

namespace StreamModeFileReceiver

open AbstractFileReceiver

/-- The next callback of the pending operation. -/
def onEvent (cfg : TransferConfig) (r : AbstractFileReceiver) (e : TransferEvent) :
    Option AbstractFileReceiver :=
  match r.pending, e with
  | some (.asyncRead _), .read error content => some (handleRead error content r)
  | some (.asyncWrite _), .written transferred =>
    some (handleWrite cfg transferred.isNone (transferred.getD 0) r)
  | _, _ => none

end StreamModeFileReceiver

/-- A compressed receiver, and whether it is in the blocking read of a header. -/
structure CompressedReceiver where
  receiver : AbstractFileReceiver
  inHeader : Bool
deriving DecidableEq, Repr

namespace CompressedModeFileReceiver

open AbstractFileReceiver

/-- `handle_write` up to the blocking read. -/
def beforeHeader (error : Bool) (transferred : Nat) (r : AbstractFileReceiver) :
    CompressedReceiver :=
  if !error then
    ⟨{ r with bytesWrottedToDisck := r.bytesWrottedToDisck + transferred, pending := none }, true⟩
  else ⟨r.checkFileDownloadSuccess, false⟩

/-- `Start` and `handle_write` from the blocking read on. -/
def afterHeader (cfg : TransferConfig) (header : Option Bytes) (r : AbstractFileReceiver) :
    AbstractFileReceiver :=
  match header with
  | none => r.checkFileDownloadSuccess
  | some header => { r with pending := some (.asyncRead (chunkSize cfg header)) }

def onEvent (cfg : TransferConfig) (decompressor : AbstractCompressor) (c : CompressedReceiver)
    (e : CompressedEvent) : Option CompressedReceiver :=
  match c.inHeader, c.receiver.pending, e with
  | true, _, .header header => some ⟨afterHeader cfg header c.receiver, false⟩
  | false, some (.asyncRead _), .read error bytes =>
    some ⟨handleRead decompressor error bytes c.receiver, false⟩
  | false, some (.asyncWrite _), .written transferred =>
    some (beforeHeader transferred.isNone (transferred.getD 0) c.receiver)
  | _, _, _ => none

/-- The blocking read on the fragments of a socket is one of its two outcomes. -/
theorem readChunk_eq_afterHeader (cfg : TransferConfig) (r : AbstractFileReceiver) :
    readChunk cfg r =
      let (header, socket) := Framing.read cfg.COMPRESSED_CHUNK_HEADER_LENGTH r.socket
      afterHeader cfg (if header.length < cfg.COMPRESSED_CHUNK_HEADER_LENGTH then none
        else some header) { r with socket } := by
  unfold readChunk
  dsimp only
  split
  · rfl
  · rfl

end CompressedModeFileReceiver

/-- The receivers after `Start`, the compressed one in its first blocking read. -/
def StreamModeFileReceiver.started (cfg : TransferConfig) (fileSize : Nat) :
    AbstractFileReceiver :=
  start cfg (.new fileSize [])

def CompressedModeFileReceiver.started (fileSize : Nat) : CompressedReceiver :=
  ⟨.new fileSize [], true⟩

/-- The receivers after the events; `none` when these cannot all happen. -/
def StreamModeFileReceiver.after (cfg : TransferConfig) (fileSize : Nat)
    (es : List TransferEvent) : Option AbstractFileReceiver :=
  exec (onEvent cfg) (started cfg fileSize) es

def CompressedModeFileReceiver.after (cfg : TransferConfig) (decompressor : AbstractCompressor)
    (fileSize : Nat) (es : List CompressedEvent) : Option CompressedReceiver :=
  exec (onEvent cfg decompressor) (started fileSize) es

/-! ## The verdict -/

/-- The two receivers after the events: each has reported at most once and waits for
nothing after it, and the reports are the same and right. -/
structure SameVerdict (fileSize : Nat) (events : List TransferEvent) (s : AbstractFileReceiver)
    (c : CompressedReceiver) : Prop where
  once : s.reports.length ≤ 1 ∧ c.receiver.reports.length ≤ 1
  stream_ended : s.reports ≠ [] → s.pending = none
  compressed_ended : c.receiver.reports ≠ [] → c.receiver.pending = none ∧ c.inHeader = false
  same : s.reports = c.receiver.reports
  verdict : ∀ success ∈ s.reports, success = true ↔ bytesWritten events = fileSize

/-- The event is not the failure of a write while the file has its size. -/
def FailsShort (r : AbstractFileReceiver) (e : TransferEvent) : Prop :=
  e = .written none → r.bytesWrottedToDisck ≠ r.fileSize

instance (r : AbstractFileReceiver) (e : TransferEvent) : Decidable (FailsShort r e) :=
  inferInstanceAs (Decidable (_ → _))

/-! ## One receiver -/

/-- What every receiver keeps: it waits for an operation and has not reported, or it
waits for none and has reported once. -/
def ReportsOnce (r : AbstractFileReceiver) : Prop :=
  (∃ operation, r.pending = some operation) ∧ r.reports = [] ∨
    r.pending = none ∧ ∃ success, r.reports = [success]

/-- A report is about the size of the file. -/
def ReportsSize (r : AbstractFileReceiver) : Prop :=
  ∀ success ∈ r.reports, success = decide (r.bytesWrottedToDisck = r.fileSize)

namespace StreamModeFileReceiver

open AbstractFileReceiver

variable {cfg : TransferConfig} {r r' : AbstractFileReceiver} {e : TransferEvent}

/-- Everything that an event can do to a stream receiver. -/
theorem onEvent_cases (h : onEvent cfg r e = some r') :
    (∃ error content, e = .read error content ∧ (∃ n, r.pending = some (.asyncRead n)) ∧
      (error = false ∨ content ≠ []) ∧ r' = { r with pending := some (.asyncWrite content) }) ∨
    (e = .read true [] ∧ (∃ n, r.pending = some (.asyncRead n)) ∧
      r' = r.checkFileDownloadSuccess) ∨
    (∃ transferred, e = .written (some transferred) ∧ (∃ b, r.pending = some (.asyncWrite b)) ∧
      r' = { r with
        bytesWrottedToDisck := r.bytesWrottedToDisck + transferred
        pending := some (.asyncRead cfg.MAX_COMPRESSED_SEGMENT_LENGTH) }) ∨
    (e = .written none ∧ (∃ b, r.pending = some (.asyncWrite b)) ∧ r' = r.handler false) := by
  unfold onEvent at h
  split at h
  · next n error content hp =>
    obtain rfl := (Option.some.inj h).symm
    cases error with
    | false => exact .inl ⟨false, content, rfl, ⟨n, hp⟩, .inl rfl, rfl⟩
    | true =>
      cases content with
      | nil => exact .inr (.inl ⟨rfl, ⟨n, hp⟩, rfl⟩)
      | cons b bytes =>
        exact .inl ⟨true, b :: bytes, rfl, ⟨n, hp⟩, .inr (List.cons_ne_nil b bytes), rfl⟩
  · next bytes transferred hp =>
    obtain rfl := (Option.some.inj h).symm
    cases transferred with
    | none => exact .inr (.inr (.inr ⟨rfl, ⟨bytes, hp⟩, rfl⟩))
    | some n => exact .inr (.inr (.inl ⟨n, rfl, ⟨bytes, hp⟩, rfl⟩))
  · cases h

/-- Every event adds the bytes it transfers, and the size of the file stays. -/
theorem bytesWritten_onEvent (h : onEvent cfg r e = some r') (after : List TransferEvent) :
    r'.bytesWrottedToDisck + bytesWritten after =
        r.bytesWrottedToDisck + bytesWritten (e :: after) ∧ r'.fileSize = r.fileSize := by
  rcases onEvent_cases h with ⟨_, _, rfl, -, -, rfl⟩ | ⟨rfl, -, rfl⟩ | ⟨n, rfl, -, rfl⟩ |
    ⟨rfl, -, rfl⟩
  · simp [bytesWritten]
  · simp [bytesWritten, checkFileDownloadSuccess, handler]
  · simp [bytesWritten, Nat.add_assoc]
  · simp [bytesWritten, handler]

theorem bytesWrotted_of_exec {es : List TransferEvent} (h : exec (onEvent cfg) r es = some r') :
    r'.bytesWrottedToDisck = r.bytesWrottedToDisck + bytesWritten es ∧
      r'.fileSize = r.fileSize := by
  induction es generalizing r with
  | nil =>
    cases h
    exact ⟨rfl, rfl⟩
  | cons e es ih =>
    obtain ⟨m, hm, hrest⟩ := Option.bind_eq_some_iff.mp h
    obtain ⟨hwritten, hsize⟩ := bytesWritten_onEvent hm es
    obtain ⟨hwritten', hsize'⟩ := ih hrest
    exact ⟨hwritten'.trans hwritten, hsize'.trans hsize⟩

/-- A receiver to which something can still happen has not reported. -/
theorem reports_eq_nil (honce : ReportsOnce r) (h : onEvent cfg r e = some r') :
    r.reports = [] := by
  rcases honce with ⟨-, hreports⟩ | ⟨hp, -⟩
  · exact hreports
  · simp [onEvent, hp] at h

/-- A receiver that has not reported calls its handler once. -/
theorem reportsOnce_handler (hnone : r.reports = []) (success : Bool) :
    ReportsOnce (r.handler success) :=
  .inr ⟨rfl, success, congrArg (· ++ [success]) hnone⟩

theorem reportsOnce_onEvent (honce : ReportsOnce r) (h : onEvent cfg r e = some r') :
    ReportsOnce r' := by
  have hnone := reports_eq_nil honce h
  rcases onEvent_cases h with ⟨_, _, rfl, -, -, rfl⟩ | ⟨rfl, -, rfl⟩ | ⟨n, rfl, -, rfl⟩ |
    ⟨rfl, -, rfl⟩
  · exact .inl ⟨⟨_, rfl⟩, hnone⟩
  · exact reportsOnce_handler hnone _
  · exact .inl ⟨⟨_, rfl⟩, hnone⟩
  · exact reportsOnce_handler hnone false

/-- What a receiver reports after an event is about the size of the file, unless a write
has failed when the file had its size. -/
theorem reportsSize_onEvent_iff (honce : ReportsOnce r) (h : onEvent cfg r e = some r') :
    ReportsSize r' ↔ FailsShort r e := by
  have hnone := reports_eq_nil honce h
  rcases onEvent_cases h with ⟨_, _, rfl, -, -, rfl⟩ | ⟨rfl, -, rfl⟩ | ⟨n, rfl, -, rfl⟩ |
    ⟨rfl, -, rfl⟩
  · exact iff_of_true (by simp [ReportsSize, hnone]) (by simp [FailsShort])
  · refine iff_of_true ?_ (by simp [FailsShort])
    simp [ReportsSize, checkFileDownloadSuccess, handler, hnone]
  · exact iff_of_true (by simp [ReportsSize, hnone]) (by simp [FailsShort])
  · simp [ReportsSize, FailsShort, handler, hnone]

end StreamModeFileReceiver

/-! ## The two receivers together -/

/-- The two receivers are in the same stage. -/
structure Alike (r : AbstractFileReceiver) (c : CompressedReceiver) : Prop where
  fileSize : c.receiver.fileSize = r.fileSize
  written : c.receiver.bytesWrottedToDisck = r.bytesWrottedToDisck
  stage :
    ((∃ n, r.pending = some (.asyncRead n)) ∧ r.reports = [] ∧
      c.inHeader = true ∧ c.receiver.pending = none ∧ c.receiver.reports = []) ∨
    ((∃ bytes, r.pending = some (.asyncWrite bytes) ∧
        c.receiver.pending = some (.asyncWrite bytes)) ∧
      r.reports = [] ∧ c.inHeader = false ∧ c.receiver.reports = []) ∨
    (r.pending = none ∧ (∃ success, r.reports = [success]) ∧ c.inHeader = false ∧
      c.receiver.pending = none ∧
      c.receiver.reports = [decide (r.bytesWrottedToDisck = r.fileSize)])

section Together

open StreamModeFileReceiver CompressedModeFileReceiver AbstractFileReceiver

variable {cfg : TransferConfig} {decompressor : AbstractCompressor} {r : AbstractFileReceiver}
  {c : CompressedReceiver} {e : TransferEvent} {part : List CompressedEvent}

theorem alike_started (cfg : TransferConfig) (fileSize : Nat) :
    Alike (StreamModeFileReceiver.started cfg fileSize)
      (CompressedModeFileReceiver.started fileSize) :=
  ⟨rfl, rfl, .inl ⟨⟨_, rfl⟩, rfl, rfl, rfl, rfl⟩⟩

/-- An event and what decodes to it keep the receivers in the same stage. -/
theorem Alike.onEvent (h : Alike r c) (hpart : Decodes decompressor e part) :
    (StreamModeFileReceiver.onEvent cfg r e).Rel Alike
      (exec (CompressedModeFileReceiver.onEvent cfg decompressor) c part) := by
  obtain ⟨⟨_, _, socket, disk, pending, reports⟩, inHeader⟩ := c
  obtain ⟨rfl, rfl, ⟨⟨n, hr⟩, hreports, rfl, rfl, rfl⟩ | ⟨⟨bytes, hr, rfl⟩, hreports, rfl, rfl⟩ |
    ⟨hr, ⟨success, hreports⟩, rfl, rfl, rfl⟩⟩ := h
  · -- waiting for data
    cases hpart with
    | @data error header bytes content hbytes hcontent hdecompress =>
      have hstream : StreamModeFileReceiver.handleRead error content r =
          { r with pending := some (.asyncWrite content) } := by
        rcases hcontent with rfl | hcontent
        · rfl
        · simp [StreamModeFileReceiver.handleRead, List.length_pos_iff.mpr hcontent]
      have hpositive : (!error || decide (0 < bytes.length)) = true := by
        rcases hbytes with rfl | hbytes
        · rfl
        · simp [List.length_pos_iff.mpr hbytes]
      simp only [StreamModeFileReceiver.onEvent, hr, hstream, exec,
        CompressedModeFileReceiver.onEvent, afterHeader, Option.bind_some,
        CompressedModeFileReceiver.handleRead, hpositive, hdecompress, ↓reduceIte]
      exact .some ⟨rfl, rfl, .inr (.inl ⟨⟨content, rfl, rfl⟩, hreports, rfl, rfl⟩)⟩
    | headerFailed =>
      simp only [StreamModeFileReceiver.onEvent, hr, exec, CompressedModeFileReceiver.onEvent]
      exact .some ⟨rfl, rfl, .inr (.inr ⟨rfl, ⟨_, congrArg (· ++ _) hreports⟩, rfl, rfl, rfl⟩)⟩
    | chunkFailed =>
      simp only [StreamModeFileReceiver.onEvent, hr, exec, CompressedModeFileReceiver.onEvent]
      exact .some ⟨rfl, rfl, .inr (.inr ⟨rfl, ⟨_, congrArg (· ++ _) hreports⟩, rfl, rfl, rfl⟩)⟩
    | written transferred =>
      simp only [StreamModeFileReceiver.onEvent, hr, exec, CompressedModeFileReceiver.onEvent]
      exact .none
  · -- waiting for the file
    cases hpart with
    | written transferred =>
      simp only [StreamModeFileReceiver.onEvent, hr, exec, CompressedModeFileReceiver.onEvent]
      cases transferred with
      | none =>
        exact .some ⟨rfl, rfl, .inr (.inr ⟨rfl, ⟨_, congrArg (· ++ _) hreports⟩, rfl, rfl, rfl⟩)⟩
      | some n => exact .some ⟨rfl, rfl, .inl ⟨⟨_, rfl⟩, hreports, rfl, rfl, rfl⟩⟩
    | _ =>
      simp only [StreamModeFileReceiver.onEvent, hr, exec, CompressedModeFileReceiver.onEvent]
      exact .none
  · -- nothing happens after the report
    cases hpart with
    | _ =>
      simp only [StreamModeFileReceiver.onEvent, hr, exec, CompressedModeFileReceiver.onEvent]
      exact .none

/-- After their reports both receivers wait for nothing. -/
theorem Alike.ended (h : Alike r c) :
    (r.reports.length ≤ 1 ∧ c.receiver.reports.length ≤ 1) ∧
    (r.reports ≠ [] → r.pending = none) ∧
    (c.receiver.reports ≠ [] → c.receiver.pending = none ∧ c.inHeader = false) := by
  obtain ⟨-, -, ⟨-, hr, -, -, hc⟩ | ⟨-, hr, -, hc⟩ |
    ⟨hpending, ⟨success, hr⟩, hheader, hp, hc⟩⟩ := h
  · simp [hr, hc]
  · simp [hr, hc]
  · simp [hr, hc, hpending, hheader, hp]

/-- Receivers in the same stage have the same reports when the one of the stream receiver
is about the size of the file. -/
theorem Alike.reports_eq_iff (h : Alike r c) :
    r.reports = c.receiver.reports ∧
      (∀ success ∈ r.reports, success = true ↔ r.bytesWrottedToDisck = r.fileSize) ↔
    ReportsSize r := by
  obtain ⟨-, -, ⟨-, hr, -, -, hc⟩ | ⟨-, hr, -, hc⟩ | ⟨-, ⟨success, hr⟩, -, -, hc⟩⟩ := h
  · simp [ReportsSize, hr, hc]
  · simp [ReportsSize, hr, hc]
  · cases success <;> simp [ReportsSize, hr, hc]

/-- What a stream receiver has reported after events that could all happen is about the
size of the file exactly when no write failed while the file had its size. -/
theorem reportsSize_iff_eachStep {fileSize : Nat} {es : List TransferEvent}
    {s : AbstractFileReceiver} (hs : StreamModeFileReceiver.after cfg fileSize es = some s) :
    ReportsSize s ↔ EachStep (StreamModeFileReceiver.onEvent cfg) FailsShort
      (StreamModeFileReceiver.started cfg fileSize) es := by
  have honce : ReportsOnce (StreamModeFileReceiver.started cfg fileSize) := .inl ⟨⟨_, rfl⟩, rfl⟩
  have hsize : ReportsSize (StreamModeFileReceiver.started cfg fileSize) := by
    intro success hmem
    cases hmem
  rw [← eachState_iff_eachStep_of_exec (P := fun r => ReportsSize r ∧ ReportsOnce r)
    (fun r e r' hr hstep => (and_iff_left (reportsOnce_onEvent hr.2 hstep)).trans
      (reportsSize_onEvent_iff hr.2 hstep)) ⟨hsize, honce⟩
    (Option.isSome_iff_exists.mpr ⟨s, hs⟩)]
  rw [eachState_and_iff (fun _ _ _ => reportsOnce_onEvent) honce]
  constructor
  · refine fun h => EachState.of_final (fun _ _ _ => reportsOnce_onEvent) ?_ honce hs h
    intro r e r' hr hstep success hmem
    rw [reports_eq_nil hr hstep] at hmem
    cases hmem
  · exact fun h => h.of_exec hs

theorem alike_after (cfg : TransferConfig) (fileSize : Nat) {es : List TransferEvent}
    {ces : List CompressedEvent} (h : Expands (Decodes decompressor) es ces) :
    (StreamModeFileReceiver.after cfg fileSize es).Rel Alike
      (CompressedModeFileReceiver.after cfg decompressor fileSize ces) := by
  have hone : ∀ r c e part, Alike r c → Decodes decompressor e part →
      (StreamModeFileReceiver.onEvent cfg r e).Rel Alike
        (exec (CompressedModeFileReceiver.onEvent cfg decompressor) c part) :=
    fun _ _ _ _ halike hpart => halike.onEvent hpart
  exact Expands.exec hone h (alike_started cfg fileSize)

/-- For every size of the file and all events of the two receivers that decode to each
other: the events can happen to both or to neither, and the receivers come to the same,
right verdict exactly when no write fails while the file has its size. -/
theorem receivers_agree_iff (cfg : TransferConfig) (decompressor : AbstractCompressor)
    (fileSize : Nat) {es : List TransferEvent} {ces : List CompressedEvent}
    (h : Expands (Decodes decompressor) es ces) :
    ((StreamModeFileReceiver.after cfg fileSize es).isSome ↔
      (CompressedModeFileReceiver.after cfg decompressor fileSize ces).isSome) ∧
    ∀ s c, StreamModeFileReceiver.after cfg fileSize es = some s →
      CompressedModeFileReceiver.after cfg decompressor fileSize ces = some c →
      (SameVerdict fileSize es s c ↔ EachStep (StreamModeFileReceiver.onEvent cfg) FailsShort
        (StreamModeFileReceiver.started cfg fileSize) es) := by
  have halike := alike_after cfg fileSize h
  generalize hs : StreamModeFileReceiver.after cfg fileSize es = s at halike ⊢
  generalize CompressedModeFileReceiver.after cfg decompressor fileSize ces = c at halike ⊢
  constructor
  · cases halike with
    | none => exact Iff.rfl
    | some => exact Iff.rfl
  · rintro s c rfl rfl
    cases halike with
    | some halike =>
      obtain ⟨honce, hstream, hcompressed⟩ := halike.ended
      obtain ⟨hwritten, hsize⟩ : s.bytesWrottedToDisck = bytesWritten es ∧
          s.fileSize = fileSize := by
        simpa [StreamModeFileReceiver.started, AbstractFileReceiver.new,
          StreamModeFileReceiver.start] using bytesWrotted_of_exec hs
      rw [← reportsSize_iff_eachStep hs, ← halike.reports_eq_iff, hwritten, hsize]
      exact ⟨fun h => ⟨h.same, h.verdict⟩, fun h => ⟨honce, hstream, hcompressed, h.1, h.2⟩⟩

/-- A file of one byte arrives together with the end of the stream and is written. -/
theorem receivers_agree_one_byte :
    ∃ s c, StreamModeFileReceiver.after sampleTransferConfig 1
        [.read true [7], .written (some 1), .read true []] = some s ∧
      CompressedModeFileReceiver.after sampleTransferConfig storing 1
        [.header (some (chunkHeader sampleTransferConfig 2)), .read true [120, 7],
          .written (some 1), .header none] = some c ∧
      SameVerdict 1 [.read true [7], .written (some 1), .read true []] s c ∧
      s.reports = [true] := by
  have hdecodes : Expands (Decodes storing) [.read true [7], .written (some 1), .read true []]
      [.header (some (chunkHeader sampleTransferConfig 2)), .read true [120, 7],
        .written (some 1), .header none] :=
    .cons (Decodes.data (.inr (by decide)) (.inr (by decide)) rfl)
      (.cons (Decodes.written (some 1)) (.cons Decodes.headerFailed .nil))
  exact ⟨_, _, rfl, rfl, ((receivers_agree_iff sampleTransferConfig storing 1 hdecodes).2 _ _
    rfl rfl).mpr (by decide), rfl⟩

/-- The owner announced an empty file and sends a byte, and the disk is full: the stream
receiver reports a failure, the compressed one a success. -/
theorem receivers_disagree_empty_file :
    ∃ s c, Expands (Decodes storing) [.read true [7], .written none]
        [.header (some (chunkHeader sampleTransferConfig 2)), .read true [120, 7], .written none] ∧
      StreamModeFileReceiver.after sampleTransferConfig 0 [.read true [7], .written none] = some s ∧
      CompressedModeFileReceiver.after sampleTransferConfig storing 0
        [.header (some (chunkHeader sampleTransferConfig 2)), .read true [120, 7], .written none] =
        some c ∧
      s.reports = [false] ∧ c.receiver.reports = [true] ∧
      ¬ SameVerdict 0 [.read true [7], .written none] s c := by
  refine ⟨_, _, .cons (Decodes.data (.inr (by decide)) (.inr (by decide)) rfl)
    (.cons (Decodes.written none) .nil), rfl, rfl, rfl, rfl, fun h => ?_⟩
  exact absurd h.same (by decide)

end Together

end FspServer
