import FspServer.Protocol
import FspServer.Lib.Framing
import Mathlib.Computability.StateTransition
import Mathlib.Data.List.TakeWhile

/-!
# File transfers

The four workers that move the bytes of a file: `StreamModeFileDeliver` and
`CompressedModeFileDeliver` read a file and write it to a socket,
`StreamModeFileReceiver` and `CompressedModeFileReceiver` read a socket and write
a file. Each is a loop of callbacks: a handler ends by starting the next
asynchronous operation (`pending`) or by calling the handler it was given.

The compressors, the asynchronous file and the constants of the protocol are not
part of the server: a compressor is a pair of functions, the results of the file
reads are given, and a read of the socket that meets the end of the stream is an
error with the bytes read so far.

Results:
1. `deliver_runs`: a deliverer that reads a file in any number of chunks sends
   the encoding of the chunks and cleans up once.
2. `stream_receiver_runs`, `compressed_receiver_runs`: a receiver that is fed
   what a deliverer of its mode has sent writes the content and reports once.
3. `transfer_round_trip`: both together.
-/

namespace FspServer

open Framing StateTransition

abbrev Bytes := List UInt8

/-- The constants of the protocol. The receiver's buffer has
`MAX_COMPRESSED_SEGMENT_LENGTH` bytes, and the header is written into it with a
zero after it. -/
structure TransferConfig where
  COMPRESSED_CHUNK_HEADER_LENGTH : Nat
  MAX_COMPRESSED_SEGMENT_LENGTH : Nat
  header_fits : COMPRESSED_CHUNK_HEADER_LENGTH < MAX_COMPRESSED_SEGMENT_LENGTH
  segment_fits : MAX_COMPRESSED_SEGMENT_LENGTH < 2 ^ 63

/-- `AbstractCompressor`; `none` when `decompress` throws. -/
structure AbstractCompressor where
  compress : Bytes → Bytes
  decompress : Bytes → Option Bytes

/-- Which of the two kinds of worker, with the compressor it is given. -/
inductive TransferMode where
  | stream
  | compressed (compressor : AbstractCompressor)

/-! ## Delivering -/

/-- The size of the deliverer's buffer. -/
def KB500 : Nat := 512000

/-- An error of a file read. -/
inductive FileError where
  | eof
  | other
deriving DecidableEq, Repr

/-- The asynchronous operation a deliverer has started. -/
inductive DeliverOperation where
  | asyncRead
  | asyncWrite (bytes : Bytes)
deriving DecidableEq, Repr

/-- `AbstractFileDeliver`. `sent` is what has been written to the socket and
`cleanUps` counts the calls of `CleanUpHandler_`. -/
structure AbstractFileDeliver where
  doneFlag : Bool
  pending : Option DeliverOperation
  sent : Bytes
  cleanUps : Nat
deriving DecidableEq, Repr

namespace AbstractFileDeliver

def new : AbstractFileDeliver := ⟨false, none, [], 0⟩

def cleanUpHandler (d : AbstractFileDeliver) : AbstractFileDeliver :=
  { d with pending := none, cleanUps := d.cleanUps + 1 }

/-- `Start` of both deliverers. -/
def start (d : AbstractFileDeliver) : AbstractFileDeliver := { d with pending := some .asyncRead }

/-- `handle_write` of both deliverers. -/
def handleWrite (error : Bool) (d : AbstractFileDeliver) : AbstractFileDeliver :=
  if !error then
    if d.doneFlag then d.cleanUpHandler else { d with pending := some .asyncRead }
  else d.cleanUpHandler

end AbstractFileDeliver

/-- `!error || error == eof && bytes_transferred > 0`. -/
def readSucceeded (error : Option FileError) (bytes : Bytes) : Bool :=
  error = none || (error = some .eof && 0 < bytes.length)

def StreamModeFileDeliver.handleRead (error : Option FileError) (bytes : Bytes)
    (d : AbstractFileDeliver) : AbstractFileDeliver :=
  if readSucceeded error bytes then
    { d with
      doneFlag := d.doneFlag || error = some .eof
      pending := some (.asyncWrite bytes) }
  else d.cleanUpHandler

/-- `setw(COMPRESSED_CHUNK_HEADER_LENGTH) << setfill('0') << length`. -/
def chunkHeader (cfg : TransferConfig) (length : Nat) : Bytes :=
  toBytes (padded cfg.COMPRESSED_CHUNK_HEADER_LENGTH length)

/-- `headerWritten` is how much of the header the blocking `write` got out, when
it failed. -/
def CompressedModeFileDeliver.handleRead (cfg : TransferConfig) (compressor : AbstractCompressor)
    (error : Option FileError) (bytes : Bytes) (headerWritten : Option Nat)
    (d : AbstractFileDeliver) : AbstractFileDeliver :=
  if readSucceeded error bytes then
    let doneFlag := d.doneFlag || error = some .eof
    let compressedChunk := compressor.compress bytes
    let comprLen := chunkHeader cfg compressedChunk.length
    match headerWritten with
    | some n => { d with doneFlag, sent := d.sent ++ comprLen.take n }.cleanUpHandler
    | none =>
      { d with
        doneFlag
        sent := d.sent ++ comprLen
        pending := some (.asyncWrite compressedChunk) }
  else d.cleanUpHandler

/-- The results of the file reads still to come, and the deliverer. -/
structure Delivery where
  reads : List (Option FileError × Bytes)
  deliver : AbstractFileDeliver
deriving DecidableEq, Repr

/-- The next completion, when writes complete in full. -/
def Delivery.step (cfg : TransferConfig) (mode : TransferMode) (s : Delivery) : Option Delivery :=
  match s.deliver.pending, s.reads with
  | some .asyncRead, (error, bytes) :: reads =>
    some ⟨reads, match mode with
      | .stream => StreamModeFileDeliver.handleRead error bytes s.deliver
      | .compressed compressor =>
        CompressedModeFileDeliver.handleRead cfg compressor error bytes none s.deliver⟩
  | some (.asyncWrite bytes), reads =>
    some ⟨reads, AbstractFileDeliver.handleWrite false { s.deliver with
      sent := s.deliver.sent ++ bytes }⟩
  | _, _ => none

/-! ## Receiving -/

/-- The asynchronous operation a receiver has started; a read is given the size
of the buffer it has to fill. -/
inductive ReceiveOperation where
  | asyncRead (size : Nat)
  | asyncWrite (bytes : Bytes)
deriving DecidableEq, Repr

/-- `AbstractFileReceiver`. `socket` holds the fragments still to be read,
`fileOnDisk` what has been written, and `reports` the calls of `Handler`. -/
structure AbstractFileReceiver where
  fileSize : Nat
  bytesWrottedToDisck : Nat
  socket : List Bytes
  fileOnDisk : Bytes
  pending : Option ReceiveOperation
  reports : List Bool
deriving DecidableEq, Repr

namespace AbstractFileReceiver

/-- A receiver as constructed, with the socket that `SetSocket` gives it. -/
def new (fileSize : Nat) (socket : List Bytes) : AbstractFileReceiver :=
  ⟨fileSize, 0, socket, [], none, []⟩

/-- `OnSuccess` and `OnError`. -/
def handler (success : Bool) (r : AbstractFileReceiver) : AbstractFileReceiver :=
  { r with pending := none, reports := r.reports ++ [success] }

/-- `BytesWrottedToDisck == FileSize ? OnSuccess() : OnError()`. -/
def checkFileDownloadSuccess (r : AbstractFileReceiver) : AbstractFileReceiver :=
  r.handler (r.bytesWrottedToDisck = r.fileSize)

end AbstractFileReceiver

namespace StreamModeFileReceiver

open AbstractFileReceiver

def start (cfg : TransferConfig) (r : AbstractFileReceiver) : AbstractFileReceiver :=
  { r with pending := some (.asyncRead cfg.MAX_COMPRESSED_SEGMENT_LENGTH) }

def handleRead (error : Bool) (bytes : Bytes) (r : AbstractFileReceiver) : AbstractFileReceiver :=
  if !error || 0 < bytes.length then { r with pending := some (.asyncWrite bytes) }
  else r.checkFileDownloadSuccess

def handleWrite (cfg : TransferConfig) (error : Bool) (transferred : Nat)
    (r : AbstractFileReceiver) : AbstractFileReceiver :=
  if !error then
    { r with
      bytesWrottedToDisck := r.bytesWrottedToDisck + transferred
      pending := some (.asyncRead cfg.MAX_COMPRESSED_SEGMENT_LENGTH) }
  else r.handler false

end StreamModeFileReceiver

/-- `atoll`: leading white space, a sign, then digits; the value saturates. -/
def atoll (text : Str) : Int :=
  let text := text.dropWhile isSpace
  let (negative, text) := match text with
    | '-' :: rest => (true, rest)
    | '+' :: rest => (false, rest)
    | rest => (false, rest)
  let value : Int := Nat.ofDigitChars 10 (text.takeWhile Char.isDigit) 0
  if negative then max (-2 ^ 63) (-value) else min (2 ^ 63 - 1) value

namespace CompressedModeFileReceiver

open AbstractFileReceiver

/-- The size of `buffer(Buffer, atoll(Buffer))`: the number is converted to
`size_t`, and the buffer is never larger than the array. -/
def chunkSize (cfg : TransferConfig) (header : Bytes) : Nat :=
  min cfg.MAX_COMPRESSED_SEGMENT_LENGTH (atoll (ofBytes header) % 2 ^ 64).toNat

/-- The end of `Start` and of `handle_write`: reads a header, blocking, and starts
the read of its chunk. -/
def readChunk (cfg : TransferConfig) (r : AbstractFileReceiver) : AbstractFileReceiver :=
  let (header, socket) := read cfg.COMPRESSED_CHUNK_HEADER_LENGTH r.socket
  let r := { r with socket }
  if header.length < cfg.COMPRESSED_CHUNK_HEADER_LENGTH then r.checkFileDownloadSuccess
  else { r with pending := some (.asyncRead (chunkSize cfg header)) }

def start (cfg : TransferConfig) (r : AbstractFileReceiver) : AbstractFileReceiver :=
  readChunk cfg r

def handleRead (decompressor : AbstractCompressor) (error : Bool) (bytes : Bytes)
    (r : AbstractFileReceiver) : AbstractFileReceiver :=
  if !error || 0 < bytes.length then
    match decompressor.decompress bytes with
    | some decompressedChunk => { r with pending := some (.asyncWrite decompressedChunk) }
    | none => r.checkFileDownloadSuccess
  else r.checkFileDownloadSuccess

def handleWrite (cfg : TransferConfig) (error : Bool) (transferred : Nat)
    (r : AbstractFileReceiver) : AbstractFileReceiver :=
  if !error then
    readChunk cfg { r with bytesWrottedToDisck := r.bytesWrottedToDisck + transferred }
  else r.checkFileDownloadSuccess

end CompressedModeFileReceiver

namespace AbstractFileReceiver

/-- `Start` of the receiver of a mode. -/
def start (cfg : TransferConfig) (mode : TransferMode) (r : AbstractFileReceiver) :
    AbstractFileReceiver :=
  match mode with
  | .stream => StreamModeFileReceiver.start cfg r
  | .compressed _ => CompressedModeFileReceiver.start cfg r

/-- The next completion, when writes complete in full. -/
def step (cfg : TransferConfig) (mode : TransferMode) (r : AbstractFileReceiver) :
    Option AbstractFileReceiver :=
  match r.pending with
  | some (.asyncRead size) =>
    let (bytes, socket) := read size r.socket
    let r := { r with socket }
    some (match mode with
      | .stream => StreamModeFileReceiver.handleRead (bytes.length < size) bytes r
      | .compressed decompressor =>
        CompressedModeFileReceiver.handleRead decompressor (bytes.length < size) bytes r)
  | some (.asyncWrite bytes) =>
    let r := { r with fileOnDisk := r.fileOnDisk ++ bytes }
    some (match mode with
      | .stream => StreamModeFileReceiver.handleWrite cfg false bytes.length r
      | .compressed _ => CompressedModeFileReceiver.handleWrite cfg false bytes.length r)
  | none => none

end AbstractFileReceiver

/-! ## The deliverer's run -/

/-- What a deliverer sends for one chunk. -/
def TransferMode.encode (cfg : TransferConfig) (bytes : Bytes) : TransferMode → Bytes
  | .stream => bytes
  | .compressed compressor =>
    chunkHeader cfg (compressor.compress bytes).length ++ compressor.compress bytes

/-- The results of the reads of a file: chunks, then the end of the file, together
with the last bytes or alone. -/
def fileReads (chunks : List Bytes) (last : Bytes) : List (Option FileError × Bytes) :=
  chunks.map (fun bytes => (none, bytes)) ++ [(some .eof, last)]

/-- The chunks that are sent: the read that finds nothing but the end sends none. -/
def sentChunks (chunks : List Bytes) (last : Bytes) : List Bytes :=
  chunks ++ if last = [] then [] else [last]

theorem flatten_sentChunks (chunks : List Bytes) (last : Bytes) :
    (sentChunks chunks last).flatten = chunks.flatten ++ last := by
  by_cases h : last = [] <;> simp [sentChunks, h]

section Deliver

variable {cfg : TransferConfig} {mode : TransferMode}

theorem reaches_two {σ : Type} {f : σ → Option σ} {a b c : σ} (hab : f a = some b)
    (hbc : f b = some c) : Reaches f a c := by
  have hone : Reaches f a b := Relation.ReflTransGen.single hab
  exact Relation.ReflTransGen.tail hone hbc

/-- A read that brings a chunk, and the write of it. -/
theorem reaches_chunk (bytes : Bytes) (reads : List (Option FileError × Bytes)) (sent : Bytes) :
    Reaches (Delivery.step cfg mode) ⟨(none, bytes) :: reads, ⟨false, some .asyncRead, sent, 0⟩⟩
      ⟨reads, ⟨false, some .asyncRead, sent ++ mode.encode cfg bytes, 0⟩⟩ := by
  cases mode with
  | stream => exact reaches_two rfl rfl
  | compressed compressor =>
    rw [TransferMode.encode, ← List.append_assoc]
    exact reaches_two rfl rfl

/-- The end of the file together with bytes: they are written before the clean-up. -/
theorem reaches_last {last : Bytes} (h : last ≠ []) (sent : Bytes) :
    Reaches (Delivery.step cfg mode) ⟨[(some .eof, last)], ⟨false, some .asyncRead, sent, 0⟩⟩
      ⟨[], ⟨true, none, sent ++ mode.encode cfg last, 1⟩⟩ := by
  obtain ⟨b, bytes, rfl⟩ := List.exists_cons_of_ne_nil h
  cases mode with
  | stream => exact reaches_two rfl rfl
  | compressed compressor =>
    rw [TransferMode.encode, ← List.append_assoc]
    exact reaches_two rfl rfl

/-- The end of the file alone. -/
theorem reaches_end (sent : Bytes) :
    Reaches (Delivery.step cfg mode) ⟨[(some .eof, [])], ⟨false, some .asyncRead, sent, 0⟩⟩
      ⟨[], ⟨false, none, sent, 1⟩⟩ := by
  cases mode <;> exact Relation.ReflTransGen.single rfl

theorem reaches_chunks (chunks : List Bytes) (reads : List (Option FileError × Bytes))
    (sent : Bytes) :
    Reaches (Delivery.step cfg mode)
      ⟨chunks.map (fun bytes => (none, bytes)) ++ reads, ⟨false, some .asyncRead, sent, 0⟩⟩
      ⟨reads, ⟨false, some .asyncRead, sent ++ chunks.flatMap (mode.encode cfg), 0⟩⟩ := by
  induction chunks generalizing sent with
  | nil =>
    rw [List.flatMap_nil, List.append_nil]
    exact .refl
  | cons bytes chunks ih =>
    rw [List.flatMap_cons, ← List.append_assoc]
    exact (reaches_chunk bytes _ sent).trans (ih _)

/-- A deliverer sends the encodings of the chunks, in order, and cleans up once. -/
theorem deliver_runs (chunks : List Bytes) (last : Bytes) :
    ∃ s ∈ eval (Delivery.step cfg mode) ⟨fileReads chunks last, AbstractFileDeliver.new.start⟩,
      s.deliver.sent = (sentChunks chunks last).flatMap (mode.encode cfg) ∧
      s.deliver.cleanUps = 1 := by
  have hchunks := @reaches_chunks cfg mode chunks [(some .eof, last)] []
  by_cases h : last = []
  · subst h
    refine ⟨_, mem_eval.mpr ⟨hchunks.trans (reaches_end _), rfl⟩, ?_, rfl⟩
    simp [sentChunks]
  · refine ⟨_, mem_eval.mpr ⟨hchunks.trans (reaches_last h _), rfl⟩, ?_, rfl⟩
    simp [sentChunks, h]

end Deliver

/-! ## The receivers' runs -/

open AbstractFileReceiver

/-- The receiver has written `content` after what it had, and reported once. -/
structure Received (r r' : AbstractFileReceiver) (content : Bytes) : Prop where
  fileOnDisk : r'.fileOnDisk = r.fileOnDisk ++ content
  reports : r'.reports =
    r.reports ++ [decide (r.bytesWrottedToDisck + content.length = r.fileSize)]

/-- `bytes` are written first, the rest from there. -/
theorem Received.prepend {r m r' : AbstractFileReceiver} {bytes content : Bytes}
    (h : Received m r' content) (hdisk : m.fileOnDisk = r.fileOnDisk ++ bytes)
    (hbytes : m.bytesWrottedToDisck = r.bytesWrottedToDisck + bytes.length)
    (hsize : m.fileSize = r.fileSize) (hreports : m.reports = r.reports) :
    Received r r' (bytes ++ content) where
  fileOnDisk := by rw [h.fileOnDisk, hdisk, List.append_assoc]
  reports := by rw [h.reports, hreports, hbytes, hsize, List.length_append, Nat.add_assoc]

/-- The end of the stream, where the receiver looks for more. -/
theorem received_nothing (r : AbstractFileReceiver) (socket : List Bytes) :
    Received r { r with socket }.checkFileDownloadSuccess [] where
  fileOnDisk := by simp [checkFileDownloadSuccess, handler]
  reports := by simp [checkFileDownloadSuccess, handler]

/-- A stream receiver that waits for a read takes the rest of the stream. -/
theorem stream_receiver_runs (cfg : TransferConfig) {r : AbstractFileReceiver} {content : Bytes}
    (hpending : r.pending = some (.asyncRead cfg.MAX_COMPRESSED_SEGMENT_LENGTH))
    (hsocket : r.socket.flatten = content) :
    ∃ r' ∈ eval (step cfg .stream) r, Received r r' content := by
  -- by induction on the length of what is left: each read takes a buffer of it
  induction hn : content.length using Nat.strong_induction_on generalizing r content with
  | _ n ih =>
    let max := cfg.MAX_COMPRESSED_SEGMENT_LENGTH
    have hmax : 0 < max := Nat.zero_lt_of_lt cfg.header_fits
    have hbytes : (read max r.socket).1 = content.take max := by rw [read_fst, hsocket]
    have hrest : (read max r.socket).2.flatten = content.drop max := by
      rw [flatten_read_snd, hsocket]
    by_cases hempty : content = []
    · subst hempty
      have hread : step cfg .stream r =
          some { r with socket := (read max r.socket).2 }.checkFileDownloadSuccess := by
        simp [step, hpending, StreamModeFileReceiver.handleRead, hbytes, max, hmax]
      exact ⟨_, mem_eval.mpr ⟨Relation.ReflTransGen.single hread, rfl⟩, received_nothing r _⟩
    · have hpos : 0 < content.length := List.length_pos_iff.mpr hempty
      let written : AbstractFileReceiver :=
        { r with
          socket := (read max r.socket).2
          fileOnDisk := r.fileOnDisk ++ content.take max
          bytesWrottedToDisck := r.bytesWrottedToDisck + (content.take max).length
          pending := some (.asyncRead max) }
      have hread : step cfg .stream r = some { r with
          socket := (read max r.socket).2, pending := some (.asyncWrite (content.take max)) } := by
        have htake : 0 < (content.take max).length := by rw [List.length_take]; omega
        simp only [step, hpending, StreamModeFileReceiver.handleRead]
        rw [hbytes, if_pos (by simp only [htake, decide_true, Bool.or_true])]
      have hsteps : Reaches (step cfg .stream) r written := reaches_two hread rfl
      obtain ⟨r', hr', hreceived⟩ := ih (content.drop max).length
        (by rw [List.length_drop]; omega) (r := written) rfl hrest rfl
      have hwhole : Received r r' (content.take max ++ content.drop max) :=
        hreceived.prepend rfl rfl rfl rfl
      rw [List.take_append_drop] at hwhole
      exact ⟨r', by rwa [reaches_eval hsteps], hwhole⟩

/-! ## Compressed chunks -/

theorem toNat_of_isDigit {c : Char} (h : c.isDigit = true) : 48 ≤ c.toNat ∧ c.toNat ≤ 57 := by
  simp only [Char.isDigit, Bool.and_eq_true, decide_eq_true_eq] at h
  exact ⟨UInt32.le_iff_toNat_le.mp h.1, UInt32.le_iff_toNat_le.mp h.2⟩

/-- A digit is neither white space nor a sign. -/
theorem plain_of_isDigit {c : Char} (h : c.isDigit = true) :
    isSpace c = false ∧ c ≠ '-' ∧ c ≠ '+' := by
  have hc := toNat_of_isDigit h
  refine ⟨?_, fun heq => ?_, fun heq => ?_⟩
  · have hblank : c ≠ ' ' := fun heq => by rw [heq] at hc; exact absurd hc (by decide)
    simp only [isSpace, hblank, false_or, decide_eq_false_iff_not]
    omega
  · rw [heq] at hc
    exact absurd hc (by decide)
  · rw [heq] at hc
    exact absurd hc (by decide)

theorem atoll_of_digits {text : Str} (h : ∀ c ∈ text, c.isDigit = true)
    (hvalue : Nat.ofDigitChars 10 text 0 < 2 ^ 63) : atoll text = Nat.ofDigitChars 10 text 0 := by
  have hdigits : text.takeWhile Char.isDigit = text := List.takeWhile_eq_self_iff.mpr h
  cases text with
  | nil => rfl
  | cons c rest =>
    -- the digits are the whole text
    obtain ⟨hspace, hminus, hplus⟩ := plain_of_isDigit (h c List.mem_cons_self)
    rw [atoll, List.dropWhile_cons_of_neg (by simp [hspace])]
    split
    rename_i negative text' hsign
    split at hsign
    · next heq => exact absurd (List.cons.inj heq).1 hminus
    · next heq => exact absurd (List.cons.inj heq).1 hplus
    · cases hsign
      rw [hdigits]
      simp only [Bool.false_eq_true, ↓reduceIte]
      omega

theorem chunkSize_chunkHeader (cfg : TransferConfig) {n : Nat}
    (hn : n ≤ cfg.MAX_COMPRESSED_SEGMENT_LENGTH) :
    CompressedModeFileReceiver.chunkSize cfg (chunkHeader cfg n) = n := by
  have hdigits : ∀ c ∈ padded cfg.COMPRESSED_CHUNK_HEADER_LENGTH n, c.isDigit = true :=
    fun c hc => isDigit_of_mem_padded hc
  have hfits := cfg.segment_fits
  rw [CompressedModeFileReceiver.chunkSize, chunkHeader, ofBytes_toBytes hdigits,
    atoll_of_digits hdigits (by rw [ofDigitChars_padded]; omega), ofDigitChars_padded]
  omega

/-- A compressor that the protocol's constants suit: what it makes of a chunk can
be undone, and its length can be announced and received. -/
structure AbstractCompressor.Suits (cfg : TransferConfig) (compressor : AbstractCompressor) :
    Prop where
  undoes : ∀ chunk : Bytes, chunk.length ≤ KB500 →
    compressor.decompress (compressor.compress chunk) = some chunk
  announced : ∀ chunk : Bytes, chunk.length ≤ KB500 →
    (Nat.toDigits 10 (compressor.compress chunk).length).length ≤
      cfg.COMPRESSED_CHUNK_HEADER_LENGTH
  received : ∀ chunk : Bytes, chunk.length ≤ KB500 →
    (compressor.compress chunk).length ≤ cfg.MAX_COMPRESSED_SEGMENT_LENGTH

theorem AbstractCompressor.Suits.header_pos {cfg : TransferConfig}
    {compressor : AbstractCompressor} (h : compressor.Suits cfg) :
    0 < cfg.COMPRESSED_CHUNK_HEADER_LENGTH :=
  Nat.lt_of_lt_of_le Nat.length_toDigits_pos (h.announced [] (Nat.zero_le _))

/-- A chunk that comes whole is read and written. -/
theorem reaches_chunk_written {cfg : TransferConfig} {compressor : AbstractCompressor}
    (hsuits : compressor.Suits cfg) {chunk rest : Bytes} (hchunk : chunk.length ≤ KB500)
    {r : AbstractFileReceiver}
    (hsocket : r.socket.flatten = (TransferMode.compressed compressor).encode cfg chunk ++ rest) :
    ∃ socket : List Bytes, socket.flatten = rest ∧
      Reaches (step cfg (.compressed compressor)) (CompressedModeFileReceiver.readChunk cfg r)
        (CompressedModeFileReceiver.readChunk cfg { r with
          socket
          fileOnDisk := r.fileOnDisk ++ chunk
          bytesWrottedToDisck := r.bytesWrottedToDisck + chunk.length
          pending := some (.asyncWrite chunk) }) := by
  let compressed := compressor.compress chunk
  let width := cfg.COMPRESSED_CHUNK_HEADER_LENGTH
  have hlength : (chunkHeader cfg compressed.length).length = width := by
    rw [chunkHeader, length_toBytes, length_padded (hsuits.announced chunk hchunk)]
  rw [TransferMode.encode, List.append_assoc] at hsocket
  obtain ⟨hheader, hafter⟩ := read_append hlength hsocket
  obtain ⟨hbytes, hrest⟩ := read_append (rfl : compressed.length = compressed.length) hafter
  let socket₁ := (read width r.socket).2
  let socket₂ := (read compressed.length socket₁).2
  have hstart : CompressedModeFileReceiver.readChunk cfg r = { r with
      socket := socket₁, pending := some (.asyncRead compressed.length) } := by
    have hsize := chunkSize_chunkHeader cfg (hsuits.received chunk hchunk)
    simp only [CompressedModeFileReceiver.readChunk]
    rw [hheader, if_neg (by rw [hlength]; exact Nat.lt_irrefl _), hsize]
  have hread : step cfg (.compressed compressor) { r with
      socket := socket₁, pending := some (.asyncRead compressed.length) } = some { r with
      socket := socket₂, pending := some (.asyncWrite chunk) } := by
    have hundoes := hsuits.undoes chunk hchunk
    simp only [step, CompressedModeFileReceiver.handleRead]
    rw [hbytes, if_pos (by simp), hundoes]
  refine ⟨socket₂, hrest, ?_⟩
  rw [hstart]
  exact reaches_two hread rfl

/-- A compressed receiver that is about to read a header takes the chunks that
follow. -/
theorem compressed_receiver_runs {cfg : TransferConfig} {compressor : AbstractCompressor}
    (hsuits : compressor.Suits cfg) {chunks : List Bytes}
    (hchunks : ∀ chunk ∈ chunks, chunk.length ≤ KB500) {r : AbstractFileReceiver}
    (hsocket : r.socket.flatten =
      chunks.flatMap ((TransferMode.compressed compressor).encode cfg)) :
    ∃ r' ∈ eval (step cfg (.compressed compressor)) (CompressedModeFileReceiver.readChunk cfg r),
      Received r r' chunks.flatten := by
  induction chunks generalizing r with
  | nil =>
    -- the read of a header fails
    have hend : CompressedModeFileReceiver.readChunk cfg r =
        { r with socket := (read cfg.COMPRESSED_CHUNK_HEADER_LENGTH r.socket).2
          }.checkFileDownloadSuccess := by
      simp only [CompressedModeFileReceiver.readChunk]
      rw [if_pos]
      rw [read_fst, hsocket, List.flatMap_nil, List.take_nil]
      exact hsuits.header_pos
    rw [hend]
    exact ⟨_, mem_eval.mpr ⟨.refl, rfl⟩, received_nothing r _⟩
  | cons chunk chunks ih =>
    obtain ⟨socket, hrest, hsteps⟩ :=
      reaches_chunk_written hsuits (hchunks chunk List.mem_cons_self) hsocket
    obtain ⟨r', hr', hreceived⟩ := ih (fun c hc => hchunks c (List.mem_cons_of_mem _ hc))
      (r := { r with
        socket
        fileOnDisk := r.fileOnDisk ++ chunk
        bytesWrottedToDisck := r.bytesWrottedToDisck + chunk.length
        pending := some (.asyncWrite chunk) }) hrest
    exact ⟨r', by rwa [reaches_eval hsteps], hreceived.prepend rfl rfl rfl rfl⟩

/-! ## Both ends -/

/-- A mode whose worker pair the protocol's constants suit. -/
def TransferMode.Suits (cfg : TransferConfig) : TransferMode → Prop
  | .stream => True
  | .compressed compressor => compressor.Suits cfg

/-- The receiver fed, in fragments cut anywhere, what the deliverer of its mode
sent for a list of chunks. -/
theorem receiver_runs {cfg : TransferConfig} {mode : TransferMode} (hsuits : mode.Suits cfg)
    {chunks : List Bytes} (hchunks : ∀ chunk ∈ chunks, chunk.length ≤ KB500) (fileSize : Nat)
    {socket : List Bytes} (hsocket : socket.flatten = chunks.flatMap (mode.encode cfg)) :
    ∃ r ∈ eval (step cfg mode) ((AbstractFileReceiver.new fileSize socket).start cfg mode),
      r.fileOnDisk = chunks.flatten ∧ r.reports = [decide (chunks.flatten.length = fileSize)] := by
  have hrun : ∃ r ∈ eval (step cfg mode)
      ((AbstractFileReceiver.new fileSize socket).start cfg mode),
      Received (AbstractFileReceiver.new fileSize socket) r chunks.flatten := by
    cases mode with
    | stream =>
      have hcontent : socket.flatten = chunks.flatten := by
        rw [hsocket]
        exact List.flatMap_id
      obtain ⟨r, hr, hdisk, hreports⟩ := stream_receiver_runs cfg
        (r := StreamModeFileReceiver.start cfg (AbstractFileReceiver.new fileSize socket)) rfl
        hcontent
      exact ⟨r, hr, hdisk, hreports⟩
    | compressed compressor => exact compressed_receiver_runs hsuits hchunks hsocket
  obtain ⟨r, hr, hdisk, hreports⟩ := hrun
  refine ⟨r, hr, hdisk, ?_⟩
  simpa [AbstractFileReceiver.new] using hreports

/-- For every file and every way its reads are cut into chunks, the deliverer
cleans up once, and a receiver fed what it has sent, in any fragments, writes the
content and reports, once, whether it has the announced size. -/
theorem transfer_round_trip (cfg : TransferConfig) {mode : TransferMode} (hsuits : mode.Suits cfg)
    {chunks : List Bytes} {last : Bytes} (hchunks : ∀ chunk ∈ chunks, chunk.length ≤ KB500)
    (hlast : last.length ≤ KB500) :
    ∃ s ∈ eval (Delivery.step cfg mode) ⟨fileReads chunks last, AbstractFileDeliver.new.start⟩,
      s.deliver.cleanUps = 1 ∧
      ∀ (fileSize : Nat) (socket : List Bytes), socket.flatten = s.deliver.sent →
        ∃ r ∈ eval (step cfg mode) ((AbstractFileReceiver.new fileSize socket).start cfg mode),
          r.fileOnDisk = chunks.flatten ++ last ∧
          r.reports = [decide ((chunks.flatten ++ last).length = fileSize)] := by
  obtain ⟨s, hs, hsent, hcleanUps⟩ := @deliver_runs cfg mode chunks last
  refine ⟨s, hs, hcleanUps, fun fileSize socket hsocket => ?_⟩
  have hsentChunks : ∀ chunk ∈ sentChunks chunks last, chunk.length ≤ KB500 := by
    intro chunk hchunk
    by_cases hempty : last = []
    · exact hchunks chunk (by simpa [sentChunks, hempty] using hchunk)
    · simp only [sentChunks, hempty, ↓reduceIte, List.mem_append, List.mem_singleton] at hchunk
      exact hchunk.elim (hchunks chunk) fun heq => heq ▸ hlast
  rw [← flatten_sentChunks]
  exact receiver_runs hsuits hsentChunks fileSize (hsocket.trans hsent)

/-- A compressor that stores its input behind one byte. -/
def storing : AbstractCompressor where
  compress bytes := 120 :: bytes
  decompress
    | 120 :: bytes => some bytes
    | _ => none

def sampleTransferConfig : TransferConfig := ⟨6, 600000, by decide, by decide⟩

theorem storing_suits : storing.Suits sampleTransferConfig where
  undoes _ _ := rfl
  announced chunk h := by
    rw [sampleTransferConfig, Nat.length_toDigits_le_iff (by decide) (by decide)]
    simp only [storing, List.length_cons, KB500] at h ⊢
    omega
  received chunk h := by
    simp only [sampleTransferConfig, storing, List.length_cons, KB500] at h ⊢
    omega

/-- Three bytes in two chunks, the second one together with the end of the file. -/
theorem transfer_round_trip_three_bytes :
    ∃ s ∈ eval (Delivery.step sampleTransferConfig (.compressed storing))
        ⟨fileReads [[1, 2]] [3], AbstractFileDeliver.new.start⟩,
      s.deliver.cleanUps = 1 ∧ ∀ socket : List Bytes, socket.flatten = s.deliver.sent →
        ∃ r ∈ eval (step sampleTransferConfig (.compressed storing))
          ((AbstractFileReceiver.new 3 socket).start sampleTransferConfig (.compressed storing)),
          r.fileOnDisk = [1, 2, 3] ∧ r.reports = [true] := by
  obtain ⟨s, hs, hcleanUps, hreceive⟩ := @transfer_round_trip sampleTransferConfig
    (.compressed storing) storing_suits [[1, 2]] [3] (by decide) (by decide)
  exact ⟨s, hs, hcleanUps, hreceive 3⟩

end FspServer
