import FspServer.Transfers

/-!
# Files that are passed on

A file goes from its owner into the local storage of the server and from there to a requester,
and either connection may break at any byte. `Transfers` has the runs of the workers on a whole
stream; here the writes of a deliverer fail from some byte on (`Sending.step`), and a receiver
is fed any first part of what was written. The owner and the requester are taken to run the
deliverer and the receiver that the server runs.

A chunk that breaks off is handed to the decompressor as it is. What the server relies on is
that the decompressor throws or puts out a first part of the chunk
(`AbstractCompressor.Withstands`).

* `Sending.runs`: a deliverer sends a first part of the stream and cleans up once.
* `receiver_runs_of_cut`: the file on disk is a first part of the content, and its length
  decides what is reported.
* `forwarded`: both ways together. A copy is reported only when it is complete, and what a
  requester gets of it is reported as a success only when it is the whole file of the owner.
-/

namespace FspServer

open Framing StateTransition AbstractFileReceiver

/-! ## Streams that break off -/

/-- What a decompressor makes of a first part of a compressed chunk is a first part of the
chunk, unless it throws. -/
structure AbstractCompressor.Withstands (cfg : TransferConfig)
    (compressor : AbstractCompressor) : Prop where
  suits : compressor.Suits cfg
  cut : ∀ chunk part out : Bytes, chunk.length ≤ KB500 → part <+: compressor.compress chunk →
    compressor.decompress part = some out → out <+: chunk

def TransferMode.Withstands (cfg : TransferConfig) : TransferMode → Prop
  | .stream => True
  | .compressed compressor => compressor.Withstands cfg

variable {cfg : TransferConfig} {compressor : AbstractCompressor}

/-- Less than a header is left: the read fails and the size is checked. -/
theorem compressed_receiver_ends {r : AbstractFileReceiver}
    (hshort : r.socket.flatten.length < cfg.COMPRESSED_CHUNK_HEADER_LENGTH) :
    ∃ r' ∈ eval (step cfg (.compressed compressor))
      (CompressedModeFileReceiver.readChunk cfg r), Received r r' [] := by
  have hend : CompressedModeFileReceiver.readChunk cfg r =
      { r with socket := (read cfg.COMPRESSED_CHUNK_HEADER_LENGTH r.socket).2
        }.checkFileDownloadSuccess := by
    simp only [CompressedModeFileReceiver.readChunk]
    rw [if_pos]
    rw [read_fst, List.length_take]
    omega
  rw [hend]
  exact ⟨_, mem_eval.mpr ⟨.refl, rfl⟩, received_nothing r _⟩

/-- The stream breaks off in a chunk, after its header. -/
theorem compressed_receiver_breaks (hcompressor : compressor.Withstands cfg) {chunk part : Bytes}
    (hchunk : chunk.length ≤ KB500) (hpart : part <+: compressor.compress chunk)
    (hcut : part.length < (compressor.compress chunk).length) {r : AbstractFileReceiver}
    (hsocket : r.socket.flatten =
      chunkHeader cfg (compressor.compress chunk).length ++ part) :
    ∃ content, content <+: chunk ∧
      ∃ r' ∈ eval (step cfg (.compressed compressor))
        (CompressedModeFileReceiver.readChunk cfg r), Received r r' content := by
  let size := (compressor.compress chunk).length
  let width := cfg.COMPRESSED_CHUNK_HEADER_LENGTH
  have hsuits := hcompressor.suits
  have hlength : (chunkHeader cfg size).length = width := by
    rw [chunkHeader, length_toBytes, length_padded (hsuits.announced chunk hchunk)]
  obtain ⟨hheader, hafter⟩ := read_append hlength hsocket
  let socket₁ := (read width r.socket).2
  let socket₂ := (read size socket₁).2
  have hbytes : (read size socket₁).1 = part := by
    rw [read_fst, hafter, List.take_of_length_le (Nat.le_of_lt hcut)]
  have hempty : socket₂.flatten = [] := by
    rw [flatten_read_snd, hafter, List.drop_of_length_le (Nat.le_of_lt hcut)]
  have hstart : CompressedModeFileReceiver.readChunk cfg r = { r with
      socket := socket₁, pending := some (.asyncRead size) } := by
    have hsize := chunkSize_chunkHeader cfg (hsuits.received chunk hchunk)
    simp only [CompressedModeFileReceiver.readChunk]
    rw [hheader, if_neg (by rw [hlength]; exact Nat.lt_irrefl _), hsize]
  have hread : step cfg (.compressed compressor) { r with
      socket := socket₁, pending := some (.asyncRead size) } =
      some (CompressedModeFileReceiver.handleRead compressor true part { r with
        socket := socket₂, pending := some (.asyncRead size) }) := by
    simp only [step]
    rw [hbytes, decide_eq_true hcut]
  rw [hstart]
  unfold CompressedModeFileReceiver.handleRead at hread
  split at hread
  · split at hread
    · -- what the decompressor put out is written, and then no header comes
      next out hout =>
      let written : AbstractFileReceiver :=
        { r with
          socket := socket₂
          fileOnDisk := r.fileOnDisk ++ out
          bytesWrottedToDisck := r.bytesWrottedToDisck + out.length
          pending := some (.asyncWrite out) }
      obtain ⟨r', hr', hreceived⟩ : ∃ r' ∈ eval (step cfg (.compressed compressor))
          (CompressedModeFileReceiver.readChunk cfg written), Received written r' [] :=
        compressed_receiver_ends (by rw [hempty]; exact hsuits.header_pos)
      have hsteps := reaches_two hread rfl
      refine ⟨out, hcompressor.cut chunk part out hchunk hpart hout, r', ?_, ?_⟩
      · rw [reaches_eval hsteps]
        exact hr'
      · have hwhole : Received r r' (out ++ []) := hreceived.prepend rfl rfl rfl rfl
        rwa [List.append_nil] at hwhole
    · exact ⟨[], List.nil_prefix, _,
        mem_eval.mpr ⟨Relation.ReflTransGen.single hread, rfl⟩, received_nothing r _⟩
  · exact ⟨[], List.nil_prefix, _,
      mem_eval.mpr ⟨Relation.ReflTransGen.single hread, rfl⟩, received_nothing r _⟩

/-- A compressed receiver takes the chunks that come whole, and perhaps a part of the next. -/
theorem compressed_receiver_runs_of_cut (hcompressor : compressor.Withstands cfg)
    {chunks : List Bytes} (hchunks : ∀ chunk ∈ chunks, chunk.length ≤ KB500)
    {r : AbstractFileReceiver}
    (hsocket : r.socket.flatten <+:
      chunks.flatMap ((TransferMode.compressed compressor).encode cfg)) :
    ∃ content, content <+: chunks.flatten ∧
      ∃ r' ∈ eval (step cfg (.compressed compressor))
        (CompressedModeFileReceiver.readChunk cfg r), Received r r' content := by
  induction chunks generalizing r with
  | nil =>
    have hempty : r.socket.flatten = [] := List.prefix_nil.mp hsocket
    refine ⟨[], List.nil_prefix, compressed_receiver_ends ?_⟩
    rw [hempty]
    exact hcompressor.suits.header_pos
  | cons chunk chunks ih =>
    obtain ⟨hchunk, hrest⟩ := List.forall_mem_cons.mp hchunks
    rw [List.flatMap_cons] at hsocket
    rw [List.flatten_cons]
    have hencoded := List.prefix_append ((TransferMode.compressed compressor).encode cfg chunk)
      (chunks.flatMap ((TransferMode.compressed compressor).encode cfg))
    rcases Nat.lt_or_ge r.socket.flatten.length
      ((TransferMode.compressed compressor).encode cfg chunk).length with hshort | hwhole
    · -- the stream breaks off in the header or in the chunk
      have hcut := List.prefix_of_prefix_length_le hsocket hencoded (Nat.le_of_lt hshort)
      rw [TransferMode.encode] at hcut hshort
      have hheader : (chunkHeader cfg (compressor.compress chunk).length).length =
          cfg.COMPRESSED_CHUNK_HEADER_LENGTH := by
        rw [chunkHeader, length_toBytes,
          length_padded (hcompressor.suits.announced chunk hchunk)]
      rcases Nat.lt_or_ge r.socket.flatten.length cfg.COMPRESSED_CHUNK_HEADER_LENGTH
        with hfew | hmany
      · exact ⟨[], List.nil_prefix, compressed_receiver_ends hfew⟩
      · obtain ⟨part, hpart⟩ := List.prefix_of_prefix_length_le
          (List.prefix_append _ (compressor.compress chunk)) hcut (by rw [hheader]; exact hmany)
        rw [← hpart] at hcut hshort
        rw [List.length_append, List.length_append] at hshort
        obtain ⟨content, hcontent, hruns⟩ := compressed_receiver_breaks hcompressor hchunk
          ((List.prefix_append_right_inj _).mp hcut) (by omega) hpart.symm
        exact ⟨content, hcontent.trans (List.prefix_append _ _), hruns⟩
    · obtain ⟨after, hafter⟩ := List.prefix_of_prefix_length_le hencoded hsocket hwhole
      rw [← hafter] at hsocket
      obtain ⟨socket, hflatten, hsteps⟩ :=
        reaches_chunk_written hcompressor.suits hchunk hafter.symm
      obtain ⟨content, hcontent, r', hr', hreceived⟩ := ih hrest (r := { r with
        socket
        fileOnDisk := r.fileOnDisk ++ chunk
        bytesWrottedToDisck := r.bytesWrottedToDisck + chunk.length
        pending := some (.asyncWrite chunk) })
        (hflatten ▸ (List.prefix_append_right_inj _).mp hsocket)
      exact ⟨chunk ++ content, (List.prefix_append_right_inj _).mpr hcontent, r',
        by rwa [reaches_eval hsteps], hreceived.prepend rfl rfl rfl rfl⟩

/-! ## Deliverers on connections that break -/

/-- A delivery on a connection that takes `room` more bytes before it breaks, or all of them. -/
structure Sending where
  room : Option Nat
  delivery : Delivery
deriving DecidableEq, Repr

/-- The connection breaks in a write of the bytes. -/
def breaksIn (room : Option Nat) (bytes : Bytes) : Bool := room.any fun n => n < bytes.length

/-- What the connection takes of the bytes. -/
def taken (room : Option Nat) (bytes : Bytes) : Bytes := room.elim bytes fun n => bytes.take n

def roomAfter (room : Option Nat) (bytes : Bytes) : Option Nat := room.map fun n => n - bytes.length

namespace Sending

/-- The next completion. A write that breaks off completes with an error. -/
def step (cfg : TransferConfig) (mode : TransferMode) (s : Sending) : Option Sending :=
  let deliver := s.delivery.deliver
  match deliver.pending, s.delivery.reads with
  | some .asyncRead, (error, bytes) :: reads =>
    match mode with
    | .stream => some ⟨s.room, ⟨reads, StreamModeFileDeliver.handleRead error bytes deliver⟩⟩
    | .compressed compressor =>
      -- the header is written at once, if there is a chunk
      let header := if readSucceeded error bytes then
        chunkHeader cfg (compressor.compress bytes).length else []
      some ⟨roomAfter s.room header, ⟨reads,
        CompressedModeFileDeliver.handleRead cfg compressor error bytes
          (if breaksIn s.room header then s.room else none) deliver⟩⟩
  | some (.asyncWrite bytes), reads =>
    some ⟨roomAfter s.room bytes, ⟨reads, AbstractFileDeliver.handleWrite (breaksIn s.room bytes)
      { deliver with sent := deliver.sent ++ taken s.room bytes }⟩⟩
  | _, _ => none

/-- The deliverer of the file, before its first read completes. -/
def start (room : Option Nat) (chunks : List Bytes) (last : Bytes) : Sending :=
  ⟨room, ⟨fileReads chunks last, AbstractFileDeliver.new.start⟩⟩

variable {cfg : TransferConfig} {mode : TransferMode} {room : Option Nat}

/-- On a connection that does not break all writes complete. -/
theorem step_unbroken (s : Delivery) :
    step cfg mode ⟨none, s⟩ = (s.step cfg mode).map (Sending.mk none) := by
  obtain ⟨reads, doneFlag, pending, sent, cleanUps⟩ := s
  cases pending with
  | none => rfl
  | some operation =>
    cases operation with
    | asyncWrite bytes => rfl
    | asyncRead =>
      cases reads with
      | nil => rfl
      | cons first reads => cases mode <;> rfl

theorem taken_of_not_breaksIn {bytes : Bytes} (h : breaksIn room bytes = false) :
    taken room bytes = bytes := by
  cases room with
  | none => rfl
  | some n => exact List.take_of_length_le (by simpa [breaksIn] using h)

theorem taken_isPrefix (room : Option Nat) (bytes : Bytes) : taken room bytes <+: bytes := by
  cases room with
  | none => exact List.prefix_rfl
  | some n => exact List.take_prefix n bytes

/-- The deliverer stopped after it had sent a first part of the stream, and cleaned up once. -/
def Broken (stream : Bytes) (s : Sending) : Prop :=
  s.delivery.deliver.pending = none ∧ s.delivery.deliver.sent <+: stream ∧
    s.delivery.deliver.cleanUps = 1

theorem Broken.step_eq_none {stream : Bytes} {s : Sending} (h : Broken stream s) :
    step cfg mode s = none := by
  obtain ⟨room, reads, doneFlag, pending, sent, cleanUps⟩ := s
  obtain rfl : pending = none := h.1
  rfl

/-- A write in the middle of the file. -/
theorem reaches_write (bytes : Bytes) (reads : List (Option FileError × Bytes)) (sent : Bytes) :
    step cfg mode ⟨room, ⟨reads, ⟨false, some (.asyncWrite bytes), sent, 0⟩⟩⟩ =
        some ⟨roomAfter room bytes, ⟨reads, ⟨false, some .asyncRead, sent ++ bytes, 0⟩⟩⟩ ∨
      ∃ s, step cfg mode ⟨room, ⟨reads, ⟨false, some (.asyncWrite bytes), sent, 0⟩⟩⟩ = some s ∧
        Broken (sent ++ bytes) s := by
  cases hbreak : breaksIn room bytes with
  | false =>
    left
    simp [step, hbreak, taken_of_not_breaksIn hbreak, AbstractFileDeliver.handleWrite]
  | true =>
    refine .inr ⟨_, rfl, ?_, ?_, ?_⟩
    · simp [hbreak, AbstractFileDeliver.handleWrite, AbstractFileDeliver.cleanUpHandler]
    · simpa [hbreak, AbstractFileDeliver.handleWrite, AbstractFileDeliver.cleanUpHandler] using
        taken_isPrefix room bytes
    · simp [hbreak, AbstractFileDeliver.handleWrite, AbstractFileDeliver.cleanUpHandler]

/-- A write of the last bytes. -/
theorem reaches_lastWrite (bytes : Bytes) (reads : List (Option FileError × Bytes))
    (sent : Bytes) : ∃ s,
      step cfg mode ⟨room, ⟨reads, ⟨true, some (.asyncWrite bytes), sent, 0⟩⟩⟩ = some s ∧
        Broken (sent ++ bytes) s := by
  refine ⟨_, rfl, ?_, ?_, ?_⟩
  · cases hbreak : breaksIn room bytes <;>
      simp [AbstractFileDeliver.handleWrite, AbstractFileDeliver.cleanUpHandler]
  · cases hbreak : breaksIn room bytes <;>
      simpa [AbstractFileDeliver.handleWrite, AbstractFileDeliver.cleanUpHandler] using
        taken_isPrefix room bytes
  · cases hbreak : breaksIn room bytes <;>
      simp [AbstractFileDeliver.handleWrite, AbstractFileDeliver.cleanUpHandler]

theorem Broken.mono {stream stream' : Bytes} {s : Sending} (h : Broken stream s)
    (hle : stream <+: stream') : Broken stream' s :=
  ⟨h.1, h.2.1.trans hle, h.2.2⟩

/-- A read that brings bytes: the write of them is started, behind a header if they are
compressed. -/
theorem reaches_read {error : Option FileError} {bytes : Bytes}
    (hread : readSucceeded error bytes = true) (reads : List (Option FileError × Bytes))
    (sent : Bytes) : ∃ header payload, header ++ payload = mode.encode cfg bytes ∧
      ((∃ room', step cfg mode
          ⟨room, ⟨(error, bytes) :: reads, ⟨false, some .asyncRead, sent, 0⟩⟩⟩ =
            some ⟨room', ⟨reads, ⟨decide (error = some .eof), some (.asyncWrite payload),
              sent ++ header, 0⟩⟩⟩) ∨
        ∃ s, step cfg mode ⟨room, ⟨(error, bytes) :: reads, ⟨false, some .asyncRead, sent, 0⟩⟩⟩ =
            some s ∧ Broken (sent ++ header) s) := by
  cases mode with
  | stream =>
    refine ⟨[], bytes, rfl, .inl ⟨room, ?_⟩⟩
    simp [step, StreamModeFileDeliver.handleRead, hread]
  | compressed compressor =>
    let header := chunkHeader cfg (compressor.compress bytes).length
    refine ⟨header, compressor.compress bytes, rfl, ?_⟩
    cases hbreak : breaksIn room header with
    | false =>
      refine .inl ⟨roomAfter room header, ?_⟩
      simp [step, CompressedModeFileDeliver.handleRead, hread, hbreak, header]
    | true =>
      cases room with
      | none => cases hbreak
      | some n =>
        refine .inr ⟨_, rfl, ?_⟩
        simp only [hread, if_true, CompressedModeFileDeliver.handleRead]
        rw [if_pos hbreak]
        exact ⟨rfl, (List.prefix_append_right_inj _).mpr (List.take_prefix n _), rfl⟩

/-- A chunk is sent, or the connection breaks. -/
theorem reaches_chunk (bytes : Bytes) (reads : List (Option FileError × Bytes)) (sent : Bytes) :
    (∃ room', Reaches (step cfg mode)
      ⟨room, ⟨(none, bytes) :: reads, ⟨false, some .asyncRead, sent, 0⟩⟩⟩
      ⟨room', ⟨reads, ⟨false, some .asyncRead, sent ++ mode.encode cfg bytes, 0⟩⟩⟩) ∨
    ∃ s, Reaches (step cfg mode)
        ⟨room, ⟨(none, bytes) :: reads, ⟨false, some .asyncRead, sent, 0⟩⟩⟩ s ∧
      Broken (sent ++ mode.encode cfg bytes) s := by
  obtain ⟨header, payload, hencode, hread⟩ := @reaches_read cfg mode room none bytes rfl reads sent
  rw [← hencode, ← List.append_assoc]
  rcases hread with ⟨room', hread⟩ | ⟨s, hread, hbroken⟩
  · rcases @reaches_write cfg mode room' payload reads (sent ++ header)
      with hwrite | ⟨s, hwrite, hbroken⟩
    · exact .inl ⟨_, reaches_two hread hwrite⟩
    · exact .inr ⟨s, reaches_two hread hwrite, hbroken⟩
  · exact .inr ⟨s, .single hread, hbroken.mono (List.prefix_append _ _)⟩

/-- The end of the file, together with the last bytes or alone. -/
theorem reaches_last (last sent : Bytes) :
    ∃ s, Reaches (step cfg mode)
        ⟨room, ⟨[(some .eof, last)], ⟨false, some .asyncRead, sent, 0⟩⟩⟩ s ∧
      Broken (sent ++ (sentChunks [] last).flatMap (mode.encode cfg)) s := by
  by_cases hlast : last = []
  · subst hlast
    cases mode <;>
      exact ⟨_, .single rfl, rfl, show sent <+: sent ++ _ from List.prefix_append _ _, rfl⟩
  · have hpos : readSucceeded (some .eof) last = true := by
      simp [readSucceeded, List.length_pos_iff.mpr hlast]
    obtain ⟨header, payload, hencode, hread⟩ := @reaches_read cfg mode room _ _ hpos [] sent
    have hstream : (sentChunks [] last).flatMap (mode.encode cfg) = header ++ payload := by
      simp [sentChunks, hlast, hencode]
    rw [hstream, ← List.append_assoc]
    rcases hread with ⟨room', hread⟩ | ⟨s, hread, hbroken⟩
    · obtain ⟨s, hwrite, hbroken⟩ :=
        @reaches_lastWrite cfg mode room' payload [] (sent ++ header)
      exact ⟨s, reaches_two hread hwrite, hbroken⟩
    · exact ⟨s, .single hread, hbroken.mono (List.prefix_append _ _)⟩

/-- On a connection that breaks at any byte or not at all, a deliverer sends a first part of
the encodings of the chunks and cleans up once. -/
theorem runs (room : Option Nat) (chunks : List Bytes) (last : Bytes) :
    ∃ s ∈ eval (step cfg mode) (start room chunks last),
      Broken ((sentChunks chunks last).flatMap (mode.encode cfg)) s := by
  have hrun : ∀ (chunks : List Bytes) (room : Option Nat) (sent : Bytes),
      ∃ s, Reaches (step cfg mode)
          ⟨room, ⟨fileReads chunks last, ⟨false, some .asyncRead, sent, 0⟩⟩⟩ s ∧
        Broken (sent ++ (sentChunks chunks last).flatMap (mode.encode cfg)) s := by
    intro chunks
    induction chunks with
    | nil => exact fun room sent => reaches_last last sent
    | cons chunk chunks ih =>
      intro room sent
      have hstream : sent ++ (sentChunks (chunk :: chunks) last).flatMap (mode.encode cfg) =
          sent ++ mode.encode cfg chunk ++
            (sentChunks chunks last).flatMap (mode.encode cfg) := by
        rw [List.append_assoc]
        rfl
      rw [hstream]
      rcases @reaches_chunk cfg mode room chunk (fileReads chunks last) sent
        with ⟨room', hchunk⟩ | ⟨s, hchunk, hbroken⟩
      · obtain ⟨s, hrest, hbroken⟩ := ih room' (sent ++ mode.encode cfg chunk)
        exact ⟨s, hchunk.trans hrest, hbroken⟩
      · exact ⟨s, hchunk, hbroken.mono (List.prefix_append _ _)⟩
  obtain ⟨s, hs, hbroken⟩ := hrun chunks room []
  exact ⟨s, mem_eval.mpr ⟨hs, hbroken.step_eq_none⟩, hbroken⟩

/-- On a connection that does not break it sends all of them. -/
theorem runs_unbroken (chunks : List Bytes) (last : Bytes) :
    ∃ s ∈ eval (step cfg mode) (start none chunks last),
      s.delivery.deliver.sent = (sentChunks chunks last).flatMap (mode.encode cfg) := by
  obtain ⟨s, hs, hsent, -⟩ := @deliver_runs cfg mode chunks last
  obtain ⟨hreaches, hend⟩ := mem_eval.mp hs
  refine ⟨⟨none, s⟩, mem_eval.mpr ⟨?_, by rw [step_unbroken, hend]; rfl⟩, hsent⟩
  refine hreaches.lift (Sending.mk none) fun a b hstep => ?_
  exact (step_unbroken a).trans (congrArg (Option.map (Sending.mk none)) hstep)

end Sending

/-! ## Transfers -/

/-- The run of a receiver that is fed a stream. -/
def receives (cfg : TransferConfig) (mode : TransferMode) (fileSize : Nat)
    (socket : List Bytes) : Part AbstractFileReceiver :=
  eval (step cfg mode) ((AbstractFileReceiver.new fileSize socket).start cfg mode)

/-- The run of a deliverer that reads a file in chunks. -/
def delivers (cfg : TransferConfig) (mode : TransferMode) (room : Option Nat)
    (chunks : List Bytes) (last : Bytes) : Part Sending :=
  eval (Sending.step cfg mode) (Sending.start room chunks last)

/-- A way to read a file in chunks. -/
structure CutInto (content : Bytes) (chunks : List Bytes) (last : Bytes) : Prop where
  content_eq : chunks.flatten ++ last = content
  length_le : ∀ chunk ∈ chunks, chunk.length ≤ KB500
  last_length_le : last.length ≤ KB500

theorem CutInto.length_le_of_mem {content : Bytes} {chunks : List Bytes} {last : Bytes}
    (h : CutInto content chunks last) {chunk : Bytes} (hchunk : chunk ∈ sentChunks chunks last) :
    chunk.length ≤ KB500 := by
  rw [sentChunks, List.mem_append] at hchunk
  rcases hchunk with hchunk | hchunk
  · exact h.length_le chunk hchunk
  · split at hchunk
    · cases hchunk
    · rw [List.mem_singleton.mp hchunk]
      exact h.last_length_le

/-- A receiver that is fed, in fragments cut anywhere, a first part of what a deliverer of its
mode sends writes a first part of the content, and reports by its length. -/
theorem receiver_runs_of_cut {mode : TransferMode} (hmode : mode.Withstands cfg)
    {content : Bytes} {chunks : List Bytes} {last : Bytes} (hcut : CutInto content chunks last)
    (fileSize : Nat) {socket : List Bytes}
    (hsocket : socket.flatten <+: (sentChunks chunks last).flatMap (mode.encode cfg)) :
    ∃ r ∈ receives cfg mode fileSize socket, r.fileOnDisk <+: content ∧
      r.reports = [decide (r.fileOnDisk.length = fileSize)] := by
  have hrun : ∃ part, part <+: (sentChunks chunks last).flatten ∧
      ∃ r ∈ receives cfg mode fileSize socket,
        Received (AbstractFileReceiver.new fileSize socket) r part := by
    cases mode with
    | stream =>
      have hpart : socket.flatten <+: (sentChunks chunks last).flatten := by
        rwa [show (sentChunks chunks last).flatMap (TransferMode.stream.encode cfg) =
          (sentChunks chunks last).flatten from List.flatMap_id] at hsocket
      obtain ⟨r, hr, hdisk, hreports⟩ := stream_receiver_runs cfg
        (r := StreamModeFileReceiver.start cfg (AbstractFileReceiver.new fileSize socket)) rfl rfl
      exact ⟨_, hpart, r, hr, hdisk, hreports⟩
    | compressed compressor =>
      exact compressed_receiver_runs_of_cut hmode (fun _ hchunk => hcut.length_le_of_mem hchunk)
        hsocket
  obtain ⟨part, hpart, r, hr, hdisk, hreports⟩ := hrun
  rw [flatten_sentChunks, hcut.content_eq] at hpart
  obtain rfl : r.fileOnDisk = part := hdisk
  refine ⟨r, hr, hpart, ?_⟩
  simpa [AbstractFileReceiver.new] using hreports

/-- A first part of the content is all of it when it is as long. -/
theorem length_eq_iff_eq {part content : Bytes} (h : part <+: content) :
    part.length = content.length ↔ part = content :=
  ⟨h.eq_of_length, congrArg List.length⟩

/-- A file is sent by its owner in one mode and passed on in another, in chunks cut anywhere.
Each of the two connections may break at any byte that is written, and what was written may
break off at any byte before it arrives. Each deliverer cleans up once. The copy of the server
is reported as complete exactly when it is the file of the owner, and if it is passed on, the
requester is told of a success exactly when it has the file of the owner. -/
theorem forwarded {sent passed : TransferMode} (hsent : sent.Withstands cfg)
    (hpassed : passed.Withstands cfg) {content : Bytes} {chunks : List Bytes} {last : Bytes}
    (hcut : CutInto content chunks last) (room : Option Nat) :
    ∃ d ∈ delivers cfg sent room chunks last, d.delivery.deliver.cleanUps = 1 ∧
      ∀ socket : List Bytes, socket.flatten <+: d.delivery.deliver.sent →
      ∃ r ∈ receives cfg sent content.length socket,
        r.fileOnDisk <+: content ∧ r.reports = [decide (r.fileOnDisk = content)] ∧
        (r.reports = [true] → ∀ (chunks' : List Bytes) (last' : Bytes),
          CutInto r.fileOnDisk chunks' last' → ∀ room' : Option Nat,
          ∃ d' ∈ delivers cfg passed room' chunks' last', d'.delivery.deliver.cleanUps = 1 ∧
            ∀ socket' : List Bytes, socket'.flatten <+: d'.delivery.deliver.sent →
            ∃ r' ∈ receives cfg passed r.fileOnDisk.length socket',
              r'.fileOnDisk <+: content ∧ r'.reports = [decide (r'.fileOnDisk = content)]) := by
  obtain ⟨d, hd, -, hstream, hcleanUps⟩ := @Sending.runs cfg sent room chunks last
  refine ⟨d, hd, hcleanUps, fun socket hsocket => ?_⟩
  obtain ⟨r, hr, hdisk, hreports⟩ :=
    receiver_runs_of_cut hsent hcut content.length (hsocket.trans hstream)
  simp only [length_eq_iff_eq hdisk] at hreports
  refine ⟨r, hr, hdisk, hreports, fun hsuccess chunks' last' hcut' room' => ?_⟩
  have hcopy : r.fileOnDisk = content := by simpa [hreports] using hsuccess
  rw [hcopy] at hcut' ⊢
  obtain ⟨d', hd', -, hstream', hcleanUps'⟩ := @Sending.runs cfg passed room' chunks' last'
  refine ⟨d', hd', hcleanUps', fun socket' hsocket' => ?_⟩
  obtain ⟨r', hr', hdisk', hreports'⟩ :=
    receiver_runs_of_cut hpassed hcut' content.length (hsocket'.trans hstream')
  simp only [length_eq_iff_eq hdisk'] at hreports'
  exact ⟨r', hr', hdisk', hreports'⟩

theorem storing_withstands : storing.Withstands sampleTransferConfig where
  suits := storing_suits
  cut chunk part out _ hpart hout := by
    cases part with
    | nil => cases hout
    | cons b part =>
      obtain ⟨rfl, hrest⟩ := List.cons_prefix_cons.mp hpart
      obtain rfl := Option.some.inj hout
      exact hrest

/-- Three bytes arrive whole and are passed on compressed, on a connection that breaks in the
header of their chunk. -/
theorem forwarded_three_bytes :
    ∃ r ∈ receives sampleTransferConfig .stream 3 [[1], [2, 3]],
      r.fileOnDisk = [1, 2, 3] ∧
      ∃ d' ∈ delivers sampleTransferConfig (.compressed storing) (some 2) [] [1, 2, 3],
        d'.delivery.deliver.cleanUps = 1 ∧
        ∀ socket' : List Bytes, socket'.flatten <+: d'.delivery.deliver.sent →
          ∃ r' ∈ receives sampleTransferConfig (.compressed storing) 3 socket',
            r'.fileOnDisk <+: [1, 2, 3] ∧ r'.reports = [decide (r'.fileOnDisk = [1, 2, 3])] := by
  have hcut : CutInto [1, 2, 3] [[1, 2]] [3] := ⟨rfl, by decide, by decide⟩
  obtain ⟨d, hd, -, hreceive⟩ := @forwarded sampleTransferConfig .stream (.compressed storing)
    trivial storing_withstands _ _ _ hcut none
  obtain ⟨s, hs, hstream⟩ := @Sending.runs_unbroken sampleTransferConfig .stream [[1, 2]] [3]
  obtain rfl : s = d := Part.mem_unique hs hd
  have hsent : s.delivery.deliver.sent = [1, 2, 3] := hstream
  obtain ⟨r, hr, -, hreports, hpassed⟩ :=
    hreceive [[1], [2, 3]] (by rw [hsent]; exact List.prefix_rfl)
  obtain ⟨r₀, hr₀, hdisk, -⟩ := @receiver_runs sampleTransferConfig .stream trivial
    [[1, 2], [3]] (by decide) 3 [[1], [2, 3]] rfl
  obtain rfl : r₀ = r := Part.mem_unique hr₀ hr
  have hcopy : r₀.fileOnDisk = [1, 2, 3] := hdisk
  have hpass := hpassed (by rw [hreports, hcopy]; rfl) [] [1, 2, 3]
    (by rw [hcopy]; exact ⟨rfl, by decide, by decide⟩) (some 2)
  rw [hcopy] at hpass
  exact ⟨r₀, hr, hcopy, hpass⟩

end FspServer
