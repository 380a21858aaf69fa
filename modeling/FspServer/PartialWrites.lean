import FspServer.Wire
import Mathlib.Algebra.GroupWithZero.Nat

/-!
# Partial writes

`async_shared_write` and the two `async_write` hand everything behind an offset to
`async_send`. The completion handler adds what was transferred to the offset it
captured and calls the function again, until the whole buffer is out. After an error
it stops the connection; when the weak pointer to the connection has expired it does
nothing.

`BufferWrite` is the write of one buffer, in whatever way its sends complete.

* `BufferWrite.UnderWay.complete`: what one completion does.
* `partial_writes_resumed_iff`: the sends go on where the bytes before them ended, up to the
  whole buffer or an error, and a shared write is reported done when the buffer is out, exactly
  when no byte of a short string is sent and the last bytes of a shared buffer are reported to
  a connection that is there.
* `exec_socket_of_writes`: among the messages of a connection, such a write is the
  events of `Socket`.
-/

namespace FspServer

open Runs

/-- What a completion handler finds. -/
structure Completion where
  /-- `SelfWeak.expired()`. -/
  expired : Bool
  /-- `BytesTransferred`; `none` when `ec` is set. -/
  transferred : Option Nat
deriving DecidableEq, Repr

/-- The part of a buffer that is handed to `async_send`. -/
structure SendRange where
  offset : Nat
  size : Nat
deriving DecidableEq, Repr

structure BufferWrite where
  /-- The send under way, with what its handler captured. -/
  pending : Option (SendRange × Send) := none
  /-- The ids given to `notify_shared_write_done`. -/
  sharedWriteDone : List Nat := []
  stopped : Bool := false
  /-- An assertion failed. -/
  aborted : Bool := false
  /-- History: the ranges handed to `async_send`. -/
  ranges : List SendRange := []
  /-- History: the bytes of them that were transferred. -/
  parts : List (List UInt8) := []
deriving DecidableEq, Repr

/-- The length of a string of static storage, without its zero byte. -/
def strlen (text : List UInt8) : Nat := (text.takeWhile fun b => b ≠ 0).length

namespace BufferWrite

/-- The functions differ in the size of what they write and in what their handlers
capture. -/
def asyncSend (size : Nat) (captured : Send) (w : BufferWrite) : BufferWrite :=
  if captured.offset < size then
    let range := ⟨captured.offset, size - captured.offset⟩
    { w with pending := some (range, captured), ranges := w.ranges ++ [range] }
  else { w with aborted := true }

def asyncSharedWrite (bufferView : List UInt8) (bufferID offset : Nat) :
    BufferWrite → BufferWrite :=
  asyncSend bufferView.length ⟨.shared bufferView bufferID, offset⟩

/-- The string moves into the handler. -/
def asyncWrite (buffer : List UInt8) (offset : Nat) : BufferWrite → BufferWrite :=
  asyncSend buffer.length ⟨.string buffer, offset⟩

def asyncWriteStatic (text : List UInt8) (offset : Nat) : BufferWrite → BufferWrite :=
  asyncSend (strlen text) ⟨.static text, offset⟩

/-- The handlers differ in the size they compare with, the function they call again, and
what they do at the end. -/
def handler (size offset : Nat) (again : Nat → BufferWrite → BufferWrite)
    (finish : BufferWrite → BufferWrite) (c : Completion) (w : BufferWrite) : BufferWrite :=
  if c.expired then w
  else match c.transferred with
    | some bytesTransferred =>
      let offset := offset + bytesTransferred
      if offset ≠ size then again offset w else finish w
    | none => { w with stopped := true }

def sharedWriteHandler (bufferView : List UInt8) (bufferID offset : Nat) :
    Completion → BufferWrite → BufferWrite :=
  handler bufferView.length offset (asyncSharedWrite bufferView bufferID) fun w =>
    { w with sharedWriteDone := bufferID :: w.sharedWriteDone }

def writeHandler (buffer : List UInt8) (offset : Nat) : Completion → BufferWrite → BufferWrite :=
  handler buffer.length offset (asyncWrite buffer) id

def writeStaticHandler (text : List UInt8) (offset : Nat) :
    Completion → BufferWrite → BufferWrite :=
  handler (strlen text) offset (asyncWriteStatic text) id

/-- The handler that captured this. -/
def onSent : Send → Completion → BufferWrite → BufferWrite
  | ⟨.shared bufferView bufferID, offset⟩ => sharedWriteHandler bufferView bufferID offset
  | ⟨.string buffer, offset⟩ => writeHandler buffer offset
  | ⟨.static text, offset⟩ => writeStaticHandler text offset

/-- `start_shared_write` and the two `start_write`. -/
def start : Buffer → BufferWrite
  | .shared bufferView bufferID => asyncSharedWrite bufferView bufferID 0 {}
  | .string buffer => asyncWrite buffer 0 {}
  | .static text => asyncWriteStatic text 0 {}

/-- The send under way fails, or transfers at least one byte of its range and at most
all of them. Then its handler runs. The `k`-th send of a short string finds `found k` where
the characters were. -/
def complete (found : Nat → Nat → UInt8) (w : BufferWrite) (c : Completion) :
    Option BufferWrite :=
  w.pending.bind fun (range, captured) =>
    match c.transferred with
    | none => some (onSent captured c { w with pending := none })
    | some bytesTransferred =>
      if 0 < bytesTransferred ∧ bytesTransferred ≤ range.size then
        let part := { captured with offset := range.offset }.read bytesTransferred
          (found w.parts.length)
        some (onSent captured c { w with pending := none, parts := w.parts ++ [part] })
      else none

end BufferWrite

/-- The id to notify about. -/
def Buffer.bufferIDs : Buffer → List Nat
  | .shared _ bufferID => [bufferID]
  | _ => []

/-- The handler is run for a connection that is there, after a send that went well. -/
def Completion.Fine (c : Completion) : Prop := c.expired = false ∧ c.transferred ≠ none

/-- The number of bytes that the sends transferred. -/
def transferred (completions : List Completion) : Nat :=
  (completions.map fun c => c.transferred.getD 0).sum

theorem transferred_concat (completions : List Completion) (c : Completion) :
    transferred (completions ++ [c]) = transferred completions + c.transferred.getD 0 := by
  simp [transferred]

namespace BufferWrite

/-! ## The three copies are one function of the buffer -/

theorem start_eq (buffer : Buffer) :
    start buffer = asyncSend buffer.bytes.length ⟨buffer, 0⟩ {} := by
  cases buffer with
  | shared bufferView bufferID => rfl
  | string buffer => rfl
  | static text => rfl

theorem onSent_eq (s : Send) : onSent s = handler s.buffer.bytes.length s.offset
    (fun offset => asyncSend s.buffer.bytes.length ⟨s.buffer, offset⟩)
    (fun w => { w with sharedWriteDone := s.buffer.bufferIDs ++ w.sharedWriteDone }) := by
  obtain ⟨buffer, offset⟩ := s
  cases buffer with
  | shared bufferView bufferID => rfl
  | string buffer => rfl
  | static text => rfl

theorem asyncSend_of_lt {size : Nat} {s : Send} (h : s.offset < size) (w : BufferWrite) :
    asyncSend size s w = { w with
      pending := some (⟨s.offset, size - s.offset⟩, s)
      ranges := w.ranges ++ [⟨s.offset, size - s.offset⟩] } :=
  if_pos h

/-! ## One completion -/

/-- The bytes that were transferred. -/
def sent (w : BufferWrite) : List UInt8 := w.parts.flatten

/-- What holds throughout: the ranges start where the parts before them end, and each of
them has the whole rest; each send that went well has a part of the buffer, or what was found
where a short string had been. -/
structure Exact (found : Nat → Nat → UInt8) (buffer : Buffer) (completions : List Completion)
    (w : BufferWrite) : Prop where
  aborted : w.aborted = false
  nonempty : ∀ part ∈ w.parts, part ≠ []
  count : w.parts.length = completions.countP fun c => c.transferred.isSome
  total : w.sent.length = transferred completions
  fits : w.sent.length ≤ buffer.bytes.length
  sent : buffer.inObject = false → w.sent <+: buffer.bytes
  moved : buffer.inObject = true → ∀ b ∈ w.sent.head?, b = found 0 0
  consecutive : ∀ i range, w.ranges[i]? = some range →
    range.offset = (w.parts.take i).flatten.length ∧
      range.offset + range.size = buffer.bytes.length

/-- The write is not at its end: every send so far went well, and the rest is being
sent. -/
structure UnderWay (found : Nat → Nat → UInt8) (buffer : Buffer) (completions : List Completion)
    (w : BufferWrite) : Prop extends Exact found buffer completions w where
  fine : ∀ c ∈ completions, c.Fine
  rest : w.sent.length < buffer.bytes.length
  pending : w.pending =
    some (⟨w.sent.length, buffer.bytes.length - w.sent.length⟩, ⟨buffer, w.sent.length⟩)
  quiet : w.sharedWriteDone = []
  ranges : w.ranges.length = completions.length + 1

/-- The write has ended with its last completion: an error, an expired pointer, or the
end of the buffer. -/
structure Ended (found : Nat → Nat → UInt8) (buffer : Buffer) (completions : List Completion)
    (w : BufferWrite) : Prop extends Exact found buffer completions w where
  fine : ∀ c ∈ completions.dropLast, c.Fine
  whole : (∀ c ∈ completions, c.Fine) → w.sent.length = buffer.bytes.length
  pending : w.pending = none
  notified : w.sharedWriteDone =
    if w.sent.length = buffer.bytes.length ∧ ∀ c ∈ completions, c.expired = false then
      buffer.bufferIDs else []
  ranges : w.ranges.length = completions.length

variable {found : Nat → Nat → UInt8} {buffer : Buffer} {completions : List Completion}
  {w w' : BufferWrite} {c : Completion}

theorem underWay_start (h : buffer.bytes ≠ []) : UnderWay found buffer [] (start buffer) := by
  have hlt : 0 < buffer.bytes.length := List.length_pos_iff.mpr h
  rw [start_eq, asyncSend_of_lt hlt]
  refine ⟨⟨rfl, fun _ hp => absurd hp List.not_mem_nil, rfl, rfl, Nat.zero_le _,
    fun _ => List.nil_prefix, fun _ b hb => ?_, fun i range hi => ?_⟩,
    fun c hc => absurd hc List.not_mem_nil, hlt, rfl, rfl, rfl⟩
  · cases hb
  · cases i with
    | zero =>
      obtain rfl := Option.some.inj hi
      exact ⟨rfl, Nat.zero_add _⟩
    | succ i => cases hi

theorem UnderWay.length_parts (h : w.UnderWay found buffer completions) :
    w.parts.length = completions.length := by
  rw [h.count, List.countP_eq_length]
  exact fun c hc => Option.isSome_iff_ne_none.mpr (h.fine c hc).2

/-- The write with the next bytes transferred. -/
def push (found : Nat → Nat → UInt8) (count : Nat) (buffer : Buffer) (w : BufferWrite) :
    BufferWrite :=
  { w with
    pending := none
    parts := w.parts ++
      [Send.read ⟨buffer, w.sent.length⟩ count (found w.parts.length)] }

theorem sent_push (count : Nat) : (w.push found count buffer).sent =
    w.sent ++ Send.read ⟨buffer, w.sent.length⟩ count (found w.parts.length) := by
  simp [sent, push]

theorem length_rest : (Send.rest ⟨buffer, w.sent.length⟩).length =
    buffer.bytes.length - w.sent.length := List.length_drop

theorem length_sent_push {count : Nat} (hle : w.sent.length + count ≤ buffer.bytes.length) :
    (w.push found count buffer).sent.length = w.sent.length + count := by
  rw [sent_push, List.length_append, Send.length_read]
  rw [length_rest]
  omega

/-- A prefix with the bytes behind it is a longer prefix. -/
theorem prefix_push (h : w.sent <+: buffer.bytes) (hfixed : buffer.inObject = false)
    (count : Nat) : (w.push found count buffer).sent <+: buffer.bytes := by
  have hsent : (w.push found count buffer).sent = buffer.bytes.take (w.sent.length + count) := by
    rw [sent_push, Send.read_of_not_inObject hfixed]
    calc w.sent ++ (buffer.bytes.drop w.sent.length).take count
        = buffer.bytes.take w.sent.length ++ (buffer.bytes.drop w.sent.length).take count := by
          rw [← List.prefix_iff_eq_take.mp h]
      _ = buffer.bytes.take (w.sent.length + count) := List.take_add.symm
  rw [hsent]
  exact List.take_prefix _ _

/-- The first byte of a short string is what was found in its place. -/
theorem head_push (h : ∀ b ∈ w.sent.head?, b = found 0 0) (hnonempty : ∀ p ∈ w.parts, p ≠ [])
    (hmoved : buffer.inObject = true) {count : Nat} (hpos : 0 < count) :
    ∀ b ∈ (w.push found count buffer).sent.head?, b = found 0 0 := by
  obtain ⟨n, rfl⟩ := Nat.exists_eq_succ_of_ne_zero hpos.ne'
  intro b hb
  rw [sent_push, List.head?_append] at hb
  cases hparts : w.parts with
  | nil =>
    have hsent : w.sent = [] := by rw [sent, hparts, List.flatten_nil]
    have hread : (Send.read ⟨buffer, w.sent.length⟩ (n + 1) (found w.parts.length)).head? =
        some (found 0 0) := by
      rw [Send.read, if_pos hmoved, hparts, hsent, List.range_succ_eq_map]
      rfl
    rw [hread, hsent] at hb
    exact (Option.some.inj hb).symm
  | cons part parts =>
    have hpart : part ≠ [] := hnonempty part (by rw [hparts]; exact List.mem_cons_self)
    obtain ⟨a, rest, rfl⟩ := List.exists_cons_of_ne_nil hpart
    have hsent : w.sent.head? = some a := by
      rw [sent, hparts]
      rfl
    rw [hsent] at hb
    exact h b (hsent.trans hb)

theorem UnderWay.push (h : w.UnderWay found buffer completions) {count : Nat} (hpos : 0 < count)
    (hc : c.transferred = some count) (hle : w.sent.length + count ≤ buffer.bytes.length) :
    (w.push found count buffer).Exact found buffer (completions ++ [c]) := by
  have hparts := h.length_parts
  have hlength : (w.push found count buffer).sent.length = w.sent.length + count :=
    length_sent_push hle
  refine ⟨h.aborted, fun part hpart => ?_, ?_, ?_, hlength.trans_le hle,
    fun hfixed => prefix_push (h.sent hfixed) hfixed count,
    fun hmoved => head_push (h.moved hmoved) h.nonempty hmoved hpos, fun i range hi => ?_⟩
  · rcases List.mem_append.mp hpart with hpart | hpart
    · exact h.nonempty part hpart
    · rw [List.mem_singleton.mp hpart]
      refine List.ne_nil_of_length_pos ?_
      rw [Send.length_read (by rw [length_rest]; omega)]
      exact hpos
  · rw [List.countP_append, ← h.count, BufferWrite.push, List.length_append]
    simp [hc]
  · rw [hlength, h.total, transferred_concat, hc]
    rfl
  · have hlt : i < w.ranges.length := (List.getElem?_eq_some_iff.mp hi).1
    have hranges := h.ranges
    have htake : (w.push found count buffer).parts.take i = w.parts.take i :=
      List.take_append_of_le_length (by omega)
    rw [htake]
    exact h.consecutive i range hi

/-- The handler of a send that went well asks for the rest, from where the bytes that
are out end. -/
theorem Exact.again (h : w.Exact found buffer completions)
    (hparts : w.ranges.length = w.parts.length) (hrest : w.sent.length < buffer.bytes.length) :
    (asyncSend buffer.bytes.length ⟨buffer, w.sent.length⟩ w).Exact found buffer completions := by
  rw [asyncSend_of_lt hrest]
  refine ⟨h.aborted, h.nonempty, h.count, h.total, h.fits, h.sent, h.moved, fun i range hi => ?_⟩
  rcases Nat.lt_or_ge i w.ranges.length with hlt | hge
  · rw [List.getElem?_append_left hlt] at hi
    exact h.consecutive i range hi
  · rw [List.getElem?_append_right hge] at hi
    have hi' : i - w.ranges.length = 0 := by
      have hone := (List.getElem?_eq_some_iff.mp hi).1
      rw [List.length_singleton] at hone
      omega
    rw [hi'] at hi
    obtain rfl := Option.some.inj hi
    refine ⟨?_, Nat.add_sub_cancel' hrest.le⟩
    show w.sent.length = (w.parts.take i).flatten.length
    rw [List.take_of_length_le (by omega), BufferWrite.sent]

/-- What a completion does to a write under way: it fails, or some bytes are out. Then the
connection is gone, or there is a rest to send, or the buffer is out. -/
theorem UnderWay.complete_cases (h : w.UnderWay found buffer completions)
    (hs : w.complete found c = some w') :
    (c.transferred = none ∧ ∃ stopped, w' = { w with pending := none, stopped }) ∨
      ∃ count, c.transferred = some count ∧ 0 < count ∧
        w.sent.length + count ≤ buffer.bytes.length ∧
        (c.expired = true ∧ w' = w.push found count buffer ∨
          c.expired = false ∧ w.sent.length + count < buffer.bytes.length ∧
            w' = asyncSend buffer.bytes.length ⟨buffer, w.sent.length + count⟩
              (w.push found count buffer) ∨
          c.expired = false ∧ w.sent.length + count = buffer.bytes.length ∧
            w' = { w.push found count buffer with sharedWriteDone := buffer.bufferIDs }) := by
  rw [BufferWrite.complete, h.pending, Option.bind_some] at hs
  cases hc : c.transferred with
  | none =>
    rw [hc] at hs
    obtain rfl := Option.some.inj hs
    refine Or.inl ⟨rfl, ?_⟩
    rw [onSent_eq, handler, hc]
    split
    · exact ⟨w.stopped, rfl⟩
    · exact ⟨true, rfl⟩
  | some count =>
    rw [hc] at hs
    obtain ⟨⟨hpos, hcount⟩, hs⟩ := Option.ite_none_right_eq_some.mp hs
    obtain rfl := Option.some.inj hs
    have hle : w.sent.length + count ≤ buffer.bytes.length := by
      have hrest := h.rest
      dsimp only at hcount
      omega
    refine Or.inr ⟨count, rfl, hpos, hle, ?_⟩
    rw [onSent_eq, handler, hc]
    cases hexpired : c.expired with
    | true => exact Or.inl ⟨rfl, rfl⟩
    | false =>
      refine Or.inr ?_
      rcases Nat.lt_or_eq_of_le hle with hlt | hwhole
      · refine Or.inl ⟨rfl, hlt, ?_⟩
        exact if_pos hlt.ne
      · refine Or.inr ⟨rfl, hwhole, ?_⟩
        refine (if_neg (not_not.mpr hwhole)).trans ?_
        rw [h.quiet, List.append_nil]
        rfl

/-- One completion. -/
theorem UnderWay.complete (h : w.UnderWay found buffer completions)
    (hs : w.complete found c = some w') :
    w'.UnderWay found buffer (completions ++ [c]) ∨
      w'.Ended found buffer (completions ++ [c]) := by
  have hranges : w.ranges.length = (completions ++ [c]).length := by
    rw [h.ranges, List.length_append, List.length_singleton]
  have hdrop : ∀ d ∈ (completions ++ [c]).dropLast, d.Fine := by
    rw [List.dropLast_concat]
    exact h.fine
  rcases h.complete_cases hs with ⟨hc, stopped, rfl⟩ | ⟨count, hc, hpos, hle, hcases⟩
  · refine Or.inr ⟨⟨h.aborted, h.nonempty, ?_, ?_, h.fits, h.sent, h.moved, h.consecutive⟩, hdrop,
      fun hfine => ?_, rfl, ?_, hranges⟩
    · rw [List.countP_append, ← h.count]
      simp [hc]
    · rw [transferred_concat, hc]
      exact h.total
    · exact absurd hc (hfine c List.mem_concat_self).2
    · exact h.quiet.trans (if_neg fun hwhole => h.rest.ne hwhole.1).symm
  · have hpush := h.push hpos hc hle
    have hlen : (w.push found count buffer).sent.length = w.sent.length + count :=
      length_sent_push hle
    have hfine : c.expired = false → ∀ d ∈ completions ++ [c], d.Fine := by
      intro hexpired d hd
      rcases List.mem_append.mp hd with hd | hd
      · exact h.fine d hd
      · rw [List.mem_singleton.mp hd]
        exact ⟨hexpired, hc ▸ Option.some_ne_none count⟩
    rcases hcases with ⟨hexpired, rfl⟩ | ⟨hexpired, hlt, rfl⟩ | ⟨hexpired, hwhole, rfl⟩
    · refine Or.inr ⟨hpush, hdrop, fun hfine => ?_, rfl, ?_, hranges⟩
      · cases hexpired.symm.trans (hfine c List.mem_concat_self).1
      · refine h.quiet.trans (if_neg fun halive => ?_).symm
        cases hexpired.symm.trans (halive.2 c List.mem_concat_self)
    · have hparts : (w.push found count buffer).parts.length = (completions ++ [c]).length := by
        rw [BufferWrite.push, List.length_append, List.length_append, h.length_parts]
        rfl
      have hagain := hpush.again (hranges.trans hparts.symm) (hlen ▸ hlt)
      rw [← hlen] at hlt ⊢
      rw [asyncSend_of_lt hlt] at hagain ⊢
      refine Or.inl ⟨hagain, hfine hexpired, hlt, rfl, h.quiet, ?_⟩
      rw [List.length_append, List.length_singleton]
      exact congrArg (· + 1) hranges
    · have hall := hlen.trans hwhole
      exact Or.inr ⟨⟨hpush.aborted, hpush.nonempty, hpush.count, hpush.total, hpush.fits,
        hpush.sent, hpush.moved, hpush.consecutive⟩, hdrop, fun _ => hall, rfl,
        (if_pos ⟨hall, fun d hd => (hfine hexpired d hd).1⟩).symm, hranges⟩

theorem Ended.complete (h : w.Ended found buffer completions) (c : Completion) :
    w.complete found c = none := by
  rw [BufferWrite.complete, h.pending, Option.bind_none]

/-! ## All completions -/

theorem underWay_or_ended (hbuffer : buffer.bytes ≠ [])
    (h : exec (complete found) (start buffer) completions = some w) :
    w.UnderWay found buffer completions ∨ w.Ended found buffer completions := by
  induction completions using List.reverseRecOn generalizing w with
  | nil =>
    obtain rfl := Option.some.inj h
    exact Or.inl (underWay_start hbuffer)
  | append_singleton completions c ih =>
    rw [exec_append] at h
    obtain ⟨m, hm, hc⟩ := Option.bind_eq_some_iff.mp h
    obtain ⟨w', hw', hend⟩ := Option.bind_eq_some_iff.mp hc
    obtain rfl := Option.some.inj hend
    rcases ih hm with hunder | hended
    · exact hunder.complete hw'
    · cases (hended.complete c).symm.trans hw'

/-- The same write, but for the bytes that were transferred. -/
def Alike (w w' : BufferWrite) : Prop := { w' with parts := w.parts } = w

theorem Alike.onSent (h : w.Alike w') (s : Send) (c : Completion) :
    (onSent s c w).Alike (onSent s c w') := by
  rw [Alike] at h
  rw [← h, onSent_eq, handler, handler]
  split
  · rfl
  · cases c.transferred with
    | none => rfl
    | some count =>
      dsimp only
      split
      · unfold asyncSend
        split <;> rfl
      · rfl

/-- What is found where a short string was does not decide which sends follow. -/
theorem Alike.complete {g : Nat → Nat → UInt8} {v : BufferWrite} (h : w.Alike w')
    (hs : w.complete found c = some v) : ∃ v', w'.complete g c = some v' ∧ v.Alike v' := by
  have hpending : w'.pending = w.pending := by rw [← h]
  have alike : ∀ parts parts', Alike { w with pending := none, parts }
      { w' with pending := none, parts := parts' } := by
    intro parts parts'
    rw [Alike, ← h]
  obtain ⟨⟨range, captured⟩, hcaptured, hs⟩ := Option.bind_eq_some_iff.mp hs
  rw [BufferWrite.complete, hpending, hcaptured, Option.bind_some]
  cases hc : c.transferred with
  | none =>
    rw [hc] at hs
    obtain rfl := Option.some.inj hs
    exact ⟨_, rfl, (alike w.parts w'.parts).onSent captured c⟩
  | some count =>
    rw [hc] at hs
    obtain ⟨hcount, hs⟩ := Option.ite_none_right_eq_some.mp hs
    obtain rfl := Option.some.inj hs
    exact ⟨_, if_pos hcount, (alike _ _).onSent captured c⟩

theorem Alike.exec {g : Nat → Nat → UInt8} {v : BufferWrite} (h : w.Alike w')
    (hs : exec (BufferWrite.complete found) w completions = some v) :
    ∃ v', exec (BufferWrite.complete g) w' completions = some v' := by
  induction completions generalizing w w' with
  | nil => exact ⟨w', rfl⟩
  | cons c completions ih =>
    obtain ⟨u, hu, hrest⟩ := Option.bind_eq_some_iff.mp hs
    obtain ⟨u', hu', halike⟩ := h.complete (g := g) hu
    obtain ⟨v', hv'⟩ := ih halike hrest
    exact ⟨v', Option.bind_eq_some_iff.mpr ⟨u', hu', hv'⟩⟩

/-- A part was transferred for each send that went well. -/
theorem Exact.sent_ne_nil (h : w.Exact found buffer completions) (hc : c ∈ completions)
    (hsome : c.transferred ≠ none) : w.sent ≠ [] := by
  have hpos : 0 < w.parts.length := by
    rw [h.count, List.countP_pos_iff]
    exact ⟨c, hc, Option.isSome_iff_ne_none.mpr hsome⟩
  obtain ⟨part, hpart⟩ := List.exists_mem_of_length_pos hpos
  intro hnil
  exact h.nonempty part hpart (List.flatten_eq_nil_iff.mp hnil part hpart)

/-- Without such a send there is no byte. -/
theorem Exact.sent_eq_nil (h : w.Exact found buffer completions)
    (hnone : ∀ c ∈ completions, c.transferred = none) : w.sent = [] := by
  have hcount : w.parts.length = 0 := by
    rw [h.count, List.countP_eq_zero]
    exact fun c hc => by simp [hnone c hc]
  rw [BufferWrite.sent, List.length_eq_zero_iff.mp hcount, List.flatten_nil]

/-! ## Among the messages of a connection -/

/-- A connection on which only this write was started. -/
def toSocket (buffer : Buffer) (w : BufferWrite) : Socket where
  wire := w.sent
  outstanding := (w.pending.map (·.2)).toList
  sharedWriteDone := w.sharedWriteDone
  started := [buffer]

/-- A send that went well is two events there: bytes are transferred, the handler runs. -/
theorem UnderWay.exec_socket (h : w.UnderWay found buffer completions) (count : Nat) :
    exec Socket.step (w.toSocket buffer)
        [.transfer count (found completions.length), .complete 0] =
      (w.complete found ⟨false, some count⟩).map (toSocket buffer) := by
  have hout : (w.toSocket buffer).outstanding = [⟨buffer, w.sent.length⟩] := by
    rw [toSocket, h.pending]
    rfl
  rw [← h.length_parts, exec, Socket.step, Socket.transfer, hout, BufferWrite.complete, h.pending,
    Option.bind_some]
  dsimp only
  rw [length_rest]
  split
  · next hcount =>
    have hle : w.sent.length + count ≤ buffer.bytes.length := by
      have hrest := h.rest
      omega
    rw [Option.bind_some, exec, Socket.step, Socket.complete, onSent_eq, handler]
    rw [sent] at hle
    rcases Nat.lt_or_eq_of_le hle with hlt | hwhole
    · simp [-List.length_flatten, toSocket, sent, exec, Socket.asyncWrite, asyncSend, hlt, hlt.ne]
    · cases buffer <;> simp [-List.length_flatten, toSocket, sent, exec, Buffer.bufferIDs, hwhole]
  · rfl

theorem Ended.step_socket (h : w.Ended found buffer completions) (count : Nat)
    (read : Nat → UInt8) : Socket.step (w.toSocket buffer) (.transfer count read) = none := by
  show Socket.transfer count read (w.toSocket buffer) = none
  rw [Socket.transfer, toSocket, h.pending]
  rfl

/-- The events of a write whose sends transfer these numbers of bytes. -/
def events (found : Nat → Nat → UInt8) : Nat → List Nat → List Socket.Event
  | _, [] => []
  | k, count :: counts => .transfer count (found k) :: .complete 0 :: events found (k + 1) counts

theorem exec_socket
    (h : w.UnderWay found buffer completions ∨ w.Ended found buffer completions)
    (counts : List Nat) :
    exec Socket.step (w.toSocket buffer) (events found completions.length counts) =
      (exec (complete found) w (counts.map fun count => ⟨false, some count⟩)).map
        (toSocket buffer) := by
  induction counts generalizing completions w with
  | nil => rfl
  | cons count counts ih =>
    have hone : exec Socket.step (w.toSocket buffer)
        [.transfer count (found completions.length), .complete 0] =
          (w.complete found ⟨false, some count⟩).map (toSocket buffer) := by
      rcases h with hunder | hended
      · exact hunder.exec_socket count
      · rw [hended.complete, exec, hended.step_socket]
        rfl
    have hevents : events found completions.length (count :: counts) =
        [.transfer count (found completions.length), .complete 0] ++
          events found (completions.length + 1) counts := rfl
    rw [hevents, exec_append, hone, List.map_cons, exec]
    cases hw : w.complete found ⟨false, some count⟩ with
    | none => rfl
    | some w' =>
      rcases h with hunder | hended
      · have hnext := ih (hunder.complete hw)
        rw [List.length_append, List.length_singleton] at hnext
        exact hnext
      · cases (hended.complete _).symm.trans hw

theorem start_socket (hbuffer : buffer.bytes ≠ []) :
    Socket.start buffer {} = some ((start buffer).toSocket buffer) := by
  have hlt : 0 < buffer.bytes.length := List.length_pos_iff.mpr hbuffer
  rw [start_eq, asyncSend_of_lt hlt]
  exact if_pos hlt

/-- The write is resumed exactly: no assertion fails. The ranges handed to `async_send` start
where the bytes before them end and go up to the end of the buffer; these bytes, one after the
other, are a prefix of it. While all goes well the rest is being sent until it is out. After an
error or an expired pointer nothing is sent. A shared write is reported done once when the whole
buffer is out, and else never. -/
structure Resumed (buffer : Buffer) (completions : List Completion) (w : BufferWrite) : Prop where
  aborted : w.aborted = false
  consecutive : ∀ i range, w.ranges[i]? = some range →
    range.offset = (w.parts.take i).flatten.length ∧
      range.offset + range.size = buffer.bytes.length
  sent : w.sent <+: buffer.bytes
  going : (∀ c ∈ completions, c.Fine) → w.sent ≠ buffer.bytes → ∃ captured,
    w.pending = some (⟨w.sent.length, buffer.bytes.length - w.sent.length⟩, captured)
  stopped : ∀ before c after, completions = before ++ c :: after → ¬ c.Fine →
    after = [] ∧ w.pending = none ∧ w.ranges.length = before.length + 1
  notified : w.sharedWriteDone = if w.sent = buffer.bytes then buffer.bufferIDs else []

/-- No byte of a short string is sent, and the last bytes of a shared buffer are reported to a
connection that is there. -/
def ResumesExactly (buffer : Buffer) (completions : List Completion) : Prop :=
  (buffer.inObject = true → ∀ c ∈ completions, c.transferred = none) ∧
    (buffer.bufferIDs ≠ [] → transferred completions = buffer.bytes.length →
      ∀ c ∈ completions, c.expired = false)

/-- The bytes are in the order of the buffer. -/
theorem Exact.sent_isPrefix (h : w.Exact found buffer completions)
    (hfixed : buffer.inObject = true → ∀ c ∈ completions, c.transferred = none) :
    w.sent <+: buffer.bytes := by
  cases hobject : buffer.inObject with
  | false => exact h.sent hobject
  | true =>
    rw [h.sent_eq_nil (hfixed hobject)]
    exact List.nil_prefix

theorem sent_eq_iff (h : w.sent <+: buffer.bytes) :
    w.sent = buffer.bytes ↔ w.sent.length = buffer.bytes.length :=
  ⟨congrArg List.length, h.eq_of_length⟩

theorem UnderWay.resumed (h : w.UnderWay found buffer completions)
    (hcond : ResumesExactly buffer completions) : w.Resumed buffer completions := by
  refine ⟨h.aborted, h.consecutive, h.toExact.sent_isPrefix hcond.1,
    fun _ _ => ⟨_, h.pending⟩, ?_, ?_⟩
  · rintro before c after rfl hc
    exact absurd (h.fine c (List.mem_append_right _ List.mem_cons_self)) hc
  · exact h.quiet.trans (if_neg fun hwhole => h.rest.ne (congrArg List.length hwhole)).symm

theorem Ended.resumed (h : w.Ended found buffer completions)
    (hcond : ResumesExactly buffer completions) : w.Resumed buffer completions := by
  have hprefix := h.toExact.sent_isPrefix hcond.1
  refine ⟨h.aborted, h.consecutive, hprefix, fun hfine hrest => ?_, ?_, ?_⟩
  · exact absurd ((sent_eq_iff hprefix).mpr (h.whole hfine)) hrest
  · rintro before c after rfl hc
    have hafter : after = [] := by
      by_contra hne
      refine hc (h.fine c ?_)
      rw [List.dropLast_append_cons, List.dropLast_cons_of_ne_nil hne]
      exact List.mem_append_right _ List.mem_cons_self
    subst hafter
    exact ⟨rfl, h.pending, h.ranges.trans (by simp)⟩
  · rw [h.notified]
    rcases eq_or_ne buffer.bufferIDs [] with hnone | hids
    · rw [hnone, ite_self, ite_self]
    · refine if_congr (Iff.trans (and_iff_left_of_imp fun hwhole => ?_)
        (sent_eq_iff hprefix).symm) rfl rfl
      exact hcond.2 hids (h.total.symm.trans hwhole)

end BufferWrite

open BufferWrite

/-- The write of a buffer, with the completions that go well, is a run of `Socket`. -/
theorem exec_socket_of_writes {buffer : Buffer} (hbuffer : buffer.bytes ≠ [])
    (found : Nat → Nat → UInt8) (counts : List Nat) :
    ((Socket.start buffer {}).bind fun s => exec Socket.step s (events found 0 counts)) =
      (exec (complete found) (start buffer) (counts.map fun count => ⟨false, some count⟩)).map
        (toSocket buffer) := by
  rw [start_socket hbuffer]
  exact exec_socket (.inl (underWay_start hbuffer)) counts

/-- For every buffer that is not empty and every way in which its sends can complete: whatever
is found where a short string was, the write is resumed exactly, if and only if no byte of a
short string is sent and the last bytes of a shared buffer are reported to a connection that is
there. -/
theorem partial_writes_resumed_iff {buffer : Buffer} (hbuffer : buffer.bytes ≠ [])
    {completions : List Completion}
    (hcan : ∃ found w, exec (complete found) (start buffer) completions = some w) :
    (∀ found w, exec (complete found) (start buffer) completions = some w →
      w.Resumed buffer completions) ↔ ResumesExactly buffer completions := by
  constructor
  · intro hresumed
    obtain ⟨found, w, hw⟩ := hcan
    refine ⟨fun hobject c hc => ?_, fun hids htotal => ?_⟩
    · -- another byte could be found where the first one was
      by_contra hsome
      obtain ⟨first, rest, hbytes⟩ := List.exists_cons_of_ne_nil hbuffer
      let other : Nat → Nat → UInt8 := fun _ _ => first + 1
      obtain ⟨w', hw'⟩ := Alike.exec (g := other) (rfl : (start buffer).Alike _) hw
      have hexact : w'.Exact other buffer completions := by
        rcases underWay_or_ended hbuffer hw' with hunder | hended
        · exact hunder.toExact
        · exact hended.toExact
      obtain ⟨b, sent, hsent⟩ := List.exists_cons_of_ne_nil (hexact.sent_ne_nil hc hsome)
      have hprefix := (hresumed other w' hw').sent
      have hb : b = first + 1 := hexact.moved hobject b (by rw [hsent]; rfl)
      rw [hsent, hbytes, List.cons_prefix_cons, hb] at hprefix
      simp at hprefix
    · have hall := hresumed found w hw
      rcases underWay_or_ended hbuffer hw with hunder | hended
      · exact absurd (hunder.total.trans htotal) hunder.rest.ne
      · have hnotified := hall.notified
        have hlength := hended.total.trans htotal
        rw [if_pos ((sent_eq_iff hall.sent).mpr hlength), hended.notified] at hnotified
        by_contra hexpired
        rw [if_neg fun hboth => hexpired hboth.2] at hnotified
        exact hids hnotified.symm
  · intro hcond found w hw
    rcases underWay_or_ended hbuffer hw with hunder | hended
    · exact hunder.resumed hcond
    · exact hended.resumed hcond

/-- Three shared bytes go out in two sends. -/
theorem partial_writes_resumed_in_two : ∃ w, exec (complete fun _ _ => 0)
    (start (.shared [1, 2, 3] 7)) [⟨false, some 1⟩, ⟨false, some 2⟩] = some w ∧
    w.ranges = [⟨0, 3⟩, ⟨1, 2⟩] ∧ w.sharedWriteDone = [7] := by
  obtain ⟨w, h, hranges, hsent⟩ : ∃ w, exec (complete fun _ _ => 0) (start (.shared [1, 2, 3] 7))
      [⟨false, some 1⟩, ⟨false, some 2⟩] = some w ∧
      w.ranges = [⟨0, 3⟩, ⟨1, 2⟩] ∧ w.sent = [1, 2, 3] := ⟨_, rfl, rfl, rfl⟩
  have hcond : ResumesExactly (.shared [1, 2, 3] 7) [⟨false, some 1⟩, ⟨false, some 2⟩] :=
    ⟨fun hobject => (by cases hobject), fun _ _ => by decide⟩
  have hdone := ((partial_writes_resumed_iff (by decide) ⟨_, _, h⟩).mpr hcond _ _ h).notified
  have hwhole : w.sent = Buffer.bytes (.shared [1, 2, 3] 7) := hsent
  rw [if_pos hwhole] at hdone
  exact ⟨w, h, hranges, hdone⟩

/-- A shared byte is sent, and its handler finds the pointer to the connection expired: nobody
is told. -/
theorem expired_handler_notifies_nobody : ∃ w, exec (complete fun _ _ => 0)
    (start (.shared [1] 7)) [⟨true, some 1⟩] = some w ∧ w.sent = [1] ∧ w.sharedWriteDone = [] ∧
      ¬ w.Resumed (.shared [1] 7) [⟨true, some 1⟩] := by
  obtain ⟨w, h, hsent, hdone⟩ : ∃ w, exec (complete fun _ _ => 0) (start (.shared [1] 7))
      [⟨true, some 1⟩] = some w ∧ w.sent = [1] ∧ w.sharedWriteDone = [] := ⟨_, rfl, rfl, rfl⟩
  refine ⟨w, h, hsent, hdone, fun hresumed => ?_⟩
  have hnotified := hresumed.notified
  have hwhole : w.sent = Buffer.bytes (.shared [1] 7) := hsent
  rw [if_pos hwhole, hdone] at hnotified
  cases hnotified

end FspServer
