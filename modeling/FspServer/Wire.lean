import FspServer.Lib.Run
import FspServer.Connections

/-!
# The bytes of one connection

`start_write` and `start_shared_write` hand the whole buffer to `async_send`.
`async_send` may transfer less; its completion handler then issues the rest as a
new send. There is no queue of messages: every thread that has something to write
issues its send at once, and sends are served in the order they were issued.

`async_write` takes the address of the characters of its `std::string` and then moves
the string into the completion handler. A short string keeps its characters inside
the object (`Buffer.inObject`), so the send reads what the move has left there.

`Socket` is one connection: the bytes on the wire, the sends that were issued, and
the completion handlers that have not run. Messages stay whole on the wire as long
as (`Socket.Undivided`)

* a send transfers less than all of its bytes only while no other send is
  outstanding;
* no write is started while the handler of such a send has not issued the rest;
* no short string is written.
-/

namespace FspServer

open Runs

/-- What is written: a string of `shared_storage_`, a string that the connection
owns, or a string of static storage, which ends at its first zero byte. -/
inductive Buffer where
  | shared (bytes : List UInt8) (bufferID : Nat)
  | string (bytes : List UInt8)
  | static (text : List UInt8)
deriving DecidableEq, Repr

def Buffer.bytes : Buffer → List UInt8
  | .shared bytes _ => bytes
  | .string bytes => bytes
  | .static text => text.takeWhile fun b => b ≠ 0

/-- How many characters a `std::string` keeps inside the object, in the library of the
compiler that the project is built with. -/
def inObjectCapacity : Nat := 15

/-- The characters do not move along with the string. -/
def Buffer.inObject : Buffer → Bool
  | .string bytes => bytes.length ≤ inObjectCapacity
  | _ => false

/-- An `async_send` of a buffer from an offset on; for a completion handler, the
offset behind the bytes that were transferred. -/
structure Send where
  buffer : Buffer
  offset : Nat
deriving DecidableEq, Repr

/-- The bytes from the offset on. -/
def Send.rest (w : Send) : List UInt8 := w.buffer.bytes.drop w.offset

/-- The bytes that are transferred, when `found` are those at the place from which a string
was moved: what it holds then is not specified. -/
def Send.read (w : Send) (count : Nat) (found : Nat → UInt8) : List UInt8 :=
  if w.buffer.inObject then (List.range count).map fun i => found (w.offset + i)
  else w.rest.take count

theorem Send.read_of_not_inObject {w : Send} (h : w.buffer.inObject = false) (count : Nat)
    (found : Nat → UInt8) : w.read count found = w.rest.take count := by
  rw [Send.read, h]
  rfl

theorem Send.length_read {w : Send} {count : Nat} (h : count ≤ w.rest.length)
    (found : Nat → UInt8) : (w.read count found).length = count := by
  unfold Send.read
  split
  · rw [List.length_map, List.length_range]
  · rw [List.length_take_of_le h]

structure Socket where
  wire : List UInt8 := []
  /-- The sends that were issued, in the order they are served. -/
  outstanding : List Send := []
  /-- The completion handlers that have not run. -/
  completed : List Send := []
  closed : Bool := false
  /-- The ids given to `notify_shared_write_done`. -/
  sharedWriteDone : List Nat := []
  /-- History: the buffers whose write was started, in order. -/
  started : List Buffer := []

namespace Socket

/-- The three `async_write` functions. An assertion wants something to write; a
closed stream sends nothing. -/
def asyncWrite (buffer : Buffer) (offset : Nat) (s : Socket) : Option Socket :=
  if offset < buffer.bytes.length then
    some (if s.closed then s else { s with outstanding := s.outstanding ++ [⟨buffer, offset⟩] })
  else none

/-- The write of a whole buffer. -/
def start (buffer : Buffer) (s : Socket) : Option Socket :=
  { s with started := s.started ++ [buffer] }.asyncWrite buffer 0

def startSharedWrite (bytes : List UInt8) (bufferID : Nat) : Socket → Option Socket :=
  start (.shared bytes bufferID)

def startWrite (bytes : List UInt8) : Socket → Option Socket := start (.string bytes)

def startWriteStatic (text : List UInt8) : Socket → Option Socket := start (.static text)

/-- The first send transfers some of its bytes. -/
def transfer (count : Nat) (found : Nat → UInt8) (s : Socket) : Option Socket :=
  match s.outstanding with
  | [] => none
  | w :: outstanding =>
    if 0 < count ∧ count ≤ w.rest.length then
      some { s with
        wire := s.wire ++ w.read count found
        outstanding
        completed := s.completed ++ [{ w with offset := w.offset + count }] }
    else none

/-- A completion handler runs. -/
def complete (i : Nat) (s : Socket) : Option Socket :=
  (s.completed[i]?).bind fun w =>
    let s := { s with completed := s.completed.eraseIdx i }
    if w.offset ≠ w.buffer.bytes.length then s.asyncWrite w.buffer w.offset
    else match w.buffer with
      | .shared _ bufferID => some { s with sharedWriteDone := bufferID :: s.sharedWriteDone }
      | _ => some s

/-- `stop` closes the stream, which cancels what is outstanding. -/
def stop (s : Socket) : Socket := { s with closed := true, outstanding := [], completed := [] }

inductive Event where
  | startSharedWrite (bytes : List UInt8) (bufferID : Nat)
  | startWrite (bytes : List UInt8)
  | startWriteStatic (text : List UInt8)
  | transfer (count : Nat) (found : Nat → UInt8)
  | complete (i : Nat)
  | stop

def step (s : Socket) : Event → Option Socket
  | .startSharedWrite bytes bufferID => s.startSharedWrite bytes bufferID
  | .startWrite bytes => s.startWrite bytes
  | .startWriteStatic text => s.startWriteStatic text
  | .transfer count found => s.transfer count found
  | .complete i => s.complete i
  | .stop => some s.stop

/-- The messages on the wire are not torn: the bytes are a prefix of the whole
messages that were started, in some order. -/
def Whole (s : Socket) : Prop :=
  ∃ messages : List (List UInt8),
    messages.Perm (s.started.map Buffer.bytes) ∧ s.wire <+: messages.flatten

/-! ## Runs that keep messages whole -/

/-- No handler has a rest to issue. -/
def Settled (s : Socket) : Prop := ∀ w ∈ s.completed, w.rest = []

/-- A send is divided only while it is alone, nothing is started until the rest of a
divided one is issued, and no short string is written. -/
def Undivided (s : Socket) : Event → Prop
  | .startSharedWrite .. | .startWriteStatic _ => s.Settled
  | .startWrite bytes => s.Settled ∧ inObjectCapacity < bytes.length
  | .transfer count _ => ∀ w ∈ s.outstanding.head?, count < w.rest.length → s.outstanding = [w]
  | _ => True

instance (s : Socket) (e : Event) : Decidable (s.Undivided e) :=
  match e with
  | .startSharedWrite .. | .startWriteStatic _ =>
    inferInstanceAs (Decidable (∀ w ∈ s.completed, w.rest = []))
  | .startWrite bytes => inferInstanceAs
      (Decidable ((∀ w ∈ s.completed, w.rest = []) ∧ inObjectCapacity < bytes.length))
  | .transfer .. => inferInstanceAs (Decidable (∀ w ∈ s.outstanding.head?, _ → _))
  | .complete _ | .stop => inferInstanceAs (Decidable True)

/-- The invariant of an open stream: what is on the wire, what the handlers and the
outstanding sends still have to send, in this order, are the messages in the order
they were started. At most one handler has a rest, and then nothing is
outstanding. What is sent stays where it is. -/
structure Intact (s : Socket) : Prop where
  sent : s.wire <+: s.started.flatMap Buffer.bytes
  left : s.closed = false → s.wire ++ (s.completed.flatMap Send.rest ++
    s.outstanding.flatMap Send.rest) = s.started.flatMap Buffer.bytes
  alone : s.Settled ∨ s.outstanding = []
  once : (s.completed.filter fun w => w.rest ≠ []).length ≤ 1
  cancelled : s.closed = true → s.outstanding = [] ∧ s.completed = []
  fixed : ∀ w ∈ s.outstanding ++ s.completed, w.buffer.inObject = false

theorem flatMap_rest_of_settled {s : Socket} (h : s.Settled) :
    s.completed.flatMap Send.rest = [] :=
  List.flatMap_eq_nil_iff.mpr h

theorem Intact.start {s s' : Socket} {buffer : Buffer} (h : s.Intact) (hsettled : s.Settled)
    (hfixed : buffer.inObject = false) (hs : s.start buffer = some s') : s'.Intact := by
  have hsent : s.wire <+: (s.started ++ [buffer]).flatMap Buffer.bytes := by
    rw [List.flatMap_append]
    exact h.sent.trans (List.prefix_append _ _)
  obtain ⟨-, hs⟩ := Option.ite_none_right_eq_some.mp hs
  obtain rfl := Option.some.inj hs
  split
  · next hclosed =>
    refine ⟨hsent, fun hopen => ?_, h.alone, h.once, h.cancelled, h.fixed⟩
    cases hclosed.symm.trans hopen
  · next hopen =>
    refine ⟨hsent, fun hfalse => ?_, Or.inl hsettled, h.once,
      fun hclosed => absurd hclosed hopen, fun w hw => ?_⟩
    swap
    · rcases List.mem_append.mp hw with hw | hw
      · rcases List.mem_append.mp hw with hw | hw
        · exact h.fixed w (List.mem_append_left _ hw)
        · rw [List.mem_singleton.mp hw]
          exact hfixed
      · exact h.fixed w (List.mem_append_right _ hw)
    have hleft := h.left hfalse
    rw [flatMap_rest_of_settled hsettled, List.nil_append] at hleft
    show s.wire ++ (s.completed.flatMap Send.rest ++ _) = _
    rw [flatMap_rest_of_settled hsettled, List.nil_append, List.flatMap_append,
      List.flatMap_append, ← List.append_assoc, hleft]
    rfl

theorem Intact.transfer {s s' : Socket} {count : Nat} {found : Nat → UInt8} (h : s.Intact)
    (hundivided : s.Undivided (.transfer count found)) (hs : s.transfer count found = some s') :
    s'.Intact := by
  unfold Socket.transfer at hs
  split at hs
  · cases hs
  · next w outstanding hout =>
    obtain ⟨hcount, hs⟩ := Option.ite_none_right_eq_some.mp hs
    obtain rfl := Option.some.inj hs
    have hw : w.buffer.inObject = false := h.fixed w (by simp [hout])
    rw [Send.read_of_not_inObject hw]
    -- something is outstanding, so no handler has a rest and the stream is open
    have hsettled : s.Settled := by
      rcases h.alone with hsettled | hnil
      · exact hsettled
      · simp [hout] at hnil
    have hopen : s.closed ≠ true := fun hclosed => by
      have hnil := (h.cancelled hclosed).1
      simp [hout] at hnil
    have hrest : Send.rest { w with offset := w.offset + count } = w.rest.drop count := by
      simp [Send.rest, List.drop_drop]
    have hleft : (s.wire ++ w.rest.take count) ++
        ((s.completed ++ [{ w with offset := w.offset + count }]).flatMap Send.rest ++
          outstanding.flatMap Send.rest) = s.started.flatMap Buffer.bytes := by
      rw [← h.left (by simpa using hopen), hout, List.flatMap_append,
        flatMap_rest_of_settled hsettled, List.flatMap_cons, List.flatMap_cons, hrest]
      simp only [List.flatMap_nil, List.append_nil, List.nil_append, List.append_assoc]
      rw [← List.append_assoc (w.rest.take count), List.take_append_drop]
    refine ⟨⟨_, hleft⟩, fun _ => hleft, ?_, ?_, fun hclosed => absurd hclosed hopen,
      fun v hv => ?_⟩
    · by_cases hshort : count < w.rest.length
      · have honly := hundivided w (by simp [hout]) hshort
        rw [hout] at honly
        exact Or.inr (List.cons.inj honly).2
      · refine Or.inl fun v hv => ?_
        rcases List.mem_append.mp hv with hv | hv
        · exact hsettled v hv
        · rw [List.mem_singleton.mp hv, hrest]
          exact List.drop_eq_nil_of_le (not_lt.mp hshort)
    · have hnone : s.completed.filter (fun v => v.rest ≠ []) = [] :=
        List.filter_eq_nil_iff.mpr fun v hv => by simp [hsettled v hv]
      rw [List.filter_append, hnone, List.nil_append]
      exact List.length_filter_le _ _
    · rw [← List.append_assoc] at hv
      rcases List.mem_append.mp hv with hv | hv
      · refine h.fixed v ?_
        rw [hout]
        exact List.mem_cons_of_mem _ hv
      · rw [List.mem_singleton.mp hv]
        exact hw

/-- The handler that has a rest is the only one. -/
theorem Intact.settled_erase {s : Socket} (h : s.Intact) {i : Nat} {w : Send}
    (hi : s.completed[i]? = some w) (hw : w.rest ≠ []) :
    (∀ v ∈ s.completed.eraseIdx i, v.rest = []) ∧ s.completed.flatMap Send.rest = w.rest := by
  obtain ⟨l₁, l₂, hl, herase⟩ := split_of_getElem? hi
  have honce := h.once
  rw [hl, List.filter_append, List.filter_cons_of_pos (by simpa using hw)] at honce
  simp only [List.length_append, List.length_cons] at honce
  have hnone : ∀ l : List Send, (l.filter fun v => v.rest ≠ []).length = 0 →
      ∀ v ∈ l, v.rest = [] := by
    intro l hl v hv
    simpa using List.filter_eq_nil_iff.mp (List.length_eq_zero_iff.mp hl) v hv
  have h₁ := hnone l₁ (by omega)
  have h₂ := hnone l₂ (by omega)
  constructor
  · intro v hv
    rw [herase] at hv
    exact (List.mem_append.mp hv).elim (h₁ v) (h₂ v)
  · rw [hl, List.flatMap_append, List.flatMap_cons, List.flatMap_eq_nil_iff.mpr h₁,
      List.flatMap_eq_nil_iff.mpr h₂, List.nil_append, List.append_nil]

/-- A handler without a rest leaves the bytes as they are. -/
theorem Intact.finish {s : Socket} (h : s.Intact) {i : Nat} {w : Send} (done : List Nat)
    (hi : s.completed[i]? = some w) (hw : w.rest = []) :
    Intact { s with completed := s.completed.eraseIdx i, sharedWriteDone := done } := by
  obtain ⟨l₁, l₂, hl, herase⟩ := split_of_getElem? hi
  have hflat : (s.completed.eraseIdx i).flatMap Send.rest = s.completed.flatMap Send.rest := by
    rw [herase, hl]
    simp [hw]
  refine ⟨h.sent, fun hopen => ?_, ?_, ?_, fun hclosed => ?_, fun v hv => ?_⟩
  · show s.wire ++ ((s.completed.eraseIdx i).flatMap Send.rest ++ _) = _
    rw [hflat]
    exact h.left hopen
  · exact h.alone.imp_left fun hsettled v hv => hsettled v (List.mem_of_mem_eraseIdx hv)
  · exact ((List.eraseIdx_sublist _ _).filter _).length_le.trans h.once
  · have hnil := (h.cancelled hclosed).2
    simp [hnil] at hi
  · refine h.fixed v (List.mem_append.mpr ((List.mem_append.mp hv).imp_right ?_))
    exact List.mem_of_mem_eraseIdx

theorem Intact.complete {s s' : Socket} {i : Nat} (h : s.Intact) (hs : s.complete i = some s') :
    s'.Intact := by
  obtain ⟨w, hi, hs⟩ := Option.bind_eq_some_iff.mp hs
  dsimp only at hs
  split at hs
  · obtain ⟨hlt, hs⟩ := Option.ite_none_right_eq_some.mp hs
    obtain rfl := Option.some.inj hs
    have hw : w.rest ≠ [] := by simpa [Send.rest] using hlt
    obtain ⟨herase, hflat⟩ := h.settled_erase hi hw
    have hout : s.outstanding = [] := by
      rcases h.alone with hsettled | hnil
      · exact absurd (hsettled w (List.mem_of_getElem? hi)) hw
      · exact hnil
    split
    · next hclosed =>
      have hnil := (h.cancelled hclosed).2
      simp [hnil] at hi
    · next hopen =>
      refine ⟨h.sent, fun hfalse => ?_, Or.inl herase, ?_, fun hclosed => absurd hclosed hopen,
        fun v hv => ?_⟩
      · have hleft := h.left hfalse
        rw [hflat, hout] at hleft
        simpa [hout, List.flatMap_eq_nil_iff.mpr herase] using hleft
      · exact ((List.eraseIdx_sublist _ _).filter _).length_le.trans h.once
      · rcases List.mem_append.mp hv with hv | hv
        · rcases List.mem_append.mp hv with hv | hv
          · exact h.fixed v (List.mem_append_left _ hv)
          · rw [List.mem_singleton.mp hv]
            exact h.fixed w (List.mem_append_right _ (List.mem_of_getElem? hi))
        · exact h.fixed v (List.mem_append_right _ (List.mem_of_mem_eraseIdx hv))
  · next hsize =>
    have hw : w.rest = [] := List.drop_eq_nil_of_le (not_ne_iff.mp hsize).ge
    split at hs
    · obtain rfl := Option.some.inj hs
      exact h.finish _ hi hw
    · obtain rfl := Option.some.inj hs
      exact h.finish _ hi hw

theorem Intact.stop {s : Socket} (h : s.Intact) : s.stop.Intact :=
  ⟨h.sent, fun hopen => absurd hopen (by simp [Socket.stop]), Or.inr rfl, Nat.zero_le _,
    fun _ => ⟨rfl, rfl⟩, fun _ hw => absurd hw List.not_mem_nil⟩

theorem Intact.step {s s' : Socket} {e : Event} (h : s.Intact) (hundivided : s.Undivided e)
    (hs : s.step e = some s') : s'.Intact := by
  cases e with
  | startSharedWrite bytes bufferID => exact h.start hundivided rfl hs
  | startWrite bytes =>
    have hfixed : Buffer.inObject (.string bytes) = false := decide_eq_false hundivided.2.not_ge
    exact h.start hundivided.1 hfixed hs
  | startWriteStatic text => exact h.start hundivided rfl hs
  | transfer count found => exact h.transfer hundivided hs
  | complete i => exact h.complete hs
  | stop =>
    obtain rfl := Option.some.inj hs
    exact h.stop

theorem intact_initial : ({} : Socket).Intact :=
  ⟨List.prefix_rfl, fun _ => rfl, Or.inr rfl, Nat.zero_le _, fun _ => ⟨rfl, rfl⟩,
    fun _ hw => absurd hw List.not_mem_nil⟩

end Socket

/-- In every run in which a send is divided only while it is alone, nothing is started before
the rest of a divided one is issued, and no short string is written, the bytes on the wire are a
prefix of the messages in the order they were started; no message is torn. -/
theorem messages_whole {s : Socket} (h : Reach Socket.step Socket.Undivided {} s) :
    s.wire <+: s.started.flatMap Buffer.bytes ∧ s.Whole := by
  have hintact : s.Intact :=
    h.invariant Socket.intact_initial fun _ _ _ hs hundivided hst => hs.step hundivided hst
  exact ⟨hintact.sent, _, List.Perm.refl _, List.flatMap_def ▸ hintact.sent⟩

/-- A message of sixteen bytes is sent in two parts while it is alone, then a broadcast
and a heartbeat follow. -/
theorem messages_whole_after_parts :
    ∃ s, Reach Socket.step Socket.Undivided {} s ∧ s.wire = List.replicate 16 1 ++ [3] ∧
      s.Whole := by
  obtain ⟨s, hs, hwire⟩ := exists_reach_of_exec_guarded Socket.step Socket.Undivided {}
    (fun s => s.wire = List.replicate 16 1 ++ [3])
    [.startWrite (List.replicate 16 1), .transfer 1 fun _ => 0, .complete 0,
      .transfer 15 fun _ => 0, .startSharedWrite [3, 4] 1, .transfer 1 fun _ => 0, .complete 1,
      .startWriteStatic [5, 0]] (by decide +kernel)
  exact ⟨s, hs, hwire, (messages_whole hs).2⟩

/-- Two messages are started; the first one is sent in two parts, and the second one
comes between them. -/
theorem second_message_between_parts :
    ∃ s, Reach Socket.step anyStep {} s ∧ ¬ s.Whole := by
  obtain ⟨s, hs, hwire, hstarted⟩ := exists_reach_of_exec Socket.step {}
    (fun s => s.wire = [1, 3] ∧
      s.started = [.string (1 :: List.replicate 15 2), .static [3]])
    [.startWrite (1 :: List.replicate 15 2), .startWriteStatic [3], .transfer 1 fun _ => 0,
      .transfer 1 fun _ => 0] (by decide +kernel)
  refine ⟨s, hs, ?_⟩
  rintro ⟨messages, hperm, hprefix⟩
  rw [hstarted] at hperm
  rw [hwire] at hprefix
  cases messages with
  | nil => simp at hprefix
  | cons m rest =>
    have hm : m = 1 :: List.replicate 15 2 ∨ m = [3] := by
      simpa [Buffer.bytes] using hperm.subset List.mem_cons_self
    rcases hm with rfl | rfl <;> simp [List.replicate_succ] at hprefix

/-- A short string is written alone, and the send reads what the move has left. -/
example : ∃ s, Reach Socket.step anyStep {} s ∧ s.started = [.string [1, 2]] ∧ s.wire = [0, 2] :=
  exists_reach_of_exec Socket.step {} (fun s => s.started = [.string [1, 2]] ∧ s.wire = [0, 2])
    [.startWrite [1, 2], .transfer 2 fun i => if i = 0 then 0 else 2] (by decide +kernel)

end FspServer
