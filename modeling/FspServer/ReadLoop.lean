import FspServer.Protocol
import FspServer.Lib.Run

/-!
# The read loop of a connection and its deadline

`start_read` parses what a read has put into the buffer, call by call, and the
timer `deadline_` should run exactly while an incomplete message is pending. The
parser and the timer are outside the server's sources: the parser is a parameter
that consumes something in each call, and the timer is the flag `armed`.

* The branch of a good message disarms the timer and the branch of an incomplete
  one arms it. The branch of a bad one does neither, so a timer that an incomplete
  message has armed outlives the message when the next read only ends it badly.
* The handler of the timer looks at a weak pointer that was taken in the
  constructor, before there was a shared pointer to the connection. It never stops
  the connection.
* `deadline_kept_iff` says for which runs the timer does what it is for.
-/

namespace FspServer

/-- `message_parser::result_type`. -/
inductive ParseResult where
  | good
  | bad
  | indeterminate
deriving DecidableEq, Repr

/-- `parser_` and `message_buffer_`, with the state of both in `σ`. -/
structure Parser (σ : Type) where
  /-- The result, the characters that are left, and the state after the call. -/
  parse : σ → List Char → ParseResult × List Char × σ
  message : σ → Message
  /-- `message_buffer_.clear()`. -/
  clear : σ → σ
  consumes : ∀ parser c rest, (parse parser (c :: rest)).2.1.length < (c :: rest).length

/-- What the loop calls. -/
inductive ReadCall where
  | readAction (m : Message)
  /-- The reply `SYNTACTIC_ERROR`, with the id of a command that has none. -/
  | writeSyntacticError
  | readIndeterminate

namespace Parser

variable {σ : Type}

/-- The `while` loop of `start_read`. -/
def readLoop (p : Parser σ) (syntacticErrorSentBefore : Bool) (parser : σ) :
    List Char → List ReadCall × σ
  | [] => ([], parser)
  | c :: rest =>
    match _h : p.parse parser (c :: rest) with
    | (.good, rest', parser') =>
      let (calls, last) := p.readLoop false (p.clear parser') rest'
      (.readAction (p.message parser') :: calls, last)
    | (.bad, rest', parser') =>
      let (calls, last) := p.readLoop true (p.clear parser') rest'
      (if syntacticErrorSentBefore then calls else .writeSyntacticError :: calls, last)
    | (.indeterminate, _, parser') => ([.readIndeterminate], parser')
termination_by buffer => buffer.length
decreasing_by
  all_goals
    have hlt := p.consumes parser c rest
    rw [_h] at hlt
    exact hlt

/-- The results of the calls of `parse` in the loop. -/
def results (p : Parser σ) (parser : σ) : List Char → List ParseResult
  | [] => []
  | c :: rest =>
    match _h : p.parse parser (c :: rest) with
    | (.indeterminate, _, _) => [.indeterminate]
    | (result, rest', parser') => result :: p.results (p.clear parser') rest'
termination_by buffer => buffer.length
decreasing_by
  have hlt := p.consumes parser c rest
  rw [_h] at hlt
  exact hlt

end Parser

/-! ## The connection -/

/-- A weak pointer to a connection whose timer and reads are still there. It is empty
when it was taken before the first shared pointer to the connection was made. -/
inductive WeakPtr where
  | empty
  | observing
deriving DecidableEq, Repr

def WeakPtr.expired (w : WeakPtr) : Bool := w = .empty

/-- What reading and the timer depend on. -/
structure Reading (σ : Type) where
  parser : σ
  /-- What `weak_from_this()` gives. -/
  weakFromThis : WeakPtr
  /-- `self_weak` of the handler of the timer. -/
  selfWeak : WeakPtr
  /-- `SelfWeak` of the read that is under way. -/
  readSelfWeak : Option WeakPtr := none
  /-- Whether the timer runs. -/
  armed : Bool := false
  stopped : Bool := false
  /-- History: the last result of the parser. -/
  lastResult : Option ParseResult := none

inductive ReadingEvent where
  /-- A read ends with the characters. -/
  | read (buffer : List Char)
  /-- The handler of the timer is called: whether the wait was aborted, and what
  `deadline_` is as a condition. -/
  | timer (aborted deadline : Bool)
  /-- Some other part of the server, or a failed read or write, stops the connection. -/
  | stop
deriving DecidableEq, Repr

namespace Reading

variable {σ : Type}

/-- The constructor. -/
def construct (parser : σ) : Reading σ :=
  let weakFromThis := .empty
  { parser, weakFromThis, selfWeak := weakFromThis }

/-- `make_shared` has constructed the connection. -/
def makeShared (r : Reading σ) : Reading σ := { r with weakFromThis := .observing }

/-- `start_read` up to `async_read_some`. -/
def startRead (r : Reading σ) : Reading σ := { r with readSelfWeak := some r.weakFromThis }

/-- A connection that was constructed and started. -/
def started (parser : σ) : Reading σ := (construct parser).makeShared.startRead

def stop (r : Reading σ) : Reading σ :=
  if r.stopped then r else { r with stopped := true, armed := false }

/-- What a call of the loop does to the timer: `read_action` begins with
`deadline_.stop()`. -/
def call (r : Reading σ) : ReadCall → Reading σ
  | .readAction _ => { r with armed := false }
  | .writeSyntacticError => r
  | .readIndeterminate => { r with armed := true }

/-- The handler of `async_read_some` without an error. -/
def readHandler (p : Parser σ) (self : WeakPtr) (buffer : List Char) (r : Reading σ) : Reading σ :=
  if self.expired then { r with readSelfWeak := none }
  else
    let (calls, parser) := p.readLoop false r.parser buffer
    { calls.foldl call r with
      parser
      lastResult := (p.results r.parser buffer).getLast?.or r.lastResult }.startRead

/-- The handler of the timer, as the constructor sets it. -/
def deadlineHandler (aborted deadline : Bool) (r : Reading σ) : Reading σ :=
  if r.selfWeak.expired then r
  else if !aborted && deadline then r.stop
  else r

/-- One step. A read without an error gives at least one character, and a wait that
was not aborted is one of the running timer. -/
def step (p : Parser σ) (r : Reading σ) : ReadingEvent → Option (Reading σ)
  | .read buffer =>
    if buffer = [] then none else r.readSelfWeak.map fun self => r.readHandler p self buffer
  | .timer true deadline => some (r.deadlineHandler true deadline)
  | .timer false deadline =>
    if r.armed then some ({ r with armed := false }.deadlineHandler false deadline) else none
  | .stop => some r.stop

/-! ## What the deadline is for -/

/-- After a read the timer runs exactly when an incomplete message is pending, and its
end stops the connection. -/
def DeadlineKept (r' : Reading σ) : ReadingEvent → Prop
  | .read _ => r'.armed = true ↔ r'.lastResult = some .indeterminate
  | .timer false _ => r'.stopped = true
  | _ => True

/-- A read that ends badly while the timer runs has a good message in it, and the timer
does not end on a connection that was not stopped. -/
def Harmless (p : Parser σ) (r : Reading σ) : ReadingEvent → Prop
  | .read buffer => (p.results r.parser buffer).getLast? = some .bad → r.armed = true →
      .good ∈ p.results r.parser buffer
  | .timer false _ => r.armed = true → r.stopped = true
  | _ => True

end Reading

/-! ## The results of a read -/

namespace Parser

variable {σ : Type} {p : Parser σ}

theorem results_cons_of_parse {parser parser' : σ} {c : Char} {rest rest' : List Char}
    {result : ParseResult} (h : p.parse parser (c :: rest) = (result, rest', parser'))
    (hresult : result ≠ .indeterminate) :
    p.results parser (c :: rest) = result :: p.results (p.clear parser') rest' := by
  rw [results]
  split
  · next heq => cases (congrArg Prod.fst (h.symm.trans heq)); exact absurd rfl hresult
  · next heq =>
    obtain ⟨rfl, rfl, rfl⟩ : _ ∧ _ ∧ _ := by simpa using h.symm.trans heq
    rfl

theorem results_of_parse_indeterminate {parser parser' : σ} {c : Char} {rest rest' : List Char}
    (h : p.parse parser (c :: rest) = (.indeterminate, rest', parser')) :
    p.results parser (c :: rest) = [.indeterminate] := by
  rw [results]
  split
  · rfl
  · next hne heq => exact absurd (congrArg Prod.fst (heq.symm.trans h)) hne

theorem results_ne_nil (parser : σ) {buffer : List Char} (h : buffer ≠ []) :
    p.results parser buffer ≠ [] := by
  cases buffer with
  | nil => exact absurd rfl h
  | cons c rest =>
    rw [results]
    split <;> simp

/-- An incomplete message ends the loop. -/
theorem ne_indeterminate_of_mem_dropLast (parser : σ) (buffer : List Char) :
    ∀ result ∈ (p.results parser buffer).dropLast, result ≠ .indeterminate := by
  fun_induction results p parser buffer with
  | case1 => simp
  | case2 => simp
  | case3 parser c rest result rest' parser' hresult hparse ih =>
    intro other hmem
    cases htail : p.results (p.clear parser') rest' with
    | nil => simp [htail] at hmem
    | cons next tail =>
      rw [htail, List.dropLast_cons_of_ne_nil (List.cons_ne_nil _ _)] at hmem
      rcases List.mem_cons.mp hmem with rfl | hmem
      · rintro rfl
        exact hresult rfl
      · exact ih other (by rw [htail]; exact hmem)

/-- The timer after the results. -/
def armedAfter (armed : Bool) (results : List ParseResult) : Bool :=
  results.foldl (fun armed result =>
    match result with
    | .good => false
    | .bad => armed
    | .indeterminate => true) armed

theorem armedAfter_of_complete {armed : Bool} {results : List ParseResult}
    (h : ∀ result ∈ results, result ≠ .indeterminate) :
    armedAfter armed results = true ↔ armed = true ∧ .good ∉ results := by
  induction results generalizing armed with
  | nil => simp [armedAfter]
  | cons result results ih =>
    obtain ⟨hresult, hrest⟩ := List.forall_mem_cons.mp h
    have ih := fun armed => @ih armed hrest
    cases result with
    | good => simpa [armedAfter] using ih false
    | bad => simpa [armedAfter] using ih armed
    | indeterminate => exact absurd rfl hresult

/-- The loop leaves the timer as its results say. -/
theorem armed_readLoop (syntacticErrorSentBefore : Bool) (parser : σ) (buffer : List Char)
    (r : Reading σ) :
    ((p.readLoop syntacticErrorSentBefore parser buffer).1.foldl Reading.call r).armed =
      armedAfter r.armed (p.results parser buffer) := by
  fun_induction readLoop p syntacticErrorSentBefore parser buffer generalizing r with
  | case1 => rw [results]; rfl
  | case2 sent parser c rest rest' parser' hparse calls last hloop ih =>
    rw [results_cons_of_parse hparse (by decide)]
    rw [hloop] at ih
    exact ih (r.call (.readAction (p.message parser')))
  | case3 sent parser c rest rest' parser' hparse calls last hloop ih =>
    rw [results_cons_of_parse hparse (by decide)]
    rw [hloop] at ih
    -- the reply about the syntax leaves the timer alone
    have hcalls :
        (if sent = true then calls else .writeSyntacticError :: calls).foldl Reading.call r =
          calls.foldl Reading.call r := by
      cases sent <;> rfl
    show (List.foldl Reading.call r (if sent = true then calls else _)).armed = _
    rw [hcalls]
    exact ih r
  | case4 sent parser c rest rest' parser' hparse =>
    rw [results_of_parse_indeterminate hparse]
    rfl

/-- After results of which only the last one may be an incomplete message, the timer runs
exactly when that one is, unless a timer that ran before outlives a bad last result. -/
theorem armedAfter_iff_getLast? {armed : Bool} {results : List ParseResult}
    (hne : results ≠ []) (h : ∀ result ∈ results.dropLast, result ≠ .indeterminate) :
    (armedAfter armed results = true ↔ results.getLast? = some .indeterminate) ↔
      (results.getLast? = some .bad → armed = true → .good ∈ results) := by
  obtain ⟨before, last, rfl⟩ : ∃ before last, results = before ++ [last] :=
    ⟨_, _, (List.dropLast_append_getLast hne).symm⟩
  rw [List.dropLast_concat] at h
  have hafter : armedAfter armed (before ++ [last]) =
      armedAfter (armedAfter armed before) [last] := List.foldl_append ..
  rw [hafter, List.getLast?_concat]
  cases last with
  | good => simp [armedAfter]
  | indeterminate => simp [armedAfter]
  | bad =>
    have hbefore : armedAfter armed before = true ↔ armed = true ∧ .good ∉ before :=
      armedAfter_of_complete h
    show (armedAfter armed before = true ↔ _) ↔ _
    simp [hbefore]

end Parser

namespace Reading

variable {σ : Type} {p : Parser σ} {r r' : Reading σ}

open Runs

/-! ## Runs of a connection -/

/-- The connection is owned by a shared pointer, and the handler of its timer was set
before it was. -/
structure Owned (r : Reading σ) : Prop where
  selfWeak : r.selfWeak = .empty
  weakFromThis : r.weakFromThis = .observing
  readSelfWeak : r.readSelfWeak = some .observing

theorem owned_started (parser : σ) : (started parser).Owned := ⟨rfl, rfl, rfl⟩

theorem Owned.stop (h : r.Owned) : r.stop.Owned := by
  obtain ⟨hself, hthis, hread⟩ := h
  unfold Reading.stop
  split
  · exact ⟨hself, hthis, hread⟩
  · exact ⟨hself, hthis, hread⟩

theorem Owned.disarm (h : r.Owned) : { r with armed := false }.Owned :=
  ⟨h.selfWeak, h.weakFromThis, h.readSelfWeak⟩

theorem Owned.foldl_call (calls : List ReadCall) (h : r.Owned) : (calls.foldl call r).Owned := by
  induction calls generalizing r with
  | nil => exact h
  | cons c calls ih =>
    refine ih ?_
    obtain ⟨hself, hthis, hread⟩ := h
    cases c <;> exact ⟨hself, hthis, hread⟩

theorem Owned.deadlineHandler (h : r.Owned) (aborted deadline : Bool) :
    r.deadlineHandler aborted deadline = r := by
  simp [Reading.deadlineHandler, h.selfWeak, WeakPtr.expired]

theorem Owned.readHandler (h : r.Owned) (buffer : List Char) :
    r.readHandler p .observing buffer =
      { (p.readLoop false r.parser buffer).1.foldl call r with
        parser := (p.readLoop false r.parser buffer).2
        lastResult := (p.results r.parser buffer).getLast?.or r.lastResult
        readSelfWeak := some .observing } := by
  have hthis := (h.foldl_call (p.readLoop false r.parser buffer).1).weakFromThis
  simp [Reading.readHandler, WeakPtr.expired, startRead, hthis]

/-- Everything that a step can do. -/
theorem Owned.step_cases (h : r.Owned) {e : ReadingEvent} (hstep : step p r e = some r') :
    (∃ buffer, e = .read buffer ∧ buffer ≠ [] ∧ r' = r.readHandler p .observing buffer) ∨
    (∃ deadline, e = .timer true deadline ∧ r' = r) ∨
    (∃ deadline, e = .timer false deadline ∧ r.armed = true ∧ r' = { r with armed := false }) ∨
    (e = .stop ∧ r' = r.stop) := by
  cases e with
  | read buffer =>
    obtain ⟨hne, hstep⟩ := Option.ite_none_left_eq_some.mp hstep
    rw [h.readSelfWeak] at hstep
    exact .inl ⟨buffer, rfl, hne, (Option.some.inj hstep).symm⟩
  | timer aborted deadline =>
    cases aborted with
    | true =>
      have hr := (Option.some.inj hstep).symm
      rw [h.deadlineHandler] at hr
      exact .inr (.inl ⟨deadline, rfl, hr⟩)
    | false =>
      obtain ⟨harmed, hstep⟩ := Option.ite_none_right_eq_some.mp hstep
      have hr := (Option.some.inj hstep).symm
      rw [h.disarm.deadlineHandler] at hr
      exact .inr (.inr (.inl ⟨deadline, rfl, harmed, hr⟩))
  | stop => exact .inr (.inr (.inr ⟨rfl, (Option.some.inj hstep).symm⟩))

theorem Owned.step (h : r.Owned) {e : ReadingEvent} (hstep : Reading.step p r e = some r') :
    r'.Owned := by
  rcases h.step_cases hstep with ⟨buffer, -, -, rfl⟩ | ⟨_, -, rfl⟩ | ⟨_, -, -, rfl⟩ | ⟨-, rfl⟩
  · have hcalls := h.foldl_call (p.readLoop false r.parser buffer).1
    rw [h.readHandler]
    exact ⟨hcalls.selfWeak, hcalls.weakFromThis, rfl⟩
  · exact h
  · exact h.disarm
  · exact h.stop

/-- What the read handler does to the timer. -/
theorem Owned.armed_readHandler (h : r.Owned) (buffer : List Char) :
    (r.readHandler p .observing buffer).armed =
      Parser.armedAfter r.armed (p.results r.parser buffer) := by
  rw [h.readHandler]
  exact Parser.armed_readLoop false r.parser buffer r

/-- A step does what the deadline is for exactly when it is harmless. -/
theorem Owned.deadlineKept_iff (h : r.Owned) (e : ReadingEvent) :
    (∀ r', Reading.step p r e = some r' → r'.DeadlineKept e) ↔ r.Harmless p e := by
  cases e with
  | read buffer =>
    cases buffer with
    | nil => exact iff_of_true (by simp [Reading.step]) (by simp [Harmless, Parser.results])
    | cons c rest =>
      have hne : p.results r.parser (c :: rest) ≠ [] :=
        Parser.results_ne_nil r.parser (List.cons_ne_nil c rest)
      have hlast : (r.readHandler p .observing (c :: rest)).lastResult =
          (p.results r.parser (c :: rest)).getLast? := by
        rw [h.readHandler, List.getLast?_eq_some_getLast hne]
        rfl
      have hstep : Reading.step p r (.read (c :: rest)) =
          some (r.readHandler p .observing (c :: rest)) := by
        simp [Reading.step, h.readSelfWeak]
      rw [hstep]
      simp only [Option.some.injEq, forall_eq']
      show ((r.readHandler p .observing (c :: rest)).armed = true ↔ _) ↔ _
      rw [h.armed_readHandler, hlast]
      exact Parser.armedAfter_iff_getLast? hne
        (Parser.ne_indeterminate_of_mem_dropLast r.parser (c :: rest))
  | timer aborted deadline =>
    cases aborted with
    | true => exact iff_of_true (fun _ _ => trivial) trivial
    | false =>
      constructor
      · intro hkept harmed
        exact hkept { r with armed := false }
          (by simp [Reading.step, harmed, h.disarm.deadlineHandler])
      · intro hharmless r' hstep
        rcases h.step_cases hstep with ⟨_, he, -⟩ | ⟨_, he, -⟩ | ⟨_, -, harmed, rfl⟩ | ⟨he, -⟩
        · cases he
        · cases he
        · exact hharmless harmed
        · cases he
  | stop => exact iff_of_true (fun _ _ => trivial) trivial

/-- For every parser that consumes and every list of events: all reads leave the timer
running exactly when an incomplete message is pending, and all ends of the timer stop
the connection, exactly when all these steps are harmless. -/
theorem deadline_kept_iff (p : Parser σ) (parser : σ) (es : List ReadingEvent) :
    EachStep (step p) (fun r e => ∀ r', step p r e = some r' → r'.DeadlineKept e)
      (started parser) es ↔
    EachStep (step p) (Harmless p) (started parser) es :=
  eachStep_congr (fun _ _ _ h hstep => Owned.step h hstep) (fun _ e h => h.deadlineKept_iff e)
    (owned_started parser) es

/-- A parser that gives the results of its state, one for each character. -/
def scripted : Parser (List ParseResult) where
  parse script buffer := (script.headD .good, buffer.tail, script.tail)
  message _ := ⟨.HEARTBEAT, [], []⟩
  clear script := script
  consumes _ _ _ := Nat.lt_succ_self _

/-- Every list of results of which only the last one may be an incomplete message is the
list of results of some read. -/
theorem results_scripted (results later : List ParseResult)
    (h : ∀ result ∈ results.dropLast, result ≠ .indeterminate) :
    scripted.results (results ++ later) (List.replicate results.length ' ') = results := by
  induction results with
  | nil => simp [Parser.results]
  | cons result results ih =>
    have hparse : scripted.parse (result :: (results ++ later))
        (List.replicate (results.length + 1) ' ') =
        (result, List.replicate results.length ' ', results ++ later) := rfl
    cases results with
    | nil =>
      cases result with
      | indeterminate => exact Parser.results_of_parse_indeterminate hparse
      | good | bad =>
        refine (Parser.results_cons_of_parse hparse (by decide)).trans ?_
        simp [Parser.results]
    | cons next results =>
      have hhead : result ≠ .indeterminate := h result (by simp)
      have hrest := ih fun other hother => h other (by simp [hother])
      exact (Parser.results_cons_of_parse hparse hhead).trans (congrArg (result :: ·) hrest)

/-- An incomplete message arms the timer, and the next read ends it badly: the timer still
runs although nothing is pending. When it ends, the connection is not stopped. -/
theorem deadline_outlives_incomplete :
    ∃ r r', exec (step scripted) (started [.indeterminate, .bad]) [.read [' '], .read [' ']] =
        some r ∧ r.armed = true ∧ r.lastResult = some .bad ∧
      step scripted r (.timer false true) = some r' ∧ r'.stopped = false := by
  have hfirst : step scripted (started [.indeterminate, .bad]) (.read [' ']) =
      some { started [.bad] with armed := true, lastResult := some .indeterminate } := by
    simp [step, started, construct, makeShared, startRead, readHandler, WeakPtr.expired,
      Parser.readLoop, Parser.results, scripted, call]
  have hsecond : step scripted
      { started [.bad] with armed := true, lastResult := some .indeterminate } (.read [' ']) =
      some { started [] with armed := true, lastResult := some .bad } := by
    simp [step, started, construct, makeShared, startRead, readHandler, WeakPtr.expired,
      Parser.readLoop, Parser.results, scripted, call]
  exact ⟨{ started [] with armed := true, lastResult := some .bad },
    { started [] with lastResult := some .bad }, by simp [exec, hfirst, hsecond],
    rfl, rfl, rfl, rfl⟩

end Reading

end FspServer
