import FspServer.Server
import FspServer.Lib.Run
import Mathlib.Data.List.MinMax
import Mathlib.Data.List.Nodup
import Mathlib.Data.List.Range

/-!
# The priority scheduler

`priority_scheduler` and `request_scheduler` of the server: requests are posted
with a priority and executed by a pool of threads that all call `run`.

A worker is at one of the statements of `run` (`Worker`), so that its steps
interleave with those of the other workers, with `post` and with `stop`. The
mutex is explicit: a worker holds it from the return of `lock` or of the wait to
`unlock`, and `post` and `stop` are one step each because they hold it from
their first access to the queue or to the flag to their end. A worker blocked in
`condition_.wait` may wake at any time, so nothing depends on notifications.

Results:
1. `transition_of_step`: what a step can do, with the conditions under which it
   happens.
2. `Accounted.step`: the queue, the tasks being executed and the finished ones
   hold every posted task exactly once.
3. `Guarded.step`: what a worker has read under the mutex still holds when it
   acts on it: the task it pops is a first one, and `stop` has not come between.
4. `scheduler_correct`: both over every run.
-/

namespace FspServer

open Runs

/-- The values of the enumerators. -/
def SchedulerPriority.toInt : SchedulerPriority → Int
  | very_low => 0
  | low => 1
  | medium => 2
  | high => 3
  | very_high => 4

/-- `executor_type`, bound to the one scheduler. -/
structure ExecutorType where
  priority : Int
deriving DecidableEq, Repr

/-- The executors of `request_scheduler`. -/
structure RequestScheduler where
  veryLow : ExecutorType
  low : ExecutorType
  medium : ExecutorType
  high : ExecutorType
  veryHigh : ExecutorType

/-- The constructor of `request_scheduler`. -/
def RequestScheduler.new : RequestScheduler where
  veryLow := ⟨SchedulerPriority.very_low.toInt⟩
  low := ⟨SchedulerPriority.low.toInt⟩
  medium := ⟨SchedulerPriority.medium.toInt⟩
  high := ⟨SchedulerPriority.high.toInt⟩
  veryHigh := ⟨SchedulerPriority.very_high.toInt⟩

/-- The `switch` of `request_scheduler::post`. -/
def RequestScheduler.executorToDoWork (r : RequestScheduler) : SchedulerPriority → ExecutorType
  | .very_low => r.veryLow
  | .low => r.low
  | .medium => r.medium
  | .high => r.high
  | .very_high => r.veryHigh

theorem RequestScheduler.priority_executorToDoWork (p : SchedulerPriority) :
    (new.executorToDoWork p).priority = p.toInt := by
  cases p <;> rfl

/-- `item`. Its address is the number of items allocated before it. -/
structure Item (α : Type) where
  serial : Nat
  priority : Int
  function : α
deriving DecidableEq, Repr

variable {α : Type}

/-- `item_comp`. -/
def itemComp (a b : Item α) : Bool := a.priority < b.priority

/-- Where a thread stands in `run`. -/
inductive Worker (α : Type) where
  /-- About to lock the mutex, at the start or after a task. -/
  | locking
  /-- In the wait, with the mutex, about to test the predicate. -/
  | testing
  /-- In the wait, without the mutex. -/
  | blocked
  /-- After the wait. -/
  | woken
  /-- After `queue_.top()`. -/
  | topped (p : Item α)
  /-- After `queue_.pop()`. -/
  | popped (p : Item α)
  /-- In `p->execute_(p)`, without the mutex. -/
  | executing (p : Item α)
  | returned
deriving DecidableEq, Repr

def Worker.holdsLock : Worker α → Bool
  | locking => false
  | testing => true
  | blocked => false
  | woken => true
  | topped _ => true
  | popped _ => true
  | executing _ => false
  | returned => false

/-- The task a worker has taken and not finished. -/
def Worker.task : Worker α → Option (Item α)
  | popped p => some p
  | executing p => some p
  | _ => none

/-- The scheduler and its workers. `posted`, `requests`, `taken` and `finished`
are the history: the items pushed, those pushed by `request_scheduler::post`
with the priority it was given, the items popped and those whose execution has
ended. -/
structure PriorityScheduler (α : Type) where
  mutex : Option Nat
  queue : List (Item α)
  stopped : Bool
  workers : List (Worker α)
  posted : List (Item α)
  requests : List (SchedulerPriority × Item α)
  taken : List (Item α)
  finished : List (Item α)
deriving DecidableEq, Repr

namespace PriorityScheduler

def init : PriorityScheduler α := ⟨none, [], false, [], [], [], [], []⟩

/-- The tasks being executed. -/
def running (s : PriorityScheduler α) : List (Item α) := s.workers.filterMap Worker.task

/-- The steps of the system. The worker `i` is the `i`-th thread that called
`run`; `top` is given the place of the element that the queue returns. -/
inductive Event (α : Type) where
  | run
  | lock (i : Nat)
  | test (i : Nat)
  | leave (i : Nat)
  | top (i k : Nat)
  | pop (i : Nat)
  | unlock (i : Nat)
  | complete (i : Nat)
  | post (executor : ExecutorType) (f : α)
  | request (p : SchedulerPriority) (f : α)
  | stop
deriving DecidableEq, Repr

/-- The worker `i` goes on to `w`. -/
def move (s : PriorityScheduler α) (i : Nat) (w : Worker α) : PriorityScheduler α :=
  { s with workers := s.workers.set i w }

/-- The item that `executor_type::post` allocates. -/
def newItem (s : PriorityScheduler α) (executor : ExecutorType) (f : α) : Item α :=
  ⟨s.posted.length, executor.priority, f⟩

/-- `executor_type::post`. -/
def push (s : PriorityScheduler α) (p : Item α) : PriorityScheduler α :=
  { s with queue := p :: s.queue, posted := s.posted ++ [p] }

/-- One step; `none` when it cannot happen. -/
def step (s : PriorityScheduler α) : Event α → Option (PriorityScheduler α)
  | .run => some { s with workers := s.workers ++ [.locking] }
  | .lock i =>
    match s.mutex, s.workers[i]? with
    | none, some .locking => some { s.move i .testing with mutex := some i }
    | none, some .blocked => some { s.move i .testing with mutex := some i }
    | _, _ => none
  | .test i =>
    match s.workers[i]? with
    | some .testing =>
      if s.stopped || !s.queue.isEmpty then some (s.move i .woken)
      else some { s.move i .blocked with mutex := none }
    | _ => none
  | .leave i =>
    match s.workers[i]? with
    | some .woken => if s.stopped then some { s.move i .returned with mutex := none } else none
    | _ => none
  | .top i k =>
    match s.workers[i]?, s.queue[k]? with
    | some .woken, some p =>
      -- an element maximal under `item_comp`
      if !s.stopped && s.queue.all (fun b => !itemComp p b) then some (s.move i (.topped p))
      else none
    | _, _ => none
  | .pop i =>
    match s.workers[i]? with
    | some (.topped p) =>
      some { s.move i (.popped p) with
        queue := s.queue.eraseP (fun b => b.serial = p.serial), taken := s.taken ++ [p] }
    | _ => none
  | .unlock i =>
    match s.workers[i]? with
    | some (.popped p) => some { s.move i (.executing p) with mutex := none }
    | _ => none
  | .complete i =>
    match s.workers[i]? with
    | some (.executing p) => some { s.move i .locking with finished := s.finished ++ [p] }
    | _ => none
  | .post executor f => if s.mutex = none then some (s.push (s.newItem executor f)) else none
  | .request p f =>
    let item := s.newItem (RequestScheduler.new.executorToDoWork p) f
    if s.mutex = none then some { s.push item with requests := s.requests ++ [(p, item)] }
    else none
  | .stop => if s.mutex = none then some { s with stopped := true } else none

/-! ## What a step can do -/

/-- The steps, with the conditions under which they happen. -/
inductive Transition (s : PriorityScheduler α) : PriorityScheduler α → Prop
  | run : Transition s { s with workers := s.workers ++ [.locking] }
  | lock {i : Nat} {w : Worker α} (free : s.mutex = none) (at_w : s.workers[i]? = some w)
      (idle : w = .locking ∨ w = .blocked) :
      Transition s { s.move i .testing with mutex := some i }
  | proceed {i : Nat} (at_w : s.workers[i]? = some .testing)
      (ready : s.stopped = true ∨ s.queue ≠ []) : Transition s (s.move i .woken)
  | block {i : Nat} (at_w : s.workers[i]? = some .testing) :
      Transition s { s.move i .blocked with mutex := none }
  | leave {i : Nat} (at_w : s.workers[i]? = some .woken) (stopped : s.stopped = true) :
      Transition s { s.move i .returned with mutex := none }
  | top {i : Nat} {p : Item α} (at_w : s.workers[i]? = some .woken) (going : s.stopped = false)
      (queued : p ∈ s.queue) (first : ∀ b ∈ s.queue, b.priority ≤ p.priority) :
      Transition s (s.move i (.topped p))
  | pop {i : Nat} {p : Item α} (at_w : s.workers[i]? = some (.topped p)) :
      Transition s { s.move i (.popped p) with
        queue := s.queue.eraseP (fun b => b.serial = p.serial), taken := s.taken ++ [p] }
  | unlock {i : Nat} {p : Item α} (at_w : s.workers[i]? = some (.popped p)) :
      Transition s { s.move i (.executing p) with mutex := none }
  | complete {i : Nat} {p : Item α} (at_w : s.workers[i]? = some (.executing p)) :
      Transition s { s.move i .locking with finished := s.finished ++ [p] }
  | post {p : Item α} (free : s.mutex = none) (fresh : p.serial = s.posted.length) :
      Transition s (s.push p)
  | request {priority : SchedulerPriority} {p : Item α} (free : s.mutex = none)
      (fresh : p.serial = s.posted.length) (given : p.priority = priority.toInt) :
      Transition s { s.push p with requests := s.requests ++ [(priority, p)] }
  | stop (free : s.mutex = none) : Transition s { s with stopped := true }

theorem transition_of_step {s s' : PriorityScheduler α} {e : Event α} (h : step s e = some s') :
    Transition s s' := by
  cases e with
  | run =>
    obtain rfl := Option.some.inj h
    exact .run
  | lock i =>
    simp only [step] at h
    split at h
    · next free at_w => obtain rfl := Option.some.inj h; exact .lock free at_w (Or.inl rfl)
    · next free at_w => obtain rfl := Option.some.inj h; exact .lock free at_w (Or.inr rfl)
    · cases h
  | test i =>
    simp only [step] at h
    split at h
    · next at_w =>
      split at h
      · next ready =>
        obtain rfl := Option.some.inj h
        exact .proceed at_w (by simpa using ready)
      · obtain rfl := Option.some.inj h
        exact .block at_w
    · cases h
  | leave i =>
    simp only [step] at h
    split at h
    · next at_w =>
      obtain ⟨stopped, h⟩ := Option.ite_none_right_eq_some.mp h
      obtain rfl := Option.some.inj h
      exact .leave at_w stopped
    · cases h
  | top i k =>
    simp only [step] at h
    split at h
    · next p at_w queued =>
      obtain ⟨chosen, h⟩ := Option.ite_none_right_eq_some.mp h
      obtain rfl := Option.some.inj h
      simp only [itemComp, Bool.and_eq_true, Bool.not_eq_true', List.all_eq_true,
        decide_eq_false_iff_not, Int.not_lt] at chosen
      exact .top at_w chosen.1 (List.mem_of_getElem? queued) chosen.2
    · cases h
  | pop i =>
    simp only [step] at h
    split at h
    · next p at_w => obtain rfl := Option.some.inj h; exact .pop at_w
    · cases h
  | unlock i =>
    simp only [step] at h
    split at h
    · next p at_w => obtain rfl := Option.some.inj h; exact .unlock at_w
    · cases h
  | complete i =>
    simp only [step] at h
    split at h
    · next p at_w => obtain rfl := Option.some.inj h; exact .complete at_w
    · cases h
  | post executor f =>
    obtain ⟨free, h⟩ := Option.ite_none_right_eq_some.mp h
    obtain rfl := Option.some.inj h
    exact .post free rfl
  | request p f =>
    obtain ⟨free, h⟩ := Option.ite_none_right_eq_some.mp h
    obtain rfl := Option.some.inj h
    exact .request free rfl (RequestScheduler.priority_executorToDoWork p)
  | stop =>
    obtain ⟨free, h⟩ := Option.ite_none_right_eq_some.mp h
    obtain rfl := Option.some.inj h
    exact .stop free

/-! ## The mutex -/

/-- What a worker has read of the queue and of the flag still holds. -/
def Reads (s : PriorityScheduler α) : Worker α → Prop
  | .woken => s.stopped = true ∨ s.queue ≠ []
  | .topped p => s.stopped = false ∧ p ∈ s.queue ∧ ∀ b ∈ s.queue, b.priority ≤ p.priority
  | _ => True

theorem reads_of_not_holdsLock {s : PriorityScheduler α} {w : Worker α}
    (h : w.holdsLock = false) : Reads s w := by
  cases w with
  | locking | blocked | executing _ | returned => trivial
  | testing | woken | topped _ | popped _ => cases h

/-- The mutex is held by the worker that is in a section of it, and protects what
that worker has read. -/
structure Guarded (s : PriorityScheduler α) : Prop where
  holder : ∀ (i : Nat), s.mutex = some i ↔
    ∃ w, s.workers[i]? = some w ∧ w.holdsLock = true
  reads : ∀ (i : Nat) (w : Worker α), s.workers[i]? = some w → Reads s w

theorem guarded_init : Guarded (init : PriorityScheduler α) where
  holder := by simp [init]
  reads := by simp [init]

theorem getElem?_move {s : PriorityScheduler α} {i : Nat} {w : Worker α}
    (h : s.workers[i]? = some w) (w' : Worker α) (j : Nat) :
    (s.move i w').workers[j]? = if j = i then some w' else s.workers[j]? := by
  obtain ⟨hi, -⟩ := List.getElem?_eq_some_iff.mp h
  rw [move, List.getElem?_set]
  by_cases hj : i = j
  · rw [if_pos hj, if_pos hj.symm, if_pos hi]
  · rw [if_neg hj, if_neg (Ne.symm hj)]

theorem Guarded.not_holdsLock {s : PriorityScheduler α} (h : Guarded s) {j : Nat}
    (hj : s.mutex ≠ some j) {w : Worker α} (hw : s.workers[j]? = some w) :
    w.holdsLock = false := by
  cases hlock : w.holdsLock with
  | false => rfl
  | true => exact absurd ((h.holder j).mpr ⟨w, hw, hlock⟩) hj

theorem Guarded.mutex_eq {s : PriorityScheduler α} (h : Guarded s) {i : Nat} {w : Worker α}
    (hw : s.workers[i]? = some w) (hlock : w.holdsLock = true) : s.mutex = some i :=
  (h.holder i).mpr ⟨w, hw, hlock⟩

/-- A worker that holds the mutex, or takes it when it is free, moves on. The
others are outside their sections, so whatever it changes is not theirs. -/
theorem Guarded.move {s s' : PriorityScheduler α} (h : Guarded s) {i : Nat} {w w' : Worker α}
    (at_w : s.workers[i]? = some w) (mine : s.mutex = none ∨ s.mutex = some i)
    (hworkers : s'.workers = (s.move i w').workers)
    (hmutex : s'.mutex = if w'.holdsLock then some i else none) (hreads : Reads s' w') :
    Guarded s' := by
  have hother : ∀ j, j ≠ i → s.mutex ≠ some j := by
    intro j hj hm
    cases mine with
    | inl free => rw [free] at hm; cases hm
    | inr held => exact hj (Option.some.inj (hm.symm.trans held))
  have hmoved : ∀ j, s'.workers[j]? = if j = i then some w' else s.workers[j]? := by
    intro j
    rw [hworkers, getElem?_move at_w]
  constructor
  · intro j
    rw [hmoved, hmutex]
    by_cases hj : j = i
    · rw [if_pos hj, hj]
      cases hlock : w'.holdsLock <;> simp [hlock]
    · rw [if_neg hj, ← h.holder j]
      refine iff_of_false (fun hm => ?_) (hother j hj)
      cases hlock : w'.holdsLock with
      | false => simp [hlock] at hm
      | true => exact hj (Option.some.inj (by simpa [hlock] using hm.symm))
  · intro j v hv
    rw [hmoved] at hv
    by_cases hj : j = i
    · subst hj
      rw [if_pos rfl] at hv
      obtain rfl := Option.some.inj hv
      exact hreads
    · rw [if_neg hj] at hv
      exact reads_of_not_holdsLock (h.not_holdsLock (hother j hj) hv)

/-- A worker moves without touching the mutex, the queue and the flag. -/
theorem Guarded.outside {s s' : PriorityScheduler α} (h : Guarded s) {i : Nat} {w w' : Worker α}
    (at_w : s.workers[i]? = some w) (hw : w.holdsLock = false) (hw' : w'.holdsLock = false)
    (hworkers : s'.workers = (s.move i w').workers) (hmutex : s'.mutex = s.mutex)
    (hqueue : s'.queue = s.queue) (hstopped : s'.stopped = s.stopped) : Guarded s' := by
  have hmoved : ∀ j, s'.workers[j]? = if j = i then some w' else s.workers[j]? := by
    intro j
    rw [hworkers, getElem?_move at_w]
  constructor
  · intro j
    rw [hmoved, hmutex, h.holder j]
    by_cases hj : j = i
    · rw [if_pos hj, hj, at_w]
      simp [hw, hw']
    · rw [if_neg hj]
  · intro j v hv
    rw [hmoved] at hv
    by_cases hj : j = i
    · rw [if_pos hj] at hv
      obtain rfl := Option.some.inj hv
      exact reads_of_not_holdsLock hw'
    · rw [if_neg hj] at hv
      have hreads := h.reads j v hv
      cases v with
      | woken => simpa only [Reads, hqueue, hstopped] using hreads
      | topped p => simpa only [Reads, hqueue, hstopped] using hreads
      | locking | testing | blocked | popped _ | executing _ | returned => trivial

/-- A new worker comes, outside its section. -/
theorem Guarded.enter {s : PriorityScheduler α} (h : Guarded s) :
    Guarded { s with workers := s.workers ++ [.locking] } := by
  have hold : ∀ (j : Nat) (v : Worker α), (s.workers ++ [Worker.locking])[j]? = some v →
      s.workers[j]? = some v ∨ v = .locking := by
    intro j v hv
    rw [List.getElem?_append] at hv
    split at hv
    · exact Or.inl hv
    · exact Or.inr (by simpa using List.mem_of_getElem? hv)
  constructor
  · intro j
    show s.mutex = some j ↔ ∃ v, (s.workers ++ [Worker.locking])[j]? = some v ∧ v.holdsLock = true
    rw [h.holder j]
    constructor
    · rintro ⟨v, hv, hlock⟩
      obtain ⟨hj, -⟩ := List.getElem?_eq_some_iff.mp hv
      exact ⟨v, by rwa [List.getElem?_append_left hj], hlock⟩
    · rintro ⟨v, hv, hlock⟩
      cases hold j v hv with
      | inl old => exact ⟨v, old, hlock⟩
      | inr fresh => rw [fresh] at hlock; cases hlock
  · intro j v hv
    cases hold j v hv with
    | inl old => exact h.reads j v old
    | inr fresh => rw [fresh]; trivial

/-- A change made while the mutex is free. -/
theorem Guarded.free {s s' : PriorityScheduler α} (h : Guarded s) (free : s.mutex = none)
    (hworkers : s'.workers = s.workers) (hmutex : s'.mutex = s.mutex) : Guarded s' := by
  constructor
  · intro j
    rw [hworkers, hmutex]
    exact h.holder j
  · intro j v hv
    rw [hworkers] at hv
    exact reads_of_not_holdsLock (h.not_holdsLock (by rw [free]; simp) hv)

theorem Guarded.step {s s' : PriorityScheduler α} (h : Guarded s) (ht : Transition s s') :
    Guarded s' := by
  cases ht with
  | run => exact h.enter
  | lock free at_w idle => exact h.move at_w (Or.inl free) rfl rfl trivial
  | proceed at_w ready =>
    have held := h.mutex_eq at_w rfl
    exact h.move at_w (Or.inr held) rfl held ready
  | block at_w => exact h.move at_w (Or.inr (h.mutex_eq at_w rfl)) rfl rfl trivial
  | leave at_w stopped => exact h.move at_w (Or.inr (h.mutex_eq at_w rfl)) rfl rfl trivial
  | top at_w going queued first =>
    have held := h.mutex_eq at_w rfl
    exact h.move at_w (Or.inr held) rfl held ⟨going, queued, first⟩
  | pop at_w =>
    have held := h.mutex_eq at_w rfl
    exact h.move at_w (Or.inr held) rfl held trivial
  | unlock at_w => exact h.move at_w (Or.inr (h.mutex_eq at_w rfl)) rfl rfl trivial
  | complete at_w => exact h.outside at_w rfl rfl rfl rfl rfl rfl
  | post free fresh => exact h.free free rfl rfl
  | request free fresh given => exact h.free free rfl rfl
  | stop free => exact h.free free rfl rfl

/-! ## Accounting for the tasks -/

theorem filterMap_set_perm {β : Type} (f : Worker α → Option β) {ws : List (Worker α)} {i : Nat}
    {w : Worker α} (h : ws[i]? = some w) (w' : Worker α) :
    ((f w).toList ++ (ws.set i w').filterMap f).Perm ((f w').toList ++ ws.filterMap f) := by
  induction ws generalizing i with
  | nil => simp at h
  | cons v ws ih =>
    have hcons : ∀ u : Worker α, ∀ us, (u :: us).filterMap f = (f u).toList ++ us.filterMap f := by
      intro u us
      cases hu : f u <;> simp [hu]
    cases i with
    | zero =>
      obtain rfl : v = w := by simpa using h
      rw [List.set_cons_zero, hcons, hcons, ← List.append_assoc, ← List.append_assoc]
      exact List.perm_append_comm.append_right _
    | succ i =>
      have hrest := ih (by simpa using h)
      rw [List.set_cons_succ, hcons, hcons, ← List.append_assoc, ← List.append_assoc]
      refine (List.perm_append_comm.append_right _).trans ?_
      rw [List.append_assoc]
      refine (hrest.append_left _).trans ?_
      rw [← List.append_assoc]
      exact List.perm_append_comm.append_right _

/-- A worker that neither takes a task nor finishes one leaves the tasks being
executed as they are. -/
theorem running_move {s : PriorityScheduler α} {i : Nat} {w w' : Worker α}
    (at_w : s.workers[i]? = some w) (same : w'.task = w.task) :
    (s.move i w').running.Perm s.running := by
  have h := filterMap_set_perm Worker.task at_w w'
  rw [same] at h
  exact (List.perm_append_left_iff _).mp h

/-- Every posted task is queued, being executed or finished, and every task taken
from the queue is being executed or finished. -/
structure Accounted (s : PriorityScheduler α) : Prop where
  places : s.posted.Perm (s.queue ++ (s.running ++ s.finished))
  executed : s.taken.Perm (s.running ++ s.finished)
  serials : s.posted.map Item.serial = List.range s.posted.length
  priorities : ∀ r ∈ s.requests, r.2 ∈ s.posted ∧ r.2.priority = r.1.toInt

theorem accounted_init : Accounted (init : PriorityScheduler α) where
  places := by simp [init, running]
  executed := by simp [init, running]
  serials := rfl
  priorities := by simp [init]

theorem Accounted.nodup {s : PriorityScheduler α} (h : Accounted s) :
    (s.posted.map Item.serial).Nodup := by
  rw [h.serials]
  exact List.nodup_range

theorem Accounted.eq_of_serial {s : PriorityScheduler α} (h : Accounted s) {a b : Item α}
    (ha : a ∈ s.posted) (hb : b ∈ s.posted) (hserial : a.serial = b.serial) : a = b :=
  List.inj_on_of_nodup_map h.nodup ha hb hserial

theorem Accounted.posted_of_queued {s : PriorityScheduler α} (h : Accounted s) {a : Item α}
    (ha : a ∈ s.queue) : a ∈ s.posted :=
  h.places.mem_iff.mpr (List.mem_append_left _ ha)

/-- What `pop` removes is the element that `top` returned. -/
theorem Accounted.pop_perm {s : PriorityScheduler α} (h : Accounted s) {p : Item α}
    (hp : p ∈ s.queue) : s.queue.Perm (p :: s.queue.eraseP (fun b => b.serial = p.serial)) := by
  have hself : decide (p.serial = p.serial) = true := decide_eq_true rfl
  obtain ⟨a, l₁, l₂, -, hserial, hqueue, herase⟩ :=
    @List.exists_of_eraseP _ (fun b => decide (b.serial = p.serial)) _ _ hp hself
  have ha : a ∈ s.queue := by rw [hqueue]; simp
  obtain rfl : a = p := h.eq_of_serial (h.posted_of_queued ha) (h.posted_of_queued hp)
    (of_decide_eq_true hserial)
  rw [herase]
  exact (List.Perm.of_eq hqueue).trans List.perm_middle

/-- A step that changes neither the queue nor the history, and no task. -/
theorem Accounted.same {s s' : PriorityScheduler α} (h : Accounted s) (hqueue : s'.queue = s.queue)
    (hrunning : s'.running.Perm s.running) (hfinished : s'.finished = s.finished)
    (htaken : s'.taken = s.taken) (hposted : s'.posted = s.posted)
    (hrequests : s'.requests = s.requests) : Accounted s' where
  places := by
    rw [hposted, hqueue, hfinished]
    exact h.places.trans ((hrunning.symm.append_right _).append_left _)
  executed := by
    rw [htaken, hfinished]
    exact h.executed.trans (hrunning.symm.append_right _)
  serials := by rw [hposted]; exact h.serials
  priorities := by rw [hposted, hrequests]; exact h.priorities

/-- The places and serial numbers after a task is pushed. -/
theorem Accounted.push {s s' : PriorityScheduler α} (h : Accounted s) {p : Item α}
    (fresh : p.serial = s.posted.length) (hqueue : s'.queue = p :: s.queue)
    (hposted : s'.posted = s.posted ++ [p]) (hrunning : s'.running = s.running)
    (hfinished : s'.finished = s.finished) (htaken : s'.taken = s.taken)
    (hrequests : ∀ r ∈ s'.requests, r ∈ s.requests ∨ r.2 = p ∧ p.priority = r.1.toInt) :
    Accounted s' where
  places := by
    rw [hposted, hqueue, hrunning, hfinished]
    exact (List.perm_append_singleton p s.posted).trans (h.places.cons p)
  executed := by
    rw [htaken, hrunning, hfinished]
    exact h.executed
  serials := by
    rw [hposted, List.map_append, h.serials, List.length_append, List.map_singleton, fresh]
    exact List.range_succ.symm
  priorities := by
    intro r hr
    rw [hposted]
    cases hrequests r hr with
    | inl old =>
      obtain ⟨hmem, hpri⟩ := h.priorities r old
      exact ⟨List.mem_append_left _ hmem, hpri⟩
    | inr new =>
      obtain ⟨rfl, hpri⟩ := new
      exact ⟨List.mem_append_right _ List.mem_cons_self, hpri⟩

theorem Accounted.step {s s' : PriorityScheduler α} (h : Accounted s) (hg : Guarded s)
    (ht : Transition s s') : Accounted s' := by
  cases ht with
  | run =>
    have hrunning : (s.workers ++ [Worker.locking]).filterMap Worker.task = s.running := by
      rw [List.filterMap_append]
      exact List.append_nil _
    exact h.same rfl (List.Perm.of_eq hrunning) rfl rfl rfl rfl
  | @lock i w free at_w idle =>
    have same : Worker.task .testing = w.task := by
      cases idle with
      | inl locking => rw [locking]; rfl
      | inr blocked => rw [blocked]; rfl
    exact h.same rfl (running_move at_w same) rfl rfl rfl rfl
  | proceed at_w ready => exact h.same rfl (running_move at_w rfl) rfl rfl rfl rfl
  | block at_w => exact h.same rfl (running_move at_w rfl) rfl rfl rfl rfl
  | leave at_w stopped => exact h.same rfl (running_move at_w rfl) rfl rfl rfl rfl
  | top at_w going queued first => exact h.same rfl (running_move at_w rfl) rfl rfl rfl rfl
  | @pop i p at_w =>
    obtain ⟨-, queued, -⟩ := hg.reads i _ at_w
    have hrunning : (s.move i (.popped p)).running.Perm (p :: s.running) :=
      filterMap_set_perm Worker.task at_w (.popped p)
    constructor
    · refine h.places.trans ?_
      refine ((h.pop_perm queued).append_right _).trans ?_
      refine List.perm_middle.symm.trans ?_
      exact ((hrunning.symm.append_right s.finished).append_left _)
    · refine (List.perm_append_singleton p s.taken).trans ?_
      exact (h.executed.cons p).trans (hrunning.symm.append_right s.finished)
    · exact h.serials
    · exact h.priorities
  | unlock at_w => exact h.same rfl (running_move at_w rfl) rfl rfl rfl rfl
  | @complete i p at_w =>
    have hrunning : (p :: (s.move i .locking).running).Perm s.running :=
      filterMap_set_perm Worker.task at_w .locking
    have hmoved : (s.running ++ s.finished).Perm
        ((s.move i .locking).running ++ (s.finished ++ [p])) := by
      refine (hrunning.symm.append_right _).trans ?_
      rw [← List.append_assoc]
      exact (List.perm_append_singleton p _).symm
    exact ⟨h.places.trans (hmoved.append_left _), h.executed.trans hmoved, h.serials, h.priorities⟩
  | post free fresh => exact h.push fresh rfl rfl rfl rfl rfl fun r hr => Or.inl hr
  | @request priority p free fresh given =>
    refine h.push fresh rfl rfl rfl rfl rfl fun r hr => ?_
    cases List.mem_append.mp hr with
    | inl old => exact Or.inl old
    | inr new =>
      rw [List.mem_singleton.mp new]
      exact Or.inr ⟨rfl, given⟩
  | stop free => exact h.same rfl (List.Perm.refl _) rfl rfl rfl rfl

/-! ## Whole runs -/

theorem invariants_of_reach {s : PriorityScheduler α} (h : Reach step anyStep init s) :
    Guarded s ∧ Accounted s := by
  refine h.invariant (I := fun s => Guarded s ∧ Accounted s) ⟨guarded_init, accounted_init⟩ ?_
  rintro s e s' ⟨hg, ha⟩ - hstep
  have ht := transition_of_step hstep
  exact ⟨hg.step ht, ha.step hg ht⟩

/-- A worker that leaves the wait finds a task to take, unless it has to return. -/
theorem exists_top {s : PriorityScheduler α} (h : Guarded s) {i : Nat}
    (at_w : s.workers[i]? = some .woken) (going : s.stopped = false) :
    ∃ k s', step s (.top i k) = some s' := by
  have hne : s.queue ≠ [] := (h.reads i _ at_w).resolve_left (by simp [going])
  obtain ⟨p, hp⟩ := Option.ne_none_iff_exists'.mp
    (mt (List.argmax_eq_none (f := Item.priority)).mp hne)
  obtain ⟨k, hk⟩ := List.mem_iff_getElem?.mp (List.argmax_mem hp)
  have hmax : s.queue.all (fun b => !itemComp p b) = true := by
    rw [List.all_eq_true]
    intro b hb
    simpa [itemComp] using List.le_of_mem_argmax hb hp
  exact ⟨k, _, by simp only [step, at_w, hk, going, hmax]; rfl⟩

/-- A task is in exactly one of the three places. -/
def InOnePlace (s : PriorityScheduler α) (p : Item α) : Prop :=
  (p ∈ s.queue ∧ p ∉ s.running ∧ p ∉ s.finished) ∨
  (p ∉ s.queue ∧ p ∈ s.running ∧ p ∉ s.finished) ∨
  (p ∉ s.queue ∧ p ∉ s.running ∧ p ∈ s.finished)

theorem Accounted.inOnePlace {s : PriorityScheduler α} (h : Accounted s) {p : Item α}
    (hp : p ∈ s.posted) : InOnePlace s p := by
  have hnodup : (s.queue ++ (s.running ++ s.finished)).Nodup :=
    h.places.nodup_iff.mp (List.Nodup.of_map _ h.nodup)
  obtain ⟨-, htaken, hqueue⟩ := List.nodup_append.mp hnodup
  obtain ⟨-, -, hrunning⟩ := List.nodup_append.mp htaken
  have hmem := h.places.mem_iff.mp hp
  simp only [List.mem_append] at hmem hqueue
  rcases hmem with queued | running | finished
  · exact Or.inl ⟨queued, fun hr => hqueue p queued p (Or.inl hr) rfl,
      fun hf => hqueue p queued p (Or.inr hf) rfl⟩
  · exact Or.inr (Or.inl ⟨fun hq => hqueue p hq p (Or.inl running) rfl, running,
      fun hf => hrunning p running p hf rfl⟩)
  · exact Or.inr (Or.inr ⟨fun hq => hqueue p hq p (Or.inr finished) rfl,
      fun hr => hrunning p hr p finished rfl, finished⟩)

/-- A step takes no task, or takes a first one while the scheduler is not stopped. -/
theorem taken_step {s s' : PriorityScheduler α} (hg : Guarded s) (ha : Accounted s)
    (ht : Transition s s') :
    s'.taken = s.taken ∨ ∃ p ∈ s.queue, s.stopped = false ∧ s'.taken = s.taken ++ [p] ∧
      s.queue.Perm (p :: s'.queue) ∧ ∀ b ∈ s'.queue, b.priority ≤ p.priority := by
  cases ht with
  | @pop i p at_w =>
    obtain ⟨going, queued, first⟩ := hg.reads i _ at_w
    have hperm := ha.pop_perm queued
    exact Or.inr ⟨p, queued, going, rfl, hperm,
      fun b hb => first b (hperm.mem_iff.mpr (List.mem_cons_of_mem _ hb))⟩
  | run | lock _ _ _ | proceed _ _ | block _ | leave _ _ | top _ _ _ _ | unlock _ | complete _
  | post _ _ | request _ _ _ | stop _ => exact Or.inl rfl

theorem stopped_step {s s' : PriorityScheduler α} (h : s.stopped = true) (ht : Transition s s') :
    s'.stopped = true := by
  cases ht with
  | stop _ => rfl
  | run | lock _ _ _ | proceed _ _ | block _ | leave _ _ | top _ _ _ _ | pop _ | unlock _
  | complete _ | post _ _ | request _ _ _ => exact h

/-- Nothing is taken after `stop`. -/
theorem taken_after_stop {s s' : PriorityScheduler α} (hs : Reach step anyStep init s)
    (stopped : s.stopped = true) (h : Reach step anyStep s s') : s'.taken = s.taken := by
  have hkeep : (Guarded s' ∧ Accounted s') ∧ s'.stopped = true ∧ s'.taken = s.taken := by
    refine h.invariant (I := fun t => (Guarded t ∧ Accounted t) ∧ t.stopped = true ∧
      t.taken = s.taken) ⟨invariants_of_reach hs, stopped, rfl⟩ ?_
    rintro t e t' ⟨⟨hg, ha⟩, hstop, htaken⟩ - hstep
    have ht := transition_of_step hstep
    refine ⟨⟨hg.step ht, ha.step hg ht⟩, stopped_step hstop ht, ?_⟩
    cases taken_step hg ha ht with
    | inl same => rw [same, htaken]
    | inr took =>
      obtain ⟨p, -, going, -⟩ := took
      rw [hstop] at going
      cases going
  exact hkeep.2.2

/-- In every run: every posted task is in exactly one place, none is taken twice,
what is taken comes first among what is queued, nothing is taken after `stop`,
and a request has the number of the priority it was posted with. -/
theorem scheduler_correct {s : PriorityScheduler α} (h : Reach step anyStep init s) :
    s.posted.Perm (s.queue ++ (s.running ++ s.finished)) ∧
    (∀ p ∈ s.posted, InOnePlace s p) ∧
    (s.taken.map Item.serial).Nodup ∧
    (∀ e s', step s e = some s' →
      s'.taken = s.taken ∨ ∃ p ∈ s.queue, s.stopped = false ∧ s'.taken = s.taken ++ [p] ∧
        s.queue.Perm (p :: s'.queue) ∧ ∀ b ∈ s'.queue, b.priority ≤ p.priority) ∧
    (s.stopped = true → ∀ s', Reach step anyStep s s' → s'.taken = s.taken) ∧
    (∀ r ∈ s.requests, r.2 ∈ s.posted ∧ r.2.priority = r.1.toInt) := by
  obtain ⟨hg, ha⟩ := invariants_of_reach h
  refine ⟨ha.places, fun p hp => ha.inOnePlace hp, ?_,
    fun e s' hstep => taken_step hg ha (transition_of_step hstep),
    fun stopped s' hs' => taken_after_stop h stopped hs', ha.priorities⟩
  have hnodup := (ha.places.map Item.serial).nodup_iff.mp ha.nodup
  rw [List.map_append, List.nodup_append] at hnodup
  exact (ha.executed.map Item.serial).nodup_iff.mpr hnodup.2.1

/-- Two workers: one takes the request of high priority, `stop` comes while it
executes it, and the other request stays in the queue. -/
theorem scheduler_correct_two_workers :
    ∃ s : PriorityScheduler Nat, Reach step anyStep init s ∧
      s.taken = [⟨1, 3, 20⟩] ∧ s.queue = [⟨0, 1, 10⟩] ∧
      (∀ p ∈ s.posted, InOnePlace s p) ∧
      ∀ s', Reach step anyStep s s' → s'.taken = [⟨1, 3, 20⟩] := by
  obtain ⟨s, hreach, htaken, hqueue, hstopped⟩ := exists_reach_of_exec step init
    (fun s : PriorityScheduler Nat =>
      s.taken = [⟨1, 3, 20⟩] ∧ s.queue = [⟨0, 1, 10⟩] ∧ s.stopped = true)
    [.run, .run, .lock 0, .test 0, .request .low 10, .request .high 20, .lock 1, .test 1, .top 1 0,
      .pop 1, .unlock 1, .stop, .complete 1, .lock 0, .test 0, .leave 0] (by decide)
  obtain ⟨-, hone, -, -, hafter, -⟩ := scheduler_correct hreach
  exact ⟨s, hreach, htaken, hqueue, hone, fun s' hs' => (hafter hstopped s' hs').trans htaken⟩

end PriorityScheduler

end FspServer
