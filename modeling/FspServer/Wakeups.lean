import FspServer.Scheduler
import FspServer.Lib.Work
import Mathlib.Algebra.Order.BigOperators.Group.Finset
import Mathlib.Data.Finset.Card
import Mathlib.Data.Finset.Range

/-!
# Waking the workers

`condition_` of `priority_scheduler`: a worker in `condition_.wait` stays there until `notify_one`
of a post or `notify_all` of `stop` wakes it, or it wakes by itself, and then locks the mutex
again (`NotifyingScheduler`). Its runs are runs of the scheduler in which a blocked worker may
go on at any time (`reach_scheduler`), so what was proved of that one holds here too.

* `no_lost_wakeup`: while a worker sleeps, at least as many workers are on their way to the
  queue as tasks are queued, and after `stop` none sleeps.
* `tasks_executed`: the workers cannot go on forever by themselves, and when nothing is left for
  them to do, every posted task was executed, or the scheduler was stopped and all have returned.
-/

namespace FspServer

open Runs

variable {α : Type}

namespace Worker

/-- In the wait, and nothing has woken it. -/
def asleep (notified : Bool) : Worker α → Bool
  | blocked => !notified
  | _ => false

/-- On its way to the queue, which it reads before it waits again. -/
def coming (notified : Bool) : Worker α → Bool
  | locking | testing | woken | topped _ => true
  | blocked => notified
  | popped _ | executing _ | returned => false

/-- How many statements of `run` are left until it waits or takes a task. -/
def left (notified : Bool) : Worker α → Nat
  | popped _ => 6
  | executing _ => 5
  | locking => 4
  | blocked => if notified then 4 else 0
  | testing => 3
  | woken => 2
  | topped _ => 1
  | returned => 0

theorem coming_eq_false_of_asleep {b : Bool} {w : Worker α} (h : w.asleep b = true) :
    w.coming b = false := by
  cases w with
  | blocked => simpa [asleep, coming] using h
  | locking | testing | woken | topped _ | popped _ | executing _ | returned => cases h

end Worker

/-- A scheduler and, of the workers that are blocked in the wait, those that were woken and have
not locked the mutex since. -/
structure NotifyingScheduler (α : Type) where
  scheduler : PriorityScheduler α
  notified : Finset Nat
deriving DecidableEq

/-- What a post is given to execute. -/
def PriorityScheduler.Event.posts : PriorityScheduler.Event α → Option α
  | .post _ f | .request _ f => some f
  | _ => none

/-- The steps of a worker that executes no task. -/
def PriorityScheduler.Event.Schedules : PriorityScheduler.Event α → Prop
  | .lock _ | .test _ | .leave _ | .top .. | .pop _ | .unlock _ => True
  | _ => False

namespace NotifyingScheduler

def init : NotifyingScheduler α := ⟨PriorityScheduler.init, ∅⟩

/-- The workers with a property, which may depend on whether they were woken. -/
def those (s : NotifyingScheduler α) (p : Bool → Worker α → Bool) : Finset Nat :=
  (Finset.range s.scheduler.workers.length).filter fun i =>
    s.scheduler.workers[i]?.any (p (i ∈ s.notified)) = true

def sleepers (s : NotifyingScheduler α) : Finset Nat := s.those Worker.asleep

def coming (s : NotifyingScheduler α) : Finset Nat := s.those Worker.coming

/-- Whom `notify_one` wakes: one of the sleepers, if there is one. -/
def NotifiesOne (s : NotifyingScheduler α) : Option Nat → Prop
  | some i => i ∈ s.sleepers
  | none => s.sleepers = ∅

instance (s : NotifyingScheduler α) (woken : Option Nat) : Decidable (s.NotifiesOne woken) :=
  match woken with
  | some _ => inferInstanceAs (Decidable (_ ∈ _))
  | none => inferInstanceAs (Decidable (_ = _))

/-- The steps of the scheduler, where a post is given the worker that it wakes, and a worker
that wakes by itself. -/
inductive Event (α : Type) where
  | act (e : PriorityScheduler.Event α) (woken : Option Nat)
  | wake (i : Nat)
deriving DecidableEq, Repr

/-- The workers that were woken, after a step of the scheduler that can be made: a worker in the
wait locks the mutex only if it was woken, a post wakes one and `stop` wakes all. -/
def notify (s : NotifyingScheduler α) (woken : Option Nat) :
    PriorityScheduler.Event α → Option (Finset Nat)
  | .lock i => if i ∈ s.sleepers then none else some (s.notified.erase i)
  | .post .. | .request .. =>
    if s.NotifiesOne woken then some (s.notified ∪ woken.toFinset) else none
  | .stop => some (s.notified ∪ s.sleepers)
  | .run | .test _ | .leave _ | .top .. | .pop _ | .unlock _ | .complete _ => some s.notified

def step (s : NotifyingScheduler α) : Event α → Option (NotifyingScheduler α)
  | .act e woken => (s.notify woken e).bind fun notified =>
    (s.scheduler.step e).map fun scheduler => ⟨scheduler, notified⟩
  | .wake i =>
    if i ∈ s.sleepers then some { s with notified := insert i s.notified } else none

/-- The steps of the workers in `run`. -/
def Event.Works : Event α → Prop
  | .act (.complete _) _ => True
  | .act e _ => e.Schedules
  | .wake _ => False

/-- Nothing is left for the workers to do. -/
def Rests (s : NotifyingScheduler α) : Prop := ∀ e : Event α, e.Works → s.step e = none

theorem mem_those {s : NotifyingScheduler α} {p : Bool → Worker α → Bool} {i : Nat} :
    i ∈ s.those p ↔
      ∃ w, s.scheduler.workers[i]? = some w ∧ p (decide (i ∈ s.notified)) w = true := by
  rw [those, Finset.mem_filter, Finset.mem_range, Option.any_eq_true]
  refine and_iff_right_of_imp ?_
  rintro ⟨w, hw, -⟩
  exact (List.getElem?_eq_some_iff.mp hw).1

theorem mem_those_of {s : NotifyingScheduler α} {p : Bool → Worker α → Bool} {i : Nat}
    {w : Worker α} (at_w : s.scheduler.workers[i]? = some w) :
    i ∈ s.those p ↔ p (decide (i ∈ s.notified)) w = true := by
  rw [mem_those, at_w]
  simp

/-! ## The scheduler without notifications -/

theorem scheduler_of_step {s s' : NotifyingScheduler α} {e : Event α} (h : s.step e = some s') :
    s'.scheduler = s.scheduler ∨ ∃ a, s.scheduler.step a = some s'.scheduler := by
  cases e with
  | act a woken =>
    obtain ⟨notified, -, h⟩ := Option.bind_eq_some_iff.mp h
    obtain ⟨t, ht, rfl⟩ := Option.map_eq_some_iff.mp h
    exact .inr ⟨a, ht⟩
  | wake i =>
    obtain ⟨-, h⟩ := Option.ite_none_right_eq_some.mp h
    obtain rfl := Option.some.inj h
    exact .inl rfl

/-- A run is a run of the scheduler in which a blocked worker may go on at any time. -/
theorem reach_scheduler {s : NotifyingScheduler α} (h : Reach step anyStep init s) :
    Reach PriorityScheduler.step anyStep PriorityScheduler.init s.scheduler := by
  refine h.invariant (I := fun s => Reach _ anyStep PriorityScheduler.init s.scheduler)
    .init ?_
  intro s e s' hold _ hstep
  rcases scheduler_of_step hstep with hsame | ⟨a, hstep⟩
  · rw [hsame]
    exact hold
  · exact hold.next trivial hstep

/-! ## What a step can do -/

/-- A worker goes on. -/
structure Moves (s s' : NotifyingScheduler α) (i : Nat) (w w' : Worker α) : Prop where
  at_w : s.scheduler.workers[i]? = some w
  workers : s'.scheduler.workers = (s.scheduler.move i w').workers
  stopped : s'.scheduler.stopped = s.scheduler.stopped
  notified : s'.notified = s.notified.erase i

/-- The workers, the queue and the flag after a step. -/
inductive Transition (s s' : NotifyingScheduler α) : Event α → Prop
  | run {woken : Option Nat} (workers : s'.scheduler.workers = s.scheduler.workers ++ [.locking])
      (queue : s'.scheduler.queue = s.scheduler.queue)
      (stopped : s'.scheduler.stopped = s.scheduler.stopped) (notified : s'.notified = s.notified) :
      Transition s s' (.act .run woken)
  | lock {woken : Option Nat} {i : Nat} {w : Worker α} (moves : Moves s s' i w .testing)
      (idle : w = .locking ∨ w = .blocked ∧ i ∈ s.notified)
      (queue : s'.scheduler.queue = s.scheduler.queue) : Transition s s' (.act (.lock i) woken)
  | proceed {woken : Option Nat} {i : Nat} (moves : Moves s s' i .testing .woken)
      (queue : s'.scheduler.queue = s.scheduler.queue) : Transition s s' (.act (.test i) woken)
  | block {woken : Option Nat} {i : Nat} (moves : Moves s s' i .testing .blocked)
      (going : s.scheduler.stopped = false) (empty : s.scheduler.queue = [])
      (queue : s'.scheduler.queue = s.scheduler.queue) : Transition s s' (.act (.test i) woken)
  | leave {woken : Option Nat} {i : Nat} (moves : Moves s s' i .woken .returned)
      (stopped : s.scheduler.stopped = true)
      (queue : s'.scheduler.queue = s.scheduler.queue) : Transition s s' (.act (.leave i) woken)
  | top {woken : Option Nat} {i k : Nat} {p : Item α} (moves : Moves s s' i .woken (.topped p))
      (queue : s'.scheduler.queue = s.scheduler.queue) : Transition s s' (.act (.top i k) woken)
  | pop {woken : Option Nat} {i : Nat} {p : Item α} (moves : Moves s s' i (.topped p) (.popped p))
      (queued : p ∈ s.scheduler.queue)
      (queue : s'.scheduler.queue = s.scheduler.queue.eraseP fun b => b.serial = p.serial) :
      Transition s s' (.act (.pop i) woken)
  | unlock {woken : Option Nat} {i : Nat} {p : Item α}
      (moves : Moves s s' i (.popped p) (.executing p))
      (queue : s'.scheduler.queue = s.scheduler.queue) : Transition s s' (.act (.unlock i) woken)
  | complete {woken : Option Nat} {i : Nat} {p : Item α}
      (moves : Moves s s' i (.executing p) .locking)
      (queue : s'.scheduler.queue = s.scheduler.queue) : Transition s s' (.act (.complete i) woken)
  | post {e : PriorityScheduler.Event α} {woken : Option Nat} {p : Item α}
      (posts : e.posts = some p.function) (one : s.NotifiesOne woken)
      (workers : s'.scheduler.workers = s.scheduler.workers)
      (queue : s'.scheduler.queue = p :: s.scheduler.queue)
      (stopped : s'.scheduler.stopped = s.scheduler.stopped)
      (notified : s'.notified = s.notified ∪ woken.toFinset) : Transition s s' (.act e woken)
  | stop {woken : Option Nat} (workers : s'.scheduler.workers = s.scheduler.workers)
      (queue : s'.scheduler.queue = s.scheduler.queue) (stopped : s'.scheduler.stopped = true)
      (notified : s'.notified = s.notified ∪ s.sleepers) : Transition s s' (.act .stop woken)
  | wake {i : Nat} (asleep : i ∈ s.sleepers) (scheduler : s'.scheduler = s.scheduler)
      (notified : s'.notified = insert i s.notified) : Transition s s' (.wake i)

/-- Only workers in the wait count as woken. -/
def Noted (s : NotifyingScheduler α) : Prop :=
  ∀ i ∈ s.notified, s.scheduler.workers[i]? = some .blocked

/-- What the mutex protects, and who was woken. -/
structure Sound (s : NotifyingScheduler α) : Prop where
  guarded : s.scheduler.Guarded
  noted : s.Noted

theorem Noted.erase {s : NotifyingScheduler α} (h : s.Noted) {i : Nat} {w : Worker α}
    (at_w : s.scheduler.workers[i]? = some w) (hw : w ≠ .blocked) :
    s.notified = s.notified.erase i := by
  refine (Finset.erase_eq_of_notMem fun hi => hw ?_).symm
  exact Option.some.inj (at_w.symm.trans (h i hi))

theorem Sound.transition_of_step {s s' : NotifyingScheduler α} {e : Event α} (hs : s.Sound)
    (hstep : s.step e = some s') : Transition s s' e := by
  cases e with
  | wake i =>
    obtain ⟨hi, h⟩ := Option.ite_none_right_eq_some.mp hstep
    obtain rfl := Option.some.inj h
    exact .wake hi rfl rfl
  | act e woken =>
    obtain ⟨notified, hnotify, hact⟩ := Option.bind_eq_some_iff.mp hstep
    obtain ⟨t, h, rfl⟩ := Option.map_eq_some_iff.mp hact
    cases e with
    | run =>
      obtain rfl := Option.some.inj hnotify
      obtain rfl := Option.some.inj h
      exact .run rfl rfl rfl rfl
    | lock i =>
      obtain ⟨hi, hnotify⟩ := Option.ite_none_left_eq_some.mp hnotify
      obtain rfl := Option.some.inj hnotify
      simp only [PriorityScheduler.step] at h
      split at h
      · next at_w =>
        obtain rfl := Option.some.inj h
        exact .lock ⟨at_w, rfl, rfl, rfl⟩ (.inl rfl) rfl
      · next at_w =>
        obtain rfl := Option.some.inj h
        refine .lock ⟨at_w, rfl, rfl, rfl⟩ (.inr ⟨rfl, ?_⟩) rfl
        rw [sleepers, mem_those_of at_w] at hi
        simpa [Worker.asleep] using hi
      · cases h
    | test i =>
      obtain rfl := Option.some.inj hnotify
      simp only [PriorityScheduler.step] at h
      split at h
      · next at_w =>
        have herase := hs.noted.erase at_w (by simp)
        split at h
        · obtain rfl := Option.some.inj h
          exact .proceed ⟨at_w, rfl, rfl, herase⟩ rfl
        · next hready =>
          obtain rfl := Option.some.inj h
          simp only [Bool.or_eq_true, Bool.not_eq_true', List.isEmpty_eq_false_iff, not_or,
            Bool.not_eq_true, not_not] at hready
          exact .block ⟨at_w, rfl, rfl, herase⟩ hready.1 hready.2 rfl
      · cases h
    | leave i =>
      obtain rfl := Option.some.inj hnotify
      simp only [PriorityScheduler.step] at h
      split at h
      · next at_w =>
        obtain ⟨hstopped, h⟩ := Option.ite_none_right_eq_some.mp h
        obtain rfl := Option.some.inj h
        exact .leave ⟨at_w, rfl, rfl, hs.noted.erase at_w (by simp)⟩ hstopped rfl
      · cases h
    | top i k =>
      obtain rfl := Option.some.inj hnotify
      simp only [PriorityScheduler.step] at h
      split at h
      · next at_w _ =>
        obtain ⟨-, h⟩ := Option.ite_none_right_eq_some.mp h
        obtain rfl := Option.some.inj h
        exact .top ⟨at_w, rfl, rfl, hs.noted.erase at_w (by simp)⟩ rfl
      · cases h
    | pop i =>
      obtain rfl := Option.some.inj hnotify
      simp only [PriorityScheduler.step] at h
      split at h
      · next p at_w =>
        obtain rfl := Option.some.inj h
        -- the worker has read the queue under the mutex, so its task is still there
        obtain ⟨-, hp, -⟩ := hs.guarded.reads i _ at_w
        exact .pop ⟨at_w, rfl, rfl, hs.noted.erase at_w (by simp)⟩ hp rfl
      · cases h
    | unlock i =>
      obtain rfl := Option.some.inj hnotify
      simp only [PriorityScheduler.step] at h
      split at h
      · next at_w =>
        obtain rfl := Option.some.inj h
        exact .unlock ⟨at_w, rfl, rfl, hs.noted.erase at_w (by simp)⟩ rfl
      · cases h
    | complete i =>
      obtain rfl := Option.some.inj hnotify
      simp only [PriorityScheduler.step] at h
      split at h
      · next at_w =>
        obtain rfl := Option.some.inj h
        exact .complete ⟨at_w, rfl, rfl, hs.noted.erase at_w (by simp)⟩ rfl
      · cases h
    | post executor f =>
      obtain ⟨hone, hnotify⟩ := Option.ite_none_right_eq_some.mp hnotify
      obtain rfl := Option.some.inj hnotify
      obtain ⟨-, h⟩ := Option.ite_none_right_eq_some.mp h
      obtain rfl := Option.some.inj h
      exact .post rfl hone rfl rfl rfl rfl
    | request p f =>
      obtain ⟨hone, hnotify⟩ := Option.ite_none_right_eq_some.mp hnotify
      obtain rfl := Option.some.inj hnotify
      obtain ⟨-, h⟩ := Option.ite_none_right_eq_some.mp h
      obtain rfl := Option.some.inj h
      exact .post rfl hone rfl rfl rfl rfl
    | stop =>
      obtain rfl := Option.some.inj hnotify
      obtain ⟨-, h⟩ := Option.ite_none_right_eq_some.mp h
      obtain rfl := Option.some.inj h
      exact .stop rfl rfl rfl rfl

/-- The queue without a task of it. -/
theorem length_eraseP_serial {queue : List (Item α)} {p : Item α} (hp : p ∈ queue) :
    (queue.eraseP fun b => b.serial = p.serial).length + 1 = queue.length := by
  have hpos := List.length_pos_of_mem hp
  have hlength : (queue.eraseP fun b => b.serial = p.serial).length = queue.length - 1 :=
    List.length_eraseP_of_mem hp (by simp)
  omega

/-! ## Who sleeps and who comes -/

variable {s s' : NotifyingScheduler α} {i : Nat} {w w' : Worker α}

theorem Moves.worker (h : Moves s s' i w w') : s'.scheduler.workers[i]? = some w' := by
  rw [h.workers, PriorityScheduler.getElem?_move h.at_w, if_pos rfl]

theorem Moves.worker_of_ne (h : Moves s s' i w w') {j : Nat} (hj : j ≠ i) :
    s'.scheduler.workers[j]? = s.scheduler.workers[j]? := by
  rw [h.workers, PriorityScheduler.getElem?_move h.at_w, if_neg hj]

theorem Moves.length_workers (h : Moves s s' i w w') :
    s'.scheduler.workers.length = s.scheduler.workers.length := by
  rw [h.workers, PriorityScheduler.move, List.length_set]

theorem Moves.mem_those (h : Moves s s' i w w') (p : Bool → Worker α → Bool) (j : Nat) :
    j ∈ s'.those p ↔ if j = i then p false w' = true else j ∈ s.those p := by
  rw [NotifyingScheduler.mem_those, h.notified]
  split
  · next hj => simp [hj, h.worker]
  · next hj => simp [NotifyingScheduler.mem_those, h.worker_of_ne hj, Finset.mem_erase, hj]

/-- A worker goes on to a place at which it does not sleep. -/
theorem Moves.sleepers_subset (h : Moves s s' i w w') (hw' : w'.asleep false = false) :
    s'.sleepers ⊆ s.sleepers := by
  intro j hj
  have hmem := (h.mem_those Worker.asleep j).mp hj
  split at hmem
  · simp [hw'] at hmem
  · exact hmem

theorem Moves.erase_subset_coming (h : Moves s s' i w w') : s.coming.erase i ⊆ s'.coming := by
  intro j hj
  obtain ⟨hji, hj⟩ := Finset.mem_erase.mp hj
  exact (h.mem_those Worker.coming j).mpr (by rwa [if_neg hji])

/-- A worker goes on, and is on its way if it was so before. -/
theorem Moves.coming_subset (h : Moves s s' i w w')
    (hcoming : i ∈ s.coming → w'.coming false = true) : s.coming ⊆ s'.coming := by
  intro j hj
  rcases eq_or_ne j i with rfl | hji
  · exact (h.mem_those Worker.coming j).mpr (by rw [if_pos rfl]; exact hcoming hj)
  · exact h.erase_subset_coming (Finset.mem_erase.mpr ⟨hji, hj⟩)

theorem Moves.not_mem_coming (h : Moves s s' i w w') (hw : ∀ b, w.coming b = false) :
    i ∉ s.coming := by
  rw [coming, mem_those_of h.at_w, hw]
  simp

/-- Some workers are woken. -/
theorem sleepers_subset_of_notified (hworkers : s'.scheduler.workers = s.scheduler.workers)
    (hnotified : s.notified ⊆ s'.notified) : s'.sleepers ⊆ s.sleepers := by
  intro j hj
  obtain ⟨w, hw, hasleep⟩ := mem_those.mp hj
  rw [hworkers] at hw
  refine mem_those.mpr ⟨w, hw, ?_⟩
  cases w with
  | blocked =>
    have hj' : j ∉ s'.notified := by simpa [Worker.asleep] using hasleep
    simpa [Worker.asleep] using fun hj => hj' (hnotified hj)
  | locking | testing | woken | topped _ | popped _ | executing _ | returned => cases hasleep

theorem coming_subset_of_notified (hworkers : s'.scheduler.workers = s.scheduler.workers)
    (hnotified : s.notified ⊆ s'.notified) : s.coming ⊆ s'.coming := by
  intro j hj
  obtain ⟨w, hw, hcoming⟩ := mem_those.mp hj
  refine mem_those.mpr ⟨w, by rwa [hworkers], ?_⟩
  cases w with
  | blocked =>
    have hj : j ∈ s.notified := by simpa [Worker.coming] using hcoming
    simpa [Worker.coming] using hnotified hj
  | locking | testing | woken | topped _ => rfl
  | popped _ | executing _ | returned => cases hcoming

/-- A sleeper that is woken is on its way. -/
theorem mem_coming_of_notified (hworkers : s'.scheduler.workers = s.scheduler.workers)
    (hi : i ∈ s.sleepers) (hnotified : i ∈ s'.notified) : i ∈ s'.coming := by
  obtain ⟨w, hw, hasleep⟩ := mem_those.mp hi
  refine mem_those.mpr ⟨w, by rwa [hworkers], ?_⟩
  cases w with
  | blocked => simpa [Worker.coming] using hnotified
  | locking | testing | woken | topped _ | popped _ | executing _ | returned => cases hasleep

theorem not_mem_coming_of_sleepers (hi : i ∈ s.sleepers) : i ∉ s.coming := by
  obtain ⟨w, hw, hasleep⟩ := mem_those.mp hi
  rw [coming, mem_those_of hw, Worker.coming_eq_false_of_asleep hasleep]
  simp

/-! ## No worker is forgotten -/

/-- While a worker sleeps, a worker is on its way for each queued task. After `stop` none sleeps,
and a worker returns only then. -/
structure Alert (s : NotifyingScheduler α) : Prop where
  coming : s.sleepers = ∅ ∨ s.scheduler.queue.length ≤ s.coming.card
  stopped : s.scheduler.stopped = true → s.sleepers = ∅
  returned : .returned ∈ s.scheduler.workers → s.scheduler.stopped = true

theorem sleepers_eq_empty_of_subset (h : s'.sleepers ⊆ s.sleepers) (hs : s.sleepers = ∅) :
    s'.sleepers = ∅ := Finset.subset_empty.mp (hs ▸ h)

theorem Moves.returned (h : Moves s s' i w w') (hw' : w' ≠ .returned)
    (hmem : .returned ∈ s'.scheduler.workers) : .returned ∈ s.scheduler.workers := by
  rw [h.workers] at hmem
  exact (List.mem_or_eq_of_mem_set hmem).resolve_right hw'.symm

/-- A step that puts no worker to sleep and brings as many workers as tasks. -/
theorem Alert.keep (h : s.Alert) (hsleepers : s'.sleepers ⊆ s.sleepers)
    (hstopped : s'.scheduler.stopped = s.scheduler.stopped)
    (hreturned : .returned ∈ s'.scheduler.workers → .returned ∈ s.scheduler.workers)
    (hcoming : s.sleepers ≠ ∅ → s.scheduler.queue.length ≤ s.coming.card →
      s'.scheduler.queue.length ≤ s'.coming.card) : s'.Alert where
  coming := by
    rcases eq_or_ne s.sleepers ∅ with hnone | hsome
    · exact .inl (sleepers_eq_empty_of_subset hsleepers hnone)
    · exact .inr (hcoming hsome (h.coming.resolve_left hsome))
  stopped hs := by
    rw [hstopped] at hs
    exact sleepers_eq_empty_of_subset hsleepers (h.stopped hs)
  returned hmem := by
    rw [hstopped]
    exact h.returned (hreturned hmem)

/-- A worker goes on with as many tasks in the queue, and does not go to sleep. -/
theorem Alert.moves (h : s.Alert) (hmoves : Moves s s' i w w') (hw' : w'.asleep false = false)
    (hreturned : w' ≠ .returned) (hcoming : i ∈ s.coming → w'.coming false = true)
    (hqueue : s'.scheduler.queue = s.scheduler.queue) : s'.Alert := by
  refine h.keep (hmoves.sleepers_subset hw') hmoves.stopped (hmoves.returned hreturned)
    fun _ hle => ?_
  rw [hqueue]
  exact hle.trans (Finset.card_le_card (hmoves.coming_subset hcoming))

theorem alert_init : (init : NotifyingScheduler α).Alert :=
  ⟨.inl rfl, nofun, fun h => absurd h List.not_mem_nil⟩

/-- Every step keeps this. -/
theorem Alert.step {e : Event α} (h : s.Alert) (ht : Transition s s' e) : s'.Alert := by
  cases ht with
  | run hworkers hqueue hstopped hnotified =>
    have hmem : ∀ p j, j ∈ s'.those p ↔
        j ∈ s.those p ∨ j = s.scheduler.workers.length ∧ p (j ∈ s.notified) .locking = true := by
      intro p j
      rw [mem_those, mem_those, hworkers, hnotified]
      rcases lt_trichotomy j s.scheduler.workers.length with hlt | rfl | hlt
      · simp [List.getElem?_append_left hlt, hlt.ne]
      · simp
      · rw [List.getElem?_eq_none (by simp; omega), List.getElem?_eq_none hlt.le]
        simp [hlt.ne']
    have hsleepers : s'.sleepers ⊆ s.sleepers := by
      intro j hj
      exact ((hmem Worker.asleep j).mp hj).resolve_right (by simp [Worker.asleep])
    have hcoming : s.coming ⊆ s'.coming := fun j hj => (hmem Worker.coming j).mpr (.inl hj)
    refine h.keep hsleepers hstopped (fun hreturned => ?_) fun _ hle => ?_
    · rw [hworkers] at hreturned
      simpa using hreturned
    · rw [hqueue]
      exact hle.trans (Finset.card_le_card hcoming)
  | lock moves _ queue => exact h.moves moves rfl (by simp) (fun _ => rfl) queue
  | proceed moves queue => exact h.moves moves rfl (by simp) (fun _ => rfl) queue
  | block moves going empty queue =>
    -- it goes to sleep, but only because nothing is queued
    refine ⟨.inr (by simp [queue, empty]), fun hs => ?_, fun hmem => ?_⟩
    · rw [moves.stopped, going] at hs
      cases hs
    · rw [moves.stopped]
      exact h.returned (moves.returned (by simp) hmem)
  | leave moves stopped queue =>
    have hnone := sleepers_eq_empty_of_subset (moves.sleepers_subset rfl) (h.stopped stopped)
    exact ⟨.inl hnone, fun _ => hnone, fun _ => moves.stopped.trans stopped⟩
  | top moves queue => exact h.moves moves rfl (by simp) (fun _ => rfl) queue
  | @pop _ i p moves queued queue =>
    have hlength := length_eraseP_serial queued
    refine h.keep (moves.sleepers_subset rfl) moves.stopped (moves.returned (by simp))
      fun _ hle => ?_
    have herase := Finset.pred_card_le_card_erase (s := s.coming) (a := i)
    have hcard := Finset.card_le_card moves.erase_subset_coming
    rw [queue]
    omega
  | unlock moves queue =>
    exact h.moves moves rfl (by simp)
      (fun hi => absurd hi (moves.not_mem_coming fun _ => rfl)) queue
  | complete moves queue => exact h.moves moves rfl (by simp) (fun _ => rfl) queue
  | @post _ woken p _ one workers queue stopped notified =>
    have hmore : s.notified ⊆ s'.notified := by
      rw [notified]
      exact Finset.subset_union_left
    have hsleepers := sleepers_subset_of_notified workers hmore
    have hcoming := coming_subset_of_notified workers hmore
    refine h.keep hsleepers stopped (by rw [workers]; exact id) fun hsome hle => ?_
    cases woken with
    | none => exact absurd one hsome
    | some i =>
      -- the worker that is woken comes for the new task
      have hi : i ∈ s'.coming := mem_coming_of_notified workers one (by simp [notified])
      have hcard := Finset.card_le_card (Finset.insert_subset hi hcoming)
      rw [Finset.card_insert_of_notMem (not_mem_coming_of_sleepers one)] at hcard
      rw [queue, List.length_cons]
      omega
  | stop workers _ stopped notified =>
    have hnone : s'.sleepers = ∅ := by
      refine Finset.eq_empty_of_forall_notMem fun j hj => ?_
      have hmore : s.notified ⊆ s'.notified := by
        rw [notified]
        exact Finset.subset_union_left
      have hj' := sleepers_subset_of_notified workers hmore hj
      exact not_mem_coming_of_sleepers hj
        (mem_coming_of_notified workers hj' (by simp [notified, hj']))
    exact ⟨.inl hnone, fun _ => hnone, fun _ => stopped⟩
  | @wake i asleep scheduler notified =>
    have hmore : s.notified ⊆ s'.notified := by
      rw [notified]
      exact Finset.subset_insert ..
    have hsleepers := sleepers_subset_of_notified (by rw [scheduler]) hmore
    have hcoming := coming_subset_of_notified (by rw [scheduler]) hmore
    refine h.keep hsleepers (by rw [scheduler]) (by rw [scheduler]; exact id) fun _ hle => ?_
    rw [scheduler]
    exact hle.trans (Finset.card_le_card hcoming)

/-- Only workers in the wait are woken. -/
theorem Noted.step {e : Event α} (h : s.Noted) (ht : Transition s s' e) : s'.Noted := by
  have moved : ∀ {i : Nat} {w w' : Worker α}, Moves s s' i w w' → s'.Noted := by
    intro i w w' moves j hj
    rw [moves.notified, Finset.mem_erase] at hj
    rw [moves.worker_of_ne hj.1]
    exact h j hj.2
  have more : ∀ {extra : Finset Nat}, s'.scheduler.workers = s.scheduler.workers →
      extra ⊆ s.sleepers → s'.notified = s.notified ∪ extra → s'.Noted := by
    intro extra workers hextra notified j hj
    rw [workers]
    rw [notified, Finset.mem_union] at hj
    rcases hj with hj | hj
    · exact h j hj
    · obtain ⟨w, hw, hasleep⟩ := mem_those.mp (hextra hj)
      cases w with
      | blocked => exact hw
      | locking | testing | woken | topped _ | popped _ | executing _ | returned => cases hasleep
  cases ht with
  | run workers _ _ notified =>
    intro j hj
    rw [notified] at hj
    obtain ⟨hlt, -⟩ := List.getElem?_eq_some_iff.mp (h j hj)
    rw [workers, List.getElem?_append_left hlt]
    exact h j hj
  | lock moves | proceed moves | block moves | leave moves | top moves | pop moves
  | unlock moves | complete moves => exact moved moves
  | @post _ woken _ _ one workers _ _ notified =>
    refine more workers (fun j hj => ?_) notified
    cases woken with
    | none => simp at hj
    | some i =>
      obtain rfl : j = i := by simpa [eq_comm] using hj
      exact one
  | stop workers _ _ notified => exact more workers (Finset.Subset.refl _) notified
  | wake asleep scheduler notified =>
    refine more (by rw [scheduler]) (Finset.singleton_subset_iff.mpr asleep) ?_
    rw [notified, Finset.union_singleton]

theorem sound_init : (init : NotifyingScheduler α).Sound :=
  ⟨PriorityScheduler.guarded_init, fun _ h => absurd h (Finset.notMem_empty _)⟩

theorem Sound.step {e : Event α} (h : s.Sound) (hstep : s.step e = some s') : s'.Sound := by
  refine ⟨?_, h.noted.step (h.transition_of_step hstep)⟩
  rcases scheduler_of_step hstep with hsame | ⟨a, ha⟩
  · rw [hsame]
    exact h.guarded
  · exact h.guarded.step (PriorityScheduler.transition_of_step ha)

theorem invariants_of_reach (h : Reach step anyStep init s) : s.Sound ∧ s.Alert := by
  refine h.invariant (I := fun s => s.Sound ∧ s.Alert) ⟨sound_init, alert_init⟩ ?_
  rintro s e s' ⟨hsound, halert⟩ - hstep
  exact ⟨hsound.step hstep, halert.step (hsound.transition_of_step hstep)⟩

/-- In every run, whichever sleeper a post wakes and whoever wakes by itself: while a worker
sleeps, at least as many workers are on their way to the queue as tasks are queued, so none of
the notifications is lost, and after `stop` no worker sleeps. -/
theorem no_lost_wakeup (h : Reach step anyStep init s) :
    (s.sleepers = ∅ ∨ s.scheduler.queue.length ≤ s.coming.card) ∧
      (s.scheduler.stopped = true → s.sleepers = ∅) :=
  have halert := (invariants_of_reach h).2
  ⟨halert.coming, halert.stopped⟩

/-- Two workers sleep when a request is posted, which wakes the first. -/
theorem no_lost_wakeup_two_sleepers :
    ∃ s : NotifyingScheduler Nat, Reach step anyStep init s ∧ s.sleepers = {1} ∧
      s.scheduler.queue.length = 1 ∧ 1 ≤ s.coming.card := by
  obtain ⟨s, hreach, hsleepers, hqueue⟩ := exists_reach_of_exec step init
    (fun s : NotifyingScheduler Nat => s.sleepers = {1} ∧ s.scheduler.queue.length = 1)
    [.act .run none, .act .run none, .act (.lock 0) none, .act (.test 0) none,
      .act (.lock 1) none, .act (.test 1) none, .act (.request .low 10) (some 0)] (by decide)
  have hcoming := (no_lost_wakeup hreach).1.resolve_left (by simp [hsleepers])
  exact ⟨s, hreach, hsleepers, hqueue, hqueue.ge.trans hcoming⟩

/-! ## The workers at rest -/

/-- What is left of `run` for the worker. -/
def leftOf (s : NotifyingScheduler α) (i : Nat) : Nat :=
  (s.scheduler.workers[i]?).elim 0 (Worker.left (i ∈ s.notified))

/-- The queued tasks, and what is left of the rounds of the workers. -/
def load (s : NotifyingScheduler α) : Nat ×ₗ Nat :=
  toLex (s.scheduler.queue.length,
    ∑ i ∈ Finset.range s.scheduler.workers.length, s.leftOf i)

theorem Moves.load_lt (h : Moves s s' i w w')
    (hleft : w'.left false < w.left (decide (i ∈ s.notified)))
    (hqueue : s'.scheduler.queue = s.scheduler.queue) : s'.load < s.load := by
  have hother : ∀ j, j ≠ i → s'.leftOf j = s.leftOf j := by
    intro j hj
    rw [leftOf, h.worker_of_ne hj, h.notified, leftOf]
    simp [Finset.mem_erase, hj]
  have hlt : s'.leftOf i < s.leftOf i := by
    rw [leftOf, h.worker, h.notified, leftOf, h.at_w]
    simpa using hleft
  rw [load, load, Prod.Lex.toLex_lt_toLex]
  refine .inr ⟨by rw [hqueue], ?_⟩
  show ∑ j ∈ Finset.range s'.scheduler.workers.length, s'.leftOf j < _
  rw [h.length_workers]
  refine Finset.sum_lt_sum (fun j _ => ?_) ⟨i, Finset.mem_range.mpr ?_, hlt⟩
  · rcases eq_or_ne j i with rfl | hj
    · exact hlt.le
    · exact (hother j hj).le
  · exact (List.getElem?_eq_some_iff.mp h.at_w).1

/-- A worker goes on: it takes a task, or comes closer to the next wait. -/
theorem load_step {e : Event α} (ht : Transition s s' e) (hworks : e.Works) :
    s'.load < s.load := by
  cases ht with
  | lock moves idle queue =>
    refine moves.load_lt ?_ queue
    rcases idle with rfl | ⟨rfl, hi⟩
    · exact Nat.lt_succ_self 3
    · simp [Worker.left, hi]
  | proceed moves queue => exact moves.load_lt (Nat.lt_succ_self 2) queue
  | block moves _ _ queue => exact moves.load_lt (Nat.succ_pos 2) queue
  | leave moves _ queue => exact moves.load_lt (Nat.succ_pos 1) queue
  | top moves queue => exact moves.load_lt (Nat.lt_succ_self 1) queue
  | pop moves queued queue =>
    have hlength := length_eraseP_serial queued
    rw [load, load, Prod.Lex.toLex_lt_toLex, queue]
    exact .inl (Nat.lt_of_succ_le hlength.le)
  | unlock moves queue => exact moves.load_lt (Nat.lt_succ_self 5) queue
  | complete moves queue => exact moves.load_lt (Nat.lt_succ_self 4) queue
  | @post e woken p posts =>
    cases e with
    | post | request => exact hworks.elim
    | _ => cases posts
  | run | stop | wake => exact hworks.elim

theorem runsDown : RunsDown (@step α) Sound (fun _ e => e.Works) (fun _ _ => False) load where
  kept _ _ _ hs hstep := hs.step hstep
  lt _ _ _ hs hworks hstep := load_step (hs.transition_of_step hstep) hworks
  le _ _ _ _ hno := hno.elim

/-- A step of the scheduler that locks nothing, posts nothing and does not stop it. -/
theorem step_act {e : PriorityScheduler.Event α} {t : PriorityScheduler α}
    (hnotify : s.notify none e = some s.notified) (h : s.scheduler.step e = some t) :
    s.step (.act e none) = some ⟨t, s.notified⟩ := by
  rw [step, hnotify, Option.bind_some, h, Option.map_some]

/-- No worker can go on that executes no task. -/
def Idle (s : NotifyingScheduler α) : Prop :=
  ∀ e : PriorityScheduler.Event α, e.Schedules → s.step (.act e none) = none

theorem Rests.idle (h : s.Rests) : s.Idle := by
  intro e he
  refine h (.act e none) ?_
  cases e with
  | complete => trivial
  | _ => exact he

/-- Then none is in a section of the mutex. -/
theorem Idle.not_holdsLock (h : s.Idle) (hs : s.Sound)
    (at_w : s.scheduler.workers[i]? = some w) : w.holdsLock = false := by
  have stuck : ∀ {e : PriorityScheduler.Event α} {t : PriorityScheduler α},
      e.Schedules → s.notify none e = some s.notified → s.scheduler.step e ≠ some t := by
    intro e t hschedules hnotify ht
    have hnone := h e hschedules
    rw [step_act hnotify ht] at hnone
    cases hnone
  cases w with
  | locking | blocked | executing _ | returned => rfl
  | testing =>
    rcases Bool.eq_false_or_eq_true (s.scheduler.stopped || !s.scheduler.queue.isEmpty)
      with hready | hready
    · exact absurd (by simp only [PriorityScheduler.step, at_w, hready]; rfl)
        (stuck (e := .test i) trivial rfl)
    · exact absurd (by simp only [PriorityScheduler.step, at_w, hready]; rfl)
        (stuck (e := .test i) trivial rfl)
  | woken =>
    cases hstopped : s.scheduler.stopped with
    | true =>
      exact absurd (by simp only [PriorityScheduler.step, at_w, hstopped]; rfl)
        (stuck (e := .leave i) trivial rfl)
    | false =>
      obtain ⟨k, t, ht⟩ := PriorityScheduler.exists_top hs.guarded at_w hstopped
      exact absurd ht (stuck trivial rfl)
  | topped p =>
    exact absurd (by simp only [PriorityScheduler.step, at_w]; rfl)
      (stuck (e := .pop i) trivial rfl)
  | popped p =>
    exact absurd (by simp only [PriorityScheduler.step, at_w]; rfl)
      (stuck (e := .unlock i) trivial rfl)

theorem Idle.mutex_free (h : s.Idle) (hs : s.Sound) : s.scheduler.mutex = none := by
  cases hmutex : s.scheduler.mutex with
  | none => rfl
  | some j =>
    obtain ⟨v, hv, hlock⟩ := (hs.guarded.holder j).mp hmutex
    rw [h.not_holdsLock hs hv] at hlock
    cases hlock

/-- Each worker sleeps, executes a task or has returned. -/
theorem Idle.cases (h : s.Idle) (hs : s.Sound) (at_w : s.scheduler.workers[i]? = some w) :
    (w = .blocked ∧ i ∈ s.sleepers) ∨ (∃ p, w = .executing p) ∨ w = .returned := by
  have hfree := h.mutex_free hs
  have hlock := h.not_holdsLock hs at_w
  cases w with
  | testing | woken | topped _ | popped _ => cases hlock
  | returned => exact .inr (.inr rfl)
  | executing p => exact .inr (.inl ⟨p, rfl⟩)
  | locking =>
    have hawake : i ∉ s.sleepers := by
      rw [sleepers, mem_those_of at_w]
      simp [Worker.asleep]
    have hnone := h (.lock i) trivial
    simp [step, notify, hawake, PriorityScheduler.step, hfree, at_w] at hnone
  | blocked =>
    refine .inl ⟨rfl, Decidable.byContradiction fun hawake => ?_⟩
    have hnone := h (.lock i) trivial
    simp [step, notify, hawake, PriorityScheduler.step, hfree, at_w] at hnone

/-- Nobody is on the way to the queue. -/
theorem Idle.coming (h : s.Idle) (hs : s.Sound) : s.coming = ∅ := by
  refine Finset.eq_empty_of_forall_notMem fun i hi => ?_
  obtain ⟨w, at_w, hcoming⟩ := mem_those.mp hi
  rcases h.cases hs at_w with ⟨-, hasleep⟩ | ⟨p, rfl⟩ | rfl
  · exact not_mem_coming_of_sleepers hasleep hi
  · cases hcoming
  · cases hcoming

/-- Nothing is queued if a worker sleeps. -/
theorem Idle.queue (h : s.Idle) (hs : s.Sound) (halert : s.Alert) (hsleeps : s.sleepers ≠ ∅) :
    s.scheduler.queue = [] := by
  have hle := halert.coming.resolve_left hsleeps
  rw [h.coming hs] at hle
  exact List.length_eq_zero_iff.mp (Nat.le_zero.mp hle)

/-- While all workers sleep, none can go on. -/
theorem idle_of_asleep
    (h : ∀ i w, s.scheduler.workers[i]? = some w → w = .blocked ∧ i ∉ s.notified) : s.Idle := by
  have asleep : ∀ i, s.scheduler.workers[i]? = none ∨
      s.scheduler.workers[i]? = some .blocked ∧ i ∈ s.sleepers := by
    intro i
    cases at_w : s.scheduler.workers[i]? with
    | none => exact .inl rfl
    | some w =>
      obtain ⟨rfl, hnotified⟩ := h i w at_w
      refine .inr ⟨rfl, (mem_those_of at_w).mpr ?_⟩
      simp [Worker.asleep, hnotified]
  intro e he
  cases e with
  | run | post | request | stop | complete => exact he.elim
  | lock i | test i | leave i | top i | pop i | unlock i =>
    rcases asleep i with hnone | ⟨hblocked, hsleeps⟩
    · simp [step, PriorityScheduler.step, hnone]
    · simp [step, notify, PriorityScheduler.step, hblocked, hsleeps]

/-- At rest each worker sleeps or has returned. -/
theorem Rests.cases (h : s.Rests) (hs : s.Sound) (at_w : s.scheduler.workers[i]? = some w) :
    w = .blocked ∧ i ∈ s.sleepers ∨ w = .returned := by
  rcases h.idle.cases hs at_w with hsleeps | ⟨p, rfl⟩ | hreturned
  · exact .inl hsleeps
  · have hnone := h (.act (.complete i) none) trivial
    simp [step, notify, PriorityScheduler.step, at_w] at hnone
  · exact .inr hreturned

/-- At rest no task is being executed. -/
theorem Rests.running (h : s.Rests) (hs : s.Sound) : s.scheduler.running = [] := by
  refine List.filterMap_eq_nil_iff.mpr fun w hw => ?_
  obtain ⟨i, at_w⟩ := List.mem_iff_getElem?.mp hw
  rcases h.cases hs at_w with ⟨rfl, -⟩ | rfl
  · rfl
  · rfl

/-- The workers cannot go on forever by themselves, and from every state reached they can come to
rest. At rest every posted task was executed once and all workers wait, if there is one and
`stop` has not come; after `stop` every task that was taken was executed and all have
returned. -/
theorem tasks_executed :
    (∀ (states : Nat → NotifyingScheduler α) (events : Nat → Event α), states 0 = init →
      (∀ n, (states n).step (events n) = some (states (n + 1))) →
      ∀ N, ∃ n, N ≤ n ∧ ¬ (events n).Works) ∧
    ∀ s : NotifyingScheduler α, Reach step anyStep init s →
      (∃ es s', exec step s es = some s' ∧ EachStep step (fun _ e => e.Works) s es ∧ s'.Rests) ∧
      (s.Rests → s.scheduler.stopped = false → s.scheduler.workers ≠ [] →
        s.scheduler.posted.Perm s.scheduler.finished ∧
          ∀ w ∈ s.scheduler.workers, w = .blocked) ∧
      (s.Rests → s.scheduler.stopped = true →
        s.scheduler.taken.Perm s.scheduler.finished ∧
          ∀ w ∈ s.scheduler.workers, w = .returned) := by
  constructor
  · intro states events hstart hstep N
    by_contra hworks
    push Not at hworks
    obtain ⟨M, hM⟩ := runsDown.exists_forall_not (by rw [hstart]; exact sound_init) hstep
      fun n hn => .inl (hworks n hn)
    exact hM (max M N) (Nat.le_max_left M N) (hworks _ (Nat.le_max_right M N))
  · intro s hreach
    obtain ⟨hs, halert⟩ := invariants_of_reach hreach
    obtain ⟨-, haccounted⟩ := PriorityScheduler.invariants_of_reach (reach_scheduler hreach)
    refine ⟨runsDown.exists_rest hs, fun hrest hgoing hsome => ?_, fun hrest hstopped => ?_⟩
    · have hrunning := hrest.running hs
      have hwaits : ∀ w ∈ s.scheduler.workers, w = .blocked := by
        intro w hw
        obtain ⟨i, at_w⟩ := List.mem_iff_getElem?.mp hw
        refine ((hrest.cases hs at_w).resolve_right ?_).1
        rintro rfl
        rw [halert.returned hw] at hgoing
        cases hgoing
      refine ⟨?_, hwaits⟩
      -- a worker sleeps and nobody comes, so nothing is queued
      have hsleeps : s.sleepers ≠ ∅ := by
        obtain ⟨w, hw⟩ := List.exists_mem_of_ne_nil _ hsome
        obtain ⟨i, at_w⟩ := List.mem_iff_getElem?.mp hw
        rcases hrest.cases hs at_w with ⟨-, hasleep⟩ | rfl
        · exact Finset.ne_empty_of_mem hasleep
        · cases hwaits _ hw
      have hqueue := hrest.idle.queue hs halert hsleeps
      simpa [hqueue, hrunning] using haccounted.places
    · have hrunning := hrest.running hs
      refine ⟨by simpa [hrunning] using haccounted.executed, fun w hw => ?_⟩
      obtain ⟨i, at_w⟩ := List.mem_iff_getElem?.mp hw
      refine (hrest.cases hs at_w).resolve_left fun hblocked => ?_
      rw [halert.stopped hstopped] at hblocked
      exact Finset.notMem_empty _ hblocked.2

/-- A worker sleeps when a request is posted, executes it and sleeps again. -/
theorem tasks_executed_one_worker :
    ∃ s : NotifyingScheduler Nat, Reach step anyStep init s ∧ s.Rests ∧
      s.scheduler.posted = [⟨0, 3, 20⟩] ∧ s.scheduler.posted.Perm s.scheduler.finished ∧
      ∀ w ∈ s.scheduler.workers, w = .blocked := by
  let asleep : NotifyingScheduler Nat :=
    ⟨⟨none, [], false, [.blocked], [⟨0, 3, 20⟩], [(.high, ⟨0, 3, 20⟩)], [⟨0, 3, 20⟩],
      [⟨0, 3, 20⟩]⟩, ∅⟩
  obtain ⟨s, hreach, rfl⟩ := exists_reach_of_exec step init
    (fun s : NotifyingScheduler Nat => s = asleep)
    [.act .run none, .act (.lock 0) none, .act (.test 0) none, .act (.request .high 20) (some 0),
      .act (.lock 0) none, .act (.test 0) none, .act (.top 0 0) none, .act (.pop 0) none,
      .act (.unlock 0) none, .act (.complete 0) none, .act (.lock 0) none, .act (.test 0) none]
    (by decide)
  have hrest : asleep.Rests := by
    intro e hworks
    cases e with
    | wake i => exact hworks.elim
    | act e woken => cases e with
      | run | post | request | stop => exact hworks.elim
      | lock i | test i | leave i | top i | pop i | unlock i | complete i =>
        cases i <;> rfl
  obtain ⟨hexecuted, hwait⟩ := (tasks_executed.2 asleep hreach).2.1 hrest rfl (by simp [asleep])
  exact ⟨asleep, hreach, hrest, rfl, hexecuted, hwait⟩

end NotifyingScheduler

end FspServer
