import FspServer.Quiescence
import FspServer.Wakeups

/-!
# The server with its scheduler

In the model of the server a queued task is executed at any time. Here the tasks that reading
posts go to the priority scheduler, and each is executed by the worker that took it; the worker
stays with the handlers that it started and takes the next task when they have ended
(`ScheduledServer`). Each run is a run of the server and one of the scheduler
(`reach_server`, `reach_pool`).

* `requests_served`: the work of the two cannot go on forever unless it is disturbed again and
  again, and it leads to rest from every state reached. At rest each worker sleeps or is stuck in
  a task that its tree cannot take, and while one sleeps every other confirmed request of a
  connection was executed and concluded.
-/

namespace FspServer

open Runs

/-- The server and its scheduler. -/
structure ScheduledServer where
  server : Server
  /-- The tasks of messages that were read, on their way to the queue. -/
  posting : List Task
  pool : NotifyingScheduler Task
  /-- The workers that have begun the task that they execute. -/
  begun : Finset Nat
  /-- For each running handler the worker that runs it, if it is one. -/
  handlers : List (Option Nat)

/-- The steps that workers make. -/
def Server.Event.isScheduled : Server.Event → Bool
  | .execute .. | .resume _ => true
  | _ => false

namespace ScheduledServer

open Server

def initial (cfg : Config) (users : List (Str × Str)) : ScheduledServer :=
  ⟨Server.initial cfg users, [], NotifyingScheduler.init, ∅, []⟩

/-- The steps of the server that no worker makes, the next section of a handler, a post, the
steps of the scheduler, and the begin and the end of a task on the worker `k`, where the task is
the `i`-th of the server. -/
inductive Event where
  | server (e : Server.Event)
  | resume (j : Nat)
  | post (woken : Option Nat)
  | pool (e : PriorityScheduler.Event Task)
  | wake (i : Nat)
  | begin (k i : Nat) (dbFails : Bool) (env : FileEnv)
  | complete (k : Nat)

/-- The server has made a step and has started handlers, which `owner` runs, beside those that
are left. -/
def advance (s : ScheduledServer) (owner : Option Nat) (left : List (Option Nat)) (t : Server) :
    ScheduledServer :=
  { s with
    server := t
    handlers := left ++ List.replicate (t.running.length - left.length) owner }

/-- One step; nothing happens after the process has ended. -/
def step (cfg : Config) (s : ScheduledServer) (e : Event) : Option ScheduledServer :=
  if s.server.halted then none
  else match e with
    | .server e =>
      if e.isScheduled then none
      else (s.server.step cfg e).map fun t =>
        { s.advance none s.handlers t with
          posting := s.posting ++ t.tasks.drop s.server.tasks.length }
    | .resume j =>
      (s.handlers[j]?).bind fun owner =>
        (s.server.step cfg (.resume j)).map (s.advance owner (s.handlers.eraseIdx j))
    | .post woken =>
      match s.posting with
      | [] => none
      | t :: posting =>
        (s.pool.step (.act (.request t.priority t) woken)).map fun pool => { s with pool, posting }
    | .pool e =>
      match e with
      | .post .. | .request .. | .complete _ => none
      | e => (s.pool.step (.act e none)).map fun pool => { s with pool }
    | .wake i => (s.pool.step (.wake i)).map fun pool => { s with pool }
    | .begin k i dbFails env =>
      match s.pool.scheduler.workers[k]? with
      | some (.executing p) =>
        if k ∉ s.begun ∧ s.server.tasks[i]? = some p.function then
          (s.server.step cfg (.execute i dbFails env)).map fun t =>
            { s.advance (some k) s.handlers t with begun := insert k s.begun }
        else none
      | _ => none
    | .complete k =>
      if k ∈ s.begun ∧ some k ∉ s.handlers then
        (s.pool.step (.act (.complete k) none)).map fun pool =>
          { s with pool, begun := s.begun.erase k }
      else none

/-- What the server and the workers do by themselves. -/
def Works (s : ScheduledServer) : Event → Prop
  | .server e => s.server.Works e
  | .pool e => e.Schedules
  | .resume _ | .post _ | .begin .. | .complete _ => True
  | .wake _ => False

/-- Clients connect or send messages, workers start or are stopped, or one wakes by itself. -/
def Event.Disturbs : Event → Prop
  | .server e => e.Arrives
  | .pool .run | .pool .stop | .wake _ => True
  | _ => False

/-- Nothing is left to do. -/
def Rests (cfg : Config) (s : ScheduledServer) : Prop := ∀ e, s.Works e → s.step cfg e = none

/-! ## What a step does to tasks and handlers -/

/-- A step that no worker makes posts tasks only when a message is read. -/
theorem tasks_of_coreStep {cfg : Config} {k k' : Core} {e : Server.Event}
    (h : CoreStep cfg k e k') (he : e.isScheduled = false) :
    ∃ new started, k'.tasks = k.tasks ++ new ∧ k'.running = k.running ++ started ∧
      (¬ e.Arrives → new = []) := by
  have stops : ∀ (k : Core) (c : ConnId), ∃ new started,
      (k.stop c).tasks = k.tasks ++ new ∧ (k.stop c).running = k.running ++ started ∧
        (¬ e.Arrives → new = []) := by
    intro k c
    unfold Core.stop
    split
    · exact ⟨[], [], by simp⟩
    · exact ⟨[], _, (List.append_nil _).symm, rfl, fun _ => rfl⟩
  cases h with
  | read new =>
    exact ⟨new, [], rfl, (List.append_nil _).symm, fun harrives => absurd trivial harrives⟩
  | stop => exact stops k _
  | failWrite => exact stops _ _
  | execute | logout | isLogged | storeLogin | register | notify | disconnect => cases he
  | accept | dropWrite | continueWrite | finishWrite | other => exact ⟨[], [], by simp⟩

theorem tasks_of_execute {cfg : Config} {s t : Server} {i : Nat} {dbFails : Bool} {env : FileEnv}
    (h : s.step cfg (.execute i dbFails env) = some t) :
    t.tasks = s.tasks.eraseIdx i ∧ ∃ started, t.running = s.running ++ started := by
  cases transition_of_step h with
  | execute _ _ hexec =>
    rcases core_executed hexec with ⟨-, hcore⟩ | ⟨started, hcore, -⟩
    · have htasks := congrArg Core.tasks hcore
      have hrunning := congrArg Core.running hcore
      unfold Core.stop at htasks hrunning
      split at htasks
      · next hstopped =>
        rw [if_pos hstopped] at hrunning
        exact ⟨htasks, [], hrunning.trans (List.append_nil _).symm⟩
      · next hstopped =>
        rw [if_neg hstopped] at hrunning
        exact ⟨htasks, _, hrunning⟩
    · exact ⟨congrArg Core.tasks hcore, started, congrArg Core.running hcore⟩
  | expired => exact ⟨rfl, [], (List.append_nil _).symm⟩

theorem tasks_of_resumeHandler (cfg : Config) (c : ConnId) (rest : Continuation) (s : Server) :
    (s.resumeHandler cfg c rest).tasks = s.tasks ∧
      ∃ started, (s.resumeHandler cfg c rest).running = s.running ++ started := by
  -- a section of the connection manager, which changes the registry only
  have managed : ∀ {t : Server} {registry : Registry}, t.core = { s.core with registry } →
      t.tasks = s.tasks ∧ ∃ started, t.running = s.running ++ started := by
    intro t registry hcore
    exact ⟨congrArg Core.tasks hcore, [],
      (congrArg Core.running hcore).trans (List.append_nil _).symm⟩
  cases rest with
  | isLogged id login =>
    simp only [resumeHandler]
    split
    · exact ⟨rfl, [], (List.append_nil _).symm⟩
    · exact ⟨rfl, _, rfl⟩
  | storeLogin code id login => exact ⟨rfl, [], (List.append_nil _).symm⟩
  | notifyFilesRegistration =>
    obtain ⟨n, hcore⟩ := core_notifyFilesRegistration cfg c s
    exact managed hcore
  | notifyFileAdd file => exact managed (core_doNotify ..)
  | notifyPathRemoved path => exact managed (core_doNotify ..)
  | notifyPathRenamed old new => exact managed (core_doNotify ..)
  | notifyDisconnection st nickname => exact managed (core_notifyDisconnection ..)

theorem tasks_of_resume {cfg : Config} {s t : Server} {j : Nat}
    (h : s.step cfg (.resume j) = some t) :
    t.tasks = s.tasks ∧ j < s.running.length ∧
      ∃ started, t.running = s.running.eraseIdx j ++ started := by
  cases transition_of_step h with
  | resume hr =>
    obtain ⟨htasks, hrunning⟩ := tasks_of_resumeHandler cfg _ _
      { s with running := s.running.eraseIdx j }
    exact ⟨htasks, (List.getElem?_eq_some_iff.mp hr).1, hrunning⟩

/-! ## Steps -/

/-- What a step does to the server and to the scheduler. -/
inductive Transition (cfg : Config) (s s' : ScheduledServer) : Event → Prop
  | server {e : Server.Event} {t : Server} (other : e.isScheduled = false)
      (hstep : s.server.step cfg e = some t)
      (result : s' = { s.advance none s.handlers t with
        posting := s.posting ++ t.tasks.drop s.server.tasks.length }) :
      Transition cfg s s' (.server e)
  | resume {j : Nat} {owner : Option Nat} {t : Server} (runs : s.handlers[j]? = some owner)
      (hstep : s.server.step cfg (.resume j) = some t)
      (result : s' = s.advance owner (s.handlers.eraseIdx j) t) : Transition cfg s s' (.resume j)
  | post {woken : Option Nat} {t : Task} {posting : List Task} {pool : NotifyingScheduler Task}
      (head : s.posting = t :: posting)
      (hstep : s.pool.step (.act (.request t.priority t) woken) = some pool)
      (result : s' = { s with pool, posting }) : Transition cfg s s' (.post woken)
  | pool {e : PriorityScheduler.Event Task} {pool : NotifyingScheduler Task}
      (posts : e.posts = none) (goes : ∀ k, e ≠ .complete k)
      (hstep : s.pool.step (.act e none) = some pool) (result : s' = { s with pool }) :
      Transition cfg s s' (.pool e)
  | wake {i : Nat} {pool : NotifyingScheduler Task} (hstep : s.pool.step (.wake i) = some pool)
      (result : s' = { s with pool }) : Transition cfg s s' (.wake i)
  | begin {k i : Nat} {dbFails : Bool} {env : FileEnv} {p : Item Task} {t : Server}
      (at_w : s.pool.scheduler.workers[k]? = some (.executing p)) (fresh : k ∉ s.begun)
      (task : s.server.tasks[i]? = some p.function)
      (hstep : s.server.step cfg (.execute i dbFails env) = some t)
      (result : s' = { s.advance (some k) s.handlers t with begun := insert k s.begun }) :
      Transition cfg s s' (.begin k i dbFails env)
  | complete {k : Nat} {pool : NotifyingScheduler Task} (begun : k ∈ s.begun)
      (ended : some k ∉ s.handlers) (hstep : s.pool.step (.act (.complete k) none) = some pool)
      (result : s' = { s with pool, begun := s.begun.erase k }) : Transition cfg s s' (.complete k)

theorem transition_of_step {cfg : Config} {s s' : ScheduledServer} {e : Event}
    (h : s.step cfg e = some s') : Transition cfg s s' e := by
  unfold step at h
  split at h
  · cases h
  cases e with
  | server e =>
    obtain ⟨hother, h⟩ := Option.ite_none_left_eq_some.mp h
    obtain ⟨t, hstep, rfl⟩ := Option.map_eq_some_iff.mp h
    exact .server (by simpa using hother) hstep rfl
  | resume j =>
    obtain ⟨owner, hruns, h⟩ := Option.bind_eq_some_iff.mp h
    obtain ⟨t, hstep, rfl⟩ := Option.map_eq_some_iff.mp h
    exact .resume hruns hstep rfl
  | post woken =>
    dsimp only at h
    split at h
    · cases h
    · next hhead =>
      obtain ⟨pool, hstep, rfl⟩ := Option.map_eq_some_iff.mp h
      exact .post hhead hstep rfl
  | pool e =>
    cases e with
    | post | request | complete => cases h
    | _ =>
      obtain ⟨pool, hstep, rfl⟩ := Option.map_eq_some_iff.mp h
      exact .pool rfl (by simp) hstep rfl
  | wake i =>
    obtain ⟨pool, hstep, rfl⟩ := Option.map_eq_some_iff.mp h
    exact .wake hstep rfl
  | begin k i dbFails env =>
    dsimp only at h
    split at h
    · next at_w =>
      obtain ⟨⟨hfresh, htask⟩, h⟩ := Option.ite_none_right_eq_some.mp h
      obtain ⟨t, hstep, rfl⟩ := Option.map_eq_some_iff.mp h
      exact .begin at_w hfresh htask hstep rfl
    · cases h
  | complete k =>
    obtain ⟨⟨hbegun, hended⟩, h⟩ := Option.ite_none_right_eq_some.mp h
    obtain ⟨pool, hstep, rfl⟩ := Option.map_eq_some_iff.mp h
    exact .complete hbegun hended hstep rfl

variable {cfg : Config} {users : List (Str × Str)} {s s' : ScheduledServer} {e : Event}

/-- The server makes a step of its own, or none. -/
theorem server_of_step (h : s.step cfg e = some s') :
    s'.server = s.server ∨ ∃ a, s.server.step cfg a = some s'.server := by
  cases transition_of_step h with
  | server other hstep result | resume runs hstep result | begin at_w fresh task hstep result =>
    rw [result]
    exact .inr ⟨_, hstep⟩
  | post head hstep result | pool posts goes hstep result | wake hstep result
  | complete begun ended hstep result =>
    rw [result]
    exact .inl rfl

/-- The scheduler makes a step of its own, or none. -/
theorem pool_of_step (h : s.step cfg e = some s') :
    s'.pool = s.pool ∨ ∃ a, s.pool.step a = some s'.pool := by
  cases transition_of_step h with
  | server other hstep result | resume runs hstep result | begin at_w fresh task hstep result =>
    rw [result]
    exact .inl rfl
  | post head hstep result | pool posts goes hstep result | wake hstep result
  | complete begun ended hstep result =>
    rw [result]
    exact .inr ⟨_, hstep⟩

/-! ## The tasks of the server are those on their way to a worker -/

/-- Whether the worker `k` has taken the task and has not begun it. -/
def holds (s : ScheduledServer) (t : Task) (k : Nat) : Nat :=
  match s.pool.scheduler.workers[k]? with
  | some (.popped p) => if p.function = t then 1 else 0
  | some (.executing p) => if k ∉ s.begun ∧ p.function = t then 1 else 0
  | _ => 0

def held (s : ScheduledServer) (t : Task) : Nat :=
  ∑ k ∈ Finset.range s.pool.scheduler.workers.length, s.holds t k

/-- A worker that has begun executes its task, the handlers run on such workers, and a task of
the server is about to be posted, queued, or taken by a worker that has not begun it. -/
structure Linked (s : ScheduledServer) : Prop where
  handlers : s.handlers.length = s.server.running.length
  begun : ∀ k ∈ s.begun, ∃ p, s.pool.scheduler.workers[k]? = some (.executing p)
  owners : ∀ k, some k ∈ s.handlers → k ∈ s.begun
  tasks : ∀ t, s.server.tasks.count t =
    s.posting.count t + (s.pool.scheduler.queue.map Item.function).count t + s.held t

theorem linked_initial (cfg : Config) (users : List (Str × Str)) : (initial cfg users).Linked where
  handlers := rfl
  begun _ h := absurd h (Finset.notMem_empty _)
  owners _ h := absurd h List.not_mem_nil
  tasks _ := rfl

/-- Two sums that differ in one place. -/
theorem sum_change {n k : Nat} (hk : k < n) {f g : Nat → Nat} (h : ∀ j, j ≠ k → f j = g j) :
    (∑ j ∈ Finset.range n, f j) + g k = (∑ j ∈ Finset.range n, g j) + f k := by
  have hmem := Finset.mem_range.mpr hk
  have hrest : ∑ j ∈ (Finset.range n).erase k, f j = ∑ j ∈ (Finset.range n).erase k, g j :=
    Finset.sum_congr rfl fun j hj => h j (Finset.ne_of_mem_erase hj)
  rw [← Finset.add_sum_erase _ f hmem, ← Finset.add_sum_erase _ g hmem, hrest]
  omega

/-- The handlers after a step of the server that has kept those that are left. -/
theorem length_handlers {owner : Option Nat} {left : List (Option Nat)} {t : Server}
    {running started : List Running} (hleft : left.length = running.length)
    (hrunning : t.running = running ++ started) :
    (left ++ List.replicate (t.running.length - left.length) owner).length =
      t.running.length := by
  rw [List.length_append, List.length_replicate, hrunning, List.length_append]
  omega

theorem mem_handlers {owner h : Option Nat} {left : List (Option Nat)} {n : Nat}
    (hmem : h ∈ left ++ List.replicate n owner) : h ∈ left ∨ h = owner :=
  (List.mem_append.mp hmem).imp_right List.eq_of_mem_replicate

/-- One worker takes a task or leaves one. -/
theorem held_change {k : Nat} (hk : k < s.pool.scheduler.workers.length)
    (hlength : s'.pool.scheduler.workers.length = s.pool.scheduler.workers.length) {t : Task}
    (hother : ∀ j, j ≠ k → s'.holds t j = s.holds t j) :
    s'.held t + s.holds t k = s.held t + s'.holds t k := by
  rw [held, held, hlength]
  exact sum_change hk hother

/-- The workers and the queue stay as they were. -/
theorem Linked.pool (h : s.Linked) {pool : NotifyingScheduler Task}
    (hworkers : pool.scheduler.workers = s.pool.scheduler.workers)
    (hqueue : pool.scheduler.queue = s.pool.scheduler.queue) : Linked { s with pool } where
  handlers := h.handlers
  begun k hk := by
    obtain ⟨p, hp⟩ := h.begun k hk
    exact ⟨p, by rw [← hp, hworkers]⟩
  owners := h.owners
  tasks t := by
    rw [h.tasks t]
    simp only [held, holds, hworkers, hqueue]

/-- A worker goes on that executes no task. -/
theorem Linked.moves (h : s.Linked) {pool : NotifyingScheduler Task} {k : Nat} {w w' : Worker Task}
    (moves : NotifyingScheduler.Moves s.pool pool k w w') (hidle : ∀ p, w ≠ .executing p)
    (hcount : ∀ t, (pool.scheduler.queue.map Item.function).count t +
        holds { s with pool } t k =
      (s.pool.scheduler.queue.map Item.function).count t + s.holds t k) :
    Linked { s with pool } where
  handlers := h.handlers
  begun j hj := by
    obtain ⟨p, hp⟩ := h.begun j hj
    refine ⟨p, ?_⟩
    show pool.scheduler.workers[j]? = _
    rw [moves.worker_of_ne, hp]
    rintro rfl
    exact hidle p (Option.some.inj (moves.at_w.symm.trans hp))
  owners := h.owners
  tasks t := by
    have hchange : held { s with pool } t + s.holds t k =
        s.held t + holds { s with pool } t k := by
      refine held_change (List.getElem?_eq_some_iff.mp moves.at_w).1 moves.length_workers
        fun j hj => ?_
      simp only [holds, moves.worker_of_ne hj]
    have hold := h.tasks t
    have hnew := hcount t
    show s.server.tasks.count t = s.posting.count t +
      (pool.scheduler.queue.map Item.function).count t + held { s with pool } t
    omega

/-- A worker goes on, takes nothing and leaves nothing. -/
theorem Linked.moves_idle (h : s.Linked) {pool : NotifyingScheduler Task} {k : Nat}
    {w w' : Worker Task} (moves : NotifyingScheduler.Moves s.pool pool k w w')
    (hw : w.task = none) (hw' : w'.task = none)
    (hqueue : pool.scheduler.queue = s.pool.scheduler.queue) : Linked { s with pool } := by
  refine h.moves moves (fun p hp => ?_) fun t => ?_
  · rw [hp] at hw
    cases hw
  · have hold : s.holds t k = 0 := by
      rw [holds, moves.at_w]
      cases w with
      | popped p | executing p => cases hw
      | locking | testing | blocked | woken | topped p | returned => rfl
    have hnew : holds { s with pool } t k = 0 := by
      simp only [holds]
      rw [moves.worker]
      cases w' with
      | popped p | executing p => cases hw'
      | locking | testing | blocked | woken | topped p | returned => rfl
    rw [hold, hnew, hqueue]

/-- A worker starts. -/
theorem Linked.run (h : s.Linked) {pool : NotifyingScheduler Task}
    (hworkers : pool.scheduler.workers = s.pool.scheduler.workers ++ [.locking])
    (hqueue : pool.scheduler.queue = s.pool.scheduler.queue) : Linked { s with pool } where
  handlers := h.handlers
  begun k hk := by
    obtain ⟨p, hp⟩ := h.begun k hk
    refine ⟨p, ?_⟩
    show pool.scheduler.workers[k]? = _
    rw [hworkers, List.getElem?_append_left (List.getElem?_eq_some_iff.mp hp).1, hp]
  owners := h.owners
  tasks t := by
    have hold : ∀ k ∈ Finset.range s.pool.scheduler.workers.length,
        holds { s with pool } t k = s.holds t k := by
      intro k hk
      simp only [holds]
      rw [hworkers, List.getElem?_append_left (Finset.mem_range.mp hk)]
    have hnew : holds { s with pool } t s.pool.scheduler.workers.length = 0 := by
      simp only [holds]
      rw [hworkers, List.getElem?_concat_length]
    have hheld : held { s with pool } t = s.held t := by
      rw [held]
      show ∑ k ∈ Finset.range pool.scheduler.workers.length, _ = _
      rw [hworkers, List.length_append, List.length_singleton, Finset.sum_range_succ, hnew,
        Finset.sum_congr rfl hold, Nat.add_zero, held]
    rw [hheld]
    show s.server.tasks.count t = s.posting.count t +
      (pool.scheduler.queue.map Item.function).count t + s.held t
    rw [hqueue]
    exact h.tasks t

/-- The scheduler goes on by itself. -/
theorem Linked.schedule (h : s.Linked) (hsound : s.pool.Sound)
    (haccounted : s.pool.scheduler.Accounted) {e : PriorityScheduler.Event Task}
    {pool : NotifyingScheduler Task} (posts : e.posts = none) (goes : ∀ k, e ≠ .complete k)
    (hstep : s.pool.step (.act e none) = some pool) : Linked { s with pool } := by
  cases hsound.transition_of_step hstep with
  | run workers queue => exact h.run workers queue
  | lock moves idle queue =>
    refine h.moves_idle moves ?_ rfl queue
    rcases idle with rfl | ⟨rfl, -⟩ <;> rfl
  | proceed moves queue | leave moves _ queue | top moves queue =>
    exact h.moves_idle moves rfl rfl queue
  | block moves _ _ queue => exact h.moves_idle moves rfl rfl queue
  | @pop _ k p moves queued queue =>
    refine h.moves moves nofun fun t => ?_
    have hold : s.holds t k = 0 := by
      rw [holds, moves.at_w]
    have hnew : holds { s with pool } t k = if p.function = t then 1 else 0 := by
      simp only [holds]
      rw [moves.worker]
    have hperm := ((haccounted.pop_perm queued).map Item.function).count_eq t
    rw [List.map_cons, List.count_cons, ← queue] at hperm
    simp only [beq_iff_eq] at hperm
    omega
  | @unlock _ k p moves queue =>
    refine h.moves moves nofun fun t => ?_
    have hfresh : k ∉ s.begun := by
      intro hk
      obtain ⟨q, hq⟩ := h.begun k hk
      cases moves.at_w.symm.trans hq
    have hsame : holds { s with pool } t k = s.holds t k := by
      simp only [holds]
      rw [moves.worker, moves.at_w]
      simp [hfresh]
    rw [hsame, queue]
  | @complete _ k => exact absurd rfl (goes k)
  | post hposts =>
    rw [posts] at hposts
    cases hposts
  | stop workers queue => exact h.pool workers queue

/-- A message that was read is posted. -/
theorem Linked.post (h : s.Linked) {t : Task} {posting : List Task}
    (head : s.posting = t :: posting) {pool : NotifyingScheduler Task} {p : Item Task}
    (hp : p.function = t)
    (hworkers : pool.scheduler.workers = s.pool.scheduler.workers)
    (hqueue : pool.scheduler.queue = p :: s.pool.scheduler.queue) :
    Linked { s with pool, posting } where
  handlers := h.handlers
  begun k hk := by
    obtain ⟨q, hq⟩ := h.begun k hk
    exact ⟨q, by rw [← hq, hworkers]⟩
  owners := h.owners
  tasks u := by
    have hheld : held { s with pool, posting } u = s.held u := by
      simp only [held, holds, hworkers]
    have hold := h.tasks u
    rw [head, List.count_cons] at hold
    show s.server.tasks.count u = posting.count u +
      (pool.scheduler.queue.map Item.function).count u + held { s with pool, posting } u
    rw [hheld, hqueue, List.map_cons, List.count_cons, hp]
    omega

/-- The server goes on without the workers. -/
theorem Linked.server (h : s.Linked) {e : Server.Event} (other : e.isScheduled = false)
    {t : Server} (hstep : s.server.step cfg e = some t) :
    Linked { s.advance none s.handlers t with
      posting := s.posting ++ t.tasks.drop s.server.tasks.length } := by
  obtain ⟨new, started, htasks, hrunning, -⟩ := tasks_of_coreStep (step_core hstep) other
  refine ⟨length_handlers h.handlers hrunning, h.begun,
    fun k hk => h.owners k ((mem_handlers hk).resolve_right nofun), fun u => ?_⟩
  have htasks : t.tasks = s.server.tasks ++ new := htasks
  show t.tasks.count u = (s.posting ++ t.tasks.drop s.server.tasks.length).count u +
    (s.pool.scheduler.queue.map Item.function).count u + s.held u
  rw [htasks, List.drop_left, List.count_append, List.count_append, h.tasks u]
  omega

/-- A handler has its next section. -/
theorem Linked.resume (h : s.Linked) {j : Nat} {owner : Option Nat} {t : Server}
    (runs : s.handlers[j]? = some owner) (hstep : s.server.step cfg (.resume j) = some t) :
    Linked (s.advance owner (s.handlers.eraseIdx j) t) := by
  obtain ⟨htasks, hj, started, hrunning⟩ := tasks_of_resume hstep
  refine ⟨length_handlers ?_ hrunning, h.begun, fun k hk => ?_, fun u => ?_⟩
  · rw [List.length_eraseIdx_of_lt (by rw [h.handlers]; exact hj),
      List.length_eraseIdx_of_lt hj, h.handlers]
  · rcases mem_handlers hk with hleft | rfl
    · exact h.owners k (List.mem_of_mem_eraseIdx hleft)
    · exact h.owners k (List.mem_of_getElem? runs)
  · show t.tasks.count u = _
    rw [htasks]
    exact h.tasks u

/-- A worker begins its task. -/
theorem Linked.begin (h : s.Linked) {k i : Nat} {dbFails : Bool} {env : FileEnv} {p : Item Task}
    {t : Server} (at_w : s.pool.scheduler.workers[k]? = some (.executing p)) (fresh : k ∉ s.begun)
    (task : s.server.tasks[i]? = some p.function)
    (hstep : s.server.step cfg (.execute i dbFails env) = some t) :
    Linked { s.advance (some k) s.handlers t with begun := insert k s.begun } := by
  obtain ⟨htasks, started, hrunning⟩ := tasks_of_execute hstep
  refine ⟨length_handlers h.handlers hrunning, fun j hj => ?_, fun j hj => ?_,
    fun u => ?_⟩
  · rcases Finset.mem_insert.mp hj with rfl | hj
    · exact ⟨p, at_w⟩
    · exact h.begun j hj
  · refine Finset.mem_insert.mpr ?_
    rcases mem_handlers hj with hleft | howner
    · exact .inr (h.owners j hleft)
    · exact .inl (Option.some.inj howner)
  · generalize ht : ({ s.advance (some k) s.handlers t with begun := insert k s.begun } :
      ScheduledServer) = s'
    have hchange : s'.held u + s.holds u k = s.held u + s'.holds u k := by
      refine held_change (List.getElem?_eq_some_iff.mp at_w).1 (by rw [← ht]; rfl) fun j hj => ?_
      rw [← ht]
      simp [holds, advance, hj]
    have hold : s.holds u k = if p.function = u then 1 else 0 := by
      simp [holds, at_w, fresh]
    have hnew : s'.holds u k = 0 := by
      rw [← ht]
      simp [holds, advance, at_w]
    obtain ⟨hi, hfunction⟩ := List.getElem?_eq_some_iff.mp task
    have hperm := (List.getElem_cons_eraseIdx_perm hi).count_eq u
    rw [List.count_cons, hfunction] at hperm
    simp only [beq_iff_eq] at hperm
    have hcount := h.tasks u
    subst ht
    show t.tasks.count u = s.posting.count u +
      (s.pool.scheduler.queue.map Item.function).count u + _
    rw [htasks]
    omega

/-- A worker has ended its task. -/
theorem Linked.complete (h : s.Linked) {k : Nat} {pool : NotifyingScheduler Task} {p : Item Task}
    (begun : k ∈ s.begun) (ended : some k ∉ s.handlers)
    (moves : NotifyingScheduler.Moves s.pool pool k (.executing p) .locking)
    (hqueue : pool.scheduler.queue = s.pool.scheduler.queue) :
    Linked { s with pool, begun := s.begun.erase k } := by
  refine ⟨h.handlers, fun j hj => ?_, fun j hj => ?_, fun u => ?_⟩
  · obtain ⟨hjk, hj⟩ := Finset.mem_erase.mp hj
    obtain ⟨q, hq⟩ := h.begun j hj
    refine ⟨q, ?_⟩
    show pool.scheduler.workers[j]? = _
    rw [moves.worker_of_ne hjk, hq]
  · refine Finset.mem_erase.mpr ⟨?_, h.owners j hj⟩
    rintro rfl
    exact ended hj
  · have hchange : held { s with pool, begun := s.begun.erase k } u + s.holds u k =
        s.held u + holds { s with pool, begun := s.begun.erase k } u k := by
      refine held_change (List.getElem?_eq_some_iff.mp moves.at_w).1 moves.length_workers
        fun j hj => ?_
      simp only [holds, moves.worker_of_ne hj, Finset.mem_erase]
      simp [hj]
    have hold : s.holds u k = 0 := by
      simp [holds, moves.at_w, begun]
    have hnew : holds { s with pool, begun := s.begun.erase k } u k = 0 := by
      simp only [holds]
      rw [moves.worker]
    have hcount := h.tasks u
    show s.server.tasks.count u = s.posting.count u +
      (pool.scheduler.queue.map Item.function).count u + _
    rw [hqueue]
    omega

theorem Linked.step (h : s.Linked) (hsound : s.pool.Sound)
    (haccounted : s.pool.scheduler.Accounted) (hnext : s.step cfg e = some s') : s'.Linked := by
  cases transition_of_step hnext with
  | server other hstep result =>
    rw [result]
    exact h.server other hstep
  | resume runs hstep result =>
    rw [result]
    exact h.resume runs hstep
  | post head hstep result =>
    rw [result]
    cases hsound.transition_of_step hstep with
    | post posts _ workers queue =>
      exact h.post head (Option.some.inj posts).symm workers queue
  | pool posts goes hstep result =>
    rw [result]
    exact h.schedule hsound haccounted posts goes hstep
  | wake hstep result =>
    rw [result]
    cases hsound.transition_of_step hstep with
    | wake _ scheduler => exact h.pool (by rw [scheduler]) (by rw [scheduler])
  | begin at_w fresh task hstep result =>
    rw [result]
    exact h.begin at_w fresh task hstep
  | complete begun ended hstep result =>
    rw [result]
    cases hsound.transition_of_step hstep with
    | complete moves queue => exact h.complete begun ended moves queue
    | post posts => cases posts

/-! ## Runs -/

/-- Each query has one of the four types, and each approving reply begins its transfer. -/
def Regular (cfg : Config) (s : ScheduledServer) : Event → Prop
  | .server e => e.KnownType cfg ∧ s.server.BeginsTransfers cfg e
  | _ => True

instance (cfg : Config) (s : ScheduledServer) (e : Event) : Decidable (s.Regular cfg e) :=
  match e with
  | .server e => inferInstanceAs (Decidable (e.KnownType cfg ∧ s.server.BeginsTransfers cfg e))
  | .resume _ | .post _ | .pool _ | .wake _ | .begin .. | .complete _ =>
    inferInstanceAs (Decidable True)

/-- A run is a run of the server. -/
theorem reach_server (h : Reach (step cfg) (Regular cfg) (initial cfg users) s) :
    Reach (Server.step cfg) (fun s e => e.KnownType cfg ∧ s.BeginsTransfers cfg e)
      (Server.initial cfg users) s.server := by
  refine h.invariant (I := fun s => Reach (Server.step cfg)
    (fun s e => e.KnownType cfg ∧ s.BeginsTransfers cfg e) (Server.initial cfg users) s.server)
    .init ?_
  intro s e s' hold hregular hnext
  cases transition_of_step hnext with
  | server other hstep result =>
    rw [result]
    exact hold.next hregular hstep
  | @resume j _ _ runs hstep result =>
    rw [result]
    have hregular : Server.Event.KnownType cfg (.resume j) ∧
        s.server.BeginsTransfers cfg (.resume j) := ⟨trivial, trivial⟩
    exact hold.next hregular hstep
  | @begin k i dbFails env _ _ at_w fresh task hstep result =>
    rw [result]
    have hregular : Server.Event.KnownType cfg (.execute i dbFails env) ∧
        s.server.BeginsTransfers cfg (.execute i dbFails env) := ⟨trivial, trivial⟩
    exact hold.next hregular hstep
  | post _ _ result | pool _ _ _ result | wake _ result | complete _ _ _ result =>
    rw [result]
    exact hold

theorem reach_pool_step
    (h : Reach NotifyingScheduler.step anyStep NotifyingScheduler.init s.pool)
    (hnext : s.step cfg e = some s') :
    Reach NotifyingScheduler.step anyStep NotifyingScheduler.init s'.pool := by
  rcases pool_of_step hnext with hsame | ⟨a, hstep⟩
  · rw [hsame]
    exact h
  · exact h.next trivial hstep

/-- A run is a run of the scheduler. -/
theorem reach_pool {G : ScheduledServer → Event → Prop}
    (h : Reach (step cfg) G (initial cfg users) s) :
    Reach NotifyingScheduler.step anyStep NotifyingScheduler.init s.pool := by
  refine h.invariant (I := fun s => Reach _ anyStep NotifyingScheduler.init s.pool) .init ?_
  exact fun _ _ _ hold _ hnext => reach_pool_step hold hnext

theorem linked_of_reach {G : ScheduledServer → Event → Prop}
    (h : Reach (step cfg) G (initial cfg users) s) : s.Linked := by
  have hboth : Reach NotifyingScheduler.step anyStep NotifyingScheduler.init s.pool ∧ s.Linked := by
    refine h.invariant (I := fun s =>
      Reach NotifyingScheduler.step anyStep NotifyingScheduler.init s.pool ∧ s.Linked)
      ⟨.init, linked_initial cfg users⟩ ?_
    rintro s e s' ⟨hpool, hlinked⟩ - hnext
    obtain ⟨hsound, -⟩ := NotifyingScheduler.invariants_of_reach hpool
    obtain ⟨-, haccounted⟩ :=
      PriorityScheduler.invariants_of_reach (NotifyingScheduler.reach_scheduler hpool)
    exact ⟨reach_pool_step hpool hnext, hlinked.step hsound haccounted hnext⟩
  exact hboth.2

/-! ## What is left to do -/

/-- The work of the server, the tasks to be posted, and the work of the scheduler. -/
def load (s : ScheduledServer) :
    (Nat ×ₗ Nat ×ₗ Nat ×ₗ Nat ×ₗ Nat) ×ₗ Nat ×ₗ Nat ×ₗ Nat :=
  toLex (s.server.left, toLex (s.posting.length, s.pool.load))

theorem load_lt_of_server (h : s'.server.left < s.server.left) : s'.load < s.load := by
  rw [load, load, Prod.Lex.toLex_lt_toLex]
  exact .inl h

theorem load_lt_of_pool (hserver : s'.server = s.server) (hposting : s'.posting = s.posting)
    (h : s'.pool.load < s.pool.load) : s'.load < s.load := by
  rw [load, load, Prod.Lex.toLex_lt_toLex, Prod.Lex.toLex_lt_toLex, hserver, hposting]
  exact .inr ⟨rfl, .inr ⟨rfl, h⟩⟩

theorem load_step (hbase : s.server.core.Base) (hsound : s.pool.Sound)
    (hnext : s.step cfg e = some s') (hworks : s.Works e) : s'.load < s.load := by
  have hdown := Server.runsDown cfg
  cases transition_of_step hnext with
  | server other hstep result =>
    refine load_lt_of_server ?_
    rw [result]
    exact hdown.lt _ _ _ hbase hworks hstep
  | @resume j _ _ runs hstep result =>
    refine load_lt_of_server ?_
    rw [result]
    exact hdown.lt _ (.resume j) _ hbase trivial hstep
  | @begin k i dbFails env _ _ at_w fresh task hstep result =>
    refine load_lt_of_server ?_
    rw [result]
    exact hdown.lt _ (.execute i dbFails env) _ hbase trivial hstep
  | post head hstep result =>
    rw [load, load, Prod.Lex.toLex_lt_toLex, Prod.Lex.toLex_lt_toLex, result, head]
    exact .inr ⟨rfl, .inl (Nat.lt_succ_self _)⟩
  | @pool e pool posts goes hstep result =>
    have hless : pool.load < s.pool.load := by
      refine NotifyingScheduler.load_step (hsound.transition_of_step hstep) ?_
      cases e with
      | complete k => exact absurd rfl (goes k)
      | _ => exact hworks
    rw [result]
    exact load_lt_of_pool rfl rfl hless
  | wake => exact hworks.elim
  | @complete k pool begun ended hstep result =>
    have hless : pool.load < s.pool.load :=
      NotifyingScheduler.load_step (hsound.transition_of_step hstep) trivial
    rw [result]
    exact load_lt_of_pool rfl rfl hless

/-- A step that is not from outside is work, or one of the server that leaves the rest alone. -/
theorem load_le_of_not_disturbs (hbase : s.server.core.Base) (hsound : s.pool.Sound)
    (hnext : s.step cfg e = some s') (hquiet : ¬ e.Disturbs) : s'.load ≤ s.load := by
  rcases Classical.em (s.Works e) with hworks | hidle
  · exact (load_step hbase hsound hnext hworks).le
  · cases transition_of_step hnext with
    | @server e t other hstep result =>
      have hle : t.left ≤ s.server.left := (Server.runsDown cfg).le _ _ _ hbase hquiet hstep
      obtain ⟨new, started, htasks, -, hnew⟩ := tasks_of_coreStep (step_core hstep) other
      have hposting : s'.posting = s.posting := by
        have htasks : t.tasks = s.server.tasks ++ new := htasks
        rw [result]
        show s.posting ++ t.tasks.drop s.server.tasks.length = s.posting
        rw [htasks, List.drop_left, hnew hquiet, List.append_nil]
      rcases hle.lt_or_eq with hlt | heq
      · refine (load_lt_of_server ?_).le
        rw [result]
        exact hlt
      · refine le_of_eq ?_
        rw [load, load, hposting, result]
        exact congrArg (fun l => toLex (l, toLex (s.posting.length, s.pool.load))) heq
    | resume | post | begin | complete => exact absurd trivial hidle
    | wake => exact absurd trivial hquiet
    | @pool e pool posts goes =>
      cases e with
      | run | stop => exact absurd trivial hquiet
      | post | request => cases posts
      | complete k => exact absurd rfl (goes k)
      | lock | test | leave | top | pop | unlock => exact absurd trivial hidle

theorem runsDown (cfg : Config) : RunsDown (step cfg)
    (fun s => s.server.core.Base ∧ s.pool.Sound) Works (fun _ e => ¬ e.Disturbs) load where
  kept s e s' hinv hnext := by
    constructor
    · rcases server_of_step hnext with hsame | ⟨a, hstep⟩
      · rw [hsame]
        exact hinv.1
      · exact hinv.1.step (step_core hstep)
    · rcases pool_of_step hnext with hsame | ⟨a, hstep⟩
      · rw [hsame]
        exact hinv.2
      · exact hinv.2.step hstep
  lt _ _ _ hinv hworks hnext := load_step hinv.1 hinv.2 hnext hworks
  le _ _ _ hinv hquiet hnext := load_le_of_not_disturbs hinv.1 hinv.2 hnext hquiet

/-! ## The server and its workers at rest -/

/-- The worker executes a task that its tree cannot take. -/
def Stuck (cfg : Config) (s : ScheduledServer) (w : Worker Task) : Prop :=
  ∃ p, w = .executing p ∧ p.function ∈ s.server.tasks ∧
    p.function.request.Undefined cfg (s.server.tree p.function.conn)

/-- No handler runs. -/
theorem Rests.running (hrest : s.Rests cfg) (hs : s.server.halted = false) (hlinked : s.Linked) :
    s.server.running = [] := by
  refine List.eq_nil_iff_length_eq_zero.mpr (Nat.eq_zero_of_not_pos fun hpos => ?_)
  have hresume := hrest (.resume 0) trivial
  have hhandler : 0 < s.handlers.length := by rwa [hlinked.handlers]
  simp [step, hs, Server.step, List.getElem?_eq_getElem hpos,
    List.getElem?_eq_getElem hhandler] at hresume

/-- The scheduler does nothing by itself. -/
theorem Rests.idle (hrest : s.Rests cfg) (hs : s.server.halted = false) : s.pool.Idle := by
  intro e he
  have hpool := hrest (.pool e) he
  simp only [step, hs, Bool.false_eq_true, if_false] at hpool
  cases e with
  | run | post | request | stop | complete => exact he.elim
  | lock | test | leave | top | pop | unlock => exact Option.map_eq_none_iff.mp hpool

/-- A worker that has begun could end its task. -/
theorem Rests.not_begun (hrest : s.Rests cfg) (hs : s.server.halted = false) (hlinked : s.Linked)
    (k : Nat) : k ∉ s.begun := by
  intro hk
  obtain ⟨p, at_w⟩ := hlinked.begun k hk
  have hended : some k ∉ s.handlers := by
    have hlength := hlinked.handlers
    rw [hrest.running hs hlinked, List.length_nil] at hlength
    rw [List.length_eq_zero_iff.mp hlength]
    exact List.not_mem_nil
  have hcomplete := hrest (.complete k) trivial
  simp [step, hs, hk, hended, NotifyingScheduler.step, NotifyingScheduler.notify,
    PriorityScheduler.step, at_w] at hcomplete

/-- The server cannot execute the task of a worker. -/
theorem Rests.execute (hrest : s.Rests cfg) (hs : s.server.halted = false) (hlinked : s.Linked)
    {k i : Nat} {p : Item Task} (at_w : s.pool.scheduler.workers[k]? = some (.executing p))
    (htask : s.server.tasks[i]? = some p.function) (dbFails : Bool) (env : FileEnv) :
    s.server.step cfg (.execute i dbFails env) = none := by
  have hbegin := hrest (.begin k i dbFails env) trivial
  simpa [step, hs, at_w, htask, hrest.not_begun hs hlinked k] using hbegin

/-- The task of a worker is one of the server. -/
theorem Rests.mem_tasks (hrest : s.Rests cfg) (hs : s.server.halted = false) (hlinked : s.Linked)
    {k : Nat} {p : Item Task} (at_w : s.pool.scheduler.workers[k]? = some (.executing p)) :
    p.function ∈ s.server.tasks := by
  have hholds : s.holds p.function k = 1 := by
    simp [holds, at_w, hrest.not_begun hs hlinked k]
  have hle : s.holds p.function k ≤ s.held p.function :=
    Finset.single_le_sum (f := s.holds p.function) (fun _ _ => Nat.zero_le _)
      (Finset.mem_range.mpr (List.getElem?_eq_some_iff.mp at_w).1)
  have hcount := hlinked.tasks p.function
  exact List.count_pos_iff.mp (by omega)

/-- Each worker sleeps, is stuck, or has returned. -/
theorem Rests.cases (hrest : s.Rests cfg) (hs : s.server.halted = false) (hlinked : s.Linked)
    (hsound : s.pool.Sound) {k : Nat} {w : Worker Task}
    (at_w : s.pool.scheduler.workers[k]? = some w) :
    (w = .blocked ∧ k ∈ s.pool.sleepers) ∨ s.Stuck cfg w ∨ w = .returned := by
  rcases (hrest.idle hs).cases hsound at_w with hsleeps | ⟨p, rfl⟩ | hreturned
  · exact .inl hsleeps
  · have hmem := hrest.mem_tasks hs hlinked at_w
    obtain ⟨i, hi⟩ := List.mem_iff_getElem?.mp hmem
    have hnone := hrest.execute hs hlinked at_w hi false sampleEnv
    exact .inr (.inl ⟨p, rfl, hmem, Server.undefined_of_execute hs hi hnone⟩)
  · exact .inr (.inr hreturned)

/-- Nothing waits to be posted if a worker sleeps. -/
theorem Rests.posting (hrest : s.Rests cfg) (hs : s.server.halted = false)
    (hsound : s.pool.Sound) {k : Nat} (hsleeps : k ∈ s.pool.sleepers) : s.posting = [] := by
  have hfree := (hrest.idle hs).mutex_free hsound
  have hpost := hrest (.post (some k)) trivial
  cases hposting : s.posting with
  | nil => rfl
  | cons t posting =>
    simp [step, hs, hposting, NotifyingScheduler.step, NotifyingScheduler.notify,
      NotifyingScheduler.NotifiesOne, hsleeps, PriorityScheduler.step, hfree] at hpost

/-- Then the tasks of the server are those of the stuck workers. -/
theorem Rests.executing_of_mem (hrest : s.Rests cfg) (hs : s.server.halted = false)
    (hlinked : s.Linked) (hsound : s.pool.Sound) (hposting : s.posting = [])
    (hqueue : s.pool.scheduler.queue = []) {t : Task} (ht : t ∈ s.server.tasks) :
    ∃ (k : Nat) (p : Item Task),
      s.pool.scheduler.workers[k]? = some (.executing p) ∧ p.function = t := by
  have hcount := hlinked.tasks t
  have hpos := List.count_pos_iff.mpr ht
  rw [hposting, hqueue, List.map_nil, List.count_nil, Nat.zero_add] at hcount
  rw [hcount, held, Finset.sum_pos_iff] at hpos
  obtain ⟨k, hk, hholds⟩ := hpos
  cases at_w : s.pool.scheduler.workers[k]? with
  | none => simp [holds, at_w] at hholds
  | some w =>
    rcases (hrest.idle hs).cases hsound at_w with ⟨rfl, -⟩ | ⟨p, rfl⟩ | rfl
    · simp [holds, at_w] at hholds
    · simp only [holds, at_w] at hholds
      split at hholds
      · next hp => exact ⟨k, p, at_w, hp.2⟩
      · cases hholds
    · simp [holds, at_w] at hholds

/-- Then the server without its scheduler is at rest too. -/
theorem Rests.server (hrest : s.Rests cfg) (hs : s.server.halted = false) (hlinked : s.Linked)
    (hsound : s.pool.Sound) (hposting : s.posting = []) (hqueue : s.pool.scheduler.queue = []) :
    s.server.Rests cfg := by
  have others : ∀ e : Server.Event, s.server.Works e → e.isScheduled = false →
      s.server.step cfg e = none := by
    intro e hworks hother
    have hserver := hrest (.server e) hworks
    simpa [step, hs, hother] using hserver
  intro e hworks
  cases e with
  | execute i dbFails env =>
    cases htask : s.server.tasks[i]? with
    | none => simp [Server.step, htask]
    | some t =>
      obtain ⟨k, p, at_w, rfl⟩ :=
        hrest.executing_of_mem hs hlinked hsound hposting hqueue (List.mem_of_getElem? htask)
      exact hrest.execute hs hlinked at_w htask dbFails env
  | resume j => simp [Server.step, hrest.running hs hlinked]
  | accept | read | stop | helloSender | uploadCompleted => exact hworks.elim
  | sharedWrite | backupTimer | transactionTimer | transferCompleted => exact others _ hworks rfl

/-- The work of the server and its workers cannot go on forever unless it is disturbed again and
again, and leads to rest from every state reached. At rest, if `stop` has not come, each worker
sleeps or is stuck in a task that its tree cannot take. If one of them sleeps, then every message
was posted, the queue is empty, the tasks left are those of the stuck workers, and every other
confirmed request of a connection was concluded. -/
theorem requests_served (hdistinct : cfg.TypesDistinct) :
    (∀ (states : Nat → ScheduledServer) (events : Nat → Event), states 0 = initial cfg users →
      (∀ n, (states n).step cfg (events n) = some (states (n + 1))) →
      (∃ N, ∀ n, N ≤ n → ¬ (events n).Disturbs) →
      ∃ N, ∀ n, N ≤ n → ¬ (states n).Works (events n)) ∧
    ∀ s, Reach (step cfg) (Regular cfg) (initial cfg users) s →
      (∃ es s', exec (step cfg) s es = some s' ∧ EachStep (step cfg) Works s es ∧ s'.Rests cfg) ∧
      (s.Rests cfg → s.server.halted = false → s.pool.scheduler.stopped = false →
        (∀ w ∈ s.pool.scheduler.workers, w = .blocked ∨ s.Stuck cfg w) ∧
        (.blocked ∈ s.pool.scheduler.workers →
          s.posting = [] ∧ s.pool.scheduler.queue = [] ∧
          (∀ t ∈ s.server.tasks, ∃ w ∈ s.pool.scheduler.workers, s.Stuck cfg w ∧
            w.task.map Item.function = some t) ∧
          ∀ c ∈ s.server.registry.connections, ∀ id,
            (s.server.ledger c id).concluded + (s.server.ledger c id).queued =
              (s.server.ledger c id).confirmed)) := by
  have hinitial : (initial cfg users).server.core.Base ∧ (initial cfg users).pool.Sound :=
    ⟨Core.base_initial cfg users, NotifyingScheduler.sound_init⟩
  constructor
  · rintro states events hstart hstep ⟨N, hquiet⟩
    exact (runsDown cfg).exists_forall_not (by rwa [hstart]) hstep
      fun n hn => .inr (hquiet n hn)
  · intro s hreach
    have hinv : s.server.core.Base ∧ s.pool.Sound :=
      hreach.invariant (I := fun s => s.server.core.Base ∧ s.pool.Sound) hinitial
        fun _ _ _ hold _ hnext => (runsDown cfg).kept _ _ _ hold hnext
    obtain ⟨hsound, halert⟩ := NotifyingScheduler.invariants_of_reach (reach_pool hreach)
    have hlinked := linked_of_reach hreach
    refine ⟨(runsDown cfg).exists_rest hinv, fun hrest hs hgoing => ⟨fun w hw => ?_, fun hw => ?_⟩⟩
    · obtain ⟨k, at_w⟩ := List.mem_iff_getElem?.mp hw
      rcases hrest.cases hs hlinked hsound at_w with ⟨hblocked, -⟩ | hstuck | rfl
      · exact .inl hblocked
      · exact .inr hstuck
      · rw [halert.returned hw] at hgoing
        cases hgoing
    · obtain ⟨k, at_w⟩ := List.mem_iff_getElem?.mp hw
      have hsleeps : k ∈ s.pool.sleepers := by
        rcases hrest.cases hs hlinked hsound at_w with ⟨-, hsleeps⟩ | ⟨p, hp, -⟩ | hreturned
        · exact hsleeps
        · cases hp
        · cases hreturned
      have hposting := hrest.posting hs hsound hsleeps
      have hqueue := (hrest.idle hs).queue hsound halert (Finset.ne_empty_of_mem hsleeps)
      refine ⟨hposting, hqueue, fun t ht => ?_, fun c hc id => ?_⟩
      · obtain ⟨k, p, at_w, rfl⟩ :=
          hrest.executing_of_mem hs hlinked hsound hposting hqueue ht
        refine ⟨_, List.mem_of_getElem? at_w, ?_, rfl⟩
        rcases hrest.cases hs hlinked hsound at_w with ⟨hblocked, -⟩ | hstuck | hreturned
        · cases hblocked
        · exact hstuck
        · cases hreturned
      · exact (hrest.server hs hlinked hsound hposting hqueue).concluded hdistinct
          (reach_server hreach) hs hc id

/-- When all workers sleep and nothing is left for the server, both rest. -/
theorem rests_of_nothing (hserver : s.server.Rests cfg) (hhandlers : s.handlers = [])
    (hposting : s.posting = []) (hbegun : s.begun = ∅)
    (hasleep : ∀ k w, s.pool.scheduler.workers[k]? = some w → w = .blocked ∧ k ∉ s.pool.notified) :
    s.Rests cfg := by
  have hidle := NotifyingScheduler.idle_of_asleep hasleep
  intro e hworks
  unfold step
  split
  · rfl
  cases e with
  | server e =>
    have hstep := hserver e hworks
    simp [hstep]
  | resume j => simp [hhandlers]
  | post woken => simp [hposting]
  | pool e =>
    have hstep := hidle e hworks
    cases e with
    | post | request | complete => rfl
    | run | stop | lock | test | leave | top | pop | unlock =>
      exact Option.map_eq_none_iff.mpr hstep
  | wake k => exact hworks.elim
  | begin k i dbFails env =>
    cases at_w : s.pool.scheduler.workers[k]? with
    | none => simp [at_w]
    | some w =>
      obtain ⟨rfl, -⟩ := hasleep k w at_w
      simp [at_w]
  | complete k => simp [hbegun]

open Server.Event in
/-- A worker sleeps when a client signs up, executes the task and sleeps again. -/
theorem requests_served_one_worker :
    ∃ s, Reach (step sampleConfig) (Regular sampleConfig) (initial sampleConfig []) s ∧
      s.Rests sampleConfig ∧ s.server.registry.connections = [0] ∧
      (s.server.ledger 0 ['1']).confirmed = 1 ∧ s.posting = [] ∧
      (s.server.ledger 0 ['1']).concluded + (s.server.ledger 0 ['1']).queued =
        (s.server.ledger 0 ['1']).confirmed := by
  obtain ⟨s, hs, hhalted, hstopped, hworkers, hnotified, hconnections, hconfirmed, htasks,
      hrunning, hwrites, htimers, hrequests, hhandlers, hposting, hbegun⟩ :=
    exists_reach_of_exec_guarded (step sampleConfig) (Regular sampleConfig)
      (initial sampleConfig [])
      (fun s => s.server.halted = false ∧ s.pool.scheduler.stopped = false ∧
        s.pool.scheduler.workers = [.blocked] ∧ s.pool.notified = ∅ ∧
        s.server.registry.connections = [0] ∧ (s.server.ledger 0 ['1']).confirmed = 1 ∧
        s.server.tasks = [] ∧ s.server.running = [] ∧ s.server.registry.writes = [] ∧
        s.server.downloads.transactionTimers = [] ∧
        s.server.downloads.backedupRequests.toList = [] ∧ s.handlers = [] ∧ s.posting = [] ∧
        s.begun = ∅)
      [.server (.accept 0), .pool .run, .pool (.lock 0), .pool (.test 0),
        .server (readSignup 0 ['a']), .post (some 0), .pool (.lock 0), .pool (.test 0),
        .pool (.top 0 0), .pool (.pop 0), .pool (.unlock 0), .begin 0 0 false sampleEnv,
        .resume 0, .complete 0, .pool (.lock 0), .pool (.test 0)] (by decide +kernel)
  have hrest : s.Rests sampleConfig := by
    refine rests_of_nothing (Server.rests_of_nothing htasks hrunning hwrites htimers hrequests)
      hhandlers hposting hbegun fun k w at_w => ⟨?_, by simp [hnotified]⟩
    have hmem := List.mem_of_getElem? at_w
    simpa [hworkers] using hmem
  have hdistinct : sampleConfig.TypesDistinct := by decide
  obtain ⟨-, hserved⟩ :=
    ((requests_served hdistinct).2 s hs).2 hrest hhalted hstopped
  obtain ⟨-, -, -, hconcluded⟩ := hserved (by simp [hworkers])
  exact ⟨s, hs, hrest, hconnections, hconfirmed, hposting,
    hconcluded 0 (by simp [hconnections]) ['1']⟩

end ScheduledServer

end FspServer
