import Mathlib.Data.List.Basic

/-!
# Call chains over non-recursive locks

What a call does to the locks of its thread is a list of actions. A thread that
requests a lock it holds waits for itself, and nothing after that request is
done. `Chain` is a call that leaves the locks as it found them, which is what
scoped guards give; its operations are those of straight code: nothing, one call
after another, a call under a guard, and a loop.

`relocks_append`, `relocks_forEach` and `relocks_guarded` say of each operation
when it requests a lock that is held.
-/

namespace Locks

inductive Action (L : Type) where
  | lock (l : L)
  | unlock (l : L)
deriving DecidableEq, Repr

variable {L α : Type} [DecidableEq L]

/-- The locks that are held after the actions; `none` when a lock that is held is
requested. -/
def run (held : List L) : List (Action L) → Option (List L)
  | [] => some held
  | .lock l :: actions => if l ∈ held then none else run (l :: held) actions
  | .unlock l :: actions => run (held.erase l) actions

theorem run_append (held : List L) (as bs : List (Action L)) :
    run held (as ++ bs) = (run held as).bind fun held' => run held' bs := by
  induction as generalizing held with
  | nil => rfl
  | cons a as ih =>
    cases a with
    | lock l =>
      simp only [List.cons_append, run]
      split
      · rfl
      · exact ih _
    | unlock l => exact ih _

/-- A call that returns with the locks it was made with, if it returns. -/
structure Chain (L : Type) [DecidableEq L] where
  actions : List (Action L)
  balanced : ∀ held held', run held actions = some held' → held' = held

namespace Chain

/-- The call requests a lock that is held when it is made, or that it has taken. -/
def Relocks (held : List L) (c : Chain L) : Prop := run held c.actions = none

instance (held : List L) (c : Chain L) : Decidable (c.Relocks held) :=
  inferInstanceAs (Decidable (run held c.actions = none))

theorem run_of_not_relocks {held : List L} {c : Chain L} (h : ¬ c.Relocks held) :
    run held c.actions = some held := by
  cases hrun : run held c.actions with
  | none => exact absurd hrun h
  | some held' => rw [c.balanced held held' hrun]

/-- Takes no lock. -/
def idle : Chain L := ⟨[], fun _ _ h => (Option.some.inj h).symm⟩

instance : Append (Chain L) where
  append c d := ⟨c.actions ++ d.actions, by
    intro held held' h
    rw [run_append] at h
    obtain ⟨mid, hc, hd⟩ := Option.bind_eq_some_iff.mp h
    exact (d.balanced mid held' hd).trans (c.balanced held mid hc)⟩

/-- A call inside the scope of a guard of `l`. -/
def guarded (l : L) (c : Chain L) : Chain L :=
  ⟨.lock l :: c.actions ++ [.unlock l], by
    intro held held' h
    rw [run_append] at h
    obtain ⟨mid, hc, hunlock⟩ := Option.bind_eq_some_iff.mp h
    simp only [run] at hc
    split at hc
    · cases hc
    · have hmid := c.balanced _ _ hc
      subst hmid
      simpa [run] using hunlock.symm⟩

/-- The calls of a loop, in the order of the list. -/
def forEach (f : α → Chain L) : List α → Chain L
  | [] => idle
  | a :: as => f a ++ forEach f as

variable {held : List L} {c d : Chain L} {l : L}

@[simp] theorem not_relocks_idle : ¬ (idle : Chain L).Relocks held := by
  simp [Relocks, idle, run]

theorem not_relocks_ite {p : Prop} [Decidable p] (hc : ¬ c.Relocks held) (hd : ¬ d.Relocks held) :
    ¬ (if p then c else d).Relocks held := by
  split
  · exact hc
  · exact hd

@[simp] theorem relocks_append :
    (c ++ d).Relocks held ↔ c.Relocks held ∨ d.Relocks held := by
  show run held (c.actions ++ d.actions) = none ↔ _
  rw [run_append]
  by_cases hc : c.Relocks held
  · have hrun : run held c.actions = none := hc
    simp [hrun, hc]
  · simp [run_of_not_relocks hc, Relocks]

@[simp] theorem relocks_guarded :
    (guarded l c).Relocks held ↔ l ∈ held ∨ c.Relocks (l :: held) := by
  show run held (.lock l :: c.actions ++ [.unlock l]) = none ↔ _
  rw [run_append]
  by_cases hl : l ∈ held
  · simp [run, hl]
  · cases hrun : run (l :: held) c.actions with
    | none => simp [run, hl, hrun, Relocks]
    | some held' => simp [run, hl, hrun, Relocks]

@[simp] theorem relocks_forEach {f : α → Chain L} {as : List α} :
    (forEach f as).Relocks held ↔ ∃ a ∈ as, (f a).Relocks held := by
  induction as with
  | nil => simp [forEach]
  | cons a as ih => simp [forEach, ih]

end Chain

end Locks
