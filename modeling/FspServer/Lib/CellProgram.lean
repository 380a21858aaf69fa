import FspServer.Lib.LinkedTree
import FspServer.Lib.SpinLock

/-!
# Programs on linked cells

A program reads, writes, allocates and releases one cell at a time. What it does is said twice:
`run` carries it out at once, and `next` is its next step.

* `Program.performs_iff`: as the body of a call under a `SpinLock`, a program that runs alone
  does what `run` says.
* `Program.run_bind`: a program that is followed by another. With it and the runs of the single
  steps, programs are compared with functions on the heap.
-/

namespace LinkedTree

open Relation

universe u v

variable {α : Type u}

/-- What is left to do. -/
inductive Program (α : Type u) (β : Type v) where
  | ret (b : β)
  | stuck
  | read (a : Nat) (rest : Cell α → Program α β)
  | write (a : Nat) (f : Cell α → Cell α) (rest : Program α β)
  | new (c : Cell α) (rest : Nat → Program α β)
  | delete (a : Nat) (rest : Program α β)

namespace Program

variable {β γ : Type v}

def bind : Program α β → (β → Program α γ) → Program α γ
  | ret b, f => f b
  | stuck, _ => stuck
  | read a rest, f => read a fun c => (rest c).bind f
  | write a g rest, f => write a g (rest.bind f)
  | new c rest, f => new c fun a => (rest a).bind f
  | delete a rest, f => delete a (rest.bind f)

instance : Monad (Program α) where
  pure := ret
  bind := bind

/-! ## Single steps -/

def load (a : Nat) : Program α (Cell α) := read a ret

def store (a : Nat) (f : Cell α → Cell α) : Program α PUnit := write a f (ret ⟨⟩)

def alloc (c : Cell α) : Program α Nat := new c ret

def free (a : Nat) : Program α PUnit := delete a (ret ⟨⟩)

/-- The next step: the memory after it, and what is left to do or the result. -/
def next (A : Allocator α) (h : Heap α) : Program α β → Option (Heap α × (Program α β ⊕ β))
  | ret b => some (h, .inr b)
  | stuck => none
  | read a rest => (h a).map fun c => (h, .inl (rest c))
  | write a f rest => (h.update a f).map fun h => (h, .inl rest)
  | new c rest => some (h.alloc (A.fresh h) c, .inl (rest (A.fresh h)))
  | delete a rest => some (h.free a, .inl rest)

/-- All steps, one after the other. -/
def run (A : Allocator α) : Program α β → Heap α → Option (Heap α × β)
  | ret b, h => some (h, b)
  | stuck, _ => none
  | read a rest, h => (h a).bind fun c => (rest c).run A h
  | write a f rest, h => (h.update a f).bind (rest.run A)
  | new c rest, h => (rest (A.fresh h)).run A (h.alloc (A.fresh h) c)
  | delete a rest, h => rest.run A (h.free a)

/-! ## One step after the other -/

variable {A : Allocator α} {h h' : Heap α}

@[simp] theorem run_pure (b : β) : (pure b : Program α β).run A h = some (h, b) := rfl

@[simp] theorem run_stuck : (stuck : Program α β).run A h = none := rfl

@[simp] theorem run_load (a : Nat) : (load a).run A h = (h a).map fun c => (h, c) :=
  Option.map_eq_bind.symm

@[simp] theorem run_store (a : Nat) (f : Cell α → Cell α) :
    (store a f).run A h = (h.update a f).map fun h => (h, ⟨⟩) :=
  Option.map_eq_bind.symm

@[simp] theorem run_alloc (c : Cell α) :
    (alloc c).run A h = some (h.alloc (A.fresh h) c, A.fresh h) := rfl

@[simp] theorem run_free (a : Nat) : (free a).run A h = some (h.free a, ⟨⟩) := rfl

@[simp] theorem run_bind (p : Program α β) (f : β → Program α γ) :
    (p >>= f).run A h = (p.run A h).bind fun r => (f r.2).run A r.1 := by
  show (p.bind f).run A h = _
  induction p generalizing h with
  | ret b => rfl
  | stuck => rfl
  | read a rest ih => simp [bind, run, ih, Option.bind_assoc]
  | write a g rest ih => simp [bind, run, ih, Option.bind_assoc]
  | new c rest ih => exact ih _
  | delete a rest ih => exact ih

/-! ## Bodies of calls -/

variable {ε : Type*} {body : ε → Program α β}

/-- Calls whose bodies are programs. -/
def object (A : Allocator α) (body : ε → Program α β) :
    SpinLock.Object (Heap α) ε (Program α β) β where
  enter := body
  next h p := p.next A h

/-- A step leaves to do what was still to be done. -/
theorem run_of_step {p p' : Program α β} (hstep : (object A body).Step (h, p) (h', p')) :
    p.run A h = p'.run A h' := by
  have hnext : p.next A h = some (h', .inl p') := hstep
  cases p with
  | ret b => cases hnext
  | stuck => cases hnext
  | read a rest =>
    obtain ⟨c, hc, heq⟩ := Option.map_eq_some_iff.mp hnext
    cases heq
    simp [run, hc]
  | write a f rest =>
    obtain ⟨k, hk, heq⟩ := Option.map_eq_some_iff.mp hnext
    cases heq
    simp [run, hk]
  | new c rest =>
    cases hnext
    rfl
  | delete a rest =>
    cases hnext
    rfl

theorem run_of_steps {a b : Heap α × Program α β}
    (hsteps : ReflTransGen (object A body).Step a b) : a.2.run A a.1 = b.2.run A b.1 := by
  induction hsteps with
  | refl => rfl
  | tail _ hstep ih => exact ih.trans (run_of_step hstep)

/-- A program whose run ends comes to its end step by step. -/
theorem steps_of_run {p : Program α β} {b : β} (hrun : p.run A h = some (h', b)) :
    ReflTransGen (object A body).Step (h, p) (h', ret b) := by
  induction p generalizing h with
  | ret c =>
    cases hrun
    exact .refl
  | stuck => cases hrun
  | read a rest ih =>
    obtain ⟨c, hc, hrest⟩ := Option.bind_eq_some_iff.mp hrun
    exact .head (Option.map_eq_some_iff.mpr ⟨c, hc, rfl⟩) (ih c hrest)
  | write a f rest ih =>
    obtain ⟨k, hk, hrest⟩ := Option.bind_eq_some_iff.mp hrun
    exact .head (Option.map_eq_some_iff.mpr ⟨k, hk, rfl⟩) (ih hrest)
  | new c rest ih =>
    exact .head (b := (h.alloc (A.fresh h) c, rest (A.fresh h))) rfl (ih _ hrun)
  | delete a rest ih => exact .head (b := (h.free a, rest)) rfl (ih hrun)

/-- A body that runs alone does what its run does. -/
theorem performs_iff {e : ε} {b : β} :
    (object A body).Performs e h h' b ↔ (body e).run A h = some (h', b) := by
  constructor
  · rintro ⟨⟨k, p⟩, hsteps, hlast⟩
    have hsame : (body e).run A h = p.run A k := run_of_steps hsteps
    rw [hsame]
    have hnext : p.next A k = some (h', .inr b) := hlast
    cases p with
    | ret c =>
      cases hnext
      rfl
    | read a rest =>
      obtain ⟨c, -, heq⟩ := Option.map_eq_some_iff.mp hnext
      cases heq
    | write a f rest =>
      obtain ⟨c, -, heq⟩ := Option.map_eq_some_iff.mp hnext
      cases heq
    | _ => cases hnext
  · exact fun hrun => ⟨(h', ret b), steps_of_run hrun, rfl⟩

end Program

end LinkedTree
