import FspServer.CallBodies

/-!
# Calls of several threads

`Add`, `Find`, `Remove`, `Rename`, `SetCached` and `Empty` do what they do to the nodes between
`VFS_CRITICAL_SECTION_START` and `VFS_CRITICAL_SECTION_END`, under the `SpinLock` of the tree.
Any number of threads may make them on one tree, and the steps of their bodies on the memory
come in any order. Which steps a body is made of is left open: they are a parameter, and what is
asked of them is that a body that runs alone does what its call does (`Carries`). The bodies that
use one node in each step are of this kind (`carries_bodies`).

`Get` walks the children of the root outside the lock and is not among these calls.

* `sections_linearizable`: the calls return what they would return if they were made one after
  another, in the order in which they held the lock.
-/

namespace FspServer

open Runs LinkedTree SpinLock NodeHeap

variable {χ : Type} [DecidableEq χ]

/-- All that the call does to the nodes is one critical section. -/
def VfsCall.isSection : VfsCall χ → Bool
  | .Get _ => false
  | _ => true

/-- A call that is one critical section. -/
abbrev SectionCall (χ : Type) := { call : VfsCall χ // call.isSection = true }

/-- A body that runs alone does what its call does. -/
def Carries (alloc : Allocator (NodeData χ)) (sep : χ) (owner : List χ) (root : Nat) {ρ : Type}
    (O : Object (NodeHeap χ) (SectionCall χ) ρ (VfsOutput χ)) : Prop :=
  ∀ call h h' o, O.Performs call h h' o →
    ∃ N, ∀ bound, N ≤ bound → VfsCall.runOn alloc sep owner root bound h call.val = some (h', o)

/-- In every run, however the steps of the threads are interleaved: the sections that have
ended returned and did on the disk what their calls do on the tree as a value, made one after
another in the order in which they held the lock, and while the lock is free the memory holds
the nodes of that tree. Each thread is given back its own results in order, and no two threads
are in their sections at once. -/
theorem sections_linearizable (alloc : Allocator (NodeData χ)) (sep : χ)
    (owner rootName : List χ) {h₀ : NodeHeap χ} (hbounded : h₀.Bounded) {ρ : Type}
    {O : Object (NodeHeap χ) (SectionCall χ) ρ (VfsOutput χ)}
    (hcarries : Carries alloc sep owner (create alloc rootName h₀).1 O) {ι : Type}
    [DecidableEq ι] {s : Sections ι (NodeHeap χ) (SectionCall χ) ρ (VfsOutput χ)}
    (h : Reach (Sections.step O) anyStep (Sections.initial (create alloc rootName h₀).2) s) :
    (∃ n, outputs (VfsCall.run sep owner) (Node.new rootName) (s.log.map fun c => c.2.1.val) =
        some (n, s.log.map fun c => c.2.2) ∧
      (s.flag = false → Represents h₀ (create alloc rootName h₀).1 s.shared n)) ∧
    (∀ i, s.log.filter (fun c => c.1 = i) =
      s.returned.filter (fun c => c.1 = i) ++ Sections.pending i (s.thread i)) ∧
    ∀ i j, (s.thread i).Holds → (s.thread j).Holds → i = j := by
  refine ⟨?_, Sections.results_of_reach h, (Sections.exclusive_of_reach h).1⟩
  obtain ⟨t, hsequence, hquiet⟩ := Sections.sequence_of_reach h
  obtain ⟨N, hN⟩ := hsequence.outputs Subtype.val hcarries
  obtain ⟨M, r, hr, hmatches⟩ := (runOn_refines alloc sep owner _ hbounded).outputs
    (create_represents alloc rootName hbounded)
    (EachStep.of_forall (fun _ _ => trivial) _ (s.log.map fun c => c.2.1.val))
  rw [List.forall₂_eq_eq_eq] at hmatches
  have hrun := hN (max N M) (Nat.le_max_left _ _)
  rw [List.map_map, List.map_map] at hrun
  obtain rfl := (hr (max N M) (Nat.le_max_right _ _)).symm.trans hrun
  obtain ⟨n, os, hvalue, hrepresents, rfl⟩ := hmatches.of_some_left
  exact ⟨n, hvalue, fun hflag => hquiet hflag ▸ hrepresents⟩

/-- An allocator that looks among the lowest addresses first. -/
noncomputable def lowFirst : Allocator (NodeData χ) where
  fresh h := ((List.range 8).find? fun a => (h a).isNone).getD (Allocator.first.fresh h)
  free h hbounded := by
    cases hfind : (List.range 8).find? fun a => (h a).isNone with
    | none => exact Allocator.first.free h hbounded
    | some a => simpa using List.find?_some hfind

/-- What the call does in its section. -/
def SectionCall.body (sep : χ) (owner : List χ) (root bound : Nat) :
    SectionCall χ → NodeProgram χ (VfsOutput χ)
  | ⟨.Add path, _⟩ => do
    let _ ← NodeProgram.add sep path root
    pure (.done, [])
  | ⟨.Find path, _⟩ => do
    let cached ← NodeProgram.find sep path root
    pure (.found cached, [])
  | ⟨.Remove path, _⟩ => do
    let (removed, ops) ← NodeProgram.removeNode sep owner path bound root
    pure (.returned removed, ops)
  | ⟨.Rename path newPath, _⟩ => do
    let (renamed, ops) ← NodeProgram.rename sep owner path newPath bound root
    pure (.returned renamed, ops)
  | ⟨.SetCached path cached, _⟩ => do
    let found ← NodeProgram.setCached sep path cached root
    pure (.returned found, [])
  | ⟨.Empty, _⟩ => do
    let result ← NodeProgram.empty root
    pure (.returned result, [])

/-- The bodies that use one node in each step. -/
def bodies (alloc : Allocator (NodeData χ)) (sep : χ) (owner : List χ) (root bound : Nat) :
    Object (NodeHeap χ) (SectionCall χ) (NodeProgram χ (VfsOutput χ)) (VfsOutput χ) :=
  Program.object alloc (SectionCall.body sep owner root bound)

theorem run_body (alloc : Allocator (NodeData χ)) (sep : χ) (owner : List χ) (root bound : Nat)
    (call : SectionCall χ) (h : NodeHeap χ) : (call.body sep owner root bound).run alloc h =
      VfsCall.runOn alloc sep owner root bound h call.val := by
  obtain ⟨call, hsection⟩ := call
  cases call with
  | Get => cases hsection
  | Add path =>
    rw [VfsCall.runOn, ← NodeProgram.run_add]
    simp [SectionCall.body, Option.map_eq_bind, Option.bind_assoc]
  | Find path =>
    simp [SectionCall.body, VfsCall.runOn, NodeProgram.run_find, Option.map_eq_bind,
      Option.bind_assoc]
  | Remove path =>
    simp [SectionCall.body, VfsCall.runOn, NodeProgram.run_removeNode, Option.map_eq_bind,
      Option.bind_assoc]
  | Rename path newPath =>
    simp [SectionCall.body, VfsCall.runOn, NodeProgram.run_rename, Option.map_eq_bind,
      Option.bind_assoc]
  | SetCached path cached =>
    simp [SectionCall.body, VfsCall.runOn, NodeProgram.run_setCached, Option.map_eq_bind,
      Option.bind_assoc]
  | Empty =>
    simp [SectionCall.body, VfsCall.runOn, NodeProgram.run_empty, Option.map_eq_bind,
      Option.bind_assoc]

theorem within_runOn (alloc : Allocator (NodeData χ)) (sep : χ) (owner : List χ) (root : Nat)
    {m n : Nat} (hle : m ≤ n) (h : NodeHeap χ) (call : SectionCall χ) :
    Within (VfsCall.runOn alloc sep owner root m h call.val)
      (VfsCall.runOn alloc sep owner root n h call.val) := by
  obtain ⟨call, hsection⟩ := call
  cases call with
  | Get => cases hsection
  | Remove path => exact (within_removeNode sep owner path hle h root).map _
  | Rename path newPath => exact (within_rename sep owner path newPath hle h root).map _
  | _ => exact .refl _

/-- A body that runs alone makes the steps of its call, and no others: it is stuck where the call
is undefined or the bound is too small, and there only. -/
theorem bodies_performs_iff (alloc : Allocator (NodeData χ)) (sep : χ) (owner : List χ)
    (root bound : Nat) (call : SectionCall χ) {h h' : NodeHeap χ} {o : VfsOutput χ} :
    (bodies alloc sep owner root bound).Performs call h h' o ↔
      VfsCall.runOn alloc sep owner root bound h call.val = some (h', o) := by
  rw [← run_body]
  exact Program.performs_iff

theorem carries_bodies (alloc : Allocator (NodeData χ)) (sep : χ) (owner : List χ)
    (root bound : Nat) : Carries alloc sep owner root (bodies alloc sep owner root bound) := by
  intro call h h' o hperforms
  refine ⟨bound, fun n hn => within_runOn alloc sep owner root hn h call (h', o) ?_⟩
  exact (bodies_performs_iff alloc sep owner root bound call).mp hperforms

/-- Two threads add a file, set it cached, rename it and remove it. While one is in its section,
the other one spins. -/
theorem sections_linearizable_two_threads :
    ∃ s, Reach (Sections.step (bodies lowFirst '/' "o".toList 0 2)) anyStep
        (Sections.initial (create lowFirst ['/'] fun _ => none).2 : Sections Nat _ _ _ _) s ∧
      s.returned.map (fun c => (c.1, c.2.2)) =
        [(0, .done, []), (1, .returned true, []),
          (0, .returned true, [.rename "o/a".toList "o/a/b".toList]),
          (1, .returned true, [.remove "o/b".toList])] ∧
      ∃ n, outputs (VfsCall.run '/' "o".toList) (Node.new ['/'])
          (s.log.map fun c => c.2.1.val) = some (n, s.log.map fun c => c.2.2) ∧
        (s.flag = false → Represents (fun _ => none) 0 s.shared n) := by
  obtain ⟨s, hs, hreturned⟩ := exists_reach_of_exec
    (Sections.step (bodies lowFirst '/' "o".toList 0 2))
    (Sections.initial (create lowFirst ['/'] fun _ => none).2)
    (fun s : Sections Nat (NodeHeap Char) (SectionCall Char) (NodeProgram Char (VfsOutput Char))
        (VfsOutput Char) => s.returned.map (fun c => (c.1, c.2.2)) =
      [(0, .done, []), (1, .returned true, []),
        (0, .returned true, [.rename "o/a".toList "o/a/b".toList]),
        (1, .returned true, [.remove "o/b".toList])])
    (List.flatten [
      [.call 0 ⟨.Add "/a".toList, rfl⟩, .call 1 ⟨.SetCached "/a".toList true, rfl⟩, .go 0, .go 1],
      List.replicate 5 (.go 0), List.replicate 6 (.go 1),
      [.call 0 ⟨.Rename "/a".toList "/b".toList, rfl⟩, .call 1 ⟨.Remove "/b".toList, rfl⟩,
        .go 0, .go 1],
      List.replicate 8 (.go 0), List.replicate 10 (.go 1)]) (by decide +kernel)
  exact ⟨s, hs, hreturned, (sections_linearizable lowFirst '/' "o".toList ['/']
    (show Heap.Bounded fun _ => none from ⟨0, fun _ _ => rfl⟩)
    (carries_bodies lowFirst '/' "o".toList 0 2) hs).1⟩

end FspServer
