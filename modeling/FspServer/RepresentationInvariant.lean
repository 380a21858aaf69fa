import FspServer.Names
import FspServer.Lib.Run

/-!
# The representation invariant of the tree

`Find`, `Remove`, `Rename` and `SetCached` follow the first matching child, so
they rely on sibling names being unique (`Node.Uniq`) and on every name being a
single path component (`Node.Named`). This module runs arbitrary sequences of
the four updates from the empty tree.

* The names are always path components: nothing breaks `Node.Named`.
* Sibling names stay unique exactly as long as no update is one of two kinds
  (`VfsOp.KeepsNames`): an `Add` of a path that is already there with a child
  that repeats its last component, and a `Rename` to the name of a sibling.
-/

namespace FspServer

open PathSet Runs

variable {χ : Type}

open Node

/-! ## Sequences of updates -/

/-- The representation invariant. -/
structure WellFormed (sep : χ) (root : Node χ) : Prop where
  uniq : root.Uniq
  named : root.Named sep

theorem wellFormed_new (sep : χ) (rootName : List χ) : WellFormed sep (new rootName) :=
  ⟨uniq_new rootName, named_new sep rootName⟩

variable [DecidableEq χ]

/-- The updates of a tree, with their arguments. -/
inductive VfsOp (χ : Type) where
  | Add (path : List χ)
  | Remove (path : List χ)
  | Rename (path newPath : List χ)
  | SetCached (path : List χ) (flag : Bool)
deriving DecidableEq

/-- The tree after an update; `none` is the undefined behaviour of `Node.add`. -/
def VfsOp.apply (sep : χ) (owner : List χ) (root : Node χ) : VfsOp χ → Option (Node χ)
  | .Add path => add sep path root
  | .Remove path => some (remove sep owner path root).2.1
  | .Rename path newPath => some (rename sep owner path newPath root).2.1
  | .SetCached path flag => some (setCached sep path flag root).2

/-- The updates that keep sibling names unique: an `Add` of a path that is not
already there with a child repeating its last component (an `Add` without
components does nothing), and a `Rename` that finds no node, is given no file
name, or gives the node a name that no sibling has. -/
def VfsOp.KeepsNames (sep : χ) (root : Node χ) : VfsOp χ → Prop
  | .Add path => getComponents sep path = [] ∨ doubled (getComponents sep path) ∉ root.paths
  | .Remove _ => True
  | .Rename path newPath =>
    doFindNode sep path root = none ∨ filename sep newPath = [] ∨
      RenameFree root (getComponents sep path) (filename sep newPath)
  | .SetCached _ _ => True

instance (sep : χ) (root : Node χ) (op : VfsOp χ) : Decidable (op.KeepsNames sep root) :=
  match op with
  | .Add _ => inferInstanceAs (Decidable (_ ∨ _))
  | .Remove _ => inferInstanceAs (Decidable True)
  | .Rename _ _ => inferInstanceAs (Decidable (_ ∨ _ ∨ _))
  | .SetCached _ _ => inferInstanceAs (Decidable True)

namespace RepresentationLemmas

theorem doFindNode_some {sep : χ} {path : List χ} {root n : Node χ}
    (h : doFindNode sep path root = some n) :
    getComponents sep path ≠ [] ∧ root.doFindPath (getComponents sep path) = some n := by
  unfold doFindNode at h
  split at h
  · simp at h
  · next hc => exact ⟨by simp [hc], by rw [hc]; exact h⟩

theorem mem_paths_of_doFindNode {sep : χ} {path : List χ} {root n : Node χ}
    (h : doFindNode sep path root = some n) : getComponents sep path ∈ root.paths := by
  have := (doFindNode_some h).2
  simp [paths, this]

/-- `Add` on a well-formed tree is `insertPath`. -/
theorem add_eq {sep : χ} {root : Node χ} (h : root.Uniq) (path : List χ) :
    add sep path root = some (insertPath (getComponents sep path) root) := by
  simp [add, doAdd_eq_insertPath h]

theorem wellFormed_add {sep : χ} {root : Node χ} (h : WellFormed sep root) (path : List χ) :
    WellFormed sep (insertPath (getComponents sep path) root) ↔
      getComponents sep path = [] ∨ doubled (getComponents sep path) ∉ root.paths := by
  have hnamed : (insertPath (getComponents sep path) root).Named sep :=
    named_insertPath (fun _ hy => goodName_of_mem_getComponents hy) h.named
  by_cases hnil : getComponents sep path = []
  · rw [hnil]
    exact iff_of_true h (Or.inl rfl)
  · have huniq := uniq_insertPath h.uniq hnil
    exact ⟨fun hw => Or.inr (huniq.mp hw.uniq),
      fun hk => ⟨huniq.mpr (hk.resolve_left hnil), hnamed⟩⟩

theorem wellFormed_remove {sep : χ} {root : Node χ} (h : WellFormed sep root)
    (owner path : List χ) : WellFormed sep (remove sep owner path root).2.1 := by
  unfold remove
  split
  · exact h
  · exact ⟨uniq_alterAt_delete h.uniq _,
      named_alterAt (fun _ _ _ _ hd => absurd hd List.not_mem_nil) _ h.named⟩

theorem wellFormed_setCached {sep : χ} {root : Node χ} (h : WellFormed sep root)
    (path : List χ) (flag : Bool) : WellFormed sep (setCached sep path flag root).2 := by
  unfold setCached
  split
  · exact h
  · refine ⟨uniq_alterAt_of_uniq (myName_setCachedFlag flag) (fun _ => uniq_setCachedFlag) _ h.uniq,
      named_alterAt (fun c hc hname d hd => ?_) _ h.named⟩
    rw [List.mem_singleton.mp hd]
    exact ⟨by rwa [myName_setCachedFlag], named_setCachedFlag.mpr hc⟩

theorem wellFormed_rename {sep : χ} {root : Node χ} (h : WellFormed sep root)
    (owner path newPath : List χ) :
    WellFormed sep (rename sep owner path newPath root).2.1 ↔
      doFindNode sep path root = none ∨ filename sep newPath = [] ∨
        RenameFree root (getComponents sep path) (filename sep newPath) := by
  unfold rename
  split
  · next hnone => simp [h, hnone]
  · next n hn =>
    by_cases hfile : filename sep newPath = []
    · simp [h, hfile]
    · have hnamed : (alterAt (fun c => [c.setName (filename sep newPath)])
          (getComponents sep path) root).Named sep := by
        refine named_alterAt (fun c hc _ d hd => ?_) _ h.named
        rw [List.mem_singleton.mp hd]
        exact ⟨by rw [myName_setName]; exact goodName_filename hfile, named_setName.mpr hc⟩
      have huniq := uniq_alterAt_setName (w := filename sep newPath) h.uniq
        (doFindNode_some hn).1 (mem_paths_of_doFindNode hn)
      simp only [hfile, ↓reduceIte, hn, reduceCtorEq, false_or, ← huniq]
      exact ⟨fun hw => hw.uniq, fun hu => ⟨hu, hnamed⟩⟩

end RepresentationLemmas

open RepresentationLemmas

/-- Every update keeps the names path components, and the root's name. -/
theorem VfsOp.named_apply {sep : χ} {owner : List χ} {root root' : Node χ} {op : VfsOp χ}
    (h : root.Named sep) (hop : op.apply sep owner root = some root') :
    root'.Named sep ∧ root'.myName = root.myName := by
  cases op with
  | Add path =>
    obtain ⟨⟨n, left⟩, hadd, rfl⟩ := Option.map_eq_some_iff.mp hop
    exact ⟨named_doAdd (fun _ hy => goodName_of_mem_getComponents hy) h hadd, (doAdd_some hadd).1⟩
  | Remove path =>
    obtain rfl := Option.some.inj hop
    rw [remove]
    split
    · exact ⟨h, rfl⟩
    · exact ⟨named_alterAt (fun _ _ _ _ hd => absurd hd List.not_mem_nil) _ h,
        myName_alterAt _ _ _⟩
  | Rename path newPath =>
    obtain rfl := Option.some.inj hop
    rw [rename]
    split
    · exact ⟨h, rfl⟩
    · simp only
      split
      · exact ⟨h, rfl⟩
      · next hfile =>
        refine ⟨named_alterAt (fun c hc _ d hd => ?_) _ h, myName_alterAt _ _ _⟩
        rw [List.mem_singleton.mp hd]
        exact ⟨by rw [myName_setName]; exact goodName_filename hfile, named_setName.mpr hc⟩
  | SetCached path flag =>
    obtain rfl := Option.some.inj hop
    rw [setCached]
    split
    · exact ⟨h, rfl⟩
    · refine ⟨named_alterAt (fun c hc hname d hd => ?_) _ h, myName_alterAt _ _ _⟩
      rw [List.mem_singleton.mp hd]
      exact ⟨by rwa [myName_setCachedFlag], named_setCachedFlag.mpr hc⟩

theorem named_of_reach {sep : χ} {owner rootName : List χ} {root : Node χ}
    (h : Reach (VfsOp.apply sep owner) anyStep (new rootName) root) : root.Named sep :=
  h.invariant (named_new sep rootName) fun _ _ _ hnamed _ hop => (VfsOp.named_apply hnamed hop).1

/-- From a well-formed tree every update is defined. -/
theorem VfsOp.apply_defined {sep : χ} (owner : List χ) {root : Node χ}
    (h : WellFormed sep root) (op : VfsOp χ) : ∃ root', op.apply sep owner root = some root' := by
  cases op with
  | Add path => exact ⟨_, add_eq h.uniq path⟩
  | Remove _ => exact ⟨_, rfl⟩
  | Rename _ _ => exact ⟨_, rfl⟩
  | SetCached _ _ => exact ⟨_, rfl⟩

/-- One update of a well-formed tree gives a well-formed tree exactly when it is
one that keeps sibling names unique. -/
theorem VfsOp.wellFormed_apply_iff {sep : χ} {owner : List χ} {root root' : Node χ}
    {op : VfsOp χ} (h : WellFormed sep root) (hop : op.apply sep owner root = some root') :
    WellFormed sep root' ↔ op.KeepsNames sep root := by
  cases op with
  | Add path =>
    obtain rfl := Option.some.inj ((add_eq h.uniq path).symm.trans hop)
    exact wellFormed_add h path
  | Remove path =>
    obtain rfl := Option.some.inj hop
    exact iff_of_true (wellFormed_remove h owner path) trivial
  | Rename path newPath =>
    obtain rfl := Option.some.inj hop
    exact wellFormed_rename h owner path newPath
  | SetCached path flag =>
    obtain rfl := Option.some.inj hop
    exact iff_of_true (wellFormed_setCached h path flag) trivial

/-- Updates that keep sibling names unique lead from the empty tree to a well-formed one. -/
theorem wellFormed_of_exec {sep : χ} {owner rootName : List χ} {ops : List (VfsOp χ)}
    {root : Node χ}
    (hops : EachStep (VfsOp.apply sep owner) (fun root op => op.KeepsNames sep root)
      (new rootName) ops)
    (hexec : exec (VfsOp.apply sep owner) (new rootName) ops = some root) : WellFormed sep root :=
  hops.invariant (fun _ _ _ h hkeeps hop => (VfsOp.wellFormed_apply_iff h hop).mpr hkeeps)
    (wellFormed_new sep rootName) hexec

/-- A sequence of updates from the empty tree visits well-formed trees only
exactly when each of its updates keeps sibling names unique. -/
theorem wellFormed_run_iff (sep : χ) (owner rootName : List χ) (ops : List (VfsOp χ)) :
    EachState (VfsOp.apply sep owner) (WellFormed sep) (new rootName) ops ↔
      EachStep (VfsOp.apply sep owner) (fun root op => op.KeepsNames sep root) (new rootName) ops :=
  eachState_iff_eachStep (fun _ op h => VfsOp.apply_defined owner h op)
    (fun _ _ _ h hop => VfsOp.wellFormed_apply_iff h hop) (wellFormed_new sep rootName) ops

/-- Adding `f` three times gives the node `f` two children `f`. -/
theorem add_thrice_duplicates :
    ∃ root, exec (VfsOp.apply '/' "o".toList) (new ['/'])
      [.Add ['f'], .Add ['f'], .Add ['f']] = some root ∧ ¬ WellFormed '/' root := by
  refine ⟨.mk ['/'] false [.mk ['f'] false [new ['f'], new ['f']]], rfl, fun h => ?_⟩
  have hchild := (uniq_iff.mp h.uniq).2 (.mk ['f'] false [new ['f'], new ['f']])
    (by simp [myChildrens])
  have hnodup := (uniq_iff.mp hchild).1
  revert hnodup
  decide

end FspServer
