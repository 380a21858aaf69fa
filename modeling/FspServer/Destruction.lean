import FspServer.CacheCoherence
import FspServer.Listing
import FspServer.Lib.LinkedTree

/-!
# Remove on linked nodes

`Node.remove` works on a tree as a value. In the source a node is an object with
the pointers `MyParent_` and `MyChildrens_`: `Remove` finds one and deletes it, and
`~Node` removes its local file, unlinks itself from its parent and deletes its
children, each of which unlinks itself from a parent whose destructor is running
and finds its own path by walking up through it. Here these steps are made on a
heap of nodes (`LinkedTree`), where the use of a deleted node gives `none`.

`removeNode_spec`: on a heap that holds a tree, `Remove` uses no deleted node,
deletes exactly the nodes of one subtree, takes one child from one parent, and
refines `Node.remove`.
-/

namespace FspServer

open LinkedTree

variable {χ : Type}

/-- The members of a node other than its pointers. -/
structure NodeData (χ : Type) where
  myName : List χ
  cached : Bool

abbrev NodeHeap (χ : Type) := Heap (NodeData χ)

namespace NodeHeap

/-! ## The code -/

/-- The loop of `LocalPathToMe`: `while (CurrentParrent->MyParent_)`. The number
bounds the rounds. -/
def walkParents (sep : χ) (h : NodeHeap χ) : Nat → Nat → List χ → Option (List χ)
  | 0, _, _ => none
  | rounds + 1, currentParent, path => do
    let parent ← h currentParent
    match parent.parent with
    | none => some path
    | some next => walkParents sep h rounds next (path ++ [sep] ++ parent.value.myName.reverse)

/-- `LocalPathToMe` of the node in the cell `self`. -/
def localPathToMe (sep : χ) (owner : List χ) (h : NodeHeap χ) (rounds : Nat)
    (self : Cell (NodeData χ)) : Option (List χ) := do
  let path ← match self.parent with
    | none => some []
    | some currentParent => walkParents sep h rounds currentParent []
  some ((path ++ [sep] ++ owner.reverse).reverse ++ self.value.myName)

/-- `for (auto c : TempChildrens) delete c`. -/
def deleteAll (delete : NodeHeap χ → Nat → Option (NodeHeap χ × List (DiskOp χ))) :
    List Nat → NodeHeap χ → Option (NodeHeap χ × List (DiskOp χ))
  | [], h => some (h, [])
  | c :: cs, h => do
    let (h, ops) ← delete h c
    let (h, ops') ← deleteAll delete cs h
    some (h, ops ++ ops')

/-- `delete` of the node at `a`: `~Node`, then its memory is released. The first
number bounds the rounds of each walk up, the second the depth of the recursion. -/
def deleteNode (sep : χ) (owner : List χ) (rounds : Nat) :
    Nat → NodeHeap χ → Nat → Option (NodeHeap χ × List (DiskOp χ))
  | 0, _, _ => none
  | depth + 1, h, a => do
    let self ← h a
    let ops ← if self.value.cached then
        (localPathToMe sep owner h rounds self).map fun localPath => [.remove localPath]
      else some []
    let h ← match self.parent with
      | some parent => h.update parent (Cell.unlink [a])
      | none => some h
    let tempChildrens := (← h a).children
    let (h, ops') ← deleteAll (deleteNode sep owner rounds depth) tempChildrens h
    some (h.free a, ops ++ ops')

variable [DecidableEq χ]

/-- `GetChildren`: the first of the given children with the name. -/
def getChildren (h : NodeHeap χ) (name : List χ) : List Nat → Option (Option Nat)
  | [] => some none
  | c :: cs => do
    let child ← h c
    if child.value.myName = name then some (some c) else getChildren h name cs

/-- `do_find_path`. -/
def doFindPath (h : NodeHeap χ) : List (List χ) → Nat → Option (Option Nat)
  | [], a => some (some a)
  | name :: rest, a => do
    let parent ← h a
    match ← getChildren h name parent.children with
    | some child => doFindPath h rest child
    | none => some none

/-- `do_find_node`. -/
def doFindNode (sep : χ) (path : List χ) (h : NodeHeap χ) (root : Nat) : Option (Option Nat) :=
  match Node.getComponents sep path with
  | [] => some none
  | c :: cs => doFindPath h (c :: cs) root

/-- `Remove`; `none` when a deleted node is used, or when a bound is too small. -/
def removeNode (sep : χ) (owner path : List χ) (bound : Nat) (h : NodeHeap χ) (root : Nat) :
    Option (Bool × NodeHeap χ × List (DiskOp χ)) := do
  match ← doFindNode sep path h root with
  | none => some (false, h, [])
  | some nodeToDelete =>
    let (h, ops) ← deleteNode sep owner bound bound h nodeToDelete
    some (true, h, ops)

end NodeHeap

/-! ## The tree that a heap holds -/

open LinkedTree.CellTree

mutual
/-- The tree as a value. -/
def erase : CellTree (NodeData χ) → Node χ
  | .node _ v ts => .mk v.myName v.cached (eraseAll ts)

def eraseAll : List (CellTree (NodeData χ)) → List (Node χ)
  | [] => []
  | t :: ts => erase t :: eraseAll ts
end

theorem eraseAll_eq_map (ts : List (CellTree (NodeData χ))) : eraseAll ts = ts.map erase := by
  induction ts with
  | nil => rfl
  | cons t ts ih => rw [eraseAll, ih, List.map_cons]

@[simp] theorem myName_erase (t : CellTree (NodeData χ)) : (erase t).myName = t.value.myName := by
  cases t; rfl

@[simp] theorem myChildrens_erase (t : CellTree (NodeData χ)) :
    (erase t).myChildrens = t.subs.map erase := by
  cases t with
  | node a v ts => exact eraseAll_eq_map ts

theorem erase_node_append (a : Nat) (v : NodeData χ) (before after : List (CellTree (NodeData χ))) :
    erase (.node a v (before ++ after)) =
      .mk v.myName v.cached (before.map erase ++ after.map erase) := by
  rw [erase, eraseAll_eq_map, List.map_append]

theorem forall_myName_map_erase {before : List (CellTree (NodeData χ))} {x : List χ}
    (hbefore : ∀ d ∈ before, d.value.myName ≠ x) : ∀ d ∈ before.map erase, d.myName ≠ x := by
  intro d hd
  obtain ⟨b, hb, rfl⟩ := List.mem_map.mp hd
  rw [myName_erase]
  exact hbefore b hb

/-- Changing the first matching child of a node. -/
theorem withChildrens_alterFirst_erase [DecidableEq χ] {a : Nat} {v : NodeData χ}
    {before after : List (CellTree (NodeData χ))} {c : CellTree (NodeData χ)} {x : List χ}
    (g : Node χ → List (Node χ)) (hbefore : ∀ d ∈ before, d.value.myName ≠ x)
    (hx : c.value.myName = x) :
    (erase (.node a v (before ++ c :: after))).withChildrens
        (Node.alterFirst x g (erase (.node a v (before ++ c :: after))).myChildrens) =
      .mk v.myName v.cached (before.map erase ++ g (erase c) ++ after.map erase) := by
  rw [erase_node_append, List.map_cons]
  simp only [Node.withChildrens, Node.myName, Node.cached, Node.myChildrens]
  rw [Node.alterFirst_append_cons (forall_myName_map_erase hbefore) ((myName_erase c).trans hx)]

namespace NodeHeap

/-! ## Deletion -/

theorem walkParents_eq (sep : χ) {h : NodeHeap χ} {p rounds : Nat} {vs : List (NodeData χ)}
    {as : List Nat} (hp : Climbs h p vs as) (hrounds : vs.length < rounds) (path : List χ) :
    walkParents sep h rounds p path =
      some (Node.parentWalk sep (vs.map NodeData.myName) path) := by
  induction hp generalizing rounds path with
  | root hr hnone =>
    obtain ⟨n, rfl⟩ := Nat.exists_eq_add_one_of_ne_zero (Nat.ne_of_gt hrounds)
    simp [walkParents, hr, hnone, Node.parentWalk]
  | up hp hq _ ih =>
    obtain ⟨n, rfl⟩ := Nat.exists_eq_add_one_of_ne_zero (Nat.ne_of_gt (Nat.zero_lt_of_lt hrounds))
    rw [List.length_cons, Nat.add_lt_add_iff_right] at hrounds
    simp [walkParents, hp, hq, ih hrounds, Node.parentWalk]

/-- The walk up finds the path of the node, through parents that may be unlinked. -/
theorem localPathToMe_eq (sep : χ) (owner : List χ) {h : NodeHeap χ} {p rounds : Nat}
    {vs : List (NodeData χ)} {as : List Nat} (hp : Climbs h p vs as)
    (hrounds : vs.length < rounds) {self : Cell (NodeData χ)} (hself : self.parent = some p) :
    localPathToMe sep owner h rounds self =
      some (Node.localPathToMe sep owner (vs.map NodeData.myName) self.value.myName []) := by
  simp [localPathToMe, hself, walkParents_eq sep hp hrounds, Node.localPathToMe]

mutual
/-- Deleting a node of a tree releases its subtree, unlinks it from its parent,
and removes the files of the cached nodes below it. -/
theorem deleteNode_eq (sep : χ) (owner : List χ) (t : CellTree (NodeData χ)) {h : NodeHeap χ}
    {p depth rounds : Nat} {vs : List (NodeData χ)} {as : List Nat} (ht : Holds h (some p) t)
    (hp : Climbs h p vs as) (hnodup : t.addrs.Nodup) (hdisjoint : ∀ x ∈ as, x ∉ t.addrs)
    (hdepth : t.height ≤ depth) (hrounds : vs.length + t.height ≤ rounds) :
    deleteNode sep owner rounds depth h t.addr =
      some (h.without t.addrs p [t.addr],
        Node.destroy sep owner (vs.map NodeData.myName) (erase t)) := by
  match t with
  | .node a v ts =>
    obtain ⟨hcell, hsubs⟩ := ht
    rw [CellTree.height] at hdepth hrounds
    rw [addrs, List.nodup_cons] at hnodup
    simp only [addrs, List.mem_cons, not_or] at hdisjoint
    obtain ⟨depth, rfl⟩ : ∃ d, depth = d + 1 :=
      Nat.exists_eq_add_one_of_ne_zero (by omega)
    obtain ⟨hpa, hpsubs⟩ := hdisjoint p hp.head_mem
    obtain ⟨parent, hparent⟩ := hp.exists_cell
    -- what the unlinking leaves
    have hself : h.without [] p [a] a = some ⟨v, some p, ts.map addr⟩ := by
      simp [Heap.without, Ne.symm hpa, hcell]
    have hsubs' : HoldsAll (h.without [] p [a]) (some a) ts := by
      refine hsubs.congr ts fun x hx => ?_
      have hxp : x ≠ p := fun hxp => hpsubs (hxp ▸ hx)
      simp [Heap.without, hxp]
    have hup : Climbs (h.without [] p [a]) a (v :: vs) (a :: as) :=
      .up hself rfl (hp.without (fun _ _ => List.not_mem_nil) p [a])
    have hrounds' : (v :: vs).length + heightAll ts ≤ rounds := by
      rw [List.length_cons]
      omega
    have hbelow := deleteAll_eq sep owner ts hsubs' hup hnodup.2
      (List.forall_mem_cons.mpr ⟨hnodup.1, fun x hx => (hdisjoint x hx).2⟩)
      (Nat.le_of_succ_le_succ hdepth) hrounds'
    have hlt : vs.length < rounds := by omega
    have hpath := localPathToMe_eq sep owner hp hlt
      (show (⟨v, some p, ts.map addr⟩ : Cell (NodeData χ)).parent = some p from rfl)
    have hfree := h.free_without (ts.map addr) hpa hpsubs
    cases hcached : v.cached with
    | true =>
      simp [deleteNode, addr, hcell, hcached, hpath, Heap.update_unlink hparent, hself, hbelow,
        hfree, addrs, erase, Node.destroy]
    | false =>
      simp [deleteNode, addr, hcell, hcached, Heap.update_unlink hparent, hself, hbelow,
        hfree, addrs, erase, Node.destroy]

theorem deleteAll_eq (sep : χ) (owner : List χ) (ts : List (CellTree (NodeData χ)))
    {h : NodeHeap χ} {a depth rounds : Nat} {vs : List (NodeData χ)} {as : List Nat}
    (hts : HoldsAll h (some a) ts) (hp : Climbs h a vs as) (hnodup : (addrsAll ts).Nodup)
    (hdisjoint : ∀ x ∈ as, x ∉ addrsAll ts) (hdepth : heightAll ts ≤ depth)
    (hrounds : vs.length + heightAll ts ≤ rounds) :
    deleteAll (deleteNode sep owner rounds depth) (ts.map addr) h =
      some (h.without (addrsAll ts) a (ts.map addr),
        Node.destroyAll sep owner (vs.map NodeData.myName) (eraseAll ts)) := by
  match ts with
  | [] => simp [deleteAll, addrsAll, eraseAll, Node.destroyAll, Heap.without_nil]
  | t :: ts =>
    obtain ⟨ht, hts⟩ := hts
    rw [addrsAll, List.nodup_append] at hnodup
    obtain ⟨hnodupt, hnodupts, hapart⟩ := hnodup
    simp only [addrsAll, List.mem_append, not_or] at hdisjoint
    rw [heightAll] at hdepth hrounds
    have hroundst : vs.length + t.height ≤ rounds := by omega
    have hroundsts : vs.length + heightAll ts ≤ rounds := by omega
    have hfirst := deleteNode_eq sep owner t ht hp hnodupt (fun x hx => (hdisjoint x hx).1)
      (Nat.le_trans (Nat.le_max_left _ _) hdepth) hroundst
    have hup := hp.without (fun x hx => (hdisjoint x hx).1) a [t.addr]
    have hts' : HoldsAll (h.without t.addrs a [t.addr]) (some a) ts := by
      refine hts.congr ts fun x hx => ?_
      have hxt : x ∉ t.addrs := fun hxt => hapart x hxt x hx rfl
      have hxa : x ≠ a := fun hxa => (hdisjoint a hp.head_mem).2 (hxa ▸ hx)
      simp [Heap.without, hxt, hxa]
    have hrest := deleteAll_eq sep owner ts hts' hup hnodupts (fun x hx => (hdisjoint x hx).2)
      (Nat.le_trans (Nat.le_max_right _ _) hdepth) hroundsts
    rw [Heap.without_without] at hrest
    simp [deleteAll, hfirst, hrest, addrsAll, eraseAll, Node.destroyAll]
end

/-! ## Resolution -/

variable [DecidableEq χ]

/-- The subtree at the first matching child of every component. -/
def resolve : List (List χ) → CellTree (NodeData χ) → Option (CellTree (NodeData χ))
  | [], t => some t
  | name :: rest, t =>
    match t.subs.find? fun s => s.value.myName = name with
    | some s => resolve rest s
    | none => none

theorem getChildren_eq {h : NodeHeap χ} {parent : Option Nat} {ts : List (CellTree (NodeData χ))}
    (hts : HoldsAll h parent ts) (name : List χ) :
    getChildren h name (ts.map addr) =
      some ((ts.find? fun s => s.value.myName = name).map addr) := by
  induction ts with
  | nil => rfl
  | cons t ts ih =>
    obtain ⟨ht, hts⟩ := hts
    cases t with
    | node a v us =>
      rw [List.map_cons, getChildren, addr, ht.1]
      by_cases hname : v.myName = name
      · simp [hname, CellTree.value, addr]
      · simp [hname, CellTree.value, ih hts]

theorem doFindPath_eq {h : NodeHeap χ} {parent : Option Nat} {t : CellTree (NodeData χ)}
    (ht : Holds h parent t) (p : List (List χ)) :
    doFindPath h p t.addr = some ((resolve p t).map addr) := by
  induction p generalizing parent t with
  | nil => rfl
  | cons name rest ih =>
    cases t with
    | node a v ts =>
      have hcell : h (CellTree.node a v ts).addr = some ⟨v, parent, ts.map addr⟩ := ht.1
      simp only [doFindPath, hcell, resolve, CellTree.subs, getChildren_eq ht.2 name,
        Option.bind_eq_bind, Option.bind_some]
      cases hs : ts.find? fun s => s.value.myName = name with
      | none => rfl
      | some s => exact ih (holdsAll_iff.mp ht.2 s (List.mem_of_find?_eq_some hs))

theorem find?_map_erase (ts : List (CellTree (NodeData χ))) (name : List χ) :
    (ts.map erase).find? (fun c => c.myName = name) =
      (ts.find? fun s => s.value.myName = name).map erase := by
  rw [List.find?_map]
  simp only [Function.comp_def, myName_erase]

theorem doFindPath_erase (p : List (List χ)) (t : CellTree (NodeData χ)) :
    (erase t).doFindPath p = (resolve p t).map erase := by
  induction p generalizing t with
  | nil => rfl
  | cons name rest ih =>
    rw [Node.doFindPath, Node.getChildren, myChildrens_erase, find?_map_erase, resolve]
    cases t.subs.find? fun s => s.value.myName = name with
    | none => rfl
    | some s => exact ih s

/-- One step of a resolution: the child, and its siblings on both sides. -/
theorem resolve_cons {t s : CellTree (NodeData χ)} {x : List χ} {p : List (List χ)}
    (hs : resolve (x :: p) t = some s) :
    ∃ a v before c after, t = .node a v (before ++ c :: after) ∧ c ∈ t.subs ∧
      c.value.myName = x ∧ (∀ d ∈ before, d.value.myName ≠ x) ∧ resolve p c = some s := by
  obtain ⟨a, v, ts⟩ := t
  rw [resolve] at hs
  split at hs
  · next c hc =>
    obtain ⟨hx, before, after, hsubs, hbefore⟩ := List.find?_eq_some_iff_append.mp hc
    exact ⟨a, v, before, c, after, congrArg (CellTree.node a v) hsubs,
      List.mem_of_find?_eq_some hc, by simpa using hx, by simpa using hbefore, hs⟩
  · cases hs

/-- The subtree that a path resolves to is in its place, below the nodes that the
path names. -/
theorem placed_of_resolve {h : NodeHeap χ} {t s : CellTree (NodeData χ)} {parent : Nat}
    {vs : List (NodeData χ)} {as : List Nat} (ht : Placed h t parent vs as) {p : List (List χ)}
    (hs : resolve p t = some s) :
    ∃ parent' vs' as', Placed h s parent' vs' as' ∧
      s.value.myName :: vs'.map NodeData.myName =
        p.reverse ++ t.value.myName :: vs.map NodeData.myName ∧
      vs'.length + s.height ≤ vs.length + t.height := by
  induction p generalizing t parent vs as with
  | nil =>
    obtain rfl := Option.some.inj hs
    exact ⟨parent, vs, as, ht, rfl, Nat.le_refl _⟩
  | cons x p ih =>
    obtain ⟨_, _, _, c, _, -, hc, hx, -, hrest⟩ := resolve_cons hs
    obtain ⟨parent', vs', as', hplaced, hnames, hheight⟩ := ih (ht.child hc) hrest
    refine ⟨parent', vs', as', hplaced, by simp [hnames, hx], ?_⟩
    have hle := height_le_of_mem_subs hc
    rw [List.length_cons] at hheight
    omega

/-- The same from the root, whose name is on no path. -/
theorem placed_of_resolve_root {h : NodeHeap χ} {t s : CellTree (NodeData χ)}
    (ht : Holds h none t) (hnodup : t.addrs.Nodup) {p : List (List χ)} (hne : p ≠ [])
    (hs : resolve p t = some s) :
    ∃ parent vs as, Placed h s parent vs as ∧
      s.value.myName :: vs.map NodeData.myName = p.reverse ∧
        vs.length + s.height ≤ t.height := by
  obtain ⟨x, p, rfl⟩ := List.exists_cons_of_ne_nil hne
  obtain ⟨_, _, _, c, _, -, hc, hx, -, hrest⟩ := resolve_cons hs
  obtain ⟨parent, vs, as, hplaced, hnames, hheight⟩ :=
    placed_of_resolve (placed_of_root ht hnodup hc) hrest
  refine ⟨parent, vs, as, hplaced, ?_, ?_⟩
  · rw [hnames, hx, List.map_nil, List.reverse_cons]
  · have hle := height_le_of_mem_subs hc
    rw [List.length_nil] at hheight
    omega

theorem mem_addrs_of_resolve {h : NodeHeap χ} {parent : Option Nat} {t s : CellTree (NodeData χ)}
    (ht : Holds h parent t) {x : List χ} {p : List (List χ)} (hs : resolve (x :: p) t = some s)
    {q : Nat} (hq : Holds h (some q) s) :
    q ∈ t.addrs ∧ ∀ a ∈ s.addrs, a ∈ addrsAll t.subs := by
  induction p generalizing parent t x with
  | nil =>
    obtain ⟨_, _, _, c, _, -, hc, -, -, hrest⟩ := resolve_cons hs
    obtain rfl := Option.some.inj hrest
    have hparent := (ht.subs c hc).parent_eq hq
    exact ⟨Option.some.inj hparent ▸ addr_mem_addrs t, fun a ha => mem_addrsAll.mpr ⟨c, hc, ha⟩⟩
  | cons y p ih =>
    obtain ⟨_, _, _, c, _, -, hc, -, -, hrest⟩ := resolve_cons hs
    obtain ⟨hqc, hsc⟩ := ih (ht.subs c hc) hrest
    refine ⟨subs_addrs_subset (mem_addrsAll.mpr ⟨c, hc, hqc⟩), fun a ha => ?_⟩
    exact mem_addrsAll.mpr ⟨c, hc, subs_addrs_subset (hsc a ha)⟩

/-- What is left after the deletion of the subtree at a path is held by the heap,
and is the tree without the first matching node at that path. -/
theorem exists_holds_without {h : NodeHeap χ} {parent : Option Nat} {t s : CellTree (NodeData χ)}
    (ht : Holds h parent t) (hnodup : t.addrs.Nodup) {x : List χ} {p : List (List χ)}
    (hs : resolve (x :: p) t = some s) {q : Nat} (hq : Holds h (some q) s) :
    ∃ t', Holds (h.without s.addrs q [s.addr]) parent t' ∧ t'.addr = t.addr ∧
      t'.addrs.Sublist t.addrs ∧ erase t' = Node.alterAt (fun _ => []) (x :: p) (erase t) := by
  induction p generalizing parent t x with
  | nil =>
    obtain ⟨a, v, before, c, after, rfl, hc, hx, hbefore, hrest⟩ := resolve_cons hs
    obtain rfl : c = s := Option.some.inj hrest
    obtain rfl : a = q := Option.some.inj ((ht.subs c hc).parent_eq hq)
    refine ⟨.node a v (before ++ after), ht.without_child hnodup, rfl, ?_, ?_⟩
    · rw [addrs, addrs, addrsAll_append, addrsAll_append, addrsAll]
      exact ((List.sublist_append_right c.addrs _).append_left _).cons_cons a
    · rw [Node.alterAt, withChildrens_alterFirst_erase _ hbefore hx, List.append_nil,
        erase_node_append]
  | cons y p ih =>
    obtain ⟨a, v, before, c, after, rfl, hc, hx, hbefore, hrest⟩ := resolve_cons hs
    have hholds := ht.subs c hc
    have hnodup' := hnodup
    rw [addrs, List.nodup_cons] at hnodup'
    obtain ⟨c', hc', haddr, hsub, herase⟩ := ih hholds (nodup_of_mem hnodup'.2 hc) hrest
    obtain ⟨hqc, hsc⟩ := mem_addrs_of_resolve hholds hrest hq
    refine ⟨.node a v (before ++ c' :: after),
      ht.without_below hnodup (fun x hx => subs_addrs_subset (hsc x hx)) hqc hc' haddr,
      rfl, ?_, ?_⟩
    · rw [addrs, addrs, addrsAll_append, addrsAll_append, addrsAll, addrsAll]
      exact ((hsub.append_right _).append_left _).cons_cons a
    · rw [Node.alterAt, withChildrens_alterFirst_erase _ hbefore hx, erase_node_append,
        List.map_cons, herase, List.append_assoc, List.singleton_append]

end NodeHeap

/-! ## The files of a subtree -/

namespace Node

mutual
/-- The paths of the cached nodes at or below a node, each starting with its name,
parents before their children. -/
def cachedPaths : Node χ → List (List (List χ))
  | .mk n c cs => (if c then [[n]] else []) ++ (cachedPathsAll cs).map (n :: ·)

def cachedPathsAll : List (Node χ) → List (List (List χ))
  | [] => []
  | c :: cs => cachedPaths c ++ cachedPathsAll cs
end

theorem pathText_append_singleton (sep : χ) (above : List (List χ)) (name : List χ) :
    pathText sep [] (above ++ [name]) = above.flatMap (· ++ [sep]) ++ name := by
  induction above with
  | nil => rfl
  | cons x above ih =>
    obtain ⟨y, rest, hy⟩ := List.exists_cons_of_ne_nil (List.append_ne_nil_of_right_ne_nil above
      (List.cons_ne_nil name []))
    rw [List.cons_append, hy, pathText, pathText_eq_append, ← hy, ih]
    simp

mutual
/-- The local files are the owner's name, the separator and the components of the
cached nodes, joined. -/
theorem localFiles_eq (sep : χ) (owner : List χ) (above : List (List χ)) (n : Node χ) :
    localFiles sep owner above n =
      n.cachedPaths.map fun q => owner ++ sep :: pathText sep [] (above.reverse ++ q) := by
  match n with
  | .mk name c cs =>
    rw [localFiles, cachedPaths, localFilesAll_eq sep owner (name :: above) cs, List.map_append,
      List.map_map]
    congr 1
    · cases c with
      | false => rfl
      | true => simp [localPathToMe_eq, pathText_append_singleton]
    · simp [Function.comp_def]

theorem localFilesAll_eq (sep : χ) (owner : List χ) (above : List (List χ)) (cs : List (Node χ)) :
    localFilesAll sep owner above cs =
      (cachedPathsAll cs).map fun q => owner ++ sep :: pathText sep [] (above.reverse ++ q) := by
  match cs with
  | [] => rfl
  | c :: cs =>
    rw [localFilesAll, cachedPathsAll, localFiles_eq sep owner above c,
      localFilesAll_eq sep owner above cs, List.map_append]
end

end Node

namespace NodeHeap

variable [DecidableEq χ]

theorem doFindNode_eq (sep : χ) (path : List χ) {h : NodeHeap χ} {parent : Option Nat}
    {t : CellTree (NodeData χ)} (ht : Holds h parent t) :
    doFindNode sep path h t.addr =
      some (if Node.getComponents sep path = [] then none
        else (resolve (Node.getComponents sep path) t).map addr) := by
  rw [doFindNode]
  split
  · next hnil => rw [hnil]; rfl
  · next x p hcons => rw [hcons, if_neg (List.cons_ne_nil x p), doFindPath_eq ht]

theorem doFindNode_erase (sep : χ) (path : List χ) (t : CellTree (NodeData χ)) :
    Node.doFindNode sep path (erase t) =
      if Node.getComponents sep path = [] then none
        else (resolve (Node.getComponents sep path) t).map erase := by
  rw [Node.doFindNode]
  split
  · next hnil => rw [if_pos hnil]
  · next x p hcons => rw [hcons, if_neg (List.cons_ne_nil x p), doFindPath_erase]

end NodeHeap

open NodeHeap Node in
/-- `Remove` on any heap that holds a tree: it returns true exactly when the path
resolves to a node below the root. Then it releases the nodes of that subtree, takes
the node from its parent's children, changes nothing else, and removes the local
file of every cached node of the subtree once. Otherwise nothing happens. Either way
the heap holds what `Node.remove` makes of the tree. -/
theorem removeNode_spec [DecidableEq χ] (sep : χ) (owner : List χ) {h : NodeHeap χ}
    {t : CellTree (NodeData χ)} (ht : Holds h none t) (hnodup : t.addrs.Nodup) (path : List χ)
    {bound : Nat} (hbound : t.height ≤ bound) :
    ∃ result h' ops, removeNode sep owner path bound h t.addr = some (result, h', ops) ∧
      (result = true ↔
        getComponents sep path ≠ [] ∧ ∃ s, resolve (getComponents sep path) t = some s) ∧
      (result = false → h' = h ∧ ops = []) ∧
      (result = true → ∃ s parent, resolve (getComponents sep path) t = some s ∧
        (h s.addr).bind Cell.parent = some parent ∧ h' = h.without s.addrs parent [s.addr] ∧
        ops = (erase s).cachedPaths.map fun q => .remove
          (owner ++ sep :: pathText sep [] ((getComponents sep path).dropLast ++ q))) ∧
      ∃ t', Holds h' none t' ∧ t'.addr = t.addr ∧ t'.addrs.Nodup ∧
        (result, erase t', ops) = remove sep owner path (erase t) := by
  have hfound := doFindNode_eq sep path ht
  rw [remove, doFindNode_erase, removeNode, hfound]
  rcases hcomponents : getComponents sep path with _ | ⟨x, p⟩
  · exact ⟨false, h, [], by simp, by simp, fun _ => ⟨rfl, rfl⟩, by simp, t, ht, rfl, hnodup,
      by simp⟩
  · rcases hs : resolve (x :: p) t with _ | s
    · exact ⟨false, h, [], by simp, by simp, fun _ => ⟨rfl, rfl⟩, by simp, t, ht, rfl, hnodup,
        by simp⟩
    · obtain ⟨parent, vs, as, hplaced, hnames, hheight⟩ :=
        placed_of_resolve_root ht hnodup (List.cons_ne_nil x p) hs
      have hdepth : s.height ≤ bound := by omega
      have hrounds : vs.length + s.height ≤ bound := by omega
      have hdelete := deleteNode_eq sep owner s hplaced.holds hplaced.climbs hplaced.nodup
        hplaced.disjoint hdepth hrounds
      have hup : vs.map NodeData.myName = (x :: p).dropLast.reverse := by
        rw [← List.tail_reverse, ← hnames, List.tail_cons]
      rw [hup] at hdelete
      obtain ⟨t', ht', haddr, hsub, herase⟩ :=
        exists_holds_without ht hnodup hs hplaced.holds
      have hparent : (h s.addr).bind Cell.parent = some parent := hplaced.holds.bind_parent
      refine ⟨true, h.without s.addrs parent [s.addr],
        destroy sep owner (x :: p).dropLast.reverse (erase s), by simp [hdelete], by simp, by simp,
        fun _ => ?_, t', ht', haddr, hsub.nodup hnodup, ?_⟩
      · refine ⟨s, parent, rfl, hparent, rfl, ?_⟩
        rw [destroy_eq, localFiles_eq, List.map_map, List.reverse_reverse]
        rfl
      · simp [herase]

/-- Removing the directory `/a` with the cached file `/a/b`, next to the file `/c`. -/
theorem removeNode_directory :
    let h : NodeHeap Char
      | 0 => some ⟨⟨['/'], false⟩, none, [3, 1]⟩
      | 1 => some ⟨⟨['a'], false⟩, some 0, [2]⟩
      | 2 => some ⟨⟨['b'], true⟩, some 1, []⟩
      | 3 => some ⟨⟨['c'], false⟩, some 0, []⟩
      | _ => none
    ∃ h', NodeHeap.removeNode '/' "o".toList "/a".toList 3 h 0 =
        some (true, h', [.remove "o/a/b".toList]) ∧
      h' 0 = some ⟨⟨['/'], false⟩, none, [3]⟩ ∧ h' 1 = none ∧ h' 2 = none ∧ h' 3 = h 3 := by
  intro h
  let t : CellTree (NodeData Char) := .node 0 ⟨['/'], false⟩
    [.node 3 ⟨['c'], false⟩ [], .node 1 ⟨['a'], false⟩ [.node 2 ⟨['b'], true⟩ []]]
  have ht : Holds h none t := by
    refine ⟨rfl, ⟨rfl, trivial⟩, ⟨rfl, ⟨rfl, trivial⟩, trivial⟩, trivial⟩
  obtain ⟨result, h', ops, hrun, hresult, -, hfound, -⟩ :=
    removeNode_spec '/' "o".toList ht (by decide) "/a".toList
      (show t.height ≤ 3 by decide)
  have htrue : result = true := hresult.mpr ⟨by decide, _, rfl⟩
  obtain ⟨s, parent, hs, hparent, rfl, rfl⟩ := hfound htrue
  obtain rfl : CellTree.node 1 ⟨['a'], false⟩ [.node 2 ⟨['b'], true⟩ []] = s := Option.some.inj hs
  obtain rfl : 0 = parent := Option.some.inj hparent
  rw [htrue] at hrun
  exact ⟨h.without [1, 2] 0 [1], hrun, rfl, rfl, rfl, rfl⟩

end FspServer
