import FspServer.PathViews
import FspServer.RepresentationInvariant
import FspServer.Lib.Simulation

/-!
# The tree on linked nodes

Every call of `VirtualFileSystemTree` on a heap of nodes: `Add` puts new nodes at free
addresses and links them in front of the children, `Rename` and `SetCached` write to the
node that is found, `Remove` and the destructor release nodes. The use of a node that was
released gives `none`.

* `runOn_refines`: a call on the heap and the call on the tree as a value have the same
  fate, return the same and make the same calls of the file system. The memory has changed
  by what the tree has changed by, and by nothing else (`Beside`).
* `nodeStore_refines`: the same for all sequences of calls on a tree that was constructed
  next to anything else in memory.
* `nodeStore_destroyed`: after any such sequence the destructor leaves the memory as it
  was before the constructor, and removes the local file of each cached node.
-/

namespace FspServer

open LinkedTree Runs

variable {χ : Type}

/-! ## Calls -/

/-- A call of the tree, with its arguments. -/
inductive VfsCall (χ : Type) where
  | Add (path : List χ)
  | Get (type : PathType)
  | Find (path : List χ)
  | Remove (path : List χ)
  | Rename (path newPath : List χ)
  | SetCached (path : List χ) (cached : Bool)
  | Empty
deriving DecidableEq

/-- What a call gives back: nothing, a truth value, the paths of a new container, or what
`Find` says with its reference argument. -/
inductive VfsResult (χ : Type) where
  | done
  | returned (result : Bool)
  | paths (container : List (List χ))
  | found (cached : Option Bool)
deriving DecidableEq, Repr

/-- The result of a call and the calls of the file system it makes. -/
abbrev VfsOutput (χ : Type) := VfsResult χ × List (DiskOp χ)

/-! ## Nodes -/

namespace NodeHeap

open LinkedTree.CellTree

/-- `new Node(name, parent)`: the node is put at the free address that the allocator
picks, and `AddChildren` links it in front of the children of its parent. -/
def newNode (alloc : Allocator (NodeData χ)) (name : List χ) (parent : Nat) (h : NodeHeap χ) :
    Option (Nat × NodeHeap χ) :=
  let self := alloc.fresh h
  ((h.alloc self ⟨⟨name, false⟩, some parent, []⟩).update parent fun c =>
    { c with children := self :: c.children }).map fun h => (self, h)

theorem newNode_eq (alloc : Allocator (NodeData χ)) (name : List χ) {h : NodeHeap χ}
    (hbounded : h.Bounded) {parent : Option Nat} {a : Nat} {v : NodeData χ}
    {ts : List (CellTree (NodeData χ))} (ht : Holds h parent (.node a v ts))
    (hnodup : (CellTree.node a v ts).addrs.Nodup) :
    ∃ h', newNode alloc name a h = some (alloc.fresh h, h') ∧
      Becomes h parent (.node a v ts) h'
        (.node a v (.node (alloc.fresh h) ⟨name, false⟩ [] :: ts)) := by
  obtain ⟨h', hupdate, hbecomes⟩ :=
    Becomes.push_front (w := ⟨name, false⟩) ht hnodup (alloc.free h hbounded)
  exact ⟨h', by rw [newNode, hupdate]; rfl, hbecomes⟩

/-- `Empty`. -/
def empty (h : NodeHeap χ) (root : Nat) : Option Bool := do
  let r ← h root
  some r.children.isEmpty

/-- The constructor: the root node has no parent. -/
def create (alloc : Allocator (NodeData χ)) (rootName : List χ) (h : NodeHeap χ) :
    Nat × NodeHeap χ :=
  let root := alloc.fresh h
  (root, h.alloc root ⟨⟨rootName, false⟩, none, []⟩)

theorem empty_eq {h : NodeHeap χ} {parent : Option Nat} {t : CellTree (NodeData χ)}
    (ht : Holds h parent t) : empty h t.addr = some (erase t).empty := by
  rw [empty, ht.cell, Node.empty, myChildrens_erase, List.isEmpty_map]
  simp

theorem cached_erase (t : CellTree (NodeData χ)) : (erase t).cached = t.value.cached := by
  cases t
  rfl

/-- `delete root_`: every node of the tree is released, and the local file of every cached
one is removed. -/
theorem deleteRoot_eq (sep : χ) (owner : List χ) {h : NodeHeap χ} {t : CellTree (NodeData χ)}
    (ht : Holds h none t) (hnodup : t.addrs.Nodup) {bound : Nat} (hbound : t.height ≤ bound) :
    deleteNode sep owner bound bound h t.addr =
      some (fun x => if x ∈ t.addrs then none else h x,
        (Node.cachedFiles sep owner (erase t)).map .remove) := by
  obtain ⟨a, v, ts⟩ := t
  obtain ⟨hcell, hsubs⟩ := ht
  rw [addrs, List.nodup_cons] at hnodup
  rw [CellTree.height] at hbound
  obtain ⟨depth, rfl⟩ : ∃ d, bound = d + 1 := Nat.exists_eq_add_one_of_ne_zero (by omega)
  have hbelow : deleteAll (deleteNode sep owner (depth + 1) depth) (ts.map addr) h = _ :=
    deleteAll_eq sep owner ts hsubs (.root hcell rfl) hnodup.2
      (List.forall_mem_singleton.mpr hnodup.1) (by omega) (by simp only [List.length_nil]; omega)
  have hfree : (h.without (addrsAll ts) a (ts.map addr)).free a =
      fun x => if x ∈ a :: addrsAll ts then none else h x := by
    funext x
    rcases eq_or_ne x a with rfl | hx
    · simp [Heap.free]
    · simp [Heap.free, Heap.without, hx]
  have hfiles : Node.cachedFiles sep owner (erase (.node a v ts)) =
      (if v.cached then [Node.localPathToMe sep owner [] v.myName []] else []) ++
        Node.localFilesAll sep owner [] (eraseAll ts) := rfl
  rw [hfiles, List.map_append, ← Node.destroyAll_eq]
  cases hcached : v.cached with
  | true =>
    simp [deleteNode, addr, hcell, hcached, localPathToMe, hbelow, hfree, addrs,
      Node.localPathToMe, Node.parentWalk]
  | false => simp [deleteNode, addr, hcell, hcached, hbelow, hfree, addrs]

end NodeHeap

open NodeHeap

/-- The memory holds, next to what was there before, the nodes of the tree. -/
def Represents (h₀ : NodeHeap χ) (root : Nat) (h : NodeHeap χ) (n : Node χ) : Prop :=
  ∃ t, Beside h₀ h t ∧ t.addr = root ∧ erase t = n

theorem create_represents (alloc : Allocator (NodeData χ)) (rootName : List χ) {h₀ : NodeHeap χ}
    (hbounded : h₀.Bounded) :
    Represents h₀ (create alloc rootName h₀).1 (create alloc rootName h₀).2 (Node.new rootName) :=
  ⟨.node (alloc.fresh h₀) ⟨rootName, false⟩ [],
    Beside.alloc (⟨rootName, false⟩ : NodeData χ) (alloc.free h₀ hbounded), rfl, rfl⟩

/-! ## The calls on a tree -/

variable [DecidableEq χ]

/-- A call; `none` is the undefined behaviour of `Node.add`. -/
def VfsCall.run (sep : χ) (owner : List χ) (root : Node χ) :
    VfsCall χ → Option (Node χ × VfsOutput χ)
  | .Add path => (Node.add sep path root).map fun root => (root, .done, [])
  | .Get type => some (root, .paths (Node.get sep type root []), [])
  | .Find path => some (root, .found (Node.find sep path root), [])
  | .Remove path =>
    let (removed, root, ops) := Node.remove sep owner path root
    some (root, .returned removed, ops)
  | .Rename path newPath =>
    let (renamed, root, ops) := Node.rename sep owner path newPath root
    some (root, .returned renamed, ops)
  | .SetCached path cached =>
    let (found, root) := Node.setCached sep path cached root
    some (root, .returned found, [])
  | .Empty => some (root, .returned root.empty, [])

/-! ## The calls on the heap -/

namespace NodeHeap

/-- The loop of `do_add` over the copy of the children. -/
def doAddLoop (alloc : Allocator (NodeData χ))
    (doAdd : List (List χ) → NodeHeap χ → Nat → Option (NodeHeap χ × List (List χ)))
    (current : List χ) :
    List Nat → List (List χ) → NodeHeap χ → Option (NodeHeap χ × List (List χ))
  | [], components, h => some (h, components)
  | c :: cs, components, h => do
    let child ← h c
    if child.value.myName = current then
      match components with
      | [] => none
      | [_] => do
        let (_, h) ← newNode alloc current c h
        some (h, [])
      | _ :: next :: rest => do
        let (h, left) ← doAdd (next :: rest) h c
        doAddLoop alloc doAdd current cs left h
    else doAddLoop alloc doAdd current cs components h

/-- `do_add` below the node at `parent`; the number bounds the depth of the recursion. A
recursive call has fewer components. -/
def doAdd (alloc : Allocator (NodeData χ)) :
    Nat → List (List χ) → NodeHeap χ → Nat → Option (NodeHeap χ × List (List χ))
  | _, [], h, _ => some (h, [])
  | 0, _ :: _, _, _ => none
  | depth + 1, current :: components, h, parent => do
    let childrens := (← h parent).children
    let (h, left) ← doAddLoop alloc (doAdd alloc depth) current childrens
      (current :: components) h
    match left with
    | [] => some (h, [])
    | _ :: rest => do
      let (newTreePathComponent, h) ← newNode alloc current parent h
      doAdd alloc depth rest h newTreePathComponent

/-- `Add`. -/
def add (alloc : Allocator (NodeData χ)) (sep : χ) (path : List χ) (h : NodeHeap χ)
    (root : Nat) : Option (NodeHeap χ) :=
  let pathComponents := Node.getComponents sep path
  (doAdd alloc pathComponents.length pathComponents h root).map (·.1)

/-- `Rename`: the old local path is asked for before the name is written, and only of a
cached node. -/
def rename (sep : χ) (owner path newPath : List χ) (bound : Nat) (h : NodeHeap χ) (root : Nat) :
    Option (Bool × NodeHeap χ × List (DiskOp χ)) := do
  match ← doFindNode sep path h root with
  | none => some (false, h, [])
  | some nodeToRename =>
    let fileName := Node.filename sep newPath
    if fileName = [] then some (false, h, [])
    else do
      let node ← h nodeToRename
      let oldLocalPath ← if node.value.cached then localPathToMe sep owner h bound node
        else some []
      let h ← h.update nodeToRename fun c => { c with value := { c.value with myName := fileName } }
      let node ← h nodeToRename
      some (true, h, if node.value.cached then
        [.rename oldLocalPath (Node.newLocalPath sep oldLocalPath fileName)] else [])

/-- `SetCached`. -/
def setCached (sep : χ) (path : List χ) (cached : Bool) (h : NodeHeap χ) (root : Nat) :
    Option (Bool × NodeHeap χ) := do
  match ← doFindNode sep path h root with
  | none => some (false, h)
  | some nodeToFind =>
    let h ← h.update nodeToFind fun c => { c with value := { c.value with cached := cached } }
    some (true, h)

end NodeHeap

/-- A call on the heap; the number bounds the rounds of its loops and the depth of its
recursions. -/
def VfsCall.runOn (alloc : Allocator (NodeData χ)) (sep : χ) (owner : List χ) (root bound : Nat)
    (h : NodeHeap χ) : VfsCall χ → Option (NodeHeap χ × VfsOutput χ)
  | .Add path => (NodeHeap.add alloc sep path h root).map fun h => (h, .done, [])
  | .Get type => (getInto emplaceFront sep type bound h root []).map fun paths =>
      (h, .paths paths, [])
  | .Find path => (NodeHeap.find sep path h root).map fun cached => (h, .found cached, [])
  | .Remove path => (removeNode sep owner path bound h root).map fun (removed, h, ops) =>
      (h, .returned removed, ops)
  | .Rename path newPath =>
      (NodeHeap.rename sep owner path newPath bound h root).map fun (renamed, h, ops) =>
        (h, .returned renamed, ops)
  | .SetCached path cached =>
      (NodeHeap.setCached sep path cached h root).map fun (found, h) => (h, .returned found, [])
  | .Empty => (NodeHeap.empty h root).map fun result => (h, .returned result, [])

/-! ## Add -/

theorem Node.doAddLoop_cons_of_ne {child : Node χ} {current : List χ} {cs : List (Node χ)}
    {components : List (List χ)} (hname : child.myName ≠ current) :
    doAddLoop (child :: cs) current components =
      (doAddLoop cs current components).bind fun r => some (child :: r.1, r.2) := by
  rcases components with _ | ⟨_, _ | ⟨_, _⟩⟩
  all_goals simp [doAddLoop, hname]

namespace NodeHeap

open LinkedTree.CellTree

/-- What `do_add` does to the memory, and what it leaves of the components, against
`Node.doAdd`. -/
def AddsAs (doAdd : List (List χ) → NodeHeap χ → Nat → Option (NodeHeap χ × List (List χ)))
    (p : List (List χ)) : Prop :=
  ∀ {h : NodeHeap χ} {parent : Option Nat} {t : CellTree (NodeData χ)}, h.Bounded →
    Holds h parent t → t.addrs.Nodup →
      Matches (fun h' n' => ∃ t', Becomes h parent t h' t' ∧ erase t' = n') Eq
        (doAdd p h t.addr) (Node.doAdd (erase t) p)

/-- A round of the loop for a child with another name. -/
theorem doAddLoop_cons_of_ne {alloc : Allocator (NodeData χ)}
    {doAdd : List (List χ) → NodeHeap χ → Nat → Option (NodeHeap χ × List (List χ))}
    {current : List χ} {c : Nat} {cs : List Nat} {components : List (List χ)} {h : NodeHeap χ}
    {child : Cell (NodeData χ)} (hc : h c = some child) (hname : child.value.myName ≠ current) :
    doAddLoop alloc doAdd current (c :: cs) components h =
      doAddLoop alloc doAdd current cs components h := by
  rcases components with _ | ⟨_, _ | ⟨_, _⟩⟩
  all_goals simp [doAddLoop, hc, hname]

/-- The loop over the children that come after `before`. -/
theorem doAddLoop_matches (alloc : Allocator (NodeData χ))
    {doAdd : List (List χ) → NodeHeap χ → Nat → Option (NodeHeap χ × List (List χ))}
    (current : List χ) {depth : Nat} (hadds : ∀ p, p.length ≤ depth → AddsAs doAdd p)
    {parent : Option Nat} {a : Nat} {v : NodeData χ} (ts before : List (CellTree (NodeData χ)))
    {components : List (List χ)} (hlength : components.length ≤ depth + 1) {h : NodeHeap χ}
    (hbounded : h.Bounded) (ht : Holds h parent (.node a v (before ++ ts)))
    (hnodup : (CellTree.node a v (before ++ ts)).addrs.Nodup) :
    Matches (fun h' cs' => ∃ ts', Becomes h parent (.node a v (before ++ ts)) h'
        (.node a v (before ++ ts')) ∧ eraseAll ts' = cs')
      (fun left left' => left = left' ∧ left.length ≤ components.length)
      (doAddLoop alloc doAdd current (ts.map addr) components h)
      (Node.doAddLoop (eraseAll ts) current components) := by
  induction ts generalizing before components h with
  | nil =>
    rw [eraseAll, Node.doAddLoop]
    exact .made ⟨[], .refl ht hnodup, rfl⟩ ⟨rfl, Nat.le_refl _⟩
  | cons c ts ih =>
    have hc : Holds h (some a) c := ht.subs c (by simp [subs])
    have hcnodup : c.addrs.Nodup := by
      rw [addrs, List.nodup_cons] at hnodup
      exact nodup_of_mem hnodup.2 (by simp)
    have hassoc : ∀ d us, before ++ [d] ++ us = before ++ d :: us := fun d us =>
      List.append_cons before d us |>.symm
    rw [List.map_cons, eraseAll]
    rcases eq_or_ne c.value.myName current with rfl | hname
    · rcases components with _ | ⟨_, _ | ⟨next, rest⟩⟩
      · simp only [doAddLoop, hc.cell, Node.doAddLoop, myName_erase, Option.bind_eq_bind,
          Option.bind_some, if_true]
        exact .failed
      · obtain ⟨b, w, us⟩ := c
        obtain ⟨h', hnew, hbecomes⟩ := newNode_eq alloc w.myName hbounded hc hcnodup
        simp only [doAddLoop, hc.cell, Node.doAddLoop, myName_erase, Option.bind_eq_bind,
          Option.bind_some, if_true]
        simp only [addr, CellTree.value, hnew, Option.bind_some]
        exact .made ⟨_, hbecomes.child ht hnodup, rfl⟩ ⟨rfl, Nat.zero_le _⟩
      · simp only [doAddLoop, hc.cell, Node.doAddLoop, myName_erase, Option.bind_eq_bind,
          Option.bind_some, if_true]
        refine (hadds (next :: rest) (Nat.le_of_succ_le_succ hlength) hbounded hc hcnodup).bind ?_
        rintro h₁ left _ left' ⟨c', hbecomes, rfl⟩ rfl hrun
        have hchild := hbecomes.child ht hnodup
        obtain rfl : left = [] := (Node.doAdd_some hrun).2
        have hloop := ih (before ++ [c'])
          (show ([] : List (List χ)).length ≤ depth + 1 from Nat.zero_le _)
          (hchild.bounded hbounded) (hassoc c' ts ▸ hchild.holds) (hassoc c' ts ▸ hchild.nodup)
        refine hloop.bind_right ?_
        rintro h₂ left _ left' ⟨ts', hbecomes', rfl⟩ ⟨rfl, hleft⟩
        rw [hassoc, hassoc] at hbecomes'
        exact ⟨_, _, rfl, ⟨c' :: ts', hchild.trans hbecomes', rfl⟩, rfl,
          Nat.le_trans hleft (Nat.zero_le _)⟩
    · have hloop := ih (before ++ [c]) hlength hbounded (hassoc c ts ▸ ht) (hassoc c ts ▸ hnodup)
      rw [doAddLoop_cons_of_ne hc.cell hname, Node.doAddLoop_cons_of_ne (by simpa using hname)]
      refine hloop.bind_right ?_
      rintro h₁ left _ left' ⟨ts', hbecomes, rfl⟩ hleft
      rw [hassoc, hassoc] at hbecomes
      exact ⟨_, _, rfl, ⟨c :: ts', hbecomes, rfl⟩, hleft⟩

/-- `do_add` on the heap: as deep as there are components, it uses no node that was
released and changes the memory by what `Node.doAdd` changes of the tree. -/
theorem doAdd_matches (alloc : Allocator (NodeData χ)) {depth : Nat} {p : List (List χ)}
    (hdepth : p.length ≤ depth) : AddsAs (doAdd alloc depth) p := by
  induction depth generalizing p with
  | zero =>
    intro h parent t hbounded ht hnodup
    obtain rfl := List.length_eq_zero_iff.mp (Nat.le_zero.mp hdepth)
    obtain ⟨a, v, ts⟩ := t
    rw [doAdd, erase, Node.doAdd]
    exact .made ⟨.node a v ts, .refl ht hnodup, rfl⟩ rfl
  | succ depth ih =>
    intro h parent t hbounded ht hnodup
    obtain ⟨a, v, ts⟩ := t
    cases p with
    | nil =>
      rw [doAdd, erase, Node.doAdd]
      exact .made ⟨.node a v ts, .refl ht hnodup, rfl⟩ rfl
    | cons current components =>
      have hloop := doAddLoop_matches alloc current (fun p hp => ih hp) ts [] hdepth
        hbounded ht hnodup
      have hcell : h a = some ⟨v, parent, ts.map addr⟩ := ht.1
      simp only [doAdd, addr, hcell, erase, Node.doAdd, Option.bind_eq_bind, Option.bind_some]
      refine hloop.bind ?_
      rintro h₁ left _ left' ⟨ts', hbecomes, rfl⟩ ⟨rfl, hleft⟩ -
      rcases left with _ | ⟨_, rest⟩
      · exact .made ⟨.node a v ts', hbecomes, rfl⟩ rfl
      · obtain ⟨h₂, hnew, hlinked⟩ := newNode_eq alloc current (hbecomes.bounded hbounded)
          hbecomes.holds hbecomes.nodup
        -- the call on the new node, which has no children to loop over
        have hbranch := hlinked.holds.subs _ List.mem_cons_self
        have hrest : rest.length ≤ depth := by
          simp only [List.length_cons] at hleft hdepth
          omega
        have hbelow := ih hrest (hlinked.bounded (hbecomes.bounded hbounded)) hbranch
          (List.nodup_singleton _)
        have hfresh : erase (.node (alloc.fresh h₁) ⟨current, false⟩ []) = Node.new current := rfl
        rw [hfresh, Node.doAdd_new] at hbelow
        obtain ⟨h₃, left, hrun, ⟨t', hgrown, herase⟩, rfl⟩ := hbelow.of_some
        have hchild : Becomes h₂ parent
            (.node a v ([] ++ .node (alloc.fresh h₁) ⟨current, false⟩ [] :: ts')) h₃
            (.node a v ([] ++ t' :: ts')) := hgrown.child hlinked.holds hlinked.nodup
        have hrun' : doAdd alloc depth rest h₂ (alloc.fresh h₁) = some (h₃, []) := hrun
        simp only [hnew, Option.bind_some, hrun']
        refine .made ⟨.node a v (t' :: ts'), hbecomes.trans (hlinked.trans hchild), ?_⟩ rfl
        rw [erase, eraseAll, herase]

/-! ## Changes below the root -/

theorem resolve_append (p q : List (List χ)) (t : CellTree (NodeData χ)) :
    resolve (p ++ q) t = (resolve p t).bind (resolve q) := by
  induction p generalizing t with
  | nil => rfl
  | cons x p ih =>
    rw [List.cons_append, resolve, resolve]
    cases t.subs.find? fun s => s.value.myName = x with
    | none => rfl
    | some c => exact ih c

/-- The node that a path resolves to among the children of its parent. -/
theorem exists_parent_of_resolve {t s : CellTree (NodeData χ)} {p : List (List χ)} (hne : p ≠ [])
    (hs : resolve p t = some s) :
    ∃ q x a v before after, p = q ++ [x] ∧ resolve q t = some (.node a v (before ++ s :: after)) ∧
      s.value.myName = x ∧ ∀ d ∈ before, d.value.myName ≠ x := by
  rcases List.eq_nil_or_concat p with rfl | ⟨q, x, rfl⟩
  · exact absurd rfl hne
  · rw [List.concat_eq_append, resolve_append] at hs
    obtain ⟨d, hd, hx⟩ := Option.bind_eq_some_iff.mp hs
    obtain ⟨a, v, before, c, after, rfl, -, hname, hbefore, hc⟩ := resolve_cons hx
    obtain rfl := Option.some.inj hc
    exact ⟨q, x, a, v, before, after, List.concat_eq_append, hd, hname, hbefore⟩

theorem holds_of_resolve {h : NodeHeap χ} {parent : Option Nat} {t s : CellTree (NodeData χ)}
    (ht : Holds h parent t) (hnodup : t.addrs.Nodup) {p : List (List χ)}
    (hs : resolve p t = some s) : (∃ parent, Holds h parent s) ∧ s.addrs.Nodup := by
  induction p generalizing parent t with
  | nil =>
    obtain rfl := Option.some.inj hs
    exact ⟨⟨parent, ht⟩, hnodup⟩
  | cons x p ih =>
    obtain ⟨a, v, before, c, after, rfl, hc, -, -, hrest⟩ := resolve_cons hs
    rw [addrs, List.nodup_cons] at hnodup
    exact ih (ht.subs c hc) (nodup_of_mem hnodup.2 hc) hrest

/-- A change of the children of the node that a path resolves to is one of the tree. -/
theorem becomes_at {f : Node χ → List (Node χ)} {x : List χ} {q : List (List χ)}
    {h h' : NodeHeap χ} {parent : Option Nat} {t d : CellTree (NodeData χ)}
    (d' : CellTree (NodeData χ))
    (ht : Holds h parent t) (hnodup : t.addrs.Nodup) (hd : resolve q t = some d)
    (hchange : ∀ {parent : Option Nat}, Holds h parent d → d.addrs.Nodup →
      Becomes h parent d h' d')
    (herase : erase d' = Node.alterAt f [x] (erase d)) :
    ∃ t', Becomes h parent t h' t' ∧ erase t' = Node.alterAt f (q ++ [x]) (erase t) := by
  induction q generalizing parent t with
  | nil =>
    obtain rfl := Option.some.inj hd
    exact ⟨d', hchange ht hnodup, herase⟩
  | cons y q ih =>
    obtain ⟨a, v, before, c, after, rfl, hc, hy, hbefore, hrest⟩ := resolve_cons hd
    have hnodup' := hnodup
    rw [addrs, List.nodup_cons] at hnodup'
    obtain ⟨c', hbecomes, hc'⟩ := ih (ht.subs c hc) (nodup_of_mem hnodup'.2 hc) hrest
    refine ⟨.node a v (before ++ c' :: after), hbecomes.child ht hnodup, ?_⟩
    obtain ⟨z, rest, hz⟩ := List.exists_cons_of_ne_nil
      (List.append_ne_nil_of_right_ne_nil q (List.cons_ne_nil x []))
    rw [List.cons_append, hz, Node.alterAt, ← hz, withChildrens_alterFirst_erase _ hbefore hy,
      erase_node_append, List.map_cons, hc', List.append_assoc, List.singleton_append]

/-- Releasing the subtree at a path and unlinking its root. -/
theorem becomes_without {h : NodeHeap χ} {parent : Option Nat} {t s : CellTree (NodeData χ)}
    (ht : Holds h parent t) (hnodup : t.addrs.Nodup) {p : List (List χ)} (hne : p ≠ [])
    (hs : resolve p t = some s) {a : Nat} (ha : Holds h (some a) s) :
    ∃ t', Becomes h parent t (h.without s.addrs a [s.addr]) t' ∧
      erase t' = Node.alterAt (fun _ => []) p (erase t) := by
  obtain ⟨q, x, b, v, before, after, rfl, hd, hname, hbefore⟩ := exists_parent_of_resolve hne hs
  refine becomes_at (.node b v (before ++ after)) ht hnodup hd (fun hholds hd => ?_) ?_
  · obtain rfl : b = a := Option.some.inj ((hholds.subs s (by simp [subs])).parent_eq ha)
    exact Becomes.without_child hholds hd
  · rw [Node.alterAt, withChildrens_alterFirst_erase _ hbefore hname, List.append_nil,
      erase_node_append]

/-- Writing to the node at a path. -/
theorem becomes_write {f : NodeData χ → NodeData χ} {g : Node χ → Node χ}
    (hfg : ∀ a v ts, erase (.node a (f v) ts) = g (erase (.node a v ts))) {h : NodeHeap χ}
    {parent : Option Nat} {t s : CellTree (NodeData χ)} (ht : Holds h parent t)
    (hnodup : t.addrs.Nodup) {p : List (List χ)} (hne : p ≠ []) (hs : resolve p t = some s) :
    ∃ h' t', h.update s.addr (fun c => { c with value := f c.value }) = some h' ∧
      (h' s.addr).map Cell.value = some (f s.value) ∧ Becomes h parent t h' t' ∧
      erase t' = Node.alterAt (fun c => [g c]) p (erase t) := by
  obtain ⟨q, x, b, v, before, after, rfl, hd, hname, hbefore⟩ := exists_parent_of_resolve hne hs
  obtain ⟨a, w, us⟩ := s
  obtain ⟨⟨parent', hholds⟩, hdnodup⟩ := holds_of_resolve ht hnodup hd
  have hmem : CellTree.node a w us ∈ before ++ .node a w us :: after := by simp
  have hsholds : Holds h (some b) (.node a w us) := hholds.subs _ hmem
  rw [addrs, List.nodup_cons] at hdnodup
  obtain ⟨h', hupdate, hwritten⟩ := Becomes.set_value f hsholds (nodup_of_mem hdnodup.2 hmem)
  obtain ⟨t', hbecomes, herase⟩ := becomes_at (f := fun c => [g c]) (x := x)
    (.node b v (before ++ .node a (f w) us :: after)) ht hnodup hd
    (fun hholds hd => hwritten.child hholds hd) (by
      rw [Node.alterAt, withChildrens_alterFirst_erase _ hbefore hname, erase_node_append,
        List.map_cons, hfg, List.append_assoc, List.singleton_append])
  refine ⟨h', t', hupdate, ?_, hbecomes, herase⟩
  exact congrArg (Option.map Cell.value) hwritten.holds.cell

/-! ## The calls -/

theorem find_eq (sep : χ) (path : List χ) {h : NodeHeap χ} {parent : Option Nat}
    {t : CellTree (NodeData χ)} (ht : Holds h parent t) (hnodup : t.addrs.Nodup) :
    find sep path h t.addr = some (Node.find sep path (erase t)) := by
  rw [find, doFindNode_eq sep path ht, Node.find, doFindNode_erase]
  split
  · rfl
  · cases hs : resolve (Node.getComponents sep path) t with
    | none => rfl
    | some s =>
      obtain ⟨parent', hholds⟩ := (holds_of_resolve ht hnodup hs).1
      simp [hholds.cell, cached_erase]

/-- What `Remove` does, whatever bound from the height of the tree on. -/
theorem removeNode_eq (sep : χ) (owner path : List χ) {h : NodeHeap χ}
    {t : CellTree (NodeData χ)} (ht : Holds h none t) (hnodup : t.addrs.Nodup) :
    ∃ h' t', (∀ bound, t.height ≤ bound → removeNode sep owner path bound h t.addr =
        some ((Node.remove sep owner path (erase t)).1, h',
          (Node.remove sep owner path (erase t)).2.2)) ∧
      Becomes h none t h' t' ∧ erase t' = (Node.remove sep owner path (erase t)).2.1 := by
  have hfound := doFindNode_eq sep path ht
  simp only [removeNode, hfound, Node.remove, doFindNode_erase]
  split
  · next hnil => exact ⟨h, t, fun _ _ => rfl, .refl ht hnodup, rfl⟩
  · next hne =>
    cases hs : resolve (Node.getComponents sep path) t with
    | none => exact ⟨h, t, fun _ _ => rfl, .refl ht hnodup, rfl⟩
    | some s =>
      obtain ⟨parent, vs, as, hplaced, hnames, hheight⟩ := placed_of_resolve_root ht hnodup hne hs
      obtain ⟨t', hbecomes, herase⟩ := becomes_without ht hnodup hne hs hplaced.holds
      refine ⟨_, t', fun bound hbound => ?_, hbecomes, herase⟩
      have hdelete : deleteNode sep owner bound bound h s.addr = _ :=
        deleteNode_eq sep owner s hplaced.holds hplaced.climbs hplaced.nodup hplaced.disjoint
          (by omega) (by omega)
      have hup : vs.map NodeData.myName = (Node.getComponents sep path).dropLast.reverse := by
        rw [← List.tail_reverse, ← hnames, List.tail_cons]
      rw [hup] at hdelete
      simp [hdelete]

/-- What `Rename` does. -/
theorem rename_eq (sep : χ) (owner path newPath : List χ) {h : NodeHeap χ}
    {t : CellTree (NodeData χ)} (ht : Holds h none t) (hnodup : t.addrs.Nodup) :
    ∃ h' t', (∀ bound, t.height ≤ bound → rename sep owner path newPath bound h t.addr =
        some ((Node.rename sep owner path newPath (erase t)).1, h',
          (Node.rename sep owner path newPath (erase t)).2.2)) ∧
      Becomes h none t h' t' ∧ erase t' = (Node.rename sep owner path newPath (erase t)).2.1 := by
  have hfound := doFindNode_eq sep path ht
  simp only [rename, hfound, Node.rename, doFindNode_erase]
  split
  · next hnil => exact ⟨h, t, fun _ _ => rfl, .refl ht hnodup, rfl⟩
  · next hne =>
    cases hs : resolve (Node.getComponents sep path) t with
    | none => exact ⟨h, t, fun _ _ => rfl, .refl ht hnodup, rfl⟩
    | some s =>
      rcases Classical.em (Node.filename sep newPath = []) with hfile | hfile
      · exact ⟨h, t, fun _ _ => by simp [hfile], .refl ht hnodup, by simp [hfile]⟩
      · obtain ⟨parent, vs, as, hplaced, hnames, hheight⟩ :=
          placed_of_resolve_root ht hnodup hne hs
        obtain ⟨h', t', hupdate, hvalue, hbecomes, herase⟩ := becomes_write
          (f := fun v => { v with myName := Node.filename sep newPath })
          (g := Node.setName (Node.filename sep newPath)) (fun _ _ _ => rfl) ht hnodup hne hs
        refine ⟨h', t', fun bound hbound => ?_, hbecomes, by simp [hfile, herase]⟩
        have hheight' := CellTree.height_pos s
        have hpath : localPathToMe sep owner h bound ⟨s.value, some parent, s.subs.map addr⟩ = _ :=
          localPathToMe_eq sep owner hplaced.climbs (by omega) rfl
        have hup : vs.map NodeData.myName = (Node.getComponents sep path).dropLast.reverse := by
          rw [← List.tail_reverse, ← hnames, List.tail_cons]
        obtain ⟨written, hwritten, hcached⟩ := Option.map_eq_some_iff.mp hvalue
        have hself : h s.addr = some ⟨s.value, some parent, s.subs.map addr⟩ := hplaced.holds.cell
        rw [hup] at hpath
        cases hflag : s.value.cached with
        | true => simp [hfile, hself, hflag, hpath, hupdate, hwritten, hcached, cached_erase]
        | false => simp [hfile, hself, hflag, hupdate, hwritten, hcached, cached_erase]

/-- What `SetCached` does. -/
theorem setCached_eq (sep : χ) (path : List χ) (cached : Bool) {h : NodeHeap χ}
    {t : CellTree (NodeData χ)} (ht : Holds h none t) (hnodup : t.addrs.Nodup) :
    ∃ h' t', setCached sep path cached h t.addr =
        some ((Node.setCached sep path cached (erase t)).1, h') ∧
      Becomes h none t h' t' ∧ erase t' = (Node.setCached sep path cached (erase t)).2 := by
  have hfound := doFindNode_eq sep path ht
  simp only [setCached, hfound, Node.setCached, doFindNode_erase]
  split
  · next hnil => exact ⟨h, t, rfl, .refl ht hnodup, rfl⟩
  · next hne =>
    cases hs : resolve (Node.getComponents sep path) t with
    | none => exact ⟨h, t, rfl, .refl ht hnodup, rfl⟩
    | some s =>
      obtain ⟨h', t', hupdate, -, hbecomes, herase⟩ := becomes_write
        (f := fun v => { v with cached := cached }) (g := Node.setCachedFlag cached)
        (fun _ _ _ => rfl) ht hnodup hne hs
      exact ⟨h', t', by simp [hupdate], hbecomes, herase⟩

end NodeHeap

/-- A call on the heap does what the call on the tree does. -/
theorem runOn_refines (alloc : Allocator (NodeData χ)) (sep : χ) (owner : List χ) (root : Nat)
    {h₀ : NodeHeap χ} (hbounded : h₀.Bounded) :
    Refines (Represents h₀ root) Eq anyStep
      (fun bound h call => VfsCall.runOn alloc sep owner root bound h call)
      (fun n call => VfsCall.run sep owner n call) := by
  rintro h _ call ⟨t, ht, rfl, rfl⟩ -
  have becomes : ∀ {h' : NodeHeap χ} {t' : CellTree (NodeData χ)}, Becomes h none t h' t' →
      Represents h₀ t.addr h' (erase t') := fun hbecomes =>
    ⟨_, ht.becomes hbecomes, hbecomes.addr, rfl⟩
  cases call with
  | Add path =>
    have hadd := doAdd_matches alloc (Nat.le_refl (Node.getComponents sep path).length)
      (ht.bounded hbounded) ht.holds ht.nodup
    refine ⟨0, _, fun _ _ => rfl, ?_⟩
    show Matches _ _ (((doAdd ..).map _).map _) (((Node.doAdd ..).map _).map _)
    rw [Option.map_map, Option.map_map, Option.map_eq_bind, Option.map_eq_bind]
    refine hadd.bind ?_
    rintro h' _ _ _ ⟨t', hbecomes, rfl⟩ - -
    exact .made (becomes hbecomes) rfl
  | Get type =>
    refine ⟨t.height, some (h, .paths (Node.get sep type (erase t) []), []), fun bound hbound => ?_,
      .made (becomes (.refl ht.holds ht.nodup)) rfl⟩
    exact congrArg (Option.map _) (get_erase sep type ht.holds hbound [])
  | Find path =>
    refine ⟨0, some (h, .found (Node.find sep path (erase t)), []), fun bound _ => ?_,
      .made (becomes (.refl ht.holds ht.nodup)) rfl⟩
    exact congrArg (Option.map _) (find_eq sep path ht.holds ht.nodup)
  | Remove path =>
    obtain ⟨h', t', hrun, hbecomes, herase⟩ := removeNode_eq sep owner path ht.holds ht.nodup
    refine ⟨t.height, some (h', .returned (Node.remove sep owner path (erase t)).1,
      (Node.remove sep owner path (erase t)).2.2), fun bound hbound => ?_,
      .made (herase ▸ becomes hbecomes) rfl⟩
    exact congrArg (Option.map _) (hrun bound hbound)
  | Rename path newPath =>
    obtain ⟨h', t', hrun, hbecomes, herase⟩ := rename_eq sep owner path newPath ht.holds ht.nodup
    refine ⟨t.height, some (h', .returned (Node.rename sep owner path newPath (erase t)).1,
      (Node.rename sep owner path newPath (erase t)).2.2), fun bound hbound => ?_,
      .made (herase ▸ becomes hbecomes) rfl⟩
    exact congrArg (Option.map _) (hrun bound hbound)
  | SetCached path cached =>
    obtain ⟨h', t', hrun, hbecomes, herase⟩ := setCached_eq sep path cached ht.holds ht.nodup
    refine ⟨0, some (h', .returned (Node.setCached sep path cached (erase t)).1, []),
      fun bound _ => ?_, .made (herase ▸ becomes hbecomes) rfl⟩
    exact congrArg (Option.map _) hrun
  | Empty =>
    refine ⟨0, some (h, .returned (erase t).empty, []), fun bound _ => ?_,
      .made (becomes (.refl ht.holds ht.nodup)) rfl⟩
    exact congrArg (Option.map _) (empty_eq ht.holds)

/-! ## Sequences of calls -/

/-- For every allocator, next to anything else in memory, and for every sequence of calls on
a new tree: the calls on the linked nodes end, use no node that was released, return what
the calls on the tree as a value return and make the same calls of the file system; they
stop at the same undefined behaviour of `Add`, if any. Afterwards the memory holds the nodes
of that tree, and nothing else has changed: no node is left over, and none of anything else
is written. -/
theorem nodeStore_refines (alloc : Allocator (NodeData χ)) (sep : χ) (owner rootName : List χ)
    {h₀ : NodeHeap χ} (hbounded : h₀.Bounded) (calls : List (VfsCall χ)) :
    ∃ N r, (∀ bound, N ≤ bound →
        outputs (VfsCall.runOn alloc sep owner (create alloc rootName h₀).1 bound)
          (create alloc rootName h₀).2 calls = r) ∧
      Matches (Represents h₀ (create alloc rootName h₀).1) Eq r
        (outputs (VfsCall.run sep owner) (Node.new rootName) calls) := by
  obtain ⟨N, r, hr, hmatches⟩ := (runOn_refines alloc sep owner _ hbounded).outputs
    (create_represents alloc rootName hbounded)
    (EachStep.of_forall (fun _ _ => trivial) _ calls)
  rw [List.forall₂_eq_eq_eq] at hmatches
  exact ⟨N, r, hr, hmatches⟩

/-- A file is added and stored, and its directory is removed: the memory is used at the
lowest free addresses. -/
theorem nodeStore_refines_stored_file :
    ∃ N h, ∀ bound, N ≤ bound →
      outputs (VfsCall.runOn .first '/' "o".toList
          (create .first ['/'] fun _ => none).1 bound) (create .first ['/'] fun _ => none).2
        [.Add "/a/b".toList, .SetCached "/a/b".toList true, .Get .FILE, .Remove "/a".toList,
          .Empty] =
        some (h, [(.done, []), (.returned true, []), (.paths ["/a/b".toList], []),
          (.returned true, [.remove "o/a/b".toList]), (.returned true, [])]) := by
  obtain ⟨N, r, hr, hmatches⟩ := nodeStore_refines .first '/' "o".toList ['/']
    (show Heap.Bounded fun _ => none from ⟨0, fun _ _ => rfl⟩)
    [.Add "/a/b".toList, .SetCached "/a/b".toList true, .Get .FILE, .Remove "/a".toList, .Empty]
  have hrun : outputs (VfsCall.run '/' "o".toList) (Node.new ['/'])
      [.Add "/a/b".toList, .SetCached "/a/b".toList true, .Get .FILE, .Remove "/a".toList,
        .Empty] =
      some (Node.new ['/'], [(.done, []), (.returned true, []), (.paths ["/a/b".toList], []),
        (.returned true, [.remove "o/a/b".toList]), (.returned true, [])]) := rfl
  rw [hrun] at hmatches
  obtain ⟨h, _, rfl, -, rfl⟩ := hmatches.of_some
  exact ⟨N, h, hr⟩

/-- For every sequence of calls on a new tree that can be made on it as a value: after the
calls on the linked nodes the destructor releases each of them, so that the memory is what
it was before the constructor, and removes the local file of each node that is cached. -/
theorem nodeStore_destroyed (alloc : Allocator (NodeData χ)) (sep : χ)
    (owner rootName : List χ) {h₀ : NodeHeap χ} (hbounded : h₀.Bounded) {calls : List (VfsCall χ)}
    {n : Node χ} {os : List (VfsOutput χ)}
    (hrun : outputs (VfsCall.run sep owner) (Node.new rootName) calls = some (n, os)) :
    ∃ N h, ∀ bound, N ≤ bound →
      outputs (VfsCall.runOn alloc sep owner (create alloc rootName h₀).1 bound)
          (create alloc rootName h₀).2 calls = some (h, os) ∧
        deleteNode sep owner bound bound h (create alloc rootName h₀).1 =
          some (h₀, (n.cachedFiles sep owner).map .remove) := by
  obtain ⟨N, r, hr, hmatches⟩ := (runOn_refines alloc sep owner _ hbounded).outputs
    (create_represents alloc rootName hbounded)
    (EachStep.of_forall (fun _ _ => trivial) _ calls)
  rw [List.forall₂_eq_eq_eq, hrun] at hmatches
  obtain ⟨h, _, rfl, ⟨t, ht, haddr, rfl⟩, rfl⟩ := hmatches.of_some
  refine ⟨max N t.height, h, fun bound hbound => ⟨hr bound ?_, ?_⟩⟩
  · exact Nat.le_trans (Nat.le_max_left _ _) hbound
  · have hdelete := deleteRoot_eq sep owner ht.holds ht.nodup
      (Nat.le_trans (Nat.le_max_right _ _) hbound)
    have hbefore : (fun x => if x ∈ t.addrs then none else h x) = h₀ := by
      funext x
      split
      · next hx => exact (ht.apart x hx).symm
      · next hx => exact ht.same x hx
    rw [← haddr, hdelete, hbefore]

/-- Two files, one of them stored. -/
theorem nodeStore_destroyed_stored_file :
    ∃ N h, ∀ bound, N ≤ bound →
      outputs (VfsCall.runOn .first '/' "o".toList
          (create .first ['/'] fun _ => none).1 bound) (create .first ['/'] fun _ => none).2
        [.Add "/a/b".toList, .Add "/c".toList, .SetCached "/a/b".toList true] =
        some (h, [(.done, []), (.done, []), (.returned true, [])]) ∧
      deleteNode '/' "o".toList bound bound h (create .first ['/'] fun _ => none).1 =
        some (fun _ => none, [.remove "o/a/b".toList]) := by
  have hrun : outputs (VfsCall.run '/' "o".toList) (Node.new ['/'])
      [.Add "/a/b".toList, .Add "/c".toList, .SetCached "/a/b".toList true] =
      some (.mk ['/'] false [Node.new ['c'], .mk ['a'] false [.mk ['b'] true []]],
        [(.done, []), (.done, []), (.returned true, [])]) := rfl
  exact nodeStore_destroyed .first '/' "o".toList ['/']
    (show Heap.Bounded fun _ => none from ⟨0, fun _ _ => rfl⟩) hrun

end FspServer
