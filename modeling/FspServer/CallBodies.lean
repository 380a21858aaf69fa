import FspServer.NodeStore
import FspServer.Lib.CellProgram

/-!
# The bodies of the calls, node by node

`NodeHeap` carries a function of the tree out at once. Here the same functions are programs,
which read, write, allocate or release one node in each step, so that other threads can come in
between. As in `NodeHeap`, numbers bound the rounds of the loops and the depth of the recursions.

The run of each program is the function of the same name. With a larger bound a call does the
same (`NodeHeap.within_runOn`).
-/

namespace FspServer

open LinkedTree Program Runs

variable {χ : Type}

abbrev NodeProgram (χ β : Type) := Program (NodeData χ) β

namespace NodeProgram

/-! ## The code -/

/-- The loop of `LocalPathToMe`. -/
def walkParents (sep : χ) : Nat → Nat → List χ → NodeProgram χ (List χ)
  | 0, _, _ => stuck
  | rounds + 1, currentParent, path => do
    let parent ← load currentParent
    match parent.parent with
    | none => pure path
    | some next => walkParents sep rounds next (path ++ [sep] ++ parent.value.myName.reverse)

/-- `LocalPathToMe`. -/
def localPathToMe (sep : χ) (owner : List χ) (rounds : Nat) (self : Cell (NodeData χ)) :
    NodeProgram χ (List χ) := do
  let path ← match self.parent with
    | none => pure []
    | some currentParent => walkParents sep rounds currentParent []
  pure ((path ++ [sep] ++ owner.reverse).reverse ++ self.value.myName)

/-- `for (auto c : TempChildrens) delete c`. -/
def deleteAll (delete : Nat → NodeProgram χ (List (DiskOp χ))) :
    List Nat → NodeProgram χ (List (DiskOp χ))
  | [] => pure []
  | c :: cs => do
    let ops ← delete c
    let ops' ← deleteAll delete cs
    pure (ops ++ ops')

/-- `delete` of the node at `a`. -/
def deleteNode (sep : χ) (owner : List χ) (rounds : Nat) :
    Nat → Nat → NodeProgram χ (List (DiskOp χ))
  | 0, _ => stuck
  | depth + 1, a => do
    let self ← load a
    let ops ← if self.value.cached then do
        let localPath ← localPathToMe sep owner rounds self
        pure [.remove localPath]
      else pure []
    match self.parent with
    | some parent => store parent (Cell.unlink [a])
    | none => pure ()
    let self ← load a
    let ops' ← deleteAll (deleteNode sep owner rounds depth) self.children
    free a
    pure (ops ++ ops')

/-- `new Node(name, parent)`. -/
def newNode (name : List χ) (parent : Nat) : NodeProgram χ Nat := do
  let self ← alloc ⟨⟨name, false⟩, some parent, []⟩
  store parent fun c => { c with children := self :: c.children }
  pure self

/-- `Empty`. -/
def empty (root : Nat) : NodeProgram χ Bool := do
  let r ← load root
  pure r.children.isEmpty

variable [DecidableEq χ]

/-- `GetChildren`. -/
def getChildren (name : List χ) : List Nat → NodeProgram χ (Option Nat)
  | [] => pure none
  | c :: cs => do
    let child ← load c
    if child.value.myName = name then pure (some c) else getChildren name cs

/-- `do_find_path`. -/
def doFindPath : List (List χ) → Nat → NodeProgram χ (Option Nat)
  | [], a => pure (some a)
  | name :: rest, a => do
    let parent ← load a
    match ← getChildren name parent.children with
    | some child => doFindPath rest child
    | none => pure none

/-- `do_find_node`. -/
def doFindNode (sep : χ) (path : List χ) (root : Nat) : NodeProgram χ (Option Nat) :=
  match Node.getComponents sep path with
  | [] => pure none
  | c :: cs => doFindPath (c :: cs) root

/-- `Find`. -/
def find (sep : χ) (path : List χ) (root : Nat) : NodeProgram χ (Option Bool) := do
  match ← doFindNode sep path root with
  | none => pure none
  | some nodeToFind =>
    let node ← load nodeToFind
    pure (some node.value.cached)

/-- `Remove`. -/
def removeNode (sep : χ) (owner path : List χ) (bound : Nat) (root : Nat) :
    NodeProgram χ (Bool × List (DiskOp χ)) := do
  match ← doFindNode sep path root with
  | none => pure (false, [])
  | some nodeToDelete =>
    let ops ← deleteNode sep owner bound bound nodeToDelete
    pure (true, ops)

/-- The loop of `do_add` over the copy of the children. -/
def doAddLoop (doAdd : List (List χ) → Nat → NodeProgram χ (List (List χ)))
    (current : List χ) : List Nat → List (List χ) → NodeProgram χ (List (List χ))
  | [], components => pure components
  | c :: cs, components => do
    let child ← load c
    if child.value.myName = current then
      match components with
      | [] => stuck
      | [_] => do
        let _ ← newNode current c
        pure []
      | _ :: next :: rest => do
        let left ← doAdd (next :: rest) c
        doAddLoop doAdd current cs left
    else doAddLoop doAdd current cs components

/-- `do_add`. -/
def doAdd : Nat → List (List χ) → Nat → NodeProgram χ (List (List χ))
  | _, [], _ => pure []
  | 0, _ :: _, _ => stuck
  | depth + 1, current :: components, parent => do
    let childrens := (← load parent).children
    match ← doAddLoop (doAdd depth) current childrens (current :: components) with
    | [] => pure []
    | _ :: rest => do
      let newTreePathComponent ← newNode current parent
      doAdd depth rest newTreePathComponent

/-- `Add`. -/
def add (sep : χ) (path : List χ) (root : Nat) : NodeProgram χ (List (List χ)) :=
  let pathComponents := Node.getComponents sep path
  doAdd pathComponents.length pathComponents root

/-- `Rename`. -/
def rename (sep : χ) (owner path newPath : List χ) (bound root : Nat) :
    NodeProgram χ (Bool × List (DiskOp χ)) := do
  match ← doFindNode sep path root with
  | none => pure (false, [])
  | some nodeToRename =>
    let fileName := Node.filename sep newPath
    if fileName = [] then pure (false, [])
    else do
      let node ← load nodeToRename
      let oldLocalPath ← if node.value.cached then localPathToMe sep owner bound node else pure []
      store nodeToRename fun c => { c with value := { c.value with myName := fileName } }
      let node ← load nodeToRename
      pure (true, if node.value.cached then
        [.rename oldLocalPath (Node.newLocalPath sep oldLocalPath fileName)] else [])

/-- `SetCached`. -/
def setCached (sep : χ) (path : List χ) (cached : Bool) (root : Nat) : NodeProgram χ Bool := do
  match ← doFindNode sep path root with
  | none => pure false
  | some nodeToFind =>
    store nodeToFind fun c => { c with value := { c.value with cached := cached } }
    pure true

/-! ## Their runs -/

variable {A : Allocator (NodeData χ)}

omit [DecidableEq χ] in
theorem run_walkParents (sep : χ) (rounds p : Nat) (path : List χ) (h : NodeHeap χ) :
    (walkParents sep rounds p path).run A h =
      (NodeHeap.walkParents sep h rounds p path).map fun path => (h, path) := by
  induction rounds generalizing p path with
  | zero => rfl
  | succ rounds ih =>
    rw [walkParents, NodeHeap.walkParents]
    cases hp : h p with
    | none => simp [hp]
    | some parent =>
      simp only [run_bind, run_load, hp, Option.map_some, Option.bind_some, Option.bind_eq_bind]
      cases parent.parent with
      | none => rfl
      | some next => exact ih next _

omit [DecidableEq χ] in
theorem run_localPathToMe (sep : χ) (owner : List χ) (rounds : Nat) (self : Cell (NodeData χ))
    (h : NodeHeap χ) : (localPathToMe sep owner rounds self).run A h =
      (NodeHeap.localPathToMe sep owner h rounds self).map fun localPath => (h, localPath) := by
  rw [localPathToMe, NodeHeap.localPathToMe]
  cases self.parent with
  | none => rfl
  | some p => simp [run_walkParents, Option.map_eq_bind, Option.bind_assoc]

omit [DecidableEq χ] in
theorem run_deleteAll {delete : Nat → NodeProgram χ (List (DiskOp χ))}
    {delete' : NodeHeap χ → Nat → Option (NodeHeap χ × List (DiskOp χ))}
    (hdelete : ∀ c h, (delete c).run A h = delete' h c) (cs : List Nat) (h : NodeHeap χ) :
    (deleteAll delete cs).run A h = NodeHeap.deleteAll delete' cs h := by
  induction cs generalizing h with
  | nil => rfl
  | cons c cs ih => simp [deleteAll, NodeHeap.deleteAll, hdelete, ih]

omit [DecidableEq χ] in
theorem run_deleteNode (sep : χ) (owner : List χ) (rounds depth a : Nat) (h : NodeHeap χ) :
    (deleteNode sep owner rounds depth a).run A h =
      NodeHeap.deleteNode sep owner rounds depth h a := by
  induction depth generalizing a h with
  | zero => rfl
  | succ depth ih =>
    rw [deleteNode, NodeHeap.deleteNode]
    cases ha : h a with
    | none => simp [ha]
    | some self =>
      have hall := run_deleteAll ih
      cases hcached : self.value.cached <;> cases hparent : self.parent <;>
        simp [ha, hcached, hparent, hall, run_localPathToMe, Option.map_eq_bind,
          Option.bind_assoc]

omit [DecidableEq χ] in
theorem run_newNode (name : List χ) (parent : Nat) (h : NodeHeap χ) :
    (newNode name parent).run A h =
      (NodeHeap.newNode A name parent h).map fun r => (r.2, r.1) := by
  simp [newNode, NodeHeap.newNode, Option.map_eq_bind, Option.bind_assoc]

omit [DecidableEq χ] in
theorem run_empty (root : Nat) (h : NodeHeap χ) :
    (empty root).run A h = (NodeHeap.empty h root).map fun result => (h, result) := by
  simp [empty, NodeHeap.empty, Option.map_eq_bind, Option.bind_assoc]

theorem run_getChildren (name : List χ) (cs : List Nat) (h : NodeHeap χ) :
    (getChildren name cs).run A h =
      (NodeHeap.getChildren h name cs).map fun child => (h, child) := by
  induction cs with
  | nil => rfl
  | cons c cs ih =>
    rw [getChildren, NodeHeap.getChildren]
    cases hc : h c with
    | none => simp [hc]
    | some child =>
      by_cases hname : child.value.myName = name
      · simp [hc, hname]
      · simp [hc, hname, ih]

theorem run_doFindPath (path : List (List χ)) (a : Nat) (h : NodeHeap χ) :
    (doFindPath path a).run A h = (NodeHeap.doFindPath h path a).map fun found => (h, found) := by
  induction path generalizing a with
  | nil => rfl
  | cons name rest ih =>
    rw [doFindPath, NodeHeap.doFindPath]
    cases ha : h a with
    | none => simp [ha]
    | some parent =>
      simp only [run_bind, run_load, ha, Option.map_some, Option.bind_some, Option.bind_eq_bind,
        run_getChildren]
      rcases NodeHeap.getChildren h name parent.children with _ | _ | child
      · rfl
      · rfl
      · exact ih child

theorem run_doFindNode (sep : χ) (path : List χ) (root : Nat) (h : NodeHeap χ) :
    (doFindNode sep path root).run A h =
      (NodeHeap.doFindNode sep path h root).map fun found => (h, found) := by
  rw [doFindNode, NodeHeap.doFindNode]
  cases Node.getComponents sep path with
  | nil => rfl
  | cons c cs => exact run_doFindPath ..

theorem run_find (sep : χ) (path : List χ) (root : Nat) (h : NodeHeap χ) :
    (find sep path root).run A h =
      (NodeHeap.find sep path h root).map fun cached => (h, cached) := by
  rw [find, NodeHeap.find, run_bind, run_doFindNode]
  rcases NodeHeap.doFindNode sep path h root with _ | _ | a
  · rfl
  · rfl
  · simp [Option.map_eq_bind, Option.bind_assoc]

theorem run_removeNode (sep : χ) (owner path : List χ) (bound root : Nat) (h : NodeHeap χ) :
    (removeNode sep owner path bound root).run A h =
      (NodeHeap.removeNode sep owner path bound h root).map fun r => (r.2.1, r.1, r.2.2) := by
  rw [removeNode, NodeHeap.removeNode, run_bind, run_doFindNode]
  rcases NodeHeap.doFindNode sep path h root with _ | _ | a
  · rfl
  · rfl
  · simp [run_deleteNode, Option.map_eq_bind, Option.bind_assoc]

theorem run_doAddLoop {doAdd : List (List χ) → Nat → NodeProgram χ (List (List χ))}
    {doAdd' : List (List χ) → NodeHeap χ → Nat → Option (NodeHeap χ × List (List χ))}
    (hadd : ∀ path a h, (doAdd path a).run A h = doAdd' path h a) (current : List χ)
    (cs : List Nat) (components : List (List χ)) (h : NodeHeap χ) :
    (doAddLoop doAdd current cs components).run A h =
      NodeHeap.doAddLoop A doAdd' current cs components h := by
  induction cs generalizing components h with
  | nil => rfl
  | cons c cs ih =>
    cases hc : h c with
    | none => rcases components with _ | ⟨_, _ | _⟩ <;> simp [doAddLoop, NodeHeap.doAddLoop, hc]
    | some child =>
      by_cases hname : child.value.myName = current
      · rcases components with _ | ⟨_, _ | ⟨next, rest⟩⟩
        · simp [doAddLoop, NodeHeap.doAddLoop, hc, hname]
        · simp [doAddLoop, NodeHeap.doAddLoop, hc, hname, run_newNode, Option.map_eq_bind,
            Option.bind_assoc]
        · simp [doAddLoop, NodeHeap.doAddLoop, hc, hname, hadd, ih]
      · rw [NodeHeap.doAddLoop_cons_of_ne hc hname, ← ih]
        rcases components with _ | ⟨_, _ | _⟩ <;> simp [doAddLoop, hc, hname]

theorem run_doAdd (depth : Nat) (path : List (List χ)) (a : Nat) (h : NodeHeap χ) :
    (doAdd depth path a).run A h = NodeHeap.doAdd A depth path h a := by
  induction depth generalizing path a h with
  | zero => cases path <;> rfl
  | succ depth ih =>
    cases path with
    | nil => rfl
    | cons current components =>
      rw [doAdd, NodeHeap.doAdd]
      cases ha : h a with
      | none => simp [ha]
      | some parent =>
        simp only [run_bind, run_load, ha, Option.map_some, Option.bind_some,
          Option.bind_eq_bind, run_doAddLoop ih]
        rcases NodeHeap.doAddLoop A _ current _ _ h with _ | ⟨k, _ | ⟨_, rest⟩⟩
        · rfl
        · rfl
        · simp [run_newNode, ih, Option.map_eq_bind, Option.bind_assoc]

theorem run_add (sep : χ) (path : List χ) (root : Nat) (h : NodeHeap χ) :
    (((add sep path root).run A h).map fun r => r.1) = NodeHeap.add A sep path h root :=
  congrArg _ (run_doAdd _ _ root h)

theorem run_rename (sep : χ) (owner path newPath : List χ) (bound root : Nat) (h : NodeHeap χ) :
    (rename sep owner path newPath bound root).run A h =
      (NodeHeap.rename sep owner path newPath bound h root).map fun r =>
        (r.2.1, r.1, r.2.2) := by
  rw [rename, NodeHeap.rename, run_bind, run_doFindNode]
  rcases NodeHeap.doFindNode sep path h root with _ | _ | a
  · rfl
  · rfl
  · by_cases hname : Node.filename sep newPath = []
    · simp [hname]
    · cases ha : h a with
      | none => simp [hname, ha]
      | some node =>
        cases hcached : node.value.cached <;>
          simp [hname, ha, hcached, run_localPathToMe, Option.map_eq_bind, Option.bind_assoc]

theorem run_setCached (sep : χ) (path : List χ) (cached : Bool) (root : Nat) (h : NodeHeap χ) :
    (setCached sep path cached root).run A h =
      (NodeHeap.setCached sep path cached h root).map fun r => (r.2, r.1) := by
  rw [setCached, NodeHeap.setCached, run_bind, run_doFindNode]
  rcases NodeHeap.doFindNode sep path h root with _ | _ | a
  · rfl
  · rfl
  · simp [Option.map_eq_bind, Option.bind_assoc]

end NodeProgram

/-! ## Larger bounds -/

namespace NodeHeap

theorem within_walkParents (sep : χ) (h : NodeHeap χ) {m n : Nat} (hle : m ≤ n) (p : Nat)
    (path : List χ) : Within (walkParents sep h m p path) (walkParents sep h n p path) := by
  induction m generalizing n p path with
  | zero => exact nofun
  | succ m ih =>
    obtain ⟨n, rfl⟩ := Nat.exists_eq_add_one_of_ne_zero (Nat.ne_zero_of_lt hle)
    refine (Within.refl (h p)).bind fun parent => ?_
    cases parent.parent with
    | none => exact .refl _
    | some next => exact ih (Nat.le_of_succ_le_succ hle) next _

theorem within_localPathToMe (sep : χ) (owner : List χ) (h : NodeHeap χ) {m n : Nat}
    (hle : m ≤ n) (self : Cell (NodeData χ)) :
    Within (localPathToMe sep owner h m self) (localPathToMe sep owner h n self) := by
  unfold localPathToMe
  cases self.parent with
  | none => exact .refl _
  | some p => exact (within_walkParents sep h hle p []).bind fun _ => .refl _

theorem within_deleteAll {delete delete' : NodeHeap χ → Nat → Option (NodeHeap χ × List (DiskOp χ))}
    (hdelete : ∀ h c, Within (delete h c) (delete' h c)) (cs : List Nat) (h : NodeHeap χ) :
    Within (deleteAll delete cs h) (deleteAll delete' cs h) := by
  induction cs generalizing h with
  | nil => exact .refl _
  | cons c cs ih => exact (hdelete h c).bind fun r => (ih r.1).bind fun _ => .refl _

theorem within_deleteNode (sep : χ) (owner : List χ) {m n : Nat} (hle : m ≤ n) {depth depth' : Nat}
    (hdepth : depth ≤ depth') (h : NodeHeap χ) (a : Nat) :
    Within (deleteNode sep owner m depth h a) (deleteNode sep owner n depth' h a) := by
  induction depth generalizing depth' h a with
  | zero => exact nofun
  | succ depth ih =>
    obtain ⟨depth', rfl⟩ := Nat.exists_eq_add_one_of_ne_zero (Nat.ne_zero_of_lt hdepth)
    have hbelow : ∀ (ops : List (DiskOp χ)) (h : NodeHeap χ),
        Within ((h a).bind fun self =>
            (deleteAll (deleteNode sep owner m depth) self.children h).bind fun r =>
              some (r.1.free a, ops ++ r.2))
          ((h a).bind fun self =>
            (deleteAll (deleteNode sep owner n depth') self.children h).bind fun r =>
              some (r.1.free a, ops ++ r.2)) := fun ops h =>
      (Within.refl (h a)).bind fun self =>
        (within_deleteAll (ih (Nat.le_of_succ_le_succ hdepth)) self.children h).bind
          fun _ => .refl _
    refine (Within.refl (h a)).bind fun self => ?_
    cases self.value.cached with
    | true =>
      refine ((within_localPathToMe sep owner h hle self).map _).bind fun ops => ?_
      cases self.parent with
      | none => exact hbelow ops h
      | some parent => exact (Within.refl _).bind (hbelow ops)
    | false =>
      cases self.parent with
      | none => exact hbelow [] h
      | some parent => exact (Within.refl _).bind (hbelow [])

variable [DecidableEq χ]

theorem within_removeNode (sep : χ) (owner path : List χ) {m n : Nat} (hle : m ≤ n)
    (h : NodeHeap χ) (root : Nat) :
    Within (removeNode sep owner path m h root) (removeNode sep owner path n h root) := by
  refine (Within.refl _).bind fun found => ?_
  cases found with
  | none => exact .refl _
  | some a => exact (within_deleteNode sep owner hle hle h a).bind fun _ => .refl _

theorem within_rename (sep : χ) (owner path newPath : List χ) {m n : Nat} (hle : m ≤ n)
    (h : NodeHeap χ) (root : Nat) :
    Within (rename sep owner path newPath m h root) (rename sep owner path newPath n h root) := by
  refine (Within.refl _).bind fun found => ?_
  cases found with
  | none => exact .refl _
  | some a =>
    by_cases hname : Node.filename sep newPath = []
    · simp only [hname, if_true]
      exact .refl _
    · simp only [hname, if_false]
      refine (Within.refl (h a)).bind fun node => ?_
      cases node.value.cached with
      | true => exact (within_localPathToMe sep owner h hle node).bind fun _ => .refl _
      | false => exact .refl _

end NodeHeap

end FspServer
