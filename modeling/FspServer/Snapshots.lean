import FspServer.Listing
import FspServer.Lib.Scan

/-!
# Get while other threads update the tree

`Get` walks over the children of the root and takes the lock anew for each of
them, while `Add`, `Rename` and `SetCached` hold it for the whole call. Each of
these critical sections is one step here. Nodes are only ever put in front of
the root's children and none is deleted, so the iterator of `Get` is the number
of children that it has not reached (`Scan`).

`get_snapshot`: a run in which no update changes the listing of a child still to
be read after one that `Get` missed returns the listing of a tree that existed
while it ran. `get_mixes_states` is a run in which the two fall together.
-/

namespace FspServer

open Node Runs

variable {χ : Type}

namespace Node

/-- What `do_get_paths` lists for one child of the root. -/
def listing (sep : χ) (type : PathType) (currentPath : List χ) (child : Node χ) :
    List (List χ) :=
  (doGetPaths sep type child currentPath []).2

theorem doGetPaths_eq_listing (sep : χ) (type : PathType) (currentPath : List χ) (child : Node χ)
    (paths : List (List χ)) : doGetPaths sep type child currentPath paths =
      (currentPath, listing sep type currentPath child ++ paths) := by
  rw [listing, doGetPaths_eq, doGetPaths_eq, List.append_nil]

/-- `Get` lists the children one by one, each in front of those before it. -/
theorem get_eq_listings (sep : χ) (type : PathType) (root : Node χ) :
    get sep type root [] =
      (root.myChildrens.map (listing sep type root.myName)).reverse.flatten := by
  have hloop : ∀ (cs : List (Node χ)) (paths : List (List χ)),
      (doGetPathsLoop sep type cs root.myName paths).2 =
        (cs.map (listing sep type root.myName)).reverse.flatten ++ paths := by
    intro cs
    induction cs with
    | nil => exact fun _ => rfl
    | cons c cs ih =>
      intro paths
      rw [doGetPathsLoop, doGetPaths_eq_listing]
      simp [ih]
  rw [get, hloop, List.append_nil]

end Node

/-! ## The steps -/

/-- `Get` under way: the children its iterator has not reached, its
`CurrentPath` and the container. The children as they were when it read them, and
the trees that existed since it started, are kept for the statements only. -/
structure GetCall (χ : Type) where
  unread : Nat
  currentPath : List χ
  paths : List (List χ)
  read : List (Node χ)
  trees : List (Node χ)

/-- A tree, and the call of `Get` once it has started. -/
structure SharedTree (χ : Type) where
  tree : Node χ
  call : Option (GetCall χ)

/-- A call of another thread, the start of `Get`, and one round of its loop. -/
inductive TreeEvent (χ : Type) where
  | Add (path : List χ)
  | Rename (path newPath : List χ)
  | SetCached (path : List χ) (flag : Bool)
  | getStart
  | getChild
deriving DecidableEq

/-- The tree after another thread's call; `none` is the undefined behaviour of
`Node.add`. -/
def TreeEvent.update [DecidableEq χ] (sep : χ) (owner : List χ) (tree : Node χ) :
    TreeEvent χ → Option (Node χ)
  | .Add path => add sep path tree
  | .Rename path newPath => some (rename sep owner path newPath tree).2.1
  | .SetCached path flag => some (setCached sep path flag tree).2
  | .getStart => some tree
  | .getChild => some tree

namespace SharedTree

/-- The tree is replaced; it is one of those of the call while that runs. -/
def replace (s : SharedTree χ) (tree : Node χ) : SharedTree χ where
  tree := tree
  call := s.call.map fun c =>
    { c with trees := if c.unread = 0 then c.trees else c.trees ++ [tree] }

/-- `string_t CurrentPath(root_->MyName_)` and `root_->MyChildrens_.begin()`. -/
def getStart (s : SharedTree χ) : Option (SharedTree χ) :=
  match s.call with
  | some _ => none
  | none =>
    some { s with call := some ⟨s.tree.myChildrens.length, s.tree.myName, [], [], [s.tree]⟩ }

/-- The body of the loop of `Get`, under the lock. -/
def getChild (sep : χ) (type : PathType) (s : SharedTree χ) : Option (SharedTree χ) :=
  match s.call with
  | none => none
  | some c =>
    match c.unread, Scan.ahead c.unread s.tree.myChildrens with
    | k + 1, child :: _ =>
      let (currentPath, paths) := doGetPaths sep type child c.currentPath c.paths
      some { s with call := some ⟨k, currentPath, paths, c.read ++ [child], c.trees⟩ }
    | _, _ => none

end SharedTree

/-- One critical section. -/
def treeStep [DecidableEq χ] (sep : χ) (owner : List χ) (type : PathType) (s : SharedTree χ) :
    TreeEvent χ → Option (SharedTree χ)
  | .getStart => s.getStart
  | .getChild => s.getChild sep type
  | e => (e.update sep owner s.tree).map s.replace

/-- The call as a scan of the listings of the children. -/
def GetCall.scan (sep : χ) (type : PathType) (tree : Node χ) (c : GetCall χ) :
    Scan.State (List (List χ)) where
  cells := tree.myChildrens.map (listing sep type tree.myName)
  unread := c.unread
  read := c.read.map (listing sep type tree.myName)
  history := c.trees.map fun t => t.myChildrens.map (listing sep type tree.myName)

/-- An update that a `Get` under way can take: it leaves the listing of every child
still to be read as it is, or the children before the iterator are then listed as
they were read, with none put in front of them. -/
def TreeEvent.KeepsSnapshot [DecidableEq χ] (sep : χ) (owner : List χ) (type : PathType)
    (s : SharedTree χ) (e : TreeEvent χ) : Prop :=
  ∀ c ∈ s.call, ∀ tree ∈ e.update sep owner s.tree,
    Scan.Allows (c.scan sep type s.tree) (tree.myChildrens.map (listing sep type tree.myName))

instance [DecidableEq χ] (sep : χ) (owner : List χ) (type : PathType) (s : SharedTree χ)
    (e : TreeEvent χ) : Decidable (e.KeepsSnapshot sep owner type s) :=
  inferInstanceAs (Decidable (∀ c ∈ s.call, ∀ tree ∈ e.update sep owner s.tree, Scan.Allows _ _))

namespace SnapshotLemmas

/-- What holds of a call of `Get` and the tree at every step. -/
structure CallInv (sep : χ) (type : PathType) (tree : Node χ) (c : GetCall χ) : Prop where
  currentPath : c.currentPath = tree.myName
  names : ∀ t ∈ c.trees, t.myName = tree.myName
  unread : c.unread ≤ tree.myChildrens.length
  paths : c.paths = (c.scan sep type tree).read.reverse.flatten
  snapshot : Scan.IsSnapshot (c.scan sep type tree)

variable {sep : χ} {type : PathType} {s s' : SharedTree χ} {c : GetCall χ}

theorem callInv_getStart (tree : Node χ) :
    CallInv sep type tree ⟨tree.myChildrens.length, tree.myName, [], [], [tree]⟩ where
  currentPath := rfl
  names := List.forall_mem_singleton.mpr rfl
  unread := Nat.le_refl _
  paths := rfl
  snapshot := by
    have hstart := Scan.isSnapshot_start (tree.myChildrens.map (listing sep type tree.myName))
    rw [Scan.State.start, List.length_map] at hstart
    exact hstart

theorem callInv_getChild {k : Nat} {child : Node χ} {rest : List (Node χ)}
    (h : CallInv sep type s.tree c) (hunread : c.unread = k + 1)
    (hahead : Scan.ahead c.unread s.tree.myChildrens = child :: rest) :
    CallInv sep type s.tree ⟨k, c.currentPath,
      listing sep type c.currentPath child ++ c.paths, c.read ++ [child], c.trees⟩ where
  currentPath := h.currentPath
  names := h.names
  unread := by
    have hle := h.unread
    rw [hunread] at hle
    exact Nat.le_of_succ_le hle
  paths := by
    rw [h.paths, h.currentPath]
    simp [GetCall.scan]
  snapshot := by
    refine h.snapshot.next ?_ ?_
    · simpa [GetCall.scan] using h.unread
    · have hcells : Scan.ahead (k + 1) (s.tree.myChildrens.map (listing sep type s.tree.myName)) =
          listing sep type s.tree.myName child :: rest.map (listing sep type s.tree.myName) := by
        rw [Scan.ahead, List.length_map, ← List.map_drop, ← Scan.ahead, ← hunread, hahead,
          List.map_cons]
      simp [Scan.State.next, GetCall.scan, hunread, hcells]

theorem callInv_replace {tree : Node χ} (h : CallInv sep type s.tree c)
    (hname : tree.myName = s.tree.myName)
    (hlen : s.tree.myChildrens.length ≤ tree.myChildrens.length)
    (hallows : Scan.Allows (c.scan sep type s.tree)
      (tree.myChildrens.map (listing sep type tree.myName))) :
    CallInv sep type tree
      { c with trees := if c.unread = 0 then c.trees else c.trees ++ [tree] } where
  currentPath := h.currentPath.trans hname.symm
  names := by
    intro t ht
    rw [hname]
    simp only at ht
    split at ht
    · exact h.names t ht
    · rcases List.mem_append.mp ht with ht | ht
      · exact h.names t ht
      · rw [List.mem_singleton.mp ht, hname]
  unread := h.unread.trans hlen
  paths := by
    rw [h.paths]
    simp only [GetCall.scan, hname]
  snapshot := by
    have hwrite := h.snapshot.write (by simpa [GetCall.scan] using h.unread.trans hlen) hallows
    have hscan : GetCall.scan sep type tree
        { c with trees := if c.unread = 0 then c.trees else c.trees ++ [tree] } =
        (c.scan sep type s.tree).write
          (tree.myChildrens.map (listing sep type tree.myName)) := by
      simp only [GetCall.scan, Scan.State.write, hname, Scan.State.mk.injEq, true_and]
      split
      · rfl
      · rw [List.map_append, List.map_singleton]
    rw [hscan]
    exact hwrite

theorem getChild_some (h : s.getChild sep type = some s') :
    ∃ c k child rest, s.call = some c ∧ c.unread = k + 1 ∧
      Scan.ahead c.unread s.tree.myChildrens = child :: rest ∧
      s' = { s with call := some ⟨k, c.currentPath,
        listing sep type c.currentPath child ++ c.paths, c.read ++ [child], c.trees⟩ } := by
  rw [SharedTree.getChild] at h
  split at h
  · cases h
  · next c hc =>
    split at h
    · next k child rest hk hahead =>
      rw [doGetPaths_eq_listing] at h
      exact ⟨c, k, child, rest, hc, hk, hahead, (Option.some.inj h).symm⟩
    · cases h

variable [DecidableEq χ]

/-- A pass over siblings keeps them where they are. -/
theorem length_doAddLoop {cs cs' : List (Node χ)} {x : List χ} {components left : List (List χ)}
    (h : doAddLoop cs x components = some (cs', left)) : cs'.length = cs.length := by
  induction cs generalizing cs' components left with
  | nil =>
    simp only [doAddLoop, Option.some.injEq, Prod.mk.injEq] at h
    rw [← h.1]
  | cons c cs ih =>
    simp only [doAddLoop, Option.bind_eq_bind] at h
    split at h
    · split at h
      · cases h
      · simp only [Option.some.injEq, Prod.mk.injEq] at h
        rw [← h.1, List.length_cons, List.length_cons]
      · obtain ⟨⟨c', left₁⟩, -, h⟩ := Option.bind_eq_some_iff.mp h
        obtain ⟨⟨ds, left₂⟩, hloop, h⟩ := Option.bind_eq_some_iff.mp h
        simp only [Option.some.injEq, Prod.mk.injEq] at h
        rw [← h.1, List.length_cons, List.length_cons, ih hloop]
    · obtain ⟨⟨ds, left'⟩, hloop, h⟩ := Option.bind_eq_some_iff.mp h
      simp only [Option.some.injEq, Prod.mk.injEq] at h
      rw [← h.1, List.length_cons, List.length_cons, ih hloop]

theorem length_le_doAdd {n n' : Node χ} {p left : List (List χ)}
    (h : doAdd n p = some (n', left)) : n.myChildrens.length ≤ n'.myChildrens.length := by
  obtain ⟨name, b, cs⟩ := n
  cases p with
  | nil =>
    simp only [doAdd, Option.some.injEq, Prod.mk.injEq] at h
    rw [← h.1]
  | cons x rest =>
    simp only [doAdd, Option.bind_eq_bind] at h
    obtain ⟨⟨cs', left'⟩, hloop, h⟩ := Option.bind_eq_some_iff.mp h
    have hlen : cs'.length = cs.length := length_doAddLoop hloop
    cases left' with
    | nil =>
      simp only [Option.some.injEq, Prod.mk.injEq] at h
      rw [← h.1]
      exact hlen.ge
    | cons y left' =>
      simp only [Option.some.injEq, Prod.mk.injEq] at h
      rw [← h.1]
      show cs.length ≤ (newBranch x left' :: cs').length
      rw [List.length_cons, hlen]
      exact Nat.le_succ _

theorem length_alterFirst {g : Node χ → Node χ} (x : List χ) (cs : List (Node χ)) :
    (alterFirst x (fun c => [g c]) cs).length = cs.length := by
  have hmap := map_alterFirst (F := fun _ => ()) (g := g) (fun _ => rfl) x cs
  simpa using congrArg List.length hmap

theorem length_alterAt {g : Node χ → Node χ} (p : List (List χ)) (n : Node χ) :
    (alterAt (fun c => [g c]) p n).myChildrens.length = n.myChildrens.length := by
  rcases p with _ | ⟨x, _ | ⟨y, p⟩⟩
  · rfl
  · exact length_alterFirst x _
  · exact length_alterFirst x _

/-- An update puts nodes in front of the root's children, takes none away, and
keeps the root's name. -/
theorem update_some {sep : χ} {owner : List χ} {tree tree' : Node χ} {e : TreeEvent χ}
    (h : e.update sep owner tree = some tree') :
    tree'.myName = tree.myName ∧ tree.myChildrens.length ≤ tree'.myChildrens.length := by
  cases e with
  | Add path =>
    obtain ⟨⟨n, left⟩, hadd, rfl⟩ := Option.map_eq_some_iff.mp h
    exact ⟨(doAdd_some hadd).1, length_le_doAdd hadd⟩
  | Rename path newPath =>
    obtain rfl := Option.some.inj h
    rw [rename]
    split
    · exact ⟨rfl, Nat.le_refl _⟩
    · simp only
      split
      · exact ⟨rfl, Nat.le_refl _⟩
      · exact ⟨myName_alterAt _ _ _, (length_alterAt _ _).ge⟩
  | SetCached path flag =>
    obtain rfl := Option.some.inj h
    rw [setCached]
    split
    · exact ⟨rfl, Nat.le_refl _⟩
    · exact ⟨myName_alterAt _ _ _, (length_alterAt _ _).ge⟩
  | getStart =>
    obtain rfl := Option.some.inj h
    exact ⟨rfl, Nat.le_refl _⟩
  | getChild =>
    obtain rfl := Option.some.inj h
    exact ⟨rfl, Nat.le_refl _⟩

/-- One step that meets the condition keeps the invariant. -/
theorem callInv_step {owner : List χ} {e : TreeEvent χ}
    (h : ∀ c ∈ s.call, CallInv sep type s.tree c)
    (hkeeps : e.KeepsSnapshot sep owner type s) (hstep : treeStep sep owner type s e = some s') :
    ∀ c ∈ s'.call, CallInv sep type s'.tree c := by
  have update : (e.update sep owner s.tree).map s.replace = some s' →
      ∀ c ∈ s'.call, CallInv sep type s'.tree c := by
    intro hupdate c' hc'
    obtain ⟨tree, htree, rfl⟩ := Option.map_eq_some_iff.mp hupdate
    obtain ⟨c, hc, rfl⟩ := Option.map_eq_some_iff.mp hc'
    obtain ⟨hname, hlen⟩ := update_some htree
    exact callInv_replace (h c hc) hname hlen (hkeeps c hc tree htree)
  cases e with
  | Add path => exact update hstep
  | Rename path newPath => exact update hstep
  | SetCached path flag => exact update hstep
  | getStart =>
    intro c' hc'
    simp only [treeStep, SharedTree.getStart] at hstep
    split at hstep
    · cases hstep
    · obtain rfl := Option.some.inj hstep
      obtain rfl := Option.some.inj hc'
      exact callInv_getStart s.tree
  | getChild =>
    intro c' hc'
    obtain ⟨c, k, child, rest, hc, hk, hahead, rfl⟩ := getChild_some hstep
    obtain rfl := Option.some.inj hc'
    exact callInv_getChild (h c hc) hk hahead

end SnapshotLemmas

open SnapshotLemmas

/-- In a run whose updates the running `Get` can all take, it returns the listing
of a tree that existed between its start and its end. -/
theorem get_snapshot [DecidableEq χ] (sep : χ) (owner : List χ) (type : PathType)
    (root : Node χ) (events : List (TreeEvent χ)) {s : SharedTree χ} {c : GetCall χ}
    (hrun : exec (treeStep sep owner type) ⟨root, none⟩ events = some s)
    (hkeeps : EachStep (treeStep sep owner type)
      (fun s e => e.KeepsSnapshot sep owner type s) ⟨root, none⟩ events)
    (hcall : s.call = some c) (hend : c.unread = 0) :
    ∃ tree ∈ c.trees, c.paths = get sep type tree [] := by
  have hinit : ∀ c ∈ (⟨root, none⟩ : SharedTree χ).call, CallInv sep type root c :=
    fun c hc => absurd hc (by simp)
  have h := hkeeps.invariant (fun _ _ _ => callInv_step) hinit hrun c hcall
  obtain ⟨tree, htree, hread⟩ := List.mem_map.mp (h.snapshot.read_mem hend)
  refine ⟨tree, htree, ?_⟩
  rw [h.paths, get_eq_listings, h.names tree htree, ← hread]

/-- `/b` is read, then `/a/y` is added and `/b` renamed before `/a` is read. -/
theorem get_snapshot_ab :
    ∃ s c, exec (treeStep '/' "o".toList .FILE)
        ⟨.mk ['/'] false [new ['b'], new ['a']], none⟩
        [.getStart, .getChild, .Add "/a/y".toList, .Rename "/b".toList "/c".toList, .getChild] =
          some s ∧
      s.call = some c ∧ ∃ tree ∈ c.trees, c.paths = get '/' .FILE tree [] := by
  refine ⟨_, _, rfl, rfl, ?_⟩
  exact get_snapshot '/' "o".toList .FILE (.mk ['/'] false [new ['b'], new ['a']])
    [.getStart, .getChild, .Add "/a/y".toList, .Rename "/b".toList "/c".toList, .getChild]
    rfl (by decide +kernel) rfl rfl

/-- `/b` is read, then `/b/x` is added, which `Get` missed, and then `/a/y`, which
it reads: no tree of that time has the files `/b` and `/a/y`. -/
theorem get_mixes_states :
    ∃ s c, exec (treeStep '/' "o".toList .FILE)
        ⟨.mk ['/'] false [new ['b'], new ['a']], none⟩
        [.getStart, .getChild, .Add "/b/x".toList, .Add "/a/y".toList, .getChild] = some s ∧
      (Node.mk ['/'] false [new ['b'], new ['a']]).Uniq ∧ s.call = some c ∧ c.unread = 0 ∧
      c.paths = ["/a/y".toList, "/b".toList] ∧
      ∀ tree ∈ c.trees,
        ¬ ("/a/y".toList ∈ get '/' .FILE tree [] ∧ "/b".toList ∈ get '/' .FILE tree []) := by
  refine ⟨_, _, rfl, ?_, rfl, rfl, rfl, by decide +kernel⟩
  exact .mk (by decide) (by simp [uniq_new])

end FspServer
