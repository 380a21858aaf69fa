import Mathlib.Data.List.DropRight

/-!
# The virtual file system tree

`VirtualFileSystemTree<String>` of the server: the files a client shares, as a
tree of named nodes. The template's character type is the parameter `χ`, its
string type is `List χ`, and the separator is a parameter `sep`.

A `Node*` that an operation finds and then changes in place is the first
matching child at every level, so a change in place is `alterAt` along the path
that was resolved. `MyParent_` is not stored: the walk up the parents is given
the names it would read (`above`, nearest first, the root left out).

The file-system calls a tree operation makes are returned as a list of
`DiskOp`, in the order of the calls.
-/

namespace FspServer

/-- A node: `MyName_`, `Cached_` and `MyChildrens_` (newest child first). -/
inductive Node (χ : Type) where
  | mk (myName : List χ) (cached : Bool) (myChildrens : List (Node χ))

/-- A call of the operating system's file system made by a tree operation. -/
inductive DiskOp (χ : Type) where
  | remove (localPath : List χ)
  | rename (oldLocalPath newLocalPath : List χ)
deriving DecidableEq, Repr

/-- Which nodes `Get` lists. -/
inductive PathType where
  | FILE
  | DIRECTORY
  | GENERIC
deriving DecidableEq, Repr

variable {χ : Type}

namespace Node

def myName : Node χ → List χ
  | .mk n _ _ => n

def cached : Node χ → Bool
  | .mk _ c _ => c

def myChildrens : Node χ → List (Node χ)
  | .mk _ _ cs => cs

/-- A node as the constructor leaves it: not cached, no children. -/
def new (name : List χ) : Node χ := .mk name false []

def withChildrens (n : Node χ) (cs : List (Node χ)) : Node χ := .mk n.myName n.cached cs

def addChildren (n child : Node χ) : Node χ := n.withChildrens (child :: n.myChildrens)

def isLeaf (n : Node χ) : Bool := n.myChildrens.isEmpty

def setName (name : List χ) : Node χ → Node χ
  | .mk _ c cs => .mk name c cs

def setCachedFlag (flag : Bool) : Node χ → Node χ
  | .mk n _ cs => .mk n flag cs

/-- `new Node(name, …)` followed by `do_add` below it: a fresh node has no
children to loop over, so each remaining component becomes its only child
(`doAdd_new` shows that this is `doAdd` on the fresh node). -/
def newBranch : List χ → List (List χ) → Node χ
  | name, [] => new name
  | name, next :: rest => (new name).addChildren (newBranch next rest)

/-! ## Paths of a node -/

/-- The part of `PathToMe` and `LocalPathToMe` that walks up the parents: a
separator and the reversed name of each one. -/
def parentWalk (sep : χ) (above : List (List χ)) (path : List χ) : List χ :=
  above.foldl (fun p name => p ++ [sep] ++ name.reverse) path

def pathToMe (sep : χ) (above : List (List χ)) (path : List χ) : List χ :=
  (parentWalk sep above path ++ [sep]).reverse

def myPath (sep : χ) (above : List (List χ)) (name path : List χ) : List χ :=
  pathToMe sep above path ++ name

def localPathToMe (sep : χ) (owner : List χ) (above : List (List χ)) (name path : List χ) :
    List χ :=
  (parentWalk sep above path ++ [sep] ++ owner.reverse).reverse ++ name

/-! ## Destruction -/

mutual
/-- The local files that `~Node` removes: its own when it is cached, then those
of its children. The parents are still there while their children are
destroyed. -/
def destroy (sep : χ) (owner : List χ) : List (List χ) → Node χ → List (DiskOp χ)
  | above, .mk n c cs =>
    (if c then [.remove (localPathToMe sep owner above n [])] else []) ++
      destroyAll sep owner (n :: above) cs

def destroyAll (sep : χ) (owner : List χ) : List (List χ) → List (Node χ) → List (DiskOp χ)
  | _, [] => []
  | above, c :: cs => destroy sep owner above c ++ destroyAll sep owner above cs
end

/-! ## Get -/

mutual
/-- `do_get_paths` into a `forward_list`. `CurrentPath` is shared by the
recursive calls, so it is passed in and handed back. -/
def doGetPaths (sep : χ) (type : PathType) :
    Node χ → List χ → List (List χ) → List χ × List (List χ)
  | .mk n b cs, currentPath, paths =>
    let (currentPath, paths) := doGetPathsLoop sep type cs (currentPath ++ n ++ [sep]) paths
    let currentPath := currentPath.dropLast
    let listed := match type with
      | .GENERIC => true
      | .FILE => isLeaf (.mk n b cs)
      | .DIRECTORY => !isLeaf (.mk n b cs)
    let paths := if listed then currentPath :: paths else paths
    (currentPath.take (currentPath.length - n.length), paths)

def doGetPathsLoop (sep : χ) (type : PathType) :
    List (Node χ) → List χ → List (List χ) → List χ × List (List χ)
  | [], currentPath, paths => (currentPath, paths)
  | c :: cs, currentPath, paths =>
    let (currentPath, paths) := doGetPaths sep type c currentPath paths
    doGetPathsLoop sep type cs currentPath paths
end

/-- `Get` into the container `paths`. -/
def get (sep : χ) (type : PathType) (root : Node χ) (paths : List (List χ)) : List (List χ) :=
  (doGetPathsLoop sep type root.myChildrens root.myName paths).2

/-- `Empty`. -/
def empty (root : Node χ) : Bool := root.myChildrens.isEmpty

/-! ## Text of a path -/

variable [DecidableEq χ]

/-- `boost::split` at the separator, then `remove_if` of the empty pieces. -/
def getComponents (sep : χ) (path : List χ) : List (List χ) :=
  (path.splitOn sep).filter fun file => file ≠ []

/-- What follows the last separator, the whole text when there is none. -/
def filename (sep : χ) (path : List χ) : List χ := path.rtakeWhile fun c => c ≠ sep

/-! ## Resolving a path -/

/-- The first child with the given name. -/
def getChildren (n : Node χ) (name : List χ) : Option (Node χ) :=
  n.myChildrens.find? fun c => c.myName = name

/-- Follows the first matching child at every component, without backtracking. -/
def doFindPath : Node χ → List (List χ) → Option (Node χ)
  | n, [] => some n
  | n, name :: rest =>
    match n.getChildren name with
    | some child => doFindPath child rest
    | none => none

def doFindNode (sep : χ) (path : List χ) (root : Node χ) : Option (Node χ) :=
  match getComponents sep path with
  | [] => none
  | c :: cs => doFindPath root (c :: cs)

/-- Replaces the first child with the given name by what `f` makes of it. -/
def alterFirst (name : List χ) (f : Node χ → List (Node χ)) : List (Node χ) → List (Node χ)
  | [] => []
  | c :: cs => if c.myName = name then f c ++ cs else c :: alterFirst name f cs

/-- Changes in place the node that `doFindPath` resolves; the root itself has
no components and is never changed. -/
def alterAt (f : Node χ → List (Node χ)) : List (List χ) → Node χ → Node χ
  | [], n => n
  | [name], n => n.withChildrens (alterFirst name f n.myChildrens)
  | name :: next :: rest, n =>
    n.withChildrens (alterFirst name (fun c => [alterAt f (next :: rest) c]) n.myChildrens)

/-! ## Add -/

mutual
/-- `do_add`. The result is the node after the call and what is left in the
shared list `PathComponents`; `none` when `pop_front` is called on an empty
list, which is undefined behaviour. -/
def doAdd : Node χ → List (List χ) → Option (Node χ × List (List χ))
  | .mk n b cs, [] => some (.mk n b cs, [])
  | .mk n b cs, current :: components => do
    let (cs', left) ← doAddLoop cs current (current :: components)
    match left with
    | [] => some (.mk n b cs', [])
    | _ :: rest => some (.mk n b (newBranch current rest :: cs'), [])

/-- The loop of `do_add` over the children. `done` is passed by value, so only
the call that sets it sees it, and that call returns at once: the loop goes on
after a recursive call, with the component it has already popped. -/
def doAddLoop : List (Node χ) → List χ → List (List χ) →
    Option (List (Node χ) × List (List χ))
  | [], _, components => some ([], components)
  | child :: cs, current, components =>
    if child.myName = current then
      match components with
      | [] => none
      | [_] => some (child.addChildren (new current) :: cs, [])
      | _ :: next :: rest => do
        let (child', left) ← doAdd child (next :: rest)
        let (cs', left') ← doAddLoop cs current left
        some (child' :: cs', left')
    else do
      let (cs', left) ← doAddLoop cs current components
      some (child :: cs', left)
end

/-- `Add`; `none` is the undefined behaviour of `doAdd`. -/
def add (sep : χ) (path : List χ) (root : Node χ) : Option (Node χ) :=
  (doAdd root (getComponents sep path)).map (·.1)

/-- `Add` for every path in turn, as `do_push_files` does. -/
def addAll (sep : χ) : List (List χ) → Node χ → Option (Node χ)
  | [], root => some root
  | path :: paths, root => (add sep path root).bind (addAll sep paths)

/-! ## Find, Remove, Rename, SetCached -/

/-- `Find`: the `Cached_` flag of the node, when there is one. -/
def find (sep : χ) (path : List χ) (root : Node χ) : Option Bool :=
  (doFindNode sep path root).map cached

/-- `Remove`: the result, the tree after it and the files it deletes. -/
def remove (sep : χ) (owner path : List χ) (root : Node χ) : Bool × Node χ × List (DiskOp χ) :=
  match doFindNode sep path root with
  | none => (false, root, [])
  | some n =>
    let components := getComponents sep path
    (true, alterAt (fun _ => []) components root,
      destroy sep owner components.dropLast.reverse n)

/-- `filesystem::path(OldLocalPath).relative_path().append(FileName)`. -/
def newLocalPath (sep : χ) (oldLocalPath fileName : List χ) : List χ :=
  oldLocalPath.dropWhile (fun c => c = sep) ++ [sep] ++ fileName

/-- `Rename`: only the part of `newPath` after its last separator is used. -/
def rename (sep : χ) (owner path newPath : List χ) (root : Node χ) :
    Bool × Node χ × List (DiskOp χ) :=
  match doFindNode sep path root with
  | none => (false, root, [])
  | some n =>
    let fileName := filename sep newPath
    if fileName = [] then (false, root, [])
    else
      let components := getComponents sep path
      let oldLocalPath := localPathToMe sep owner components.dropLast.reverse n.myName []
      (true, alterAt (fun c => [c.setName fileName]) components root,
        if n.cached then [.rename oldLocalPath (newLocalPath sep oldLocalPath fileName)] else [])

/-- `SetCached`. -/
def setCached (sep : χ) (path : List χ) (flag : Bool) (root : Node χ) : Bool × Node χ :=
  match doFindNode sep path root with
  | none => (false, root)
  | some _ => (true, alterAt (fun c => [c.setCachedFlag flag]) (getComponents sep path) root)

end Node

end FspServer
