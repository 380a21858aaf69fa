import FspServer.CacheCoherence

/-!
# Storage paths

A file of a client is stored and served under `FileOwner` followed by the `FilePath`
of the request. It is deleted and renamed under the text that `LocalPathToMe` builds
from the names on the way to its node. `Find` drops empty components, so it accepts
many spellings of one path, and the two texts agree on one of them only: one
separator before each component (`Spelled`).

Paths that are spelled so belong to one owner and one node, when nicknames hold no
separator.
-/

namespace FspServer

open Node

variable {χ : Type}

/-- `FileOwner.append(FilePath)`. -/
def storagePath (owner path : List χ) : List χ := owner ++ path

namespace Node

/-- Separators behind the parents and separators before the components. -/
theorem flatMap_separators (sep : χ) (parents : List (List χ)) (name : List χ) :
    sep :: (parents.flatMap (· ++ [sep]) ++ name) = (parents ++ [name]).flatMap (sep :: ·) := by
  induction parents with
  | nil => simp
  | cons x parents ih => simpa using ih

variable [DecidableEq χ]

/-- The nodes that `do_find_path` goes through below the root, the one found last. -/
def findChain : Node χ → List (List χ) → Option (List (Node χ))
  | _, [] => some []
  | n, name :: rest =>
    match n.getChildren name with
    | some child => (findChain child rest).map (child :: ·)
    | none => none

/-- What `LocalPathToMe` computes for the node that `do_find_node` finds. The walk
reads the names of the parents from the nodes. -/
def foundLocalPath (sep : χ) (owner path : List χ) (root : Node χ) : Option (List χ) :=
  (findChain root (getComponents sep path)).bind fun chain =>
    chain.getLast?.map fun n =>
      localPathToMe sep owner (chain.dropLast.map myName).reverse n.myName []

/-- One separator before each component and nothing else. -/
def Spelled (sep : χ) (path : List χ) : Prop :=
  path = (getComponents sep path).flatMap (sep :: ·)

instance (sep : χ) (path : List χ) : Decidable (Spelled sep path) :=
  inferInstanceAs (Decidable (_ = _))

/-- The walk finds the node that `do_find_path` finds. -/
theorem doFindPath_of_findChain {n : Node χ} {cs : List (List χ)} {chain : List (Node χ)}
    (h : findChain n cs = some chain) : doFindPath n cs = some (chain.getLast?.getD n) := by
  induction cs generalizing n chain with
  | nil =>
    cases h
    rfl
  | cons name rest ih =>
    cases hchild : n.getChildren name with
    | none => simp [findChain, hchild] at h
    | some child =>
      simp only [findChain, hchild] at h
      obtain ⟨below, hbelow, rfl⟩ := Option.map_eq_some_iff.mp h
      simp [doFindPath, hchild, ih hbelow, List.getLast?_cons]

theorem exists_findChain {n m : Node χ} {cs : List (List χ)} (h : doFindPath n cs = some m) :
    ∃ chain, findChain n cs = some chain := by
  induction cs generalizing n with
  | nil => exact ⟨[], rfl⟩
  | cons name rest ih =>
    cases hchild : n.getChildren name with
    | none => simp [doFindPath, hchild] at h
    | some child =>
      simp only [doFindPath, hchild] at h
      obtain ⟨below, hbelow⟩ := ih h
      exact ⟨child :: below, by simp [findChain, hchild, hbelow]⟩

/-- The names on the way are the components. -/
theorem map_myName_findChain {n : Node χ} {cs : List (List χ)} {chain : List (Node χ)}
    (h : findChain n cs = some chain) : chain.map myName = cs := by
  induction cs generalizing n chain with
  | nil =>
    cases h
    rfl
  | cons name rest ih =>
    cases hchild : n.getChildren name with
    | none => simp [findChain, hchild] at h
    | some child =>
      simp only [findChain, hchild] at h
      obtain ⟨below, hbelow, rfl⟩ := Option.map_eq_some_iff.mp h
      rw [List.map_cons, (getChildren_some hchild).2, ih hbelow]

/-- `LocalPathToMe` of the node found is the owner and the components, with one
separator before each. -/
theorem foundLocalPath_eq {sep : χ} {owner path text : List χ} {root : Node χ}
    (h : foundLocalPath sep owner path root = some text) :
    text = owner ++ (getComponents sep path).flatMap (sep :: ·) := by
  obtain ⟨chain, hchain, htext⟩ := Option.bind_eq_some_iff.mp h
  obtain ⟨n, hlast, rfl⟩ := Option.map_eq_some_iff.mp htext
  obtain ⟨parents, rfl⟩ := List.getLast?_eq_some_iff.mp hlast
  have hnames : (parents ++ [n]).map myName = getComponents sep path := map_myName_findChain hchain
  rw [localPathToMe_eq, List.reverse_reverse, flatMap_separators, ← hnames]
  simp

/-- The names of the parents are the components that `remove` and `rename` take for
them. -/
theorem foundLocalPath_spec (sep : χ) (owner path : List χ) (root : Node χ) :
    foundLocalPath sep owner path root = (doFindNode sep path root).map fun n =>
      localPathToMe sep owner (getComponents sep path).dropLast.reverse n.myName [] := by
  unfold foundLocalPath doFindNode
  cases hcs : getComponents sep path with
  | nil => rfl
  | cons c cs =>
    dsimp only
    cases hchain : findChain root (c :: cs) with
    | none =>
      cases hfound : doFindPath root (c :: cs) with
      | none => rfl
      | some m =>
        obtain ⟨chain, hsome⟩ := exists_findChain hfound
        cases hchain.symm.trans hsome
    | some chain =>
      have hnames := map_myName_findChain hchain
      have hne : chain ≠ [] := by
        rintro rfl
        cases hnames
      rw [doFindPath_of_findChain hchain, ← hnames, Option.bind_some,
        List.getLast?_eq_some_getLast hne, List.map_dropLast]
      rfl

end Node

/-- A text splits in one way only into an owner without separator and a path that
starts with one. -/
theorem eq_of_append_eq {sep : χ} {owner owner' p p' : List χ} (howner : sep ∉ owner)
    (howner' : sep ∉ owner') (h : owner ++ sep :: p = owner' ++ sep :: p') :
    owner = owner' ∧ p = p' := by
  induction owner generalizing owner' with
  | nil =>
    cases owner' with
    | nil => exact ⟨rfl, (List.cons.inj h).2⟩
    | cons x owner' => exact absurd ((List.cons.inj h).1 ▸ List.mem_cons_self) howner'
  | cons x owner ih =>
    cases owner' with
    | nil => exact absurd ((List.cons.inj h).1 ▸ List.mem_cons_self) howner
    | cons y owner' =>
      obtain ⟨rfl, hrest⟩ := List.cons.inj h
      obtain ⟨rfl, rfl⟩ := ih (fun hx => howner (List.mem_cons_of_mem _ hx))
        (fun hx => howner' (List.mem_cons_of_mem _ hx)) hrest
      exact ⟨rfl, rfl⟩

variable [DecidableEq χ]

/-- A path that `Find` accepts and that is spelled as the server spells it starts with
the separator. -/
theorem Node.Spelled.exists_cons {sep : χ} {path : List χ} {root : Node χ}
    (h : Spelled sep path) (hfound : (find sep path root).isSome) : ∃ rest, path = sep :: rest := by
  cases hcs : getComponents sep path with
  | nil => simp [find, doFindNode, hcs] at hfound
  | cons c cs =>
    rw [Spelled, hcs, List.flatMap_cons, List.cons_append] at h
    exact ⟨_, h⟩

/-- For every owner, tree and path that `Find` accepts: the path under which the file
is stored and served is the one under which it is deleted and renamed exactly when it
has one separator before each component. Two files with such paths, of owners without
separator in their nickname, have one storage path only if they are the same. -/
theorem storagePath_eq_localPathToMe_iff (sep : χ) :
    (∀ (owner path : List χ) (root : Node χ), (find sep path root).isSome →
      (foundLocalPath sep owner path root = some (storagePath owner path) ↔ Spelled sep path)) ∧
    ∀ (tree : List χ → Node χ) (owner owner' path path' : List χ), sep ∉ owner → sep ∉ owner' →
      (find sep path (tree owner)).isSome → (find sep path' (tree owner')).isSome →
      Spelled sep path → Spelled sep path' →
      storagePath owner path = storagePath owner' path' →
      owner = owner' ∧ getComponents sep path = getComponents sep path' := by
  constructor
  · intro owner path root hfound
    obtain ⟨cached, hfind⟩ := Option.isSome_iff_exists.mp hfound
    obtain ⟨n, hn, -⟩ := Option.map_eq_some_iff.mp hfind
    have hspec := foundLocalPath_spec sep owner path root
    rw [hn, Option.map_some] at hspec
    rw [hspec, Option.some.injEq, foundLocalPath_eq hspec, storagePath, Spelled,
      List.append_cancel_left_eq, eq_comm]
  · intro tree owner owner' path path' howner howner' hfound hfound' hspelled hspelled' heq
    obtain ⟨rest, rfl⟩ := hspelled.exists_cons hfound
    obtain ⟨rest', rfl⟩ := hspelled'.exists_cons hfound'
    obtain ⟨rfl, rfl⟩ := eq_of_append_eq howner howner' heq
    exact ⟨rfl, rfl⟩

/-- The tree of a client that has pushed `b/f` and `f`. -/
def twoFiles : Node Char :=
  .mk ['/'] false [.mk ['f'] false [], .mk ['b'] false [.mk ['f'] false []]]

/-- The two paths of `f`, asked for as `/f`. -/
theorem storagePath_eq_localPathToMe_file :
    (find '/' ['/', 'f'] twoFiles).isSome ∧ Spelled '/' ['/', 'f'] ∧
      foundLocalPath '/' ['a'] ['/', 'f'] twoFiles = some (storagePath ['a'] ['/', 'f']) :=
  ⟨by decide +kernel, by decide +kernel,
    ((storagePath_eq_localPathToMe_iff '/').1 ['a'] ['/', 'f'] twoFiles (by decide +kernel)).mpr
      (by decide +kernel)⟩

/-- `Find` accepts `b/f` without a separator before it. The file `b/f` of `a` is then
stored as `ab/f`, where `/f` of `ab` is, and deleted as `a/b/f`. -/
theorem storagePath_without_separator :
    addAll '/' [['b', '/', 'f'], ['f']] (new ['/']) = some twoFiles ∧
      (find '/' ['b', '/', 'f'] twoFiles).isSome ∧ (find '/' ['/', 'f'] twoFiles).isSome ∧
      storagePath ['a'] ['b', '/', 'f'] = ['a', 'b', '/', 'f'] ∧
      foundLocalPath '/' ['a'] ['b', '/', 'f'] twoFiles = some ['a', '/', 'b', '/', 'f'] ∧
      storagePath ['a'] ['b', '/', 'f'] = storagePath ['a', 'b'] ['/', 'f'] :=
  ⟨rfl, by decide +kernel, by decide +kernel, rfl, by decide +kernel, rfl⟩

end FspServer
