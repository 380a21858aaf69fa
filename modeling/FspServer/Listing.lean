import FspServer.RepresentationInvariant

/-!
# The shape of a tree and its listing

* `Node.shape` forgets the `Cached_` flags: what is left is the structure and the
  names. `SetCached` keeps it, and the paths of a tree and its well-formedness
  depend only on it.
* `get_eq`: `Get` lists the texts of the nodes that its type selects, the leaves
  with `FILE` (`get_file`), so two well-formed trees with the same paths have the
  same listings.
* `exists_addAll_perm`: adding the files of a well-formed tree to an empty one,
  in any order, rebuilds its paths, so a peer that rebuilds a tree from its files
  has all its listings (`rebuilt_same_listings`).
-/

namespace FspServer

open PathSet Runs

variable {χ : Type}

/-- Whether a node is listed, given whether it is a leaf. -/
def PathType.lists (leaf : Bool) : PathType → Bool
  | .FILE => leaf
  | .DIRECTORY => !leaf
  | .GENERIC => true

/-- Whether a path of a set is listed. -/
def PathType.Selects (S : Set (List (List χ))) (q : List (List χ)) : PathType → Prop
  | .FILE => IsLeaf S q
  | .DIRECTORY => ¬ IsLeaf S q
  | .GENERIC => True

theorem PathType.lists_iff_selects {type : PathType} {S : Set (List (List χ))}
    {q : List (List χ)} {leaf : Bool} (h : IsLeaf S q ↔ leaf = true) :
    type.lists leaf = true ↔ type.Selects S q := by
  cases type with
  | FILE => exact h.symm
  | DIRECTORY => simp [lists, Selects, h]
  | GENERIC => simp [lists, Selects]

theorem PathType.selects_congr {type : PathType} {S S' : Set (List (List χ))}
    {q q' : List (List χ)} (h : IsLeaf S q ↔ IsLeaf S' q') :
    type.Selects S q ↔ type.Selects S' q' := by
  cases type with
  | FILE => exact h
  | DIRECTORY => exact not_congr h
  | GENERIC => exact Iff.rfl

namespace Node

/-! ## Shape -/

mutual
/-- The tree with every `Cached_` flag cleared. -/
def shape : Node χ → Node χ
  | .mk n _ cs => .mk n false (shapeAll cs)

def shapeAll : List (Node χ) → List (Node χ)
  | [] => []
  | c :: cs => shape c :: shapeAll cs
end

theorem shapeAll_eq_map (cs : List (Node χ)) : shapeAll cs = cs.map shape := by
  induction cs with
  | nil => rfl
  | cons c cs ih => rw [shapeAll, ih, List.map_cons]

@[simp] theorem myName_shape (n : Node χ) : n.shape.myName = n.myName := by
  obtain ⟨name, b, cs⟩ := n
  simp [shape, myName]

@[simp] theorem myChildrens_shape (n : Node χ) :
    n.shape.myChildrens = n.myChildrens.map shape := by
  obtain ⟨name, b, cs⟩ := n
  simp [shape, myChildrens, shapeAll_eq_map]

@[simp] theorem shape_setCachedFlag (flag : Bool) (n : Node χ) :
    (n.setCachedFlag flag).shape = n.shape := by
  obtain ⟨name, b, cs⟩ := n
  simp [setCachedFlag, shape]

theorem shape_withChildrens {n : Node χ} {cs : List (Node χ)}
    (h : cs.map shape = n.myChildrens.map shape) : (n.withChildrens cs).shape = n.shape := by
  obtain ⟨name, b, ds⟩ := n
  simpa [withChildrens, shape, shapeAll_eq_map, myName, cached, myChildrens] using h

mutual
theorem uniq_shape_iff (n : Node χ) : n.shape.Uniq ↔ n.Uniq := by
  match n with
  | .mk name b cs =>
    rw [uniq_iff, uniq_iff, myChildrens_shape]
    have hall := uniq_shapeAll_iff cs
    simp only [myChildrens, List.map_map, List.forall_mem_map, Function.comp_def, myName_shape]
    exact and_congr_right fun _ => hall

theorem uniq_shapeAll_iff (cs : List (Node χ)) : (∀ c ∈ cs, c.shape.Uniq) ↔ ∀ c ∈ cs, c.Uniq := by
  match cs with
  | [] => simp
  | c :: cs =>
    rw [List.forall_mem_cons, List.forall_mem_cons, uniq_shape_iff c, uniq_shapeAll_iff cs]
end

mutual
theorem named_shape_iff (sep : χ) (n : Node χ) : n.shape.Named sep ↔ n.Named sep := by
  match n with
  | .mk name b cs =>
    rw [named_iff, named_iff, myChildrens_shape]
    have hall := named_shapeAll_iff sep cs
    simp only [myChildrens, List.forall_mem_map, myName_shape]
    exact and_congr_right fun _ => hall

theorem named_shapeAll_iff (sep : χ) (cs : List (Node χ)) :
    (∀ c ∈ cs, c.shape.Named sep) ↔ ∀ c ∈ cs, c.Named sep := by
  match cs with
  | [] => simp
  | c :: cs =>
    rw [List.forall_mem_cons, List.forall_mem_cons, named_shape_iff sep c,
      named_shapeAll_iff sep cs]
end

/-! ## The leaves of a tree -/

mutual
/-- The paths to the leaves at or below a node, each starting with its name. -/
def leafPaths : Node χ → List (List (List χ))
  | .mk n _ cs => if cs.isEmpty then [[n]] else (leafPathsAll cs).map (n :: ·)

def leafPathsAll : List (Node χ) → List (List (List χ))
  | [] => []
  | c :: cs => leafPaths c ++ leafPathsAll cs
end

/-- The text of a path in a listing, after `currentPath`. -/
def pathText (sep : χ) : List χ → List (List χ) → List χ
  | currentPath, [] => currentPath
  | currentPath, [name] => currentPath ++ name
  | currentPath, name :: next :: rest => pathText sep (currentPath ++ name ++ [sep]) (next :: rest)

/-- The text of a path starts with what was there before it. -/
theorem pathText_eq_append (sep : χ) (currentPath : List χ) (q : List (List χ)) :
    pathText sep currentPath q = currentPath ++ pathText sep [] q := by
  induction q generalizing currentPath with
  | nil => simp [pathText]
  | cons name rest ih =>
    cases rest with
    | nil => simp [pathText]
    | cons next rest => rw [pathText, ih, pathText, ih ([] ++ name ++ [sep])]; simp

theorem mem_leafPathsAll {cs : List (Node χ)} {q : List (List χ)} :
    q ∈ leafPathsAll cs ↔ ∃ c ∈ cs, q ∈ leafPaths c := by
  induction cs with
  | nil => simp [leafPathsAll]
  | cons c cs ih => simp [leafPathsAll, ih]

theorem ne_nil_of_mem_leafPaths {n : Node χ} {q : List (List χ)} (h : q ∈ leafPaths n) :
    q ≠ [] := by
  obtain ⟨name, b, cs⟩ := n
  rw [leafPaths] at h
  split at h
  · simp_all
  · obtain ⟨p, -, rfl⟩ := List.mem_map.mp h
    exact List.cons_ne_nil _ _

theorem cons_mem_leafPaths {n : Node χ} {x : List χ} {p : List (List χ)} :
    x :: p ∈ leafPaths n ↔
      x = n.myName ∧ if n.myChildrens.isEmpty then p = [] else p ∈ leafPathsAll n.myChildrens := by
  obtain ⟨name, b, cs⟩ := n
  rw [leafPaths]
  cases cs with
  | nil => simp [myName, myChildrens]
  | cons c cs => simp [myName, myChildrens, eq_comm (a := x), and_comm]

/-! ## What `Get` lists -/

mutual
/-- The paths to the listed nodes at or below a node, the node itself last. -/
def listedPaths (type : PathType) : Node χ → List (List (List χ))
  | .mk n _ cs =>
    (listedPathsAll type cs).map (n :: ·) ++ if type.lists cs.isEmpty then [[n]] else []

def listedPathsAll (type : PathType) : List (Node χ) → List (List (List χ))
  | [] => []
  | c :: cs => listedPaths type c ++ listedPathsAll type cs
end

theorem mem_listedPathsAll {type : PathType} {cs : List (Node χ)} {q : List (List χ)} :
    q ∈ listedPathsAll type cs ↔ ∃ c ∈ cs, q ∈ listedPaths type c := by
  induction cs with
  | nil => simp [listedPathsAll]
  | cons c cs ih => simp [listedPathsAll, ih]

theorem ne_nil_of_mem_listedPaths {type : PathType} {n : Node χ} {q : List (List χ)}
    (h : q ∈ listedPaths type n) : q ≠ [] := by
  obtain ⟨name, b, cs⟩ := n
  rw [listedPaths, List.mem_append] at h
  cases h with
  | inl below =>
    obtain ⟨p, -, rfl⟩ := List.mem_map.mp below
    exact List.cons_ne_nil _ _
  | inr self =>
    obtain ⟨-, hq⟩ := List.mem_ite_nil_right.mp self
    rw [List.mem_singleton.mp hq]
    exact List.cons_ne_nil _ _

theorem ne_nil_of_mem_listedPathsAll {type : PathType} {cs : List (Node χ)} {q : List (List χ)}
    (h : q ∈ listedPathsAll type cs) : q ≠ [] := by
  obtain ⟨c, -, hq⟩ := mem_listedPathsAll.mp h
  exact ne_nil_of_mem_listedPaths hq

theorem cons_mem_listedPaths {type : PathType} {n : Node χ} {x : List χ} {p : List (List χ)} :
    x :: p ∈ listedPaths type n ↔
      x = n.myName ∧ if p = [] then (type.lists n.isLeaf : Prop)
        else p ∈ listedPathsAll type n.myChildrens := by
  obtain ⟨name, b, cs⟩ := n
  rw [listedPaths]
  cases p with
  | nil =>
    have hbelow : [] ∉ listedPathsAll type cs := fun h => ne_nil_of_mem_listedPathsAll h rfl
    simp [myName, myChildrens, isLeaf, hbelow, and_comm]
  | cons y p => simp [myName, myChildrens, eq_comm (a := x), and_comm]

/-- The texts of the paths below a node. -/
theorem map_pathText_cons (sep : χ) (type : PathType) (currentPath name : List χ)
    (cs : List (Node χ)) :
    ((listedPathsAll type cs).map (name :: ·)).map (pathText sep currentPath) =
      (listedPathsAll type cs).map (pathText sep (currentPath ++ name ++ [sep])) := by
  rw [List.map_map]
  refine List.map_congr_left fun q hq => ?_
  obtain ⟨x, p, rfl⟩ := List.exists_cons_of_ne_nil (ne_nil_of_mem_listedPathsAll hq)
  rfl

mutual
/-- `do_get_paths` lists these paths, and leaves `CurrentPath` as it was. -/
theorem doGetPaths_eq (sep : χ) (type : PathType) (n : Node χ) (currentPath : List χ)
    (paths : List (List χ)) :
    doGetPaths sep type n currentPath paths =
      (currentPath, ((listedPaths type n).map (pathText sep currentPath)).reverse ++ paths) := by
  match n with
  | .mk name b cs =>
    rw [listedPaths, List.map_append, map_pathText_cons]
    cases type <;> cases cs <;>
      simp [doGetPaths, doGetPathsLoop_eq, PathType.lists, pathText, isLeaf, myChildrens]

theorem doGetPathsLoop_eq (sep : χ) (type : PathType) (cs : List (Node χ)) (currentPath : List χ)
    (paths : List (List χ)) :
    doGetPathsLoop sep type cs currentPath paths = (currentPath,
      ((listedPathsAll type cs).map (pathText sep currentPath)).reverse ++ paths) := by
  match cs with
  | [] => simp [doGetPathsLoop, listedPathsAll]
  | c :: cs =>
    rw [doGetPathsLoop, doGetPaths_eq sep type c]
    simp only [doGetPathsLoop_eq sep type cs, listedPathsAll, List.map_append, List.reverse_append,
      List.append_assoc]
end

mutual
theorem listedPaths_file (n : Node χ) : listedPaths .FILE n = leafPaths n := by
  match n with
  | .mk name b cs =>
    rw [listedPaths, leafPaths, listedPathsAll_file cs]
    cases cs with
    | nil => simp [leafPathsAll, PathType.lists]
    | cons c cs => simp [PathType.lists]

theorem listedPathsAll_file (cs : List (Node χ)) : listedPathsAll .FILE cs = leafPathsAll cs := by
  match cs with
  | [] => rfl
  | c :: cs => rw [listedPathsAll, leafPathsAll, listedPaths_file c, listedPathsAll_file cs]
end

/-- `Get` lists the texts of the listed nodes. -/
theorem get_eq (sep : χ) (type : PathType) (root : Node χ) (paths : List (List χ)) :
    get sep type root paths =
      ((listedPathsAll type root.myChildrens).map (pathText sep root.myName)).reverse ++ paths := by
  rw [get, doGetPathsLoop_eq]

/-- `Get` with `FILE` lists the texts of the leaves. -/
theorem get_file (sep : χ) (root : Node χ) (paths : List (List χ)) :
    get sep .FILE root paths =
      ((leafPathsAll root.myChildrens).map (pathText sep root.myName)).reverse ++ paths := by
  rw [get_eq, listedPathsAll_file]

/-- Sibling names being unique, no leaf is listed twice. -/
theorem nodup_leafPathsAll {n : Node χ} (h : n.Uniq) : (leafPathsAll n.myChildrens).Nodup := by
  induction h with
  | @mk name b cs hnodup hcs ih =>
    simp only [myChildrens]
    clear hcs
    induction cs with
    | nil => exact List.nodup_nil
    | cons c cs ihcs =>
      rw [List.map_cons, List.nodup_cons] at hnodup
      rw [leafPathsAll, List.nodup_append]
      refine ⟨?_, ihcs hnodup.2 fun d hd => ih d (List.mem_cons_of_mem _ hd), ?_⟩
      · have hc := ih c List.mem_cons_self
        obtain ⟨cname, cb, ds⟩ := c
        rw [leafPaths]
        split
        · simp
        · exact List.Nodup.map (fun _ _ heq => (List.cons.inj heq).2) hc
      · rintro q hq q' hq' rfl
        obtain ⟨d, hd, hqd⟩ := mem_leafPathsAll.mp hq'
        obtain ⟨x, p, rfl⟩ := List.exists_cons_of_ne_nil (ne_nil_of_mem_leafPaths hq)
        refine hnodup.1 (List.mem_map.mpr ⟨d, hd, ?_⟩)
        rw [← (cons_mem_leafPaths.mp hqd).1, ← (cons_mem_leafPaths.mp hq).1]

variable [DecidableEq χ]

theorem getChildren_shape (n : Node χ) (x : List χ) :
    n.shape.getChildren x = (n.getChildren x).map shape := by
  rw [getChildren, getChildren, myChildrens_shape, List.find?_map]
  simp only [Function.comp_def, myName_shape]

theorem doFindPath_shape (n : Node χ) (p : List (List χ)) :
    n.shape.doFindPath p = (n.doFindPath p).map shape := by
  induction p generalizing n with
  | nil => rfl
  | cons x p ih =>
    rw [doFindPath, doFindPath, getChildren_shape]
    cases n.getChildren x with
    | none => rfl
    | some c => exact ih c

theorem paths_shape (n : Node χ) : n.shape.paths = n.paths := by
  ext p
  simp [paths, doFindPath_shape]

/-- A change in place that keeps what `F` sees of the node keeps what it sees of the
tree, when that depends on the children through `F` only. -/
theorem eq_alterAt {β : Type*} {F : Node χ → β}
    (hF : ∀ {n : Node χ} {cs : List (Node χ)}, cs.map F = n.myChildrens.map F →
      F (n.withChildrens cs) = F n) {g : Node χ → Node χ} (hg : ∀ c, F (g c) = F c)
    (p : List (List χ)) (n : Node χ) : F (alterAt (fun c => [g c]) p n) = F n := by
  induction p generalizing n with
  | nil => rfl
  | cons x rest ih =>
    cases rest with
    | nil => exact hF (map_alterFirst hg x _)
    | cons y p => exact hF (map_alterFirst ih x _)

/-- A change in place that keeps the shape of the node keeps the shape of the tree. -/
theorem shape_alterAt {g : Node χ → Node χ} (hg : ∀ c, (g c).shape = c.shape)
    (p : List (List χ)) (n : Node χ) : (alterAt (fun c => [g c]) p n).shape = n.shape :=
  eq_alterAt shape_withChildrens hg p n

theorem shape_setCached (sep : χ) (path : List χ) (flag : Bool) (root : Node χ) :
    (setCached sep path flag root).2.shape = root.shape := by
  unfold setCached
  split
  · rfl
  · exact shape_alterAt (shape_setCachedFlag flag) _ root

/-! ## Leaves and paths -/

theorem isLeaf_nil_paths {n : Node χ} (h : n.Uniq) :
    IsLeaf n.paths [] ↔ n.myChildrens.isEmpty := by
  constructor
  · rintro ⟨-, hno⟩
    rw [List.isEmpty_iff, List.eq_nil_iff_forall_not_mem]
    intro c hc
    exact hno c.myName ((cons_mem_paths_of_uniq h).mpr ⟨c, hc, rfl, by simp [paths]; rfl⟩)
  · intro hempty
    refine ⟨by simp [paths, doFindPath], fun x hx => ?_⟩
    obtain ⟨c, hc, -⟩ := (cons_mem_paths_of_uniq h).mp hx
    rw [List.isEmpty_iff.mp hempty] at hc
    exact absurd hc List.not_mem_nil

theorem isLeaf_cons_paths {n : Node χ} (h : n.Uniq) {x : List χ} {p : List (List χ)} :
    IsLeaf n.paths (x :: p) ↔ ∃ c ∈ n.myChildrens, c.myName = x ∧ IsLeaf c.paths p := by
  constructor
  · rintro ⟨hmem, hno⟩
    obtain ⟨c, hc, hx, hp⟩ := (cons_mem_paths_of_uniq h).mp hmem
    refine ⟨c, hc, hx, hp, fun y hy => hno y ?_⟩
    exact (cons_mem_paths_of_uniq h).mpr ⟨c, hc, hx, hy⟩
  · rintro ⟨c, hc, hx, hp, hno⟩
    refine ⟨(cons_mem_paths_of_uniq h).mpr ⟨c, hc, hx, hp⟩, fun y hy => ?_⟩
    have hget := (getChildren_eq_some_iff h).mpr ⟨hc, hx⟩
    obtain ⟨d, hd, hy⟩ := cons_mem_paths.mp hy
    obtain rfl : c = d := Option.some.inj (hget.symm.trans hd)
    exact hno y hy

theorem isLeaf_child_paths {n c : Node χ} (h : n.Uniq) (hc : c ∈ n.myChildrens)
    {p : List (List χ)} : IsLeaf n.paths (c.myName :: p) ↔ IsLeaf c.paths p := by
  rw [isLeaf_cons_paths h]
  constructor
  · rintro ⟨d, hd, hname, hp⟩
    have hget := (getChildren_eq_some_iff h).mpr ⟨hc, rfl⟩
    obtain rfl : c = d := Option.some.inj
      (hget.symm.trans ((getChildren_eq_some_iff h).mpr ⟨hd, hname⟩))
    exact hp
  · exact fun hp => ⟨c, hc, rfl, hp⟩

/-- The listed paths are those of the set of paths that the type selects. -/
theorem mem_listedPathsAll_iff {type : PathType} {n : Node χ} (h : n.Uniq) {q : List (List χ)} :
    q ∈ listedPathsAll type n.myChildrens ↔ q ≠ [] ∧ q ∈ n.paths ∧ type.Selects n.paths q := by
  induction h generalizing q with
  | @mk name b cs hnodup hcs ih =>
    have huniq : (Node.mk name b cs).Uniq := .mk hnodup hcs
    rcases q with _ | ⟨x, p⟩
    · exact iff_of_false (fun hq => ne_nil_of_mem_listedPathsAll hq rfl) fun hq => hq.1 rfl
    · -- the listed node is the child itself, or lies below it
      have below : ∀ c ∈ cs, (if p = [] then (type.lists c.isLeaf : Prop)
          else p ∈ listedPathsAll type c.myChildrens) ↔
            p ∈ c.paths ∧ type.Selects (Node.mk name b cs).paths (c.myName :: p) := by
        intro c hc
        rw [PathType.selects_congr (isLeaf_child_paths huniq hc)]
        by_cases hp : p = []
        · subst hp
          have hlists := @PathType.lists_iff_selects _ type _ _ _ (isLeaf_nil_paths (hcs c hc))
          rw [if_pos rfl, isLeaf, hlists]
          exact (and_iff_right (by simp [paths, doFindPath])).symm
        · rw [if_neg hp, ih c hc, and_iff_right hp]
      rw [mem_listedPathsAll, cons_mem_paths_of_uniq huniq]
      simp only [cons_mem_listedPaths, ne_eq, reduceCtorEq, not_false_eq_true, true_and]
      constructor
      · rintro ⟨c, hc, rfl, hlisted⟩
        obtain ⟨hp, hselects⟩ := (below c hc).mp hlisted
        exact ⟨⟨c, hc, rfl, hp⟩, hselects⟩
      · rintro ⟨⟨c, hc, rfl, hp⟩, hselects⟩
        exact ⟨c, hc, rfl, (below c hc).mpr ⟨hp, hselects⟩⟩

/-- The listed leaves are the leaves of the set of paths. -/
theorem mem_leafPathsAll_iff {n : Node χ} (h : n.Uniq) {q : List (List χ)} :
    q ∈ leafPathsAll n.myChildrens ↔ q ≠ [] ∧ IsLeaf n.paths q := by
  rw [← listedPathsAll_file, mem_listedPathsAll_iff h]
  exact and_congr_right fun _ => ⟨fun hq => hq.2, fun hq => ⟨hq.1, hq⟩⟩

/-- Every path but the root's has a leaf at or below it. -/
theorem exists_leaf_of_mem_paths {n : Node χ} (h : n.Uniq) {q : List (List χ)} (hq : q ∈ n.paths)
    (hne : q ≠ [] ∨ n.myChildrens ≠ []) : ∃ l ∈ leafPathsAll n.myChildrens, q <+: l := by
  induction h generalizing q with
  | @mk name b cs hnodup hcs ih =>
    have huniq : (Node.mk name b cs).Uniq := .mk hnodup hcs
    -- the leaf is below the child that the path goes through, or below any child
    have below : ∀ c ∈ cs, ∀ p ∈ c.paths, ∃ l ∈ leafPathsAll cs, c.myName :: p <+: l := by
      intro c hc p hp
      by_cases hleaf : c.myChildrens = []
      · obtain rfl : p = [] := by
          have hnil := (isLeaf_nil_paths (hcs c hc)).mpr (by simp [hleaf])
          exact (hnil.eq_of_isPrefix (prefixClosed_paths c) hp List.nil_prefix).symm
        refine ⟨[c.myName], mem_leafPathsAll.mpr ⟨c, hc, ?_⟩, List.prefix_rfl⟩
        exact cons_mem_leafPaths.mpr ⟨rfl, by simp [hleaf]⟩
      · obtain ⟨l, hl, hpl⟩ := ih c hc hp (Or.inr hleaf)
        refine ⟨c.myName :: l, mem_leafPathsAll.mpr ⟨c, hc, ?_⟩,
          List.cons_prefix_cons.mpr ⟨rfl, hpl⟩⟩
        exact cons_mem_leafPaths.mpr ⟨rfl, by simpa [hleaf] using hl⟩
    rcases q with _ | ⟨x, p⟩
    · obtain ⟨c, hc⟩ := List.exists_mem_of_ne_nil _ (hne.resolve_left (absurd rfl))
      obtain ⟨l, hl, -⟩ := below c hc [] (by simp [paths, doFindPath])
      exact ⟨l, hl, List.nil_prefix⟩
    · obtain ⟨c, hc, rfl, hp⟩ := (cons_mem_paths_of_uniq huniq).mp hq
      exact below c hc p hp

/-! ## Texts of paths -/

theorem getComponents_append_of_forall_eq {sep : χ} {root : List χ} (hroot : ∀ a ∈ root, a = sep)
    (b : List χ) : getComponents sep (root ++ b) = getComponents sep b := by
  induction root with
  | nil => rfl
  | cons a root ih =>
    rw [hroot a List.mem_cons_self, List.cons_append, getComponents_cons_sep]
    exact ih fun c hc => hroot c (List.mem_cons_of_mem _ hc)

/-- The components of the text of a path are the path, after what `currentPath`
already holds. -/
theorem getComponents_pathText {sep : χ} {q : List (List χ)} (hne : q ≠ [])
    (hq : ∀ name ∈ q, GoodName sep name) (currentPath : List χ) (names : List (List χ))
    (hcurrent : ∀ b, getComponents sep (currentPath ++ b) = names ++ getComponents sep b) :
    getComponents sep (pathText sep currentPath q) = names ++ q := by
  induction q generalizing currentPath names with
  | nil => exact absurd rfl hne
  | cons name rest ih =>
    have hname := hq name List.mem_cons_self
    cases rest with
    | nil => rw [pathText, hcurrent, getComponents_of_goodName hname]
    | cons next rest =>
      have hnext := ih (List.cons_ne_nil _ _) (fun y hy => hq y (List.mem_cons_of_mem _ hy))
        (currentPath ++ name ++ [sep]) (names ++ [name]) fun b => by
          rw [List.append_assoc, List.append_assoc, hcurrent, List.singleton_append,
            getComponents_goodName_cons hname]
          simp
      rw [pathText, hnext]
      simp

theorem goodName_of_mem_paths {sep : χ} {n : Node χ} (h : n.Named sep) {q : List (List χ)}
    (hq : q ∈ n.paths) : ∀ name ∈ q, GoodName sep name := by
  induction q generalizing n with
  | nil => exact fun _ hname => absurd hname List.not_mem_nil
  | cons x q ih =>
    obtain ⟨c, hc, hqc⟩ := cons_mem_paths.mp hq
    obtain ⟨hmem, rfl⟩ := getChildren_some hc
    obtain ⟨hgood, hdeep⟩ := named_iff.mp h
    exact List.forall_mem_cons.mpr ⟨hgood c hmem, ih (hdeep c hmem) hqc⟩

end Node

open Node RepresentationLemmas

theorem wellFormed_of_shape_eq {sep : χ} {n n' : Node χ} (hshape : n'.shape = n.shape)
    (h : WellFormed sep n) : WellFormed sep n' where
  uniq := by rw [← uniq_shape_iff, hshape, uniq_shape_iff]; exact h.uniq
  named := by rw [← named_shape_iff, hshape, named_shape_iff]; exact h.named

variable [DecidableEq χ]

theorem paths_of_shape_eq {n n' : Node χ} (hshape : n'.shape = n.shape) : n'.paths = n.paths := by
  rw [← paths_shape, hshape, paths_shape]

/-! ## Listings -/

/-- Trees with the same paths have the same listings. -/
theorem mem_get_of_paths_eq {sep : χ} {n n' : Node χ} (h : n.Uniq) (h' : n'.Uniq)
    (hname : n'.myName = n.myName) (hpaths : n'.paths = n.paths) (type : PathType)
    (text : List χ) : text ∈ get sep type n' [] ↔ text ∈ get sep type n [] := by
  have hmem : ∀ q, q ∈ listedPathsAll type n'.myChildrens ↔
      q ∈ listedPathsAll type n.myChildrens := by
    intro q
    rw [mem_listedPathsAll_iff h, mem_listedPathsAll_iff h', hpaths]
  simp [get_eq, hname, hmem]

/-- Adding leaves to what the leaves before them have built. -/
theorem exists_addAll_leaves {sep : χ} {S : Set (List (List χ))} (hS : PrefixClosed S)
    {texts : List (List χ)} (hleaf : ∀ t ∈ texts, IsLeaf S (getComponents sep t))
    (hne : ∀ t ∈ texts, getComponents sep t ≠ [])
    (hnodup : (texts.map (getComponents sep)).Nodup) (before : List (List (List χ)))
    (hbefore : ∀ q ∈ before, q ∈ S)
    (hfresh : ∀ t ∈ texts, getComponents sep t ∉ before) {root : Node χ}
    (hroot : WellFormed sep root) (hpaths : root.paths = before.foldl grow {[]}) :
    ∃ root', addAll sep texts root = some root' ∧ WellFormed sep root' ∧
      root'.myName = root.myName ∧
      root'.paths = (before ++ texts.map (getComponents sep)).foldl grow {[]} := by
  induction texts generalizing before root with
  | nil => exact ⟨root, rfl, hroot, rfl, by simpa using hpaths⟩
  | cons t texts ih =>
    have ht := hleaf t List.mem_cons_self
    have hnotin : getComponents sep t ∉ root.paths := by
      rw [hpaths]
      exact not_mem_grow_leaves hS hbefore ht (hne t List.mem_cons_self)
        (hfresh t List.mem_cons_self)
    have hkeep : WellFormed sep (insertPath (getComponents sep t) root) := by
      refine (wellFormed_add hroot t).mpr (Or.inr fun hdouble => hnotin ?_)
      exact prefixClosed_paths root _ _ (List.prefix_append _ _) hdouble
    rw [List.map_cons, List.nodup_cons] at hnodup
    obtain ⟨root', hadd, hwf, hname, hroot'⟩ :=
      ih (fun u hu => hleaf u (List.mem_cons_of_mem _ hu))
        (fun u hu => hne u (List.mem_cons_of_mem _ hu)) hnodup.2
        (before ++ [getComponents sep t])
        (fun q hq => (List.mem_append.mp hq).elim (hbefore q) fun hq =>
          List.mem_singleton.mp hq ▸ ht.1)
        (fun u hu hmem => (List.mem_append.mp hmem).elim (hfresh u (List.mem_cons_of_mem _ hu))
          fun heq => hnodup.1 (List.mem_map.mpr ⟨u, hu, List.mem_singleton.mp heq⟩))
        hkeep (by rw [paths_insertPath_of_not_mem hnotin, hpaths]; simp)
    refine ⟨root', ?_, hwf, by rw [hname, myName_insertPath], by rw [hroot']; simp⟩
    rw [addAll, add_eq hroot.uniq]
    exact hadd

/-- The components of the listed texts are the leaves. -/
theorem getComponents_get_file {sep : χ} {root : Node χ} (h : WellFormed sep root)
    (hroot : ∀ a ∈ root.myName, a = sep) :
    (get sep .FILE root []).map (getComponents sep) =
      (leafPathsAll root.myChildrens).reverse := by
  have hcomponents : ∀ q ∈ leafPathsAll root.myChildrens,
      getComponents sep (pathText sep root.myName q) = q := by
    intro q hq
    obtain ⟨hne, hleaf⟩ := (mem_leafPathsAll_iff h.uniq).mp hq
    exact getComponents_pathText hne (goodName_of_mem_paths h.named hleaf.1) root.myName []
      fun b => by rw [getComponents_append_of_forall_eq hroot, List.nil_append]
  rw [get_file, List.append_nil, List.map_reverse, List.map_map]
  congr 1
  refine List.map_congr_left (g := id) (fun q hq => hcomponents q hq) |>.trans (List.map_id _)

/-- Adding the files of a tree to an empty one, in any order, rebuilds its paths. -/
theorem exists_addAll_perm {sep : χ} {root : Node χ} (h : WellFormed sep root)
    (hroot : ∀ a ∈ root.myName, a = sep) {texts : List (List χ)}
    (hperm : texts.Perm (get sep .FILE root [])) :
    ∃ root', addAll sep texts (new root.myName) = some root' ∧
      WellFormed sep root' ∧ root'.myName = root.myName ∧ root'.paths = root.paths := by
  have hmap : (texts.map (getComponents sep)).Perm (leafPathsAll root.myChildrens) := by
    refine (hperm.map (getComponents sep)).trans ?_
    rw [getComponents_get_file h hroot]
    exact List.reverse_perm _
  have hmem : ∀ t ∈ texts, getComponents sep t ∈ leafPathsAll root.myChildrens :=
    fun t ht => hmap.mem_iff.mp (List.mem_map_of_mem ht)
  obtain ⟨root', hadd, hwf, hname, hpaths⟩ := exists_addAll_leaves (prefixClosed_paths root)
    (fun t ht => ((mem_leafPathsAll_iff h.uniq).mp (hmem t ht)).2)
    (fun t ht => ((mem_leafPathsAll_iff h.uniq).mp (hmem t ht)).1)
    (hmap.nodup_iff.mpr (nodup_leafPathsAll h.uniq)) []
    (fun q hq => absurd hq List.not_mem_nil) (fun t _ => List.not_mem_nil)
    (wellFormed_new sep root.myName) (paths_new _)
  refine ⟨root', hadd, hwf, hname, ?_⟩
  rw [hpaths, List.nil_append]
  refine foldl_grow_leaves (prefixClosed_paths root) (by simp [paths, doFindPath]) ?_ ?_
  · intro l hl
    exact ((mem_leafPathsAll_iff h.uniq).mp (hmap.mem_iff.mp hl)).2.1
  · intro q hq hne
    obtain ⟨l, hl, hql⟩ := exists_leaf_of_mem_paths h.uniq hq (Or.inl hne)
    exact ⟨l, hmap.mem_iff.mpr hl, hql⟩

/-- Adding the files of a tree to an empty one rebuilds its paths. -/
theorem exists_addAll_files {sep : χ} {root : Node χ} (h : WellFormed sep root)
    (hroot : ∀ a ∈ root.myName, a = sep) :
    ∃ root', addAll sep (get sep .FILE root []) (new root.myName) = some root' ∧
      WellFormed sep root' ∧ root'.myName = root.myName ∧ root'.paths = root.paths :=
  exists_addAll_perm h hroot (List.Perm.refl _)

/-- What a peer rebuilds from the listed files, taken in any order, has unique
sibling names, the nodes of the tree and each of its listings. -/
theorem rebuilt_same_listings {sep : χ} {root : Node χ} (h : WellFormed sep root)
    (hroot : root.myName = [sep]) {texts : List (List χ)}
    (hperm : texts.Perm (get sep .FILE root [])) :
    ∃ root', addAll sep texts (new [sep]) = some root' ∧ WellFormed sep root' ∧
      root'.paths = root.paths ∧
      ∀ type text, text ∈ get sep type root' [] ↔ text ∈ get sep type root [] := by
  have hsep : ∀ a ∈ root.myName, a = sep := by simp [hroot]
  obtain ⟨root', hadd, hwf, hname, hpaths⟩ := exists_addAll_perm h hsep hperm
  rw [hroot] at hadd
  exact ⟨root', hadd, hwf, hpaths, mem_get_of_paths_eq h.uniq hwf.uniq hname hpaths⟩

/-- `/a` with the files `b` and `c`, and the file `/d`. -/
theorem rebuilt_same_listings_abcd :
    ∃ root', addAll '/' ["/a/b".toList, "/a/c".toList, "/d".toList] (new ['/']) = some root' ∧
      WellFormed '/' root' ∧ "/a".toList ∈ get '/' .DIRECTORY root' [] := by
  let root : Node Char :=
    .mk ['/'] false [.mk ['a'] false [.mk ['c'] true [], new ['b']], new ['d']]
  let ops : List (VfsOp Char) := [.Add "/d".toList, .Add "/a/b".toList, .Add "/a/c".toList,
    .SetCached "/a/c".toList true]
  have hops : EachStep (VfsOp.apply '/' "o".toList) (fun root op => op.KeepsNames '/' root)
      (new ['/']) ops := by
    decide +kernel
  have hwf : WellFormed '/' root := wellFormed_of_exec hops rfl
  have hperm : ["/a/b".toList, "/a/c".toList, "/d".toList].Perm (get '/' .FILE root []) := by
    decide +kernel
  obtain ⟨root', hadd, hwf', -, hlist⟩ := rebuilt_same_listings hwf rfl hperm
  exact ⟨root', hadd, hwf', (hlist .DIRECTORY _).mpr (by decide +kernel)⟩

end FspServer
