import FspServer.Listing
import Mathlib.Data.Multiset.MapFold

/-!
# What a Rename makes of the listings

Of any tree, with sibling names that may repeat: `Rename` gives a new name to the
one node that the path resolves to. Its entry in a listing and those of the nodes
below it get the name, every other entry stays, also those of a sibling of the same
name (`rename_spec`).
-/

namespace FspServer

open Node

variable {χ : Type}

namespace Node

/-- The paths, relative to the node, of the listed nodes at or below it. -/
def ownPaths (type : PathType) (n : Node χ) : List (List (List χ)) :=
  listedPathsAll type n.myChildrens ++ if type.lists n.isLeaf then [[]] else []

/-- The texts of the listed nodes at or below `n` in a listing where `n` is at `p`. -/
def textsAt (sep : χ) (rootName : List χ) (type : PathType) (p : List (List χ)) (n : Node χ) :
    Multiset (List χ) :=
  (n.ownPaths type).map fun q => pathText sep rootName (p ++ q)

theorem listedPaths_eq_map (type : PathType) (n : Node χ) :
    listedPaths type n = (n.ownPaths type).map (n.myName :: ·) := by
  obtain ⟨name, b, cs⟩ := n
  rw [listedPaths, ownPaths, List.map_append]
  congr 1
  rw [isLeaf, myChildrens]
  split <;> rfl

theorem listedPathsAll_append (type : PathType) (cs ds : List (Node χ)) :
    listedPathsAll type (cs ++ ds) = listedPathsAll type cs ++ listedPathsAll type ds := by
  induction cs with
  | nil => rfl
  | cons c cs ih => rw [List.cons_append, listedPathsAll, ih, listedPathsAll, List.append_assoc]

/-- A listing as a multiset, some of its entries taken out. -/
theorem coe_get_eq {sep : χ} {type : PathType} {root : Node χ}
    {before own after : List (List (List χ))}
    (h : listedPathsAll type root.myChildrens = before ++ own ++ after) :
    (get sep type root [] : Multiset (List χ)) =
      ((before ++ after).map (pathText sep root.myName) : List (List χ)) +
        (own.map (pathText sep root.myName) : List (List χ)) := by
  rw [get_eq, h, List.append_nil, Multiset.coe_reverse, Multiset.coe_add, Multiset.coe_eq_coe,
    ← List.map_append]
  refine List.Perm.map _ ?_
  rw [List.append_assoc, List.append_assoc]
  exact List.Perm.append_left before List.perm_append_comm

/-! ## Flags and structure -/

mutual
/-- The tree with every name taken away: its structure and its `Cached_` flags. -/
def unnamed : Node χ → Node χ
  | .mk _ c cs => .mk [] c (unnamedAll cs)

def unnamedAll : List (Node χ) → List (Node χ)
  | [] => []
  | c :: cs => unnamed c :: unnamedAll cs
end

theorem unnamedAll_eq_map (cs : List (Node χ)) : unnamedAll cs = cs.map unnamed := by
  induction cs with
  | nil => rfl
  | cons c cs ih => rw [unnamedAll, ih, List.map_cons]

theorem unnamed_setName (name : List χ) (n : Node χ) : (n.setName name).unnamed = n.unnamed := by
  obtain ⟨old, b, cs⟩ := n
  rfl

theorem unnamed_withChildrens {n : Node χ} {cs : List (Node χ)}
    (h : cs.map unnamed = n.myChildrens.map unnamed) :
    (n.withChildrens cs).unnamed = n.unnamed := by
  obtain ⟨name, b, ds⟩ := n
  simpa [withChildrens, unnamed, unnamedAll_eq_map, myName, cached, myChildrens] using h

theorem isLeaf_unnamed (n : Node χ) : n.unnamed.isLeaf = n.isLeaf := by
  obtain ⟨name, b, cs⟩ := n
  cases cs <;> rfl

variable [DecidableEq χ]

theorem unnamed_alterAt_setName (w : List χ) (p : List (List χ)) (n : Node χ) :
    (alterAt (fun c => [c.setName w]) p n).unnamed = n.unnamed :=
  eq_alterAt unnamed_withChildrens (unnamed_setName w) p n

/-! ## The listing -/

/-- The first matching child, between its siblings. -/
theorem exists_child_of_doFindPath {root n : Node χ} {x : List χ} {p : List (List χ)}
    (h : root.doFindPath (x :: p) = some n) :
    ∃ before c after, root.myChildrens = before ++ c :: after ∧ c.myName = x ∧
      (∀ d ∈ before, d.myName ≠ x) ∧ c.doFindPath p = some n := by
  rw [doFindPath] at h
  split at h
  · next c hc =>
    obtain ⟨hx, before, after, hcs, hbefore⟩ := List.find?_eq_some_iff_append.mp hc
    exact ⟨before, c, after, hcs, by simpa using hx, by simpa using hbefore, h⟩
  · cases h

/-- Changing the first matching child changes only its part of the listing. -/
theorem listedPathsAll_alterFirst (type : PathType) {x : List χ} {before after : List (Node χ)}
    {c : Node χ} (g : Node χ → Node χ) (hbefore : ∀ d ∈ before, d.myName ≠ x)
    (hx : c.myName = x) :
    listedPathsAll type (alterFirst x (fun c => [g c]) (before ++ c :: after)) =
      listedPathsAll type before ++ ((g c).ownPaths type).map ((g c).myName :: ·) ++
        listedPathsAll type after := by
  rw [alterFirst_append_cons hbefore hx, listedPathsAll_append, listedPathsAll_append,
    listedPathsAll, listedPathsAll, List.append_nil, listedPaths_eq_map]

/-- In the listing the entries of the node that is renamed and of those below it
stand together, and are the only ones that change. -/
theorem listedPathsAll_alterAt_setName (type : PathType) {root n : Node χ} {w : List χ}
    {p : List (List χ)} (hne : p ≠ []) (h : root.doFindPath p = some n) :
    ∃ before after, listedPathsAll type root.myChildrens =
        before ++ (n.ownPaths type).map (p ++ ·) ++ after ∧
      listedPathsAll type (alterAt (fun c => [c.setName w]) p root).myChildrens =
        before ++ (n.ownPaths type).map (p.dropLast ++ w :: ·) ++ after := by
  induction p generalizing root with
  | nil => exact absurd rfl hne
  | cons x rest ih =>
    obtain ⟨before, c, after, hcs, hx, hbefore, hrest⟩ := exists_child_of_doFindPath h
    have hlisted : listedPathsAll type root.myChildrens =
        listedPathsAll type before ++ (c.ownPaths type).map (x :: ·) ++
          listedPathsAll type after := by
      rw [hcs, listedPathsAll_append, listedPathsAll, listedPaths_eq_map, hx, List.append_assoc]
    cases rest with
    | nil =>
      obtain rfl : c = n := Option.some.inj hrest
      refine ⟨listedPathsAll type before, listedPathsAll type after, hlisted, ?_⟩
      have hown : (c.setName w).ownPaths type = c.ownPaths type := by
        rw [ownPaths, ownPaths, isLeaf, isLeaf, myChildrens_setName]
      rw [alterAt, myChildrens_withChildrens, hcs, listedPathsAll_alterFirst type _ hbefore hx,
        hown, myName_setName]
      rfl
    | cons y p =>
      obtain ⟨left, right, hold, hnew⟩ := ih (List.cons_ne_nil y p) hrest
      have hleaf : (alterAt (fun c => [c.setName w]) (y :: p) c).isLeaf = c.isLeaf := by
        rw [← isLeaf_unnamed, unnamed_alterAt_setName, isLeaf_unnamed]
      let self : List (List (List χ)) := if type.lists c.isLeaf then [[]] else []
      refine ⟨listedPathsAll type before ++ left.map (x :: ·),
        (right ++ self).map (x :: ·) ++ listedPathsAll type after, ?_, ?_⟩
      · rw [hlisted, ownPaths, hold]
        simp [self, Function.comp_def]
      · rw [alterAt, myChildrens_withChildrens, hcs, listedPathsAll_alterFirst type _ hbefore hx,
          ownPaths, hnew, hleaf, myName_alterAt, hx]
        simp [self, Function.comp_def]

/-- What `filename` returns follows the last separator, or is the whole text. -/
theorem filename_spec (sep : χ) (path : List χ) :
    ∃ directory, path = directory ++ filename sep path ∧ sep ∉ filename sep path ∧
      (directory = [] ∨ directory.getLast? = some sep) := by
  refine ⟨path.rdropWhile fun c => c ≠ sep, (List.rdropWhile_append_rtakeWhile ..).symm, ?_, ?_⟩
  · intro hsep
    simpa using List.mem_rtakeWhile_imp hsep
  · cases hdir : path.rdropWhile fun c => c ≠ sep with
    | nil => exact Or.inl rfl
    | cons a rest =>
      have hne : path.rdropWhile (fun c => c ≠ sep) ≠ [] := by
        rw [hdir]
        exact List.cons_ne_nil a rest
      have hlast : (path.rdropWhile fun c => c ≠ sep).getLast hne = sep := by
        simpa using List.rdropWhile_last_not _ _ hne
      refine Or.inr ?_
      rw [← hdir, List.getLast?_eq_some_getLast hne, hlast]

end Node

variable [DecidableEq χ]

theorem doFindNode_eq_none_iff_not_exists {sep : χ} {path : List χ} {root : Node χ} :
    doFindNode sep path root = none ↔
      ¬ (getComponents sep path ≠ [] ∧ ∃ n, root.doFindPath (getComponents sep path) = some n) := by
  rw [doFindNode]
  split
  · next hnil => simp [hnil]
  · next x p hcons => simp [hcons, Option.eq_none_iff_forall_ne_some]

/-- `Rename` of any tree. It returns false exactly when the path resolves to no node
below the root or the new path has nothing after its last separator, and then
nothing changes. When it returns true, each listing is, as a multiset, the one
before with the found node's component replaced in the entries of that node and of
the nodes below it, and neither the flags nor the structure have changed. The new
component is what stands after the last separator of the new path. -/
theorem rename_spec (sep : χ) (owner path newPath : List χ) (root : Node χ) :
    ((rename sep owner path newPath root).1 = false ↔
      ¬ (getComponents sep path ≠ [] ∧
        ∃ n, root.doFindPath (getComponents sep path) = some n) ∨ filename sep newPath = []) ∧
    ((rename sep owner path newPath root).1 = false →
      (rename sep owner path newPath root).2.1 = root ∧
        (rename sep owner path newPath root).2.2 = []) ∧
    ((rename sep owner path newPath root).1 = true →
      (rename sep owner path newPath root).2.1.unnamed = root.unnamed ∧
      ∃ n, root.doFindPath (getComponents sep path) = some n ∧
        ∀ type, ∃ rest : Multiset (List χ),
          get sep type root [] = rest + textsAt sep root.myName type (getComponents sep path) n ∧
          get sep type (rename sep owner path newPath root).2.1 [] = rest +
            textsAt sep root.myName type
              ((getComponents sep path).dropLast ++ [filename sep newPath]) n) ∧
    ∃ directory, newPath = directory ++ filename sep newPath ∧ sep ∉ filename sep newPath ∧
      (directory = [] ∨ directory.getLast? = some sep) := by
  rw [← doFindNode_eq_none_iff_not_exists, rename, ← and_assoc, ← and_assoc]
  refine ⟨?_, filename_spec sep newPath⟩
  rw [and_assoc]
  cases hn : doFindNode sep path root with
  | none => simp
  | some n =>
    rcases Classical.em (filename sep newPath = []) with hfile | hfile
    · simp [hfile]
    · obtain ⟨hne, hfind⟩ := RepresentationLemmas.doFindNode_some hn
      simp only [hfile, ↓reduceIte]
      refine ⟨by simp, by simp, fun _ => ⟨unnamed_alterAt_setName _ _ _, n, hfind, fun type => ?_⟩⟩
      obtain ⟨before, after, hold, hnew⟩ :=
        listedPathsAll_alterAt_setName type (w := filename sep newPath) hne hfind
      refine ⟨((before ++ after).map (pathText sep root.myName) : List (List χ)), ?_, ?_⟩
      · rw [coe_get_eq hold, List.map_map]
        rfl
      · rw [coe_get_eq hnew, List.map_map, myName_alterAt, textsAt]
        simp [Function.comp_def]

end FspServer
