import FspServer.Destruction

/-!
# The paths of linked nodes

The path of a node is put together in three places. `do_get_paths` goes down with one
string that it appends to and cuts back; `MyPath` and `LocalPathToMe` go up through the
parents, append reversed names and reverse the whole. `Find` takes such a string apart
again. Here they run on a heap of nodes; the tree that the heap holds says what they do.

* `doGetPathsInto_eq`: whatever the container, `do_get_paths` puts `emitted` into it, one
  path after the other.
* `get_erase`: on the tree as a value this is `Node.get`.
* `path_views_agree`: with unique names the paths are the same, and each is found again.
-/

namespace FspServer

open LinkedTree Runs

variable {χ : Type}

namespace NodeHeap

/-! ## The code -/

def pathToMe (sep : χ) (h : NodeHeap χ) (rounds : Nat) (self : Cell (NodeData χ))
    (path : List χ) : Option (List χ) := do
  let path ← match self.parent with
    | none => some path
    | some currentParent => walkParents sep h rounds currentParent path
  some (path ++ [sep]).reverse

def myPath (sep : χ) (h : NodeHeap χ) (rounds : Nat) (self : Cell (NodeData χ))
    (path : List χ) : Option (List χ) := do
  let path ← pathToMe sep h rounds self path
  some (path ++ self.value.myName)

section Listing

variable {γ : Type}

/-- The loop over the children. -/
def getPathsAll (getPaths : Nat → List χ → γ → Option (List χ × γ)) :
    List Nat → List χ → γ → Option (List χ × γ)
  | [], currentPath, paths => some (currentPath, paths)
  | child :: cs, currentPath, paths => do
    let (currentPath, paths) ← getPaths child currentPath paths
    getPathsAll getPaths cs currentPath paths

/-- `do_get_paths` of the node at `a`. The overloads differ in `emplace`, how the path
gets into the container; the number bounds the depth of the recursion. -/
def doGetPathsInto (emplace : Nat → List χ → γ → γ) (sep : χ) (type : PathType)
    (h : NodeHeap χ) : Nat → Nat → List χ → γ → Option (List χ × γ)
  | 0, _, _, _ => none
  | depth + 1, a, currentPath, paths => do
    let parent ← h a
    let (currentPath, paths) ← getPathsAll (doGetPathsInto emplace sep type h depth)
      parent.children (currentPath ++ parent.value.myName ++ [sep]) paths
    let currentPath := currentPath.dropLast
    let paths := if type.lists parent.children.isEmpty then emplace a currentPath paths else paths
    some (currentPath.take (currentPath.length - parent.value.myName.length), paths)

/-- `Get`, with one of the overloads. -/
def getInto (emplace : Nat → List χ → γ → γ) (sep : χ) (type : PathType) (depth : Nat)
    (h : NodeHeap χ) (root : Nat) (paths : γ) : Option γ := do
  let r ← h root
  let (_, paths) ← getPathsAll (doGetPathsInto emplace sep type h depth)
    r.children r.value.myName paths
  some paths

end Listing

/-- `generate_n` through an inserter: each value goes in front of the position, which
then moves behind it. -/
def generateN {α : Type} (value : α) : Nat → Nat → List α → List α
  | 0, _, container => container
  | n + 1, position, container =>
    generateN value n (position + 1) (container.insertIdx position value)

/-- The overload of `do_get_paths` for a `forward_list`. -/
def emplaceFront (_ : Nat) (currentPath : List χ) (paths : List (List χ)) : List (List χ) :=
  currentPath :: paths

/-- The overload for the other sequences: one value, through an inserter at `begin()`. -/
def insertAtBegin (_ : Nat) (currentPath : List χ) (paths : List (List χ)) : List (List χ) :=
  generateN currentPath 1 0 paths

/-- Tells also which node a path is put there for. -/
def emplaceLabelled (a : Nat) (currentPath : List χ) (paths : List (Nat × List χ)) :
    List (Nat × List χ) :=
  (a, currentPath) :: paths

/-- `Find`: the `Cached_` flag of the node, when there is one. -/
def find [DecidableEq χ] (sep : χ) (path : List χ) (h : NodeHeap χ) (root : Nat) :
    Option (Option Bool) := do
  match ← doFindNode sep path h root with
  | none => some none
  | some nodeToFind =>
    let node ← h nodeToFind
    some (some node.value.cached)

/-! ## What do_get_paths puts into the container -/

open CellTree

mutual
/-- The nodes that are listed, with their paths, in the order of the calls. -/
def emitted (sep : χ) (type : PathType) (currentPath : List χ) :
    CellTree (NodeData χ) → List (Nat × List χ)
  | .node a v ts => emittedAll sep type (currentPath ++ v.myName ++ [sep]) ts ++
      if type.lists ts.isEmpty then [(a, currentPath ++ v.myName)] else []

def emittedAll (sep : χ) (type : PathType) (currentPath : List χ) :
    List (CellTree (NodeData χ)) → List (Nat × List χ)
  | [] => []
  | t :: ts => emitted sep type currentPath t ++ emittedAll sep type currentPath ts
end

mutual
/-- `do_get_paths` leaves `CurrentPath` as it was. -/
theorem doGetPathsInto_eq {γ : Type} (emplace : Nat → List χ → γ → γ) (sep : χ)
    (type : PathType) (t : CellTree (NodeData χ)) {h : NodeHeap χ} {parent : Option Nat}
    {depth : Nat} (ht : Holds h parent t) (hdepth : t.height ≤ depth) (currentPath : List χ)
    (paths : γ) :
    doGetPathsInto emplace sep type h depth t.addr currentPath paths = some (currentPath,
      (emitted sep type currentPath t).foldl (fun paths e => emplace e.1 e.2 paths) paths) := by
  match t with
  | .node a v ts =>
    obtain ⟨hcell, hsubs⟩ := ht
    rw [height] at hdepth
    obtain ⟨depth, rfl⟩ : ∃ d, depth = d + 1 :=
      Nat.exists_eq_add_one_of_ne_zero (by omega)
    have hbelow := getPathsAll_eq emplace sep type ts hsubs (Nat.le_of_succ_le_succ hdepth)
      (currentPath ++ v.myName ++ [sep]) paths
    have hempty : (ts.map addr).isEmpty = ts.isEmpty := List.isEmpty_map
    rw [addr, doGetPathsInto, hcell]
    simp only [Option.bind_eq_bind, Option.bind_some, hbelow, hempty]
    rw [List.dropLast_concat, List.length_append, Nat.add_sub_cancel, List.take_left, emitted,
      List.foldl_append]
    split
    · rfl
    · rfl

theorem getPathsAll_eq {γ : Type} (emplace : Nat → List χ → γ → γ) (sep : χ) (type : PathType)
    (ts : List (CellTree (NodeData χ))) {h : NodeHeap χ} {parent : Option Nat} {depth : Nat}
    (hts : HoldsAll h parent ts) (hdepth : heightAll ts ≤ depth) (currentPath : List χ)
    (paths : γ) :
    getPathsAll (doGetPathsInto emplace sep type h depth) (ts.map addr) currentPath paths =
      some (currentPath, (emittedAll sep type currentPath ts).foldl
        (fun paths e => emplace e.1 e.2 paths) paths) := by
  match ts with
  | [] => rfl
  | t :: ts =>
    obtain ⟨ht, hts⟩ := hts
    rw [heightAll] at hdepth
    have hfirst := doGetPathsInto_eq emplace sep type t ht
      (Nat.le_trans (Nat.le_max_left _ _) hdepth) currentPath
    have hrest := getPathsAll_eq emplace sep type ts hts
      (Nat.le_trans (Nat.le_max_right _ _) hdepth) currentPath
    simp [getPathsAll, hfirst, hrest, emittedAll, List.foldl_append]
end

/-- What `Get` lists of a tree, in the order of the calls. -/
def emittedBelow (sep : χ) (type : PathType) (t : CellTree (NodeData χ)) :
    List (Nat × List χ) :=
  emittedAll sep type t.value.myName t.subs

theorem getInto_eq {γ : Type} (emplace : Nat → List χ → γ → γ) (sep : χ) (type : PathType)
    {h : NodeHeap χ} {parent : Option Nat} {t : CellTree (NodeData χ)} (ht : Holds h parent t)
    {depth : Nat} (hdepth : t.height ≤ depth) (paths : γ) :
    getInto emplace sep type depth h t.addr paths = some
      ((emittedBelow sep type t).foldl (fun paths e => emplace e.1 e.2 paths) paths) := by
  match t with
  | .node a v ts =>
    rw [height] at hdepth
    have hall := getPathsAll_eq emplace sep type ts ht.2 (Nat.le_of_succ_le hdepth) v.myName paths
    rw [getInto, ht.cell]
    simp only [Option.bind_eq_bind, Option.bind_some, CellTree.value, CellTree.subs, hall]
    rfl

theorem getInto_emplaceFront (sep : χ) (type : PathType) {h : NodeHeap χ} {parent : Option Nat}
    {t : CellTree (NodeData χ)} (ht : Holds h parent t) {depth : Nat} (hdepth : t.height ≤ depth)
    (paths : List (List χ)) :
    getInto emplaceFront sep type depth h t.addr paths =
      some (((emittedBelow sep type t).map Prod.snd).reverse ++ paths) := by
  rw [getInto_eq _ sep type ht hdepth]
  exact congrArg some List.foldl_flip_cons_eq_append

theorem getInto_insertAtBegin (sep : χ) (type : PathType) (depth : Nat) (h : NodeHeap χ)
    (root : Nat) (paths : List (List χ)) :
    getInto insertAtBegin sep type depth h root paths =
      getInto emplaceFront sep type depth h root paths := by
  have hsame : insertAtBegin = emplaceFront (χ := χ) := rfl
  rw [hsame]

theorem getInto_emplaceLabelled (sep : χ) (type : PathType) {h : NodeHeap χ}
    {parent : Option Nat} {t : CellTree (NodeData χ)} (ht : Holds h parent t) {depth : Nat}
    (hdepth : t.height ≤ depth) (paths : List (Nat × List χ)) :
    getInto emplaceLabelled sep type depth h t.addr paths =
      some ((emittedBelow sep type t).reverse ++ paths) := by
  rw [getInto_eq _ sep type ht hdepth, ← List.foldl_flip_cons_eq_append']
  rfl

mutual
theorem map_snd_emitted (sep : χ) (type : PathType) (currentPath : List χ)
    (t : CellTree (NodeData χ)) : (emitted sep type currentPath t).map Prod.snd =
      (Node.listedPaths type (erase t)).map (Node.pathText sep currentPath) := by
  match t with
  | .node a v ts =>
    have hempty : (eraseAll ts).isEmpty = ts.isEmpty := by
      rw [eraseAll_eq_map, List.isEmpty_map]
    rw [emitted, erase, Node.listedPaths, List.map_append, List.map_append,
      map_snd_emittedAll sep type _ ts, Node.map_pathText_cons, hempty]
    split
    · rfl
    · rfl

theorem map_snd_emittedAll (sep : χ) (type : PathType) (currentPath : List χ)
    (ts : List (CellTree (NodeData χ))) : (emittedAll sep type currentPath ts).map Prod.snd =
      (Node.listedPathsAll type (eraseAll ts)).map (Node.pathText sep currentPath) := by
  match ts with
  | [] => rfl
  | t :: ts =>
    rw [emittedAll, eraseAll, Node.listedPathsAll, List.map_append, List.map_append,
      map_snd_emitted sep type currentPath t, map_snd_emittedAll sep type currentPath ts]
end

/-- `Get` on the heap is `Get` on the tree as a value. -/
theorem get_erase (sep : χ) (type : PathType) {h : NodeHeap χ} {parent : Option Nat}
    {t : CellTree (NodeData χ)} (ht : Holds h parent t) {depth : Nat} (hdepth : t.height ≤ depth)
    (paths : List (List χ)) :
    getInto emplaceFront sep type depth h t.addr paths =
      some (Node.get sep type (erase t) paths) := by
  rw [getInto_emplaceFront sep type ht hdepth, Node.get_eq, emittedBelow, map_snd_emittedAll,
    myName_erase, myChildrens_erase, eraseAll_eq_map]

mutual
/-- With `GENERIC` every node is listed once. -/
theorem map_fst_emitted (sep : χ) (currentPath : List χ) (t : CellTree (NodeData χ)) :
    ((emitted sep .GENERIC currentPath t).map Prod.fst).Perm t.addrs := by
  match t with
  | .node a v ts =>
    have hbelow := map_fst_emittedAll sep (currentPath ++ v.myName ++ [sep]) ts
    rw [emitted, List.map_append, addrs]
    exact (hbelow.append_right [a]).trans List.perm_append_comm

theorem map_fst_emittedAll (sep : χ) (currentPath : List χ) (ts : List (CellTree (NodeData χ))) :
    ((emittedAll sep .GENERIC currentPath ts).map Prod.fst).Perm (addrsAll ts) := by
  match ts with
  | [] => exact List.Perm.refl _
  | t :: ts =>
    rw [emittedAll, List.map_append, addrsAll]
    exact (map_fst_emitted sep currentPath t).append (map_fst_emittedAll sep currentPath ts)
end

theorem perm_append_append_comm {α : Type} (as bs cs ds : List α) :
    (as ++ bs ++ (cs ++ ds)).Perm (as ++ cs ++ (bs ++ ds)) := by
  rw [List.append_assoc, List.append_assoc]
  exact (List.perm_append_comm_assoc bs cs ds).append_left as

mutual
/-- Every node is a file or a directory. -/
theorem emitted_perm (sep : χ) (currentPath : List χ) (t : CellTree (NodeData χ)) :
    (emitted sep .GENERIC currentPath t).Perm
      (emitted sep .FILE currentPath t ++ emitted sep .DIRECTORY currentPath t) := by
  match t with
  | .node a v ts =>
    have hbelow := emittedAll_perm sep (currentPath ++ v.myName ++ [sep]) ts
    have hself : ∀ e : Nat × List χ, [e].Perm
        ((if PathType.lists ts.isEmpty .FILE then [e] else []) ++
          if PathType.lists ts.isEmpty .DIRECTORY then [e] else []) := by
      intro e
      cases ts.isEmpty with
      | true => exact List.Perm.refl _
      | false => exact List.Perm.refl _
    rw [emitted, emitted, emitted]
    exact (hbelow.append (hself _)).trans (perm_append_append_comm _ _ _ _)

theorem emittedAll_perm (sep : χ) (currentPath : List χ) (ts : List (CellTree (NodeData χ))) :
    (emittedAll sep .GENERIC currentPath ts).Perm
      (emittedAll sep .FILE currentPath ts ++ emittedAll sep .DIRECTORY currentPath ts) := by
  match ts with
  | [] => exact List.Perm.refl _
  | t :: ts =>
    have hfirst := emitted_perm sep currentPath t
    have hrest := emittedAll_perm sep currentPath ts
    rw [emittedAll, emittedAll, emittedAll]
    exact (hfirst.append hrest).trans (perm_append_append_comm _ _ _ _)
end

/-! ## The way down and the way up -/

theorem uniq_erase_of_mem_subs {t : CellTree (NodeData χ)} (hu : (erase t).Uniq) :
    ∀ c ∈ t.subs, (erase c).Uniq := by
  intro c hc
  refine (Node.uniq_iff.mp hu).2 (erase c) ?_
  rw [myChildrens_erase]
  exact List.mem_map_of_mem hc

variable [DecidableEq χ]

/-- With unique names the child with a name is the one that is found. -/
theorem resolve_cons_of_mem {t c : CellTree (NodeData χ)} (hu : (erase t).Uniq)
    (hc : c ∈ t.subs) (p : List (List χ)) : resolve (c.value.myName :: p) t = resolve p c := by
  have hnodup : (t.subs.map fun s => s.value.myName).Nodup := by
    have hnames := (Node.uniq_iff.mp hu).1
    rw [myChildrens_erase, List.map_map] at hnames
    simpa only [Function.comp_def, myName_erase] using hnames
  have hfind : t.subs.find? (fun s => s.value.myName = c.value.myName) = some c := by
    obtain ⟨before, after, hsubs⟩ := List.append_of_mem hc
    rw [hsubs, List.map_append, List.map_cons, List.nodup_append] at hnodup
    refine List.find?_eq_some_iff_append.mpr ⟨by simp, before, after, hsubs, fun d hd => ?_⟩
    simpa using hnodup.2.2 _ (List.mem_map_of_mem hd) _ List.mem_cons_self
  rw [resolve, hfind]

mutual
theorem exists_resolve_of_mem_emitted {sep : χ} {type : PathType} {currentPath : List χ}
    {t : CellTree (NodeData χ)} (hu : (erase t).Uniq) {e : Nat × List χ}
    (he : e ∈ emitted sep type currentPath t) :
    ∃ p s, resolve p t = some s ∧ s.addr = e.1 ∧
      e.2 = Node.pathText sep currentPath (t.value.myName :: p) := by
  match t with
  | .node a v ts =>
    rw [emitted, List.mem_append] at he
    rcases he with hbelow | hself
    · obtain ⟨c, hc, p, s, hs, haddr, htext⟩ :=
        exists_resolve_of_mem_emittedAll (uniq_erase_of_mem_subs hu) hbelow
      exact ⟨c.value.myName :: p, s, (resolve_cons_of_mem hu hc p).trans hs, haddr, htext⟩
    · obtain ⟨-, he⟩ := List.mem_ite_nil_right.mp hself
      rw [List.mem_singleton.mp he]
      exact ⟨[], .node a v ts, rfl, rfl, rfl⟩

theorem exists_resolve_of_mem_emittedAll {sep : χ} {type : PathType} {currentPath : List χ}
    {ts : List (CellTree (NodeData χ))} (hu : ∀ c ∈ ts, (erase c).Uniq) {e : Nat × List χ}
    (he : e ∈ emittedAll sep type currentPath ts) :
    ∃ c ∈ ts, ∃ p s, resolve p c = some s ∧ s.addr = e.1 ∧
      e.2 = Node.pathText sep currentPath (c.value.myName :: p) := by
  match ts with
  | [] => cases he
  | t :: ts =>
    rw [List.forall_mem_cons] at hu
    rw [emittedAll, List.mem_append] at he
    rcases he with hfirst | hrest
    · exact ⟨t, List.mem_cons_self, exists_resolve_of_mem_emitted hu.1 hfirst⟩
    · obtain ⟨c, hc, hpath⟩ := exists_resolve_of_mem_emittedAll hu.2 hrest
      exact ⟨c, List.mem_cons_of_mem _ hc, hpath⟩
end

/-- A path that `Get` lists leads to the node it is listed for. -/
theorem exists_resolve_of_mem_emittedBelow {sep : χ} {type : PathType}
    {t : CellTree (NodeData χ)} (hu : (erase t).Uniq) {e : Nat × List χ}
    (he : e ∈ emittedBelow sep type t) :
    ∃ p s, p ≠ [] ∧ resolve p t = some s ∧ s.addr = e.1 ∧
      e.2 = Node.pathText sep t.value.myName p := by
  obtain ⟨c, hc, p, s, hs, haddr, htext⟩ :=
    exists_resolve_of_mem_emittedAll (uniq_erase_of_mem_subs hu) he
  exact ⟨c.value.myName :: p, s, List.cons_ne_nil _ _, (resolve_cons_of_mem hu hc p).trans hs,
    haddr, htext⟩

/-- The walk up gives the path that the node was resolved with. -/
theorem myPath_of_resolve {sep : χ} (owner : List χ) {h : NodeHeap χ}
    {t s : CellTree (NodeData χ)} (ht : Holds h none t) (hnodup : t.addrs.Nodup)
    {p : List (List χ)} (hne : p ≠ []) (hs : resolve p t = some s) {rounds : Nat}
    (hrounds : t.height ≤ rounds) :
    ∃ self, h s.addr = some self ∧
      myPath sep h rounds self [] = some (Node.pathText sep [sep] p) ∧
      localPathToMe sep owner h rounds self = some (owner ++ Node.pathText sep [sep] p) := by
  obtain ⟨parent, vs, as, hplaced, hnames, hheight⟩ := placed_of_resolve_root ht hnodup hne hs
  have hlt : vs.length < rounds := by
    have hpos : 0 < s.height := by
      cases s with
      | node a v ts => exact Nat.succ_pos _
    omega
  have hp : p = (vs.map NodeData.myName).reverse ++ [s.value.myName] := by
    rw [← List.reverse_cons, hnames, List.reverse_reverse]
  have htext : Node.pathText sep [sep] p =
      sep :: ((vs.map NodeData.myName).reverse.flatMap (· ++ [sep]) ++ s.value.myName) := by
    rw [hp, Node.pathText_eq_append, Node.pathText_append_singleton]
    rfl
  refine ⟨_, hplaced.holds.cell, ?_, ?_⟩
  · simp [myPath, pathToMe, walkParents_eq sep hplaced.climbs hlt, htext, Node.parentWalk_eq]
  · rw [localPathToMe_eq sep owner hplaced.climbs hlt rfl, Node.localPathToMe_eq, htext]

/-- `Find` with the text of a path finds the node that the path resolves to. -/
theorem find_of_resolve {sep : χ} {h : NodeHeap χ} {t s : CellTree (NodeData χ)}
    (ht : Holds h none t) (hwf : WellFormed sep (erase t)) {p : List (List χ)} (hne : p ≠ [])
    (hs : resolve p t = some s) :
    doFindNode sep (Node.pathText sep [sep] p) h t.addr = some (some s.addr) := by
  have hmem : p ∈ (erase t).paths := by
    show ((erase t).doFindPath p).isSome
    rw [doFindPath_erase, hs]
    rfl
  have hcomponents : Node.getComponents sep (Node.pathText sep [sep] p) = p :=
    Node.getComponents_pathText hne (Node.goodName_of_mem_paths hwf.named hmem) [sep] []
      fun b => Node.getComponents_cons_sep sep b
  rw [doFindNode_eq sep _ ht, hcomponents, if_neg hne, hs]
  rfl

/-- A path that `Get` lists for a node is the one found on the way up, and leads back to
the node. -/
theorem views_of_mem_emittedBelow {sep : χ} (owner : List χ) {h : NodeHeap χ}
    {t : CellTree (NodeData χ)} (ht : Holds h none t) (hnodup : t.addrs.Nodup)
    (hwf : WellFormed sep (erase t)) (hroot : t.value.myName = [sep]) {bound : Nat}
    (hbound : t.height ≤ bound) {type : PathType} {e : Nat × List χ}
    (he : e ∈ emittedBelow sep type t) :
    ∃ self, h e.1 = some self ∧ myPath sep h bound self [] = some e.2 ∧
      localPathToMe sep owner h bound self = some (owner ++ e.2) ∧
      doFindNode sep e.2 h t.addr = some (some e.1) ∧
      find sep e.2 h t.addr = some (some self.value.cached) := by
  obtain ⟨p, s, hne, hs, haddr, htext⟩ := exists_resolve_of_mem_emittedBelow hwf.uniq he
  rw [hroot] at htext
  obtain ⟨self, hself, hmyPath, hlocal⟩ := myPath_of_resolve owner ht hnodup hne hs hbound
  have hfind := find_of_resolve ht hwf hne hs
  rw [← htext, haddr] at hfind
  rw [haddr] at hself
  rw [← htext] at hmyPath hlocal
  refine ⟨self, hself, hmyPath, hlocal, hfind, ?_⟩
  rw [find, hfind]
  simp [hself]

/-- A node is listed with one path only. -/
theorem path_unique {sep : χ} {h : NodeHeap χ} {t : CellTree (NodeData χ)}
    (ht : Holds h none t) (hnodup : t.addrs.Nodup) (hwf : WellFormed sep (erase t))
    (hroot : t.value.myName = [sep]) {type : PathType} {a : Nat} {path path' : List χ}
    (hpath : (a, path) ∈ emittedBelow sep type t) (hpath' : (a, path') ∈ emittedBelow sep type t) :
    path = path' := by
  obtain ⟨self, hself, hmyPath, -⟩ :=
    views_of_mem_emittedBelow [] ht hnodup hwf hroot (Nat.le_refl _) hpath
  obtain ⟨self', hself', hmyPath', -⟩ :=
    views_of_mem_emittedBelow [] ht hnodup hwf hroot (Nat.le_refl _) hpath'
  obtain rfl := Option.some.inj (hself.symm.trans hself')
  exact Option.some.inj (hmyPath.symm.trans hmyPath')

/-- No path is listed twice. -/
theorem nodup_emittedBelow {sep : χ} {h : NodeHeap χ} {t : CellTree (NodeData χ)}
    (ht : Holds h none t) (hnodup : t.addrs.Nodup) (hwf : WellFormed sep (erase t))
    (hroot : t.value.myName = [sep]) :
    ((emittedBelow sep .GENERIC t).map Prod.snd).Nodup := by
  have hfst : ((emittedBelow sep .GENERIC t).map Prod.fst).Nodup := by
    refine (map_fst_emittedAll sep _ t.subs).nodup_iff.mpr ?_
    rw [addrs_eq] at hnodup
    exact hnodup.of_cons
  refine (List.Nodup.of_map _ hfst).map_on fun e he e' he' htext => ?_
  obtain ⟨self, hself, -, -, hfind, -⟩ :=
    views_of_mem_emittedBelow [] ht hnodup hwf hroot (Nat.le_refl _) he
  obtain ⟨self', hself', -, -, hfind', -⟩ :=
    views_of_mem_emittedBelow [] ht hnodup hwf hroot (Nat.le_refl _) he'
  rw [htext] at hfind
  exact Prod.ext (Option.some.inj (Option.some.inj (hfind.symm.trans hfind'))) htext

end NodeHeap

open NodeHeap in
/-- On every heap that holds a tree with unique names: both overloads put the same
sequence in front of what the container holds. With `GENERIC` each node but the root is
there once and no path twice, and these are the files and the directories. The path of a
node there is `MyPath`, the end of `LocalPathToMe`, and what `Find` finds the node with. -/
theorem path_views_agree [DecidableEq χ] {sep : χ} (owner : List χ) {h : NodeHeap χ}
    {t : CellTree (NodeData χ)} (ht : Holds h none t) (hnodup : t.addrs.Nodup)
    (hwf : WellFormed sep (erase t)) (hroot : t.value.myName = [sep]) {bound : Nat}
    (hbound : t.height ≤ bound) :
    ∃ listed : PathType → List (Nat × List χ),
      (∀ type, getInto emplaceLabelled sep type bound h t.addr [] = some (listed type) ∧
        ∀ paths, getInto emplaceFront sep type bound h t.addr paths =
            some ((listed type).map Prod.snd ++ paths) ∧
          getInto insertAtBegin sep type bound h t.addr paths =
            some ((listed type).map Prod.snd ++ paths)) ∧
      (∀ a ∈ t.addrs, a ≠ t.addr → ∃ self text, h a = some self ∧
        (∀ path, (a, path) ∈ listed .GENERIC ↔ path = text) ∧
        myPath sep h bound self [] = some text ∧
        localPathToMe sep owner h bound self = some (owner ++ text) ∧
        find sep text h t.addr = some (some self.value.cached)) ∧
      ((listed .GENERIC).map Prod.fst).Perm (t.addrs.erase t.addr) ∧
      ((listed .GENERIC).map Prod.snd).Nodup ∧
      (listed .GENERIC).Perm (listed .FILE ++ listed .DIRECTORY) ∧
      ((listed .FILE).map Prod.snd).Disjoint ((listed .DIRECTORY).map Prod.snd) := by
  have hfst : ((emittedBelow sep .GENERIC t).map Prod.fst).Perm (t.addrs.erase t.addr) := by
    rw [CellTree.addrs_eq, List.erase_cons_head]
    exact map_fst_emittedAll sep t.value.myName t.subs
  have hperm : (emittedBelow sep .GENERIC t).Perm
      (emittedBelow sep .FILE t ++ emittedBelow sep .DIRECTORY t) :=
    emittedAll_perm sep t.value.myName t.subs
  have hsnd := nodup_emittedBelow ht hnodup hwf hroot
  refine ⟨fun type => (emittedBelow sep type t).reverse, fun type => ⟨?_, fun paths => ?_⟩,
    fun a ha hne => ?_, ?_, ?_, ?_, ?_⟩
  · rw [getInto_emplaceLabelled sep type ht hbound, List.append_nil]
  · rw [getInto_insertAtBegin, getInto_emplaceFront sep type ht hbound, List.map_reverse]
    exact ⟨rfl, rfl⟩
  · obtain ⟨⟨_, text⟩, he, rfl⟩ := List.mem_map.mp
      (hfst.mem_iff.mpr ((List.mem_erase_of_ne hne).mpr ha))
    obtain ⟨self, hself, hmyPath, hlocal, -, hfind⟩ :=
      views_of_mem_emittedBelow owner ht hnodup hwf hroot hbound he
    refine ⟨self, text, hself, fun path => ?_, hmyPath, hlocal, hfind⟩
    rw [List.mem_reverse]
    constructor
    · exact fun hpath => path_unique ht hnodup hwf hroot hpath he
    · rintro rfl
      exact he
  · rw [List.map_reverse]
    exact (List.reverse_perm _).trans hfst
  · rw [List.map_reverse]
    exact List.nodup_reverse.mpr hsnd
  · refine (List.reverse_perm _).trans (hperm.trans ?_)
    exact (List.reverse_perm _).symm.append (List.reverse_perm _).symm
  · have hnodup' := (hperm.map Prod.snd).nodup_iff.mp hsnd
    rw [List.map_append] at hnodup'
    rw [List.map_reverse, List.map_reverse, List.disjoint_reverse_left,
      List.disjoint_reverse_right]
    exact List.disjoint_of_nodup_append hnodup'

/-- The directory `/a` with the cached file `/a/b`, next to the file `/c`. -/
theorem path_views_agree_directory :
    let h : NodeHeap Char
      | 0 => some ⟨⟨['/'], false⟩, none, [3, 1]⟩
      | 1 => some ⟨⟨['a'], false⟩, some 0, [2]⟩
      | 2 => some ⟨⟨['b'], true⟩, some 1, []⟩
      | 3 => some ⟨⟨['c'], false⟩, some 0, []⟩
      | _ => none
    ∃ listed, NodeHeap.getInto NodeHeap.emplaceLabelled '/' .GENERIC 3 h 0 [] = some listed ∧
      (2, "/a/b".toList) ∈ listed ∧ NodeHeap.find '/' "/a/b".toList h 0 = some (some true) := by
  intro h
  let t : CellTree (NodeData Char) := .node 0 ⟨['/'], false⟩
    [.node 3 ⟨['c'], false⟩ [], .node 1 ⟨['a'], false⟩ [.node 2 ⟨['b'], true⟩ []]]
  have ht : Holds h none t := by
    refine ⟨rfl, ⟨rfl, trivial⟩, ⟨rfl, ⟨rfl, trivial⟩, trivial⟩, trivial⟩
  let ops : List (VfsOp Char) :=
    [.Add "/a/b".toList, .SetCached "/a/b".toList true, .Add "/c".toList]
  have hops : EachStep (VfsOp.apply '/' "o".toList) (fun root op => op.KeepsNames '/' root)
      (Node.new ['/']) ops := by
    decide +kernel
  have hwf : WellFormed '/' (erase t) := wellFormed_of_exec hops rfl
  obtain ⟨listed, hlisted, hnode, -⟩ :=
    path_views_agree "o".toList ht (by decide) hwf rfl (show t.height ≤ 3 by decide)
  obtain ⟨self, text, hself, hpath, hmyPath, -, hfind⟩ := hnode 2 (by decide) (by decide)
  obtain rfl := Option.some.inj hself
  obtain rfl : "/a/b".toList = text := Option.some.inj hmyPath
  exact ⟨_, (hlisted .GENERIC).1, (hpath _).mpr rfl, hfind⟩

end FspServer
