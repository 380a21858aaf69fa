import FspServer.NodeStore

/-!
# What the tree is for

Seen from outside, the tree of the files that a client shares is a set of paths, some of
which are stored on the server: a `PathSet.Store`. `VfsCall.runStore` says what a call means
there, in terms of the set alone.

* `run_refines`: as long as sibling names stay unique, a call on a well-formed tree means
  what it means for the store. A listing has each selected path once, and `Remove` deletes
  the file of each stored path at or below the path once (`Shows`).
* `nodeStore_implements`: with the refinement of the linked nodes to the tree, every
  sequence of such calls on the linked nodes of a new tree behaves like the store.
-/

namespace FspServer

open LinkedTree PathSet Runs Node RepresentationLemmas CacheLemmas

variable {χ : Type}

/-! ## Lists of paths without duplicates -/

namespace Node

/-- Paths below siblings with different names are different. -/
theorem nodup_flatMap_of_names {cs : List (Node χ)} (hnames : (cs.map myName).Nodup)
    {F : Node χ → List (List (List χ))} (hF : ∀ c ∈ cs, (F c).Nodup)
    (hstart : ∀ c ∈ cs, ∀ q ∈ F c, q.head? = some c.myName) : (cs.flatMap F).Nodup := by
  refine List.nodup_flatMap.mpr ⟨hF, ?_⟩
  refine (List.pairwise_map.mp hnames).imp_of_mem fun {c d} hc hd hname => ?_
  intro q hqc hqd
  have hheads := (hstart c hc q hqc).symm.trans (hstart d hd q hqd)
  exact hname (Option.some.inj hheads)

theorem listedPathsAll_eq_flatMap (type : PathType) (cs : List (Node χ)) :
    listedPathsAll type cs = cs.flatMap (listedPaths type) := by
  induction cs with
  | nil => rfl
  | cons c cs ih => rw [listedPathsAll, ih, List.flatMap_cons]

theorem cachedPathsAll_eq_flatMap (cs : List (Node χ)) :
    cachedPathsAll cs = cs.flatMap cachedPaths := by
  induction cs with
  | nil => rfl
  | cons c cs ih => rw [cachedPathsAll, ih, List.flatMap_cons]

theorem head?_of_mem_listedPaths {type : PathType} {n : Node χ} {q : List (List χ)}
    (hq : q ∈ listedPaths type n) : q.head? = some n.myName := by
  obtain ⟨x, p, rfl⟩ := List.exists_cons_of_ne_nil (ne_nil_of_mem_listedPaths hq)
  rw [List.head?_cons, (cons_mem_listedPaths.mp hq).1]

theorem head?_of_mem_cachedPaths {n : Node χ} {q : List (List χ)} (hq : q ∈ n.cachedPaths) :
    q.head? = some n.myName := by
  obtain ⟨name, c, cs⟩ := n
  rw [cachedPaths, List.mem_append] at hq
  rcases hq with hq | hq
  · rw [List.mem_singleton.mp (List.mem_ite_nil_right.mp hq).2]
    rfl
  · obtain ⟨p, -, rfl⟩ := List.mem_map.mp hq
    rfl

/-- No path is listed twice. -/
theorem nodup_listedPaths (type : PathType) {n : Node χ} (h : n.Uniq) :
    (listedPaths type n).Nodup := by
  induction h with
  | @mk name b cs hnodup hcs ih =>
    rw [listedPaths, listedPathsAll_eq_flatMap, List.nodup_append]
    refine ⟨?_, ?_, ?_⟩
    · exact List.Nodup.map (fun _ _ heq => (List.cons.inj heq).2)
        (nodup_flatMap_of_names hnodup ih fun _ _ _ => head?_of_mem_listedPaths)
    · split
      · exact List.nodup_singleton _
      · exact List.nodup_nil
    · rintro q hq _ hself rfl
      obtain ⟨p, hp, rfl⟩ := List.mem_map.mp hq
      have hnil := List.mem_singleton.mp (List.mem_ite_nil_right.mp hself).2
      rw [← listedPathsAll_eq_flatMap] at hp
      exact ne_nil_of_mem_listedPathsAll hp (List.cons.inj hnil).2

theorem nodup_cachedPaths {n : Node χ} (h : n.Uniq) : n.cachedPaths.Nodup := by
  induction h with
  | @mk name b cs hnodup hcs ih =>
    have hbelow := nodup_flatMap_of_names hnodup ih fun _ _ _ => head?_of_mem_cachedPaths
    rw [cachedPaths, cachedPathsAll_eq_flatMap, List.nodup_append]
    refine ⟨?_, hbelow.map (fun _ _ heq => (List.cons.inj heq).2), ?_⟩
    · split
      · exact List.nodup_singleton _
      · exact List.nodup_nil
    · rintro q hself _ hq rfl
      obtain ⟨p, hp, rfl⟩ := List.mem_map.mp hq
      have hnil := List.mem_singleton.mp (List.mem_ite_nil_right.mp hself).2
      obtain ⟨c, -, hpc⟩ := List.mem_flatMap.mp hp
      have hhead := head?_of_mem_cachedPaths hpc
      rw [(List.cons.inj hnil).2] at hhead
      exact absurd hhead nofun

variable [DecidableEq χ]

/-- The listed cached nodes are the cached nodes. -/
theorem cons_mem_cachedPaths {n : Node χ} (h : n.Uniq) {x : List χ} {q : List (List χ)} :
    x :: q ∈ n.cachedPaths ↔ x = n.myName ∧ q ∈ n.marked (· = true) := by
  induction h generalizing x q with
  | @mk name b cs hnodup hcs ih =>
    have hself : x :: q ∈ (if b then [[name]] else [] : List (List (List χ))) ↔
        b = true ∧ x = name ∧ q = [] := by
      cases b <;> simp
    rw [cachedPaths, cachedPathsAll_eq_flatMap, List.mem_append, hself, List.mem_map]
    cases q with
    | nil =>
      have hbelow : ¬ ∃ a ∈ cs.flatMap cachedPaths, name :: a = [x] := by
        rintro ⟨a, ha, heq⟩
        obtain ⟨c, -, hac⟩ := List.mem_flatMap.mp ha
        have hhead := head?_of_mem_cachedPaths hac
        rw [(List.cons.inj heq).2] at hhead
        exact absurd hhead nofun
      simp only [hbelow, or_false, nil_mem_marked, cached, myName]
      exact ⟨fun hq => ⟨hq.2.1, hq.1⟩, fun hq => ⟨hq.2, hq.1, trivial⟩⟩
    | cons y q =>
      rw [cons_mem_marked]
      simp only [getChildren_eq_some_iff (.mk hnodup hcs), reduceCtorEq, and_false, false_or,
        myName, myChildrens]
      constructor
      · rintro ⟨a, ha, heq⟩
        obtain ⟨rfl, rfl⟩ := List.cons.inj heq
        obtain ⟨c, hc, hac⟩ := List.mem_flatMap.mp ha
        obtain ⟨rfl, hq⟩ := (ih c hc).mp hac
        exact ⟨rfl, c, ⟨hc, rfl⟩, hq⟩
      · rintro ⟨rfl, c, ⟨hc, rfl⟩, hq⟩
        exact ⟨_, List.mem_flatMap.mpr ⟨c, hc, (ih c hc).mpr ⟨rfl, hq⟩⟩, rfl⟩

end Node

/-! ## The calls on a store -/

/-- What a call says of the store. -/
inductive StoreResult (χ : Type) where
  | done
  | returned (result : Bool)
  | paths (S : Set (List (List χ)))
  | found (cached : Option Bool)

/-- What a call does to the files of the stored paths. -/
inductive StoreEffect (χ : Type) where
  | nothing
  | removes (S : Set (List (List χ)))
  | renames (p : List (List χ)) (name : List χ)

/-- The local file of a path. -/
def localFile (sep : χ) (owner : List χ) (p : List (List χ)) : List χ :=
  owner ++ sep :: pathText sep [] p

/-- A result on the tree is one on the store: a set of paths is a list of their texts, in
some order, that has each once. -/
inductive ShowsResult (sep : χ) (rootName : List χ) : VfsResult χ → StoreResult χ → Prop
  | done : ShowsResult sep rootName .done .done
  | returned (result : Bool) : ShowsResult sep rootName (.returned result) (.returned result)
  | paths {L : List (List (List χ))} {S : Set (List (List χ))} :
      L.Nodup → (∀ q, q ∈ L ↔ q ∈ S) →
        ShowsResult sep rootName (.paths (L.map (pathText sep rootName))) (.paths S)
  | found (cached : Option Bool) : ShowsResult sep rootName (.found cached) (.found cached)

variable [DecidableEq χ]

/-- Calls of the file system have an effect: each file of a set is removed once. -/
inductive ShowsEffect (sep : χ) (owner : List χ) : List (DiskOp χ) → StoreEffect χ → Prop
  | nothing : ShowsEffect sep owner [] .nothing
  | removes {L : List (List (List χ))} {S : Set (List (List χ))} :
      L.Nodup → (∀ q, q ∈ L ↔ q ∈ S) →
        ShowsEffect sep owner (L.map fun q => .remove (localFile sep owner q)) (.removes S)
  | renames (p : List (List χ)) (name : List χ) :
      ShowsEffect sep owner [.rename (localFile sep owner p)
        (newLocalPath sep (localFile sep owner p) name)] (.renames p name)

/-- What a call puts out, on the tree and on the store. -/
def Shows (sep : χ) (owner rootName : List χ) (o : VfsOutput χ)
    (o' : StoreResult χ × StoreEffect χ) : Prop :=
  ShowsResult sep rootName o.1 o'.1 ∧ ShowsEffect sep owner o.2 o'.2

open scoped Classical in
/-- A call on a store. `Add` of a path that is there adds a copy of its last name below
it. -/
noncomputable def VfsCall.runStore (sep : χ) (s : Store (List χ)) :
    VfsCall χ → Store (List χ) × StoreResult χ × StoreEffect χ
  | .Add path =>
    let p := getComponents sep path
    (s.add (if p ∈ s.paths then doubled p else p), .done, .nothing)
  | .Get type => (s, .paths {q | s.Entry q ∧ type.Selects s.paths q}, .nothing)
  | .Find path =>
    let p := getComponents sep path
    (s, .found (if s.Entry p then some (decide (p ∈ s.flagged)) else none), .nothing)
  | .Remove path =>
    if hp : s.Entry (getComponents sep path) then
      (s.remove hp, .returned true, .removes {q ∈ s.flagged | getComponents sep path <+: q})
    else (s, .returned false, .nothing)
  | .Rename path newPath =>
    let p := getComponents sep path
    let name := filename sep newPath
    if s.Entry p ∧ name ≠ [] then
      (s.rename p name, .returned true, if p ∈ s.flagged then .renames p name else .nothing)
    else (s, .returned false, .nothing)
  | .SetCached path cached =>
    if hp : s.Entry (getComponents sep path) then
      (s.setFlag hp cached, .returned true, .nothing)
    else (s, .returned false, .nothing)
  | .Empty => (s, .returned (decide (s.paths = {[]})), .nothing)

/-- The calls after which sibling names are still unique: no `Add` of a path that is there
with a child that repeats its last name, and no `Rename` to the name of a sibling. -/
def VfsCall.KeepsNames (sep : χ) (s : Store (List χ)) : VfsCall χ → Prop
  | .Add path => getComponents sep path = [] ∨ doubled (getComponents sep path) ∉ s.paths
  | .Rename path newPath =>
    let p := getComponents sep path
    ¬ s.Entry p ∨ filename sep newPath = [] ∨ p.getLast? = some (filename sep newPath) ∨
      p.dropLast ++ [filename sep newPath] ∉ s.paths
  | _ => True

/-- A well-formed tree whose nodes and cached nodes are those of the store. -/
structure Denotes (sep : χ) (rootName : List χ) (n : Node χ) (s : Store (List χ)) : Prop where
  wellFormed : WellFormed sep n
  name : n.myName = rootName
  paths : n.paths = s.paths
  cached : n.marked (· = true) = s.flagged

theorem denotes_new (sep : χ) (rootName : List χ) :
    Denotes sep rootName (new rootName) (Store.empty (List χ)) where
  wellFormed := wellFormed_new sep rootName
  name := rfl
  paths := paths_new rootName
  cached := by
    ext q
    cases q with
    | nil => simp [Store.empty, new, Node.cached]
    | cons x q => simp [Store.empty, cons_mem_marked, getChildren, new, myChildrens]

section
variable {sep : χ} {owner rootName : List χ} {n : Node χ} {s : Store (List χ)}

theorem not_entry_iff (h : n.paths = s.paths) (path : List χ) :
    doFindNode sep path n = none ↔ ¬ s.Entry (getComponents sep path) := by
  rw [doFindNode, Store.Entry, ← h]
  split
  · next hnil => simp [hnil]
  · next hcons => simp [hcons, Node.paths]

theorem entry_of_doFindNode (h : n.paths = s.paths) {path : List χ} {c : Node χ}
    (hc : doFindNode sep path n = some c) : s.Entry (getComponents sep path) :=
  ⟨(doFindNode_some hc).1, h ▸ mem_paths_of_doFindNode hc⟩

/-- The flag of a node that is found. -/
theorem cached_iff_of_doFindNode (h : n.marked (· = true) = s.flagged) {path : List χ}
    {c : Node χ} (hc : doFindNode sep path n = some c) :
    c.cached = true ↔ getComponents sep path ∈ s.flagged := by
  rw [← h, ← nil_mem_marked (m := (· = true)), ← mem_marked_of_append (doFindNode_some hc).2,
    List.append_nil]

/-- `LocalPathToMe` of a node that is found. -/
theorem localPathToMe_of_doFindNode (owner : List χ) {path : List χ} {c : Node χ}
    (hc : doFindNode sep path n = some c) :
    localPathToMe sep owner (getComponents sep path).dropLast.reverse c.myName [] =
      localFile sep owner (getComponents sep path) := by
  obtain ⟨hne, hfind⟩ := doFindNode_some hc
  rw [localPathToMe_eq, List.reverse_reverse, ← pathText_append_singleton,
    dropLast_append_myName hne hfind, localFile]

/-! ## Each call -/

open scoped Classical in
theorem denotes_add (h : Denotes sep rootName n s) {path : List χ}
    (hkeeps : VfsCall.KeepsNames sep s (.Add path)) :
    Denotes sep rootName (insertPath (getComponents sep path) n)
      (s.add (if getComponents sep path ∈ s.paths then doubled (getComponents sep path)
        else getComponents sep path)) where
  wellFormed := (wellFormed_add h.wellFormed path).mpr (h.paths ▸ hkeeps)
  name := (myName_insertPath _ n).trans h.name
  paths := by
    have hpaths : n.paths = s.paths := h.paths
    show _ = grow s.paths _
    split
    · next hp =>
      rw [grow_doubled_of_mem s.closed hp, ← hpaths]
      rcases eq_or_ne (getComponents sep path) [] with hnil | hne
      · ext q
        rw [hnil]
        exact ⟨Or.inl, fun hq => hq.elim id fun hq => hq ▸ nil_mem_paths n⟩
      · exact paths_insertPath_of_mem hne (hpaths ▸ hp)
          (hpaths ▸ hkeeps.resolve_left hne)
    · next hp =>
      rw [paths_insertPath_of_not_mem (hpaths ▸ hp), hpaths]
  cached := (marked_insertPath (by simp) (h.paths ▸ hkeeps)).trans h.cached

theorem denotes_remove (h : Denotes sep rootName n s) (owner : List χ) {path : List χ}
    {c : Node χ} (hc : doFindNode sep path n = some c) :
    Denotes sep rootName (alterAt (fun _ => []) (getComponents sep path) n)
      (s.remove (entry_of_doFindNode h.paths hc)) where
  wellFormed := by
    have hremove := wellFormed_remove h.wellFormed owner path
    rwa [remove, hc] at hremove
  name := (myName_alterAt _ _ n).trans h.name
  paths := by
    rw [paths_alterAt_delete h.wellFormed.uniq (doFindNode_some hc).1, h.paths]
    rfl
  cached := by
    rw [marked_alterAt_delete h.wellFormed.uniq (doFindNode_some hc).1, h.cached]
    rfl

theorem denotes_rename (h : Denotes sep rootName n s) (owner : List χ) {path newPath : List χ}
    (hkeeps : VfsCall.KeepsNames sep s (.Rename path newPath))
    {c : Node χ} (hc : doFindNode sep path n = some c) (hname : filename sep newPath ≠ []) :
    Denotes sep rootName
      (alterAt (fun c => [c.setName (filename sep newPath)]) (getComponents sep path) n)
      (s.rename (getComponents sep path) (filename sep newPath)) := by
  have hfound := mem_paths_of_doFindNode hc
  have hfree : RenameFree n (getComponents sep path) (filename sep newPath) := by
    rw [RenameFree, h.paths]
    exact (hkeeps.resolve_left (not_not_intro (entry_of_doFindNode h.paths hc))).resolve_left hname
  refine ⟨?_, (myName_alterAt _ _ n).trans h.name, ?_, ?_⟩
  · have hrename := (wellFormed_rename h.wellFormed owner path newPath).mpr (.inr (.inr hfree))
    simpa only [rename, hc, if_neg hname] using hrename
  · rw [paths_alterAt_setName h.wellFormed.uniq (doFindNode_some hc).1 hfound hfree, h.paths]
    rfl
  · rw [marked_alterAt_setName h.wellFormed.uniq (doFindNode_some hc).1 hfound hfree, h.cached]
    rfl

theorem denotes_setCached (h : Denotes sep rootName n s) (cached : Bool) {path : List χ}
    {c : Node χ} (hc : doFindNode sep path n = some c) :
    Denotes sep rootName (alterAt (fun c => [c.setCachedFlag cached]) (getComponents sep path) n)
      (s.setFlag (entry_of_doFindNode h.paths hc) cached) where
  wellFormed := by
    have hset := wellFormed_setCached h.wellFormed path cached
    rwa [setCached, hc] at hset
  name := (myName_alterAt _ _ n).trans h.name
  paths := (paths_of_shape_eq (shape_alterAt (shape_setCachedFlag cached) _ n)).trans h.paths
  cached := by
    ext q
    rw [mem_marked_alterAt_setCachedFlag (doFindNode_some hc).1 (mem_paths_of_doFindNode hc),
      h.cached]
    show _ ↔ (q = getComponents sep path ∧ cached = true) ∨ (q ≠ getComponents sep path ∧ _)
    split
    · next hq => simp [hq]
    · next hq => simp [hq]

/-- The listing of a tree that is well formed. -/
theorem shows_get (h : Denotes sep rootName n s) (type : PathType) :
    ShowsResult sep rootName (.paths (Node.get sep type n []))
      (.paths {q | s.Entry q ∧ type.Selects s.paths q}) := by
  rw [get_eq, List.append_nil, ← List.map_reverse, h.name]
  refine .paths (List.nodup_reverse.mpr ?_) fun q => ?_
  · rw [listedPathsAll_eq_flatMap]
    obtain ⟨hnodup, hcs⟩ := uniq_iff.mp h.wellFormed.uniq
    exact nodup_flatMap_of_names hnodup (fun c hc => nodup_listedPaths type (hcs c hc))
      fun _ _ _ => head?_of_mem_listedPaths
  · rw [List.mem_reverse, mem_listedPathsAll_iff h.wellFormed.uniq, h.paths, ← and_assoc]
    rfl

/-- The files that `Remove` deletes. -/
theorem shows_destroy (h : Denotes sep rootName n s) (owner : List χ) {path : List χ} {c : Node χ}
    (hc : doFindNode sep path n = some c) :
    ShowsEffect sep owner (destroy sep owner (getComponents sep path).dropLast.reverse c)
      (.removes {q ∈ s.flagged | getComponents sep path <+: q}) := by
  obtain ⟨hne, hfind⟩ := doFindNode_some hc
  have huniq := (wellFormed_doFindPath h.wellFormed hfind).uniq
  have hdestroy : destroy sep owner (getComponents sep path).dropLast.reverse c =
      (c.cachedPaths.map ((getComponents sep path).dropLast ++ ·)).map
        fun q => .remove (localFile sep owner q) := by
    rw [destroy_eq, localFiles_eq, List.reverse_reverse, List.map_map, List.map_map]
    rfl
  rw [hdestroy]
  refine .removes ((nodup_cachedPaths huniq).map fun _ _ => List.append_cancel_left) fun q => ?_
  have hself := dropLast_append_myName hne hfind
  rw [List.mem_map, ← h.cached]
  constructor
  · rintro ⟨r, hr, rfl⟩
    obtain ⟨r, rfl⟩ : ∃ r', r = c.myName :: r' :=
      List.head?_eq_some_iff.mp (head?_of_mem_cachedPaths hr)
    have hr' := (cons_mem_cachedPaths huniq).mp hr
    rw [List.append_cons, hself]
    exact ⟨(mem_marked_of_append hfind).mpr hr'.2, List.prefix_append _ _⟩
  · rintro ⟨hq, r, rfl⟩
    refine ⟨c.myName :: r, (cons_mem_cachedPaths huniq).mpr ⟨rfl, ?_⟩, ?_⟩
    · exact (mem_marked_of_append hfind).mp hq
    · rw [List.append_cons, hself]

theorem empty_iff (h : Denotes sep rootName n s) : n.empty = true ↔ s.paths = {[]} := by
  rw [← h.paths]
  show n.myChildrens.isEmpty = true ↔ _
  rw [← isLeaf_nil_paths h.wellFormed.uniq]
  constructor
  · intro hleaf
    ext q
    refine ⟨fun hq => ?_, fun hq => hq ▸ nil_mem_paths n⟩
    exact (hleaf.eq_of_isPrefix (prefixClosed_paths n) hq List.nil_prefix).symm
  · intro hpaths
    rw [hpaths]
    exact ⟨rfl, fun x => List.cons_ne_nil x []⟩

open scoped Classical in
/-- A call on a well-formed tree does what the call on the store does. -/
theorem run_refines (sep : χ) (owner rootName : List χ) :
    Refines (Denotes sep rootName) (Shows sep owner rootName)
      (fun s call => VfsCall.KeepsNames sep s call)
      (fun _ n call => VfsCall.run sep owner n call)
      (fun s call => some (VfsCall.runStore sep s call)) := by
  intro n s call h hkeeps
  refine ⟨0, VfsCall.run sep owner n call, fun _ _ => rfl, ?_⟩
  beta_reduce
  cases call with
  | Add path =>
    rw [VfsCall.run, add_eq h.wellFormed.uniq]
    exact .made (denotes_add h hkeeps) ⟨.done, .nothing⟩
  | Get type => exact .made h ⟨shows_get h type, .nothing⟩
  | Find path =>
    rw [VfsCall.run, VfsCall.runStore, Node.find]
    refine .made h ⟨?_, .nothing⟩
    cases hc : doFindNode sep path n with
    | none =>
      rw [if_neg ((not_entry_iff h.paths path).mp hc)]
      exact .found none
    | some c =>
      have hcached : c.cached = decide (getComponents sep path ∈ s.flagged) :=
        Bool.eq_iff_iff.mpr ((cached_iff_of_doFindNode h.cached hc).trans decide_eq_true_iff.symm)
      rw [if_pos (entry_of_doFindNode h.paths hc), ← hcached]
      exact .found (some c.cached)
  | Remove path =>
    rw [VfsCall.run, VfsCall.runStore, Node.remove]
    cases hc : doFindNode sep path n with
    | none =>
      rw [dif_neg ((not_entry_iff h.paths path).mp hc)]
      exact .made h ⟨.returned false, .nothing⟩
    | some c =>
      rw [dif_pos (entry_of_doFindNode h.paths hc)]
      exact .made (denotes_remove h owner hc) ⟨.returned true, shows_destroy h owner hc⟩
  | Rename path newPath =>
    rw [VfsCall.run, VfsCall.runStore, Node.rename]
    cases hc : doFindNode sep path n with
    | none =>
      rw [if_neg fun hp => (not_entry_iff h.paths path).mp hc hp.1]
      exact .made h ⟨.returned false, .nothing⟩
    | some c =>
      rcases eq_or_ne (filename sep newPath) [] with hnil | hname
      · simp only [hnil, if_true, ne_eq, not_true_eq_false, and_false, if_false]
        exact .made h ⟨.returned false, .nothing⟩
      · rw [if_pos ⟨entry_of_doFindNode h.paths hc, hname⟩]
        simp only [if_neg hname, localPathToMe_of_doFindNode owner hc,
          cached_iff_of_doFindNode h.cached hc]
        refine .made (denotes_rename h owner hkeeps hc hname) ⟨.returned true, ?_⟩
        rcases Classical.em (getComponents sep path ∈ s.flagged) with hp | hp
        · rw [if_pos hp, if_pos hp]
          exact .renames _ _
        · rw [if_neg hp, if_neg hp]
          exact .nothing
  | SetCached path cached =>
    rw [VfsCall.run, VfsCall.runStore, Node.setCached]
    cases hc : doFindNode sep path n with
    | none =>
      rw [dif_neg ((not_entry_iff h.paths path).mp hc)]
      exact .made h ⟨.returned false, .nothing⟩
    | some c =>
      rw [dif_pos (entry_of_doFindNode h.paths hc)]
      exact .made (denotes_setCached h cached hc) ⟨.returned true, .nothing⟩
  | Empty =>
    have hempty : n.empty = decide (s.paths = {[]}) :=
      Bool.eq_iff_iff.mpr ((empty_iff h).trans decide_eq_true_iff.symm)
    refine .made h ⟨?_, .nothing⟩
    rw [hempty]
    exact .returned _

end

/-! ## Sequences of calls -/

/-- For every allocator, next to anything else in memory, and for every sequence of calls
that keep sibling names unique: the calls on the linked nodes of a new tree can all be made,
and each puts out what the call on the store means. Afterwards the memory holds, next to
what was there before, a tree whose paths and cached paths are those of the store. -/
theorem nodeStore_implements (alloc : Allocator (NodeData χ)) (sep : χ)
    (owner rootName : List χ) {h₀ : NodeHeap χ} (hbounded : h₀.Bounded) {calls : List (VfsCall χ)}
    (hkeeps : EachStep (states fun s call => some (VfsCall.runStore sep s call))
      (fun s call => VfsCall.KeepsNames sep s call) (Store.empty (List χ)) calls) :
    ∃ N h os s os', (∀ bound, N ≤ bound →
        outputs (VfsCall.runOn alloc sep owner (NodeHeap.create alloc rootName h₀).1 bound)
          (NodeHeap.create alloc rootName h₀).2 calls = some (h, os)) ∧
      outputs (fun s call => some (VfsCall.runStore sep s call)) (Store.empty (List χ)) calls =
        some (s, os') ∧
      List.Forall₂ (Shows sep owner rootName) os os' ∧
      ∃ n, Represents h₀ (NodeHeap.create alloc rootName h₀).1 h n ∧
        Denotes sep rootName n s := by
  have hrefines := (runOn_refines alloc sep owner (NodeHeap.create alloc rootName h₀).1
    hbounded).comp (run_refines sep owner rootName)
  obtain ⟨N, r, hr, hmatches⟩ := hrefines.outputs
    ⟨_, create_represents alloc rootName hbounded, denotes_new sep rootName⟩ hkeeps
  simp only [exists_eq_left'] at hmatches
  have hmade : ∀ (s : Store (List χ)) (call : VfsCall χ),
      ∃ r, (fun s call => some (VfsCall.runStore sep s call)) s call = some r :=
    fun _ _ => ⟨_, rfl⟩
  obtain ⟨s, os', hstore⟩ := exists_outputs_eq_some hmade (Store.empty (List χ)) calls
  rw [hstore] at hmatches
  obtain ⟨h, os, rfl, hdenotes, hos⟩ := hmatches.of_some
  exact ⟨N, h, os, s, os', hr, hstore, hos, hdenotes⟩

/-- A file is added and stored, and its directory is removed. -/
theorem nodeStore_implements_stored_file :
    ∃ N h os s os', (∀ bound, N ≤ bound →
        outputs (VfsCall.runOn .first '/' "o".toList
            (NodeHeap.create .first ['/'] fun _ => none).1 bound)
          (NodeHeap.create .first ['/'] fun _ => none).2
          [.Add "/a/b".toList, .SetCached "/a/b".toList true, .Remove "/a".toList] =
            some (h, os)) ∧
      outputs (fun s call => some (VfsCall.runStore '/' s call)) (Store.empty (List Char))
        [.Add "/a/b".toList, .SetCached "/a/b".toList true, .Remove "/a".toList] = some (s, os') ∧
      List.Forall₂ (Shows '/' "o".toList ['/']) os os' ∧
      ∃ n, Represents (fun _ => none) (NodeHeap.create .first ['/'] fun _ => none).1 h n ∧
        Denotes '/' ['/'] n s :=
  nodeStore_implements .first '/' "o".toList ['/']
    (show Heap.Bounded fun _ => none from ⟨0, fun _ _ => rfl⟩)
    ⟨.inr (show ¬ doubled (getComponents '/' "/a/b".toList) = [] by decide),
      fun _ _ => ⟨trivial, fun _ _ => ⟨trivial, fun _ _ => trivial⟩⟩⟩

end FspServer
