import FspServer.Listing

/-!
# Which files a Remove takes from the listing

Whether a node is a file is not stored: `Get` with `FILE` lists the nodes without
children. `Remove` of the last entry of a directory therefore turns the directory
into a file. `remove_files_iff` says that this is the only way in which the listing
loses anything but the files at and below the path, or gains anything, in every
tree reached by updates.
-/

namespace FspServer

open PathSet Node Runs

variable {χ : Type} [DecidableEq χ]

namespace Node

/-- The components of the text of any names are those of the names. -/
theorem getComponents_pathText_nil (sep : χ) (q : List (List χ)) :
    getComponents sep (pathText sep [] q) = q.flatMap (getComponents sep) := by
  induction q with
  | nil => simp [pathText]
  | cons name rest ih =>
    cases rest with
    | nil => simp [pathText]
    | cons next rest =>
      rw [pathText, pathText_eq_append, List.nil_append, List.append_assoc, List.singleton_append,
        getComponents_append_cons, ih]
      rfl

theorem flatMap_getComponents_of_goodName {sep : χ} {q : List (List χ)}
    (hq : ∀ name ∈ q, GoodName sep name) : q.flatMap (getComponents sep) = q := by
  induction q with
  | nil => rfl
  | cons name q ih =>
    obtain ⟨hname, hrest⟩ := List.forall_mem_cons.mp hq
    rw [List.flatMap_cons, getComponents_of_goodName hname, ih hrest, List.singleton_append]

/-- The components of the names of a path can be read off its text. -/
theorem flatMap_getComponents_eq {sep : χ} {currentPath : List χ} {q q' : List (List χ)}
    (h : pathText sep currentPath q = pathText sep currentPath q') :
    q.flatMap (getComponents sep) = q'.flatMap (getComponents sep) := by
  rw [pathText_eq_append, pathText_eq_append sep currentPath q'] at h
  have hcomponents := congrArg (getComponents sep) (List.append_cancel_left h)
  rwa [getComponents_pathText_nil, getComponents_pathText_nil] at hcomponents

theorem pathText_injective {sep : χ} {currentPath : List χ} {q q' : List (List χ)}
    (hq : ∀ name ∈ q, GoodName sep name) (hq' : ∀ name ∈ q', GoodName sep name)
    (h : pathText sep currentPath q = pathText sep currentPath q') : q = q' := by
  have hnames := flatMap_getComponents_eq h
  rwa [flatMap_getComponents_of_goodName hq, flatMap_getComponents_of_goodName hq'] at hnames

/-- A text of a listing is that of the path or of one below it. -/
def AtOrBelow (sep : χ) (root : Node χ) (p : List (List χ)) (text : List χ) : Prop :=
  ∃ q, p <+: q ∧ text = pathText sep root.myName q

theorem atOrBelow_iff {sep : χ} {root : Node χ} {p q : List (List χ)}
    (hp : ∀ name ∈ p, GoodName sep name) (hq : ∀ name ∈ q, GoodName sep name) :
    AtOrBelow sep root p (pathText sep root.myName q) ↔ p <+: q := by
  constructor
  · rintro ⟨r, ⟨rest, rfl⟩, htext⟩
    have hnames := flatMap_getComponents_eq htext
    rw [List.flatMap_append, flatMap_getComponents_of_goodName hp,
      flatMap_getComponents_of_goodName hq] at hnames
    exact ⟨_, hnames.symm⟩
  · exact fun hpq => ⟨q, hpq, rfl⟩

/-- The files of a listing are the leaves of the set of paths. -/
theorem mem_get_file_iff {sep : χ} {root : Node χ} (h : WellFormed sep root) {text : List χ} :
    text ∈ get sep .FILE root [] ↔
      ∃ q, q ≠ [] ∧ IsLeaf root.paths q ∧ text = pathText sep root.myName q := by
  rw [get_file, List.append_nil, List.mem_reverse, List.mem_map]
  refine exists_congr fun q => ?_
  rw [mem_leafPathsAll_iff h.uniq, and_assoc, eq_comm (b := text)]

/-- The listed files after the removal of `p`: the ones not at or below it, and the
directory of `p` when nothing else was in it. -/
theorem mem_get_file_remove {sep : χ} {root root' : Node χ} (h : WellFormed sep root)
    (h' : WellFormed sep root') (hname : root'.myName = root.myName) {p d : List (List χ)}
    {x : List χ} (hpath : p = d ++ [x]) (hp : p ∈ root.paths)
    (hcut : root'.paths = cut root.paths p) (text : List χ) :
    text ∈ get sep .FILE root' [] ↔
      (text ∈ get sep .FILE root [] ∧ ¬ AtOrBelow sep root p text) ∨
        (d ≠ [] ∧ (∀ y, d ++ [y] ∈ root.paths → y = x) ∧ text = pathText sep root.myName d) := by
  subst hpath
  have hgood : ∀ {q}, q ∈ root.paths → ∀ name ∈ q, GoodName sep name :=
    fun hq => goodName_of_mem_paths h.named hq
  rw [mem_get_file_iff h', mem_get_file_iff h, hname, hcut]
  simp only [isLeaf_cut_iff (prefixClosed_paths root) hp]
  constructor
  · rintro ⟨q, hq, ⟨hleaf, hpre⟩ | ⟨rfl, honly⟩, rfl⟩
    · exact Or.inl ⟨⟨q, hq, hleaf, rfl⟩, fun hbelow =>
        hpre ((atOrBelow_iff (hgood hp) (hgood hleaf.1)).mp hbelow)⟩
    · exact Or.inr ⟨hq, honly, rfl⟩
  · rintro (⟨⟨q, hq, hleaf, rfl⟩, hbelow⟩ | ⟨hd, honly, rfl⟩)
    · refine ⟨q, hq, Or.inl ⟨hleaf, fun hpre => hbelow ?_⟩, rfl⟩
      exact (atOrBelow_iff (hgood hp) (hgood hleaf.1)).mpr hpre
    · exact ⟨d, hd, Or.inr ⟨rfl, honly⟩, rfl⟩

end Node

open RepresentationLemmas

/-- In every tree reached by updates whose sibling names are unique: a `Remove` that
succeeds takes from the listed files those at or below the path and changes nothing
else exactly when the node is a child of the root or not the only one of its
directory. -/
theorem remove_files_iff {sep : χ} {owner rootName : List χ} {root : Node χ}
    (hreach : Reach (VfsOp.apply sep owner) anyStep (new rootName) root) (huniq : root.Uniq)
    (path : List χ) (hremoved : (remove sep owner path root).1 = true) :
    (∀ text, text ∈ get sep .FILE (remove sep owner path root).2.1 [] ↔
        text ∈ get sep .FILE root [] ∧ ¬ AtOrBelow sep root (getComponents sep path) text) ↔
      (getComponents sep path).dropLast = [] ∨
        ∃ x, (getComponents sep path).getLast? ≠ some x ∧
          (getComponents sep path).dropLast ++ [x] ∈ root.paths := by
  have h : WellFormed sep root := ⟨huniq, named_of_reach hreach⟩
  have h' := wellFormed_remove h owner path
  cases hn : doFindNode sep path root with
  | none => simp [remove, hn] at hremoved
  | some n =>
    have hp := mem_paths_of_doFindNode hn
    have hne := (doFindNode_some hn).1
    simp only [remove, hn] at h' ⊢
    generalize getComponents sep path = p at h' hp hne ⊢
    obtain ⟨d, x, rfl⟩ : ∃ d x, p = d ++ [x] :=
      ⟨p.dropLast, p.getLast hne, (List.dropLast_append_getLast hne).symm⟩
    have hmem := mem_get_file_remove h h' (myName_alterAt _ _ _) rfl hp
      (paths_alterAt_delete huniq hne)
    simp only [hmem, List.dropLast_concat, List.getLast?_concat, ne_eq, Option.some.injEq]
    constructor
    · intro hall
      by_contra hnot
      rw [not_or] at hnot
      have honly : ∀ y, d ++ [y] ∈ root.paths → y = x := fun y hy =>
        Classical.not_not.mp fun hyx => hnot.2 ⟨y, fun hxy => hyx hxy.symm, hy⟩
      -- the directory is listed now, and was not a leaf before
      obtain ⟨hlisted, -⟩ := (hall (pathText sep root.myName d)).mp (Or.inr ⟨hnot.1, honly, rfl⟩)
      obtain ⟨q, -, hleaf, htext⟩ := (mem_get_file_iff h).mp hlisted
      have hd : d ∈ root.paths := prefixClosed_paths root _ _ (List.prefix_append _ _) hp
      have hdq : d = q := pathText_injective (goodName_of_mem_paths h.named hd)
        (goodName_of_mem_paths h.named hleaf.1) htext
      exact hleaf.2 x (hdq ▸ hp)
    · intro hother text
      refine or_iff_left ?_
      rintro ⟨hd, honly, -⟩
      obtain ⟨y, hxy, hy⟩ := hother.resolve_left hd
      exact hxy (honly y hy).symm

/-- `/a/b` is removed, `/a/c` stays. -/
theorem remove_files_ab : ∃ root, Reach (VfsOp.apply '/' "o".toList) anyStep (new ['/']) root ∧
    ∀ text, text ∈ get '/' .FILE (remove '/' "o".toList "/a/b".toList root).2.1 [] ↔
      text ∈ get '/' .FILE root [] ∧ ¬ AtOrBelow '/' root ["a".toList, "b".toList] text := by
  let ops : List (VfsOp Char) := [.Add "/a/b".toList, .Add "/a/c".toList]
  have hreach : Reach (VfsOp.apply '/' "o".toList) anyStep (new ['/'])
      (.mk ['/'] false [.mk ['a'] false [new ['c'], new ['b']]]) :=
    reach_of_exec (show exec (VfsOp.apply '/' "o".toList) (new ['/']) ops = _ from rfl)
  refine ⟨_, hreach, ?_⟩
  refine (remove_files_iff hreach ?_ "/a/b".toList (by decide)).mpr (Or.inr ⟨['c'], ?_, ?_⟩)
  · exact .mk (by decide) (by simpa using .mk (by decide) (by simp [uniq_new]))
  · decide
  · decide

/-- Removing the only file `b` of the directory `/a` makes a file of `/a`. -/
theorem remove_lists_directory :
    ∃ root, exec (VfsOp.apply '/' "o".toList) (new ['/']) [.Add "/a/b".toList] = some root ∧
      root.Uniq ∧ (remove '/' "o".toList "/a/b".toList root).1 = true ∧
      get '/' .FILE root [] = ["/a/b".toList] ∧
      get '/' .FILE (remove '/' "o".toList "/a/b".toList root).2.1 [] = ["/a".toList] := by
  refine ⟨.mk ['/'] false [.mk ['a'] false [new ['b']]], rfl, ?_, by decide, by decide, by decide⟩
  exact .mk (by decide) (by simpa using .mk (by decide) (by simp [uniq_new]))

end FspServer
