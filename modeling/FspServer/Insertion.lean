import FspServer.Listing

/-!
# Add as set insertion

The node paths of a tree are what `Get` lists with `GENERIC`. `Add` of an absent
path is the insertion of the path and of the directories above it. `Add` of a
path that is already there is not: it puts a new node below the one that is there
(`add_inserts_iff`).
-/

namespace FspServer

open PathSet

variable {χ : Type}

namespace Node

/-- The component lists of all nodes, the root's `[]` included, whichever of them
`do_find_path` resolves. -/
def nodePaths (n : Node χ) : Set (List (List χ)) :=
  {q | q = [] ∨ q ∈ listedPathsAll .GENERIC n.myChildrens}

@[simp] theorem nil_mem_nodePaths (n : Node χ) : [] ∈ n.nodePaths := Or.inl rfl

theorem cons_mem_nodePaths {n : Node χ} {z : List χ} {q : List (List χ)} :
    z :: q ∈ n.nodePaths ↔ ∃ c ∈ n.myChildrens, c.myName = z ∧ q ∈ c.nodePaths := by
  show z :: q = [] ∨ z :: q ∈ listedPathsAll .GENERIC n.myChildrens ↔ _
  rw [or_iff_right (List.cons_ne_nil z q), mem_listedPathsAll]
  refine exists_congr fun c => and_congr_right fun _ => ?_
  rw [cons_mem_listedPaths, eq_comm (a := z)]
  refine and_congr_right fun _ => ?_
  cases q with
  | nil => simp [PathType.lists]
  | cons y q => simp [nodePaths]

@[simp] theorem nodePaths_new (name : List χ) : (new name).nodePaths = {[]} := by
  ext q
  cases q with
  | nil => simp
  | cons z q => simp [cons_mem_nodePaths]

theorem cons_mem_nodePaths_addChildren {n c : Node χ} {z : List χ} {q : List (List χ)} :
    z :: q ∈ (n.addChildren c).nodePaths ↔
      (c.myName = z ∧ q ∈ c.nodePaths) ∨ z :: q ∈ n.nodePaths := by
  simp [cons_mem_nodePaths]

variable [DecidableEq χ]

/-- Sibling names being unique, the node paths are the paths that resolve. -/
theorem nodePaths_eq_paths {n : Node χ} (h : n.Uniq) : n.nodePaths = n.paths := by
  ext q
  cases q with
  | nil => simp
  | cons z q =>
    show z :: q = [] ∨ z :: q ∈ listedPathsAll .GENERIC n.myChildrens ↔ _
    rw [mem_listedPathsAll_iff h]
    simp [PathType.Selects]

theorem mem_alterFirst_of_nodup {g : Node χ → Node χ} {cs : List (Node χ)}
    (hn : (cs.map myName).Nodup) {x : List χ} {c : Node χ}
    (hc : cs.find? (fun c => c.myName = x) = some c) {d : Node χ} :
    d ∈ alterFirst x (fun c => [g c]) cs ↔ d = g c ∨ (d ∈ cs ∧ d.myName ≠ x) := by
  rcases alterFirst_cases (fun c => [g c]) x cs with
    ⟨hcs, -⟩ | ⟨before, e, after, rfl, hbefore, he, h⟩
  · cases (find?_eq_none_iff.mpr hcs).symm.trans hc
  · obtain rfl : e = c := Option.some.inj ((find?_append_cons hbefore he).symm.trans hc)
    have hsiblings : ∀ d ∈ before ++ after, d.myName ≠ x := he ▸ ne_of_nodup hn
    simp only [h, List.mem_append, List.mem_cons, List.not_mem_nil, or_false]
    constructor
    · rintro ((hd | hd) | hd)
      · exact .inr ⟨.inl hd, hsiblings d (List.mem_append_left _ hd)⟩
      · exact .inl hd
      · exact .inr ⟨.inr (.inr hd), hsiblings d (List.mem_append_right _ hd)⟩
    · rintro (hd | ⟨hd | hd | hd, hdx⟩)
      · exact .inl (.inr hd)
      · exact .inl (.inl hd)
      · exact absurd (hd ▸ he) hdx
      · exact .inr hd

theorem cons_mem_nodePaths_updateChild {g : Node χ → Node χ}
    (hg : ∀ c, (g c).myName = c.myName) {n c : Node χ} (h : n.Uniq) {x : List χ}
    (hc : n.getChildren x = some c) {z : List χ} {q : List (List χ)} :
    z :: q ∈ (n.updateChild x g).nodePaths ↔
      if z = x then q ∈ (g c).nodePaths else z :: q ∈ n.nodePaths := by
  obtain ⟨hnodup, -⟩ := uniq_iff.mp h
  rw [cons_mem_nodePaths, updateChild, myChildrens_withChildrens]
  simp only [mem_alterFirst_of_nodup hnodup hc]
  have hcx : (g c).myName = x := (hg c).trans (getChildren_some hc).2
  by_cases hz : z = x
  · subst hz
    rw [if_pos rfl]
    constructor
    · rintro ⟨d, rfl | ⟨-, hdx⟩, hdz, hq⟩
      · exact hq
      · exact absurd hdz hdx
    · exact fun hq => ⟨g c, Or.inl rfl, hcx, hq⟩
  · rw [if_neg hz, cons_mem_nodePaths]
    constructor
    · rintro ⟨d, rfl | ⟨hd, -⟩, hdz, hq⟩
      · exact absurd (hdz.symm.trans hcx) hz
      · exact ⟨d, hd, hdz, hq⟩
    · rintro ⟨d, hd, hdz, hq⟩
      exact ⟨d, Or.inr ⟨hd, fun hdx => hz (hdz.symm.trans hdx)⟩, hdz, hq⟩

/-- `Add` of a path that is there adds one node below it, named like it. -/
theorem nodePaths_insertPath_of_mem {n : Node χ} (h : n.Uniq) {p : List (List χ)} (hne : p ≠ [])
    (hp : p ∈ n.paths) : (insertPath p n).nodePaths = {q | q ∈ n.nodePaths ∨ q = doubled p} := by
  induction p generalizing n with
  | nil => exact absurd rfl hne
  | cons x rest ih =>
    obtain ⟨c, hx, hrest⟩ := cons_mem_paths.mp hp
    obtain ⟨hcmem, hcx⟩ := getChildren_some hx
    have hbelow : ∀ q, x :: q ∈ n.nodePaths ↔ q ∈ c.nodePaths := by
      intro q
      rw [nodePaths_eq_paths h, nodePaths_eq_paths ((uniq_iff.mp h).2 c hcmem), cons_mem_paths]
      simp [hx]
    ext q
    rcases q with _ | ⟨z, q⟩
    · simp
    · cases rest with
      | nil =>
        rw [insertPath_last hx,
          cons_mem_nodePaths_updateChild (fun c => myName_addChildren c (new x)) h hx]
        by_cases hz : z = x
        · subst hz
          rw [if_pos rfl, Set.mem_ofPred_eq, hbelow]
          rcases q with _ | ⟨w, q⟩
          · simp
          · rw [cons_mem_nodePaths_addChildren, nodePaths_new, myName_new]
            simp [doubled, or_comm, eq_comm (a := z)]
        · rw [if_neg hz]
          simp [doubled, hz]
      | cons y p =>
        rw [insertPath_deeper hx, cons_mem_nodePaths_updateChild (myName_insertPath _) h hx]
        by_cases hz : z = x
        · subst hz
          rw [if_pos rfl, ih ((uniq_iff.mp h).2 c hcmem) (List.cons_ne_nil _ _) hrest]
          simp [hbelow, doubled_cons_cons]
        · rw [if_neg hz]
          simp [doubled_cons_cons, hz]

/-- A node that `do_add` was given a component for is not what it was. -/
theorem doAdd_ne {n : Node χ} {p left : List (List χ)} (hne : p ≠ []) :
    doAdd n p ≠ some (n, left) := by
  induction p generalizing n left with
  | nil => exact absurd rfl hne
  | cons x rest ih =>
    intro h
    obtain ⟨name, b, cs⟩ := n
    simp only [doAdd, Option.bind_eq_bind] at h
    obtain ⟨⟨cs', left'⟩, hloop, h⟩ := Option.bind_eq_some_iff.mp h
    rcases doAddLoop_cases hloop with ⟨rfl, hleft, -⟩ | ⟨c, c', rfl, hc, hfind, hadded⟩
    · -- a new child in front
      obtain ⟨y, left', rfl⟩ := List.exists_cons_of_ne_nil hleft
      simp only [Option.some.injEq, Prod.mk.injEq, Node.mk.injEq, true_and] at h
      exact List.cons_ne_self _ _ h.1
    · -- the child that was followed has changed
      simp only [Option.some.injEq, Prod.mk.injEq, Node.mk.injEq, true_and] at h
      have hsame : some c' = some c := by
        rw [← hc, ← h.1, hfind x, if_pos rfl]
      rw [Option.some.inj hsame] at hadded
      rcases hadded with ⟨-, hnew⟩ | ⟨hrest, left'', hadd⟩
      · have hcs := congrArg myChildrens hnew
        rw [myChildrens_addChildren] at hcs
        exact List.cons_ne_self _ _ hcs.symm
      · exact ih hrest hadd

/-- What inserting the path `p` makes of a tree. -/
structure Inserts (p : List (List χ)) (before after : Node χ) : Prop where
  paths : after.nodePaths = grow before.nodePaths p
  uniq : after.Uniq
  flags : ∀ q n, before.doFindPath q = some n →
    ∃ n', after.doFindPath q = some n' ∧ n'.cached = n.cached
  present : p ∈ before.paths → after = before

theorem inserts_nil {n : Node χ} (h : n.Uniq) : Inserts [] n n where
  paths := by
    ext q
    rw [mem_grow, List.prefix_nil]
    constructor
    · exact Or.inl
    · rintro (hq | rfl)
      · exact hq
      · exact nil_mem_nodePaths n
  uniq := h
  flags _ n hq := ⟨n, hq, rfl⟩
  present _ := rfl

theorem doubled_not_mem_paths {n : Node χ} {p : List (List χ)} (hp : p ∉ n.paths) :
    doubled p ∉ n.paths :=
  fun hd => hp (prefixClosed_paths n p (doubled p) (List.prefix_append _ _) hd)

theorem inserts_of_not_mem {n : Node χ} (h : n.Uniq) {p : List (List χ)} (hp : p ∉ n.paths) :
    Inserts p n (insertPath p n) := by
  have hne : p ≠ [] := fun hnil => hp (hnil ▸ nil_mem_paths n)
  have hdoubled := doubled_not_mem_paths hp
  have huniq := (uniq_insertPath h hne).mpr hdoubled
  refine ⟨?_, huniq, fun q m hq => ?_, fun hmem => absurd hmem hp⟩
  · rw [nodePaths_eq_paths huniq, nodePaths_eq_paths h, paths_insertPath_of_not_mem hp]
  · have hmem : q ∈ (insertPath p n).paths := by
      rw [paths_insertPath_of_not_mem hp]
      exact Or.inl (by simp [paths, hq])
    obtain ⟨m', hm'⟩ := Option.isSome_iff_exists.mp hmem
    have hmarked : q ∈ (insertPath p n).marked (· = true) ↔ q ∈ n.marked (· = true) := by
      rw [marked_insertPath (by simp) (Or.inr hdoubled)]
    refine ⟨m', hm', Bool.eq_iff_iff.mpr ?_⟩
    simpa [marked, hq, hm'] using hmarked

/-- `Add` of a path that is there adds a node, so it is no insertion. -/
theorem not_inserts_of_mem {n : Node χ} (h : n.Uniq) {p : List (List χ)} (hne : p ≠ [])
    (hp : p ∈ n.paths) : ¬ Inserts p n (insertPath p n) := by
  intro hins
  have hadd := doAdd_eq_insertPath h p
  rw [hins.present hp] at hadd
  exact doAdd_ne hne hadd

/-- A path that can be inserted: one without components, or one that is absent. -/
def Fresh (n : Node χ) (p : List (List χ)) : Prop := p = [] ∨ p ∉ n.paths

instance (n : Node χ) (p : List (List χ)) : Decidable (n.Fresh p) :=
  inferInstanceAs (Decidable (_ ∨ _))

theorem inserts_iff {n : Node χ} (h : n.Uniq) {p : List (List χ)} :
    Inserts p n (insertPath p n) ↔ n.Fresh p := by
  rcases Classical.em (p = []) with rfl | hne
  · exact iff_of_true (inserts_nil h) (Or.inl rfl)
  · rw [Fresh, or_iff_right hne]
    exact ⟨fun hins hp => not_inserts_of_mem h hne hp hins, inserts_of_not_mem h⟩

/-- The node paths after two insertions: the second path is already there when
it is a directory above the first one. -/
theorem nodePaths_insertPath_insertPath {n : Node χ} (h : n.Uniq) {p q : List (List χ)}
    (hp : n.Fresh p) (hq : n.Fresh q) :
    (insertPath q (insertPath p n)).nodePaths =
      {r | r ∈ grow (grow n.nodePaths p) q ∨ (q ≠ [] ∧ q <+: p ∧ r = doubled q)} := by
  have hins := (inserts_iff h).mpr hp
  have hthere : q ∈ (insertPath p n).paths ↔ q ∈ n.paths ∨ q <+: p := by
    rw [← nodePaths_eq_paths hins.uniq, hins.paths, nodePaths_eq_paths h, mem_grow]
  rcases Classical.em (q ≠ [] ∧ q <+: p) with ⟨hne, hpre⟩ | hfresh
  · rw [nodePaths_insertPath_of_mem hins.uniq hne (hthere.mpr (Or.inr hpre)), hins.paths]
    ext r
    simp only [Set.mem_ofPred_eq, mem_grow, hne, hpre, ne_eq, not_false_eq_true, true_and]
    refine or_congr_left (or_iff_left_of_imp fun hr => Or.inr (hr.trans hpre)).symm
  · have hfresh' : (insertPath p n).Fresh q := by
      rcases hq with hnil | hq
      · exact Or.inl hnil
      · refine Or.inr fun hmem => ?_
        have hpre := (hthere.mp hmem).resolve_left hq
        exact hfresh ⟨fun hnil => hq (hnil ▸ nil_mem_paths n), hpre⟩
    rw [((inserts_iff hins.uniq).mpr hfresh').paths, hins.paths]
    ext r
    refine (or_iff_left ?_).symm
    rintro ⟨hne, hpre, -⟩
    exact hfresh ⟨hne, hpre⟩

theorem doubled_mem_grow {n : Node χ} {p q : List (List χ)} (h : n.Uniq) (hp : n.Fresh p) :
    doubled p ∈ grow n.nodePaths q ↔ doubled p <+: q := by
  rw [mem_grow]
  rcases hp with rfl | hp
  · exact iff_of_true (Or.inr List.nil_prefix) List.nil_prefix
  · refine or_iff_right ?_
    rw [nodePaths_eq_paths h]
    exact doubled_not_mem_paths hp

/-- Adding a directory above an absent path after the path, or before it. -/
theorem nodePaths_comm_of_isPrefix {n : Node χ} (h : n.Uniq) {p q : List (List χ)}
    (hp : n.Fresh p) (hq : n.Fresh q) (hpq : p <+: q) (hne : p ≠ q) :
    (insertPath q (insertPath p n)).nodePaths = (insertPath p (insertPath q n)).nodePaths ↔
      doubled p <+: q := by
  have hqp : ¬ q <+: p := fun hqp => hne (hpq.eq_of_length_le hqp.length_le)
  rw [nodePaths_insertPath_insertPath h hp hq, nodePaths_insertPath_insertPath h hq hp,
    grow_comm n.nodePaths q p, grow_grow_of_isPrefix hpq, ← doubled_mem_grow h hp]
  constructor
  · intro heq
    rcases Classical.em (p = []) with rfl | hnil
    · exact Or.inr List.nil_prefix
    · have hmem : doubled p ∈ {r | r ∈ grow n.nodePaths q ∨ (p ≠ [] ∧ p <+: q ∧ r = doubled p)} :=
        Or.inr ⟨hnil, hpq, rfl⟩
      rw [← heq] at hmem
      exact hmem.resolve_right fun hbad => hqp hbad.2.1
  · intro hmem
    ext r
    have hleft : ¬ (q ≠ [] ∧ q <+: p ∧ r = doubled q) := fun hbad => hqp hbad.2.1
    have hright : p ≠ [] ∧ p <+: q ∧ r = doubled p → r ∈ grow n.nodePaths q :=
      fun hr => hr.2.2 ▸ hmem
    show _ ∨ _ ↔ _ ∨ _
    rw [or_iff_left hleft, or_iff_left_of_imp hright]

theorem nodePaths_comm_iff {n : Node χ} (h : n.Uniq) {p q : List (List χ)}
    (hp : n.Fresh p) (hq : n.Fresh q) :
    (insertPath q (insertPath p n)).nodePaths = (insertPath p (insertPath q n)).nodePaths ↔
      p = q ∨ ((p <+: q → doubled p <+: q) ∧ (q <+: p → doubled q <+: p)) := by
  rcases Classical.em (p = q) with rfl | hne
  · exact iff_of_true rfl (Or.inl rfl)
  · rw [or_iff_right hne]
    rcases Classical.em (p <+: q) with hpq | hpq
    · have hqp : ¬ q <+: p :=
        fun hqp => hne (hpq.eq_of_length (hpq.length_le.antisymm hqp.length_le))
      rw [nodePaths_comm_of_isPrefix h hp hq hpq hne]
      exact ⟨fun hd => ⟨fun _ => hd, fun hqp' => absurd hqp' hqp⟩, fun hd => hd.1 hpq⟩
    · rcases Classical.em (q <+: p) with hqp | hqp
      · rw [eq_comm, nodePaths_comm_of_isPrefix h hq hp hqp (Ne.symm hne)]
        exact ⟨fun hd => ⟨fun hpq' => absurd hpq' hpq, fun _ => hd⟩, fun hd => hd.2 hqp⟩
      · refine iff_of_true ?_ ⟨fun hpq' => absurd hpq' hpq, fun hqp' => absurd hqp' hqp⟩
        rw [nodePaths_insertPath_insertPath h hp hq, nodePaths_insertPath_insertPath h hq hp,
          grow_comm]
        simp only [hpq, hqp, false_and, and_false]

end Node

open Node RepresentationLemmas

variable [DecidableEq χ]

/-- On every well-formed tree: `Add` is set insertion exactly for a path that has
no component or is absent; adding the path again changes nothing only when it has
no component; two absent paths can be added in either order, except when one is a
directory above the other and the other does not repeat its last component. -/
theorem add_inserts_iff {sep : χ} {root : Node χ} (h : WellFormed sep root) (path : List χ) :
    ((∃ root', add sep path root = some root' ∧ Inserts (getComponents sep path) root root') ↔
      root.Fresh (getComponents sep path)) ∧
    ((add sep path root).bind (add sep path) = add sep path root ↔ getComponents sep path = []) ∧
    ∀ path', root.Fresh (getComponents sep path) → root.Fresh (getComponents sep path') →
      ((∃ a b, addAll sep [path, path'] root = some a ∧ addAll sep [path', path] root = some b ∧
          a.nodePaths = b.nodePaths) ↔
        getComponents sep path = getComponents sep path' ∨
          ((getComponents sep path <+: getComponents sep path' →
              doubled (getComponents sep path) <+: getComponents sep path') ∧
            (getComponents sep path' <+: getComponents sep path →
              doubled (getComponents sep path') <+: getComponents sep path))) := by
  refine ⟨?_, ?_, fun path' hp hq => ?_⟩
  · rw [add_eq h.uniq, ← inserts_iff h.uniq]
    simp
  · rw [add_eq h.uniq, Option.bind_some]
    constructor
    · intro hsame
      obtain ⟨⟨n, left⟩, hadd, rfl⟩ := Option.map_eq_some_iff.mp hsame
      by_contra hne
      exact doAdd_ne hne hadd
    · intro hnil
      rw [hnil, insertPath, add_eq h.uniq, hnil, insertPath]
  · have hafter := fun {path path' : List χ} (hp : root.Fresh (getComponents sep path)) =>
      show addAll sep [path, path'] root = some (insertPath (getComponents sep path')
          (insertPath (getComponents sep path) root)) by
        rw [addAll, add_eq h.uniq, Option.bind_some, addAll,
          add_eq ((inserts_iff h.uniq).mpr hp).uniq, Option.bind_some, addAll]
    rw [← nodePaths_comm_iff h.uniq hp hq, hafter hp, hafter hq]
    simp

/-- A file below one that is there. -/
theorem add_inserts_below :
    ∃ root', add '/' "/a/b".toList (.mk ['/'] false [new ['a']]) = some root' ∧
      Inserts ["a".toList, "b".toList] (.mk ['/'] false [new ['a']]) root' := by
  have hroot : WellFormed '/' (.mk ['/'] false [new ['a']]) :=
    ⟨.mk (by decide) (by simp [uniq_new]),
      .mk (by simp [GoodName]) (by simp [named_new])⟩
  exact (add_inserts_iff hroot "/a/b".toList).1.mpr (by decide)

/-- Adding the file `/f` again puts a file `f` below it. -/
theorem add_present_adds :
    (Node.mk ['/'] false [new ['f']]).Uniq ∧
      get '/' .GENERIC (.mk ['/'] false [new ['f']]) [] = ["/f".toList] ∧
      (add '/' "/f".toList (.mk ['/'] false [new ['f']])).map (get '/' .GENERIC · []) =
        some ["/f".toList, "/f/f".toList] ∧
      ¬ ∃ root', add '/' "/f".toList (.mk ['/'] false [new ['f']]) = some root' ∧
        Inserts ["f".toList] (.mk ['/'] false [new ['f']]) root' := by
  have huniq : (Node.mk ['/'] false [new ['f']]).Uniq := .mk (by decide) (by simp [uniq_new])
  refine ⟨huniq, by decide, by decide, ?_⟩
  rintro ⟨root', hadd, hins⟩
  rw [add_eq huniq] at hadd
  obtain rfl := Option.some.inj hadd
  exact not_inserts_of_mem huniq (by decide) (by decide) hins

end FspServer
