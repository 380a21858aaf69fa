import FspServer.TreePaths

/-!
# Names and texts of paths

A name of the tree is one path component: non-empty and without separator
(`Node.GoodName`). The components of any text are names, names survive every
update of the tree (`Node.Named`), and joining names with separators and
splitting the text again gives the names back.
-/

namespace FspServer

open PathSet

variable {χ : Type}

namespace Node

/-! ## Trees of names -/

theorem named_setName {sep : χ} {w : List χ} {n : Node χ} :
    (n.setName w).Named sep ↔ n.Named sep := by
  rw [named_iff, named_iff, myChildrens_setName]

theorem named_setCachedFlag {sep : χ} {flag : Bool} {n : Node χ} :
    (n.setCachedFlag flag).Named sep ↔ n.Named sep := by
  rw [named_iff, named_iff, myChildrens_setCachedFlag]

theorem named_addChildren {sep : χ} {n c : Node χ} (h : n.Named sep)
    (hname : GoodName sep c.myName) (hc : c.Named sep) : (n.addChildren c).Named sep := by
  obtain ⟨hn, hcs⟩ := named_iff.mp h
  rw [named_iff, myChildrens_addChildren]
  exact ⟨List.forall_mem_cons.mpr ⟨hname, hn⟩, List.forall_mem_cons.mpr ⟨hc, hcs⟩⟩

theorem named_newBranch {sep : χ} {x : List χ} {rest : List (List χ)}
    (h : ∀ y ∈ rest, GoodName sep y) : (newBranch x rest).Named sep := by
  induction rest generalizing x with
  | nil => exact named_new sep x
  | cons y p ih =>
    refine named_addChildren (named_new sep x) ?_ (ih fun z hz => h z (List.mem_cons_of_mem _ hz))
    rw [myName_newBranch]
    exact h y List.mem_cons_self

/-- The names of a list of siblings. -/
def NamedAll (sep : χ) (cs : List (Node χ)) : Prop :=
  ∀ c ∈ cs, GoodName sep c.myName ∧ c.Named sep

theorem named_iff_namedAll {sep : χ} {n : Node χ} : n.Named sep ↔ NamedAll sep n.myChildrens := by
  rw [named_iff, NamedAll]
  exact ⟨fun h c hc => ⟨h.1 c hc, h.2 c hc⟩,
    fun h => ⟨fun c hc => (h c hc).1, fun c hc => (h c hc).2⟩⟩

variable [DecidableEq χ]

/-- No piece of a split holds the separator. -/
theorem not_mem_of_mem_splitOn {sep : χ} {path piece : List χ}
    (h : piece ∈ path.splitOn sep) : sep ∉ piece := by
  induction path generalizing piece with
  | nil => simp_all [List.splitOn_nil]
  | cons a path ih =>
    rw [List.splitOn_cons_eq_if_modifyHead] at h
    split at h
    · rcases List.mem_cons.mp h with rfl | h
      · exact List.not_mem_nil
      · exact ih h
    · next ha =>
      obtain ⟨first, rest, hfr⟩ := List.exists_cons_of_ne_nil (List.splitOn_ne_nil sep path)
      rw [hfr, List.modifyHead_cons] at h
      rcases List.mem_cons.mp h with rfl | h
      · have hfirst : sep ∉ first := ih (hfr ▸ List.mem_cons_self)
        have hsep : sep ≠ a := fun hs => ha (by simp [hs])
        simp [hfirst, hsep]
      · exact ih (hfr ▸ List.mem_cons_of_mem _ h)

/-- The components of a path are names. -/
theorem goodName_of_mem_getComponents {sep : χ} {path name : List χ}
    (h : name ∈ getComponents sep path) : GoodName sep name := by
  obtain ⟨hmem, hne⟩ := List.mem_filter.mp h
  exact ⟨by simpa using hne, not_mem_of_mem_splitOn hmem⟩

/-- The pieces of a split are made of characters of the path. -/
theorem mem_of_mem_splitOn {sep : χ} {path piece : List χ} (h : piece ∈ path.splitOn sep) {c : χ}
    (hc : c ∈ piece) : c ∈ path := by
  induction path generalizing piece with
  | nil => simp_all [List.splitOn_nil]
  | cons a path ih =>
    rw [List.splitOn_cons_eq_if_modifyHead] at h
    split at h
    · rcases List.mem_cons.mp h with rfl | h
      · cases hc
      · exact List.mem_cons_of_mem _ (ih h hc)
    · obtain ⟨first, rest, hfr⟩ := List.exists_cons_of_ne_nil (List.splitOn_ne_nil sep path)
      rw [hfr, List.modifyHead_cons] at h
      rcases List.mem_cons.mp h with rfl | h
      · rcases List.mem_cons.mp hc with rfl | hc
        · exact List.mem_cons_self
        · exact List.mem_cons_of_mem _ (ih (hfr ▸ List.mem_cons_self) hc)
      · exact List.mem_cons_of_mem _ (ih (hfr ▸ List.mem_cons_of_mem _ h) hc)

theorem mem_of_mem_getComponents {sep : χ} {path name : List χ}
    (h : name ∈ getComponents sep path) {c : χ} (hc : c ∈ name) : c ∈ path :=
  mem_of_mem_splitOn (List.mem_filter.mp h).1 hc

/-- A file name that passes the check of `Rename` is a name. -/
theorem goodName_filename {sep : χ} {path : List χ} (h : filename sep path ≠ []) :
    GoodName sep (filename sep path) := by
  refine ⟨h, fun hsep => ?_⟩
  simpa using List.mem_rtakeWhile_imp hsep

/-- Splitting distributes over a separator. -/
theorem getComponents_append_cons (sep : χ) (a b : List χ) :
    getComponents sep (a ++ sep :: b) = getComponents sep a ++ getComponents sep b := by
  simp [getComponents, List.splitOn_append_cons_self]

@[simp] theorem getComponents_nil (sep : χ) : getComponents sep [] = [] := by
  simp [getComponents]

theorem getComponents_cons_sep (sep : χ) (b : List χ) :
    getComponents sep (sep :: b) = getComponents sep b := by
  simpa using getComponents_append_cons sep [] b

/-- A name is its own only component. -/
theorem getComponents_of_goodName {sep : χ} {name : List χ} (h : GoodName sep name) :
    getComponents sep name = [name] := by
  simp [getComponents, List.splitOn_eq_singleton h.2, h.1]

/-- A name followed by a separator is one component. -/
theorem getComponents_goodName_cons {sep : χ} {name : List χ} (h : GoodName sep name)
    (b : List χ) : getComponents sep (name ++ sep :: b) = name :: getComponents sep b := by
  rw [getComponents_append_cons, getComponents_of_goodName h, List.singleton_append]

/-- The components of names that are each followed by a separator. -/
theorem getComponents_flatMap {sep : χ} {names : List (List χ)}
    (h : ∀ name ∈ names, GoodName sep name) (b : List χ) :
    getComponents sep (names.flatMap (· ++ [sep]) ++ b) = names ++ getComponents sep b := by
  induction names with
  | nil => simp
  | cons name names ih =>
    have hrest := ih fun y hy => h y (List.mem_cons_of_mem _ hy)
    rw [List.flatMap_cons, List.append_assoc, List.append_assoc, List.singleton_append,
      getComponents_goodName_cons (h name List.mem_cons_self), hrest, List.cons_append]

/-- Replacing the child `x` by nodes that are named, under good names. -/
theorem named_withChildrens_alterFirst {sep : χ} {n : Node χ} (h : n.Named sep) {x : List χ}
    {f : Node χ → List (Node χ)}
    (hf : ∀ c ∈ n.myChildrens, c.myName = x → c.Named sep → GoodName sep c.myName →
      ∀ d ∈ f c, GoodName sep d.myName ∧ d.Named sep) :
    (n.withChildrens (alterFirst x f n.myChildrens)).Named sep := by
  obtain ⟨hn, hcs⟩ := named_iff.mp h
  have hall : ∀ d ∈ alterFirst x f n.myChildrens, GoodName sep d.myName ∧ d.Named sep := by
    intro d hd
    rcases mem_alterFirst hd with hd | ⟨c, hc, hx, hd⟩
    · exact ⟨hn d hd, hcs d hd⟩
    · exact hf c hc hx (hcs c hc) (hn c hc) d hd
  rw [named_iff, myChildrens_withChildrens]
  exact ⟨fun d hd => (hall d hd).1, fun d hd => (hall d hd).2⟩

theorem named_alterAt {sep : χ} {f : Node χ → List (Node χ)}
    (hf : ∀ c : Node χ, c.Named sep → GoodName sep c.myName →
      ∀ d ∈ f c, GoodName sep d.myName ∧ d.Named sep)
    (p : List (List χ)) {n : Node χ} (h : n.Named sep) : (alterAt f p n).Named sep := by
  induction p generalizing n with
  | nil => exact h
  | cons x rest ih =>
    cases rest with
    | nil => exact named_withChildrens_alterFirst h fun c _ _ hc hname => hf c hc hname
    | cons y p =>
      refine named_withChildrens_alterFirst h fun c _ _ hc hname d hd => ?_
      rw [List.mem_singleton.mp hd]
      exact ⟨by rwa [myName_alterAt], ih hc⟩

theorem named_insertPath {sep : χ} {p : List (List χ)} (hp : ∀ y ∈ p, GoodName sep y)
    {n : Node χ} (h : n.Named sep) : (insertPath p n).Named sep := by
  induction p generalizing n with
  | nil => exact h
  | cons x rest ih =>
    have hx := hp x List.mem_cons_self
    have hrest : ∀ y ∈ rest, GoodName sep y := fun y hy => hp y (List.mem_cons_of_mem _ hy)
    cases hg : n.getChildren x with
    | none =>
      rw [insertPath_absent hg]
      refine named_addChildren h ?_ (named_newBranch hrest)
      rwa [myName_newBranch]
    | some c =>
      cases rest with
      | nil =>
        rw [insertPath_last hg]
        refine named_withChildrens_alterFirst h fun d _ _ hd hname e he => ?_
        rw [List.mem_singleton.mp he]
        exact ⟨hname, named_addChildren hd hx (named_new sep x)⟩
      | cons y p =>
        rw [insertPath_deeper hg]
        refine named_withChildrens_alterFirst h fun d _ _ hd hname e he => ?_
        rw [List.mem_singleton.mp he]
        exact ⟨by rwa [myName_insertPath], ih hrest hd⟩

/-- The loop of `do_add` gives no node a name that is not a component. -/
theorem namedAll_doAddLoop {sep : χ} {rest : List (List χ)} {x : List χ}
    (hx : GoodName sep x)
    (hrest : ∀ {n n' : Node χ} {left : List (List χ)}, n.Named sep →
      doAdd n rest = some (n', left) → n'.Named sep)
    {cs cs' : List (Node χ)} {left : List (List χ)} (hcs : NamedAll sep cs)
    (h : doAddLoop cs x (x :: rest) = some (cs', left)) :
    NamedAll sep cs' ∧ (left = [] ∨ left = x :: rest) := by
  induction cs generalizing cs' left with
  | nil =>
    simp only [doAddLoop, Option.some.injEq, Prod.mk.injEq] at h
    obtain ⟨rfl, rfl⟩ := h
    exact ⟨hcs, Or.inr rfl⟩
  | cons c cs ih =>
    obtain ⟨⟨hname, hc⟩, hcs⟩ := List.forall_mem_cons.mp hcs
    simp only [doAddLoop] at h
    split at h
    · cases rest with
      | nil =>
        simp only [Option.some.injEq, Prod.mk.injEq] at h
        obtain ⟨rfl, rfl⟩ := h
        exact ⟨List.forall_mem_cons.mpr ⟨⟨hname, named_addChildren hc hx (named_new sep x)⟩, hcs⟩,
          Or.inl rfl⟩
      | cons y p =>
        simp only [Option.bind_eq_bind] at h
        obtain ⟨⟨c', left₁⟩, hadd, h⟩ := Option.bind_eq_some_iff.mp h
        obtain ⟨hname', rfl⟩ := doAdd_some hadd
        obtain ⟨⟨ds, left₂⟩, hloop, h⟩ := Option.bind_eq_some_iff.mp h
        simp only [Option.some.injEq, Prod.mk.injEq] at h
        obtain ⟨rfl, rfl⟩ := h
        obtain ⟨rfl, rfl⟩ := doAddLoop_nil hloop
        exact ⟨List.forall_mem_cons.mpr ⟨⟨hname' ▸ hname, hrest hc hadd⟩, hcs⟩, Or.inl rfl⟩
    · simp only [Option.bind_eq_bind] at h
      obtain ⟨⟨ds, left'⟩, hloop, h⟩ := Option.bind_eq_some_iff.mp h
      simp only [Option.some.injEq, Prod.mk.injEq] at h
      obtain ⟨rfl, rfl⟩ := h
      obtain ⟨hds, hleft⟩ := ih hcs hloop
      exact ⟨List.forall_mem_cons.mpr ⟨⟨hname, hc⟩, hds⟩, hleft⟩

theorem named_doAdd {sep : χ} {p : List (List χ)} (hp : ∀ y ∈ p, GoodName sep y)
    {n n' : Node χ} {left : List (List χ)} (hn : n.Named sep)
    (h : doAdd n p = some (n', left)) : n'.Named sep := by
  induction p generalizing n n' left with
  | nil =>
    obtain ⟨name, b, cs⟩ := n
    simp only [doAdd, Option.some.injEq, Prod.mk.injEq] at h
    exact h.1 ▸ hn
  | cons x rest ih =>
    obtain ⟨hx, hrest⟩ := List.forall_mem_cons.mp hp
    obtain ⟨name, b, cs⟩ := n
    simp only [doAdd, Option.bind_eq_bind] at h
    obtain ⟨⟨cs', left'⟩, hloop, h⟩ := Option.bind_eq_some_iff.mp h
    obtain ⟨hcs', hleft⟩ := namedAll_doAddLoop hx (ih hrest) (named_iff_namedAll.mp hn) hloop
    rcases hleft with rfl | rfl
    · simp only [Option.some.injEq, Prod.mk.injEq] at h
      exact h.1 ▸ named_iff_namedAll.mpr hcs'
    · simp only [Option.some.injEq, Prod.mk.injEq] at h
      rw [← h.1, named_iff_namedAll]
      refine List.forall_mem_cons.mpr ⟨⟨?_, named_newBranch hrest⟩, hcs'⟩
      rwa [myName_newBranch]

end Node

end FspServer
