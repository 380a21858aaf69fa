import FspServer.VirtualFileSystemTree
import FspServer.Lib.PathSet
import Mathlib.Data.List.Nodup

/-!
# The tree as a set of paths

`Node.paths` is the set of component lists that `do_find_path` resolves. On a
tree whose sibling names are unique (`Node.Uniq`) the operations of the tree
are operations on this set:

* `Add` of an absent path is `PathSet.grow`; `Add` of a path that is already
  there adds one more component below it, a copy of the last one
  (`paths_insertPath_of_mem`);
* `Remove` is `PathSet.cut`, `Rename` is `PathSet.move`, `SetCached` changes no
  path.

For each operation there is also the exact condition under which it keeps sibling
names unique. The last section is about any tree: an update keeps the paths that do
not lead through what it changes.
-/

namespace FspServer

open PathSet

variable {χ : Type}

namespace Node

/-- No two children of one node have the same name. -/
inductive Uniq : Node χ → Prop
  | mk {n : List χ} {b : Bool} {cs : List (Node χ)} :
      (cs.map myName).Nodup → (∀ c ∈ cs, Uniq c) → Uniq (.mk n b cs)

/-- A non-empty name without separator. -/
def GoodName (sep : χ) (name : List χ) : Prop := name ≠ [] ∧ sep ∉ name

/-- Every name below the node is non-empty and holds no separator. -/
inductive Named (sep : χ) : Node χ → Prop
  | mk {n : List χ} {b : Bool} {cs : List (Node χ)} :
      (∀ c ∈ cs, GoodName sep c.myName) → (∀ c ∈ cs, Named sep c) → Named sep (.mk n b cs)

/-! ## Basic equations -/

@[simp] theorem myName_withChildrens (n : Node χ) (cs : List (Node χ)) :
    (n.withChildrens cs).myName = n.myName := rfl

@[simp] theorem cached_withChildrens (n : Node χ) (cs : List (Node χ)) :
    (n.withChildrens cs).cached = n.cached := rfl

@[simp] theorem myChildrens_withChildrens (n : Node χ) (cs : List (Node χ)) :
    (n.withChildrens cs).myChildrens = cs := rfl

@[simp] theorem myName_addChildren (n c : Node χ) : (n.addChildren c).myName = n.myName := rfl

@[simp] theorem myChildrens_addChildren (n c : Node χ) :
    (n.addChildren c).myChildrens = c :: n.myChildrens := rfl

@[simp] theorem myChildrens_new (name : List χ) : (new name).myChildrens = [] := rfl

@[simp] theorem myName_new (name : List χ) : (new name).myName = name := rfl

@[simp] theorem myName_setName (name : List χ) (n : Node χ) : (n.setName name).myName = name := by
  cases n; rfl

@[simp] theorem cached_setName (name : List χ) (n : Node χ) :
    (n.setName name).cached = n.cached := by
  cases n; rfl

@[simp] theorem myChildrens_setName (name : List χ) (n : Node χ) :
    (n.setName name).myChildrens = n.myChildrens := by
  cases n; rfl

@[simp] theorem myName_setCachedFlag (flag : Bool) (n : Node χ) :
    (n.setCachedFlag flag).myName = n.myName := by
  cases n; rfl

@[simp] theorem cached_setCachedFlag (flag : Bool) (n : Node χ) :
    (n.setCachedFlag flag).cached = flag := by
  cases n; rfl

@[simp] theorem myChildrens_setCachedFlag (flag : Bool) (n : Node χ) :
    (n.setCachedFlag flag).myChildrens = n.myChildrens := by
  cases n; rfl

@[simp] theorem cached_addChildren (n c : Node χ) : (n.addChildren c).cached = n.cached := rfl

@[simp] theorem cached_new (name : List χ) : (new name).cached = false := rfl

@[simp] theorem cached_newBranch (name : List χ) (rest : List (List χ)) :
    (newBranch name rest).cached = false := by
  cases rest <;> rfl

@[simp] theorem myName_newBranch (name : List χ) (rest : List (List χ)) :
    (newBranch name rest).myName = name := by
  cases rest <;> rfl

theorem withChildrens_self (n : Node χ) : n.withChildrens n.myChildrens = n := by
  cases n; rfl

theorem uniq_iff {n : Node χ} :
    n.Uniq ↔ (n.myChildrens.map myName).Nodup ∧ ∀ c ∈ n.myChildrens, c.Uniq := by
  cases n with
  | mk name b cs =>
    constructor
    · rintro ⟨hn, hc⟩
      exact ⟨hn, hc⟩
    · rintro ⟨hn, hc⟩
      exact .mk hn hc

/-- With distinct names the siblings of a child have other names. -/
theorem ne_of_nodup {before after : List (Node χ)} {c : Node χ}
    (hn : ((before ++ c :: after).map myName).Nodup) :
    ∀ d ∈ before ++ after, d.myName ≠ c.myName := by
  rw [List.map_append, List.map_cons, List.nodup_middle, ← List.map_append,
    List.nodup_cons] at hn
  exact fun d hd hdc => hn.1 (List.mem_map.mpr ⟨d, hd, hdc⟩)

theorem named_iff {sep : χ} {n : Node χ} :
    n.Named sep ↔ (∀ c ∈ n.myChildrens, GoodName sep c.myName) ∧
      ∀ c ∈ n.myChildrens, c.Named sep := by
  cases n with
  | mk name b cs =>
    constructor
    · rintro ⟨hn, hc⟩
      exact ⟨hn, hc⟩
    · rintro ⟨hn, hc⟩
      exact .mk hn hc

theorem uniq_new (name : List χ) : (new name).Uniq :=
  .mk (by simp) (fun _ h => absurd h List.not_mem_nil)

theorem named_new (sep : χ) (name : List χ) : (new name).Named sep :=
  .mk (fun _ h => absurd h List.not_mem_nil) (fun _ h => absurd h List.not_mem_nil)

theorem uniq_newBranch (x : List χ) (rest : List (List χ)) : (newBranch x rest).Uniq := by
  induction rest generalizing x with
  | nil => exact uniq_new x
  | cons y p ih =>
    refine uniq_iff.mpr ⟨by simp [newBranch], fun c hc => ?_⟩
    simp only [newBranch, myChildrens_addChildren, myChildrens_new, List.mem_singleton] at hc
    exact hc ▸ ih y

theorem uniq_setName {w : List χ} {n : Node χ} : (n.setName w).Uniq ↔ n.Uniq := by
  rw [uniq_iff, uniq_iff, myChildrens_setName]

theorem uniq_setCachedFlag {flag : Bool} {n : Node χ} (h : n.Uniq) :
    (n.setCachedFlag flag).Uniq := by
  rw [uniq_iff, myChildrens_setCachedFlag]
  exact uniq_iff.mp h

/-! ## Resolution -/

variable [DecidableEq χ]

/-- The component lists that resolve in the tree, the root's `[]` included. -/
def paths (n : Node χ) : Set (List (List χ)) := {p | (n.doFindPath p).isSome}

instance (n : Node χ) (p : List (List χ)) : Decidable (p ∈ n.paths) :=
  inferInstanceAs (Decidable ((n.doFindPath p).isSome = true))

/-- The component lists of the nodes whose `Cached_` flag satisfies `m`. -/
def marked (m : Bool → Prop) (n : Node χ) : Set (List (List χ)) :=
  {p | ∃ c, n.doFindPath p = some c ∧ m c.cached}

theorem paths_eq_marked (n : Node χ) : n.paths = n.marked fun _ => True := by
  ext p
  simp [paths, marked, Option.isSome_iff_exists]

@[simp] theorem myName_alterAt (f : Node χ → List (Node χ)) (p : List (List χ)) (n : Node χ) :
    (alterAt f p n).myName = n.myName := by
  rcases p with _ | ⟨x, _ | ⟨y, p⟩⟩ <;> rfl

@[simp] theorem cached_alterAt (f : Node χ → List (Node χ)) (p : List (List χ)) (n : Node χ) :
    (alterAt f p n).cached = n.cached := by
  rcases p with _ | ⟨x, _ | ⟨y, p⟩⟩ <;> rfl

theorem getChildren_some {n c : Node χ} {x : List χ} (h : n.getChildren x = some c) :
    c ∈ n.myChildrens ∧ c.myName = x :=
  ⟨List.mem_of_find?_eq_some h, by simpa using List.find?_some h⟩

/-- With unique names the first match is the only one. -/
theorem getChildren_eq_some_iff {n c : Node χ} (h : n.Uniq) {x : List χ} :
    n.getChildren x = some c ↔ c ∈ n.myChildrens ∧ c.myName = x := by
  refine ⟨getChildren_some, ?_⟩
  rintro ⟨hc, rfl⟩
  have hn := (uniq_iff.mp h).1
  cases hd : n.getChildren c.myName with
  | none =>
    have := List.find?_eq_none.mp hd c hc
    simp at this
  | some d =>
    obtain ⟨hdm, hdn⟩ := getChildren_some hd
    rw [List.inj_on_of_nodup_map hn hdm hc hdn]

@[simp] theorem nil_mem_paths (n : Node χ) : [] ∈ n.paths := by simp [paths, doFindPath]

@[simp] theorem nil_mem_marked {m : Bool → Prop} {n : Node χ} :
    [] ∈ n.marked m ↔ m n.cached := by
  simp [marked, doFindPath]

theorem cons_mem_marked {m : Bool → Prop} {n : Node χ} {x : List χ} {p : List (List χ)} :
    x :: p ∈ n.marked m ↔ ∃ c, n.getChildren x = some c ∧ p ∈ c.marked m := by
  cases h : n.getChildren x with
  | none => simp [marked, doFindPath, h]
  | some c => simp [marked, doFindPath, h]

theorem cons_mem_paths {n : Node χ} {x : List χ} {p : List (List χ)} :
    x :: p ∈ n.paths ↔ ∃ c, n.getChildren x = some c ∧ p ∈ c.paths := by
  simp only [paths_eq_marked, cons_mem_marked]

theorem marked_subset_paths (m : Bool → Prop) (n : Node χ) : n.marked m ⊆ n.paths := by
  rintro p ⟨c, hc, -⟩
  simp [paths, hc]

theorem cons_mem_paths_of_uniq {n : Node χ} (h : n.Uniq) {x : List χ} {p : List (List χ)} :
    x :: p ∈ n.paths ↔ ∃ c ∈ n.myChildrens, c.myName = x ∧ p ∈ c.paths := by
  rw [cons_mem_paths]
  simp only [getChildren_eq_some_iff h, and_assoc]

theorem prefixClosed_paths (n : Node χ) : PrefixClosed n.paths := by
  intro p q hpq hq
  induction p generalizing n q with
  | nil => exact nil_mem_paths n
  | cons x p ih =>
    obtain ⟨rest, rfl⟩ := hpq
    obtain ⟨c, hc, hrest⟩ := cons_mem_paths.mp hq
    exact cons_mem_paths.mpr ⟨c, hc, ih c _ ⟨rest, rfl⟩ hrest⟩

@[simp] theorem paths_new (name : List χ) : (new name).paths = {[]} := by
  ext p
  cases p with
  | nil => simp
  | cons x p => simp [cons_mem_paths, getChildren, new, myChildrens]

/-! ## Changing one child -/

theorem find?_eq_none_iff {cs : List (Node χ)} {x : List χ} :
    cs.find? (fun c => c.myName = x) = none ↔ ∀ d ∈ cs, d.myName ≠ x := by
  simp

/-- The first child with a name. -/
theorem find?_append_cons {before after : List (Node χ)} {c : Node χ} {x : List χ}
    (hbefore : ∀ d ∈ before, d.myName ≠ x) (hc : c.myName = x) :
    (before ++ c :: after).find? (fun c => c.myName = x) = some c := by
  rw [List.find?_append, find?_eq_none_iff.mpr hbefore, Option.none_or]
  exact List.find?_cons_of_pos (by simpa using hc)

/-- What `alterFirst` does: no child has the name, or the first one that has it stands
between those before it and those after it. -/
theorem alterFirst_cases (f : Node χ → List (Node χ)) (x : List χ) (cs : List (Node χ)) :
    (∀ d ∈ cs, d.myName ≠ x) ∧ alterFirst x f cs = cs ∨
      ∃ before c after, cs = before ++ c :: after ∧ (∀ d ∈ before, d.myName ≠ x) ∧
        c.myName = x ∧ alterFirst x f cs = before ++ f c ++ after := by
  induction cs with
  | nil => exact .inl ⟨fun d hd => absurd hd List.not_mem_nil, rfl⟩
  | cons c cs ih =>
    by_cases hc : c.myName = x
    · refine .inr ⟨[], c, cs, rfl, fun d hd => absurd hd List.not_mem_nil, hc, ?_⟩
      rw [alterFirst, if_pos hc, List.nil_append]
    · rcases ih with ⟨hcs, h⟩ | ⟨before, d, after, rfl, hbefore, hd, h⟩
      · refine .inl ⟨List.forall_mem_cons.mpr ⟨hc, hcs⟩, ?_⟩
        rw [alterFirst, if_neg hc, h]
      · refine .inr ⟨c :: before, d, after, rfl, List.forall_mem_cons.mpr ⟨hc, hbefore⟩, hd, ?_⟩
        rw [alterFirst, if_neg hc, h]
        rfl

theorem alterFirst_append_cons {f : Node χ → List (Node χ)} {x : List χ}
    {before after : List (Node χ)} {c : Node χ} (hbefore : ∀ d ∈ before, d.myName ≠ x)
    (hc : c.myName = x) :
    alterFirst x f (before ++ c :: after) = before ++ f c ++ after := by
  induction before with
  | nil => simp [alterFirst, hc]
  | cons d before ih =>
    obtain ⟨hd, hbefore⟩ := List.forall_mem_cons.mp hbefore
    simp [alterFirst, hd, ih hbefore]

/-- A child that is not there is not changed. -/
theorem alterFirst_of_find_none {f : Node χ → List (Node χ)} {x : List χ} {cs : List (Node χ)}
    (h : cs.find? (fun c => c.myName = x) = none) : alterFirst x f cs = cs := by
  rcases alterFirst_cases f x cs with ⟨-, hsame⟩ | ⟨before, c, after, rfl, hbefore, hc, -⟩
  · exact hsame
  · cases h.symm.trans (find?_append_cons hbefore hc)

/-- What another name leads to stays. -/
theorem find?_alterFirst_of_ne {f : Node χ → List (Node χ)} {x z : List χ} (hz : z ≠ x)
    (hf : ∀ c, c.myName = x → ∀ d ∈ f c, d.myName ≠ z) (cs : List (Node χ)) :
    (alterFirst x f cs).find? (fun c => c.myName = z) = cs.find? fun c => c.myName = z := by
  rcases alterFirst_cases f x cs with ⟨-, h⟩ | ⟨before, c, after, rfl, -, hc, h⟩
  · rw [h]
  · have hskip : (f c).find? (fun c => c.myName = z) = none := find?_eq_none_iff.mpr (hf c hc)
    have hother : ¬ c.myName = z := fun hcz => hz (hcz.symm.trans hc)
    rw [h, List.append_assoc, List.find?_append, List.find?_append, List.find?_append, hskip,
      Option.none_or, List.find?_cons_of_neg (by simpa using hother)]

/-- Changing a child but not its name changes only what that name leads to. -/
theorem find?_alterFirst {g : Node χ → Node χ} (hg : ∀ c, (g c).myName = c.myName)
    (x z : List χ) (cs : List (Node χ)) :
    (alterFirst x (fun c => [g c]) cs).find? (fun c => c.myName = z) =
      if z = x then (cs.find? fun c => c.myName = x).map g
      else cs.find? fun c => c.myName = z := by
  split
  · next hz =>
    subst hz
    rcases alterFirst_cases (fun c => [g c]) z cs with
      ⟨hcs, h⟩ | ⟨before, c, after, rfl, hbefore, hc, h⟩
    · rw [h, find?_eq_none_iff.mpr hcs]
      rfl
    · rw [h, find?_append_cons hbefore hc, List.append_assoc]
      exact find?_append_cons hbefore ((hg c).trans hc)
  · next hz =>
    refine find?_alterFirst_of_ne hz (fun c hc d hd => ?_) cs
    rw [List.mem_singleton.mp hd, hg, hc]
    exact Ne.symm hz

/-- The shape `doAdd` and `alterAt` give a node when they change its child `x`. -/
def updateChild (x : List χ) (g : Node χ → Node χ) (n : Node χ) : Node χ :=
  n.withChildrens (alterFirst x (fun c => [g c]) n.myChildrens)

@[simp] theorem myName_updateChild (x : List χ) (g : Node χ → Node χ) (n : Node χ) :
    (n.updateChild x g).myName = n.myName := rfl

@[simp] theorem cached_updateChild (x : List χ) (g : Node χ → Node χ) (n : Node χ) :
    (n.updateChild x g).cached = n.cached := rfl

theorem cons_mem_marked_updateChild {m : Bool → Prop} {g : Node χ → Node χ}
    (hg : ∀ c, (g c).myName = c.myName) {n : Node χ} {x z : List χ} {q : List (List χ)} :
    z :: q ∈ (n.updateChild x g).marked m ↔
      if z = x then ∃ c, n.getChildren x = some c ∧ q ∈ (g c).marked m
      else z :: q ∈ n.marked m := by
  rw [cons_mem_marked]
  simp only [getChildren, updateChild, myChildrens_withChildrens, find?_alterFirst hg]
  split
  · constructor
    · rintro ⟨d, hd, hq⟩
      obtain ⟨c, hc, rfl⟩ := Option.map_eq_some_iff.mp hd
      exact ⟨c, hc, hq⟩
    · rintro ⟨c, hc, hq⟩
      exact ⟨g c, by rw [hc]; rfl, hq⟩
  · rw [cons_mem_marked]
    rfl

theorem cons_mem_paths_updateChild {g : Node χ → Node χ} (hg : ∀ c, (g c).myName = c.myName)
    {n : Node χ} {x z : List χ} {q : List (List χ)} :
    z :: q ∈ (n.updateChild x g).paths ↔
      if z = x then ∃ c, n.getChildren x = some c ∧ q ∈ (g c).paths else z :: q ∈ n.paths := by
  simp only [paths_eq_marked, cons_mem_marked_updateChild hg]

/-- Changing a child but not what `F` sees of it. -/
theorem map_alterFirst {β : Type*} {F : Node χ → β} {g : Node χ → Node χ}
    (hg : ∀ c, F (g c) = F c) (x : List χ) (cs : List (Node χ)) :
    (alterFirst x (fun c => [g c]) cs).map F = cs.map F := by
  rcases alterFirst_cases (fun c => [g c]) x cs with ⟨-, h⟩ | ⟨before, c, after, rfl, -, -, h⟩
  · rw [h]
  · simp [h, hg]

theorem mem_alterFirst {f : Node χ → List (Node χ)} {x : List χ} {cs : List (Node χ)}
    {d : Node χ} (hd : d ∈ alterFirst x f cs) :
    d ∈ cs ∨ ∃ c ∈ cs, c.myName = x ∧ d ∈ f c := by
  rcases alterFirst_cases f x cs with ⟨-, h⟩ | ⟨before, c, after, rfl, -, hc, h⟩
  · exact .inl (h ▸ hd)
  · rw [h, List.mem_append, List.mem_append] at hd
    rcases hd with (hbefore | hmid) | hafter
    · exact .inl (List.mem_append_left _ hbefore)
    · exact .inr ⟨c, List.mem_append_right _ List.mem_cons_self, hc, hmid⟩
    · exact .inl (List.mem_append_right _ (List.mem_cons_of_mem _ hafter))

theorem mem_alterFirst_of_find {f : Node χ → List (Node χ)} {x : List χ} {cs : List (Node χ)}
    {c d : Node χ} (hc : cs.find? (fun c => c.myName = x) = some c) (hd : d ∈ f c) :
    d ∈ alterFirst x f cs := by
  rcases alterFirst_cases f x cs with ⟨hcs, -⟩ | ⟨before, e, after, rfl, hbefore, he, h⟩
  · cases (find?_eq_none_iff.mpr hcs).symm.trans hc
  · obtain rfl : e = c := Option.some.inj ((find?_append_cons hbefore he).symm.trans hc)
    rw [h]
    exact List.mem_append_left _ (List.mem_append_right _ hd)

/-- Changing the child `x` of a node with unique names keeps them unique exactly
when the child's own names stay unique. -/
theorem uniq_updateChild {g : Node χ → Node χ} (hg : ∀ c, (g c).myName = c.myName)
    {n c : Node χ} (h : n.Uniq) {x : List χ} (hc : n.getChildren x = some c) :
    (n.updateChild x g).Uniq ↔ (g c).Uniq := by
  obtain ⟨hn, hcs⟩ := uniq_iff.mp h
  rw [uniq_iff]
  simp only [updateChild, myChildrens_withChildrens, map_alterFirst hg]
  constructor
  · rintro ⟨_, hall⟩
    exact hall _ (mem_alterFirst_of_find hc (by simp))
  · intro hgc
    refine ⟨hn, fun d hd => ?_⟩
    rcases mem_alterFirst hd with hd | ⟨e, he, hex, hde⟩
    · exact hcs d hd
    · obtain rfl : e = c := by
        have := (getChildren_eq_some_iff h).mpr ⟨he, hex⟩
        exact Option.some.inj (this.symm.trans hc)
      rw [List.mem_singleton.mp hde]
      exact hgc

theorem alterFirst_of_fixed {g : Node χ → Node χ} {x : List χ} {cs : List (Node χ)}
    (hg : ∀ c, cs.find? (fun c => c.myName = x) = some c → g c = c) :
    alterFirst x (fun c => [g c]) cs = cs := by
  rcases alterFirst_cases (fun c => [g c]) x cs with
    ⟨-, h⟩ | ⟨before, c, after, rfl, hbefore, hc, h⟩
  · exact h
  · rw [h, hg c (find?_append_cons hbefore hc), List.append_assoc]
    rfl

theorem alterAt_cons_cons (f : Node χ → List (Node χ)) (x y : List χ) (p : List (List χ))
    (n : Node χ) : alterAt f (x :: y :: p) n = n.updateChild x (alterAt f (y :: p)) := rfl

theorem alterAt_singleton (g : Node χ → Node χ) (x : List χ) (n : Node χ) :
    alterAt (fun c => [g c]) [x] n = n.updateChild x g := rfl

/-- A change that leaves the node it reaches as it is changes nothing. -/
theorem alterAt_of_fixed {g : Node χ → Node χ} {p : List (List χ)} {n : Node χ}
    (h : ∀ c, n.doFindPath p = some c → g c = c) : alterAt (fun c => [g c]) p n = n := by
  induction p generalizing n with
  | nil => rfl
  | cons x rest ih =>
    have hfixed : ∀ {k : Node χ → Node χ}, (∀ c, n.getChildren x = some c → k c = c) →
        n.updateChild x k = n := by
      intro k hk
      rw [updateChild, alterFirst_of_fixed hk, withChildrens_self]
    cases rest with
    | nil => exact hfixed fun c hc => h c (by simp [doFindPath, hc])
    | cons y p =>
      refine hfixed fun c hc => ih fun d hd => h d ?_
      rw [doFindPath, hc]
      exact hd

/-! ## Add -/

/-- What `doAdd` computes on a tree with unique names (`doAdd_eq_insertPath`):
an absent suffix becomes a new branch; a path that is already there gets a new
child that repeats its last component. -/
def insertPath : List (List χ) → Node χ → Node χ
  | [], n => n
  | [x], n =>
    if (n.getChildren x).isSome then n.updateChild x fun c => c.addChildren (new x)
    else n.addChildren (newBranch x [])
  | x :: y :: p, n =>
    if (n.getChildren x).isSome then n.updateChild x (insertPath (y :: p))
    else n.addChildren (newBranch x (y :: p))

theorem insertPath_absent {n : Node χ} {x : List χ} (h : n.getChildren x = none)
    (rest : List (List χ)) : insertPath (x :: rest) n = n.addChildren (newBranch x rest) := by
  cases rest <;> simp [insertPath, h]

theorem insertPath_last {n c : Node χ} {x : List χ} (h : n.getChildren x = some c) :
    insertPath [x] n = n.updateChild x fun c => c.addChildren (new x) := by
  simp [insertPath, h]

theorem insertPath_deeper {n c : Node χ} {x : List χ} (h : n.getChildren x = some c)
    (y : List χ) (p : List (List χ)) :
    insertPath (x :: y :: p) n = n.updateChild x (insertPath (y :: p)) := by
  simp [insertPath, h]

@[simp] theorem myName_insertPath (p : List (List χ)) (n : Node χ) :
    (insertPath p n).myName = n.myName := by
  rcases p with _ | ⟨x, _ | ⟨y, p⟩⟩
  · rfl
  · simp only [insertPath]; split <;> rfl
  · simp only [insertPath]; split <;> rfl

@[simp] theorem cached_insertPath (p : List (List χ)) (n : Node χ) :
    (insertPath p n).cached = n.cached := by
  rcases p with _ | ⟨x, _ | ⟨y, p⟩⟩
  · rfl
  · simp only [insertPath]; split <;> rfl
  · simp only [insertPath]; split <;> rfl

theorem doAddLoop_of_absent {cs : List (Node χ)} {x : List χ} (h : ∀ c ∈ cs, c.myName ≠ x)
    (components : List (List χ)) : doAddLoop cs x components = some (cs, components) := by
  induction cs with
  | nil => simp [doAddLoop]
  | cons c cs ih =>
    simp [doAddLoop, h c List.mem_cons_self, ih fun d hd => h d (List.mem_cons_of_mem _ hd)]

/-- A fresh node has nothing to loop over: `doAdd` below it makes a branch. -/
theorem doAdd_new (name : List χ) (rest : List (List χ)) :
    doAdd (new name) rest = some (newBranch name rest, []) := by
  cases rest with
  | nil => simp [new, doAdd, newBranch]
  | cons x rest => simp [new, doAdd, doAddLoop, newBranch, addChildren, withChildrens, myName,
      cached, myChildrens]

theorem doAddLoop_last {cs : List (Node χ)} {x : List χ}
    (h : (cs.find? fun c => c.myName = x).isSome) :
    doAddLoop cs x [x] = some (alterFirst x (fun c => [c.addChildren (new x)]) cs, []) := by
  induction cs with
  | nil => simp at h
  | cons c cs ih =>
    by_cases hc : c.myName = x
    · simp [doAddLoop, alterFirst, hc]
    · simp only [List.find?_cons, hc, decide_false] at h
      simp [doAddLoop, alterFirst, hc, ih h]

theorem doAddLoop_deeper {cs : List (Node χ)} (hn : (cs.map myName).Nodup) {x y : List χ}
    {p : List (List χ)} {g : Node χ → Node χ} (h : (cs.find? fun c => c.myName = x).isSome)
    (hadd : ∀ c ∈ cs, doAdd c (y :: p) = some (g c, [])) :
    doAddLoop cs x (x :: y :: p) = some (alterFirst x (fun c => [g c]) cs, []) := by
  induction cs with
  | nil => simp at h
  | cons c cs ih =>
    simp only [List.map_cons, List.nodup_cons] at hn
    by_cases hc : c.myName = x
    · -- the names are unique: after the recursive call the loop meets no second match
      have hrest : ∀ d ∈ cs, d.myName ≠ x := fun d hd hdx =>
        hn.1 (List.mem_map.mpr ⟨d, hd, hdx.trans hc.symm⟩)
      simp [doAddLoop, alterFirst, hc, hadd c List.mem_cons_self, doAddLoop_of_absent hrest]
    · simp only [List.find?_cons, hc, decide_false] at h
      simp [doAddLoop, alterFirst, hc, ih hn.2 h fun d hd => hadd d (List.mem_cons_of_mem _ hd)]

/-- `doAdd` with the children of its node written out. -/
theorem doAdd_cons {n : Node χ} {x : List χ} {rest left : List (List χ)} {cs : List (Node χ)}
    (h : doAddLoop n.myChildrens x (x :: rest) = some (cs, left)) :
    doAdd n (x :: rest) =
      some (n.withChildrens (if left = [] then cs else newBranch x left.tail :: cs), []) := by
  obtain ⟨name, b, children⟩ := n
  simp only [myChildrens] at h
  cases left <;> simp [doAdd, h, withChildrens, myName, cached]

/-- On unique names `doAdd` is defined, consumes every component, and computes
`insertPath`. -/
theorem doAdd_eq_insertPath {n : Node χ} (h : n.Uniq) (p : List (List χ)) :
    doAdd n p = some (insertPath p n, []) := by
  induction p generalizing n with
  | nil =>
    cases n
    simp [doAdd, insertPath]
  | cons x rest ih =>
    obtain ⟨hn, hcs⟩ := uniq_iff.mp h
    cases hx : n.getChildren x with
    | none =>
      have habs : ∀ c ∈ n.myChildrens, c.myName ≠ x := by
        intro c hc hcx
        have := List.find?_eq_none.mp hx c hc
        simp [hcx] at this
      rw [doAdd_cons (doAddLoop_of_absent habs _), insertPath_absent hx]
      simp [addChildren]
    | some c =>
      have hsome : (n.myChildrens.find? fun c => c.myName = x).isSome :=
        Option.isSome_iff_exists.mpr ⟨c, hx⟩
      cases rest with
      | nil =>
        rw [doAdd_cons (doAddLoop_last hsome), insertPath_last hx]
        simp [updateChild]
      | cons y p =>
        rw [doAdd_cons (doAddLoop_deeper hn hsome fun c hc => ih (hcs c hc)),
          insertPath_deeper hx]
        simp [updateChild]

theorem cons_mem_paths_addChildren {n c : Node χ} {z : List χ} {q : List (List χ)} :
    z :: q ∈ (n.addChildren c).paths ↔
      if c.myName = z then q ∈ c.paths else z :: q ∈ n.paths := by
  rw [cons_mem_paths, cons_mem_paths]
  simp only [getChildren, myChildrens_addChildren, List.find?_cons]
  by_cases hz : c.myName = z <;> simp [hz]

theorem paths_newBranch (x : List χ) (rest : List (List χ)) :
    (newBranch x rest).paths = {q | q <+: rest} := by
  induction rest generalizing x with
  | nil =>
    ext q
    simp [newBranch]
  | cons y p ih =>
    ext q
    cases q with
    | nil => simp
    | cons z q =>
      simp only [newBranch, cons_mem_paths_addChildren, myName_newBranch, ih, paths_new,
        Set.mem_ofPred_eq, List.cons_prefix_cons]
      by_cases hz : y = z <;> simp [hz, eq_comm]

/-- `Add` of an absent path adds the path and the directories above it. -/
theorem paths_insertPath_of_not_mem {n : Node χ} {p : List (List χ)} (hp : p ∉ n.paths) :
    (insertPath p n).paths = grow n.paths p := by
  induction p generalizing n with
  | nil => exact absurd (nil_mem_paths n) hp
  | cons x rest ih =>
    ext q
    cases q with
    | nil => simp
    | cons z q =>
      cases hx : n.getChildren x with
      | none =>
        have hxp : ∀ q, x :: q ∉ n.paths := by
          intro q hq
          obtain ⟨c, hc, _⟩ := cons_mem_paths.mp hq
          simp [hx] at hc
        simp only [insertPath_absent hx, cons_mem_paths_addChildren, myName_newBranch,
          paths_newBranch, mem_grow, List.cons_prefix_cons, Set.mem_ofPred_eq]
        by_cases hz : x = z
        · subst hz
          simp [hxp]
        · simp [hz, Ne.symm hz]
      | some c =>
        have hrest : rest ∉ c.paths := fun h => hp (cons_mem_paths.mpr ⟨c, hx, h⟩)
        cases rest with
        | nil => exact absurd (nil_mem_paths c) hrest
        | cons y p =>
          simp only [insertPath_deeper hx, cons_mem_paths_updateChild (myName_insertPath _),
            mem_grow, List.cons_prefix_cons]
          by_cases hz : z = x
          · subst hz
            simp only [↓reduceIte, Option.some.injEq, exists_eq_left', ih hrest, mem_grow,
              cons_mem_paths, hx, true_and]
          · simp [hz]

/-- A last component that is not repeated below a path is not repeated below the rest of
the path, seen from the first child. -/
theorem doubled_not_mem_of_child {n c : Node χ} {x y : List χ} {p : List (List χ)}
    (hx : n.getChildren x = some c) (hfree : doubled (x :: y :: p) ∉ n.paths) :
    doubled (y :: p) ∉ c.paths := by
  rw [doubled_cons_cons] at hfree
  exact fun h => hfree (cons_mem_paths.mpr ⟨c, hx, h⟩)

theorem cons_not_mem_of_doubled_not_mem {n c : Node χ} {x : List χ}
    (hx : n.getChildren x = some c) (hfree : doubled [x] ∉ n.paths) (q : List (List χ)) :
    x :: q ∉ c.paths :=
  fun hq => hfree (cons_mem_paths.mpr
    ⟨c, hx, prefixClosed_paths c [x] (x :: q) (by simp) hq⟩)

/-- `Add` of a path that is already there adds one more component below it, a
copy of the last one. -/
theorem paths_insertPath_of_mem {n : Node χ} {p : List (List χ)} (hne : p ≠ [])
    (hp : p ∈ n.paths) (hfree : doubled p ∉ n.paths) :
    (insertPath p n).paths = {q | q ∈ n.paths ∨ q = doubled p} := by
  induction p generalizing n with
  | nil => exact absurd rfl hne
  | cons x rest ih =>
    obtain ⟨c, hx, hrest⟩ := cons_mem_paths.mp hp
    ext q
    cases rest with
    | nil =>
      have hxc := cons_not_mem_of_doubled_not_mem hx hfree
      rcases q with _ | ⟨z, q⟩
      · simp
      · simp only [insertPath_last hx, Set.mem_ofPred_eq,
          cons_mem_paths_updateChild (fun c => myName_addChildren c (new x))]
        by_cases hz : z = x
        · subst hz
          simp only [↓reduceIte, Option.some.injEq, exists_eq_left', cons_mem_paths, hx]
          rcases q with _ | ⟨w, q⟩
          · simp
          · rw [cons_mem_paths_addChildren, myName_new, paths_new]
            by_cases hw : z = w
            · subst hw
              simp [hxc, doubled]
            · simp [hw, Ne.symm hw, doubled]
        · simp [hz, doubled]
    | cons y p =>
      have hfree' := doubled_not_mem_of_child hx hfree
      rcases q with _ | ⟨z, q⟩
      · simp
      · simp only [insertPath_deeper hx, cons_mem_paths_updateChild (myName_insertPath _),
          Set.mem_ofPred_eq, doubled_cons_cons]
        by_cases hz : z = x
        · subst hz
          simp [ih (by simp) hrest hfree', cons_mem_paths, hx]
        · simp [hz]

theorem cons_mem_marked_addChildren {m : Bool → Prop} {n c : Node χ} {z : List χ}
    {q : List (List χ)} :
    z :: q ∈ (n.addChildren c).marked m ↔
      if c.myName = z then q ∈ c.marked m else z :: q ∈ n.marked m := by
  rw [cons_mem_marked, cons_mem_marked]
  simp only [getChildren, myChildrens_addChildren, List.find?_cons]
  by_cases hz : c.myName = z <;> simp [hz]

/-- A new branch has no cached node. -/
theorem not_mem_marked_newBranch {m : Bool → Prop} (hm : ¬ m false) (x : List χ)
    (rest q : List (List χ)) : q ∉ (newBranch x rest).marked m := by
  induction rest generalizing x q with
  | nil =>
    cases q with
    | nil => simpa using hm
    | cons z q => simp [newBranch, cons_mem_marked, getChildren]
  | cons y p ih =>
    cases q with
    | nil => simpa using hm
    | cons z q =>
      simp only [newBranch, cons_mem_marked_addChildren, myName_newBranch]
      split
      · exact ih y q
      · simp [cons_mem_marked, getChildren]

/-- `Add` changes no cached node. -/
theorem marked_insertPath {m : Bool → Prop} (hm : ¬ m false) {n : Node χ} {p : List (List χ)}
    (hfree : p = [] ∨ doubled p ∉ n.paths) : (insertPath p n).marked m = n.marked m := by
  induction p generalizing n with
  | nil => rfl
  | cons x rest ih =>
    replace hfree := hfree.resolve_left (List.cons_ne_nil x rest)
    ext q
    rcases q with _ | ⟨z, q⟩
    · simp
    · cases hx : n.getChildren x with
      | none =>
        rw [insertPath_absent hx, cons_mem_marked_addChildren, myName_newBranch]
        by_cases hz : x = z
        · subst hz
          simp [cons_mem_marked, hx, not_mem_marked_newBranch hm]
        · simp [hz]
      | some c =>
        cases rest with
        | nil =>
          rw [insertPath_last hx,
            cons_mem_marked_updateChild (fun c => myName_addChildren c (new x))]
          by_cases hz : z = x
          · subst hz
            have hzc : ∀ q, z :: q ∉ c.marked m := fun q hq =>
              cons_not_mem_of_doubled_not_mem hx hfree q (marked_subset_paths m c hq)
            simp only [↓reduceIte, Option.some.injEq, exists_eq_left', cons_mem_marked (x := z), hx]
            rcases q with _ | ⟨w, q⟩
            · simp
            · rw [cons_mem_marked_addChildren, myName_new]
              by_cases hw : z = w
              · subst hw
                simp only [↓reduceIte]
                exact iff_of_false (not_mem_marked_newBranch hm z [] q) (hzc q)
              · simp [hw]
          · simp [hz]
        | cons y p =>
          have hfree' := doubled_not_mem_of_child hx hfree
          rw [insertPath_deeper hx, cons_mem_marked_updateChild (myName_insertPath _)]
          by_cases hz : z = x
          · subst hz
            simp [ih (Or.inr hfree'), cons_mem_marked (x := z), hx]
          · simp [hz]

/-- A new first child keeps names unique exactly when its name is new. -/
theorem uniq_addChildren {n c : Node χ} (hn : n.Uniq) (hc : c.Uniq) :
    (n.addChildren c).Uniq ↔ n.getChildren c.myName = none := by
  obtain ⟨hnodup, hall⟩ := uniq_iff.mp hn
  rw [uniq_iff]
  simp only [myChildrens_addChildren, List.map_cons, List.nodup_cons, hnodup, and_true,
    List.mem_cons, forall_eq_or_imp, hc, true_and, getChildren, List.find?_eq_none, List.mem_map,
    not_exists, not_and, decide_eq_true_eq]
  exact ⟨fun h => h.1, fun h => ⟨h, hall⟩⟩

/-- `Add` keeps sibling names unique exactly when the path it adds is not
already there with a child that repeats its last component. -/
theorem uniq_insertPath {n : Node χ} (h : n.Uniq) {p : List (List χ)} (hne : p ≠ []) :
    (insertPath p n).Uniq ↔ doubled p ∉ n.paths := by
  induction p generalizing n with
  | nil => exact absurd rfl hne
  | cons x rest ih =>
    cases hx : n.getChildren x with
    | none =>
      have hxp : doubled (x :: rest) ∉ n.paths := by
        intro hq
        obtain ⟨c, hc, _⟩ := cons_mem_paths.mp hq
        simp [hx] at hc
      rw [insertPath_absent hx, uniq_addChildren h (uniq_newBranch x rest), myName_newBranch]
      exact iff_of_true hx hxp
    | some c =>
      have hc : c.Uniq := (uniq_iff.mp h).2 c (getChildren_some hx).1
      cases rest with
      | nil =>
        rw [insertPath_last hx, uniq_updateChild (fun c => myName_addChildren c (new x)) h hx,
          uniq_addChildren hc (uniq_new x), myName_new]
        simp [doubled, cons_mem_paths, hx, Option.eq_none_iff_forall_ne_some]
      | cons y p =>
        rw [insertPath_deeper hx, uniq_updateChild (myName_insertPath _) h hx, ih hc (by simp),
          doubled_cons_cons]
        simp [cons_mem_paths (x := x), hx]

/-! ## Remove -/

theorem find?_alterFirst_delete {cs : List (Node χ)} (hn : (cs.map myName).Nodup)
    (x z : List χ) :
    (alterFirst x (fun _ => []) cs).find? (fun c => c.myName = z) =
      if z = x then none else cs.find? fun c => c.myName = z := by
  split
  · next hz =>
    rw [find?_eq_none_iff, hz]
    rcases alterFirst_cases (fun _ => []) x cs with ⟨hcs, h⟩ | ⟨before, c, after, rfl, -, hc, h⟩
    · rw [h]
      exact hcs
    · rw [h, List.append_nil, ← hc]
      exact ne_of_nodup hn
  · next hz => exact find?_alterFirst_of_ne hz (fun c _ d hd => absurd hd List.not_mem_nil) cs

/-- `Remove` takes away the path and everything below it. -/
theorem marked_alterAt_delete {m : Bool → Prop} {n : Node χ} (h : n.Uniq) {p : List (List χ)}
    (hne : p ≠ []) : (alterAt (fun _ => []) p n).marked m = cut (n.marked m) p := by
  induction p generalizing n with
  | nil => exact absurd rfl hne
  | cons x rest ih =>
    ext q
    rcases q with _ | ⟨z, q⟩
    · simp
    · cases rest with
      | nil =>
        rw [mem_cut, cons_mem_marked, cons_mem_marked]
        simp only [getChildren, alterAt, myChildrens_withChildrens,
          find?_alterFirst_delete (uniq_iff.mp h).1]
        by_cases hz : z = x
        · simp [hz]
        · simp [hz, Ne.symm hz]
      | cons y p =>
        rw [alterAt_cons_cons, cons_mem_marked_updateChild (myName_alterAt _ _), mem_cut,
          List.cons_prefix_cons]
        by_cases hz : z = x
        · subst hz
          simp only [↓reduceIte, true_and, cons_mem_marked]
          constructor
          · rintro ⟨c, hc, hq⟩
            rw [ih ((uniq_iff.mp h).2 c (getChildren_some hc).1) (by simp), mem_cut] at hq
            exact ⟨⟨c, hc, hq.1⟩, hq.2⟩
          · rintro ⟨⟨c, hc, hq⟩, hcut⟩
            refine ⟨c, hc, ?_⟩
            rw [ih ((uniq_iff.mp h).2 c (getChildren_some hc).1) (by simp), mem_cut]
            exact ⟨hq, hcut⟩
        · simp [hz, Ne.symm hz]

theorem paths_alterAt_delete {n : Node χ} (h : n.Uniq) {p : List (List χ)} (hne : p ≠ []) :
    (alterAt (fun _ => []) p n).paths = cut n.paths p := by
  rw [paths_eq_marked, paths_eq_marked, marked_alterAt_delete h hne]

theorem alterFirst_delete_sublist (x : List χ) (cs : List (Node χ)) :
    (alterFirst x (fun _ => []) cs).Sublist cs := by
  rcases alterFirst_cases (fun _ => []) x cs with ⟨-, h⟩ | ⟨before, c, after, rfl, -, -, h⟩
  · rw [h]
  · rw [h, List.append_nil]
    exact (List.sublist_cons_self c after).append_left before

/-- `Remove` keeps sibling names unique. -/
theorem uniq_alterAt_delete {n : Node χ} (h : n.Uniq) (p : List (List χ)) :
    (alterAt (fun _ => []) p n).Uniq := by
  induction p generalizing n with
  | nil => exact h
  | cons x rest ih =>
    obtain ⟨hn, hcs⟩ := uniq_iff.mp h
    cases rest with
    | nil =>
      have hsub := alterFirst_delete_sublist x n.myChildrens
      exact uniq_iff.mpr ⟨hn.sublist (hsub.map _), fun c hc => hcs c (hsub.subset hc)⟩
    | cons y p =>
      rw [alterAt_cons_cons]
      cases hx : n.getChildren x with
      | none =>
        rw [updateChild, alterFirst_of_find_none hx]
        exact uniq_iff.mpr ⟨hn, hcs⟩
      | some c =>
        rw [uniq_updateChild (myName_alterAt _ _) h hx]
        exact ih (hcs c (getChildren_some hx).1)

/-! ## Rename -/

@[simp] theorem marked_setName (m : Bool → Prop) (w : List χ) (n : Node χ) :
    (n.setName w).marked m = n.marked m := by
  ext p
  cases p with
  | nil => simp
  | cons x p => simp [cons_mem_marked, getChildren]

theorem find?_alterFirst_setName {cs : List (Node χ)} (hn : (cs.map myName).Nodup)
    {x w : List χ} (hw : w = x ∨ cs.find? (fun c => c.myName = w) = none)
    (hx : (cs.find? fun c => c.myName = x).isSome) (z : List χ) :
    (alterFirst x (fun c => [c.setName w]) cs).find? (fun c => c.myName = z) =
      if z = w then (cs.find? fun c => c.myName = x).map (setName w)
      else if z = x then none else cs.find? fun c => c.myName = z := by
  rcases alterFirst_cases (fun c => [c.setName w]) x cs with
    ⟨hcs, -⟩ | ⟨before, c, after, rfl, hbefore, hc, h⟩
  · rw [find?_eq_none_iff.mpr hcs] at hx
    cases hx
  · have hsiblings : ∀ d ∈ before ++ after, d.myName ≠ x := hc ▸ ne_of_nodup hn
    split
    · next hz =>
      have hbefore' : ∀ d ∈ before, d.myName ≠ w := by
        rcases hw with rfl | hw
        · exact hbefore
        · exact fun d hd => find?_eq_none_iff.mp hw d (List.mem_append_left _ hd)
      rw [h, find?_append_cons hbefore hc, List.append_assoc, hz]
      exact find?_append_cons hbefore' (myName_setName w c)
    · next hz =>
      split
      · next hzx =>
        subst hzx
        rw [h, find?_eq_none_iff, List.append_assoc]
        intro d hd
        rcases List.mem_append.mp hd with hd | hd
        · exact hsiblings d (List.mem_append_left _ hd)
        · rcases List.mem_cons.mp hd with rfl | hd
          · rw [myName_setName]
            exact Ne.symm hz
          · exact hsiblings d (List.mem_append_right _ hd)
      · next hzx =>
        refine find?_alterFirst_of_ne hzx (fun d _ e he => ?_) _
        rw [List.mem_singleton.mp he, myName_setName]
        exact Ne.symm hz

/-- A name that may be given to the node at `p`: its own, or one that no sibling
has. -/
def RenameFree (n : Node χ) (p : List (List χ)) (w : List χ) : Prop :=
  p.getLast? = some w ∨ p.dropLast ++ [w] ∉ n.paths

instance (n : Node χ) (p : List (List χ)) (w : List χ) : Decidable (RenameFree n p w) :=
  inferInstanceAs (Decidable (_ ∨ _))

theorem renameFree_singleton {n : Node χ} {x w : List χ} :
    RenameFree n [x] w ↔ w = x ∨ n.getChildren w = none := by
  simp [RenameFree, cons_mem_paths, Option.eq_none_iff_forall_ne_some, eq_comm (a := x)]

theorem renameFree_cons_cons {n c : Node χ} {x y w : List χ} {p : List (List χ)}
    (hx : n.getChildren x = some c) :
    RenameFree n (x :: y :: p) w ↔ RenameFree c (y :: p) w := by
  simp [RenameFree, cons_mem_paths (x := x), hx]

/-- `Rename` to a free name moves the path and everything below it. -/
theorem marked_alterAt_setName {m : Bool → Prop} {n : Node χ} (h : n.Uniq)
    {p : List (List χ)} {w : List χ} (hne : p ≠ []) (hp : p ∈ n.paths)
    (hfree : RenameFree n p w) :
    (alterAt (fun c => [c.setName w]) p n).marked m = move (n.marked m) p w := by
  induction p generalizing n with
  | nil => exact absurd rfl hne
  | cons x rest ih =>
    obtain ⟨c, hx, hrest⟩ := cons_mem_paths.mp hp
    ext q
    rcases q with _ | ⟨z, q⟩
    · rw [nil_mem_move, nil_mem_marked, nil_mem_marked, cached_alterAt]
    · cases rest with
      | nil =>
        have hw := renameFree_singleton.mp hfree
        have hfind := find?_alterFirst_setName (uniq_iff.mp h).1 hw
          (Option.isSome_iff_exists.mpr ⟨c, hx⟩) z
        rw [cons_mem_move_singleton, cons_mem_marked]
        simp only [getChildren, alterAt, myChildrens_withChildrens, hfind]
        show (∃ d, (if z = w then (n.getChildren x).map (setName w)
          else if z = x then none else n.getChildren z) = some d ∧ q ∈ d.marked m) ↔ _
        by_cases hz : z = w
        · subst hz
          rcases hw with rfl | hw
          · simp [hx, cons_mem_marked]
          · simp [hx, cons_mem_marked, hw]
        · by_cases hzx : z = x
          · subst hzx
            simp [hz]
          · simp [hz, hzx, cons_mem_marked]
      | cons y p =>
        have hc : c.Uniq := (uniq_iff.mp h).2 c (getChildren_some hx).1
        have hbelow : {r | x :: r ∈ n.marked m} = c.marked m := by
          ext r
          simp [cons_mem_marked (x := x), hx]
        rw [alterAt_cons_cons, cons_mem_marked_updateChild (myName_alterAt _ _),
          cons_mem_move_cons, hbelow, ← ih hc (by simp) hrest ((renameFree_cons_cons hx).mp hfree)]
        by_cases hz : z = x
        · simp [hz, hx]
        · simp [hz]

theorem paths_alterAt_setName {n : Node χ} (h : n.Uniq) {p : List (List χ)} {w : List χ}
    (hne : p ≠ []) (hp : p ∈ n.paths) (hfree : RenameFree n p w) :
    (alterAt (fun c => [c.setName w]) p n).paths = move n.paths p w := by
  rw [paths_eq_marked, paths_eq_marked, marked_alterAt_setName h hne hp hfree]

/-- Replacing a name in a list of distinct names. -/
theorem nodup_map_alterFirst_setName {cs : List (Node χ)} (hn : (cs.map myName).Nodup)
    {x w : List χ} (hx : (cs.find? fun c => c.myName = x).isSome) :
    ((alterFirst x (fun c => [c.setName w]) cs).map myName).Nodup ↔
      w = x ∨ cs.find? (fun c => c.myName = w) = none := by
  rcases alterFirst_cases (fun c => [c.setName w]) x cs with
    ⟨hcs, -⟩ | ⟨before, c, after, rfl, -, hc, h⟩
  · rw [find?_eq_none_iff.mpr hcs] at hx
    cases hx
  · have hsiblings : ∀ d ∈ before ++ after, d.myName ≠ x := hc ▸ ne_of_nodup hn
    rw [List.map_append, List.map_cons, List.nodup_middle, ← List.map_append,
      List.nodup_cons] at hn
    rw [h, List.append_assoc, List.singleton_append, List.map_append, List.map_cons,
      List.nodup_middle, ← List.map_append, List.nodup_cons, myName_setName, and_iff_left hn.2,
      find?_eq_none_iff]
    constructor
    · intro hw
      by_cases hwx : w = x
      · exact .inl hwx
      · refine .inr fun d hd hdw => ?_
        rcases List.mem_append.mp hd with hd | hd
        · exact hw (List.mem_map.mpr ⟨d, List.mem_append_left _ hd, hdw⟩)
        · rcases List.mem_cons.mp hd with rfl | hd
          · exact hwx (hdw.symm.trans hc)
          · exact hw (List.mem_map.mpr ⟨d, List.mem_append_right _ hd, hdw⟩)
    · intro hw hmem
      obtain ⟨d, hd, hdw⟩ := List.mem_map.mp hmem
      rcases hw with rfl | hw
      · exact hsiblings d hd hdw
      · exact hw d (((List.sublist_cons_self c after).append_left before).subset hd) hdw

/-- `Rename` keeps sibling names unique exactly when the new name is free. -/
theorem uniq_alterAt_setName {n : Node χ} (h : n.Uniq) {p : List (List χ)} {w : List χ}
    (hne : p ≠ []) (hp : p ∈ n.paths) :
    (alterAt (fun c => [c.setName w]) p n).Uniq ↔ RenameFree n p w := by
  induction p generalizing n with
  | nil => exact absurd rfl hne
  | cons x rest ih =>
    obtain ⟨c, hx, hrest⟩ := cons_mem_paths.mp hp
    obtain ⟨hn, hcs⟩ := uniq_iff.mp h
    cases rest with
    | nil =>
      rw [renameFree_singleton, uniq_iff]
      simp only [alterAt, myChildrens_withChildrens,
        nodup_map_alterFirst_setName hn (Option.isSome_iff_exists.mpr ⟨c, hx⟩)]
      refine ⟨fun hu => hu.1, fun hw => ⟨hw, fun d hd => ?_⟩⟩
      rcases mem_alterFirst hd with hd | ⟨e, he, _, hde⟩
      · exact hcs d hd
      · rw [List.mem_singleton.mp hde]
        exact uniq_setName.mpr (hcs e he)
    | cons y p =>
      rw [alterAt_cons_cons, uniq_updateChild (myName_alterAt _ _) h hx,
        renameFree_cons_cons hx]
      exact ih (hcs c (getChildren_some hx).1) (by simp) hrest

/-! ## SetCached -/

/-- `SetCached` changes the flag of the node it names and of no other. -/
theorem mem_marked_alterAt_setCachedFlag {m : Bool → Prop} {flag : Bool} {n : Node χ}
    {p : List (List χ)} (hne : p ≠ []) (hp : p ∈ n.paths) {q : List (List χ)} :
    q ∈ (alterAt (fun c => [c.setCachedFlag flag]) p n).marked m ↔
      if q = p then m flag else q ∈ n.marked m := by
  induction p generalizing n q with
  | nil => exact absurd rfl hne
  | cons x rest ih =>
    obtain ⟨c, hx, hrest⟩ := cons_mem_paths.mp hp
    rcases q with _ | ⟨z, q⟩
    · simp
    · cases rest with
      | nil =>
        rw [alterAt_singleton, cons_mem_marked_updateChild (myName_setCachedFlag flag)]
        by_cases hz : z = x
        · subst hz
          rcases q with _ | ⟨w, q⟩
          · simp [hx]
          · simp [cons_mem_marked, getChildren]
        · simp [hz]
      | cons y p =>
        rw [alterAt_cons_cons, cons_mem_marked_updateChild (myName_alterAt _ _)]
        by_cases hz : z = x
        · subst hz
          simp [hx, ih (by simp) hrest, cons_mem_marked (x := z)]
        · simp [hz]

theorem uniq_alterAt_of_uniq {g : Node χ → Node χ} (hname : ∀ c, (g c).myName = c.myName)
    (huniq : ∀ c, c.Uniq → (g c).Uniq) (p : List (List χ)) {n : Node χ} (h : n.Uniq) :
    (alterAt (fun c => [g c]) p n).Uniq := by
  induction p generalizing n with
  | nil => exact h
  | cons x rest ih =>
    cases hx : n.getChildren x with
    | none =>
      have hsame : alterAt (fun c => [g c]) (x :: rest) n = n.withChildrens n.myChildrens := by
        cases rest <;> simp only [alterAt] <;> rw [alterFirst_of_find_none hx]
      rw [hsame, uniq_iff, myChildrens_withChildrens]
      exact uniq_iff.mp h
    | some c =>
      have hc : c.Uniq := (uniq_iff.mp h).2 c (getChildren_some hx).1
      cases rest with
      | nil => exact (uniq_updateChild hname h hx).mpr (huniq c hc)
      | cons y p => exact (uniq_updateChild (myName_alterAt _ _) h hx).mpr (ih hc)

/-! ## Paths that an update does not touch

Of any tree, with sibling names that may repeat. -/

/-- What neither leads through the node that is changed nor through what is put in its
place stays. -/
theorem mem_paths_alterAt {f : Node χ → List (Node χ)} {n : Node χ} {p q : List (List χ)}
    (hq : q ∈ n.paths) (hp : ¬ p <+: q)
    (hf : ∀ c, ∀ d ∈ f c, ¬ p.dropLast ++ [d.myName] <+: q) : q ∈ (alterAt f p n).paths := by
  induction p generalizing n q with
  | nil => exact hq
  | cons x rest ih =>
    cases q with
    | nil => exact nil_mem_paths _
    | cons z q =>
      obtain ⟨c, hc, hqc⟩ := cons_mem_paths.mp hq
      cases rest with
      | nil =>
        have hz : z ≠ x := by
          rintro rfl
          exact hp ⟨q, rfl⟩
        refine cons_mem_paths.mpr ⟨c, ?_, hqc⟩
        show (alterFirst x f n.myChildrens).find? (fun c => c.myName = z) = some c
        rw [find?_alterFirst_of_ne hz]
        · exact hc
        · rintro d - e he rfl
          exact hf d e he ⟨q, rfl⟩
      | cons y p =>
        rw [alterAt_cons_cons, cons_mem_paths_updateChild (myName_alterAt _ _)]
        by_cases hz : z = x
        · subst hz
          rw [if_pos rfl]
          refine ⟨c, hc, ih hqc ?_ fun d e he hpre => ?_⟩
          · exact fun hpre => hp (List.cons_prefix_cons.mpr ⟨rfl, hpre⟩)
          · exact hf d e he (List.cons_prefix_cons.mpr ⟨rfl, hpre⟩)
        · rw [if_neg hz]
          exact hq

/-- Once the components are used up, a child with the name is not met again. -/
theorem doAddLoop_nil {cs cs' : List (Node χ)} {x : List χ} {left : List (List χ)}
    (h : doAddLoop cs x [] = some (cs', left)) : cs' = cs ∧ left = [] := by
  induction cs generalizing cs' left with
  | nil =>
    simp only [doAddLoop, Option.some.injEq, Prod.mk.injEq] at h
    exact ⟨h.1.symm, h.2.symm⟩
  | cons c cs ih =>
    simp only [doAddLoop] at h
    split at h
    · cases h
    · simp only [Option.bind_eq_bind] at h
      obtain ⟨⟨ds, rest⟩, hloop, h⟩ := Option.bind_eq_some_iff.mp h
      simp only [Option.some.injEq, Prod.mk.injEq] at h
      obtain ⟨rfl, rfl⟩ := ih hloop
      exact ⟨h.1.symm, h.2.symm⟩

/-- `do_add` keeps the name of the node and uses all components. -/
theorem doAdd_some {n n' : Node χ} {p left : List (List χ)} (h : doAdd n p = some (n', left)) :
    n'.myName = n.myName ∧ left = [] := by
  obtain ⟨name, b, cs⟩ := n
  cases p with
  | nil =>
    simp only [doAdd, Option.some.injEq, Prod.mk.injEq] at h
    obtain ⟨rfl, rfl⟩ := h
    exact ⟨rfl, rfl⟩
  | cons x rest =>
    simp only [doAdd, Option.bind_eq_bind] at h
    obtain ⟨⟨cs', left'⟩, -, h⟩ := Option.bind_eq_some_iff.mp h
    cases left' with
    | nil =>
      simp only [Option.some.injEq, Prod.mk.injEq] at h
      obtain ⟨rfl, rfl⟩ := h
      exact ⟨rfl, rfl⟩
    | cons y left' =>
      simp only [Option.some.injEq, Prod.mk.injEq] at h
      obtain ⟨rfl, rfl⟩ := h
      exact ⟨rfl, rfl⟩

/-- The first child is replaced by one of the same name. -/
theorem find?_cons_replaced {c c' : Node χ} {cs : List (Node χ)} {x : List χ} (hc : c.myName = x)
    (hc' : c'.myName = x) (z : List χ) : (c' :: cs).find? (fun c => c.myName = z) =
      if z = x then some c' else (c :: cs).find? fun c => c.myName = z := by
  by_cases hz : z = x
  · simp [hz, hc']
  · simp [hz, hc', hc, Ne.symm hz]

/-- The loop of `do_add` meets no child with the name, or changes the first one. -/
theorem doAddLoop_cases {cs cs' : List (Node χ)} {x : List χ} {rest left : List (List χ)}
    (h : doAddLoop cs x (x :: rest) = some (cs', left)) :
    (cs' = cs ∧ left ≠ [] ∧ cs.find? (fun c => c.myName = x) = none) ∨
      ∃ c c', left = [] ∧ cs.find? (fun c => c.myName = x) = some c ∧
        (∀ z, cs'.find? (fun c => c.myName = z) =
          if z = x then some c' else cs.find? fun c => c.myName = z) ∧
        (rest = [] ∧ c' = c.addChildren (new x) ∨
          rest ≠ [] ∧ ∃ left', doAdd c rest = some (c', left')) := by
  induction cs generalizing cs' left with
  | nil =>
    simp only [doAddLoop, Option.some.injEq, Prod.mk.injEq] at h
    exact .inl ⟨h.1.symm, by simp [← h.2], rfl⟩
  | cons c cs ih =>
    simp only [doAddLoop] at h
    by_cases hc : c.myName = x
    · rw [if_pos hc] at h
      cases rest with
      | nil =>
        simp only [Option.some.injEq, Prod.mk.injEq] at h
        obtain ⟨rfl, rfl⟩ := h
        exact .inr ⟨c, _, rfl, by simp [hc], find?_cons_replaced hc hc, .inl ⟨rfl, rfl⟩⟩
      | cons y p =>
        simp only [Option.bind_eq_bind] at h
        obtain ⟨⟨c', left₁⟩, hadd, h⟩ := Option.bind_eq_some_iff.mp h
        obtain ⟨hname, rfl⟩ := doAdd_some hadd
        obtain ⟨⟨ds, left₂⟩, hloop, h⟩ := Option.bind_eq_some_iff.mp h
        simp only [Option.some.injEq, Prod.mk.injEq] at h
        obtain ⟨rfl, rfl⟩ := h
        obtain ⟨rfl, rfl⟩ := doAddLoop_nil hloop
        exact .inr ⟨c, c', rfl, by simp [hc], find?_cons_replaced hc (hname.trans hc),
          .inr ⟨List.cons_ne_nil _ _, [], hadd⟩⟩
    · rw [if_neg hc] at h
      simp only [Option.bind_eq_bind] at h
      obtain ⟨⟨ds, left'⟩, hloop, h⟩ := Option.bind_eq_some_iff.mp h
      simp only [Option.some.injEq, Prod.mk.injEq] at h
      obtain ⟨rfl, rfl⟩ := h
      rcases ih hloop with ⟨rfl, hleft, hnone⟩ | ⟨d, d', hleft, hd, hfind, hadded⟩
      · exact .inl ⟨rfl, hleft, by simp [hc, hnone]⟩
      · refine .inr ⟨d, d', hleft, by simp [hc, hd], fun z => ?_, hadded⟩
        simp only [List.find?_cons, hfind z]
        by_cases hz : z = x
        · simp [hz, hc]
        · simp [hz]

/-- A new child in front hides only what leads through a node of its name. -/
theorem cons_mem_paths_addChildren_of_ne {n c : Node χ} {z : List χ} {q : List (List χ)}
    (hc : c.myName ≠ z) (hq : z :: q ∈ n.paths) : z :: q ∈ (n.addChildren c).paths := by
  rw [cons_mem_paths_addChildren, if_neg hc]
  exact hq

/-- `do_add` of a path that is there puts a node under it, in front of what is there:
only what leads through a node of that name is lost. -/
theorem mem_paths_doAdd {n n' : Node χ} {p q left : List (List χ)}
    (hadd : doAdd n p = some (n', left)) (hq : q ∈ n.paths) (hp : p = [] ∨ ¬ doubled p <+: q) :
    q ∈ n'.paths := by
  induction p generalizing n n' q left with
  | nil =>
    obtain ⟨name, b, cs⟩ := n
    simp only [doAdd, Option.some.injEq, Prod.mk.injEq] at hadd
    rw [← hadd.1]
    exact hq
  | cons x rest ih =>
    cases q with
    | nil => exact nil_mem_paths _
    | cons z q =>
      have hp : ¬ doubled (x :: rest) <+: z :: q := hp.resolve_left (by simp)
      obtain ⟨d, hd, hqd⟩ := cons_mem_paths.mp hq
      obtain ⟨name, b, cs⟩ := n
      have hfound : cs.find? (fun c => c.myName = z) = some d := hd
      simp only [doAdd, Option.bind_eq_bind] at hadd
      obtain ⟨⟨cs', left'⟩, hloop, hadd⟩ := Option.bind_eq_some_iff.mp hadd
      rcases doAddLoop_cases hloop with ⟨rfl, hleft, hnone⟩ | ⟨c, c', rfl, hc, hfind, hadded⟩
      · obtain ⟨y, left', rfl⟩ := List.exists_cons_of_ne_nil hleft
        simp only [Option.some.injEq, Prod.mk.injEq] at hadd
        have hz : (newBranch x left').myName ≠ z := by
          rw [myName_newBranch]
          rintro rfl
          rw [hnone] at hfound
          cases hfound
        rw [← hadd.1]
        exact cons_mem_paths_addChildren_of_ne hz hq
      · simp only [Option.some.injEq, Prod.mk.injEq] at hadd
        have hchild : (Node.mk name b cs').getChildren z =
            if z = x then some c' else (Node.mk name b cs).getChildren z := hfind z
        rw [← hadd.1, cons_mem_paths, hchild]
        by_cases hz : z = x
        · subst hz
          obtain rfl : c = d := Option.some.inj (hc.symm.trans hfound)
          refine ⟨c', if_pos rfl, ?_⟩
          rcases hadded with ⟨rfl, rfl⟩ | ⟨-, left'', hrest⟩
          · cases q with
            | nil => exact nil_mem_paths _
            | cons y q =>
              have hy : (new z).myName ≠ y := by
                rintro rfl
                exact hp ⟨q, rfl⟩
              exact cons_mem_paths_addChildren_of_ne hy hqd
          · refine ih hrest hqd ?_
            cases rest with
            | nil => exact .inl rfl
            | cons y p =>
              refine .inr fun hpre => hp ?_
              rw [doubled_cons_cons]
              exact List.cons_prefix_cons.mpr ⟨rfl, hpre⟩
        · exact ⟨d, by rw [if_neg hz]; exact hd, hqd⟩

end Node

end FspServer
