import Mathlib.Data.List.Basic
import Mathlib.Data.List.Nodup
import Mathlib.Order.Lattice.Nat

/-!
# Trees of linked cells

A tree in memory: every node is a cell at an address of its own, which holds the
address of its parent and those of its children in order. A read of an address
that is not allocated gives `none`.

* `Holds h parent t`: the heap holds the tree `t`, whose root cell has the parent
  `parent`. It depends on the addresses of `t` only (`Holds.congr`).
* `Climbs h p vs as`: following the parents from the cell `p` passes the values
  `vs`, that of the last cell left out, and the addresses `as`.
* `Placed h s parent vs as`: a subtree below the cell `parent`, with the way up.
* `Heap.without`: what is left of a heap when cells have been released and have
  been taken from the children of one cell. The cells can be released one after
  the other (`without_without`), and a node after its children (`free_without`).
* `Becomes h parent t h' t'`: the heap has changed from `h` to `h'` and the tree from
  `t` to `t'`, and nothing else: the cells that are new were free, those that are gone
  are free, and no other cell is touched. A change of a child is a change of its parent
  (`Becomes.child`).
* `Beside h₀ h t`: the heap `h` has the cells of the tree and otherwise those of `h₀`.
-/

namespace LinkedTree

variable {α : Type*}

structure Cell (α : Type*) where
  value : α
  parent : Option Nat
  children : List Nat

/-- The allocated cells by address. -/
abbrev Heap (α : Type*) := Nat → Option (Cell α)

/-- The cell without some of its children. -/
def Cell.unlink (gone : List Nat) (c : Cell α) : Cell α :=
  { c with children := c.children.filter (· ∉ gone) }

namespace Heap

/-- Releases the cell at `a`. -/
def free (h : Heap α) (a : Nat) : Heap α := fun x => if x = a then none else h x

/-- Writes to the cell at `a`; `none` when nothing is allocated there. -/
def update (h : Heap α) (a : Nat) (f : Cell α → Cell α) : Option (Heap α) :=
  (h a).map fun c x => if x = a then some (f c) else h x

/-- The heap with the cells at `gone` released and the children `unlinked` taken
from the cell at `p`. -/
def without (h : Heap α) (gone : List Nat) (p : Nat) (unlinked : List Nat) : Heap α :=
  fun x => if x ∈ gone then none else if x = p then (h x).map (Cell.unlink unlinked) else h x

end Heap

theorem Cell.unlink_nil (c : Cell α) : c.unlink [] = c := by
  simp [Cell.unlink]

theorem Cell.unlink_unlink (as bs : List Nat) (c : Cell α) :
    (c.unlink as).unlink bs = c.unlink (as ++ bs) := by
  simp [Cell.unlink, List.filter_filter, Bool.and_comm]

theorem Heap.without_nil (h : Heap α) (p : Nat) : h.without [] p [] = h := by
  funext x
  have hmap : (h x).map (Cell.unlink []) = h x := by
    cases h x with
    | none => rfl
    | some c => rw [Option.map_some, Cell.unlink_nil]
  simp [without, hmap]

theorem Heap.without_without (h : Heap α) (as bs : List Nat) (p : Nat) (us vs : List Nat) :
    (h.without as p us).without bs p vs = h.without (as ++ bs) p (us ++ vs) := by
  funext x
  simp only [without, List.mem_append]
  by_cases hb : x ∈ bs
  · simp [hb]
  · by_cases ha : x ∈ as
    · simp [hb, ha]
    · by_cases hp : x = p
      · subst hp
        simp [hb, ha, Cell.unlink_unlink, Function.comp_def]
      · simp [hb, ha, hp]

theorem Heap.update_unlink {h : Heap α} {p : Nat} {c : Cell α} (hp : h p = some c)
    (us : List Nat) : h.update p (Cell.unlink us) = some (h.without [] p us) := by
  rw [update, hp, Option.map_some]
  congr 1
  funext x
  by_cases hx : x = p
  · simp [without, hx, hp]
  · simp [without, hx]

/-- Unlinking a node from its parent, releasing what is below it and then the node. -/
theorem Heap.free_without (h : Heap α) {a p : Nat} {below : List Nat} (us : List Nat)
    (hpa : p ≠ a) (hpb : p ∉ below) :
    ((h.without [] p [a]).without below a us).free a = h.without (a :: below) p [a] := by
  funext x
  simp only [without, free, List.mem_cons, List.not_mem_nil, if_false]
  by_cases hx : x = a
  · simp [hx]
  · by_cases hb : x ∈ below
    · simp [hx, hb]
    · by_cases hp : x = p
      · subst hp
        simp [hpa, hpb]
      · simp [hx, hb, hp]

/-- A tree with the address of every node. -/
inductive CellTree (α : Type*) where
  | node (addr : Nat) (value : α) (subs : List (CellTree α))

namespace CellTree

def addr : CellTree α → Nat
  | node a _ _ => a

def value : CellTree α → α
  | node _ v _ => v

def subs : CellTree α → List (CellTree α)
  | node _ _ ts => ts

mutual
def addrs : CellTree α → List Nat
  | node a _ ts => a :: addrsAll ts

def addrsAll : List (CellTree α) → List Nat
  | [] => []
  | t :: ts => addrs t ++ addrsAll ts
end

mutual
def height : CellTree α → Nat
  | node _ _ ts => heightAll ts + 1

def heightAll : List (CellTree α) → Nat
  | [] => 0
  | t :: ts => max (height t) (heightAll ts)
end

theorem addrs_eq (t : CellTree α) : t.addrs = t.addr :: addrsAll t.subs := by
  cases t with
  | node a v ts => rw [addrs, addr, subs]

theorem addr_mem_addrs (t : CellTree α) : t.addr ∈ t.addrs := by
  rw [addrs_eq]
  exact List.mem_cons_self

theorem addrsAll_append (ts us : List (CellTree α)) :
    addrsAll (ts ++ us) = addrsAll ts ++ addrsAll us := by
  induction ts with
  | nil => rfl
  | cons t ts ih => simp [addrsAll, ih]

theorem mem_addrsAll {ts : List (CellTree α)} {x : Nat} :
    x ∈ addrsAll ts ↔ ∃ t ∈ ts, x ∈ t.addrs := by
  induction ts with
  | nil => simp [addrsAll]
  | cons t ts ih => simp [addrsAll, ih]

theorem nodup_of_mem {ts : List (CellTree α)} (hnodup : (addrsAll ts).Nodup) {c : CellTree α}
    (hc : c ∈ ts) : c.addrs.Nodup := by
  obtain ⟨before, after, rfl⟩ := List.append_of_mem hc
  rw [addrsAll_append, addrsAll] at hnodup
  exact (List.nodup_append.mp (List.nodup_append.mp hnodup).2.1).1

/-- The subtrees of one node share no address. -/
theorem siblings_apart {before after : List (CellTree α)} {c d : CellTree α}
    (hnodup : (addrsAll (before ++ c :: after)).Nodup) (hd : d ∈ before ++ after) {x : Nat}
    (hx : x ∈ d.addrs) : x ∉ c.addrs := by
  rw [addrsAll_append, addrsAll, List.nodup_append, List.nodup_append] at hnodup
  obtain ⟨-, ⟨-, -, hafter⟩, hbefore⟩ := hnodup
  intro hxc
  rcases List.mem_append.mp hd with hd | hd
  · exact hbefore x (mem_addrsAll.mpr ⟨d, hd, hx⟩) x (List.mem_append_left _ hxc) rfl
  · exact hafter x hxc x (mem_addrsAll.mpr ⟨d, hd, hx⟩) rfl

theorem height_le_heightAll {t : CellTree α} {ts : List (CellTree α)} (ht : t ∈ ts) :
    t.height ≤ heightAll ts := by
  induction ts with
  | nil => cases ht
  | cons u us ih =>
    rw [heightAll]
    rcases List.mem_cons.mp ht with rfl | ht
    · exact Nat.le_max_left _ _
    · exact Nat.le_trans (ih ht) (Nat.le_max_right _ _)

theorem height_le_of_mem_subs {t c : CellTree α} (hc : c ∈ t.subs) : c.height + 1 ≤ t.height := by
  cases t with
  | node a v ts =>
    rw [height]
    exact Nat.succ_le_succ (height_le_heightAll hc)

theorem height_pos (t : CellTree α) : 0 < t.height := by
  cases t with
  | node a v ts => exact Nat.succ_pos _

theorem subs_addrs_subset {t : CellTree α} : addrsAll t.subs ⊆ t.addrs := by
  rw [addrs_eq]
  exact List.subset_cons_self _ _

end CellTree

open CellTree

mutual
/-- The heap holds the tree, its root cell having the given parent. -/
def Holds (h : Heap α) (parent : Option Nat) : CellTree α → Prop
  | node a v ts => h a = some ⟨v, parent, ts.map addr⟩ ∧ HoldsAll h (some a) ts

def HoldsAll (h : Heap α) (parent : Option Nat) : List (CellTree α) → Prop
  | [] => True
  | t :: ts => Holds h parent t ∧ HoldsAll h parent ts
end

theorem holdsAll_iff {h : Heap α} {parent : Option Nat} {ts : List (CellTree α)} :
    HoldsAll h parent ts ↔ ∀ t ∈ ts, Holds h parent t := by
  induction ts with
  | nil => simp [HoldsAll]
  | cons t ts ih => simp [HoldsAll, ih]

theorem Holds.subs {h : Heap α} {parent : Option Nat} {t : CellTree α} (ht : Holds h parent t) :
    ∀ c ∈ t.subs, Holds h (some t.addr) c := by
  cases t with
  | node a v ts => exact holdsAll_iff.mp ht.2

theorem Holds.cell {h : Heap α} {parent : Option Nat} {t : CellTree α} (ht : Holds h parent t) :
    h t.addr = some ⟨t.value, parent, t.subs.map addr⟩ := by
  cases t with
  | node a v ts => exact ht.1

theorem Holds.parent_eq {h : Heap α} {parent parent' : Option Nat} {t : CellTree α}
    (ht : Holds h parent t) (ht' : Holds h parent' t) : parent = parent' :=
  congrArg Cell.parent (Option.some.inj (ht.cell.symm.trans ht'.cell))

theorem Holds.bind_parent {h : Heap α} {parent : Option Nat} {t : CellTree α}
    (ht : Holds h parent t) : (h t.addr).bind Cell.parent = parent := by
  rw [ht.cell]
  rfl

mutual
/-- A tree is held by every heap that has its cells. -/
theorem Holds.congr {h h' : Heap α} {parent : Option Nat} (t : CellTree α)
    (hsame : ∀ x ∈ t.addrs, h' x = h x) (ht : Holds h parent t) : Holds h' parent t := by
  match t with
  | node a v ts =>
    obtain ⟨hcell, hsubs⟩ := ht
    rw [addrs, List.forall_mem_cons] at hsame
    exact ⟨hsame.1.trans hcell, HoldsAll.congr ts hsame.2 hsubs⟩

theorem HoldsAll.congr {h h' : Heap α} {parent : Option Nat} (ts : List (CellTree α))
    (hsame : ∀ x ∈ addrsAll ts, h' x = h x) (hts : HoldsAll h parent ts) :
    HoldsAll h' parent ts := by
  match ts with
  | [] => trivial
  | t :: ts =>
    obtain ⟨ht, hts⟩ := hts
    rw [addrsAll, List.forall_mem_append] at hsame
    exact ⟨Holds.congr t hsame.1 ht, HoldsAll.congr ts hsame.2 hts⟩
end

/-- Releasing the subtree of a child and unlinking it. -/
theorem Holds.without_child {h : Heap α} {parent : Option Nat} {a : Nat} {v : α}
    {before after : List (CellTree α)} {c : CellTree α}
    (ht : Holds h parent (node a v (before ++ c :: after)))
    (hnodup : (node a v (before ++ c :: after)).addrs.Nodup) :
    Holds (h.without c.addrs a [c.addr]) parent (node a v (before ++ after)) := by
  rw [addrs, List.nodup_cons] at hnodup
  obtain ⟨ha, hnodup⟩ := hnodup
  have hac : a ∉ c.addrs := fun hac => ha (mem_addrsAll.mpr ⟨c, by simp, hac⟩)
  have hother : ∀ d ∈ before ++ after, d.addr ≠ c.addr := fun d hd heq =>
    siblings_apart hnodup hd (addr_mem_addrs d) (heq ▸ addr_mem_addrs c)
  refine ⟨?_, holdsAll_iff.mpr fun d hd => ?_⟩
  · have hfilter : ∀ ds ⊆ before ++ after, (ds.map addr).filter (· ∉ [c.addr]) = ds.map addr := by
      intro ds hds
      refine List.filter_eq_self.mpr fun x hx => ?_
      obtain ⟨d, hd, rfl⟩ := List.mem_map.mp hx
      simpa using hother d (hds hd)
    have hbefore := hfilter before (List.subset_append_left _ _)
    have hafter := hfilter after (List.subset_append_right _ _)
    rw [Heap.without, if_neg hac, if_pos rfl, ht.1, Option.map_some, Cell.unlink]
    simp only [List.map_append, List.map_cons, List.filter_append, hbefore]
    rw [List.filter_cons_of_neg (by simp), hafter]
  · have hmem : d ∈ before ++ c :: after :=
      ((List.sublist_cons_self c after).append_left before).subset hd
    refine (ht.subs d hmem).congr d fun x hx => ?_
    have hxa : x ≠ a := fun hxa => ha (hxa ▸ mem_addrsAll.mpr ⟨d, hmem, hx⟩)
    rw [Heap.without, if_neg (siblings_apart hnodup hd hx), if_neg hxa]

/-- A change below a child. -/
theorem Holds.without_below {h : Heap α} {parent : Option Nat} {a : Nat} {v : α}
    {before after : List (CellTree α)} {c c' : CellTree α}
    (ht : Holds h parent (node a v (before ++ c :: after)))
    (hnodup : (node a v (before ++ c :: after)).addrs.Nodup) {gone us : List Nat} {q : Nat}
    (hgone : ∀ x ∈ gone, x ∈ c.addrs) (hq : q ∈ c.addrs)
    (hc' : Holds (h.without gone q us) (some a) c') (haddr : c'.addr = c.addr) :
    Holds (h.without gone q us) parent (node a v (before ++ c' :: after)) := by
  rw [addrs, List.nodup_cons] at hnodup
  obtain ⟨ha, hnodup⟩ := hnodup
  have hkeep : ∀ x, x ∉ c.addrs → h.without gone q us x = h x := fun x hx => by
    have hxq : x ≠ q := fun hxq => hx (hxq ▸ hq)
    rw [Heap.without, if_neg fun hxg => hx (hgone x hxg), if_neg hxq]
  have hac : a ∉ c.addrs := fun hac => ha (mem_addrsAll.mpr ⟨c, by simp, hac⟩)
  refine ⟨?_, holdsAll_iff.mpr fun d hd => ?_⟩
  · rw [hkeep a hac, ht.1]
    simp [haddr]
  · have hcases : d = c' ∨ d ∈ before ++ after := by
      rcases List.mem_append.mp hd with hd | hd
      · exact Or.inr (List.mem_append_left _ hd)
      · rcases List.mem_cons.mp hd with rfl | hd
        · exact Or.inl rfl
        · exact Or.inr (List.mem_append_right _ hd)
    rcases hcases with rfl | hd
    · exact hc'
    · have hmem : d ∈ before ++ c :: after :=
        ((List.sublist_cons_self c after).append_left before).subset hd
      exact (ht.subs d hmem).congr d fun x hx => hkeep x (siblings_apart hnodup hd hx)

/-- Following the parents from `p` to the cell that has none. -/
inductive Climbs (h : Heap α) : Nat → List α → List Nat → Prop
  | root {r : Nat} {c : Cell α} : h r = some c → c.parent = none → Climbs h r [] [r]
  | up {p q : Nat} {c : Cell α} {vs : List α} {as : List Nat} :
      h p = some c → c.parent = some q → Climbs h q vs as → Climbs h p (c.value :: vs) (p :: as)

theorem Climbs.head_mem {h : Heap α} {p : Nat} {vs : List α} {as : List Nat}
    (hp : Climbs h p vs as) : p ∈ as := by
  cases hp with
  | root _ _ => exact List.mem_cons_self
  | up _ _ _ => exact List.mem_cons_self

theorem Climbs.exists_cell {h : Heap α} {p : Nat} {vs : List α} {as : List Nat}
    (hp : Climbs h p vs as) : ∃ c, h p = some c := by
  cases hp with
  | root hr _ => exact ⟨_, hr⟩
  | up hp _ _ => exact ⟨_, hp⟩

/-- The way up does not depend on the children of the cells it passes. -/
theorem Climbs.congr {h h' : Heap α} {p : Nat} {vs : List α} {as : List Nat}
    (hp : Climbs h p vs as)
    (hsame : ∀ x ∈ as, ∀ c, h x = some c →
      ∃ c', h' x = some c' ∧ c'.value = c.value ∧ c'.parent = c.parent) :
    Climbs h' p vs as := by
  induction hp with
  | root hr hnone =>
    obtain ⟨c', hc', -, hparent⟩ := hsame _ (List.mem_singleton_self _) _ hr
    exact .root hc' (hparent.trans hnone)
  | up hp hq _ ih =>
    rw [List.forall_mem_cons] at hsame
    obtain ⟨c', hc', hvalue, hparent⟩ := hsame.1 _ hp
    rw [← hvalue]
    exact .up hc' (hparent.trans hq) (ih hsame.2)

/-- Releasing other cells and unlinking children leaves the way up. -/
theorem Climbs.without {h : Heap α} {p : Nat} {vs : List α} {as : List Nat}
    (hp : Climbs h p vs as) {gone : List Nat} (hgone : ∀ x ∈ as, x ∉ gone) (q : Nat)
    (unlinked : List Nat) : Climbs (h.without gone q unlinked) p vs as := by
  refine hp.congr fun x hx c hc => ?_
  rw [Heap.without, if_neg (hgone x hx), hc]
  split
  · exact ⟨c.unlink unlinked, rfl, rfl, rfl⟩
  · exact ⟨c, rfl, rfl, rfl⟩

/-- A subtree in its place: the cells of the heap that lead up from its parent. -/
structure Placed (h : Heap α) (s : CellTree α) (parent : Nat) (vs : List α)
    (as : List Nat) : Prop where
  holds : Holds h (some parent) s
  climbs : Climbs h parent vs as
  nodup : s.addrs.Nodup
  disjoint : ∀ a ∈ as, a ∉ s.addrs

/-- A child of the root is in its place. -/
theorem placed_of_root {h : Heap α} {t c : CellTree α} (ht : Holds h none t)
    (hnodup : t.addrs.Nodup) (hc : c ∈ t.subs) : Placed h c t.addr [] [t.addr] := by
  cases t with
  | node a v ts =>
    rw [addrs, List.nodup_cons] at hnodup
    refine ⟨ht.subs c hc, .root ht.1 rfl, nodup_of_mem hnodup.2 hc, ?_⟩
    exact List.forall_mem_singleton.mpr fun ha => hnodup.1 (mem_addrsAll.mpr ⟨c, hc, ha⟩)

theorem Placed.child {h : Heap α} {s c : CellTree α} {parent : Nat} {vs : List α}
    {as : List Nat} (hs : Placed h s parent vs as) (hc : c ∈ s.subs) :
    Placed h c s.addr (s.value :: vs) (s.addr :: as) := by
  cases s with
  | node a v ts =>
    have hnodup := hs.nodup
    have hdisjoint := hs.disjoint
    rw [addrs, List.nodup_cons] at hnodup
    simp only [addrs, List.mem_cons, not_or] at hdisjoint
    have hsub : ∀ x, x ∈ c.addrs → x ∈ addrsAll ts := fun x hx => mem_addrsAll.mpr ⟨c, hc, hx⟩
    refine ⟨hs.holds.subs c hc, .up hs.holds.1 rfl hs.climbs, nodup_of_mem hnodup.2 hc, ?_⟩
    exact List.forall_mem_cons.mpr ⟨fun hx => hnodup.1 (hsub _ hx),
      fun x hx hxc => (hdisjoint x hx).2 (hsub x hxc)⟩

/-! ## Allocation and change -/

namespace Heap

/-- Puts a cell at the address `a`. -/
def alloc (h : Heap α) (a : Nat) (c : Cell α) : Heap α := fun x => if x = a then some c else h x

/-- Nothing is allocated from some address on. -/
def Bounded (h : Heap α) : Prop := ∃ n, ∀ x, n ≤ x → h x = none

end Heap

/-- Where new cells are put: at any address that is free. -/
structure Allocator (α : Type*) where
  fresh : Heap α → Nat
  free : ∀ h : Heap α, h.Bounded → h (fresh h) = none

/-- The lowest free address. -/
noncomputable def Allocator.first : Allocator α where
  fresh h := sInf {x | h x = none}
  free h hbounded := by
    obtain ⟨n, hn⟩ := hbounded
    exact Nat.sInf_mem (s := {x | h x = none}) ⟨n, hn n (Nat.le_refl n)⟩

mutual
theorem Holds.isSome {h : Heap α} {parent : Option Nat} (t : CellTree α) (ht : Holds h parent t)
    {x : Nat} (hx : x ∈ t.addrs) : (h x).isSome := by
  match t with
  | node a v ts =>
    rcases List.mem_cons.mp hx with rfl | hx
    · rw [ht.1]
      rfl
    · exact HoldsAll.isSome ts ht.2 hx

theorem HoldsAll.isSome {h : Heap α} {parent : Option Nat} (ts : List (CellTree α))
    (hts : HoldsAll h parent ts) {x : Nat} (hx : x ∈ addrsAll ts) : (h x).isSome := by
  match ts with
  | [] => cases hx
  | t :: ts =>
    rcases List.mem_append.mp hx with hx | hx
    · exact Holds.isSome t hts.1 hx
    · exact HoldsAll.isSome ts hts.2 hx
end

/-- A change of a tree in its heap. -/
structure Becomes (h : Heap α) (parent : Option Nat) (t : CellTree α) (h' : Heap α)
    (t' : CellTree α) : Prop where
  holds : Holds h' parent t'
  addr : t'.addr = t.addr
  nodup : t'.addrs.Nodup
  fresh : ∀ x ∈ t'.addrs, x ∈ t.addrs ∨ h x = none
  freed : ∀ x ∈ t.addrs, x ∉ t'.addrs → h' x = none
  frame : ∀ x, x ∉ t.addrs → x ∉ t'.addrs → h' x = h x

theorem exists_forall_lt (as : List Nat) : ∃ n, ∀ x ∈ as, x < n := by
  induction as with
  | nil => exact ⟨0, fun _ hx => absurd hx List.not_mem_nil⟩
  | cons a as ih =>
    obtain ⟨n, hn⟩ := ih
    refine ⟨max (a + 1) n, List.forall_mem_cons.mpr ⟨?_, fun x hx => ?_⟩⟩
    · exact Nat.lt_of_lt_of_le (Nat.lt_succ_self a) (Nat.le_max_left _ _)
    · exact Nat.lt_of_lt_of_le (hn x hx) (Nat.le_max_right _ _)

/-- The cells of a node: those of one child, and those of the others. -/
theorem addrs_perm_child (a : Nat) (v : α) (before after : List (CellTree α)) (c : CellTree α) :
    (node a v (before ++ c :: after)).addrs.Perm
      (c.addrs ++ (node a v (before ++ after)).addrs) := by
  rw [addrs, addrs, addrsAll_append, addrsAll_append, addrsAll]
  refine ((List.perm_append_comm_assoc ..).cons a).trans ?_
  exact List.perm_middle.symm

namespace Becomes

variable {h h' h'' : Heap α} {parent : Option Nat} {t t' t'' : CellTree α}

theorem refl (ht : Holds h parent t) (hnodup : t.addrs.Nodup) : Becomes h parent t h t where
  holds := ht
  addr := rfl
  nodup := hnodup
  fresh _ hx := .inl hx
  freed _ hx hx' := absurd hx hx'
  frame _ _ _ := rfl

theorem trans (hb : Becomes h parent t h' t') (hb' : Becomes h' parent t' h'' t'') :
    Becomes h parent t h'' t'' where
  holds := hb'.holds
  addr := hb'.addr.trans hb.addr
  nodup := hb'.nodup
  fresh x hx := by
    rcases hb'.fresh x hx with hx' | hfree
    · exact hb.fresh x hx'
    · by_cases hxt : x ∈ t.addrs
      · exact .inl hxt
      · by_cases hxt' : x ∈ t'.addrs
        · exact hb.fresh x hxt'
        · exact .inr ((hb.frame x hxt hxt').symm.trans hfree)
  freed x hx hx'' := by
    by_cases hx' : x ∈ t'.addrs
    · exact hb'.freed x hx' hx''
    · exact (hb'.frame x hx' hx'').trans (hb.freed x hx hx')
  frame x hx hx'' := by
    by_cases hx' : x ∈ t'.addrs
    · have hfree : h x = none := (hb.fresh x hx').resolve_left hx
      exact (hb'.freed x hx' hx'').trans hfree.symm
    · exact (hb'.frame x hx' hx'').trans (hb.frame x hx hx')

theorem bounded (hb : Becomes h parent t h' t') (hbounded : h.Bounded) : h'.Bounded := by
  obtain ⟨n, hn⟩ := hbounded
  obtain ⟨m, hm⟩ := exists_forall_lt (t.addrs ++ t'.addrs)
  refine ⟨max n m, fun x hx => ?_⟩
  have hout : x ∉ t.addrs ++ t'.addrs := fun hmem =>
    Nat.lt_irrefl x (Nat.lt_of_lt_of_le (hm x hmem) (Nat.le_trans (Nat.le_max_right n m) hx))
  rw [List.mem_append, not_or] at hout
  exact (hb.frame x hout.1 hout.2).trans (hn x (Nat.le_trans (Nat.le_max_left n m) hx))

/-- A change of a child is a change of its parent: the other cells are neither new nor
gone. -/
theorem child {a : Nat} {v : α} {before after : List (CellTree α)} {c c' : CellTree α}
    (hb : Becomes h (some a) c h' c') (ht : Holds h parent (node a v (before ++ c :: after)))
    (hnodup : (node a v (before ++ c :: after)).addrs.Nodup) :
    Becomes h parent (node a v (before ++ c :: after)) h'
      (node a v (before ++ c' :: after)) := by
  have hperm := addrs_perm_child a v before after c
  have hperm' := addrs_perm_child a v before after c'
  have hnodup' := hperm.nodup_iff.mp hnodup
  rw [List.nodup_append'] at hnodup'
  obtain ⟨-, hothers, hapart⟩ := hnodup'
  -- the cells of the others are allocated and not the child's, before and after
  have hother : ∀ x ∈ (node a v (before ++ after)).addrs, x ∉ c'.addrs ∧ h' x = h x := by
    intro x hx
    have hxc : x ∉ c.addrs := fun hxc => hapart hxc hx
    have hsome : (h x).isSome :=
      Holds.isSome _ ht (hperm.mem_iff.mpr (List.mem_append_right _ hx))
    have hxc' : x ∉ c'.addrs := fun hxc' => by
      rw [(hb.fresh x hxc').resolve_left hxc] at hsome
      cases hsome
    exact ⟨hxc', hb.frame x hxc hxc'⟩
  have hsibling : ∀ d ∈ before ++ after, ∀ x ∈ d.addrs, h' x = h x := fun d hd x hx =>
    (hother x (List.mem_cons_of_mem a (mem_addrsAll.mpr ⟨d, hd, hx⟩))).2
  constructor
  · refine ⟨?_, holdsAll_iff.mpr fun d hd => ?_⟩
    · rw [(hother a List.mem_cons_self).2, ht.1]
      simp [hb.addr]
    · have hmem : d = c' ∨ d ∈ before ++ after := by
        simp only [List.mem_append, List.mem_cons] at hd ⊢
        tauto
      rcases hmem with rfl | hmem
      · exact hb.holds
      · have hd' : d ∈ before ++ c :: after :=
          ((List.sublist_cons_self c after).append_left before).subset hmem
        exact (ht.subs d hd').congr d (hsibling d hmem)
  · rfl
  · refine hperm'.nodup_iff.mpr (List.nodup_append'.mpr ⟨hb.nodup, hothers, ?_⟩)
    exact fun x hx hx' => (hother x hx').1 hx
  · intro x hx
    rcases List.mem_append.mp (hperm'.mem_iff.mp hx) with hx | hx
    · exact (hb.fresh x hx).imp_left fun hxc => hperm.mem_iff.mpr (List.mem_append_left _ hxc)
    · exact .inl (hperm.mem_iff.mpr (List.mem_append_right _ hx))
  · intro x hx hx'
    rw [hperm'.mem_iff, List.mem_append, not_or] at hx'
    rcases List.mem_append.mp (hperm.mem_iff.mp hx) with hx | hx
    · exact hb.freed x hx hx'.1
    · exact absurd hx hx'.2
  · intro x hx hx'
    rw [hperm.mem_iff, List.mem_append, not_or] at hx
    rw [hperm'.mem_iff, List.mem_append, not_or] at hx'
    exact hb.frame x hx.1 hx'.1

/-- Releasing a child and unlinking it. -/
theorem without_child {a : Nat} {v : α} {before after : List (CellTree α)} {c : CellTree α}
    (ht : Holds h parent (node a v (before ++ c :: after)))
    (hnodup : (node a v (before ++ c :: after)).addrs.Nodup) :
    Becomes h parent (node a v (before ++ c :: after)) (h.without c.addrs a [c.addr])
      (node a v (before ++ after)) := by
  have hperm := addrs_perm_child a v before after c
  have hsub : (node a v (before ++ after)).addrs ⊆ (node a v (before ++ c :: after)).addrs :=
    fun x hx => hperm.mem_iff.mpr (List.mem_append_right _ hx)
  constructor
  · exact ht.without_child hnodup
  · rfl
  · exact (List.nodup_append'.mp (hperm.nodup_iff.mp hnodup)).2.1
  · exact fun x hx => .inl (hsub hx)
  · intro x hx hx'
    have hxc : x ∈ c.addrs :=
      (List.mem_append.mp (hperm.mem_iff.mp hx)).resolve_right hx'
    rw [Heap.without, if_pos hxc]
  · intro x hx hx'
    have hxc : x ∉ c.addrs := fun hxc => hx (hperm.mem_iff.mpr (List.mem_append_left _ hxc))
    have hxa : x ≠ a := fun hxa => hx' (hxa ▸ List.mem_cons_self)
    rw [Heap.without, if_neg hxc, if_neg hxa]

/-- Writing a value. -/
theorem set_value {a : Nat} {v : α} {ts : List (CellTree α)} (f : α → α)
    (ht : Holds h parent (node a v ts)) (hnodup : (node a v ts).addrs.Nodup) :
    ∃ h', h.update a (fun c => { c with value := f c.value }) = some h' ∧
      Becomes h parent (node a v ts) h' (node a (f v) ts) := by
  refine ⟨fun x => if x = a then some ⟨f v, parent, ts.map CellTree.addr⟩ else h x, ?_, ?_⟩
  · rw [Heap.update, ht.1]
    rfl
  · rw [addrs, List.nodup_cons] at hnodup
    have hbelow : ∀ x ∈ addrsAll ts, x ≠ a := fun x hx hxa => hnodup.1 (hxa ▸ hx)
    constructor
    · exact ⟨if_pos rfl, ht.2.congr ts fun x hx => if_neg (hbelow x hx)⟩
    · rfl
    · exact List.nodup_cons.mpr hnodup
    · exact fun x hx => .inl hx
    · exact fun x hx hx' => absurd hx hx'
    · refine fun x hx _ => if_neg ?_
      rintro rfl
      exact hx List.mem_cons_self

/-- Linking a new cell in front of the children. -/
theorem push_front {a b : Nat} {v w : α} {ts : List (CellTree α)}
    (ht : Holds h parent (node a v ts)) (hnodup : (node a v ts).addrs.Nodup) (hb : h b = none) :
    ∃ h', (h.alloc b ⟨w, some a, []⟩).update a
        (fun c => { c with children := b :: c.children }) = some h' ∧
      Becomes h parent (node a v ts) h' (node a v (node b w [] :: ts)) := by
  have hmem : ∀ x ∈ (node a v ts).addrs, x ≠ b := fun x hx hxb => by
    have hsome := Holds.isSome _ ht hx
    rw [hxb, hb] at hsome
    cases hsome
  have hab : a ≠ b := hmem a List.mem_cons_self
  have hacell : h.alloc b ⟨w, some a, []⟩ a = some ⟨v, parent, ts.map CellTree.addr⟩ := by
    rw [Heap.alloc, if_neg hab, ht.1]
  refine ⟨fun x => if x = a then some ⟨v, parent, b :: ts.map CellTree.addr⟩
    else h.alloc b ⟨w, some a, []⟩ x, ?_, ?_⟩
  · rw [Heap.update, hacell]
    rfl
  · rw [addrs, List.nodup_cons] at hnodup
    have haddrs : (node a v (node b w [] :: ts)).addrs = a :: b :: addrsAll ts := rfl
    have hold : ∀ x, x ≠ a → x ≠ b → (if x = a then some ⟨v, parent, b :: ts.map CellTree.addr⟩
        else h.alloc b ⟨w, some a, []⟩ x) = h x := fun x hxa hxb => by
      rw [if_neg hxa, Heap.alloc, if_neg hxb]
    constructor
    · refine ⟨if_pos rfl, ⟨?_, trivial⟩, ?_⟩
      · exact (if_neg hab.symm).trans (if_pos rfl)
      · refine ht.2.congr ts fun x hx => hold x ?_ ?_
        · exact fun hxa => hnodup.1 (hxa ▸ hx)
        · exact hmem x (List.mem_cons_of_mem a hx)
    · rfl
    · rw [haddrs]
      refine List.nodup_cons.mpr ⟨?_, List.nodup_cons.mpr ⟨?_, hnodup.2⟩⟩
      · exact List.not_mem_cons_of_ne_of_not_mem hab hnodup.1
      · exact fun hbts => hmem b (List.mem_cons_of_mem a hbts) rfl
    · intro x hx
      rw [haddrs, List.mem_cons, List.mem_cons] at hx
      rcases hx with rfl | rfl | hx
      · exact .inl List.mem_cons_self
      · exact .inr hb
      · exact .inl (List.mem_cons_of_mem a hx)
    · intro x hx hx'
      rw [haddrs, List.mem_cons, List.mem_cons, not_or, not_or] at hx'
      rcases List.mem_cons.mp hx with hx | hx
      · exact absurd hx hx'.1
      · exact absurd hx hx'.2.2
    · intro x _ hx'
      rw [haddrs, List.mem_cons, List.mem_cons, not_or, not_or] at hx'
      exact hold x hx'.1 hx'.2.1

end Becomes

/-- Next to what the memory held before, it holds the nodes of one tree. -/
structure Beside (h₀ h : Heap α) (t : CellTree α) : Prop where
  holds : Holds h none t
  nodup : t.addrs.Nodup
  apart : ∀ x ∈ t.addrs, h₀ x = none
  same : ∀ x, x ∉ t.addrs → h x = h₀ x

namespace Beside

variable {h₀ h h' : Heap α} {t t' : CellTree α}

theorem becomes (hb : Beside h₀ h t) (hchange : Becomes h none t h' t') : Beside h₀ h' t' where
  holds := hchange.holds
  nodup := hchange.nodup
  apart x hx := by
    rcases hchange.fresh x hx with hx | hfree
    · exact hb.apart x hx
    · by_cases hxt : x ∈ t.addrs
      · exact hb.apart x hxt
      · exact (hb.same x hxt).symm.trans hfree
  same x hx := by
    by_cases hxt : x ∈ t.addrs
    · exact (hchange.freed x hxt hx).trans (hb.apart x hxt).symm
    · exact (hchange.frame x hxt hx).trans (hb.same x hxt)

theorem bounded (hb : Beside h₀ h t) (h₀b : h₀.Bounded) : h.Bounded := by
  obtain ⟨n, hn⟩ := h₀b
  obtain ⟨m, hm⟩ := exists_forall_lt t.addrs
  refine ⟨max n m, fun x hx => ?_⟩
  have hout : x ∉ t.addrs := fun hmem =>
    Nat.lt_irrefl x (Nat.lt_of_lt_of_le (hm x hmem) (Nat.le_trans (Nat.le_max_right n m) hx))
  exact (hb.same x hout).trans (hn x (Nat.le_trans (Nat.le_max_left n m) hx))

/-- A single cell at a free address. -/
theorem alloc {a : Nat} (v : α) (ha : h a = none) :
    Beside h (h.alloc a ⟨v, none, []⟩) (node a v []) where
  holds := ⟨if_pos rfl, trivial⟩
  nodup := List.nodup_singleton a
  apart x hx := by
    obtain rfl := List.mem_singleton.mp hx
    exact ha
  same x hx := if_neg fun hxa => hx (List.mem_singleton.mpr hxa)

end Beside

end LinkedTree
