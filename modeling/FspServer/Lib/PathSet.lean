import Mathlib.Data.Set.Insert
import Mathlib.Data.List.Basic

/-!
# Sets of paths

A tree of named entries, seen from outside, is the set of the paths that
resolve in it: a set of lists of names that is closed under prefixes. The
operations on such a set:

* `grow S p` adds `p` and the directories above it;
* `cut S p` removes `p` and everything below it;
* `move S p w` gives the last name of `p` the new value `w`, in `p` and in
  everything below it (`relabel` is its effect on one path).

A `Store` is a set of paths closed under prefixes, some of which carry a flag; its
operations are the ones above.

`foldl_grow_leaves`: a set of paths is rebuilt from nothing by growing it with
its leaves, in any order; `not_mem_grow_leaves`: on the way no leaf is already
there when its turn comes.
-/

namespace PathSet

variable {α : Type*}

/-- Every prefix of a path in the set is in the set. -/
def PrefixClosed (S : Set (List α)) : Prop := ∀ p q, p <+: q → q ∈ S → p ∈ S

/-- A path of the set that no path of the set extends. -/
def IsLeaf (S : Set (List α)) (p : List α) : Prop := p ∈ S ∧ ∀ x, p ++ [x] ∉ S

/-- Adds `p` and all its prefixes. -/
def grow (S : Set (List α)) (p : List α) : Set (List α) := {q | q ∈ S ∨ q <+: p}

/-- Removes `p` and all its extensions. -/
def cut (S : Set (List α)) (p : List α) : Set (List α) := {q | q ∈ S ∧ ¬ p <+: q}

/-- Replaces the last name of `p` by `w` in the paths that extend `p`. -/
def relabel [DecidableEq α] (w : α) : List α → List α → List α
  | [x], z :: q => if z = x then w :: q else z :: q
  | x :: y :: p, z :: q => if z = x then z :: relabel w (y :: p) q else z :: q
  | _, q => q

/-- The set after the last name of `p` became `w`. -/
def move [DecidableEq α] (S : Set (List α)) (p : List α) (w : α) : Set (List α) :=
  {q | ∃ q₀ ∈ S, relabel w p q₀ = q}

/-- The path with its last name repeated. -/
def doubled (p : List α) : List α := p ++ p.getLast?.toList

theorem doubled_cons_cons (x y : α) (p : List α) :
    doubled (x :: y :: p) = x :: doubled (y :: p) := by
  simp [doubled]

@[simp] theorem mem_grow {S : Set (List α)} {p q : List α} : q ∈ grow S p ↔ q ∈ S ∨ q <+: p :=
  Iff.rfl

@[simp] theorem mem_cut {S : Set (List α)} {p q : List α} : q ∈ cut S p ↔ q ∈ S ∧ ¬ p <+: q :=
  Iff.rfl

@[simp] theorem relabel_nil [DecidableEq α] (w : α) (p : List α) : relabel w p [] = [] := by
  rcases p with _ | ⟨x, _ | ⟨y, p⟩⟩ <;> rfl

/-- A path outside the part that moves keeps its names. -/
theorem relabel_of_not_isPrefix [DecidableEq α] {w : α} {p q : List α} (h : ¬ p <+: q) :
    relabel w p q = q := by
  induction p generalizing q with
  | nil => exact absurd (List.nil_prefix) h
  | cons x p ih =>
    cases q with
    | nil => exact relabel_nil w _
    | cons z q =>
      cases p with
      | nil =>
        have hz : z ≠ x := fun hz => h (by simp [hz])
        simp [relabel, hz]
      | cons y p =>
        by_cases hz : z = x
        · have hpq : ¬ y :: p <+: q := fun hpq => h (List.cons_prefix_cons.mpr ⟨hz.symm, hpq⟩)
          simp [relabel, ih hpq]
        · simp [relabel, hz]

@[simp] theorem nil_mem_move [DecidableEq α] {S : Set (List α)} {p : List α} {w : α} :
    [] ∈ move S p w ↔ [] ∈ S := by
  constructor
  · rintro ⟨q₀, hq₀, hr⟩
    obtain rfl : q₀ = [] := by
      rcases p with _ | ⟨x, _ | ⟨y, p⟩⟩ <;> rcases q₀ with _ | ⟨z, q⟩ <;> simp [relabel] at hr ⊢ <;>
        split at hr <;> simp at hr
    exact hq₀
  · exact fun h => ⟨[], h, relabel_nil w p⟩

/-- Moving a top-level name. -/
theorem cons_mem_move_singleton [DecidableEq α] {S : Set (List α)} {x w z : α} {q : List α} :
    z :: q ∈ move S [x] w ↔ (z = w ∧ x :: q ∈ S) ∨ (z ≠ x ∧ z :: q ∈ S) := by
  constructor
  · rintro ⟨q₀, hq₀, hr⟩
    rcases q₀ with _ | ⟨y, q₀⟩
    · simp at hr
    · by_cases hy : y = x
      · subst hy
        simp only [relabel, ↓reduceIte, List.cons.injEq] at hr
        exact Or.inl ⟨hr.1.symm, hr.2 ▸ hq₀⟩
      · simp only [relabel, hy, ↓reduceIte, List.cons.injEq] at hr
        obtain ⟨rfl, rfl⟩ := hr
        exact Or.inr ⟨hy, hq₀⟩
  · rintro (⟨rfl, hq⟩ | ⟨hz, hq⟩)
    · exact ⟨x :: q, hq, by simp [relabel]⟩
    · exact ⟨z :: q, hq, by simp [relabel, hz]⟩

/-- Moving a name further down stays below the first name of the path. -/
theorem cons_mem_move_cons [DecidableEq α] {S : Set (List α)} {x y w z : α} {p q : List α} :
    z :: q ∈ move S (x :: y :: p) w ↔
      (z = x ∧ q ∈ move {r | x :: r ∈ S} (y :: p) w) ∨ (z ≠ x ∧ z :: q ∈ S) := by
  constructor
  · rintro ⟨q₀, hq₀, hr⟩
    rcases q₀ with _ | ⟨v, q₀⟩
    · simp at hr
    · by_cases hv : v = x
      · subst hv
        simp only [relabel, ↓reduceIte, List.cons.injEq] at hr
        exact Or.inl ⟨hr.1.symm, q₀, hq₀, hr.2⟩
      · simp only [relabel, hv, ↓reduceIte, List.cons.injEq] at hr
        obtain ⟨rfl, rfl⟩ := hr
        exact Or.inr ⟨hv, hq₀⟩
  · rintro (⟨rfl, q₀, hq₀, hr⟩ | ⟨hz, hq⟩)
    · exact ⟨z :: q₀, hq₀, by simp [relabel, hr]⟩
    · exact ⟨z :: q, hq, by simp [relabel, hz]⟩

/-- Nothing below a leaf is in the set. -/
theorem IsLeaf.eq_of_isPrefix {S : Set (List α)} (hS : PrefixClosed S) {p q : List α}
    (hp : IsLeaf S p) (hq : q ∈ S) (hpq : p <+: q) : p = q := by
  obtain ⟨rest, rfl⟩ := hpq
  cases rest with
  | nil => simp
  | cons x rest =>
    have hx : p ++ [x] ∈ S := hS _ _ ⟨rest, by simp⟩ hq
    exact absurd hx (hp.2 x)

/-- Cutting a path leaves the other leaves, and makes a leaf of the entry above it
when it was the only one there. -/
theorem isLeaf_cut_iff {S : Set (List α)} (hS : PrefixClosed S) {d : List α} {x : α}
    (hp : d ++ [x] ∈ S) {q : List α} :
    IsLeaf (cut S (d ++ [x])) q ↔
      (IsLeaf S q ∧ ¬ d ++ [x] <+: q) ∨ (q = d ∧ ∀ y, d ++ [y] ∈ S → y = x) := by
  have hself : ¬ d ++ [x] <+: d := fun h => by
    have hlen := h.length_le
    rw [List.length_append, List.length_singleton] at hlen
    omega
  -- a path that the cut takes from below an entry that stays is the cut path itself
  have hedge : ∀ {q : List α} {y : α}, ¬ d ++ [x] <+: q → d ++ [x] <+: q ++ [y] →
      q = d ∧ y = x := by
    intro q y hq hqy
    rcases List.prefix_concat_iff.mp hqy with heq | hpre
    · obtain ⟨rfl, hx⟩ := List.append_inj' heq rfl
      exact ⟨rfl, (List.singleton_inj.mp hx).symm⟩
    · exact absurd hpre hq
  constructor
  · rintro ⟨⟨hq, hpre⟩, hno⟩
    by_cases hleaf : ∃ y, q ++ [y] ∈ S
    · obtain ⟨y, hy⟩ := hleaf
      have hcut : ∀ z, q ++ [z] ∈ S → q = d ∧ z = x := fun z hz =>
        hedge hpre (Classical.not_not.mp fun hnot => hno z ⟨hz, hnot⟩)
      obtain ⟨rfl, -⟩ := hcut y hy
      exact Or.inr ⟨rfl, fun z hz => (hcut z hz).2⟩
    · exact Or.inl ⟨⟨hq, fun y hy => hleaf ⟨y, hy⟩⟩, hpre⟩
  · rintro (⟨⟨hq, hno⟩, hpre⟩ | ⟨rfl, honly⟩)
    · exact ⟨⟨hq, hpre⟩, fun y hy => hno y hy.1⟩
    · refine ⟨⟨hS _ _ (List.prefix_append _ _) hp, hself⟩, fun y hy => hy.2 ?_⟩
      exact honly y hy.1 ▸ List.prefix_rfl

/-- The order in which two paths are added does not matter. -/
theorem grow_comm (S : Set (List α)) (p q : List α) : grow (grow S p) q = grow (grow S q) p := by
  ext r
  simp only [mem_grow, or_assoc, or_comm (a := r <+: p)]

/-- A path above one that is added next brings nothing more. -/
theorem grow_grow_of_isPrefix {p q : List α} (h : p <+: q) (S : Set (List α)) :
    grow (grow S p) q = grow S q := by
  ext r
  rw [mem_grow, mem_grow, mem_grow, or_assoc]
  exact or_congr_right (or_iff_right_of_imp fun hr => hr.trans h)

theorem foldl_grow (L : List (List α)) (S : Set (List α)) :
    L.foldl grow S = {q | q ∈ S ∨ ∃ l ∈ L, q <+: l} := by
  induction L generalizing S with
  | nil => simp
  | cons l L ih =>
    rw [List.foldl_cons, ih]
    ext q
    simp [or_assoc]

/-- A set of paths in which every path but `[]` has a leaf of `L` below it is
rebuilt from the paths of `L`. -/
theorem foldl_grow_leaves {S : Set (List α)} (hS : PrefixClosed S) (hnil : [] ∈ S)
    {L : List (List α)} (hL : ∀ l ∈ L, l ∈ S) (hcover : ∀ q ∈ S, q ≠ [] → ∃ l ∈ L, q <+: l) :
    L.foldl grow {[]} = S := by
  rw [foldl_grow]
  ext q
  constructor
  · rintro (hq | ⟨l, hl, hql⟩)
    · exact hq ▸ hnil
    · exact hS q l hql (hL l hl)
  · intro hq
    by_cases hne : q = []
    · exact Or.inl hne
    · exact Or.inr (hcover q hq hne)

/-- A leaf that is not among the leaves added so far is not yet in the set. -/
theorem not_mem_grow_leaves {S : Set (List α)} (hS : PrefixClosed S) {L : List (List α)}
    (hL : ∀ l ∈ L, l ∈ S) {p : List α} (hp : IsLeaf S p) (hne : p ≠ []) (hpL : p ∉ L) :
    p ∉ L.foldl grow {[]} := by
  rw [foldl_grow]
  rintro (h | ⟨l, hl, hpl⟩)
  · exact hne h
  · exact hpL (hp.eq_of_isPrefix hS (hL l hl) hpl ▸ hl)

/-! ## Stores -/

theorem isPrefix_doubled_iff {p q : List α} : q <+: doubled p ↔ q = doubled p ∨ q <+: p := by
  rcases List.eq_nil_or_concat p with rfl | ⟨d, x, rfl⟩
  · simp [doubled]
  · simp only [doubled, List.concat_eq_append, List.getLast?_append, List.getLast?_singleton,
      Option.some_or, Option.toList_some]
    exact List.prefix_concat_iff

/-- Below a path that is there the copy of its last name is all that comes with it. -/
theorem grow_doubled_of_mem {S : Set (List α)} (hS : PrefixClosed S) {p : List α} (hp : p ∈ S) :
    grow S (doubled p) = {q | q ∈ S ∨ q = doubled p} := by
  ext q
  rw [mem_grow, isPrefix_doubled_iff, Set.mem_ofPred_eq]
  constructor
  · rintro (hq | hq | hq)
    · exact .inl hq
    · exact .inr hq
    · exact .inl (hS q p hq hp)
  · exact fun hq => hq.imp_right Or.inl

theorem PrefixClosed.grow {S : Set (List α)} (hS : PrefixClosed S) (p : List α) :
    PrefixClosed (grow S p) := by
  rintro q r hqr (hr | hr)
  · exact .inl (hS q r hqr hr)
  · exact .inr (hqr.trans hr)

theorem PrefixClosed.cut {S : Set (List α)} (hS : PrefixClosed S) (p : List α) :
    PrefixClosed (cut S p) := fun q r hqr hr =>
  ⟨hS q r hqr hr.1, fun hpq => hr.2 (hpq.trans hqr)⟩

/-- A new name for an entry is one in all the paths through it. -/
theorem relabel_take [DecidableEq α] (w : α) (p q : List α) (k : Nat) :
    relabel w p (q.take k) = (relabel w p q).take k := by
  induction p generalizing q k with
  | nil => rfl
  | cons x p ih =>
    cases k with
    | zero => simp
    | succ k =>
      cases q with
      | nil => simp
      | cons z q =>
        cases p with
        | nil =>
          simp only [List.take_succ_cons, relabel]
          split <;> rfl
        | cons y p =>
          simp only [List.take_succ_cons, relabel, ih]
          split <;> rfl

theorem PrefixClosed.move [DecidableEq α] {S : Set (List α)} (hS : PrefixClosed S) (p : List α)
    (w : α) : PrefixClosed (move S p w) := by
  rintro q _ hqr ⟨r, hr, rfl⟩
  rw [List.prefix_iff_eq_take.mp hqr, ← relabel_take]
  exact ⟨_, hS _ r (List.take_prefix _ r) hr, rfl⟩

/-- Paths with the paths above them, some of them flagged. -/
structure Store (α : Type*) where
  paths : Set (List α)
  flagged : Set (List α)
  nil_mem : [] ∈ paths
  closed : PrefixClosed paths
  flagged_subset : flagged ⊆ paths

namespace Store

/-- A path other than that of the store itself. -/
def Entry (s : Store α) (p : List α) : Prop := p ≠ [] ∧ p ∈ s.paths

def empty (α : Type*) : Store α where
  paths := {[]}
  flagged := ∅
  nil_mem := rfl
  closed := fun _ _ hpq hq => List.prefix_nil.mp (Set.mem_singleton_iff.mp hq ▸ hpq)
  flagged_subset := Set.empty_subset _

def add (s : Store α) (p : List α) : Store α where
  paths := grow s.paths p
  flagged := s.flagged
  nil_mem := .inl s.nil_mem
  closed := s.closed.grow p
  flagged_subset := fun _ hq => .inl (s.flagged_subset hq)

def remove (s : Store α) {p : List α} (hp : s.Entry p) : Store α where
  paths := cut s.paths p
  flagged := cut s.flagged p
  nil_mem := ⟨s.nil_mem, fun hpre => hp.1 (List.prefix_nil.mp hpre)⟩
  closed := s.closed.cut p
  flagged_subset := fun _ hq => ⟨s.flagged_subset hq.1, hq.2⟩

def rename [DecidableEq α] (s : Store α) (p : List α) (w : α) : Store α where
  paths := move s.paths p w
  flagged := move s.flagged p w
  nil_mem := nil_mem_move.mpr s.nil_mem
  closed := s.closed.move p w
  flagged_subset := fun _ ⟨q, hq, hr⟩ => ⟨q, s.flagged_subset hq, hr⟩

def setFlag (s : Store α) {p : List α} (hp : s.Entry p) (flag : Bool) : Store α where
  paths := s.paths
  flagged := {q | (q = p ∧ flag = true) ∨ (q ≠ p ∧ q ∈ s.flagged)}
  nil_mem := s.nil_mem
  closed := s.closed
  flagged_subset := by
    rintro q (⟨rfl, -⟩ | ⟨-, hq⟩)
    · exact hp.2
    · exact s.flagged_subset hq

end Store

end PathSet
