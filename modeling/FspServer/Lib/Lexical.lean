import Mathlib.Data.List.Basic
import Mathlib.Data.List.Infix

/-!
# Lexical resolution of paths

A path is a list of components. Two of them have a meaning of their own: one stays in
the directory, one leads to its parent. Resolving a path follows its components from
the start; it fails when it would leave the start upwards.

* `isSome_walk_iff`: the walk succeeds exactly when in no prefix of the path the
  steps up outnumber the names below the directory where it begins.
* `forall_inside_iff`: every directory on the way to `n/cs` lies inside `n` exactly
  when in no prefix of `cs` the steps up outnumber the names (`Grounded`).
-/

namespace Lexical

variable {α : Type*}

/-- The components with a meaning of their own. -/
structure Dots (α : Type*) where
  here : α
  up : α
  distinct : here ≠ up

/-- The component is the name of a file or a directory. -/
def Dots.Names (d : Dots α) (c : α) : Prop := c ≠ d.here ∧ c ≠ d.up

/-- What follows a component: the induction over a walk looks at the prefixes of the
rest. -/
theorem forall_prefix_cons {P : List α → Prop} {c : α} {cs : List α} :
    (∀ p, p <+: c :: cs → P p) ↔ P [] ∧ ∀ p, p <+: cs → P (c :: p) := by
  constructor
  · intro h
    exact ⟨h [] List.nil_prefix, fun p hp => h _ (List.cons_prefix_cons.mpr ⟨rfl, hp⟩)⟩
  · rintro ⟨hnil, hcons⟩ p hp
    rcases List.prefix_cons_iff.mp hp with rfl | ⟨t, rfl, ht⟩
    · exact hnil
    · exact hcons t ht

variable [DecidableEq α]

instance (d : Dots α) (c : α) : Decidable (d.Names c) := inferInstanceAs (Decidable (_ ∧ _))

variable (d : Dots α)

/-- One component followed from a directory; the names of the directory are given
nearest first. -/
def enter (dir : List α) (c : α) : Option (List α) :=
  if c = d.here then some dir
  else if c = d.up then dir.tail?
  else some (c :: dir)

def walk : List α → List α → Option (List α)
  | dir, [] => some dir
  | dir, c :: cs => (enter d dir c).bind fun dir => walk dir cs

/-- The path that is left when all components are followed. -/
def resolve (cs : List α) : Option (List α) := (walk d [] cs).map List.reverse

/-- The path resolves to something at or below `n`. -/
def Inside (n : α) (cs : List α) : Prop := ∃ rest, resolve d cs = some (n :: rest)

instance (n : α) (cs : List α) : Decidable (Inside d n cs) :=
  decidable_of_iff ((resolve d cs).bind List.head? = some n) (by
    simp only [Inside, Option.bind_eq_some_iff, List.head?_eq_some_iff]
    exact ⟨fun ⟨_, h, rest, hrest⟩ => ⟨rest, hrest ▸ h⟩, fun ⟨rest, h⟩ => ⟨_, h, rest, rfl⟩⟩)

/-- In no prefix the steps up outnumber the names. -/
def Grounded (cs : List α) : Prop := ∀ p, p <+: cs → p.count d.up ≤ p.countP fun c => d.Names c

instance (cs : List α) : Decidable (Grounded d cs) :=
  decidable_of_iff (∀ p ∈ cs.inits, p.count d.up ≤ p.countP fun c => d.Names c)
    (by simp [Grounded, List.mem_inits])

variable {d}

/-! ## Following one component -/

theorem enter_here (dir : List α) : enter d dir d.here = some dir := if_pos rfl

theorem enter_up (dir : List α) : enter d dir d.up = dir.tail? := by
  rw [enter, if_neg d.distinct.symm, if_pos rfl]

theorem enter_name {c : α} (h : d.Names c) (dir : List α) : enter d dir c = some (c :: dir) := by
  rw [enter, if_neg h.1, if_neg h.2]

/-- A component stays, leads up or is a name. -/
theorem component_cases (d : Dots α) (c : α) : c = d.here ∨ c = d.up ∨ d.Names c := by
  by_cases hhere : c = d.here
  · exact Or.inl hhere
  · by_cases hup : c = d.up
    · exact Or.inr (Or.inl hup)
    · exact Or.inr (Or.inr ⟨hhere, hup⟩)

/-! ## Walks -/

theorem walk_here (dir cs : List α) : walk d dir (d.here :: cs) = walk d dir cs := by
  rw [walk, enter_here, Option.bind_some]

theorem walk_up_nil (cs : List α) : walk d [] (d.up :: cs) = none := by
  rw [walk, enter_up]
  rfl

theorem walk_up_cons (x : α) (dir cs : List α) :
    walk d (x :: dir) (d.up :: cs) = walk d dir cs := by
  rw [walk, enter_up]
  rfl

theorem walk_name {c : α} (h : d.Names c) (dir cs : List α) :
    walk d dir (c :: cs) = walk d (c :: dir) cs := by
  rw [walk, enter_name h, Option.bind_some]

theorem isSome_walk_iff {dir cs : List α} : (walk d dir cs).isSome ↔
    ∀ p, p <+: cs → p.count d.up ≤ dir.length + p.countP fun c => d.Names c := by
  induction cs generalizing dir with
  | nil => simp [walk]
  | cons c cs ih =>
    rw [forall_prefix_cons]
    rcases component_cases d c with rfl | rfl | hc
    · rw [walk_here, ih]
      simp [Dots.Names, d.distinct]
    · cases dir with
      | nil =>
        rw [walk_up_nil]
        -- the step up alone is a prefix without names
        have hself : ∃ p, p <+: cs ∧ ¬ (d.up :: p).count d.up ≤
            ([] : List α).length + (d.up :: p).countP fun c => d.Names c :=
          ⟨[], List.nil_prefix, by simp [Dots.Names]⟩
        obtain ⟨p, hp, hcount⟩ := hself
        exact iff_of_false (by simp) fun h => hcount (h.2 p hp)
      | cons x dir =>
        rw [walk_up_cons, ih]
        have hcount : ∀ p : List α, ((d.up :: p).count d.up ≤
            (x :: dir).length + (d.up :: p).countP fun c => d.Names c) ↔
            p.count d.up ≤ dir.length + p.countP fun c => d.Names c := by
          intro p
          rw [List.count_cons_self, List.countP_cons_of_neg (by simp [Dots.Names]),
            List.length_cons]
          omega
        simp only [hcount]
        simp
    · rw [walk_name hc, ih]
      have hcount : ∀ p : List α, ((c :: p).count d.up ≤
          dir.length + (c :: p).countP fun c => d.Names c) ↔
          p.count d.up ≤ (c :: dir).length + p.countP fun c => d.Names c := by
        intro p
        rw [List.count_cons_of_ne hc.2, List.countP_cons_of_pos (by simpa using hc),
          List.length_cons]
        omega
      simp only [hcount]
      simp

/-- The path stays grounded exactly when it can be followed from the start. -/
theorem isSome_walk_nil_iff {cs : List α} : (walk d [] cs).isSome ↔ Grounded d cs := by
  rw [isSome_walk_iff]
  simp [Grounded]

/-- All directories on a walk from inside `n` lie inside `n` exactly when the walk can be
made without `n`. -/
theorem forall_walk_iff {n : α} {dir cs : List α} :
    (∀ p, p <+: cs → ∃ below, walk d (dir ++ [n]) p = some (below ++ [n])) ↔
      (walk d dir cs).isSome := by
  induction cs generalizing dir with
  | nil =>
    refine iff_of_true (fun p hp => ⟨dir, ?_⟩) rfl
    rw [List.prefix_nil.mp hp]
    rfl
  | cons c cs ih =>
    have hstart : ∃ below, walk d (dir ++ [n]) [] = some (below ++ [n]) := ⟨dir, rfl⟩
    rw [forall_prefix_cons, and_iff_right hstart]
    rcases component_cases d c with rfl | rfl | hc
    · simp only [walk_here]
      exact ih
    · cases dir with
      | nil =>
        rw [walk_up_nil]
        refine iff_of_false (fun h => ?_) (by simp)
        obtain ⟨below, hbelow⟩ := h [] List.nil_prefix
        rw [List.nil_append, walk_up_cons] at hbelow
        simp [walk] at hbelow
      | cons x dir =>
        simp only [List.cons_append, walk_up_cons]
        exact ih
    · simp only [walk_name hc, ← List.cons_append]
      exact ih

/-! ## Resolved paths -/

theorem resolve_name_cons {n : α} (h : d.Names n) (cs : List α) :
    resolve d (n :: cs) = (walk d [n] cs).map List.reverse := by
  rw [resolve, walk_name h]

theorem inside_name_cons_iff {n : α} (h : d.Names n) {cs : List α} :
    Inside d n (n :: cs) ↔ ∃ below, walk d [n] cs = some (below ++ [n]) := by
  unfold Inside
  rw [resolve_name_cons h]
  constructor
  · rintro ⟨rest, hrest⟩
    obtain ⟨dir, hdir, hrev⟩ := Option.map_eq_some_iff.mp hrest
    refine ⟨rest.reverse, ?_⟩
    rw [hdir, ← List.reverse_cons, ← hrev, List.reverse_reverse]
  · rintro ⟨below, hbelow⟩
    exact ⟨below.reverse, by simp [hbelow]⟩

theorem forall_inside_iff {n : α} (h : d.Names n) {cs : List α} :
    (∀ p, p <+: cs → Inside d n (n :: p)) ↔ Grounded d cs := by
  simp only [inside_name_cons_iff h]
  rw [← isSome_walk_nil_iff]
  exact @forall_walk_iff _ _ d n [] cs

theorem Grounded.inside {n : α} (h : d.Names n) {cs : List α} (hcs : Grounded d cs) :
    Inside d n (n :: cs) :=
  (forall_inside_iff h).mpr hcs cs (List.prefix_refl cs)

/-- A single component lies inside `n` only if it is `n`. -/
theorem eq_of_inside_singleton {n c : α} (h : Inside d n [c]) : c = n ∧ d.Names n := by
  obtain ⟨rest, hrest⟩ := h
  rcases component_cases d c with rfl | rfl | hc
  · rw [resolve, walk_here] at hrest
    simp [walk] at hrest
  · rw [resolve, walk_up_nil] at hrest
    simp at hrest
  · rw [resolve_name_cons hc] at hrest
    obtain ⟨rfl, -⟩ : c = n ∧ [] = rest := by simpa [walk] using hrest
    exact ⟨rfl, hc⟩

/-- What is left of a walk was there or is a name of the path. -/
theorem mem_of_walk {dir dir' cs : List α} (h : walk d dir cs = some dir') {x : α}
    (hx : x ∈ dir') : x ∈ dir ∨ x ∈ cs ∧ d.Names x := by
  induction cs generalizing dir with
  | nil =>
    obtain rfl := Option.some.inj h
    exact Or.inl hx
  | cons c cs ih =>
    rcases component_cases d c with rfl | rfl | hc
    · rw [walk_here] at h
      exact (ih h).imp_right fun hcs => ⟨List.mem_cons_of_mem _ hcs.1, hcs.2⟩
    · cases dir with
      | nil =>
        rw [walk_up_nil] at h
        cases h
      | cons y dir =>
        rw [walk_up_cons] at h
        exact (ih h).imp (List.mem_cons_of_mem _) fun hcs =>
          ⟨List.mem_cons_of_mem _ hcs.1, hcs.2⟩
    · rw [walk_name hc] at h
      rcases ih h with hdir | hcs
      · rcases List.mem_cons.mp hdir with rfl | hdir
        · exact Or.inr ⟨List.mem_cons_self, hc⟩
        · exact Or.inl hdir
      · exact Or.inr ⟨List.mem_cons_of_mem _ hcs.1, hcs.2⟩

theorem mem_of_resolve {cs path : List α} (h : resolve d cs = some path) {x : α}
    (hx : x ∈ path) : x ∈ cs ∧ d.Names x := by
  obtain ⟨dir, hdir, rfl⟩ := Option.map_eq_some_iff.mp h
  rcases mem_of_walk hdir (List.mem_reverse.mp hx) with hnil | hcs
  · exact absurd hnil List.not_mem_nil
  · exact hcs

end Lexical
