import FspServer.Lib.Run
import Mathlib.Data.List.Forall2
import Mathlib.Data.List.ReduceOption

/-!
# Simulation of steps with outputs

A step function with outputs takes a state and an event to the next state and what the
step puts out; the result is `none` when the step cannot be made. `outputs` makes the steps
of a list of events and collects what they put out.

A step function that recurses with a bound is a family `step : Nat → σ → ε → …`. It refines
a second one (`Refines`) when from related states each event that meets a guard has the same
fate in both, for every bound that is large enough.

* `invariant_of_outputs`: an invariant of runs that speaks of the events and the outputs.
* `Refines.outputs`: the same for whole runs.
* `Refines.comp`: refinements compose.

A call that takes several steps has its effect in one of them. A step function commits to a
second one (`Commits`) when its outputs are the steps of the second that it commits to, if any.

* `outputs_of_commits`: what is committed in a run is a run of the second.

A computation with a bound is `Within` the one with a larger bound.
-/

namespace Runs

variable {σ τ υ ε ω ω' ω'' : Type*}

/-- Makes the steps in order and collects the outputs. -/
def outputs (step : σ → ε → Option (σ × ω)) : σ → List ε → Option (σ × List ω)
  | s, [] => some (s, [])
  | s, e :: es =>
    match step s e with
    | none => none
    | some (s', o) => (outputs step s' es).map fun r => (r.1, o :: r.2)

/-- The states that a step function with outputs goes through. -/
def states (step : σ → ε → Option (σ × ω)) (s : σ) (e : ε) : Option σ := (step s e).map Prod.fst

/-- Steps that can always be made make runs that can always be made. -/
theorem exists_outputs_eq_some {step : σ → ε → Option (σ × ω)}
    (h : ∀ s e, ∃ r, step s e = some r) (s : σ) (es : List ε) :
    ∃ s' os, outputs step s es = some (s', os) := by
  induction es generalizing s with
  | nil => exact ⟨s, [], rfl⟩
  | cons e es ih =>
    obtain ⟨⟨s₁, o⟩, hs⟩ := h s e
    obtain ⟨s', os, hos⟩ := ih s₁
    exact ⟨s', o :: os, by rw [outputs, hs]; simp [hos]⟩

/-- A run of events and then of others. -/
theorem outputs_append (step : σ → ε → Option (σ × ω)) (s : σ) (es es' : List ε) :
    outputs step s (es ++ es') = (outputs step s es).bind fun r =>
      (outputs step r.1 es').map fun r' => (r'.1, r.2 ++ r'.2) := by
  induction es generalizing s with
  | nil => simp [outputs]
  | cons e es ih =>
    rw [List.cons_append, outputs, outputs]
    cases step s e with
    | none => rfl
    | some r =>
      simp only [ih, Option.map_bind, Option.bind_map]
      congr 1
      funext r'
      simp [Function.comp_def]

theorem invariant_of_outputs_append {step : σ → ε → Option (σ × ω)}
    {I : σ → List ε → List ω → Prop}
    (hstep : ∀ s es os e s' o, I s es os → step s e = some (s', o) → I s' (es ++ [e]) (os ++ [o]))
    {s s' : σ} {es es₀ : List ε} {os os₀ : List ω} (hinit : I s es₀ os₀)
    (h : outputs step s es = some (s', os)) : I s' (es₀ ++ es) (os₀ ++ os) := by
  induction es generalizing s es₀ os₀ os with
  | nil =>
    obtain ⟨rfl, rfl⟩ := Prod.mk.inj (Option.some.inj h)
    simpa using hinit
  | cons e es ih =>
    rw [outputs] at h
    split at h
    · cases h
    · next s₁ o hs =>
      obtain ⟨⟨_, os'⟩, hrest, heq⟩ := Option.map_eq_some_iff.mp h
      obtain ⟨rfl, rfl⟩ := Prod.mk.inj heq
      have hall := ih (hstep _ _ _ _ _ _ hinit hs) hrest
      rwa [List.append_assoc, List.append_assoc] at hall

/-- What holds at the start and is kept by each step, of the state together with the events
and the outputs so far, holds after a run. -/
theorem invariant_of_outputs {step : σ → ε → Option (σ × ω)}
    {I : σ → List ε → List ω → Prop}
    (hstep : ∀ s es os e s' o, I s es os → step s e = some (s', o) → I s' (es ++ [e]) (os ++ [o]))
    {s s' : σ} {es : List ε} {os : List ω} (hinit : I s [] [])
    (h : outputs step s es = some (s', os)) : I s' es os :=
  invariant_of_outputs_append hstep hinit h

/-- Two steps with the same fate: neither can be made, or both lead to related states with
related outputs. -/
inductive Matches (R : σ → τ → Prop) (O : ω → ω' → Prop) :
    Option (σ × ω) → Option (τ × ω') → Prop
  | failed : Matches R O none none
  | made {s : σ} {t : τ} {o : ω} {o' : ω'} :
      R s t → O o o' → Matches R O (some (s, o)) (some (t, o'))

theorem Matches.of_some {R : σ → τ → Prop} {O : ω → ω' → Prop} {r : Option (σ × ω)} {t : τ}
    {o' : ω'} (h : Matches R O r (some (t, o'))) : ∃ s o, r = some (s, o) ∧ R s t ∧ O o o' := by
  obtain ⟨⟩ | ⟨hst, ho⟩ := h
  exact ⟨_, _, rfl, hst, ho⟩

theorem Matches.of_some_left {R : σ → τ → Prop} {O : ω → ω' → Prop} {s : σ} {o : ω}
    {r : Option (τ × ω')} (h : Matches R O (some (s, o)) r) :
    ∃ t o', r = some (t, o') ∧ R s t ∧ O o o' := by
  obtain ⟨⟩ | ⟨hst, ho⟩ := h
  exact ⟨_, _, rfl, hst, ho⟩

/-- Computations with the same fate go on with the same fate. -/
theorem Matches.bind {σ' τ' π π' : Type*} {R : σ → τ → Prop} {O : ω → ω' → Prop}
    {R' : σ' → τ' → Prop} {O' : π → π' → Prop} {r : Option (σ × ω)} {r' : Option (τ × ω')}
    {f : σ × ω → Option (σ' × π)} {f' : τ × ω' → Option (τ' × π')} (h : Matches R O r r')
    (hf : ∀ s o t o', R s t → O o o' → r' = some (t, o') → Matches R' O' (f (s, o)) (f' (t, o'))) :
    Matches R' O' (r.bind f) (r'.bind f') := by
  cases h with
  | failed => exact .failed
  | made hst ho => exact hf _ _ _ _ hst ho rfl

/-- The second computation goes on with a step that can always be made. -/
theorem Matches.bind_right {τ' π : Type*} {R : σ → τ → Prop} {O : ω → ω' → Prop}
    {R' : σ → τ' → Prop} {O' : ω → π → Prop} {r : Option (σ × ω)} {r' : Option (τ × ω')}
    {f : τ × ω' → Option (τ' × π)} (h : Matches R O r r')
    (hf : ∀ s o t o', R s t → O o o' → ∃ t' p, f (t, o') = some (t', p) ∧ R' s t' ∧ O' o p) :
    Matches R' O' r (r'.bind f) := by
  cases h with
  | failed => exact .failed
  | made hst ho =>
    obtain ⟨t', p, hf, hst', hp⟩ := hf _ _ _ _ hst ho
    rw [Option.bind_some, hf]
    exact .made hst' hp

/-- From related states the events that meet the guard have the same fate, whatever the
bound from some bound on. -/
def Refines (R : σ → τ → Prop) (O : ω → ω' → Prop) (G : τ → ε → Prop)
    (step : Nat → σ → ε → Option (σ × ω)) (step' : τ → ε → Option (τ × ω')) : Prop :=
  ∀ s t e, R s t → G t e →
    ∃ N r, (∀ n, N ≤ n → step n s e = r) ∧ Matches R O r (step' t e)

variable {R : σ → τ → Prop} {O : ω → ω' → Prop} {G : τ → ε → Prop}
  {step : Nat → σ → ε → Option (σ × ω)} {step' : τ → ε → Option (τ × ω')}

/-- A refinement of steps is one of runs: the same events can be made, with related outputs
one by one, and they lead to related states. -/
theorem Refines.outputs (h : Refines R O G step step') {s : σ} {t : τ} {es : List ε}
    (hst : R s t) (hG : EachStep (states step') G t es) :
    ∃ N r, (∀ n, N ≤ n → outputs (step n) s es = r) ∧
      Matches R (List.Forall₂ O) r (Runs.outputs step' t es) := by
  induction es generalizing s t with
  | nil => exact ⟨0, some (s, []), fun _ _ => rfl, .made hst .nil⟩
  | cons e es ih =>
    obtain ⟨N, r, hr, hmatches⟩ := h s t e hst hG.1
    have hnext := hG.2
    rw [states] at hnext
    rw [Runs.outputs]
    revert hmatches hnext
    cases step' t e with
    | none =>
      rintro ⟨⟩ -
      exact ⟨N, none, fun n hn => by rw [Runs.outputs, hr n hn], .failed⟩
    | some next =>
      obtain ⟨t', o'⟩ := next
      intro hmatches hnext
      obtain ⟨⟩ | @⟨s', _, o, _, hst', ho⟩ := hmatches
      obtain ⟨M, q, hq, hrest⟩ := ih hst' (hnext t' rfl)
      refine ⟨max N M, q.map fun r => (r.1, o :: r.2), fun n hn => ?_, ?_⟩
      · rw [Runs.outputs, hr n (Nat.le_trans (Nat.le_max_left _ _) hn)]
        simp only [hq n (Nat.le_trans (Nat.le_max_right _ _) hn)]
      · show Matches R (List.Forall₂ O) _ ((Runs.outputs step' t' es).map fun r => (r.1, o' :: r.2))
        revert hrest
        cases Runs.outputs step' t' es with
        | none =>
          rintro ⟨⟩
          exact .failed
        | some last =>
          rintro (⟨⟩ | ⟨hlast, hos⟩)
          exact .made hlast (List.Forall₂.cons ho hos)

theorem Matches.comp {S : τ → υ → Prop} {P : ω' → ω'' → Prop} {r : Option (σ × ω)}
    {r' : Option (τ × ω')} {r'' : Option (υ × ω'')} (h : Matches R O r r')
    (h' : Matches S P r' r'') :
    Matches (fun s u => ∃ t, R s t ∧ S t u) (fun o q => ∃ p, O o p ∧ P p q) r r'' := by
  cases h with
  | failed =>
    cases h'
    exact .failed
  | made hst ho =>
    obtain ⟨⟩ | ⟨htu, hp⟩ := h'
    exact .made ⟨_, hst, htu⟩ ⟨_, ho, hp⟩

/-- Refinements compose. -/
theorem Refines.comp {S : τ → υ → Prop} {P : ω' → ω'' → Prop} {H : υ → ε → Prop}
    {step'' : υ → ε → Option (υ × ω'')} (h : Refines R O anyStep step step')
    (h' : Refines S P H (fun _ => step') step'') :
    Refines (fun s u => ∃ t, R s t ∧ S t u) (fun o q => ∃ p, O o p ∧ P p q) H step step'' := by
  rintro s u e ⟨t, hst, htu⟩ hH
  obtain ⟨N, r, hr, hmatches⟩ := h s t e hst trivial
  obtain ⟨M, q, hq, hmatches'⟩ := h' t u e htu hH
  obtain rfl : step' t e = q := hq M (Nat.le_refl M)
  exact ⟨N, r, hr, hmatches.comp hmatches'⟩

/-! ## Commits -/

/-- A step that ends in `s` commits to nothing, or to a step from `t`. -/
inductive Commits {ε' : Type*} (R : σ → τ → Prop) (step' : τ → ε' → Option (τ × ω')) (s : σ)
    (t : τ) : Option (ε' × ω') → Prop
  | silent : R s t → Commits R step' s t none
  | commit {e : ε'} {t' : τ} {o : ω'} :
      step' t e = some (t', o) → R s t' → Commits R step' s t (some (e, o))

/-- What the steps of a run commit to is a run: it leads to a related state, and each committed
step has the output that it was committed with. -/
theorem outputs_of_commits {ε' : Type*} {step : σ → ε → Option (σ × Option (ε' × ω'))}
    {step' : τ → ε' → Option (τ × ω')} {G : σ → ε → Prop}
    (hstep : ∀ s t e s' o, R s t → G s e → step s e = some (s', o) → Commits R step' s' t o)
    {s s' : σ} {t : τ} {es : List ε} {os : List (Option (ε' × ω'))} (hst : R s t)
    (hG : EachStep (states step) G s es) (h : Runs.outputs step s es = some (s', os)) :
    ∃ t', Runs.outputs step' t (os.reduceOption.map Prod.fst) =
      some (t', os.reduceOption.map Prod.snd) ∧ R s' t' := by
  induction es generalizing s t os with
  | nil =>
    obtain ⟨rfl, rfl⟩ := Prod.mk.inj (Option.some.inj h)
    exact ⟨t, rfl, hst⟩
  | cons e es ih =>
    rw [Runs.outputs] at h
    split at h
    · cases h
    · next s₁ o hs =>
      obtain ⟨⟨_, os'⟩, hrest, heq⟩ := Option.map_eq_some_iff.mp h
      obtain ⟨rfl, rfl⟩ := Prod.mk.inj heq
      have hnext : EachStep (states step) G s₁ es := hG.2 s₁ (by rw [states, hs]; rfl)
      cases hstep s t e s₁ o hst hG.1 hs with
      | silent hrelated =>
        rw [List.reduceOption_cons_of_none]
        exact ih hrelated hnext hrest
      | @commit e' t₁ o' hcommit hrelated =>
        obtain ⟨t', hrun, hend⟩ := ih hrelated hnext hrest
        refine ⟨t', ?_, hend⟩
        rw [List.reduceOption_cons_of_some, List.map_cons, List.map_cons, Runs.outputs, hcommit]
        simp only [hrun, Option.map_some]

/-! ## Bounds -/

/-- Where the first computation has a result, the second has the same: its bound is larger. -/
def Within (o o' : Option σ) : Prop := ∀ s, o = some s → o' = some s

theorem Within.refl (o : Option σ) : Within o o := fun _ h => h

theorem Within.bind {o o' : Option σ} {f f' : σ → Option τ} (h : Within o o')
    (hf : ∀ s, Within (f s) (f' s)) : Within (o.bind f) (o'.bind f') := by
  intro t ht
  obtain ⟨s, hs, hfs⟩ := Option.bind_eq_some_iff.mp ht
  exact Option.bind_eq_some_iff.mpr ⟨s, h s hs, hf s t hfs⟩

theorem Within.map {o o' : Option σ} (h : Within o o') (f : σ → τ) :
    Within (o.map f) (o'.map f) := by
  rw [Option.map_eq_bind, Option.map_eq_bind]
  exact h.bind fun _ => .refl _

end Runs
