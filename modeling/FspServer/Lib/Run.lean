import Mathlib.Data.Option.Basic

/-!
# Runs of a partial step function

A system is given by a step function `step : σ → ε → Option σ`: the event `e`
takes the state `s` to `s'` when `step s e = some s'`, and cannot happen in `s`
when the result is `none`. A guard `G : σ → ε → Prop` is a condition on the
state before a step and on the event.

* `Reach step G s₀ s`: some run from `s₀` whose steps all meet `G` ends in `s`.
* `Reach.invariant`: what holds of `s₀` and is kept by every step that meets
  `G` holds of every state reached.
* `reach_of_exec`: a concrete list of events that executes gives a reached
  state, so a trace can be checked by evaluation.
* `eachState_iff_eachStep`: when a step from a good state leads to a good state
  exactly if it meets `G`, the runs that visit good states only are exactly the
  runs whose steps all meet `G`.
* `isSome_exec_iff_eachStep`: a system that refuses the steps that do not meet `G`
  executes exactly the runs whose steps all meet it.
* `Expands E es es'`: the events `es'` of a second system are those of `es`, each of
  them expanded into a list by `E`; `Expands.exec`: what holds for one event holds for
  the whole list.
* `Lockstep step step' R`: two systems make the same events and stay related by
  `R`; `lockstep_iff_eachStep` says when, for two systems that differ in some
  steps only.
-/

namespace Runs

variable {σ ε : Type*}

/-- The guard that every step meets. -/
def anyStep : σ → ε → Prop := fun _ _ => True

/-- Executes the events in order; `none` when one of them cannot happen. -/
def exec (step : σ → ε → Option σ) : σ → List ε → Option σ
  | s, [] => some s
  | s, e :: es => (step s e).bind fun s' => exec step s' es

/-- The states reached from `s₀` by steps that all meet the guard `G`. -/
inductive Reach (step : σ → ε → Option σ) (G : σ → ε → Prop) (s₀ : σ) : σ → Prop
  | init : Reach step G s₀ s₀
  | next {s s' : σ} {e : ε} :
      Reach step G s₀ s → G s e → step s e = some s' → Reach step G s₀ s'

variable {step : σ → ε → Option σ} {G : σ → ε → Prop} {s₀ : σ}

/-- The induction rule for invariants. -/
theorem Reach.invariant {I : σ → Prop} (hinit : I s₀)
    (hstep : ∀ s e s', I s → G s e → step s e = some s' → I s') {s : σ}
    (h : Reach step G s₀ s) : I s := by
  induction h with
  | init => exact hinit
  | next _ hg hs ih => exact hstep _ _ _ ih hg hs

/-- A weaker guard reaches at least the same states. -/
theorem Reach.mono {G' : σ → ε → Prop} (hG : ∀ s e, G s e → G' s e) {s : σ}
    (h : Reach step G s₀ s) : Reach step G' s₀ s := by
  induction h with
  | init => exact .init
  | next _ hg hs ih => exact ih.next (hG _ _ hg) hs

/-- Runs compose. -/
theorem Reach.trans {s s' : σ} (h : Reach step G s₀ s) (h' : Reach step G s s') :
    Reach step G s₀ s' := by
  induction h' with
  | init => exact h
  | next _ hg hs ih => exact ih.next hg hs

/-- A list of events that executes is a run. -/
theorem reach_of_exec {es : List ε} {s s' : σ} (h : exec step s es = some s') :
    Reach step anyStep s s' := by
  induction es generalizing s with
  | nil =>
    cases h
    exact .init
  | cons e es ih =>
    obtain ⟨m, hm, hrest⟩ := Option.bind_eq_some_iff.mp h
    exact (Reach.init.next trivial hm).trans (ih hrest)

/-- A trace whose last state satisfies `p` reaches a state that satisfies it. -/
theorem exists_reach_of_exec (step : σ → ε → Option σ) (s₀ : σ) (p : σ → Prop) [DecidablePred p]
    (es : List ε) (h : (exec step s₀ es).map (fun s => decide (p s)) = some true) :
    ∃ s, Reach step anyStep s₀ s ∧ p s := by
  obtain ⟨s, hs, hp⟩ := Option.map_eq_some_iff.mp h
  exact ⟨s, reach_of_exec hs, of_decide_eq_true hp⟩

/-- The step function with the steps that do not meet `G` taken away. -/
def guarded (step : σ → ε → Option σ) (G : σ → ε → Prop) [∀ s e, Decidable (G s e)] :
    σ → ε → Option σ := fun s e => if G s e then step s e else none

/-- A list of events that executes under the guard is a run that meets it. -/
theorem reach_of_exec_guarded [∀ s e, Decidable (G s e)] {es : List ε} {s s' : σ}
    (h : exec (guarded step G) s es = some s') : Reach step G s s' := by
  induction es generalizing s with
  | nil =>
    cases h
    exact .init
  | cons e es ih =>
    obtain ⟨m, hm, hrest⟩ := Option.bind_eq_some_iff.mp h
    obtain ⟨hG, hs⟩ := Option.ite_none_right_eq_some.mp hm
    exact (Reach.init.next hG hs).trans (ih hrest)

/-- A trace under the guard whose last state satisfies `p`. -/
theorem exists_reach_of_exec_guarded (step : σ → ε → Option σ) (G : σ → ε → Prop)
    [∀ s e, Decidable (G s e)] (s₀ : σ) (p : σ → Prop) [DecidablePred p] (es : List ε)
    (h : (exec (guarded step G) s₀ es).map (fun s => decide (p s)) = some true) :
    ∃ s, Reach step G s₀ s ∧ p s := by
  obtain ⟨s, hs, hp⟩ := Option.map_eq_some_iff.mp h
  exact ⟨s, reach_of_exec_guarded hs, of_decide_eq_true hp⟩

/-! ## Runs given by their events -/

/-- `P` holds of every state visited while the events are executed from `s`. -/
def EachState (step : σ → ε → Option σ) (P : σ → Prop) : σ → List ε → Prop
  | s, [] => P s
  | s, e :: es => P s ∧ ∀ s', step s e = some s' → EachState step P s' es

/-- `Q` holds of every step made while the events are executed from `s`. -/
def EachStep (step : σ → ε → Option σ) (Q : σ → ε → Prop) : σ → List ε → Prop
  | _, [] => True
  | s, e :: es => Q s e ∧ ∀ s', step s e = some s' → EachStep step Q s' es

/-- Whether the steps made meet `Q` can be decided by making them. -/
def EachStep.decide {Q : σ → ε → Prop} [∀ s e, Decidable (Q s e)] (step : σ → ε → Option σ) :
    (s : σ) → (es : List ε) → Decidable (EachStep step Q s es)
  | _, [] => isTrue trivial
  | s, e :: es =>
    match hs : step s e with
    | none => decidable_of_iff (Q s e) (by simp [EachStep, hs])
    | some s' =>
      have := EachStep.decide (Q := Q) step s' es
      decidable_of_iff (Q s e ∧ EachStep step Q s' es) (by simp [EachStep, hs])

instance {Q : σ → ε → Prop} [∀ s e, Decidable (Q s e)] (s : σ) (es : List ε) :
    Decidable (EachStep step Q s es) := EachStep.decide step s es

theorem EachStep.of_forall {Q : σ → ε → Prop} (h : ∀ s e, Q s e) (s : σ) (es : List ε) :
    EachStep step Q s es := by
  induction es generalizing s with
  | nil => trivial
  | cons e es ih => exact ⟨h s e, fun s' _ => ih s'⟩

/-- On events that execute, every step can be made. -/
theorem EachStep.of_exec {Q : σ → ε → Prop} (hQ : ∀ s e s', step s e = some s' → Q s e) {s : σ}
    {es : List ε} (h : (exec step s es).isSome) : EachStep step Q s es := by
  induction es generalizing s with
  | nil => trivial
  | cons e es ih =>
    obtain ⟨t, ht⟩ := Option.isSome_iff_exists.mp h
    obtain ⟨m, hm, hrest⟩ := Option.bind_eq_some_iff.mp ht
    refine ⟨hQ s e m hm, fun s' hs' => ih ?_⟩
    obtain rfl : m = s' := Option.some.inj (hm.symm.trans hs')
    exact Option.isSome_iff_exists.mpr ⟨t, hrest⟩

theorem eachStep_and_iff {Q R : σ → ε → Prop} {s : σ} {es : List ε} :
    EachStep step (fun s e => Q s e ∧ R s e) s es ↔
      EachStep step Q s es ∧ EachStep step R s es := by
  induction es generalizing s with
  | nil => exact ⟨fun _ => ⟨trivial, trivial⟩, fun _ => trivial⟩
  | cons e es ih =>
    constructor
    · rintro ⟨⟨hq, hr⟩, hrest⟩
      exact ⟨⟨hq, fun s' hs' => (ih.mp (hrest s' hs')).1⟩,
        ⟨hr, fun s' hs' => (ih.mp (hrest s' hs')).2⟩⟩
    · rintro ⟨⟨hq, hqs⟩, ⟨hr, hrs⟩⟩
      exact ⟨⟨hq, hr⟩, fun s' hs' => ih.mpr ⟨hqs s' hs', hrs s' hs'⟩⟩

/-- Two conditions on a step that agree in every state of the run. -/
theorem eachStep_congr {Q R : σ → ε → Prop} {I : σ → Prop}
    (hstep : ∀ s e s', I s → step s e = some s' → I s') (hQR : ∀ s e, I s → (Q s e ↔ R s e))
    {s : σ} (hs : I s) (es : List ε) : EachStep step Q s es ↔ EachStep step R s es := by
  induction es generalizing s with
  | nil => exact Iff.rfl
  | cons e es ih =>
    constructor
    · rintro ⟨hq, hrest⟩
      exact ⟨(hQR s e hs).mp hq, fun s' hs' => (ih (hstep s e s' hs hs')).mp (hrest s' hs')⟩
    · rintro ⟨hr, hrest⟩
      exact ⟨(hQR s e hs).mpr hr, fun s' hs' => (ih (hstep s e s' hs hs')).mpr (hrest s' hs')⟩

theorem EachState.head {P : σ → Prop} {s : σ} {es : List ε} (h : EachState step P s es) : P s := by
  cases es with
  | nil => exact h
  | cons e es => exact h.1

/-- If the events can happen from good states, and a step from a good state leads to a
good state exactly when it meets `G`, then the good runs are the runs that meet `G`. -/
theorem eachState_iff_eachStep_of_enabled {P : σ → Prop}
    (hexact : ∀ s e s', P s → step s e = some s' → (P s' ↔ G s e)) {s : σ} (hs : P s)
    {es : List ε} (henabled : EachStep step (fun s e => P s → ∃ s', step s e = some s') s es) :
    EachState step P s es ↔ EachStep step G s es := by
  induction es generalizing s with
  | nil => simp [EachState, EachStep, hs]
  | cons e es ih =>
    obtain ⟨s', hstep⟩ := henabled.1 hs
    have hex := hexact s e s' hs hstep
    have hafter := henabled.2 s' hstep
    constructor
    · rintro ⟨_, hrest⟩
      have hs' : P s' := (hrest s' hstep).head
      refine ⟨hex.mp hs', fun t ht => ?_⟩
      obtain rfl : s' = t := Option.some.inj (hstep.symm.trans ht)
      exact (ih hs' hafter).mp (hrest s' hstep)
    · rintro ⟨hG, hrest⟩
      have hs' : P s' := hex.mpr hG
      refine ⟨hs, fun t ht => ?_⟩
      obtain rfl : s' = t := Option.some.inj (hstep.symm.trans ht)
      exact (ih hs' hafter).mpr (hrest s' hstep)

/-- Every event can happen. -/
theorem eachState_iff_eachStep {P : σ → Prop}
    (henabled : ∀ s e, P s → ∃ s', step s e = some s')
    (hexact : ∀ s e s', P s → step s e = some s' → (P s' ↔ G s e)) {s : σ} (hs : P s)
    (es : List ε) : EachState step P s es ↔ EachStep step G s es :=
  eachState_iff_eachStep_of_enabled hexact hs (.of_forall henabled s es)

/-- The events execute. -/
theorem eachState_iff_eachStep_of_exec {P : σ → Prop}
    (hexact : ∀ s e s', P s → step s e = some s' → (P s' ↔ G s e)) {s : σ} (hs : P s)
    {es : List ε} (hexec : (exec step s es).isSome) :
    EachState step P s es ↔ EachStep step G s es :=
  eachState_iff_eachStep_of_enabled hexact hs
    (.of_exec (fun _ _ s' hstep _ => ⟨s', hstep⟩) hexec)

/-- What every step keeps holds of every state visited, so it can be added to what
is asked of them. -/
theorem eachState_and_iff {P I : σ → Prop}
    (hstep : ∀ s e s', I s → step s e = some s' → I s') {s : σ} (hs : I s) (es : List ε) :
    EachState step (fun s => P s ∧ I s) s es ↔ EachState step P s es := by
  induction es generalizing s with
  | nil => simp [EachState, hs]
  | cons e es ih =>
    constructor
    · rintro ⟨⟨hp, -⟩, hrest⟩
      exact ⟨hp, fun s' hs' => (ih (hstep s e s' hs hs')).mp (hrest s' hs')⟩
    · rintro ⟨hp, hrest⟩
      exact ⟨⟨hp, hs⟩, fun s' hs' => (ih (hstep s e s' hs hs')).mpr (hrest s' hs')⟩

/-- The last state of a run that visits good states only is good. -/
theorem EachState.of_exec {P : σ → Prop} {s s' : σ} {es : List ε} (h : EachState step P s es)
    (hexec : exec step s es = some s') : P s' := by
  induction es generalizing s with
  | nil =>
    cases hexec
    exact h
  | cons e es ih =>
    obtain ⟨m, hm, hrest⟩ := Option.bind_eq_some_iff.mp hexec
    exact ih (h.2 m hm) hrest

/-- If nothing can happen after a bad state, a run that ends in a good state visits good
states only. -/
theorem EachState.of_final {P I : σ → Prop} (hstep : ∀ s e s', I s → step s e = some s' → I s')
    (hfinal : ∀ s e s', I s → step s e = some s' → P s) {s s' : σ} (hs : I s) {es : List ε}
    (hexec : exec step s es = some s') (hs' : P s') : EachState step P s es := by
  induction es generalizing s with
  | nil =>
    cases hexec
    exact hs'
  | cons e es ih =>
    obtain ⟨m, hm, hrest⟩ := Option.bind_eq_some_iff.mp hexec
    refine ⟨hfinal s e m hs hm, fun t ht => ?_⟩
    obtain rfl : m = t := Option.some.inj (hm.symm.trans ht)
    exact ih (hstep s e m hs hm) hrest

/-- A second step function that takes only the steps that meet `G` executes exactly the
runs whose steps all meet it. -/
theorem isSome_exec_iff_eachStep {step' : σ → ε → Option σ}
    (hstep : ∀ s e s', step' s e = some s' ↔ G s e ∧ step s e = some s')
    (henabled : ∀ s e, G s e → (step s e).isSome) (s : σ) (es : List ε) :
    (exec step' s es).isSome ↔ EachStep step G s es := by
  induction es generalizing s with
  | nil => exact iff_of_true rfl trivial
  | cons e es ih =>
    constructor
    · intro h
      obtain ⟨t, ht⟩ := Option.isSome_iff_exists.mp h
      obtain ⟨s', hs', hrest⟩ := Option.bind_eq_some_iff.mp ht
      obtain ⟨hg, hs⟩ := (hstep s e s').mp hs'
      refine ⟨hg, fun s'' hs'' => ?_⟩
      obtain rfl := Option.some.inj (hs.symm.trans hs'')
      exact (ih s').mp (Option.isSome_iff_exists.mpr ⟨t, hrest⟩)
    · rintro ⟨hg, hrest⟩
      obtain ⟨s', hs⟩ := Option.isSome_iff_exists.mp (henabled s e hg)
      rw [exec, (hstep s e s').mpr ⟨hg, hs⟩]
      exact (ih s').mpr (hrest s' hs)

/-- What every step that meets `Q` keeps holds at the end of a run of such steps. -/
theorem EachStep.invariant {Q : σ → ε → Prop} {I : σ → Prop}
    (hstep : ∀ s e s', I s → Q s e → step s e = some s' → I s') {s s' : σ} {es : List ε}
    (h : EachStep step Q s es) (hs : I s) (hexec : exec step s es = some s') : I s' := by
  induction es generalizing s with
  | nil =>
    cases hexec
    exact hs
  | cons e es ih =>
    obtain ⟨m, hm, hrest⟩ := Option.bind_eq_some_iff.mp hexec
    exact ih (h.2 m hm) (hstep s e m hs h.1 hm) hrest

/-! ## Two systems on the same events -/

/-- The two systems can do the same events, and their states are related by `R` before
the first and after each of them. -/
def Lockstep (step step' : σ → ε → Option σ) (R : σ → σ → Prop) : σ → σ → List ε → Prop
  | s, s', [] => R s s'
  | s, s', e :: es =>
    R s s' ∧
      match step s e, step' s' e with
      | some t, some t' => Lockstep step step' R t t' es
      | none, none => True
      | _, _ => False

theorem Lockstep.head {step' : σ → ε → Option σ} {R : σ → σ → Prop} {s s' : σ} {es : List ε}
    (h : Lockstep step step' R s s' es) : R s s' := by
  cases es with
  | nil => exact h
  | cons e es => exact h.1

theorem Lockstep.of_exec {step' : σ → ε → Option σ} {R : σ → σ → Prop} {s s' t t' : σ}
    {es : List ε} (h : Lockstep step step' R s s' es) (hexec : exec step s es = some t)
    (hexec' : exec step' s' es = some t') : R t t' := by
  induction es generalizing s s' with
  | nil =>
    cases hexec
    cases hexec'
    exact h
  | cons e es ih =>
    obtain ⟨u, hu, hrest⟩ := Option.bind_eq_some_iff.mp hexec
    obtain ⟨u', hu', hrest'⟩ := Option.bind_eq_some_iff.mp hexec'
    have hnext := h.2
    rw [hu, hu'] at hnext
    exact ih hnext hrest hrest'

/-- Two systems that differ exactly in the steps `E`, where these are made under the
condition `A`: on events whose steps all meet `A` they stay related exactly as long as no
step of `E` is made. -/
theorem lockstep_iff_eachStep {step' : σ → ε → Option σ} {R : σ → σ → Prop} {A E : σ → ε → Prop}
    (hrefl : ∀ s, R s s) (hsame : ∀ s e, A s e → ¬ E s e → step s e = step' s e)
    (hdiffer : ∀ s e, A s e → E s e →
      ∃ t t', step s e = some t ∧ step' s e = some t' ∧ ¬ R t t')
    {s : σ} {es : List ε} (hA : EachStep step A s es) :
    Lockstep step step' R s s es ↔ EachStep step (fun s e => ¬ E s e) s es := by
  induction es generalizing s with
  | nil => exact iff_of_true (hrefl s) trivial
  | cons e es ih =>
    by_cases hE : E s e
    · obtain ⟨t, t', ht, ht', hR⟩ := hdiffer s e hA.1 hE
      refine iff_of_false (fun hlock => hR ?_) fun heach => heach.1 hE
      have hnext := hlock.2
      rw [ht, ht'] at hnext
      exact hnext.head
    · show (R s s ∧ _) ↔ (¬ E s e ∧ _)
      rw [← hsame s e hA.1 hE]
      cases hstep : step s e with
      | none => simp [hrefl s, hE]
      | some t =>
        have hih := ih (hA.2 t hstep)
        simp [hrefl s, hE, hih]

/-! ## A system on the expanded events of another -/

theorem exec_append (s : σ) (es es' : List ε) :
    exec step s (es ++ es') = (exec step s es).bind fun m => exec step m es' := by
  induction es generalizing s with
  | nil => rfl
  | cons e es ih => simp [exec, ih, Option.bind_assoc]

/-- Each event of the first list is expanded into some events of the second. -/
inductive Expands {ε' : Type*} (E : ε → List ε' → Prop) : List ε → List ε' → Prop
  | nil : Expands E [] []
  | cons {e : ε} {part : List ε'} {es : List ε} {es' : List ε'} :
      E e part → Expands E es es' → Expands E (e :: es) (part ++ es')

/-- If each event and its expansion can both happen and keep the states related, or both
cannot, then so do the lists. -/
theorem Expands.exec {σ' ε' : Type*} {step' : σ' → ε' → Option σ'} {E : ε → List ε' → Prop}
    {R : σ → σ' → Prop}
    (hone : ∀ s s' e part, R s s' → E e part → (step s e).Rel R (Runs.exec step' s' part))
    {s : σ} {s' : σ'} {es : List ε} {es' : List ε'} (h : Expands E es es') (hR : R s s') :
    (Runs.exec step s es).Rel R (Runs.exec step' s' es') := by
  induction h generalizing s s' with
  | nil => exact .some hR
  | @cons e part es es' hE _ ih =>
    have hstep := hone s s' e part hR hE
    rw [exec_append, Runs.exec]
    generalize step s e = t, Runs.exec step' s' part = t' at hstep ⊢
    cases hstep with
    | none => exact .none
    | some hnext => exact ih hnext

end Runs
