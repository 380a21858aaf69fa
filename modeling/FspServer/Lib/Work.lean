import FspServer.Lib.Run
import Mathlib.Data.Prod.Lex
import Mathlib.Order.OrderIsoNat

/-!
# Work that comes to an end

Some events of a system are its own work, others come from outside. A measure in a
well-founded order runs down (`RunsDown`) when work makes it smaller and the other events of a
second kind do not make it larger.

* `RunsDown.exists_forall_not`: in an infinite run that is from some point on made of the two
  kinds, only finitely many steps are work.
* `RunsDown.exists_rest`: from every state some work leads to one in which none can be done.
-/

namespace Runs

variable {σ ε α : Type*} [PartialOrder α]

/-- From the states with `I`, which every step keeps, the measure is smaller after each event of
the kind `W`, and not larger after each one of the kind `O`. -/
structure RunsDown (step : σ → ε → Option σ) (I : σ → Prop) (W O : σ → ε → Prop) (μ : σ → α) :
    Prop where
  kept : ∀ s e s', I s → step s e = some s' → I s'
  lt : ∀ s e s', I s → W s e → step s e = some s' → μ s' < μ s
  le : ∀ s e s', I s → O s e → step s e = some s' → μ s' ≤ μ s

namespace RunsDown

variable [WellFoundedLT α] {step : σ → ε → Option σ} {I : σ → Prop} {W O : σ → ε → Prop}
  {μ : σ → α}

/-- An infinite run of which only finitely many steps are of other kinds has only finitely many
steps of work. -/
theorem exists_forall_not (h : RunsDown step I W O μ) {states : Nat → σ} {events : Nat → ε}
    (hinit : I (states 0)) (hstep : ∀ n, step (states n) (events n) = some (states (n + 1)))
    {N : Nat} (hkinds : ∀ n, N ≤ n → W (states n) (events n) ∨ O (states n) (events n)) :
    ∃ M, ∀ n, M ≤ n → ¬ W (states n) (events n) := by
  have hinv : ∀ n, I (states n) := fun n => by
    induction n with
    | zero => exact hinit
    | succ n ih => exact h.kept _ _ _ ih (hstep n)
  have hanti : Antitone fun n => μ (states (N + n)) := antitone_nat_of_succ_le fun n => by
    rcases hkinds (N + n) (Nat.le_add_right N n) with hwork | hidle
    · exact (h.lt _ _ _ (hinv _) hwork (hstep _)).le
    · exact h.le _ _ _ (hinv _) hidle (hstep _)
  obtain ⟨M, hM⟩ := WellFoundedLT.antitone_chain_condition hanti
  refine ⟨N + M, fun n hn hwork => ?_⟩
  obtain ⟨m, rfl⟩ := Nat.exists_eq_add_of_le hn
  have hsmaller := h.lt _ _ _ (hinv _) hwork (hstep _)
  have hstays : μ (states (N + M + m)) = μ (states (N + M + m + 1)) := by
    have hnow := hM (M + m) (Nat.le_add_right M m)
    have hnext := hM (M + m + 1) (by omega)
    rw [Nat.add_assoc N M m, Nat.add_assoc N (M + m) 1]
    exact hnow.symm.trans hnext
  exact absurd hsmaller (by rw [hstays]; exact lt_irrefl _)

/-- From every state some work leads to a state in which no work can be done. -/
theorem exists_rest (h : RunsDown step I W O μ) {s : σ} (hs : I s) :
    ∃ es s', exec step s es = some s' ∧ EachStep step W s es ∧
      ∀ e, W s' e → step s' e = none := by
  induction hμ : μ s using WellFoundedLT.induction generalizing s with
  | _ m ih =>
  rcases Classical.em (∀ e, W s e → step s e = none) with hrest | hwork
  · exact ⟨[], s, rfl, trivial, hrest⟩
  · push Not at hwork
    obtain ⟨e, hwork, hsome⟩ := hwork
    obtain ⟨s₁, hs₁⟩ := Option.ne_none_iff_exists'.mp hsome
    obtain ⟨es, s', hrun, hes, hrest⟩ :=
      ih (μ s₁) (hμ ▸ h.lt s e s₁ hs hwork hs₁) (h.kept s e s₁ hs hs₁) rfl
    refine ⟨e :: es, s', by rw [exec, hs₁]; exact hrun, ⟨hwork, fun t ht => ?_⟩, hrest⟩
    obtain rfl : s₁ = t := Option.some.inj (hs₁.symm.trans ht)
    exact hes

end RunsDown

end Runs
