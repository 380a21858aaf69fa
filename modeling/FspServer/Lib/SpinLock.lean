import FspServer.Lib.Simulation
import Mathlib.Logic.Function.Basic
import Mathlib.Logic.Relation

/-!
# Critical sections under a spin lock

Any number of threads make calls on a shared object. The body of a call is carried out in small
steps on the shared state and on the registers of its thread (`Object`), under a flag that is
taken by repeated `test_and_set` and given back by `clear`.

* `Sections.sequence_of_reach`: however the steps of the threads are interleaved, the bodies
  that were carried out are those of a sequence of calls that run alone, in the order in which
  the flag was held.
* `Sections.exclusive_of_reach`: the flag is set exactly while a thread is in its section, and
  two threads never are.
* `Sections.results_of_reach`: each thread is given back the results of its own calls in that
  sequence, in the order in which it made them.
-/

namespace SpinLock

open Relation

/-- `test_and_set`: the old value of the flag, which is set. -/
def testAndSet (flag : Bool) : Bool × Bool := (flag, true)

/-- `clear`. -/
def clear (_flag : Bool) : Bool := false

/-- An object with calls `ε`. A step works on the shared state and the registers, and goes on
with other registers or returns; it is `none` where the body cannot go on. -/
structure Object (σ ε ρ ω : Type*) where
  enter : ε → ρ
  next : σ → ρ → Option (σ × (ρ ⊕ ω))

variable {ι σ ε ρ ω : Type*}

namespace Object

variable (O : Object σ ε ρ ω)

/-- A step that does not return. -/
def Step (a b : σ × ρ) : Prop := O.next a.1 a.2 = some (b.1, .inl b.2)

/-- A call that runs alone. -/
def Performs (e : ε) (s s' : σ) (o : ω) : Prop :=
  ∃ b, ReflTransGen O.Step (s, O.enter e) b ∧ O.next b.1 b.2 = some (s', .inr o)

/-- Calls that run alone, one after another. -/
inductive Sequence (s : σ) : List (ε × ω) → σ → Prop
  | nil : Sequence s [] s
  | snoc {calls : List (ε × ω)} {t u : σ} {e : ε} {o : ω} :
      Sequence s calls t → O.Performs e t u o → Sequence s (calls ++ [(e, o)]) u

/-- When each call does what a function says for every large bound, the calls of a sequence
do. -/
theorem Sequence.outputs {O : Object σ ε ρ ω} {ε' : Type*} (g : ε → ε')
    {f : Nat → σ → ε' → Option (σ × ω)}
    (hf : ∀ e s s' o, O.Performs e s s' o → ∃ N, ∀ n, N ≤ n → f n s (g e) = some (s', o))
    {s s' : σ} {calls : List (ε × ω)} (h : O.Sequence s calls s') :
    ∃ N, ∀ n, N ≤ n →
      Runs.outputs (f n) s (calls.map fun c => g c.1) = some (s', calls.map Prod.snd) := by
  induction h with
  | nil => exact ⟨0, fun _ _ => rfl⟩
  | snoc _ hlast ih =>
    obtain ⟨N, hN⟩ := ih
    obtain ⟨M, hM⟩ := hf _ _ _ _ hlast
    refine ⟨max N M, fun n hn => ?_⟩
    rw [List.map_append, List.map_append, Runs.outputs_append,
      hN n (Nat.le_trans (Nat.le_max_left _ _) hn)]
    simp [Runs.outputs, hM n (Nat.le_trans (Nat.le_max_right _ _) hn)]

end Object

/-- Where a thread is with its call. -/
inductive Thread (ε ρ ω : Type*) where
  | idle
  | spinning (e : ε)
  /-- In the body, with these registers. -/
  | inside (e : ε) (r : ρ)
  /-- The body has returned and the flag is still set. -/
  | leaving (e : ε) (o : ω)

/-- The thread holds the flag. -/
def Thread.Holds : Thread ε ρ ω → Prop
  | .inside .. | .leaving .. => True
  | _ => False

/-- The flag, the shared state and the threads. -/
structure Sections (ι σ ε ρ ω : Type*) where
  flag : Bool
  shared : σ
  thread : ι → Thread ε ρ ω
  /-- History: the bodies that have returned, with their thread. -/
  log : List (ι × ε × ω) := []
  /-- History: the calls that have returned to their thread. -/
  returned : List (ι × ε × ω) := []

inductive Event (ι ε : Type*) where
  | call (i : ι) (e : ε)
  | go (i : ι)

namespace Sections

theorem holds_of_inside {s : Sections ι σ ε ρ ω} {i : ι} {e : ε} {r : ρ}
    (h : s.thread i = .inside e r) : (s.thread i).Holds := by
  rw [h]
  trivial

theorem holds_of_leaving {s : Sections ι σ ε ρ ω} {i : ι} {e : ε} {o : ω}
    (h : s.thread i = .leaving e o) : (s.thread i).Holds := by
  rw [h]
  trivial

variable [DecidableEq ι]

def initial (s : σ) : Sections ι σ ε ρ ω where
  flag := false
  shared := s
  thread _ := .idle

def setThread (s : Sections ι σ ε ρ ω) (i : ι) (t : Thread ε ρ ω) : Sections ι σ ε ρ ω :=
  { s with thread := Function.update s.thread i t }

/-- A thread makes a call, or does the next step of its call. -/
def step (O : Object σ ε ρ ω) (s : Sections ι σ ε ρ ω) :
    Event ι ε → Option (Sections ι σ ε ρ ω)
  | .call i e =>
    match s.thread i with
    | .idle => some (s.setThread i (.spinning e))
    | _ => none
  | .go i =>
    match s.thread i with
    | .idle => none
    | .spinning e =>
      match testAndSet s.flag with
      | (true, flag) => some { s with flag }
      | (false, flag) => some ({ s with flag }.setThread i (.inside e (O.enter e)))
    | .inside e r =>
      match O.next s.shared r with
      | none => none
      | some (shared, .inl r) => some ({ s with shared }.setThread i (.inside e r))
      | some (shared, .inr o) =>
        some ({ s with shared, log := s.log ++ [(i, e, o)] }.setThread i (.leaving e o))
    | .leaving e o =>
      some ({ s with
        flag := clear s.flag
        returned := s.returned ++ [(i, e, o)] }.setThread i .idle)

/-- What a step can do. -/
inductive Transition (O : Object σ ε ρ ω) (s : Sections ι σ ε ρ ω) : Sections ι σ ε ρ ω → Prop
  | call {i : ι} (e : ε) : s.thread i = .idle → Transition O s (s.setThread i (.spinning e))
  | spin : s.flag = true → Transition O s s
  | enter {i : ι} {e : ε} : s.thread i = .spinning e → s.flag = false →
      Transition O s ({ s with flag := true }.setThread i (.inside e (O.enter e)))
  | next {i : ι} {e : ε} {r r' : ρ} {shared : σ} : s.thread i = .inside e r →
      O.next s.shared r = some (shared, .inl r') →
      Transition O s ({ s with shared }.setThread i (.inside e r'))
  | last {i : ι} {e : ε} {r : ρ} {o : ω} {shared : σ} : s.thread i = .inside e r →
      O.next s.shared r = some (shared, .inr o) →
      Transition O s
        ({ s with shared, log := s.log ++ [(i, e, o)] }.setThread i (.leaving e o))
  | leave {i : ι} {e : ε} {o : ω} : s.thread i = .leaving e o →
      Transition O s
        ({ s with flag := false, returned := s.returned ++ [(i, e, o)] }.setThread i .idle)

theorem transition_of_step {O : Object σ ε ρ ω} {s s' : Sections ι σ ε ρ ω} {e : Event ι ε}
    (h : s.step O e = some s') : Transition O s s' := by
  cases e with
  | call i e =>
    cases hthread : s.thread i with
    | idle =>
      rw [step, hthread] at h
      obtain rfl := Option.some.inj h
      exact .call e hthread
    | _ => simp [step, hthread] at h
  | go i =>
    cases hthread : s.thread i with
    | idle => simp [step, hthread] at h
    | spinning e =>
      cases hflag : s.flag with
      | true =>
        simp only [step, hthread, hflag, testAndSet] at h
        obtain rfl := Option.some.inj h
        have hsame : { s with flag := true } = s := by rw [← hflag]
        rw [hsame]
        exact .spin hflag
      | false =>
        simp only [step, hthread, hflag, testAndSet] at h
        obtain rfl := Option.some.inj h
        exact .enter hthread hflag
    | inside e r =>
      simp only [step, hthread] at h
      split at h
      · cases h
      · next shared r' hnext =>
        obtain rfl := Option.some.inj h
        exact .next hthread hnext
      · next shared o hnext =>
        obtain rfl := Option.some.inj h
        exact .last hthread hnext
    | leaving e o =>
      simp only [step, hthread] at h
      obtain rfl := Option.some.inj h
      exact .leave hthread

/-! ## Runs -/

/-- The result that a thread has not been given back yet. -/
def pending (i : ι) : Thread ε ρ ω → List (ι × ε × ω)
  | .leaving e o => [(i, e, o)]
  | _ => []

/-- The bodies that have returned are a sequence that ends in `t`, and the thread that is
inside has come from there to the shared state. -/
structure Sound (O : Object σ ε ρ ω) (s₀ : σ) (s : Sections ι σ ε ρ ω) : Prop where
  exclusive : ∀ i j, (s.thread i).Holds → (s.thread j).Holds → i = j
  flag_iff : s.flag = true ↔ ∃ i, (s.thread i).Holds
  sequence : ∃ t, O.Sequence s₀ (s.log.map Prod.snd) t ∧
    (∀ i e r, s.thread i = .inside e r → ReflTransGen O.Step (t, O.enter e) (s.shared, r)) ∧
    ((∀ i e r, s.thread i ≠ .inside e r) → s.shared = t)
  results : ∀ i, s.log.filter (fun c => c.1 = i) =
    s.returned.filter (fun c => c.1 = i) ++ pending i (s.thread i)

variable {O : Object σ ε ρ ω} {s₀ : σ} {s s' : Sections ι σ ε ρ ω}

theorem thread_setThread (s : Sections ι σ ε ρ ω) (i j : ι) (t : Thread ε ρ ω) :
    (s.setThread i t).thread j = if j = i then t else s.thread j :=
  Function.update_apply ..

/-- No thread other than the holder of the flag is inside. -/
theorem Sound.not_inside (h : s.Sound O s₀) {i j : ι} (hi : (s.thread i).Holds) (hj : j ≠ i)
    (e : ε) (r : ρ) : s.thread j ≠ .inside e r := fun hinside =>
  hj (h.exclusive j i (holds_of_inside hinside) hi)

theorem sound_initial (O : Object σ ε ρ ω) (s₀ : σ) :
    (initial s₀ : Sections ι σ ε ρ ω).Sound O s₀ where
  exclusive _ _ hi := hi.elim
  flag_iff := ⟨fun h => absurd h Bool.false_ne_true, fun ⟨_, hi⟩ => hi.elim⟩
  sequence := ⟨s₀, .nil, nofun, fun _ => rfl⟩
  results _ := rfl

/-- A call is made: the thread neither holds the flag nor is it inside. -/
theorem Sound.call (h : s.Sound O s₀) {i : ι} (hidle : s.thread i = .idle) (e : ε) :
    (s.setThread i (.spinning e)).Sound O s₀ := by
  have hholds : ∀ j, ((s.setThread i (.spinning e)).thread j).Holds ↔ (s.thread j).Holds := by
    intro j
    rw [thread_setThread]
    split
    · next hj => rw [hj, hidle]; rfl
    · rfl
  have hinside : ∀ j e' r, (s.setThread i (.spinning e)).thread j = .inside e' r ↔
      s.thread j = .inside e' r := by
    intro j e' r
    rw [thread_setThread]
    split
    · next hj => simp [hj, hidle]
    · rfl
  obtain ⟨t, hsequence, hsteps, hquiet⟩ := h.sequence
  constructor
  · exact fun j k hj hk => h.exclusive j k ((hholds j).mp hj) ((hholds k).mp hk)
  · exact h.flag_iff.trans (exists_congr fun j => (hholds j).symm)
  · exact ⟨t, hsequence, fun j e' r hj => hsteps j e' r ((hinside j e' r).mp hj),
      fun hnone => hquiet fun j e' r hj => hnone j e' r ((hinside j e' r).mpr hj)⟩
  · intro j
    refine (h.results j).trans (congrArg _ ?_)
    rw [thread_setThread]
    split
    · next hj => rw [hj, hidle]; rfl
    · rfl

/-- The flag was clear, so no thread held it. -/
theorem Sound.enter (h : s.Sound O s₀) {i : ι} {e : ε} (hspinning : s.thread i = .spinning e)
    (hflag : s.flag = false) :
    ({ s with flag := true }.setThread i (.inside e (O.enter e))).Sound O s₀ := by
  have hnone : ∀ j, ¬ (s.thread j).Holds := fun j hj =>
    absurd (h.flag_iff.mpr ⟨j, hj⟩) (by simp [hflag])
  have hholder : ∀ j, (({ s with flag := true }.setThread i (.inside e (O.enter e))).thread
      j).Holds → j = i := by
    intro j hj
    rw [thread_setThread] at hj
    split at hj
    · assumption
    · exact absurd hj (hnone j)
  obtain ⟨t, hsequence, -, hquiet⟩ := h.sequence
  have hshared : s.shared = t := hquiet fun j e' r hj => hnone j (holds_of_inside hj)
  constructor
  · exact fun j k hj hk => (hholder j hj).trans (hholder k hk).symm
  · refine iff_of_true rfl ⟨i, ?_⟩
    rw [thread_setThread, if_pos rfl]
    trivial
  · refine ⟨t, hsequence, fun j e' r hj => ?_, fun hout => ?_⟩
    · obtain rfl := hholder j (holds_of_inside hj)
      rw [thread_setThread, if_pos rfl] at hj
      cases hj
      exact hshared ▸ .refl
    · exact absurd ((thread_setThread _ i i _).trans (if_pos rfl)) (hout i e (O.enter e))
  · intro j
    refine (h.results j).trans (congrArg _ ?_)
    rw [thread_setThread]
    split
    · next hj => rw [hj, hspinning]; rfl
    · rfl

/-- A step of the body that goes on. -/
theorem Sound.next (h : s.Sound O s₀) {i : ι} {e : ε} {r r' : ρ} {shared : σ}
    (hinside : s.thread i = .inside e r)
    (hnext : O.next s.shared r = some (shared, .inl r')) :
    ({ s with shared }.setThread i (.inside e r')).Sound O s₀ := by
  have hholds : ∀ j, (({ s with shared }.setThread i (.inside e r')).thread j).Holds ↔
      (s.thread j).Holds := by
    intro j
    rw [thread_setThread]
    split
    · next hj => rw [hj, hinside]; rfl
    · rfl
  obtain ⟨t, hsequence, hsteps, -⟩ := h.sequence
  constructor
  · exact fun j k hj hk => h.exclusive j k ((hholds j).mp hj) ((hholds k).mp hk)
  · exact h.flag_iff.trans (exists_congr fun j => (hholds j).symm)
  · refine ⟨t, hsequence, fun j e' r'' hj => ?_, fun hout => ?_⟩
    · rw [thread_setThread] at hj
      split at hj
      · cases hj
        exact (hsteps i e r hinside).tail hnext
      · next hne => exact absurd hj (h.not_inside (holds_of_inside hinside) hne e' r'')
    · exact absurd ((thread_setThread _ i i _).trans (if_pos rfl)) (hout i e r')
  · intro j
    refine (h.results j).trans (congrArg _ ?_)
    rw [thread_setThread]
    split
    · next hj => rw [hj, hinside]; rfl
    · rfl

/-- The last step of the body: the call joins the sequence. -/
theorem Sound.last (h : s.Sound O s₀) {i : ι} {e : ε} {r : ρ} {o : ω} {shared : σ}
    (hinside : s.thread i = .inside e r)
    (hnext : O.next s.shared r = some (shared, .inr o)) :
    ({ s with shared, log := s.log ++ [(i, e, o)] }.setThread i (.leaving e o)).Sound O s₀ := by
  have hholds : ∀ j, (({ s with shared, log := s.log ++ [(i, e, o)] }.setThread i
      (.leaving e o)).thread j).Holds ↔ (s.thread j).Holds := by
    intro j
    rw [thread_setThread]
    split
    · next hj => rw [hj, hinside]; rfl
    · rfl
  have hout : ∀ j e' r', ({ s with shared, log := s.log ++ [(i, e, o)] }.setThread i
      (.leaving e o)).thread j ≠ .inside e' r' := by
    intro j e' r' hj
    rw [thread_setThread] at hj
    split at hj
    · cases hj
    · next hne => exact h.not_inside (holds_of_inside hinside) hne e' r' hj
  obtain ⟨t, hsequence, hsteps, -⟩ := h.sequence
  constructor
  · exact fun j k hj hk => h.exclusive j k ((hholds j).mp hj) ((hholds k).mp hk)
  · exact h.flag_iff.trans (exists_congr fun j => (hholds j).symm)
  · refine ⟨shared, ?_, fun j e' r' hj => absurd hj (hout j e' r'), fun _ => rfl⟩
    show O.Sequence s₀ ((s.log ++ [(i, e, o)]).map Prod.snd) shared
    rw [List.map_append]
    exact hsequence.snoc ⟨_, hsteps i e r hinside, hnext⟩
  · intro j
    show (s.log ++ [(i, e, o)]).filter _ = s.returned.filter _ ++ _
    have hresults := h.results j
    rw [List.filter_append, hresults, thread_setThread]
    split
    · next hj =>
      subst hj
      simp [hinside, pending]
    · next hne => simp [Ne.symm hne]

/-- The flag is cleared and the call returns. -/
theorem Sound.leave (h : s.Sound O s₀) {i : ι} {e : ε} {o : ω}
    (hleaving : s.thread i = .leaving e o) :
    ({ s with flag := false, returned := s.returned ++ [(i, e, o)] }.setThread i
      .idle).Sound O s₀ := by
  have hnone : ∀ j, ¬ (({ s with
      flag := false, returned := s.returned ++ [(i, e, o)] }.setThread i .idle).thread
        j).Holds := by
    intro j hj
    rw [thread_setThread] at hj
    split at hj
    · exact hj
    · next hne => exact hne (h.exclusive j i hj (holds_of_leaving hleaving))
  have hquietly : ∀ j e' r', s.thread j ≠ .inside e' r' := by
    intro j e' r' hj
    obtain rfl := h.exclusive j i (holds_of_inside hj) (holds_of_leaving hleaving)
    rw [hleaving] at hj
    cases hj
  obtain ⟨t, hsequence, -, hquiet⟩ := h.sequence
  constructor
  · exact fun j _ hj => absurd hj (hnone j)
  · exact iff_of_false Bool.false_ne_true fun ⟨j, hj⟩ => hnone j hj
  · exact ⟨t, hsequence, fun j e' r' hj => absurd (holds_of_inside hj) (hnone j),
      fun _ => hquiet hquietly⟩
  · intro j
    show s.log.filter _ = (s.returned ++ [(i, e, o)]).filter _ ++ _
    have hresults := h.results j
    rw [List.filter_append, hresults, thread_setThread]
    split
    · next hj =>
      subst hj
      simp [hleaving, pending]
    · next hne => simp [Ne.symm hne]

theorem Sound.step (h : s.Sound O s₀) {e : Event ι ε} (hstep : s.step O e = some s') :
    s'.Sound O s₀ := by
  cases transition_of_step hstep with
  | call e hidle => exact h.call hidle e
  | spin => exact h
  | enter hspinning hflag => exact h.enter hspinning hflag
  | next hinside hnext => exact h.next hinside hnext
  | last hinside hnext => exact h.last hinside hnext
  | leave hleaving => exact h.leave hleaving

variable {G : Sections ι σ ε ρ ω → Event ι ε → Prop}

theorem sound_of_reach (h : Runs.Reach (Sections.step O) G (initial s₀) s) : s.Sound O s₀ :=
  h.invariant (sound_initial O s₀) fun _ _ _ hs _ hstep => hs.step hstep

/-- The bodies that have returned are a sequence of calls that run alone; while the flag is
clear, the shared state is where the sequence ends. -/
theorem sequence_of_reach (h : Runs.Reach (Sections.step O) G (initial s₀) s) :
    ∃ t, O.Sequence s₀ (s.log.map Prod.snd) t ∧ (s.flag = false → s.shared = t) := by
  have hsound := sound_of_reach h
  obtain ⟨t, hsequence, -, hquiet⟩ := hsound.sequence
  refine ⟨t, hsequence, fun hflag => hquiet fun i e r hinside => ?_⟩
  have hset := hsound.flag_iff.mpr ⟨i, holds_of_inside hinside⟩
  rw [hflag] at hset
  cases hset

/-- The flag is set exactly while a thread is in its section, and only one is. -/
theorem exclusive_of_reach (h : Runs.Reach (Sections.step O) G (initial s₀) s) :
    (∀ i j, (s.thread i).Holds → (s.thread j).Holds → i = j) ∧
      (s.flag = true ↔ ∃ i, (s.thread i).Holds) :=
  ⟨(sound_of_reach h).exclusive, (sound_of_reach h).flag_iff⟩

/-- A thread has been given back the results of its own calls of the sequence, in order, but
for the last one while it leaves. -/
theorem results_of_reach (h : Runs.Reach (Sections.step O) G (initial s₀) s) (i : ι) :
    s.log.filter (fun c => c.1 = i) =
      s.returned.filter (fun c => c.1 = i) ++ pending i (s.thread i) :=
  (sound_of_reach h).results i

end Sections

end SpinLock
