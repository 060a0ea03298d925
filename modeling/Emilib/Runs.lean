/-!
# Runs of a labelled system and their invariants

A system has initial states and labelled steps. A guard restricts which labels
may be taken in which state; a state is reached under a guard when some run from
an initial state takes only guarded steps. The unrestricted reachable states are
those reached under the guard that always holds.

Safety is proved by one rule: a predicate of every initial state that each
guarded step preserves holds in every state reached under that guard. The rule
is stated once here, so a development supplies only its step lemma.

A system may compute its steps. A list of labels it can perform in turn is then
a run, so concrete runs are found by evaluation. What has happened along a run is
read off its labels, which a recorded system carries beside its state.
-/

namespace Emilib

universe u v w x

/-- Initial states and labelled steps; a label records every choice of its step. -/
structure System (σ : Type u) (ε : Type v) where
  start : σ → Prop
  step : σ → ε → σ → Prop

namespace System

variable {σ : Type u} {ε : Type v}

/-- Reached by a run from an initial state whose every step meets the guard in
the state where that step is taken. -/
inductive ReachedUnder (system : System σ ε) (guard : σ → ε → Prop) : σ → Prop
  | initial (state : σ) (starts : system.start state) : ReachedUnder system guard state
  | next (before after : σ) (label : ε) (reached : ReachedUnder system guard before)
      (allowed : guard before label) (taken : system.step before label after) :
      ReachedUnder system guard after

/-- Reached by any run. -/
def Reached (system : System σ ε) : σ → Prop := system.ReachedUnder (fun _ _ => True)

variable {system : System σ ε} {guard : σ → ε → Prop}

/-- An unguarded step extends an unguarded run. -/
theorem Reached.next {before after : σ} {label : ε} (reached : system.Reached before)
    (taken : system.step before label after) : system.Reached after :=
  ReachedUnder.next before after label reached True.intro taken

/-- The invariant rule for guarded runs. -/
theorem ReachedUnder.invariant {holds : σ → Prop}
    (initially : ∀ state, system.start state → holds state)
    (preserved : ∀ before label after, holds before → guard before label →
      system.step before label after → holds after)
    {state : σ} (reached : system.ReachedUnder guard state) : holds state := by
  induction reached with
  | initial state starts => exact initially state starts
  | next before after label _ allowed taken held =>
    exact preserved before label after held allowed taken

/-- A run under a guard is one under any weaker guard. -/
theorem ReachedUnder.weaken {weaker : σ → ε → Prop} {state : σ}
    (reached : system.ReachedUnder guard state)
    (implied : ∀ before label, guard before label → weaker before label) :
    system.ReachedUnder weaker state := by
  induction reached with
  | initial state starts => exact .initial state starts
  | next before after label _ allowed taken inductionHypothesis =>
    exact .next before after label inductionHypothesis (implied before label allowed) taken

/-- The simulation rule: if every initial state has an image among those of another
system, and every guarded step is a step of the image or leaves it as it is, then
every state reached has an image reached there. -/
theorem ReachedUnder.simulated {τ : Type w} {η : Type x} {abstract : System τ η}
    {permitted : τ → η → Prop} (related : σ → τ → Prop)
    (initially : ∀ state, system.start state → ∃ image, abstract.start image ∧ related state image)
    (matched : ∀ before label after image, related before image →
      abstract.ReachedUnder permitted image → guard before label →
      system.step before label after → related after image ∨
        ∃ action next, permitted image action ∧ abstract.step image action next ∧
          related after next)
    {state : σ} (reached : system.ReachedUnder guard state) :
    ∃ image, abstract.ReachedUnder permitted image ∧ related state image := by
  induction reached with
  | initial state starts =>
    obtain ⟨image, begins, similar⟩ := initially state starts
    exact ⟨image, .initial image begins, similar⟩
  | next before after label _ allowed taken inductionHypothesis =>
    obtain ⟨image, imageReached, similar⟩ := inductionHypothesis
    rcases matched before label after image similar imageReached allowed taken with
      stays | ⟨action, next, permits, moved, follows⟩
    · exact ⟨image, imageReached, stays⟩
    · exact ⟨next, .next image next action imageReached permits moved, follows⟩

/-- The system that performs a label wherever `perform` answers. -/
def performing (start : σ → Prop) (perform : σ → ε → Option σ) : System σ ε where
  start := start
  step before label after := perform before label = some after

/-- Perform labels in turn, as long as each one meets the guard. -/
def follow (perform : σ → ε → Option σ) (guard : σ → ε → Prop)
    [∀ state label, Decidable (guard state label)] : σ → List ε → Option σ
  | state, [] => some state
  | state, label :: rest =>
      if guard state label then
        (perform state label).bind fun next => follow perform guard next rest
      else none

/-- Labels performed in turn extend a run. -/
theorem follow_reached {start : σ → Prop} {perform : σ → ε → Option σ}
    [∀ state label, Decidable (guard state label)] (labels : List ε) {state final : σ}
    (reached : (performing start perform).ReachedUnder guard state)
    (completed : follow perform guard state labels = some final) :
    (performing start perform).ReachedUnder guard final := by
  induction labels generalizing state with
  | nil =>
    have same : state = final := Option.some.inj completed
    exact same ▸ reached
  | cons label rest inductionHypothesis =>
    by_cases allowed : guard state label
    · rw [follow, if_pos allowed] at completed
      obtain ⟨next, taken, remaining⟩ := Option.bind_eq_some_iff.mp completed
      exact inductionHypothesis (.next state next label reached allowed taken) remaining
    · rw [follow, if_neg allowed] at completed
      cases completed

/-- What every performed label keeps is kept by any list of labels. -/
theorem follow_invariant {perform : σ → ε → Option σ}
    [∀ state label, Decidable (guard state label)] {holds : σ → Prop}
    (preserved : ∀ before label after, holds before → guard before label →
      perform before label = some after → holds after)
    (labels : List ε) {state final : σ} (held : holds state)
    (completed : follow perform guard state labels = some final) : holds final := by
  induction labels generalizing state with
  | nil =>
    have same : state = final := Option.some.inj completed
    exact same ▸ held
  | cons label rest inductionHypothesis =>
    by_cases allowed : guard state label
    · rw [follow, if_pos allowed] at completed
      obtain ⟨next, taken, remaining⟩ := Option.bind_eq_some_iff.mp completed
      exact inductionHypothesis (preserved state label next held allowed taken) remaining
    · rw [follow, if_neg allowed] at completed
      cases completed

/-- The progress rule: if every state that has not arrived has a step that keeps the
invariant and lowers the measure, some list of labels arrives. -/
theorem follow_progress {perform : σ → ε → Option σ}
    [∀ state label, Decidable (guard state label)] {holds arrived : σ → Prop} (measure : σ → Nat)
    (advances : ∀ state, holds state → ¬ arrived state → ∃ label after, guard state label ∧
      perform state label = some after ∧ holds after ∧ measure after < measure state)
    {state : σ} (held : holds state) :
    ∃ labels final, follow perform guard state labels = some final ∧ holds final ∧
      arrived final := by
  induction bound : measure state using Nat.strongRecOn generalizing state with
  | _ bound inductionHypothesis =>
    by_cases there : arrived state
    · exact ⟨[], state, rfl, held, there⟩
    · obtain ⟨label, after, allowed, taken, kept, lower⟩ := advances state held there
      obtain ⟨labels, final, completed, reached⟩ :=
        inductionHypothesis (measure after) (bound ▸ lower) kept rfl
      refine ⟨label :: labels, final, ?_, reached⟩
      rw [follow, if_pos allowed, taken]
      exact completed

/-- The same system beside the labels of its run, latest first. -/
def recording (system : System σ ε) : System (σ × List ε) ε where
  start recorded := system.start recorded.1 ∧ recorded.2 = []
  step before label after := system.step before.1 label after.1 ∧ after.2 = label :: before.2

/-- The invariant rule for recorded runs: a step adds its label to the history. -/
theorem recorded_invariant {holds : σ → List ε → Prop}
    (initially : ∀ state, system.start state → holds state [])
    (preserved : ∀ before history label after, holds before history → guard before label →
      system.step before label after → holds after (label :: history))
    {state : σ} {history : List ε}
    (reached : system.recording.ReachedUnder (fun recorded => guard recorded.1) (state, history)) :
    holds state history := by
  suffices whole : ∀ recorded, system.recording.ReachedUnder
      (fun recorded => guard recorded.1) recorded → holds recorded.1 recorded.2 from
    whole (state, history) reached
  intro recorded reached
  induction reached with
  | initial recorded starts =>
    rw [starts.2]
    exact initially recorded.1 starts.1
  | next before after label _ allowed taken held =>
    rw [taken.2]
    exact preserved before.1 before.2 label after.1 held allowed taken.1

/-- Labels performed in turn extend a recorded run by themselves. -/
theorem follow_recorded {start : σ → Prop} {perform : σ → ε → Option σ}
    [∀ state label, Decidable (guard state label)] (labels : List ε) {history : List ε}
    {state final : σ}
    (reached : (performing start perform).recording.ReachedUnder
      (fun recorded => guard recorded.1) (state, history))
    (completed : follow perform guard state labels = some final) :
    (performing start perform).recording.ReachedUnder
      (fun recorded => guard recorded.1) (final, labels.reverse ++ history) := by
  induction labels generalizing state history with
  | nil =>
    have same : state = final := Option.some.inj completed
    exact same ▸ reached
  | cons label rest inductionHypothesis =>
    by_cases allowed : guard state label
    · rw [follow, if_pos allowed] at completed
      obtain ⟨next, taken, remaining⟩ := Option.bind_eq_some_iff.mp completed
      have extended := ReachedUnder.next (state, history) (next, label :: history) label reached
        allowed ⟨taken, rfl⟩
      rw [List.reverse_cons, List.append_assoc]
      exact inductionHypothesis extended remaining
    · rw [follow, if_neg allowed] at completed
      cases completed

/-- The state behind labels that can all be performed. -/
theorem followed_reached {start : σ → Prop} {perform : σ → ε → Option σ}
    [∀ state label, Decidable (guard state label)] (labels : List ε) {state : σ}
    (reached : (performing start perform).ReachedUnder guard state)
    (completed : (follow perform guard state labels).isSome) :
    (performing start perform).ReachedUnder guard
      ((follow perform guard state labels).get completed) :=
  follow_reached labels reached (Option.some_get completed).symm

end System

end Emilib
