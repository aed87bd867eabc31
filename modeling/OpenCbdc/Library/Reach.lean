import Mathlib.Data.Nat.Init
import Mathlib.Logic.Relation

/-! Deterministic steps, as many as it takes. A step that waits for an answer is
repeated until the answer comes. -/
namespace Reach

variable {State : Type} {step : State → State}

/-- The state is reached after some number of steps. -/
def Reaches (step : State → State) : State → State → Prop :=
  Relation.ReflTransGen fun before after => step before = after

theorem Reaches.invariant {inv : State → Prop} (hStep : ∀ state, inv state → inv (step state))
    {start finish : State} (h : Reaches step start finish) (hStart : inv start) : inv finish := by
  induction h with
  | refl => exact hStart
  | tail _ hLast ih => exact hLast ▸ hStep _ ih

/-- From a state with the first property, one with the second is reached. -/
def LeadsTo (step : State → State) (first second : State → Prop) : Prop :=
  ∀ state, first state → ∃ finish, Reaches step state finish ∧ second finish

theorem LeadsTo.refl (here : State → Prop) : LeadsTo step here here :=
  fun state h => ⟨state, Relation.ReflTransGen.refl, h⟩

theorem LeadsTo.of_step {first second : State → Prop}
    (h : ∀ state, first state → second (step state)) : LeadsTo step first second :=
  fun state hFirst => ⟨step state, Relation.ReflTransGen.single rfl, h state hFirst⟩

theorem LeadsTo.trans {first second third : State → Prop} (hFirst : LeadsTo step first second)
    (hSecond : LeadsTo step second third) : LeadsTo step first third := by
  intro state hState
  obtain ⟨middle, hMiddle, hBetween⟩ := hFirst state hState
  obtain ⟨finish, hFinish, hThird⟩ := hSecond middle hBetween
  exact ⟨finish, Relation.ReflTransGen.trans hMiddle hFinish, hThird⟩

/-- A stage that leads to the next one leads to all that follow. -/
theorem LeadsTo.stages {stage : Nat → State → Prop} {first last : Nat} (hLe : first ≤ last)
    (h : ∀ i, first ≤ i → i < last → LeadsTo step (stage i) (stage (i + 1))) :
    LeadsTo step (stage first) (stage last) := by
  induction last, hLe using Nat.le_induction with
  | base => exact LeadsTo.refl _
  | succ last hLe ih =>
      have hBefore := ih fun i hFirst hLast => h i hFirst (Nat.lt_succ_of_lt hLast)
      exact hBefore.trans (h last hLe (Nat.lt_succ_self last))

/-- A step that succeeds or counts one more attempt, and that is bound to succeed at
some attempt from any one on, succeeds. -/
theorem LeadsTo.retry {waiting : Nat → State → Prop} {answered : State → Prop}
    (hStep : ∀ attempt state, waiting attempt state →
      answered (step state) ∨ waiting (attempt + 1) (step state))
    (hFair : ∀ attempt, ∃ later ≥ attempt, ∀ state, waiting later state → answered (step state))
    (attempt : Nat) : LeadsTo step (waiting attempt) answered := by
  obtain ⟨later, hLater, hAnswer⟩ := hFair attempt
  obtain ⟨distance, rfl⟩ := Nat.exists_eq_add_of_le hLater
  -- The induction is on how far the attempt is that is bound to succeed.
  clear hLater
  induction distance generalizing attempt with
  | zero => exact LeadsTo.of_step hAnswer
  | succ distance ih =>
      intro state hWaiting
      rcases hStep attempt state hWaiting with hDone | hStill
      · exact ⟨step state, Relation.ReflTransGen.single rfl, hDone⟩
      · rw [← Nat.add_assoc, Nat.add_right_comm] at hAnswer
        obtain ⟨finish, hFinish, hDone⟩ := ih (attempt + 1) hAnswer (step state) hStill
        exact ⟨finish, Relation.ReflTransGen.head rfl hFinish, hDone⟩

end Reach
