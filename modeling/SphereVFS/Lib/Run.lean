import Mathlib.Algebra.Order.Ring.Int
import Mathlib.Tactic.Common

/-!
# Run

Runs of a deterministic system with a condition on every step, and the invariant rule for them.
-/

namespace Run

variable {σ ι : Type} (step : σ → ι → σ)

/-- Every operation of the run meets `P` in the state it starts from. -/
def AllSteps (P : σ → ι → Prop) : σ → List ι → Prop
  | _, [] => True
  | s, i :: is => P s i ∧ AllSteps P (step s i) is

instance AllSteps.decidable (P : σ → ι → Prop) [∀ s i, Decidable (P s i)] :
    ∀ s is, Decidable (AllSteps step P s is)
  | _, [] => isTrue trivial
  | s, i :: is => @instDecidableAnd _ _ _ (AllSteps.decidable P (step s i) is)

variable {step} {P Q : σ → ι → Prop}

theorem AllSteps.and {s : σ} {is : List ι} (h : AllSteps step P s is) (h' : AllSteps step Q s is) :
    AllSteps step (fun s i => P s i ∧ Q s i) s is := by
  induction is generalizing s with
  | nil => trivial
  | cons i is ih => exact ⟨⟨h.1, h'.1⟩, ih h.2 h'.2⟩

theorem allSteps_append {s : σ} {is js : List ι} :
    AllSteps step P s (is ++ js) ↔ AllSteps step P s is ∧ AllSteps step P (is.foldl step s) js := by
  induction is generalizing s with
  | nil => simp [AllSteps]
  | cons i is ih => simp [AllSteps, ih, and_assoc]

/-- What every admissible step preserves holds at the end of every admissible run. -/
theorem invariant (Inv : σ → Prop) (hstep : ∀ s i, Inv s → P s i → Inv (step s i)) {s : σ}
    {is : List ι} (hs : Inv s) (h : AllSteps step P s is) : Inv (is.foldl step s) := by
  induction is generalizing s with
  | nil => exact hs
  | cons i is ih => exact ih (hstep s i hs h.1) h.2

theorem allSteps_congr (Inv : σ → Prop) {R : σ → ι → Prop}
    (hstep : ∀ s i, Inv s → P s i → Inv (step s i)) (hiff : ∀ s i, Inv s → P s i → (Q s i ↔ R s i))
    {s : σ} {is : List ι} (hs : Inv s) (h : AllSteps step P s is) :
    AllSteps step Q s is ↔ AllSteps step R s is := by
  induction is generalizing s with
  | nil => exact Iff.rfl
  | cons i is ih => exact and_congr (hiff s i hs h.1) (ih (hstep s i hs h.1) h.2)

end Run
