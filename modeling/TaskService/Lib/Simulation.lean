import Mathlib.Tactic.Basic

/-!
# Refinement of labelled systems

A system is a relation between states; the label of a step is what can be seen of it. One system
refines another when a function of its states maps steps to steps with the same labels.

* **`Trace.invariant`**: what every step keeps, every trace keeps.
* **`Trace.refine`**: a function that maps steps to steps maps traces to traces.
-/

namespace Labelled

variable {S S' L : Type} {step : S → L → S → Prop} {step' : S' → L → S' → Prop}

/-- Steps with these labels lead from the one state to the other. -/
inductive Trace (step : S → L → S → Prop) : S → List L → S → Prop where
  | nil {s : S} : Trace step s [] s
  | cons {s mid s' : S} {l : L} {ls : List L} (hstep : step s l mid)
      (hrest : Trace step mid ls s') : Trace step s (l :: ls) s'

/-- The rule of invariants. -/
theorem Trace.invariant {I : S → Prop} (hstep : ∀ s l s', I s → step s l s' → I s') {s s' : S}
    {ls : List L} (h : Trace step s ls s') (hstart : I s) : I s' := by
  induction h with
  | nil => exact hstart
  | cons hnext _ ih => exact ih (hstep _ _ _ hstart hnext)

/-- **Refinement, from steps to traces.** From states that an invariant holds of, along labels that
a condition holds of, a function that maps steps to steps maps traces to traces. -/
theorem Trace.refine {I : S → Prop} {P : L → Prop} {f : S → S'}
    (hkeeps : ∀ s l s', I s → step s l s' → I s')
    (hmaps : ∀ s l s', I s → P l → step s l s' → step' (f s) l (f s')) {s s' : S} {ls : List L}
    (h : Trace step s ls s') (hstart : I s) (hlabels : ∀ l ∈ ls, P l) :
    Trace step' (f s) ls (f s') := by
  induction h with
  | nil => exact .nil
  | cons hnext _ ih =>
    obtain ⟨hl, hrest⟩ := List.forall_mem_cons.1 hlabels
    exact .cons (hmaps _ _ _ hstart hl hnext) (ih (hkeeps _ _ _ hstart hnext) hrest)

end Labelled
