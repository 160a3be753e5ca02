/-! Finite runs of a labelled transition relation. -/
namespace Lib
universe u v

inductive Run {σ : Type u} {ε : Type v} (step : σ → ε → σ → Prop) : σ → List ε → σ → Prop where
  | done (s : σ) : Run step s [] s
  | next {s t u : σ} {e : ε} {es : List ε} (h : step s e t) (rest : Run step t es u) :
      Run step s (e :: es) u

namespace Run
variable {σ : Type u} {ε : Type v} {step : σ → ε → σ → Prop} {s t u : σ} {es fs : List ε}

theorem append (h : Run step s es t) (h' : Run step t fs u) : Run step s (es ++ fs) u := by
  induction h with
  | done => exact h'
  | next hs _ ih => exact .next hs (ih h')

theorem cut {e : ε} (h : Run step s (es ++ e :: fs) u) :
    ∃ before after, Run step s es before ∧ step before e after ∧ Run step after fs u := by
  induction es generalizing s with
  | nil =>
    cases h with
    | next hs rest => exact ⟨s, _, .done s, hs, rest⟩
  | cons x es ih =>
    cases h with
    | next hs rest =>
      obtain ⟨before, after, hbefore, he, hafter⟩ := ih rest
      exact ⟨before, after, .next hs hbefore, he, hafter⟩

theorem keeps {P : σ → Prop} (h : Run step s es t) (hstep : ∀ s e t, P s → step s e t → P t)
    (hs : P s) : P t := by
  induction h with
  | done => exact hs
  | next he _ ih => exact ih (hstep _ _ _ hs he)

end Run
end Lib
