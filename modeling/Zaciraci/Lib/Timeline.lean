import Mathlib.Data.List.Induction
import Mathlib.Order.Defs.PartialOrder

namespace Zaciraci.Lib

variable {T ε σ τ : Type} [Preorder T]

def Chronological (history : List (T × ε)) : Prop := history.Pairwise (·.1 ≤ ·.1)

instance [DecidableLE T] (history : List (T × ε)) : Decidable (Chronological history) :=
  inferInstanceAs (Decidable (List.Pairwise _ _))

theorem chronological_concat {history : List (T × ε)} {now : T} {event : ε} :
    Chronological (history ++ [(now, event)]) ↔
      Chronological history ∧ ∀ e ∈ history, e.1 ≤ now := by
  simp [Chronological, List.pairwise_append]

theorem Chronological.run_induct {step : σ → T × ε → σ} {s : σ} {I : List (T × ε) → σ → Prop}
    {history : List (T × ε)} (h : Chronological history) (hnil : I [] s)
    (hstep : ∀ history t now event, I history t → (∀ e ∈ history, e.1 ≤ now) →
      I (history ++ [(now, event)]) (step t (now, event))) :
    I history (history.foldl step s) := by
  induction history using List.reverseRecOn with
  | nil => exact hnil
  | append_singleton history e ih =>
    obtain ⟨now, event⟩ := e
    obtain ⟨hbefore, hlast⟩ := chronological_concat.1 h
    rw [List.foldl_append, List.foldl_cons, List.foldl_nil]
    exact hstep history _ now event (ih hbefore) hlast

end Zaciraci.Lib
