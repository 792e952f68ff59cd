/-
Runs of a labelled transition system: the invariant rule, runs whose every step satisfies a
condition, and the rule that turns one step condition into another along a run.
-/
import Mathlib.Tactic.Common

namespace Transition

variable {S E : Type}

/-- `Run step s es t`: the steps labelled `es` lead from `s` to `t`. -/
inductive Run (step : S → E → S → Prop) (s : S) : List E → S → Prop
  | nil : Run step s [] s
  | snoc {es : List E} {t u : S} {e : E} : Run step s es t → step t e u → Run step s (es ++ [e]) u

/-- The steps of `step` that satisfy `P`. -/
def Restrict (step P : S → E → S → Prop) : S → E → S → Prop := fun s e t => step s e t ∧ P s e t

variable {step P Q : S → E → S → Prop} {s t : S} {es : List E}

theorem Run.trans {es' : List E} {u : S} (h : Run step s es t) (h' : Run step t es' u) :
    Run step s (es ++ es') u := by
  induction h' with
  | nil => rwa [List.append_nil]
  | snoc _ he ih =>
    rw [← List.append_assoc]
    exact ih.snoc he

/-- What holds at the start and is preserved by every step holds after every run. -/
theorem Run.invariant (Inv : S → Prop) (h0 : Inv s) (hs : ∀ t e u, Inv t → step t e u → Inv u)
    (h : Run step s es t) : Inv t := by
  induction h with
  | nil => exact h0
  | snoc _ he ih => exact hs _ _ _ ih he

/-- The rule for invariants that speak of the steps taken so far. -/
theorem Run.invariant_steps (Inv : List E → S → Prop) (h0 : Inv [] s)
    (hs : ∀ es t e u, Inv es t → step t e u → Inv (es ++ [e]) u) (h : Run step s es t) :
    Inv es t := by
  induction h with
  | nil => exact h0
  | snoc _ he ih => exact hs _ _ _ _ ih he

/-- Where the steps with certain labels are determined, so are the runs of a number of them. -/
theorem Run.determined {p : E → Prop} (hstep : ∀ s e t e' t', p e → p e' → step s e t → step s e' t' → t = t')
    (h : Run step s es t) : ∀ {es' : List E} {t' : S}, Run step s es' t' → (∀ e ∈ es, p e) → (∀ e ∈ es', p e) →
      es.length = es'.length → t = t' := by
  induction h with
  | nil =>
    intro es' t' h' _ _ hlen
    cases h' with
    | nil => rfl
    | snoc h' he => rw [List.length_append] at hlen; cases hlen
  | snoc h he ih =>
    intro es' t' h' hp hp' hlen
    rw [List.length_append] at hlen
    cases h' with
    | nil => cases hlen
    | snoc h' he' =>
      rw [List.length_append] at hlen
      have hsame := ih h' (fun e hmem => hp e (List.mem_append_left _ hmem))
        (fun e hmem => hp' e (List.mem_append_left _ hmem)) (Nat.add_right_cancel hlen)
      subst hsame
      exact hstep _ _ _ _ _ (hp _ (List.mem_append_right _ List.mem_cons_self))
        (hp' _ (List.mem_append_right _ List.mem_cons_self)) he he'

/-- Two step conditions that agree on the steps from states satisfying an invariant, which the
steps meeting the first of them preserve, hold of the same runs. -/
theorem Run.restrict_iff (Inv : S → Prop) (h0 : Inv s)
    (hPQ : ∀ t e u, Inv t → step t e u → (P t e u ↔ Q t e u))
    (hs : ∀ t e u, Inv t → step t e u → P t e u → Inv u) :
    Run (Restrict step P) s es t ↔ Run (Restrict step Q) s es t := by
  constructor
  · intro h
    have : Inv t ∧ Run (Restrict step Q) s es t := by
      induction h with
      | nil => exact ⟨h0, .nil⟩
      | snoc _ he ih => exact ⟨hs _ _ _ ih.1 he.1 he.2, ih.2.snoc ⟨he.1, (hPQ _ _ _ ih.1 he.1).1 he.2⟩⟩
    exact this.2
  · intro h
    have : Inv t ∧ Run (Restrict step P) s es t := by
      induction h with
      | nil => exact ⟨h0, .nil⟩
      | snoc _ he ih =>
        have hp := (hPQ _ _ _ ih.1 he.1).2 he.2
        exact ⟨hs _ _ _ ih.1 he.1 hp, ih.2.snoc ⟨he.1, hp⟩⟩
    exact this.2

/-- A condition on the labels alone is a condition on the run's list of labels. -/
theorem Run.restrict_label_iff (p : E → Prop) :
    Run (Restrict step fun _ e _ => p e) s es t ↔ Run step s es t ∧ ∀ e ∈ es, p e := by
  constructor
  · intro h
    induction h with
    | nil => exact ⟨.nil, by simp⟩
    | snoc _ he ih =>
      refine ⟨ih.1.snoc he.1, fun e h => ?_⟩
      rcases List.mem_append.1 h with h | h
      · exact ih.2 e h
      · rw [List.mem_singleton] at h; subst h; exact he.2
  · rintro ⟨h, hp⟩
    induction h with
    | nil => exact .nil
    | snoc _ he ih =>
      exact (ih fun e h => hp e (List.mem_append_left _ h)).snoc ⟨he, hp _ (by simp)⟩

end Transition
