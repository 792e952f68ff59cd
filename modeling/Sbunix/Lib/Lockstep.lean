/-
Two machines that read the same events: one shows something of what it has read, the other one says
what is to be shown. If a step from states that agree leads to such states exactly when it is of a
certain kind, the first machine is right after every event exactly as long as all steps are of that
kind.
-/
import Sbunix.Lib.Noninterference

namespace Lockstep

open Noninterference (run run_cons)

variable {S D E : Type} {step : S → E → S} {spec : D → E → D}

/-- A step from states that `R` relates leads to such states exactly if it `Keeps` them. -/
def Tracks (step : S → E → S) (spec : D → E → D) (R : S → D → Prop) (Keeps : D → E → Prop) :
    Prop :=
  ∀ {s d e}, R s d → (R (step s e) (spec d e) ↔ Keeps d e)

/-- The states are related after every event exactly if each step is of the kind that keeps them so. -/
theorem Tracks.related_iff {R : S → D → Prop} {Keeps : D → E → Prop} (h : Tracks step spec R Keeps) :
    ∀ (events : List E) {s : S} {d : D}, R s d →
      ((∀ pre, pre <+: events → R (run step s pre) (run spec d pre)) ↔
        ∀ pre e, pre ++ [e] <+: events → Keeps (run spec d pre) e)
  | [], s, d, hr => by
    refine iff_of_true ?_ ?_
    · intro pre hp
      rw [List.prefix_nil.1 hp]
      exact hr
    · intro pre e hp
      exact absurd (List.prefix_nil.1 hp) (List.concat_ne_nil e pre)
  | e :: events, s, d, hr => by
    constructor
    · intro hrel
      have hnext : R (step s e) (spec d e) := hrel [e] ⟨events, rfl⟩
      have hrest := (h.related_iff events hnext).1 fun pre hp =>
        hrel (e :: pre) (List.cons_prefix_cons.2 ⟨rfl, hp⟩)
      intro pre e' hp
      cases pre with
      | nil =>
        obtain ⟨rfl, -⟩ := List.cons_prefix_cons.1 hp
        exact (h hr).1 hnext
      | cons x pre =>
        rw [List.cons_append, List.cons_prefix_cons] at hp
        obtain ⟨rfl, hpre⟩ := hp
        exact hrest pre e' hpre
    · intro hkeep
      have hnext := (h hr).2 (hkeep [] e ⟨events, rfl⟩)
      have hrest := (h.related_iff events hnext).2 fun pre e' hp =>
        hkeep (e :: pre) e' (List.cons_prefix_cons.2 ⟨rfl, hp⟩)
      intro pre hp
      cases pre with
      | nil => exact hr
      | cons x pre =>
        obtain ⟨rfl, hpre⟩ := List.cons_prefix_cons.1 hp
        exact hrest pre hpre

end Lockstep
