/-
Machines whose events belong to two parties. The unwinding conditions say of a relation between
states that a party's own events preserve it when both states take them, and the other party's events
when only one does; then what is related after a run is what the party's own events alone lead to.
-/
import Mathlib.Tactic.Common

namespace Noninterference

variable {S E : Type}

/-- One event after the other. -/
def run (step : S → E → S) (s : S) (events : List E) : S := events.foldl step s

/-- `R` is what the party of the events `own` can tell of the states. -/
structure Unwinding (step : S → E → S) (own : E → Bool) (R : S → S → Prop) : Prop where
  consistent : ∀ {s t : S} {e : E}, own e = true → R s t → R (step s e) (step t e)
  respects : ∀ {s t : S} {e : E}, own e = false → R s t → R (step s e) t

variable {step : S → E → S} {own : E → Bool} {R : S → S → Prop}

theorem run_cons (s : S) (e : E) (events : List E) : run step s (e :: events) = run step (step s e) events := rfl

theorem run_append (s : S) (events events' : List E) :
    run step s (events ++ events') = run step (run step s events) events' := List.foldl_append

/-- The other party's events can be left out. -/
theorem Unwinding.purge (h : Unwinding step own R) : ∀ (events : List E) {s t : S}, R s t →
    R (run step s events) (run step t (events.filter own))
  | [], _, _, hr => hr
  | e :: events, s, t, hr => by
    rw [run_cons]
    cases he : own e with
    | true =>
      rw [List.filter_cons_of_pos he, run_cons]
      exact h.purge events (h.consistent he hr)
    | false =>
      rw [List.filter_cons_of_neg (by rw [he]; decide)]
      exact h.purge events (h.respects he hr)

/-- What every event leaves as it is, a run leaves as it is. -/
theorem run_unchanged {V : Type} (view : S → V) (hs : ∀ s e, view (step s e) = view s) :
    ∀ (events : List E) (s : S), view (run step s events) = view s
  | [], _ => rfl
  | e :: events, s => by rw [run_cons, run_unchanged view hs events, hs]

end Noninterference
