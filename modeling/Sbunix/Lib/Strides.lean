/-
A walk over a list that goes forward by what it finds where it stands, until it finds what it looks
for. It comes to a place exactly if what stands in front of that can be cut into the pieces that it goes
over.
-/
import Mathlib.Tactic.Common

namespace Strides

/-- What is to be done at a place, by what stands from there on. -/
inductive Step where
  | outside
  | here
  | forward (n : Nat)

inductive Fault where
  | outside
  | outOfFuel
deriving DecidableEq, Repr

variable {α : Type}

def walk (look : List α → Step) (l : List α) : Nat → Nat → Except Fault Nat
  | 0, _ => .error .outOfFuel
  | fuel + 1, i =>
    match look (l.drop i) with
    | .outside => .error .outside
    | .here => .ok i
    | .forward n => walk look l fuel (i + n)

/-- The list can be cut into pieces that are as long as the step from their beginning, if `after` follows. -/
inductive Cut (look : List α → Step) (after : List α) : List α → Prop
  | nil : Cut look after []
  | cons {piece rest : List α} : piece ≠ [] → look (piece ++ rest ++ after) = .forward piece.length →
      Cut look after rest → Cut look after (piece ++ rest)

variable {look : List α → Step} {l after : List α}

/-- The walk does not go back. -/
theorem le_of_walk : ∀ (fuel : Nat) {i j : Nat}, walk look l fuel i = .ok j → i ≤ j
  | 0, _, _, h => by cases h
  | fuel + 1, i, j, h => by
    rw [walk] at h
    split at h
    · cases h
    · cases h
      exact Nat.le_refl _
    · exact Nat.le_trans (Nat.le_add_right _ _) (le_of_walk fuel h)

theorem drop_done (done front : List α) : (done ++ front ++ after).drop done.length = front ++ after := by
  rw [List.append_assoc, List.drop_left]

theorem cut_of_walk : ∀ (fuel : Nat) (done front : List α),
    walk look (done ++ front ++ after) fuel done.length = .ok (done.length + front.length) → Cut look after front
  | 0, _, _, h => by cases h
  | fuel + 1, done, front, h => by
    rw [walk, drop_done] at h
    split at h
    · cases h
    · cases front with
      | nil => exact .nil
      | cons a front =>
        rw [Except.ok.injEq, List.length_cons] at h
        omega
    · next n hlook =>
      have hle := le_of_walk fuel h
      by_cases hn : n = 0
      · -- the walk stands still, and has less fuel
        subst hn
        exact cut_of_walk fuel done front h
      · have hlen : (front.take n).length = n := by
          rw [List.length_take]
          omega
        have hcut := cut_of_walk fuel (done ++ front.take n) (front.drop n) (by
          rw [List.append_assoc done, List.take_append_drop, List.length_append, hlen, List.length_drop, h,
            Except.ok.injEq]
          omega)
        have hne : front.take n ≠ [] := by
          intro he
          rw [he] at hlen
          exact hn hlen.symm
        have hcons : Cut look after (front.take n ++ front.drop n) :=
          .cons hne (by rw [List.take_append_drop, hlook, hlen]) hcut
        rwa [List.take_append_drop] at hcons

theorem walk_of_cut (hhere : look after = .here) {front : List α} (h : Cut look after front) :
    ∀ done : List α, ∃ fuel, walk look (done ++ front ++ after) fuel done.length =
      .ok (done.length + front.length) := by
  induction h with
  | nil =>
    intro done
    refine ⟨1, ?_⟩
    rw [walk, drop_done, List.nil_append, hhere]
    rfl
  | @cons piece rest hne hlook _ ih =>
    intro done
    obtain ⟨fuel, hwalk⟩ := ih (done ++ piece)
    refine ⟨fuel + 1, ?_⟩
    rw [walk, drop_done, hlook]
    dsimp only
    rw [List.length_append] at hwalk
    rw [← List.append_assoc done, hwalk, List.length_append, Nat.add_assoc]

/-- The walk comes to what it looks for behind `front` exactly if `front` can be cut. -/
theorem walk_iff (hhere : look after = .here) (front : List α) :
    (∃ fuel, walk look (front ++ after) fuel 0 = .ok front.length) ↔ Cut look after front := by
  constructor
  · rintro ⟨fuel, h⟩
    refine cut_of_walk fuel [] front ?_
    rwa [List.nil_append, List.length_nil, Nat.zero_add]
  · intro h
    obtain ⟨fuel, hwalk⟩ := walk_of_cut hhere h []
    rw [List.nil_append, List.length_nil, Nat.zero_add] at hwalk
    exact ⟨fuel, hwalk⟩

end Strides
