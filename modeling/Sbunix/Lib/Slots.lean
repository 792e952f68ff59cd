/-
A table of slots filled from the front: a key is looked up in the first slot that has it, set there
or in a new slot at the end, and erased wherever it stands. `lastValue` is what a history of
assignments leaves a key with; `find_setAll` says the table holds just that.
-/
import Mathlib.Data.List.Forall2
import Mathlib.Data.List.Nodup

namespace Slots

variable {κ β γ : Type} [DecidableEq κ]

def find : List (κ × β) → κ → Option β
  | [], _ => none
  | (k, v) :: slots, key => if k = key then some v else find slots key

def set : List (κ × β) → κ → β → List (κ × β)
  | [], key, v => [(key, v)]
  | (k, x) :: slots, key, v => if k = key then (k, v) :: slots else (k, x) :: set slots key v

def erase (slots : List (κ × β)) (key : κ) : List (κ × β) := slots.filter (·.1 ≠ key)

def setAll (slots : List (κ × β)) (history : List (κ × β)) : List (κ × β) :=
  history.foldl (fun slots x => set slots x.1 x.2) slots

/-- The value of the last assignment to a key. -/
def lastValue : List (κ × β) → κ → Option β
  | [], _ => none
  | (k, v) :: history, key => (lastValue history key).or (if k = key then some v else none)

def keys (slots : List (κ × β)) : List κ := slots.map Prod.fst

section Find

theorem find_set : ∀ (slots : List (κ × β)) (key key' : κ) (v : β),
    find (set slots key v) key' = if key = key' then some v else find slots key'
  | [], key, key', v => rfl
  | (k, x) :: slots, key, key', v => by
    rw [set]
    split
    · next h =>
      subst h
      rw [find, find]
      split <;> simp_all
    · next h =>
      rw [find, find, find_set slots key key' v]
      split
      · next hk =>
        rw [if_neg fun he => h (hk.trans he.symm)]
      · rfl

theorem find_erase : ∀ (slots : List (κ × β)) (key key' : κ),
    find (erase slots key) key' = if key = key' then none else find slots key'
  | [], key, key' => by simp [erase, find]
  | (k, x) :: slots, key, key' => by
    have ih := find_erase slots key key'
    rw [erase] at ih ⊢
    by_cases hk : k = key
    · rw [List.filter_cons_of_neg (by simpa using hk), ih, find]
      split
      · rfl
      · next hne => rw [if_neg fun he => hne (hk.symm.trans he)]
    · rw [List.filter_cons_of_pos (by simpa using hk), find, find, ih]
      split
      · next he => rw [if_neg fun he' => hk (he.trans he'.symm)]
      · rfl

theorem find_append : ∀ (slots more : List (κ × β)) (key : κ),
    find (slots ++ more) key = (find slots key).or (find more key)
  | [], more, key => by simp [find]
  | (k, x) :: slots, more, key => by
    rw [List.cons_append, find, find, find_append slots more key]
    split <;> rfl

theorem find_eq_none_iff : ∀ (slots : List (κ × β)) (key : κ),
    find slots key = none ↔ key ∉ keys slots
  | [], key => by simp [find, keys]
  | (k, x) :: slots, key => by
    rw [find, keys, List.map_cons, ← keys, List.mem_cons, not_or]
    split
    · next h => simp [h]
    · next h => rw [find_eq_none_iff slots, and_iff_right (Ne.symm h)]

/-- After a history of assignments the table has the last value of each key. -/
theorem find_setAll : ∀ (history slots : List (κ × β)) (key : κ),
    find (setAll slots history) key = (lastValue history key).or (find slots key)
  | [], slots, key => rfl
  | (k, v) :: history, slots, key => by
    rw [setAll, List.foldl_cons, ← setAll, find_setAll history, find_set, lastValue, Option.or_assoc]
    split <;> simp

theorem lastValue_append : ∀ (history later : List (κ × β)) (key : κ),
    lastValue (history ++ later) key = (lastValue later key).or (lastValue history key)
  | [], later, key => by simp [lastValue]
  | (k, v) :: history, later, key => by
    rw [List.cons_append, lastValue, lastValue_append history, lastValue, Option.or_assoc]

theorem lastValue_eq_none_iff : ∀ (history : List (κ × β)) (key : κ),
    lastValue history key = none ↔ key ∉ keys history
  | [], key => by simp [lastValue, keys]
  | (k, v) :: history, key => by
    rw [lastValue, Option.or_eq_none_iff, lastValue_eq_none_iff history]
    by_cases hk : k = key
    · simp [keys, hk]
    · simp [keys, hk, Ne.symm hk]

omit [DecidableEq κ] in
theorem keys_related {R : β → γ → Prop} {l : List (κ × β)} {l' : List (κ × γ)}
    (h : List.Forall₂ (fun x y => x.1 = y.1 ∧ R x.2 y.2) l l') : keys l = keys l' := by
  induction h with
  | nil => rfl
  | cons hxy _ ih => rw [keys, keys, List.map_cons, List.map_cons, hxy.1, ← keys, ih, ← keys]

/-- Two histories with the same keys and related values have related last values. -/
theorem lastValue_related {R : β → γ → Prop} {l : List (κ × β)} {l' : List (κ × γ)}
    (h : List.Forall₂ (fun x y => x.1 = y.1 ∧ R x.2 y.2) l l') {key : κ} {v : β}
    (hv : lastValue l key = some v) : ∃ w, lastValue l' key = some w ∧ R v w := by
  induction h with
  | nil => simp [lastValue] at hv
  | @cons x y l l' hxy hall ih =>
    obtain ⟨k, x⟩ := x
    obtain ⟨k', y⟩ := y
    obtain ⟨rfl, hR⟩ := hxy
    rw [lastValue] at hv ⊢
    rcases Option.or_eq_some_iff.1 hv with hl | ⟨hn, hx⟩
    · obtain ⟨w, hw, hR'⟩ := ih hl
      exact ⟨w, by simp [hw], hR'⟩
    · split at hx
      · next hk =>
        cases hx
        subst hk
        have hn' : lastValue l' k = none := by
          rwa [lastValue_eq_none_iff, ← keys_related hall, ← lastValue_eq_none_iff]
        exact ⟨y, by simp [hn'], hR⟩
      · cases hx

end Find

/-! ## The slots in use -/

section Keys

theorem mem_keys_set : ∀ (slots : List (κ × β)) (key k : κ) (v : β),
    k ∈ keys (set slots key v) ↔ k = key ∨ k ∈ keys slots
  | [], key, k, v => by simp [keys, set]
  | (a, x) :: slots, key, k, v => by
    rw [set]
    split
    · next h =>
      subst h
      simp [keys]
    · have ih := mem_keys_set slots key k v
      simp only [keys, List.map_cons, List.mem_cons] at ih ⊢
      rw [ih]
      constructor
      · rintro (h | h | h) <;> simp [h]
      · rintro (h | h | h) <;> simp [h]

theorem nodup_set {slots : List (κ × β)} {key : κ} {v : β} (h : (keys slots).Nodup) :
    (keys (set slots key v)).Nodup := by
  induction slots with
  | nil => simp [keys, set]
  | cons a slots ih =>
    obtain ⟨k, x⟩ := a
    rw [keys, List.map_cons, List.nodup_cons] at h
    rw [set]
    split
    · rw [keys, List.map_cons, List.nodup_cons]
      exact h
    · next hk =>
      rw [keys, List.map_cons, List.nodup_cons]
      refine ⟨fun hm => ?_, ih h.2⟩
      rcases (mem_keys_set slots key k v).1 hm with he | he
      · exact hk he
      · exact h.1 he

theorem length_set : ∀ (slots : List (κ × β)) (key : κ) (v : β), (set slots key v).length =
    if key ∈ keys slots then slots.length else slots.length + 1
  | [], key, v => by simp [set, keys]
  | (k, x) :: slots, key, v => by
    rw [set]
    by_cases hk : k = key
    · rw [if_pos hk, if_pos (by simp [keys, hk])]
      rfl
    · have ih := length_set slots key v
      have hmem : key ∈ keys ((k, x) :: slots) ↔ key ∈ keys slots := by
        simp [keys, Ne.symm hk]
      rw [if_neg hk, List.length_cons, ih]
      by_cases hm : key ∈ keys slots
      · rw [if_pos hm, if_pos (hmem.2 hm), List.length_cons]
      · rw [if_neg hm, if_neg (mt hmem.1 hm), List.length_cons]

theorem length_le_setAll (history : List (κ × β)) : ∀ slots : List (κ × β),
    slots.length ≤ (setAll slots history).length := by
  induction history with
  | nil => exact fun _ => Nat.le_refl _
  | cons x history ih =>
    intro slots
    have h1 := ih (set slots x.1 x.2)
    rw [setAll] at h1 ⊢
    rw [List.foldl_cons]
    have h2 := length_set slots x.1 x.2
    split at h2 <;> omega

theorem mem_keys_setAll {k : κ} (history : List (κ × β)) : ∀ slots : List (κ × β),
    k ∈ keys (setAll slots history) ↔ k ∈ keys history ∨ k ∈ keys slots := by
  induction history with
  | nil => simp [setAll, keys]
  | cons x history ih =>
    intro slots
    have hcons : k ∈ keys (x :: history) ↔ k = x.1 ∨ k ∈ keys history := by simp [keys]
    rw [setAll, List.foldl_cons, ← setAll, ih, mem_keys_set, hcons]
    constructor
    · rintro (h | h | h) <;> simp [h]
    · rintro ((h | h) | h) <;> simp [h]

theorem nodup_setAll (history : List (κ × β)) : ∀ slots : List (κ × β), (keys slots).Nodup →
    (keys (setAll slots history)).Nodup := by
  induction history with
  | nil => exact fun _ h => h
  | cons x history ih => exact fun slots h => ih _ (nodup_set h)

/-- A table that ends within its capacity had room for every key on the way. -/
theorem room_of_setAll {slots history : List (κ × β)} {key : κ} {v : β} {capacity : Nat}
    (h : (setAll slots ((key, v) :: history)).length ≤ capacity) :
    key ∈ keys slots ∨ slots.length < capacity := by
  have h1 := length_le_setAll history (set slots key v)
  rw [setAll, List.foldl_cons, ← setAll] at h
  dsimp only at h
  by_cases hn : key ∈ keys slots
  · exact .inl hn
  · rw [length_set, if_neg hn] at h1
    exact .inr (by omega)

end Keys

end Slots
