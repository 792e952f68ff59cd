/-
Cells stored one after the other from the cursor on: what a directive of `kprintf` leaves on the screen,
where it leaves the cursor, and the text that is read back.
-/
import Mathlib.Data.Set.Basic
import Mathlib.Order.Interval.Set.Defs
import Sbunix.Console.Kprintf

namespace Sbunix.Console

open Fallible

/-- The cursor as an offset. -/
def Screen.cursor (s : Screen) : Nat := s.currentHeight * maxScreenWidth + s.currentWidth

/-- The cells of `text` and no others are stored from the cursor of `s` on, and the cursor of `t` stands
behind them. -/
structure Writes (s : Screen) (text : List (BitVec 8)) (t : Screen) : Prop where
  cells : ∀ i (_ : i < text.length), t.video (s.cursor + 2 * i) = text[i] ∧
    t.video (s.cursor + 2 * i + 1) = lightGrey
  others : ∀ k ∉ Set.Ico s.cursor (s.cursor + 2 * text.length), t.video k = s.video k
  stored : ∀ k, k ∈ t.stored ↔ k ∈ Set.Ico s.cursor (s.cursor + 2 * text.length) ∨ k ∈ s.stored
  cursor : t.cursor = s.cursor + 2 * text.length

/-- The cursor is in a row of the screen in which `n` cells more have their place. -/
structure Room (s : Screen) (n : Nat) : Prop where
  row : s.currentHeight < maxScreenHeight
  cells : s.currentWidth + 2 * n ≤ maxScreenWidth

/-- The characters of `n` cells. -/
def charsAt (video : Video) (a n : Nat) : List (BitVec 8) := (List.range n).map fun i => video (a + 2 * i)

/-- The characters the cursor has moved over from `s` to `t`. -/
def textBetween (s t : Screen) : List (BitVec 8) := charsAt t.video s.cursor ((t.cursor - s.cursor) / 2)

section Cells

variable {cells text : List (BitVec 8)} {s t : Screen} {a k n : Nat}

theorem putCell_video (ch : BitVec 8) (a : Nat) (s : Screen) (k : Nat) :
    (putCell ch a s).2.video k = if k = a + 1 then lightGrey else if k = a then ch else s.video k := by
  unfold putCell Screen.store
  dsimp only
  rw [Video.store_apply, Video.store_apply]

theorem putCells_cons (ch : BitVec 8) (cells : List (BitVec 8)) (a : Nat) (s : Screen) :
    putCells (ch :: cells) a s = putCells cells (a + 2) (putCell ch a s).2 := rfl

theorem putCells_fst : ∀ (cells : List (BitVec 8)) (a : Nat) (s : Screen),
    (putCells cells a s).1 = a + 2 * cells.length
  | [], _, _ => rfl
  | ch :: cells, a, s => by
    rw [putCells_cons, putCells_fst cells, List.length_cons]
    omega

theorem putCells_append : ∀ (cells cells' : List (BitVec 8)) (a : Nat) (s : Screen),
    putCells (cells ++ cells') a s = putCells cells' (putCells cells a s).1 (putCells cells a s).2
  | [], _, _, _ => rfl
  | _ :: cells, cells', _, _ => putCells_append cells cells' _ _

theorem putCells_outside : ∀ (cells : List (BitVec 8)) {a : Nat} {s : Screen},
    k ∉ Set.Ico a (a + 2 * cells.length) → (putCells cells a s).2.video k = s.video k
  | [], _, _, _ => rfl
  | ch :: cells, a, s, hk => by
    rw [Set.mem_Ico, List.length_cons] at hk
    rw [putCells_cons, putCells_outside cells (by rw [Set.mem_Ico]; omega), putCell_video,
      if_neg (by omega), if_neg (by omega)]

theorem putCell_congr (ch : BitVec 8) (a : Nat) (h : s.video k = t.video k) :
    (putCell ch a s).2.video k = (putCell ch a t).2.video k := by
  rw [putCell_video, putCell_video, h]

/-- What is stored does not depend on what was there. -/
theorem putCells_congr : ∀ (cells : List (BitVec 8)) (a : Nat) {s t : Screen}, s.video k = t.video k →
    (putCells cells a s).2.video k = (putCells cells a t).2.video k
  | [], _, _, _, h => h
  | ch :: cells, a, _, _, h => putCells_congr cells (a + 2) (putCell_congr ch a h)

/-- The cells are stored where they belong. -/
theorem putCells_inside : ∀ (cells : List (BitVec 8)) {a : Nat} {s : Screen} (i : Nat) (_ : i < cells.length),
    (putCells cells a s).2.video (a + 2 * i) = cells[i] ∧
      (putCells cells a s).2.video (a + 2 * i + 1) = lightGrey
  | ch :: cells, a, s, 0, _ => by
    rw [putCells_cons, putCells_outside cells (by rw [Set.mem_Ico]; omega),
      putCells_outside cells (by rw [Set.mem_Ico]; omega), putCell_video, putCell_video, if_neg (by omega),
      if_pos (by omega), if_pos (by omega)]
    exact ⟨rfl, rfl⟩
  | ch :: cells, a, s, i + 1, hi => by
    have h := putCells_inside cells (a := a + 2) (s := (putCell ch a s).2) i (Nat.lt_of_succ_lt_succ hi)
    rw [putCells_cons, show a + 2 * (i + 1) = a + 2 + 2 * i by omega]
    exact h

theorem mem_stored_putCells : ∀ (cells : List (BitVec 8)) {a : Nat} {s : Screen},
    k ∈ (putCells cells a s).2.stored ↔ k ∈ Set.Ico a (a + 2 * cells.length) ∨ k ∈ s.stored
  | [], a, s => by
    rw [List.length_nil, Nat.mul_zero, Nat.add_zero, Set.mem_Ico]
    exact (or_iff_right (by omega)).symm
  | ch :: cells, a, s => by
    rw [putCells_cons, mem_stored_putCells cells, Set.mem_Ico, Set.mem_Ico, List.length_cons]
    have hcell : k ∈ (putCell ch a s).2.stored ↔ k = a + 1 ∨ k = a ∨ k ∈ s.stored := by
      unfold putCell Screen.store
      simp
    rw [hcell]
    constructor
    · rintro (h | h | h | h)
      · exact .inl (by omega)
      · exact .inl (by omega)
      · exact .inl (by omega)
      · exact .inr h
    · rintro (h | h)
      · by_cases h1 : a + 2 ≤ k
        · exact .inl (by omega)
        · exact .inr (by omega)
      · exact .inr (.inr (.inr h))

theorem cursor_update (a : Nat) (s : Screen) : (updateHeightWidth a s).cursor = a := by
  unfold updateHeightWidth Screen.cursor
  dsimp only
  rw [Nat.mul_comm]
  exact Nat.div_add_mod a maxScreenWidth

/-! ### The cursor on the screen -/

theorem settled_row (s : Screen) : (getCurrentAddress s).2.currentHeight ≤ 23 := by
  by_cases h : 23 < s.currentHeight
  · obtain ⟨t, he, ht⟩ := getCurrentAddress_scroll h
    rw [he]
    exact Nat.le_of_eq ht.height
  · rw [getCurrentAddress_stay (Nat.not_lt.1 h)]
    exact Nat.not_lt.1 h

theorem settled_stay (h : s.currentHeight ≤ 23) : (getCurrentAddress s).2 = s := by
  rw [getCurrentAddress_stay h]

/-- Printing scrolls first if it has to. -/
theorem emit_settled (text : List (BitVec 8)) (s : Screen) : emit text s = emit text (getCurrentAddress s).2 := by
  unfold emit
  rw [getCurrentAddress_stay (settled_row s)]
  rfl

theorem emit_eq (h : s.currentHeight ≤ 23) (text : List (BitVec 8)) :
    emit text s = updateHeightWidth (s.cursor + 2 * text.length) (putCells text s.cursor s).2 := by
  unfold emit
  rw [getCurrentAddress_stay h]
  dsimp only
  rw [putCells_fst]
  rfl

theorem emit_writes (h : s.currentHeight ≤ 23) (text : List (BitVec 8)) : Writes s text (emit text s) := by
  rw [emit_eq h]
  constructor
  case cells => exact putCells_inside text
  case others => exact fun k hk => putCells_outside text hk
  case stored => exact fun k => mem_stored_putCells text
  case cursor => exact cursor_update _ _

/-- What is read from `a` on, if that is how many cells there are. -/
theorem charsAt_eq {video : Video} (hn : n = text.length)
    (h : ∀ i (_ : i < text.length), video (a + 2 * i) = text[i]) : charsAt video a n = text := by
  unfold charsAt
  apply List.ext_getElem
  · rw [List.length_map, List.length_range, hn]
  · intro i h1 h2
    rw [List.getElem_map, List.getElem_range]
    exact h i h2

theorem Writes.textBetween (h : Writes s text t) : textBetween s t = text := by
  unfold Console.textBetween
  rw [h.cursor]
  exact charsAt_eq (by omega) fun i hi => (h.cells i hi).1

/-- What has been written is told by the screens. -/
theorem Writes.unique {text' : List (BitVec 8)} (h : Writes s text t) (h' : Writes s text' t) : text = text' :=
  h.textBetween.symm.trans h'.textBetween

/-- A call with one directive. -/
theorem kprintf_directive {letter : BitVec 8} {arg : Arg} {text : List (BitVec 8)}
    (h : directiveItems letter [arg] = .ok ([], [.text text])) (s : Screen) :
    kprintf ⟨[percent, letter, 0], [arg]⟩ s = .ok (emit text s) := by
  have hitems : items [percent, letter, 0] [arg] = .ok [.text text] := by
    unfold items
    rw [if_neg (by decide), if_pos rfl]
    dsimp only
    rw [h]
    rfl
  rw [kprintf_eq, hitems]
  rfl

end Cells

end Sbunix.Console
