/-
A text terminal with `rows` rows and `cols` columns of cells. A newline on the bottom row scrolls at
once; a character in the last column of the bottom row leaves the cursor below it, and only what is
put there next scrolls.
-/
import Mathlib.Data.List.Induction
import Mathlib.Tactic.Common

namespace Terminal

structure Term (α : Type) where
  cell : Nat → Nat → α
  row : Nat
  col : Nat

inductive Input (α : Type) where
  | newline
  | put (a : α)

variable {α : Type} (rows cols : Nat) (blank : α)

/-- All rows move up by one, the bottom row is blank, and the cursor is at its start. -/
def scroll (t : Term α) : Term α where
  cell r c := if r + 1 < rows then t.cell (r + 1) c else blank
  row := rows - 1
  col := 0

/-- Scrolls if the cursor is below the bottom row. -/
def settle (t : Term α) : Term α := if t.row < rows then t else scroll rows blank t

def newline (t : Term α) : Term α :=
  let t := settle rows blank t
  settle rows blank { t with row := t.row + 1, col := 0 }

/-- The cursor one cell further, in the next row after the last column. -/
def advance (t : Term α) : Term α :=
  if t.col + 1 < cols then { t with col := t.col + 1 } else { t with row := t.row + 1, col := 0 }

def put (a : α) (t : Term α) : Term α :=
  let t := settle rows blank t
  advance cols { t with cell := fun r c => if r = t.row ∧ c = t.col then a else t.cell r c }

def step (t : Term α) : Input α → Term α
  | .newline => newline rows blank t
  | .put a => put rows cols blank a t

def feed (t : Term α) (inputs : List (Input α)) : Term α := inputs.foldl (step rows cols blank) t

/-- The cursor is on the screen, or at the start of the row below it. -/
structure OnScreen (t : Term α) : Prop where
  row_le : t.row ≤ rows
  col_lt : t.col < cols
  below : t.row = rows → t.col = 0

/-- The rows written from the first one on: under the lines what was on the screen, and blanks behind. -/
def tape (init : Nat → Nat → α) (lines : List (List α)) (i c : Nat) : α :=
  ((lines[i]?).bind fun text => text[c]?).getD (if i < rows then init i c else blank)

/-- The first row of the tape that is still on the screen when the cursor is in row `n` of it. -/
def top (n : Nat) : Nat := n + 1 - rows

/-- The screen is the part of the tape around the cursor, which is behind the last line. -/
structure Window (init : Nat → Nat → α) (lines : List (List α)) (t : Term α) : Prop where
  cell : ∀ r < rows, ∀ c, t.cell r c = tape rows blank init lines (top rows lines.length + r) c
  row : t.row = lines.length - top rows lines.length
  col : t.col = 0

def lineInputs (text : List α) : List (Input α) := text.map .put ++ [.newline]

variable {rows cols blank} {t : Term α} {init : Nat → Nat → α} {lines : List (List α)} {text : List α}

theorem feed_append (inputs more : List (Input α)) : feed rows cols blank t (inputs ++ more) =
    feed rows cols blank (feed rows cols blank t inputs) more := List.foldl_append

theorem scroll_cell (r c : Nat) :
    (scroll rows blank t).cell r c = if r + 1 < rows then t.cell (r + 1) c else blank := rfl

theorem settle_row_lt (hr : 0 < rows) : (settle rows blank t).row < rows := by
  unfold settle
  split
  · next h => exact h
  · exact Nat.sub_lt hr Nat.one_pos

theorem settle_of_lt (h : t.row < rows) : settle rows blank t = t := if_pos h

theorem settle_settle (hr : 0 < rows) : settle rows blank (settle rows blank t) = settle rows blank t :=
  settle_of_lt (settle_row_lt hr)

/-- Every input scrolls first if that is due. -/
theorem step_settle (hr : 0 < rows) (i : Input α) :
    step rows cols blank (settle rows blank t) i = step rows cols blank t i := by
  cases i with
  | newline =>
    unfold step newline
    dsimp only
    rw [settle_settle hr]
  | put a =>
    unfold step put
    dsimp only
    rw [settle_settle hr]

theorem feed_settle (hr : 0 < rows) {inputs : List (Input α)} (h : inputs ≠ []) :
    feed rows cols blank (settle rows blank t) inputs = feed rows cols blank t inputs := by
  cases inputs with
  | nil => exact absurd rfl h
  | cons i inputs =>
    unfold feed
    rw [List.foldl_cons, List.foldl_cons, step_settle hr]

theorem OnScreen.settle (h : OnScreen rows cols t) : OnScreen rows cols (settle rows blank t) := by
  unfold Terminal.settle
  split
  · exact h
  · exact ⟨Nat.sub_le _ _, Nat.zero_lt_of_lt h.col_lt, fun _ => rfl⟩

theorem OnScreen.newline (hr : 0 < rows) (h : OnScreen rows cols t) :
    OnScreen rows cols (newline rows blank t) := by
  unfold Terminal.newline
  apply OnScreen.settle
  exact ⟨settle_row_lt hr, Nat.zero_lt_of_lt h.col_lt, fun _ => rfl⟩

theorem OnScreen.put (hr : 0 < rows) (h : OnScreen rows cols t) (a : α) :
    OnScreen rows cols (put rows cols blank a t) := by
  have hlt : (Terminal.settle rows blank t).row < rows := settle_row_lt hr
  have hs : OnScreen rows cols (Terminal.settle rows blank t) := h.settle
  unfold Terminal.put advance
  dsimp only
  split
  · next hc => exact ⟨hs.row_le, hc, fun he => absurd he (Nat.ne_of_lt hlt)⟩
  · exact ⟨hlt, Nat.zero_lt_of_lt h.col_lt, fun _ => rfl⟩

theorem OnScreen.step (hr : 0 < rows) (h : OnScreen rows cols t) (i : Input α) :
    OnScreen rows cols (step rows cols blank t i) := by
  cases i with
  | newline => exact h.newline hr
  | put a => exact h.put hr a

theorem OnScreen.feed (hr : 0 < rows) (h : OnScreen rows cols t) (inputs : List (Input α)) :
    OnScreen rows cols (feed rows cols blank t inputs) := by
  induction inputs generalizing t with
  | nil => exact h
  | cons i inputs ih => exact ih (h.step hr i)

/-! ## Whole lines -/

theorem feed_singleton (i : Input α) : feed rows cols blank t [i] = step rows cols blank t i := rfl

theorem newline_of_lt (h : t.row < rows) :
    newline rows blank t = settle rows blank { t with row := t.row + 1, col := 0 } := by
  unfold newline
  dsimp only
  rw [settle_of_lt h]

theorem put_of_lt (h : t.row < rows) (a : α) : put rows cols blank a t =
    advance cols { t with cell := fun r c => if r = t.row ∧ c = t.col then a else t.cell r c } := by
  unfold put
  dsimp only
  rw [settle_of_lt h]

/-- A text that ends before the last column stands in the row of the cursor. -/
theorem feed_text (hrow : t.row < rows) (hcol : t.col = 0) (text : List α) (h : text.length < cols) :
    feed rows cols blank t (text.map .put) = { t with
      cell := fun r c => if r = t.row then text[c]?.getD (t.cell r c) else t.cell r c
      col := text.length } := by
  induction text using List.reverseRecOn with
  | nil =>
    obtain ⟨cell, row, col⟩ := t
    subst hcol
    unfold feed
    simp
  | append_singleton text a ih =>
    rw [List.length_append, List.length_singleton] at h
    rw [List.map_append, feed_append, ih (by omega)]
    rw [List.map_singleton, feed_singleton, step, put_of_lt (by exact hrow)]
    unfold advance
    dsimp only
    rw [if_pos h, List.length_append, List.length_singleton]
    congr 1
    funext r c
    by_cases hr : r = t.row
    · by_cases hc : c = text.length
      · rw [if_pos ⟨hr, hc⟩, if_pos hr, hc]
        simp
      · rw [if_neg fun hrc => hc hrc.2, if_pos hr, if_pos hr]
        by_cases hlt : c < text.length
        · rw [List.getElem?_append_left hlt]
        · rw [List.getElem?_eq_none (by omega), List.getElem?_eq_none (by simp; omega)]
    · rw [if_neg fun hrc => hr hrc.1, if_neg hr, if_neg hr]

theorem tape_concat (i c : Nat) : tape rows blank init (lines ++ [text]) i c =
    if i = lines.length then text[c]?.getD (tape rows blank init lines i c)
    else tape rows blank init lines i c := by
  unfold tape
  by_cases h : i = lines.length
  · subst h
    simp
  · rw [if_neg h]
    by_cases hlt : i < lines.length
    · rw [List.getElem?_append_left hlt]
    · have hlen : (lines ++ [text]).length = lines.length + 1 := by simp
      rw [List.getElem?_eq_none (by omega), List.getElem?_eq_none (by omega)]

theorem Window.start (init : Nat → Nat → α) (hr : 0 < rows) : Window rows blank init [] ⟨init, 0, 0⟩ where
  cell r hlt c := by
    unfold tape top
    rw [List.length_nil, Nat.zero_add, Nat.sub_eq_zero_of_le hr, Nat.zero_add, if_pos hlt]
    rfl
  row := (Nat.zero_sub _).symm
  col := rfl

theorem Window.row_lt (h : Window rows blank init lines t) (hr : 0 < rows) : t.row < rows := by
  rw [h.row]
  unfold top
  omega

/-- One line more, and the part of the tape moves on when the screen is full. -/
theorem Window.line_feed (h : Window rows blank init lines t) (hr : 0 < rows) (hline : text.length < cols) :
    Window rows blank init (lines ++ [text]) (feed rows cols blank t (lineInputs text)) := by
  have hrow := h.row_lt hr
  unfold lineInputs
  rw [feed_append, feed_text hrow h.col text hline]
  rw [feed_singleton, step, newline_of_lt (by exact hrow)]
  dsimp only
  -- what stands in the rows before the cursor moves down
  have hcell : ∀ r < rows, ∀ c, (if r = t.row then text[c]?.getD (t.cell r c) else t.cell r c) =
      tape rows blank init (lines ++ [text]) (top rows lines.length + r) c := by
    intro r hlt c
    have hat : top rows lines.length + r = lines.length ↔ r = t.row := by
      rw [h.row]
      unfold top
      omega
    rw [tape_concat, h.cell r hlt c]
    exact if_congr hat.symm rfl rfl
  have hlen : (lines ++ [text]).length = lines.length + 1 := by simp
  unfold settle
  dsimp only
  by_cases hnext : t.row + 1 < rows
  · have htop : top rows (lines.length + 1) = top rows lines.length := by
      have := h.row
      unfold top at *
      omega
    rw [if_pos hnext]
    constructor
    case cell =>
      rw [hlen, htop]
      exact hcell
    case row =>
      have := h.row
      dsimp only
      unfold top at *
      rw [hlen]
      omega
    case col => rfl
  · have htop : top rows (lines.length + 1) = top rows lines.length + 1 := by
      have := h.row
      unfold top at *
      omega
    rw [if_neg hnext]
    constructor
    case cell =>
      intro r hlt c
      rw [scroll_cell, hlen, htop]
      by_cases hup : r + 1 < rows
      · rw [if_pos hup]
        dsimp only
        rw [hcell (r + 1) hup c]
        congr 1
        omega
      · -- the tape has not been written there
        have := h.row
        rw [if_neg hup]
        unfold tape top at *
        rw [List.getElem?_eq_none (by simp; omega), if_neg (by omega)]
        rfl
    case row =>
      have := h.row
      unfold scroll
      dsimp only
      rw [hlen]
      unfold top at *
      omega
    case col => rfl

theorem Window.lines_feed (h : Window rows blank init lines t) (hr : 0 < rows) : ∀ (more : List (List α)),
    (∀ text ∈ more, text.length < cols) →
    Window rows blank init (lines ++ more) (feed rows cols blank t (more.flatMap lineInputs)) := by
  intro more
  induction more generalizing lines t with
  | nil =>
    intro _
    rw [List.append_nil]
    exact h
  | cons text more ih =>
    intro hmore
    have hnext := h.line_feed hr (hmore text List.mem_cons_self)
    have hrest := ih hnext fun l hl => hmore l (List.mem_cons_of_mem _ hl)
    rw [List.append_assoc, List.singleton_append] at hrest
    rw [List.flatMap_cons, feed_append]
    exact hrest

end Terminal
