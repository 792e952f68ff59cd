/-
Formats without `'%'`: `kprintf` keeps video memory and its cursor, which it holds as a height and a
width in bytes and computes anew from an address after each character, as a terminal of 24 rows and
80 columns would.
-/
import Sbunix.Console.Kprintf
import Sbunix.Lib.Terminal

namespace Sbunix.Console

open Terminal Fallible

def rows : Nat := 24

def columns : Nat := 80

/-- A character and its attribute. -/
abbrev Cell := BitVec 8 × BitVec 8

def blankCell : Cell := (0, lightGrey)

def cellAt (video : Video) (r c : Nat) : Cell :=
  (video (r * maxScreenWidth + 2 * c), video (r * maxScreenWidth + 2 * c + 1))

/-- The screen is that of the terminal, and below its rows nothing has changed. -/
structure Shows (video : Video) (s : Screen) (t : Term Cell) : Prop where
  cells : ∀ r < rows, ∀ c < columns, cellAt s.video r c = t.cell r c
  height : s.currentHeight = t.row
  width : s.currentWidth = 2 * t.col
  below : ∀ k, screenBytes ≤ k → s.video k = video k

/-- Before the first call: the cursor is in the corner of whatever is on the screen. -/
def started (video : Video) : Screen := ⟨video, 0, 0, []⟩

def startTerm (video : Video) : Term Cell := ⟨cellAt video, 0, 0⟩

def charInput (ch : BitVec 8) : Input Cell := if ch = newLineChar then .newline else .put (ch, lightGrey)

/-- The bytes of a call's format before its NUL. -/
def Call.text (call : Call) : List (BitVec 8) := call.fmt.takeWhile (· ≠ 0)

/-- The format is a string without `'%'`. -/
def PlainText (call : Call) : Prop := 0 ∈ call.fmt ∧ percent ∉ call.text

section Shows

variable {video : Video} {s : Screen} {t : Term Cell} {ch : BitVec 8}

theorem shows_start (video : Video) : Shows video (started video) (startTerm video) where
  cells _ _ _ _ := rfl
  height := rfl
  width := rfl
  below _ _ := rfl

theorem onScreen_start (video : Video) : OnScreen rows columns (startTerm video) where
  row_le := Nat.zero_le _
  col_lt := Nat.zero_lt_succ _
  below _ := rfl

/-- Scrolling is what settles the terminal. -/
theorem Shows.settle (h : Shows video s t) :
    (getCurrentAddress s).1 = (settle rows blankCell t).row * maxScreenWidth +
        2 * (settle rows blankCell t).col ∧
      Shows video (getCurrentAddress s).2 (settle rows blankCell t) := by
  have hr : rows = 24 := rfl
  unfold Terminal.settle
  by_cases hlt : t.row < rows
  · rw [if_pos hlt, getCurrentAddress_stay (by rw [h.height]; omega), h.height, h.width]
    exact ⟨rfl, h⟩
  · obtain ⟨s', he, hs⟩ := getCurrentAddress_scroll (s := s) (by rw [h.height]; omega)
    rw [if_neg hlt, he]
    refine ⟨rfl, ?_⟩
    have hw : maxScreenWidth = 160 := rfl
    have hb : screenBytes = 24 * maxScreenWidth := rfl
    have hcol : columns = 80 := rfl
    constructor
    case cells =>
      intro r hrow c hc
      unfold cellAt
      rw [hs.video, hs.video]
      have hbyte : r * maxScreenWidth + 2 * c + 1 < (r + 1) * maxScreenWidth := by
        rw [Nat.succ_mul r]
        omega
      by_cases hup : r + 1 < rows
      · -- the row below moves up
        have hlow := Nat.mul_le_mul_right maxScreenWidth (show r + 1 ≤ 23 by omega)
        have hcell := h.cells (r + 1) hup c hc
        unfold cellAt at hcell
        rw [Nat.succ_mul r] at hcell
        rw [if_pos (by omega), if_pos (by omega), scroll_cell, if_pos hup, ← hcell]
        congr 2 <;> omega
      · obtain rfl : r = 23 := by omega
        rw [if_neg (by omega), if_pos (by omega), if_neg (by omega), if_pos (by omega),
          scroll_cell, if_neg hup]
        unfold blankByte blankCell
        rw [if_pos (by omega), if_neg (by omega)]
    case height => exact hs.height
    case width => exact hs.width
    case below =>
      intro k hk
      rw [hs.video, if_neg (by omega), if_neg (by omega)]
      exact h.below k hk

theorem Shows.newline (h : Shows video s t) :
    Shows video (handleNewLine (getCurrentAddress s).2) (newline rows blankCell t) := by
  obtain ⟨-, hs⟩ := h.settle
  unfold handleNewLine Terminal.newline
  dsimp only
  refine Shows.settle ?_ |>.2
  constructor
  case cells => exact hs.cells
  case height => exact congrArg (· + 1) hs.height
  case width => rfl
  case below => exact hs.below

/-- The address behind a cell is the next cell's, or that of the next row. -/
theorem updateHeightWidth_cell (s : Screen) (row : Nat) {col : Nat} (hc : col < columns) :
    updateHeightWidth (row * maxScreenWidth + 2 * col + 2) s =
      if col + 1 < columns then { s with currentHeight := row, currentWidth := 2 * (col + 1) }
      else { s with currentHeight := row + 1, currentWidth := 0 } := by
  unfold columns at *
  unfold updateHeightWidth maxScreenWidth
  split
  · rw [show (row * 160 + 2 * col + 2) / 160 = row by omega,
      show (row * 160 + 2 * col + 2) % 160 = 2 * (col + 1) by omega]
  · rw [show (row * 160 + 2 * col + 2) / 160 = row + 1 by omega,
      show (row * 160 + 2 * col + 2) % 160 = 0 by omega]

/-- A cell is stored, no other one changed. -/
theorem cellAt_putCell (s : Screen) (ch : BitVec 8) (r row : Nat) {c col : Nat} (hc : c < columns)
    (hcol : col < columns) :
    cellAt (putCell ch (row * maxScreenWidth + 2 * col) s).2.video r c =
      if r = row ∧ c = col then (ch, lightGrey) else cellAt s.video r c := by
  unfold columns at *
  unfold putCell cellAt
  dsimp only
  rw [video_store, video_store, video_store, video_store]
  unfold maxScreenWidth
  by_cases h : r = row ∧ c = col
  · rw [if_pos h]
    obtain ⟨rfl, rfl⟩ := h
    rw [if_neg (by omega), if_pos rfl, if_pos rfl]
  · rw [if_neg h, if_neg (by omega), if_neg (by omega), if_neg (by omega), if_neg (by omega)]

theorem Shows.put (h : Shows video s t) (ht : OnScreen rows columns t) :
    Shows video (emit [ch] s) (put rows columns blankCell (ch, lightGrey) t) := by
  obtain ⟨hcur, hs⟩ := h.settle
  have hon : OnScreen rows columns (Terminal.settle rows blankCell t) := ht.settle
  have hrow : (Terminal.settle rows blankCell t).row < rows := settle_row_lt (by decide)
  unfold emit Terminal.put
  generalize getCurrentAddress s = current at hcur hs ⊢
  generalize Terminal.settle rows blankCell t = t' at hcur hs hon hrow ⊢
  obtain ⟨currAddr, s'⟩ := current
  dsimp only at hcur hs ⊢
  subst hcur
  have hcells := fun r (_ : r < rows) c (hc : c < columns) =>
    cellAt_putCell s' ch r t'.row hc hon.col_lt
  have hbelow : ∀ k, screenBytes ≤ k →
      (putCell ch (t'.row * maxScreenWidth + 2 * t'.col) s').2.video k = video k := by
    intro k hk
    have hb : screenBytes = 24 * 160 := rfl
    have hcol := hon.col_lt
    unfold columns at hcol
    unfold rows at hrow
    unfold putCell maxScreenWidth
    rw [video_store, video_store, if_neg (by omega), if_neg (by omega)]
    exact hs.below k hk
  rw [putCells]
  unfold putCell at hcells hbelow ⊢
  dsimp only at hcells hbelow ⊢
  rw [putCells, updateHeightWidth_cell _ _ hon.col_lt]
  unfold advance
  have hshown : ∀ r < rows, ∀ c < columns, cellAt _ r c = if r = t'.row ∧ c = t'.col then (ch, lightGrey)
      else t'.cell r c := fun r hr c hc => by rw [hcells r hr c hc, hs.cells r hr c hc]
  split
  · exact ⟨hshown, rfl, rfl, hbelow⟩
  · exact ⟨hshown, rfl, rfl, hbelow⟩

theorem Shows.item (h : Shows video s t) (ht : OnScreen rows columns t) (ch : BitVec 8) :
    Shows video (perform s (charItem ch)) (step rows columns blankCell t (charInput ch)) := by
  unfold charItem charInput
  split
  · exact h.newline
  · exact h.put ht

theorem Shows.text (h : Shows video s t) (ht : OnScreen rows columns t) (text : List (BitVec 8)) :
    Shows video ((text.map charItem).foldl perform s)
        (feed rows columns blankCell t (text.map charInput)) ∧
      OnScreen rows columns (feed rows columns blankCell t (text.map charInput)) := by
  induction text generalizing s t with
  | nil => exact ⟨h, ht⟩
  | cons ch text ih => exact ih (h.item ht ch) (ht.step (by decide) (charInput ch))

theorem items_text (args : List Arg) : ∀ {fmt : List (BitVec 8)}, 0 ∈ fmt →
    percent ∉ fmt.takeWhile (· ≠ 0) → items fmt args = .ok ((fmt.takeWhile (· ≠ 0)).map charItem)
  | [], h0, _ => absurd h0 List.not_mem_nil
  | ch :: fmt, h0, hp => by
    unfold items
    by_cases hz : ch = 0
    · rw [if_pos hz, List.takeWhile_cons_of_neg (by simp [hz])]
      rfl
    · rw [List.takeWhile_cons_of_pos (by simpa using hz), List.mem_cons, not_or] at hp
      have h0' : 0 ∈ fmt := (List.mem_cons.1 h0).resolve_left (Ne.symm hz)
      rw [if_neg hz, if_neg (Ne.symm hp.1), items_text args h0' hp.2,
        List.takeWhile_cons_of_pos (by simpa using hz)]
      rfl

theorem PlainText.kprintf_eq {call : Call} (h : PlainText call) (s : Screen) :
    kprintf call s = .ok ((call.text.map charItem).foldl perform s) := by
  rw [Console.kprintf_eq, items_text call.args h.1 h.2]
  rfl

theorem Shows.calls (h : Shows video s t) (ht : OnScreen rows columns t) : ∀ (calls : List Call),
    (∀ call ∈ calls, PlainText call) → ∃ s', kprintfs s calls = .ok s' ∧
      Shows video s' (feed rows columns blankCell t (calls.flatMap fun call => call.text.map charInput)) := by
  intro calls
  induction calls generalizing s t with
  | nil => exact fun _ => ⟨s, rfl, h⟩
  | cons call calls ih =>
    intro hplain
    obtain ⟨hs, hon⟩ := h.text ht call.text
    obtain ⟨s', he, hs'⟩ := ih hs hon fun c hc => hplain c (List.mem_cons_of_mem _ hc)
    refine ⟨s', ?_, ?_⟩
    · rw [kprintfs, List.foldlM_cons, (hplain call List.mem_cons_self).kprintf_eq]
      exact he
    · rw [List.flatMap_cons, feed_append]
      exact hs'

end Shows

/-- Any calls with formats without `'%'` leave the screen, the cursor and what is below as the
terminal has them. -/
theorem text_shown (video : Video) (calls : List Call) (h : ∀ call ∈ calls, PlainText call) :
    ∃ s, kprintfs (started video) calls = .ok s ∧ Shows video s
      (feed rows columns blankCell (startTerm video) (calls.flatMap fun call => call.text.map charInput)) :=
  (shows_start video).calls (onScreen_start video) calls h

/-- `kprintf("a\n")` -/
def lineCall : Call := ⟨[97, 10, 0], []⟩

theorem plainText_lineCall : PlainText lineCall := ⟨by decide, by decide⟩

theorem text_shown_line : ∃ s, kprintfs (started fun _ => 0) [lineCall, lineCall] = .ok s ∧
    Shows (fun _ => 0) s (feed rows columns blankCell (startTerm fun _ => 0)
      [.put (97, lightGrey), .newline, .put (97, lightGrey), .newline]) := by
  have hplain : ∀ call ∈ [lineCall, lineCall], PlainText call := by
    intro call hc
    rcases List.mem_cons.1 hc with rfl | hc
    · exact plainText_lineCall
    · rw [List.mem_singleton.1 hc]
      exact plainText_lineCall
  exact text_shown (fun _ => 0) [lineCall, lineCall] hplain

end Sbunix.Console
