/-
Formats with directives: as long as every directive ends on the screen, a run of calls of `kprintf`
leaves the screen that the terminal has when it is given the newlines and cells of what they print. A
directive may scroll without printing anything, so the two are compared once a scroll that is due has
been made.
-/
import Sbunix.Console.Strings

namespace Sbunix.Console

open Terminal Transition

def Item.inputs : Item → List (Input Cell)
  | .newline => [.newline]
  | .text cells => cells.map fun ch => .put (ch, lightGrey)

/-- What a call prints, a call without its arguments nothing. -/
def Call.inputs (call : Call) : List (Input Cell) :=
  match items call.fmt call.args with
  | .ok printed => printed.flatMap Item.inputs
  | .error _ => []

/-- The screen is that of the terminal once both have made a scroll that is due. -/
def Renders (video : Video) (s : Screen) (t : Term Cell) : Prop :=
  Shows video (getCurrentAddress s).2 (settle rows blankCell t)

section Renders

variable {video : Video} {s : Screen} {t : Term Cell} {item : Item} {cells : List (BitVec 8)}

theorem rows_pos : 0 < rows := by decide

theorem Shows.renders (h : Shows video s t) : Renders video s t := h.settle.2

/-- A text a cell at a time. -/
theorem Shows.chars (h : Shows video s t) (ht : OnScreen rows columns t) (cells : List (BitVec 8)) :
    Shows video (emitChars cells s) (feed rows columns blankCell t (Item.text cells).inputs) := by
  induction cells generalizing s t with
  | nil => exact h
  | cons ch cells ih => exact ih (h.put ht) (ht.put rows_pos _)

theorem Renders.newline (h : Renders video s t) :
    Renders video (perform s .newline) (feed rows columns blankCell t Item.newline.inputs) := by
  have hshown := Shows.newline h
  rw [settled_stay (settled_row s)] at hshown
  have hsettled : feed rows columns blankCell (settle rows blankCell t) [.newline] =
      feed rows columns blankCell t [.newline] := feed_settle rows_pos (List.cons_ne_nil _ [])
  unfold Item.inputs
  rw [← hsettled]
  exact hshown.renders

/-- No cells: the scroll that is due is all. -/
theorem Renders.empty (h : Renders video s t) (hal : Aligned s) : Renders video (emit [] s) t := by
  have hok := hal.cursorOk
  unfold Renders
  rw [emit_settled, emit_nil ⟨hok.width, hok.even⟩ (settled_row s), settled_stay (settled_row s)]
  exact h

theorem Renders.text (h : Renders video s t) (ht : OnScreen rows columns t) (hal : Aligned s)
    (hne : cells ≠ []) (hfits : Fits s (.text cells)) :
    Renders video (emit cells s) (feed rows columns blankCell t (Item.text cells).inputs) := by
  have hchars : emit cells s = emitChars cells (getCurrentAddress s).2 := by
    rw [emit_settled]
    exact (emitChars_eq hne (settled_row s) ((fits_iff hal hne).1 hfits)).symm
  have hinputs : (Item.text cells).inputs ≠ [] := fun hnil => hne (List.map_eq_nil_iff.1 hnil)
  rw [hchars, ← feed_settle rows_pos hinputs]
  exact (Shows.chars h ht.settle cells).renders

theorem Renders.perform (h : Renders video s t) (ht : OnScreen rows columns t) (hal : Aligned s)
    (hfits : Fits s item) :
    Renders video (perform s item) (feed rows columns blankCell t item.inputs) := by
  cases item with
  | newline => exact h.newline
  | text cells =>
    by_cases hne : cells = []
    · subst hne
      exact h.empty hal
    · exact h.text ht hal hne hfits

theorem Renders.printed : ∀ (printed : List Item) {s : Screen} {t : Term Cell}, Renders video s t →
    OnScreen rows columns t → Aligned s → AllFit s printed →
    Renders video (printed.foldl Console.perform s)
      (feed rows columns blankCell t (printed.flatMap Item.inputs))
  | [], _, _, h, _, _, _ => h
  | item :: printed, s, t, h, ht, hal, hall => by
    rw [List.flatMap_cons, feed_append]
    exact Renders.printed printed (h.perform ht hal hall.1) (ht.feed rows_pos _) (hal.perform item) hall.2

theorem Renders.call {call : Call} {s' : Screen} (h : Renders video s t) (ht : OnScreen rows columns t)
    (hal : Aligned s) (hstep : Restrict KprintfStep CallFits s call s') :
    Renders video s' (feed rows columns blankCell t call.inputs) := by
  obtain ⟨printed, hi, rfl⟩ := kprintf_step hstep.1
  have hinputs : call.inputs = printed.flatMap Item.inputs := by
    unfold Call.inputs
    rw [hi]
  rw [hinputs]
  exact Renders.printed printed h ht hal (hstep.2 printed hi)

theorem rendered_run {calls : List Call} (h : Run (Restrict KprintfStep CallFits) (started video) calls s) :
    Renders video s (feed rows columns blankCell (startTerm video) (calls.flatMap Call.inputs)) ∧
      Aligned s := by
  refine h.invariant_steps (fun calls s => Renders video s
      (feed rows columns blankCell (startTerm video) (calls.flatMap Call.inputs)) ∧ Aligned s)
    ⟨(shows_start video).renders, Nat.zero_lt_succ _, rfl⟩ ?_
  rintro calls s call s' ⟨hr, hal⟩ hstep
  rw [List.flatMap_append, feed_append, List.flatMap_singleton]
  refine ⟨hr.call ((onScreen_start video).feed rows_pos _) hal hstep, ?_⟩
  obtain ⟨printed, -, rfl⟩ := kprintf_step hstep.1
  exact hal.printed printed

end Renders

/-- Any run of calls, with whatever directives, whose directives all end on the screen. -/
theorem calls_rendered {video : Video} {calls : List Call} {s : Screen}
    (h : Run (Restrict KprintfStep CallFits) (started video) calls s) :
    Renders video s (feed rows columns blankCell (startTerm video) (calls.flatMap Call.inputs)) :=
  (rendered_run h).1

/-! ## Whole lines -/

/-- The cells of an item, as a part of its line. -/
def greyCells (cells : List (BitVec 8)) : List Cell := cells.map fun ch => (ch, lightGrey)

/-- The cursor is at the start of a row of the screen. -/
def AtStart (s : Screen) : Prop := s.currentWidth = 0 ∧ s.currentHeight ≤ 23

/-- The call prints these cells and a newline. -/
def PrintsLine (call : Call) (line : List (BitVec 8)) : Prop :=
  ∃ texts : List (List (BitVec 8)),
    items call.fmt call.args = .ok (texts.map Item.text ++ [.newline]) ∧ texts.flatten = line

/-- The screen shows the last of the lines, and of what was on it before what they have left. -/
structure ShowsLines (video : Video) (lines : List (List (BitVec 8))) (s : Screen) : Prop where
  cell : ∀ r < rows, ∀ c < columns, cellAt s.video r c =
    tape rows blankCell (cellAt video) (lines.map greyCells) (top rows lines.length + r) c
  height : s.currentHeight = lines.length - top rows lines.length
  width : s.currentWidth = 0
  below : ∀ k, screenBytes ≤ k → s.video k = video k

section Lines

variable {video : Video} {s : Screen} {fmt line : List (BitVec 8)} {args args' : List Arg}
  {letter : BitVec 8} {cells : List (BitVec 8)} {call : Call}

/-! ### Formats of lines -/

theorem printsLine_end (args : List Arg) : PrintsLine ⟨[newLineChar, 0], args⟩ [] := ⟨[], rfl, rfl⟩

theorem PrintsLine.char (h : PrintsLine ⟨fmt, args⟩ line) (ch : BitVec 8)
    (hch : ch ≠ 0 ∧ ch ≠ percent ∧ ch ≠ newLineChar) : PrintsLine ⟨ch :: fmt, args⟩ (ch :: line) := by
  obtain ⟨texts, hi, rfl⟩ := h
  refine ⟨[ch] :: texts, ?_, rfl⟩
  dsimp only at hi ⊢
  unfold items
  rw [if_neg hch.1, if_neg hch.2.1, hi]
  unfold charItem
  rw [if_neg hch.2.2]
  rfl

theorem PrintsLine.chars (h : PrintsLine ⟨fmt, args⟩ line) : ∀ (text : List (BitVec 8)),
    (∀ ch ∈ text, ch ≠ 0 ∧ ch ≠ percent ∧ ch ≠ newLineChar) →
    PrintsLine ⟨text ++ fmt, args⟩ (text ++ line)
  | [], _ => h
  | ch :: text, htext =>
    (h.chars text fun c hc => htext c (List.mem_cons_of_mem ch hc)).char ch (htext ch List.mem_cons_self)

theorem PrintsLine.directive (h : PrintsLine ⟨fmt, args'⟩ line)
    (hd : directiveItems letter args = .ok (args', [.text cells])) :
    PrintsLine ⟨percent :: letter :: fmt, args⟩ (cells ++ line) := by
  obtain ⟨texts, hi, rfl⟩ := h
  refine ⟨cells :: texts, ?_, rfl⟩
  dsimp only at hi ⊢
  unfold items
  rw [if_neg (by decide), if_pos rfl]
  dsimp only
  rw [hd, Fallible.ok_bind]
  dsimp only
  rw [hi]
  rfl

theorem inputs_texts (texts : List (List (BitVec 8))) :
    (texts.map Item.text).flatMap Item.inputs = (greyCells texts.flatten).map .put := by
  induction texts with
  | nil => rfl
  | cons cells texts ih =>
    have hcells : (Item.text cells).inputs = (greyCells cells).map .put := by
      unfold greyCells
      rw [List.map_map]
      rfl
    have hgrey : greyCells (cells ++ texts.flatten) = greyCells cells ++ greyCells texts.flatten :=
      List.map_append
    rw [List.map_cons, List.flatMap_cons, ih, hcells, List.flatten_cons, hgrey, List.map_append]

theorem PrintsLine.inputs (h : PrintsLine call line) : call.inputs = lineInputs (greyCells line) := by
  obtain ⟨texts, hi, rfl⟩ := h
  unfold Call.inputs lineInputs
  rw [hi]
  dsimp only
  rw [List.flatMap_append, inputs_texts]
  rfl

/-! ### Lines shorter than a row -/

/-- A text that begins in a row in which there is room for it fits, and what is left of the row is
room for the next one. -/
theorem fits_room {room : Nat} (h : CursorOk s) (hroom : s.currentWidth + 2 * room ≤ maxScreenWidth)
    (hcells : cells.length ≤ room) : Fits s (.text cells) ∧
      (emit cells s).currentWidth + 2 * (room - cells.length) ≤ maxScreenWidth := by
  have hw : maxScreenWidth = 160 := rfl
  have hb : screenBytes = 24 * 160 := rfl
  have hoffset := h.offset
  have hwidth := h.width
  have hstart : itemStart s ≤ 23 * 160 + s.currentWidth ∧ itemStart s % 160 ≤ s.currentWidth := by
    unfold itemStart
    rw [hw] at hwidth ⊢
    split <;> omega
  constructor
  · unfold Fits cellsLeft
    dsimp only
    omega
  · have hemit : (emit cells s).currentWidth = (itemStart s + 2 * cells.length) % 160 := by
      rw [emit_settled, emit_eq (settled_row s), ← itemStart_eq]
      rfl
    rw [hemit]
    omega

theorem texts_fit : ∀ (texts : List (List (BitVec 8))) {s : Screen} {room : Nat}, CursorOk s →
    s.currentWidth + 2 * room ≤ maxScreenWidth → texts.flatten.length ≤ room →
    AllFit s (texts.map Item.text ++ [.newline])
  | [], _, _, _, _, _ => ⟨trivial, trivial⟩
  | cells :: texts, s, room, h, hroom, hlen => by
    rw [List.flatten_cons, List.length_append] at hlen
    obtain ⟨hfits, hnext⟩ := fits_room h hroom (show cells.length ≤ room by omega)
    refine ⟨hfits, ?_⟩
    exact texts_fit texts ((emit_spec h cells).2 hfits) hnext (by omega)

theorem newline_atStart (s : Screen) : AtStart (perform s .newline) := by
  refine ⟨?_, settled_row _⟩
  unfold perform handleNewLine
  generalize (getCurrentAddress s).2 = u
  by_cases h : 23 < u.currentHeight + 1
  · obtain ⟨t, he, ht⟩ := getCurrentAddress_scroll
      (s := { u with currentHeight := u.currentHeight + 1, currentWidth := 0 }) h
    rw [he]
    exact ht.width
  · rw [getCurrentAddress_stay (by exact Nat.not_lt.1 h)]

/-- A line that is no longer than a row, printed from the start of one. -/
theorem PrintsLine.step (h : PrintsLine call line) (hlen : line.length ≤ columns) (hok : CursorOk s)
    (hs : AtStart s) : ∃ t, Restrict KprintfStep CallFits s call t ∧ AtStart t := by
  obtain ⟨texts, hi, rfl⟩ := h
  have hroom : s.currentWidth + 2 * columns ≤ maxScreenWidth := by
    rw [hs.1]
    decide
  refine ⟨_, ⟨kprintfStep_items s hi, ?_⟩, ?_⟩
  · intro printed hprinted
    cases hi.symm.trans hprinted
    exact texts_fit texts hok hroom hlen
  · rw [List.foldl_append]
    exact newline_atStart _

theorem lines_run {calls : List Call} {lines : List (List (BitVec 8))}
    (h : List.Forall₂ PrintsLine calls lines) (hlen : ∀ line ∈ lines, line.length ≤ columns)
    (hok : CursorOk s ∧ s.StoresInside) (hs : AtStart s) :
    ∃ t, Run (Restrict KprintfStep CallFits) s calls t ∧ AtStart t := by
  induction h generalizing s with
  | nil => exact ⟨s, .nil, hs⟩
  | @cons call line calls lines hline _ ih =>
    obtain ⟨t, hstep, ht⟩ := hline.step (hlen line List.mem_cons_self) hok.1 hs
    obtain ⟨hiff, hnext⟩ := kprintfStep_fits hok hstep.1
    obtain ⟨u, hrun, hu⟩ := ih (fun l hl => hlen l (List.mem_cons_of_mem _ hl)) (hnext (hiff.2 hstep.2)) ht
    exact ⟨u, (Run.nil.snoc hstep).trans hrun, hu⟩

theorem lines_inputs {calls : List Call} {lines : List (List (BitVec 8))}
    (h : List.Forall₂ PrintsLine calls lines) :
    calls.flatMap Call.inputs = (lines.map greyCells).flatMap lineInputs := by
  induction h with
  | nil => rfl
  | cons hline _ ih => rw [List.flatMap_cons, List.map_cons, List.flatMap_cons, hline.inputs, ih]

end Lines

/-- `kprintf("%d\n", argVal)` -/
def numberCall (argVal : BitVec 32) : Call := ⟨[percent, 100, newLineChar, 0], [.int argVal]⟩

theorem printsLine_number (argVal : BitVec 32) : PrintsLine (numberCall argVal) (signedCells argVal) := by
  have hd : directiveItems 100 [.int argVal] = .ok ([], [.text (signedCells argVal)]) := rfl
  have h := (printsLine_end []).directive hd
  rw [List.append_nil] at h
  exact h

theorem number_rendered : ∃ s, Run (Restrict KprintfStep CallFits) (started fun _ => 0) [numberCall 0] s ∧
    Renders (fun _ => 0) s
      (feed rows columns blankCell (startTerm fun _ => 0) [.put (zeroHex, lightGrey), .newline]) := by
  have hlines : List.Forall₂ PrintsLine [numberCall 0] [signedCells 0] := .cons (printsLine_number 0) .nil
  obtain ⟨s, hrun, -⟩ := lines_run hlines (by decide) (started_ok fun _ => 0) ⟨rfl, Nat.zero_le 23⟩
  exact ⟨s, hrun, calls_rendered hrun⟩

/-- Lines shorter than a row, however many: they fit, and the screen shows the last of them. -/
theorem lines_shown (video : Video) {calls : List Call} {lines : List (List (BitVec 8))}
    (h : List.Forall₂ PrintsLine calls lines) (hlen : ∀ line ∈ lines, line.length < columns) :
    ∃ s, Run (Restrict KprintfStep CallFits) (started video) calls s ∧ ShowsLines video lines s := by
  obtain ⟨s, hrun, hwidth, hheight⟩ :=
    lines_run h (fun line hl => Nat.le_of_lt (hlen line hl)) (started_ok video) ⟨rfl, Nat.zero_le 23⟩
  obtain ⟨hrendered, -⟩ := rendered_run hrun
  have hgrey : ∀ line ∈ lines.map greyCells, line.length < columns := by
    intro line hl
    obtain ⟨cells, hcells, rfl⟩ := List.mem_map.1 hl
    unfold greyCells
    rw [List.length_map]
    exact hlen cells hcells
  have hstart : Window rows blankCell (cellAt video) [] (startTerm video) := .start _ rows_pos
  have hwindow := hstart.lines_feed rows_pos (lines.map greyCells) hgrey
  rw [← lines_inputs h] at hwindow
  unfold Renders at hrendered
  rw [settled_stay hheight, settle_of_lt (hwindow.row_lt rows_pos)] at hrendered
  refine ⟨s, hrun, ?_⟩
  rw [List.nil_append] at hwindow
  constructor
  case cell =>
    intro r hr c hc
    rw [hrendered.cells r hr c hc, hwindow.cell r hr c, List.length_map]
  case height => rw [hrendered.height, hwindow.row, List.length_map]
  case width => exact hwidth
  case below => exact hrendered.below

end Sbunix.Console
