/-
Where `kprintf` stores: in the rows 0 to 23, as long as what a directive prints ends there. The cursor
is only looked at before a directive, so a long string, or a number, that begins near the end of row 23
runs over the status row and on.
-/
import Sbunix.Console.Text
import Sbunix.Lib.Run

namespace Sbunix.Console

open Fallible Transition

/-- Where the next item begins. -/
def itemStart (s : Screen) : Nat :=
  if s.currentHeight > 23 then 23 * maxScreenWidth else s.currentHeight * maxScreenWidth + s.currentWidth

/-- The cells from there to the end of row 23. -/
def cellsLeft (s : Screen) : Nat := (screenBytes - itemStart s) / 2

def Fits (s : Screen) : Item → Prop
  | .newline => True
  | .text cells => cells.length ≤ cellsLeft s

/-- Each item fits where it begins. -/
def AllFit : Screen → List Item → Prop
  | _, [] => True
  | s, item :: printed => Fits s item ∧ AllFit (perform s item) printed

/-- A call that reads a format up to its NUL and finds the arguments it asks for. -/
def KprintfStep (s : Screen) (call : Call) (t : Screen) : Prop := kprintf call s = .ok t

/-- Every directive of the call ends in the rows 0 to 23. -/
def CallFits (s : Screen) (call : Call) (_ : Screen) : Prop :=
  ∀ printed, items call.fmt call.args = .ok printed → AllFit s printed

/-- Nothing has been stored outside the rows 0 to 23 when the call returns. -/
def Inside (_ : Screen) (_ : Call) (t : Screen) : Prop := t.StoresInside

/-- The cursor is at a cell of the screen, or at the start of row 24. -/
structure CursorOk (s : Screen) : Prop where
  offset : s.currentHeight * maxScreenWidth + s.currentWidth ≤ screenBytes
  width : s.currentWidth < maxScreenWidth
  even : s.currentWidth % 2 = 0

section Items

variable {s : Screen} {cells : List (BitVec 8)} {item : Item}

/-- Cells stored from `a` on are inside if the last of them is. -/
theorem putCells_spec (cells : List (BitVec 8)) : ∀ (a : Nat) (s : Screen),
    (putCells cells a s).1 = a + 2 * cells.length ∧
      ((putCells cells a s).2.StoresInside ↔
        (cells = [] ∨ a + 2 * cells.length ≤ screenBytes) ∧ s.StoresInside) := by
  induction cells with
  | nil => exact fun a s => ⟨rfl, by simp [putCells]⟩
  | cons ch cells ih =>
    intro a s
    obtain ⟨h1, h2⟩ := ih (a + 2) ((s.store a ch).store (a + 1) lightGrey)
    rw [putCells, putCell]
    dsimp only
    rw [h1, h2, storesInside_store, storesInside_store, List.length_cons]
    refine ⟨by omega, ?_⟩
    constructor
    · rintro ⟨hfit, h3, h4, hs⟩
      refine ⟨.inr ?_, hs⟩
      rcases hfit with rfl | hfit
      · rw [List.length_nil]
        omega
      · omega
    · rintro ⟨hfit, hs⟩
      have hle := hfit.resolve_left (List.cons_ne_nil ch cells)
      exact ⟨.inr (by omega), by omega, by omega, hs⟩

theorem getCurrentAddress_spec (s : Screen) : (getCurrentAddress s).1 = itemStart s ∧
    ((getCurrentAddress s).2.StoresInside ↔ s.StoresInside) := by
  unfold itemStart
  by_cases h : s.currentHeight > 23
  · obtain ⟨t, he, ht⟩ := getCurrentAddress_scroll h
    rw [he, if_pos h]
    exact ⟨rfl, ht.inside⟩
  · rw [getCurrentAddress_stay (by omega), if_neg h]
    exact ⟨rfl, Iff.rfl⟩

theorem CursorOk.itemStart_le (h : CursorOk s) : itemStart s ≤ screenBytes ∧ itemStart s % 2 = 0 := by
  have hw : maxScreenWidth = 160 := rfl
  have hb : screenBytes = 24 * maxScreenWidth := rfl
  have hle := h.offset
  have heven := h.even
  rw [hb, hw] at hle
  unfold itemStart
  rw [hb, hw]
  split <;> omega

/-- The address behind what was printed is the next cursor. -/
theorem cursorOk_update {a : Nat} (s : Screen) (hle : a ≤ screenBytes) (heven : a % 2 = 0) :
    CursorOk (updateHeightWidth a s) := by
  unfold updateHeightWidth
  constructor
  case offset =>
    dsimp only
    rw [Nat.mul_comm, Nat.div_add_mod]
    exact hle
  case width => exact Nat.mod_lt _ (by decide)
  case even =>
    dsimp only
    unfold maxScreenWidth
    omega

theorem emit_spec (h : CursorOk s) (cells : List (BitVec 8)) :
    ((emit cells s).StoresInside ↔ Fits s (.text cells) ∧ s.StoresInside) ∧
      (Fits s (.text cells) → CursorOk (emit cells s)) := by
  obtain ⟨hle, heven⟩ := h.itemStart_le
  obtain ⟨h1, h2⟩ := getCurrentAddress_spec s
  obtain ⟨h3, h4⟩ := putCells_spec cells (getCurrentAddress s).1 (getCurrentAddress s).2
  have hfits : (cells = [] ∨ itemStart s + 2 * cells.length ≤ screenBytes) ↔ Fits s (.text cells) := by
    unfold Fits cellsLeft
    constructor
    · rintro (rfl | hfit)
      · exact Nat.zero_le _
      · omega
    · intro hfit
      exact .inr (by omega)
  rw [h1] at h3 h4
  unfold emit
  dsimp only
  rw [h1]
  refine ⟨(h4.trans (and_congr hfits h2)), fun hfit => ?_⟩
  rw [h3]
  refine cursorOk_update _ ?_ (by omega)
  rcases hfits.2 hfit with rfl | hle'
  · rw [List.length_nil]
    exact hle
  · exact hle'

theorem CursorOk.current (h : CursorOk s) :
    CursorOk (getCurrentAddress s).2 ∧ (getCurrentAddress s).2.currentHeight ≤ 23 := by
  by_cases hlow : 23 < s.currentHeight
  · obtain ⟨t, he, ht⟩ := getCurrentAddress_scroll hlow
    rw [he]
    refine ⟨?_, Nat.le_of_eq ht.height⟩
    constructor
    case offset => rw [ht.height, ht.width]; decide
    case width => rw [ht.width]; decide
    case even => rw [ht.width]
  · rw [getCurrentAddress_stay (by omega)]
    exact ⟨h, Nat.not_lt.1 hlow⟩

theorem newLine_spec (h : CursorOk s) : ((perform s .newline).StoresInside ↔ s.StoresInside) ∧
    CursorOk (perform s .newline) := by
  obtain ⟨-, hinside⟩ := getCurrentAddress_spec s
  obtain ⟨-, hrow⟩ := h.current
  unfold perform handleNewLine
  generalize (getCurrentAddress s).2 = u at hinside hrow ⊢
  have hok : CursorOk { u with currentHeight := u.currentHeight + 1, currentWidth := 0 } := by
    constructor
    case offset =>
      have hb : screenBytes = 24 * maxScreenWidth := rfl
      rw [hb, Nat.add_zero]
      exact Nat.mul_le_mul_right _ (Nat.succ_le_succ hrow)
    case width => exact Nat.zero_lt_succ _
    case even => rfl
  obtain ⟨-, h2⟩ := getCurrentAddress_spec { u with currentHeight := u.currentHeight + 1, currentWidth := 0 }
  exact ⟨h2.trans hinside, hok.current.1⟩

theorem perform_spec (h : CursorOk s) (item : Item) :
    ((perform s item).StoresInside ↔ Fits s item ∧ s.StoresInside) ∧
      (Fits s item → CursorOk (perform s item)) := by
  cases item with
  | newline =>
    obtain ⟨h1, h2⟩ := newLine_spec h
    exact ⟨h1.trans (and_iff_right trivial).symm, fun _ => h2⟩
  | text cells => exact emit_spec h cells

/-- A store outside stays noted. -/
theorem storesInside_of_perform (s : Screen) (item : Item) (h : (perform s item).StoresInside) :
    s.StoresInside := by
  cases item with
  | newline =>
    unfold perform handleNewLine at h
    have h' := (getCurrentAddress_spec _).2.1 h
    exact (getCurrentAddress_spec s).2.1 h'
  | text cells =>
    unfold perform emit at h
    exact (getCurrentAddress_spec s).2.1 ((putCells_spec cells _ _).2.1 h).2

theorem storesInside_of_printed : ∀ (printed : List Item) (s : Screen),
    (printed.foldl perform s).StoresInside → s.StoresInside
  | [], _, h => h
  | item :: printed, s, h => storesInside_of_perform s item (storesInside_of_printed printed _ h)

theorem printed_spec : ∀ (printed : List Item) {s : Screen}, CursorOk s → s.StoresInside →
    ((printed.foldl perform s).StoresInside ↔ AllFit s printed) ∧
      (AllFit s printed → CursorOk (printed.foldl perform s))
  | [], _, h, hs => ⟨iff_of_true hs trivial, fun _ => h⟩
  | item :: printed, s, h, hs => by
    obtain ⟨h1, h2⟩ := perform_spec h item
    rw [List.foldl_cons, AllFit]
    by_cases hfit : Fits s item
    · obtain ⟨h3, h4⟩ := printed_spec printed (h2 hfit) (h1.2 ⟨hfit, hs⟩)
      exact ⟨h3.trans (and_iff_right hfit).symm, fun hall => h4 hall.2⟩
    · refine ⟨iff_of_false (fun hall => ?_) fun hall => hfit hall.1, fun hall => absurd hall.1 hfit⟩
      exact hfit (h1.1 (storesInside_of_printed printed _ hall)).1

/-- A single character always fits. -/
theorem fits_char (h : CursorOk s) (ch : BitVec 8) : Fits s (.text [ch]) := by
  have hw : maxScreenWidth = 160 := rfl
  have hb : screenBytes = 24 * maxScreenWidth := rfl
  have hwidth := h.width
  have heven := h.even
  unfold Fits cellsLeft itemStart
  dsimp only
  rw [List.length_singleton, hb, hw]
  split <;> omega

theorem allFit_chars : ∀ (text : List (BitVec 8)) {s : Screen}, CursorOk s → AllFit s (text.map charItem)
  | [], _, _ => trivial
  | ch :: text, s, h => by
    have hfit : Fits s (charItem ch) := by
      unfold charItem
      split
      · exact trivial
      · exact fits_char h ch
    exact ⟨hfit, allFit_chars text ((perform_spec h (charItem ch)).2 hfit)⟩

/-- Text without directives never runs over the last row. -/
theorem callFits_plainText {call : Call} (h : CursorOk s) (hp : PlainText call) (t : Screen) :
    CallFits s call t := by
  intro printed hi
  rw [items_text call.args hp.1 hp.2] at hi
  cases hi
  exact allFit_chars _ h

theorem kprintf_step {call : Call} {t : Screen} (h : KprintfStep s call t) :
    ∃ printed, items call.fmt call.args = .ok printed ∧ t = printed.foldl perform s := by
  unfold KprintfStep at h
  rw [kprintf_eq] at h
  cases hi : items call.fmt call.args with
  | error e => rw [hi] at h; cases h
  | ok printed => rw [hi] at h; cases h; exact ⟨printed, rfl, rfl⟩

theorem kprintfStep_items {call : Call} {printed : List Item} (s : Screen)
    (h : items call.fmt call.args = .ok printed) : KprintfStep s call (printed.foldl perform s) := by
  unfold KprintfStep
  rw [kprintf_eq, h]
  rfl

/-- A call whose directives fit stores inside, and leaves a cursor from which the next one can. -/
theorem kprintfStep_fits {call : Call} {t : Screen} (h : CursorOk s ∧ s.StoresInside)
    (hstep : KprintfStep s call t) : (Inside s call t ↔ CallFits s call t) ∧
      (Inside s call t → CursorOk t ∧ t.StoresInside) := by
  obtain ⟨printed, hi, rfl⟩ := kprintf_step hstep
  obtain ⟨h1, h2⟩ := printed_spec printed h.1 h.2
  unfold Inside CallFits
  refine ⟨?_, fun hin => ⟨h2 (h1.1 hin), hin⟩⟩
  rw [h1]
  constructor
  · intro hall printed' hi'
    cases hi.symm.trans hi'
    exact hall
  · exact fun hall => hall printed hi

theorem started_ok (video : Video) : CursorOk (started video) ∧ (started video).StoresInside :=
  ⟨⟨Nat.zero_le _, Nat.zero_lt_succ _, rfl⟩, fun a ha => by cases ha⟩

end Items

/-! ## What is not stored to -/

/-- Video memory is what it was, but for the stores noted. -/
def OnlyStored (video : Video) (s : Screen) : Prop := ∀ k, k ∉ s.stored → s.video k = video k

section OnlyStored

variable {video : Video} {s : Screen}

theorem OnlyStored.store (h : OnlyStored video s) (a : Nat) (v : BitVec 8) :
    OnlyStored video (s.store a v) := by
  intro k hk
  rw [Screen.store, List.mem_cons, not_or] at hk
  rw [video_store, if_neg hk.1]
  exact h k hk.2

theorem OnlyStored.move (h : OnlyStored video s) (height width : Nat) :
    OnlyStored video { s with currentHeight := height, currentWidth := width } := h

theorem OnlyStored.copyRows (h : OnlyStored video s) : OnlyStored video (copyRows s) := by
  unfold Console.copyRows
  apply List.foldlRecOn
  · exact h
  · intro t ht i _
    apply List.foldlRecOn
    · exact ht
    · exact fun u hu j _ => hu.store _ _

theorem OnlyStored.blankRow (h : OnlyStored video s) : OnlyStored video (blankRow s) := by
  unfold Console.blankRow
  apply List.foldlRecOn
  · exact h
  · intro t ht index _
    split
    · exact (ht.store _ _).store _ _
    · exact ht

theorem OnlyStored.current (h : OnlyStored video s) : OnlyStored video (getCurrentAddress s).2 := by
  by_cases hlow : s.currentHeight > 23
  · have hcopied := h.copyRows
    unfold getCurrentAddress
    rw [if_pos hlow]
    generalize Console.copyRows s = t at hcopied ⊢
    have hblanked := (hcopied.move 23 0).blankRow
    generalize Console.blankRow _ = u at hblanked ⊢
    exact hblanked
  · rw [getCurrentAddress_stay (by omega)]
    exact h

theorem OnlyStored.putCells : ∀ (cells : List (BitVec 8)) (a : Nat) {s : Screen}, OnlyStored video s →
    OnlyStored video (putCells cells a s).2
  | [], _, _, h => h
  | _ :: cells, _, _, h => OnlyStored.putCells cells _ ((h.store _ _).store _ _)

theorem OnlyStored.perform (h : OnlyStored video s) (item : Item) : OnlyStored video (perform s item) := by
  cases item with
  | newline => exact (h.current.move _ 0).current
  | text cells => exact OnlyStored.putCells cells _ h.current

theorem OnlyStored.printed : ∀ (printed : List Item) {s : Screen}, OnlyStored video s →
    OnlyStored video (printed.foldl Console.perform s)
  | [], _, h => h
  | item :: printed, _, h => OnlyStored.printed printed (h.perform item)

/-- The status row is as it was after every run of calls that fit. -/
theorem status_row_kept {calls : List Call} {k : Nat}
    (h : Run (Restrict KprintfStep CallFits) (started video) calls s) (hk : screenBytes ≤ k) :
    s.video k = video k := by
  have hall : (CursorOk s ∧ s.StoresInside) ∧ OnlyStored video s := by
    refine h.invariant (fun s => (CursorOk s ∧ s.StoresInside) ∧ OnlyStored video s)
      ⟨started_ok video, fun _ _ => rfl⟩ ?_
    rintro s call t ⟨hok, hs⟩ ⟨hstep, hfits⟩
    obtain ⟨hiff, hnext⟩ := kprintfStep_fits hok hstep
    obtain ⟨printed, -, rfl⟩ := kprintf_step hstep
    exact ⟨hnext (hiff.2 hfits), hs.printed printed⟩
  exact hall.2 k fun hmem => absurd (hall.1.2 k hmem) (Nat.not_lt.2 hk)

end OnlyStored

/-- All stores of a run of calls are in the rows 0 to 23 exactly if every directive ends there. -/
theorem stores_on_screen_iff (video : Video) (calls : List Call) (s : Screen) :
    Run (Restrict KprintfStep Inside) (started video) calls s ↔
      Run (Restrict KprintfStep CallFits) (started video) calls s := by
  apply Run.restrict_iff fun s => CursorOk s ∧ s.StoresInside
  · exact started_ok video
  · exact fun s call t h hstep => (kprintfStep_fits h hstep).1
  · exact fun s call t h hstep => (kprintfStep_fits h hstep).2

/-- `kprintf("%s", str)` with a string one cell longer than the rows 0 to 23. -/
def longCall : Call := ⟨[percent, 115, 0], [.str (List.replicate 1921 65)]⟩

theorem items_longCall : items longCall.fmt longCall.args = .ok [.text (List.replicate 1921 65)] := by
  have hstr : (List.replicate 1921 (65 : BitVec 8)).takeWhile (· ≠ 0) = List.replicate 1921 65 := by
    rw [List.takeWhile_replicate]
    exact if_pos rfl
  unfold longCall
  generalize List.replicate 1921 (65 : BitVec 8) = str at hstr ⊢
  have hitems : items [percent, 115, 0] [.str str] = .ok [.text (str.takeWhile (· ≠ 0))] := rfl
  rw [hitems, hstr]

theorem long_string_overruns : ∃ s, Run KprintfStep (started fun _ => 0) [longCall] s ∧
    ¬ s.StoresInside := by
  obtain ⟨hok, hclean⟩ := started_ok fun _ => 0
  have hstep := kprintfStep_items (started fun _ => 0) items_longCall
  refine ⟨_, .snoc .nil hstep, fun hin => ?_⟩
  have hfit := ((printed_spec _ hok hclean).1.1 hin).1
  unfold Fits at hfit
  dsimp only at hfit
  rw [List.length_replicate] at hfit
  -- 1920 cells are left
  exact absurd hfit (by decide)

end Sbunix.Console
