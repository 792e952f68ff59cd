/-
Three ways to print a string with `kprintf`: as the argument of `%s`, as the format, and character by
character with `%c`. The first does not look for newlines and does not scroll on its way, the last prints
a newline as a cell.
-/
import Mathlib.Data.List.TakeWhile
import Sbunix.Console.Cells
import Sbunix.Console.Stores

namespace Sbunix.Console

open Fallible Transition

/-- `kprintf("%s", str)` -/
def stringCall (str : List (BitVec 8)) : Call := ⟨[percent, 115, 0], [.str str]⟩

/-- `kprintf(str)` -/
def textCall (str : List (BitVec 8)) : Call := ⟨str ++ [0], []⟩

/-- `kprintf("%c", ch)` -/
def charCall (ch : BitVec 8) : Call := ⟨[percent, 99, 0], [.int (ch.signExtend 32)]⟩

structure SameScreen (s t : Screen) : Prop where
  video : s.video = t.video
  height : s.currentHeight = t.currentHeight
  width : s.currentWidth = t.currentWidth

/-- The three ways leave the same screen. -/
def PrintsAlike (str : List (BitVec 8)) (s : Screen) : Prop :=
  ∃ a b c, kprintf (stringCall str) s = .ok a ∧ kprintf (textCall str) s = .ok b ∧
    kprintfs s (str.map charCall) = .ok c ∧ SameScreen a b ∧ SameScreen b c

/-- They do on every screen that calls of `kprintf` lead to with the cursor there. -/
def PrintsAlikeAt (str : List (BitVec 8)) (height width : Nat) : Prop :=
  ∀ video calls t, Run KprintfStep (started video) calls t → t.currentHeight = height →
    t.currentWidth = width → PrintsAlike str t

/-- A cell at a time. -/
def emitChars (str : List (BitVec 8)) (s : Screen) : Screen := str.foldl (fun s ch => emit [ch] s) s

/-- The width is that of a cell in a row. -/
structure Aligned (s : Screen) : Prop where
  width : s.currentWidth < maxScreenWidth
  even : s.currentWidth % 2 = 0

/-- No cell shows a newline. -/
def NoNewLine (s : Screen) : Prop := ∀ k, k % 2 = 0 → s.video k ≠ newLineChar

section Ways

variable {str : List (BitVec 8)} {ch : BitVec 8} {s t : Screen}

/-- A cell that was never written shows no newline. -/
theorem zero_ne_newLineChar : (0 : BitVec 8) ≠ newLineChar := by decide

theorem takeWhile_noNul (h : 0 ∉ str) : str.takeWhile (· ≠ 0) = str := by
  refine List.takeWhile_eq_self_iff.2 ?_
  intro ch hch
  rw [decide_eq_true_eq]
  rintro rfl
  exact h hch

theorem kprintf_string (h0 : 0 ∉ str) (s : Screen) : kprintf (stringCall str) s = .ok (emit str s) := by
  refine kprintf_directive ?_ s
  have hitems : directiveItems 115 [.str str] = .ok ([], [.text (str.takeWhile (· ≠ 0))]) := rfl
  rw [hitems, takeWhile_noNul h0]

theorem kprintf_text (h0 : 0 ∉ str) (hp : percent ∉ str) (s : Screen) :
    kprintf (textCall str) s = .ok ((str.map charItem).foldl perform s) := by
  have htext : (textCall str).text = str := by
    unfold Call.text textCall
    dsimp only
    rw [List.takeWhile_append, takeWhile_noNul h0, if_pos rfl, List.takeWhile_cons_of_neg (by simp),
      List.append_nil]
  have hplain : PlainText (textCall str) := by
    refine ⟨List.mem_append_right _ (List.mem_singleton_self 0), ?_⟩
    rw [htext]
    exact hp
  rw [hplain.kprintf_eq, htext]

theorem setWidth_signExtend (ch : BitVec 8) : (ch.signExtend 32).setWidth 8 = ch := by
  revert ch
  decide

/-- A `char` passed as an `int` is printed as it was. -/
theorem kprintf_char (ch : BitVec 8) (s : Screen) : kprintf (charCall ch) s = .ok (emit [ch] s) := by
  refine kprintf_directive ?_ s
  have hitems : directiveItems 99 [.int (ch.signExtend 32)] =
      .ok ([], [.text [(ch.signExtend 32).setWidth 8]]) := rfl
  rw [hitems, setWidth_signExtend]

theorem kprintfs_chars (str : List (BitVec 8)) (s : Screen) :
    kprintfs s (str.map charCall) = .ok (emitChars str s) := by
  unfold kprintfs emitChars
  induction str generalizing s with
  | nil => rfl
  | cons ch str ih =>
    rw [List.map_cons, List.foldlM_cons, kprintf_char, ok_bind]
    exact ih (emit [ch] s)

theorem printsAlike_iff (h0 : 0 ∉ str) (hp : percent ∉ str) (s : Screen) : PrintsAlike str s ↔
    SameScreen (emit str s) ((str.map charItem).foldl perform s) ∧
      SameScreen ((str.map charItem).foldl perform s) (emitChars str s) := by
  unfold PrintsAlike
  rw [kprintf_string h0, kprintf_text h0 hp, kprintfs_chars]
  constructor
  · rintro ⟨a, b, c, ha, hb, hc, hsame⟩
    cases ha
    cases hb
    cases hc
    exact hsame
  · exact fun hsame => ⟨_, _, _, rfl, rfl, rfl, hsame⟩

/-- Without newlines a format is printed a cell at a time. -/
theorem perform_chars (hn : newLineChar ∉ str) (s : Screen) :
    (str.map charItem).foldl perform s = emitChars str s := by
  unfold emitChars
  induction str generalizing s with
  | nil => rfl
  | cons ch str ih =>
    rw [List.mem_cons, not_or] at hn
    rw [List.map_cons, List.foldl_cons, List.foldl_cons, charItem, if_neg (Ne.symm hn.1)]
    exact ih hn.2 (emit [ch] s)

/-! ### The string at once and a cell at a time -/

theorem putCells_update (c : Nat) : ∀ (cells : List (BitVec 8)) (a : Nat) (s : Screen),
    (putCells cells a (updateHeightWidth c s)).2 = updateHeightWidth c (putCells cells a s).2
  | [], _, _ => rfl
  | ch :: cells, a, s => putCells_update c cells (a + 2) (putCell ch a s).2

theorem emit_cons (h : s.currentHeight ≤ 23) (hnext : (emit [ch] s).currentHeight ≤ 23) :
    emit str (emit [ch] s) = emit (ch :: str) s := by
  have hcursor := (emit_writes h [ch]).cursor
  rw [emit_eq hnext, hcursor, emit_eq h, emit_eq h, List.length_singleton, List.length_cons, putCells_update,
    show s.cursor + 2 * 1 + 2 * str.length = s.cursor + 2 * (str.length + 1) by omega]
  rfl

/-- The cursor is in a row of the screen if it is before the end of the last one. -/
theorem row_le_of_cursor (h : s.cursor < screenBytes) : s.currentHeight ≤ 23 := by
  have hb : screenBytes = 24 * 160 := rfl
  unfold Screen.cursor maxScreenWidth at h
  omega

/-- As long as the string ends on the screen, it makes no difference. -/
theorem emitChars_eq : ∀ {str : List (BitVec 8)} {s : Screen}, str ≠ [] → s.currentHeight ≤ 23 →
    s.cursor + 2 * str.length ≤ screenBytes → emitChars str s = emit str s
  | [], _, hne, _, _ => absurd rfl hne
  | [ch], _, _, _, _ => rfl
  | ch :: ch' :: str, s, _, h, hfit => by
    have hcursor := (emit_writes h [ch]).cursor
    rw [List.length_singleton] at hcursor
    rw [List.length_cons, List.length_cons] at hfit
    have hnext : (emit [ch] s).currentHeight ≤ 23 := row_le_of_cursor (by omega)
    have hrest := emitChars_eq (List.cons_ne_nil ch' str) hnext (by
      rw [List.length_cons]
      omega)
    rw [emit_cons h hnext] at hrest
    have hfirst : emitChars (ch :: ch' :: str) s = emitChars (ch' :: str) (emit [ch] s) := List.foldl_cons ..
    rw [hfirst, hrest]

theorem cursorOk_chars : ∀ (str : List (BitVec 8)) {s : Screen}, CursorOk s → CursorOk (emitChars str s)
  | [], _, h => h
  | ch :: str, _, h => cursorOk_chars str ((emit_spec h [ch]).2 (fits_char h ch))

/-! ### Scrolling first -/

theorem emitChars_settled (hne : str ≠ []) (s : Screen) :
    emitChars str s = emitChars str (getCurrentAddress s).2 := by
  cases str with
  | nil => exact absurd rfl hne
  | cons ch str =>
    unfold emitChars
    rw [List.foldl_cons, List.foldl_cons, emit_settled]

theorem perform_settled (s : Screen) (item : Item) : perform s item = perform (getCurrentAddress s).2 item := by
  cases item with
  | newline => exact congrArg handleNewLine (settled_stay (settled_row s)).symm
  | text cells => exact emit_settled cells s

theorem Aligned.cursorOk (h : Aligned s) : CursorOk (getCurrentAddress s).2 := by
  by_cases hlow : 23 < s.currentHeight
  · obtain ⟨t, he, ht⟩ := getCurrentAddress_scroll hlow
    rw [he]
    constructor
    case offset => rw [ht.height, ht.width]; decide
    case width => rw [ht.width]; decide
    case even => rw [ht.width]
  · rw [getCurrentAddress_stay (Nat.not_lt.1 hlow)]
    refine ⟨?_, h.width, h.even⟩
    have hb : screenBytes = 24 * 160 := rfl
    have hwidth := h.width
    unfold maxScreenWidth at hwidth ⊢
    dsimp only
    omega

theorem itemStart_eq (s : Screen) : itemStart s = (getCurrentAddress s).2.cursor := by
  rw [← (getCurrentAddress_spec s).1]
  rfl

/-! ### Reachable screens -/

theorem aligned_update {a : Nat} (ha : a % 2 = 0) (s : Screen) : Aligned (updateHeightWidth a s) := by
  constructor
  case width => exact Nat.mod_lt _ (by decide)
  case even =>
    unfold updateHeightWidth maxScreenWidth
    dsimp only
    omega

theorem Aligned.perform (h : Aligned s) (item : Item) : Aligned (perform s item) := by
  have hok := h.cursorOk
  rw [perform_settled]
  cases item with
  | newline => exact ⟨(newLine_spec hok).2.width, (newLine_spec hok).2.even⟩
  | text cells =>
    unfold Console.perform
    dsimp only
    rw [emit_eq (settled_row s)]
    refine aligned_update ?_ _
    have heven := hok.even
    unfold Screen.cursor maxScreenWidth
    omega

theorem Aligned.printed : ∀ (printed : List Item) {s : Screen}, Aligned s →
    Aligned (printed.foldl Console.perform s)
  | [], _, h => h
  | item :: printed, _, h => Aligned.printed printed (h.perform item)

theorem aligned_of_run {video : Video} {calls : List Call} (h : Run KprintfStep (started video) calls s) :
    Aligned s := by
  refine h.invariant Aligned ⟨Nat.zero_lt_succ _, rfl⟩ ?_
  intro s call t hs hstep
  obtain ⟨printed, -, rfl⟩ := kprintf_step hstep
  exact hs.printed printed

/-- Every such cursor is reached, on a screen without newlines. -/
theorem exists_run (h : Aligned s) : ∃ calls t, Run KprintfStep (started fun _ => 0) calls t ∧
    t.currentHeight = s.currentHeight ∧ t.currentWidth = s.currentWidth ∧ NoNewLine t := by
  have hwidth := h.width
  have heven := h.even
  unfold maxScreenWidth at hwidth
  set text := List.replicate (s.currentHeight * 80 + s.currentWidth / 2) (65 : BitVec 8) with htext
  have hlen : text.length = s.currentHeight * 80 + s.currentWidth / 2 := List.length_replicate
  have h0 : (0 : BitVec 8) ∉ text := fun hm => absurd (List.eq_of_mem_replicate hm) (by decide)
  have hrow : (started fun _ => 0).currentHeight ≤ 23 := Nat.zero_le 23
  have hwrites := emit_writes hrow text
  have hstart : (started fun _ => 0).cursor = 0 := rfl
  refine ⟨[stringCall text], emit text (started fun _ => 0), Run.nil.snoc (kprintf_string h0 _), ?_, ?_, ?_⟩
  · rw [emit_eq hrow, hstart, hlen]
    unfold updateHeightWidth maxScreenWidth
    dsimp only
    omega
  · rw [emit_eq hrow, hstart, hlen]
    unfold updateHeightWidth maxScreenWidth
    dsimp only
    omega
  · intro k hk
    by_cases hin : k ∈ Set.Ico (started fun _ => 0).cursor ((started fun _ => 0).cursor + 2 * text.length)
    · rw [hstart, Set.mem_Ico] at hin
      have hi : k / 2 < text.length := by omega
      have hcell := (hwrites.cells (k / 2) hi).1
      rw [hstart, show 0 + 2 * (k / 2) = k by omega] at hcell
      rw [hcell, List.eq_of_mem_replicate (List.getElem_mem hi)]
      decide
    · rw [hwrites.others k hin]
      exact zero_ne_newLineChar

/-! ### Screens without newlines -/

theorem NoNewLine.current (h : NoNewLine s) : NoNewLine (getCurrentAddress s).2 := by
  by_cases hlow : 23 < s.currentHeight
  · obtain ⟨t, he, ht⟩ := getCurrentAddress_scroll hlow
    rw [he]
    intro k hk
    rw [ht.video]
    split_ifs
    · refine h (k + maxScreenWidth) ?_
      unfold maxScreenWidth
      omega
    · rw [blankByte, if_pos hk]
      exact zero_ne_newLineChar
    · exact h k hk
  · rw [getCurrentAddress_stay (Nat.not_lt.1 hlow)]
    exact h

theorem NoNewLine.emit (h : NoNewLine s) (hrow : s.currentHeight ≤ 23) (heven : s.cursor % 2 = 0)
    (hch : ch ≠ newLineChar) : NoNewLine (emit [ch] s) := by
  have hw := emit_writes hrow [ch]
  intro k hk
  by_cases hat : k = s.cursor
  · rw [hat]
    have hcell := (hw.cells 0 Nat.zero_lt_one).1
    rw [Nat.mul_zero, Nat.add_zero] at hcell
    rw [hcell]
    exact hch
  · rw [hw.others k]
    · exact h k hk
    · rw [List.length_singleton, Set.mem_Ico]
      omega

theorem CursorOk.cursor_even (h : CursorOk s) : s.cursor % 2 = 0 := by
  have heven := h.even
  unfold Screen.cursor maxScreenWidth
  omega

/-- A newline of the format is not shown. -/
theorem NoNewLine.perform (h : NoNewLine s) (hal : Aligned s) (ch : BitVec 8) :
    NoNewLine (perform s (charItem ch)) := by
  rw [perform_settled]
  have hcurrent := h.current
  have heven := hal.cursorOk.cursor_even
  unfold charItem
  by_cases hch : ch = newLineChar
  · rw [if_pos hch]
    have hmoved : NoNewLine { (getCurrentAddress (getCurrentAddress s).2).2 with
        currentHeight := (getCurrentAddress (getCurrentAddress s).2).2.currentHeight + 1
        currentWidth := 0 } := hcurrent.current
    exact hmoved.current
  · rw [if_neg hch]
    exact hcurrent.emit (settled_row s) heven hch

theorem NoNewLine.text : ∀ (str : List (BitVec 8)) {s : Screen}, NoNewLine s → Aligned s →
    NoNewLine ((str.map charItem).foldl Console.perform s)
  | [], _, h, _ => h
  | ch :: str, _, h, hal => NoNewLine.text str (h.perform hal ch) (hal.perform _)

/-- A newline of a string is. -/
theorem not_noNewLine_emit (hal : Aligned s) (h : newLineChar ∈ str) : ¬ NoNewLine (emit str s) := by
  have hw := emit_writes (settled_row s) str
  rw [← emit_settled] at hw
  obtain ⟨i, hi, hget⟩ := List.getElem_of_mem h
  have heven := hal.cursorOk.cursor_even
  intro hno
  refine hno ((getCurrentAddress s).2.cursor + 2 * i) (by omega) ?_
  rw [(hw.cells i hi).1, hget]

end Ways

/-! ## Where they agree -/

section Agree

variable {str : List (BitVec 8)} {s t : Screen}

theorem SameScreen.cursor (h : SameScreen s t) : s.cursor = t.cursor := by
  unfold Screen.cursor
  rw [h.height, h.width]

/-- Where the cursor stands decides. -/
theorem fits_congr (hheight : t.currentHeight = s.currentHeight) (hwidth : t.currentWidth = s.currentWidth)
    (item : Item) : Fits t item ↔ Fits s item := by
  unfold Fits cellsLeft itemStart
  rw [hheight, hwidth]

theorem fits_iff (hal : Aligned s) (hne : str ≠ []) : Fits s (.text str) ↔
    (getCurrentAddress s).2.cursor + 2 * str.length ≤ screenBytes := by
  have heven := hal.cursorOk.cursor_even
  have hpos := List.length_pos_iff.2 hne
  have hb : screenBytes = 24 * 160 := rfl
  unfold Fits cellsLeft
  dsimp only
  rw [itemStart_eq]
  omega

theorem emit_nil (hal : Aligned s) (hrow : s.currentHeight ≤ 23) : emit [] s = s := by
  have hwidth := hal.width
  rw [emit_eq hrow]
  unfold updateHeightWidth Screen.cursor
  rw [List.length_nil, Nat.mul_zero, Nat.add_zero, Nat.mul_comm, Nat.mul_add_div (Nat.zero_lt_of_lt hwidth),
    Nat.div_eq_of_lt hwidth, Nat.mul_add_mod, Nat.mod_eq_of_lt hwidth]
  rfl

theorem printsAlike_nil (hal : Aligned s) (hrow : s.currentHeight ≤ 23) : PrintsAlike [] s := by
  refine (printsAlike_iff List.not_mem_nil List.not_mem_nil s).2 ⟨?_, ⟨rfl, rfl, rfl⟩⟩
  rw [emit_nil hal hrow]
  exact ⟨rfl, rfl, rfl⟩

theorem printsAlike_of_fits (h0 : 0 ∉ str) (hp : percent ∉ str) (hal : Aligned s) (hne : str ≠ [])
    (hn : newLineChar ∉ str) (hfits : Fits s (.text str)) : PrintsAlike str s := by
  have hsame : emitChars str s = emit str s := by
    rw [emitChars_settled hne, emit_settled]
    exact emitChars_eq hne (settled_row s) ((fits_iff hal hne).1 hfits)
  refine (printsAlike_iff h0 hp s).2 ?_
  rw [perform_chars hn, hsame]
  exact ⟨⟨rfl, rfl, rfl⟩, ⟨rfl, rfl, rfl⟩⟩

/-- What is needed is seen on a screen without newlines. -/
theorem fits_of_printsAlike (h0 : 0 ∉ str) (hp : percent ∉ str) (hal : Aligned s) (hno : NoNewLine s)
    (h : PrintsAlike str s) :
    newLineChar ∉ str ∧ Fits s (.text str) ∧ (str = [] → s.currentHeight ≤ 23) := by
  obtain ⟨hstring, hchars⟩ := (printsAlike_iff h0 hp s).1 h
  have hn : newLineChar ∉ str := by
    intro hmem
    refine not_noNewLine_emit hal hmem ?_
    have htext := hno.text str hal
    intro k hk
    rw [hstring.video]
    exact htext k hk
  refine ⟨hn, ?_, ?_⟩
  · by_cases hne : str = []
    · rw [hne]
      exact Nat.zero_le _
    · -- the cursor of the characters has not left the screen
      have hw := emit_writes (settled_row s) str
      rw [← emit_settled] at hw
      have hok := (cursorOk_chars str hal.cursorOk).offset
      rw [← emitChars_settled hne] at hok
      rw [fits_iff hal hne, ← hw.cursor, hstring.cursor, hchars.cursor]
      exact hok
  · rintro rfl
    have hheight : (emit [] s).currentHeight = s.currentHeight := hstring.height
    have hok := hal.cursorOk
    rw [emit_settled, emit_nil ⟨hok.width, hok.even⟩ (settled_row s)] at hheight
    rw [← hheight]
    exact settled_row s

end Agree

/-- On the screens that calls of `kprintf` lead to, the three ways agree exactly for the strings without
newlines that end on the screen; the empty one must not scroll. -/
theorem prints_alike_iff {str : List (BitVec 8)} {video : Video} {calls : List Call} {s : Screen}
    (hrun : Run KprintfStep (started video) calls s) (h0 : 0 ∉ str) (hp : percent ∉ str) :
    PrintsAlikeAt str s.currentHeight s.currentWidth ↔
      newLineChar ∉ str ∧ Fits s (.text str) ∧ (str = [] → s.currentHeight ≤ 23) := by
  have hal := aligned_of_run hrun
  constructor
  · intro h
    obtain ⟨calls', t, hrun', hheight, hwidth, hno⟩ := exists_run hal
    obtain ⟨hn, hfits, hempty⟩ := fits_of_printsAlike h0 hp (aligned_of_run hrun') hno
      (h _ _ t hrun' hheight hwidth)
    rw [hheight] at hempty
    exact ⟨hn, (fits_congr hheight hwidth _).1 hfits, hempty⟩
  · rintro ⟨hn, hfits, hempty⟩ video' calls' t hrun' hheight hwidth
    have hal' := aligned_of_run hrun'
    by_cases hne : str = []
    · subst hne
      refine printsAlike_nil hal' ?_
      rw [hheight]
      exact hempty rfl
    · exact printsAlike_of_fits h0 hp hal' hne hn ((fits_congr hheight hwidth _).2 hfits)

/-- `"a"` -/
theorem prints_alike_a : PrintsAlikeAt [97] 0 0 :=
  (prints_alike_iff (.nil (s := started fun _ => 0)) (by decide) (by decide)).2
    ⟨by decide, fits_char (started_ok _).1 97, fun _ => Nat.zero_le 23⟩

/-- `"a\nb"` on the first screen. -/
theorem newline_in_string : ¬ PrintsAlike [97, newLineChar, 98] (started fun _ => 0) := by
  intro h
  have hno : NoNewLine (started fun _ => 0) := fun _ _ => zero_ne_newLineChar
  obtain ⟨hn, -, -⟩ := fits_of_printsAlike (by decide) (by decide) (aligned_of_run .nil) hno h
  exact hn (by decide)

end Sbunix.Console
