/-
The key that the status row shows (`helper_keyboard_handler` of sys/ps2Controller.c) against the scan
codes that have arrived. The default branch ends with a test of the case that it makes for every code,
also for a key that is released: it raises the letter on the screen, whenever that was pressed.
-/
import Mathlib.Data.List.GetD
import Mathlib.Data.List.Induction
import Sbunix.Console.StatusRow
import Sbunix.Lib.Lockstep

namespace Sbunix.Console

open Noninterference (run)
open Lockstep (Tracks)
open Interrupt (isLower Keyboard map)

/-! ## What should be shown -/

/-- Whether `uppercase` is set, and the character of the last key pressed. -/
structure Display where
  shift : Bool
  shown : BitVec 8
deriving DecidableEq, Repr

/-- The codes of the Shift and Ctrl keys. -/
def flagCodes : List (BitVec 8) := [0x2A, 0x36, 0xAA, 0xB6, 0x1D, 0xE0, 0x9D]

/-- A make code that has a character. -/
def isKeyPress (key : BitVec 8) : Bool := key ∉ flagCodes ∧ key.toNat ≤ 88 ∧ map.getD key.toNat 0 ≠ 0

/-- A letter is upper-cased if `uppercase` is set. -/
def cased (shift : Bool) (ch : BitVec 8) : BitVec 8 := if shift ∧ isLower ch then ch - 32 else ch

/-- A key pressed is shown, and nothing else changes what is shown. -/
def Display.read (d : Display) (key : BitVec 8) : Display :=
  if key = 0x2A ∨ key = 0x36 then { d with shift := true }
  else if key = 0xAA ∨ key = 0xB6 then { d with shift := false }
  else if isKeyPress key then { d with shown := cased d.shift (map.getD key.toNat 0) }
  else d

def displayOf (s : StatusRow) : Display := ⟨s.uppercase ≠ 0, s.screen.video (keypressAddress + 1)⟩

structure ShowsKey (s : StatusRow) (d : Display) : Prop where
  shift : d.shift = decide (s.uppercase ≠ 0)
  cell : s.screen.video (keypressAddress + 1) = d.shown

/-- While `uppercase` is set and a lower-case letter is shown, there come only Shift and Ctrl codes and
keys pressed. -/
def SparesCase (d : Display) (key : BitVec 8) : Prop :=
  d.shift → isLower d.shown → key ∈ flagCodes ∨ isKeyPress key

section Handler

variable {s : StatusRow} {d : Display} {key ch : BitVec 8} {shift : Bool}

theorem isLower_sub (h : isLower ch) : ¬ isLower (ch - 32) := by
  unfold isLower at h ⊢
  simp only [decide_eq_true_eq] at h ⊢
  bv_omega

theorem cased_cased (shift : Bool) (ch : BitVec 8) : cased shift (cased shift ch) = cased shift ch := by
  unfold cased
  by_cases h : shift ∧ isLower ch
  · rw [if_pos h, if_neg fun h' => isLower_sub h.2 h'.2]
  · rw [if_neg h, if_neg h]

theorem cased_eq_iff : cased shift ch = ch ↔ (shift → ¬ isLower ch) := by
  unfold cased
  by_cases h : shift ∧ isLower ch
  · rw [if_pos h]
    refine iff_of_false (fun he => ?_) fun h' => h' h.1 h.2
    exact isLower_sub h.2 (he.symm ▸ h.2)
  · rw [if_neg h]
    exact iff_of_true rfl fun hs hl => h ⟨hs, hl⟩

/-- The test of the case on `ch`, whether that is to be stored or stands in the cell already. -/
theorem keyCell_raise {s t u : Keyboard} (hs : t.uppercase = s.uppercase) (hcell : u.keyCell.1 = ch) :
    (if t.uppercase ≠ 0 ∧ isLower ch then { t with keyCell := (ch - 32, Interrupt.lightGrey) }
      else u).keyCell.1 = cased (s.uppercase ≠ 0) ch := by
  rw [hs, apply_ite (fun t : Keyboard => t.keyCell.1), hcell]
  simp only [cased, decide_eq_true_eq]

/-- The test at the end is made on the character that is there, whether this code has put it there or
an earlier one. -/
theorem keyCell_showKey (key : BitVec 8) (s : Keyboard) : (Interrupt.showKey key s).keyCell.1 =
    cased (s.uppercase ≠ 0) (if key.toNat ≤ 88 ∧ map.getD key.toNat 0 ≠ 0 then map.getD key.toNat 0
      else s.keyCell.1) := by
  unfold Interrupt.showKey
  dsimp only
  rw [keyCell_raise (s := s)]
  case hcell => rfl
  case hs => simp only [apply_ite Keyboard.uppercase, ite_self]
  by_cases hpress : key.toNat ≤ 88 ∧ map.getD key.toNat 0 ≠ 0
  · rw [if_pos hpress, if_pos hpress, keyCell_raise (s := s)]
    case hcell => rfl
    case hs => simp only [apply_ite Keyboard.uppercase, ite_self]
    exact cased_cased _ _
  · rw [if_neg hpress, if_neg hpress]
    split <;> rfl

/-- The codes of Shift and Ctrl keys leave the cell alone. -/
theorem keyCell_flag (s : Keyboard) (h : key ∈ flagCodes) :
    (Interrupt.helperKeyboardHandler key s).keyCell.1 = s.keyCell.1 := by
  unfold flagCodes at h
  simp only [List.mem_cons, List.not_mem_nil, or_false] at h
  rcases h with rfl | rfl | rfl | rfl | rfl | rfl | rfl <;> rfl

theorem keyCell_default (s : Keyboard) (h : key ∉ flagCodes) :
    (Interrupt.helperKeyboardHandler key s).keyCell.1 =
      cased (s.uppercase ≠ 0) (if isKeyPress key then map.getD key.toNat 0 else s.keyCell.1) := by
  have hpress : isKeyPress key ↔ key.toNat ≤ 88 ∧ map.getD key.toNat 0 ≠ 0 := by
    unfold isKeyPress
    rw [decide_eq_true_eq, and_iff_right h]
  rw [if_congr hpress rfl rfl, ← keyCell_showKey key s]
  unfold flagCodes at h
  simp only [List.mem_cons, List.not_mem_nil, or_false, not_or] at h
  unfold Interrupt.helperKeyboardHandler
  dsimp only
  rw [if_neg h.1, if_neg h.2.1, if_neg h.2.2.1, if_neg h.2.2.2.1, if_neg h.2.2.2.2.1,
    if_neg h.2.2.2.2.2.1, if_neg h.2.2.2.2.2.2]

theorem read_shift : (d.read key).shift =
    if key = 0x2A ∨ key = 0x36 then true else if key = 0xAA ∨ key = 0xB6 then false else d.shift := by
  unfold Display.read
  split_ifs <;> rfl

theorem read_shown : (d.read key).shown =
    if isKeyPress key then cased d.shift (map.getD key.toNat 0) else d.shown := by
  have hflag : isKeyPress key → key ∉ flagCodes := by
    unfold isKeyPress
    rw [decide_eq_true_eq]
    exact And.left
  unfold Display.read
  by_cases hset : key = 0x2A ∨ key = 0x36
  · rw [if_pos hset, if_neg fun h => hflag h (by rcases hset with rfl | rfl <;> decide)]
  · by_cases hclear : key = 0xAA ∨ key = 0xB6
    · rw [if_neg hset, if_pos hclear, if_neg fun h => hflag h (by rcases hclear with rfl | rfl <;> decide)]
    · rw [if_neg hset, if_neg hclear]
      split <;> rfl

/-- What the handler does to the flag and the cell, without the rest of the row. -/
theorem handler_uppercase (key : BitVec 8) (s : StatusRow) : (helperKeyboardHandler key s).uppercase =
    (Interrupt.helperKeyboardHandler key (keyboardOf 0 s)).uppercase :=
  congrArg Keyboard.uppercase (keyboardOf_handler 0 key s)

theorem handler_cell (key : BitVec 8) (s : StatusRow) :
    (helperKeyboardHandler key s).screen.video (keypressAddress + 1) =
      (Interrupt.helperKeyboardHandler key (keyboardOf 0 s)).keyCell.1 :=
  congrArg (fun kb : Keyboard => kb.keyCell.1) (keyboardOf_handler 0 key s)

theorem handler_shift (h : d.shift = decide (s.uppercase ≠ 0)) :
    (d.read key).shift = decide ((helperKeyboardHandler key s).uppercase ≠ 0) := by
  rw [read_shift, handler_uppercase, Interrupt.uppercase_handler]
  by_cases hset : key = 0x2A ∨ key = 0x36
  · rw [if_pos hset, if_pos hset]
    rfl
  · by_cases hclear : key = 0xAA ∨ key = 0xB6
    · rw [if_neg hset, if_neg hset, if_pos hclear, if_pos hclear]
      rfl
    · rw [if_neg hset, if_neg hset, if_neg hclear, if_neg hclear]
      exact h

/-- One code leaves the display right exactly if it spares the letter on it. -/
theorem handler_tracks : Tracks (fun s key => helperKeyboardHandler key s) Display.read ShowsKey SparesCase := by
  intro s d key h
  have hcell : (keyboardOf 0 s).keyCell.1 = d.shown := h.cell
  have hshift : decide ((keyboardOf 0 s).uppercase ≠ 0) = d.shift := h.shift.symm
  have hiff : ShowsKey (helperKeyboardHandler key s) (d.read key) ↔
      (helperKeyboardHandler key s).screen.video (keypressAddress + 1) = (d.read key).shown :=
    ⟨ShowsKey.cell, fun hc => ⟨handler_shift h.shift, hc⟩⟩
  rw [hiff, handler_cell, read_shown]
  by_cases hflag : key ∈ flagCodes
  · have hpress : ¬ isKeyPress key := by
      unfold isKeyPress
      rw [decide_eq_true_eq]
      exact fun h => h.1 hflag
    rw [keyCell_flag _ hflag, if_neg hpress]
    exact iff_of_true hcell fun _ _ => .inl hflag
  · rw [keyCell_default _ hflag, hshift]
    by_cases hpress : isKeyPress key
    · rw [if_pos hpress, if_pos hpress]
      exact iff_of_true rfl fun _ _ => .inr hpress
    · rw [if_neg hpress, if_neg hpress, hcell, cased_eq_iff]
      unfold SparesCase
      rw [or_iff_right hflag]
      exact forall_congr' fun _ => ⟨fun hn hl => absurd hl hn, fun hl hn => hpress (hl hn)⟩

end Handler

/-- The key shown is right after every scan code exactly as long as none that is shown in lower case is
left there while `uppercase` is set and another code arrives than that of a Shift or Ctrl key or of a
key pressed. -/
theorem key_shown_iff (s : StatusRow) (codes : List (BitVec 8)) :
    (∀ pre, pre <+: codes → ShowsKey (run (fun s key => helperKeyboardHandler key s) s pre)
      (run Display.read (displayOf s) pre)) ↔
    ∀ pre key, pre ++ [key] <+: codes → SparesCase (run Display.read (displayOf s) pre) key :=
  handler_tracks.related_iff codes ⟨rfl, rfl⟩

/-- `a` is pressed, Shift is pressed, `a` is released: the letter on the screen turns into a capital. -/
theorem release_raises_letter :
    let codes : List (BitVec 8) := [0x1E, 0x2A, 0x9E]
    let s := booted ⟨fun _ => 0, 0, 0, []⟩
    ¬ ShowsKey (run (fun s key => helperKeyboardHandler key s) s codes)
      (run Display.read (displayOf s) codes) := by
  intro codes s h
  exact absurd h.cell (by decide)

/-! ## Which characters can be shown -/

/-- The character in the cell. -/
def shownKey (s : StatusRow) : BitVec 8 := s.screen.video (keypressAddress + 1)

/-- A character of the map, or the one that was there before, perhaps upper-cased. -/
def Showable (first ch : BitVec 8) : Prop :=
  ∃ shift base, (base = first ∨ base ∈ map ∧ base ≠ 0) ∧ ch = cased shift base

section Showable

variable {s : StatusRow} {first key ch : BitVec 8} {shift : Bool}

theorem cased_or (shift shift' : Bool) (ch : BitVec 8) :
    cased shift (cased shift' ch) = cased (shift || shift') ch := by
  cases shift
  · simp [cased]
  · cases shift'
    · simp [cased]
    · exact cased_cased true ch

theorem shownKey_flag (s : StatusRow) (h : key ∈ flagCodes) :
    shownKey (interrupt s (.keyboard key)) = shownKey s :=
  (handler_cell key s).trans (keyCell_flag (keyboardOf 0 s) h)

theorem shownKey_default (s : StatusRow) (h : key ∉ flagCodes) :
    shownKey (interrupt s (.keyboard key)) =
      cased (s.uppercase ≠ 0) (if isKeyPress key then map.getD key.toNat 0 else shownKey s) :=
  (handler_cell key s).trans (keyCell_default (keyboardOf 0 s) h)

theorem shownKey_timer (s : StatusRow) : shownKey (interrupt s .timer) = shownKey s := by
  refine timer_changes s _ fun hmem => ?_
  exact absurd hmem.1 (by decide)

theorem map_of_press (h : isKeyPress key) : map.getD key.toNat 0 ∈ map ∧ map.getD key.toNat 0 ≠ 0 := by
  unfold isKeyPress at h
  rw [decide_eq_true_eq] at h
  have hlt : key.toNat < map.length := Nat.lt_succ_of_le h.2.1
  refine ⟨?_, h.2.2⟩
  rw [List.getD_eq_getElem _ _ hlt]
  exact List.getElem_mem hlt

/-- What one interrupt shows. -/
theorem showable_step (e : Interruption) (h : Showable first (shownKey s)) :
    Showable first (shownKey (interrupt s e)) := by
  cases e with
  | timer => rwa [shownKey_timer]
  | keyboard key =>
    by_cases hflag : key ∈ flagCodes
    · rwa [shownKey_flag s hflag]
    · rw [shownKey_default s hflag]
      by_cases hpress : isKeyPress key
      · rw [if_pos hpress]
        exact ⟨_, _, .inr (map_of_press hpress), rfl⟩
      · obtain ⟨shift, base, hbase, hshown⟩ := h
        rw [if_neg hpress, hshown, cased_or]
        exact ⟨_, base, hbase, rfl⟩

/-- Shift is pressed or released, and then comes another code. -/
theorem shownKey_shifted (s : StatusRow) (shift : Bool) (h : key ∉ flagCodes) :
    shownKey (run interrupt s [.keyboard (if shift then 0x2A else 0xAA), .keyboard key]) =
      cased shift (if isKeyPress key then map.getD key.toNat 0 else shownKey s) := by
  have hupper : decide ((interrupt s (.keyboard (if shift then 0x2A else 0xAA))).uppercase ≠ 0) = shift := by
    cases shift <;> rfl
  have hsame : shownKey (interrupt s (.keyboard (if shift then 0x2A else 0xAA))) = shownKey s := by
    refine shownKey_flag s ?_
    cases shift <;> simp [flagCodes]
  rw [← hsame]
  refine (shownKey_default _ h).trans ?_
  rw [hupper]

theorem press_of_map {base : BitVec 8} (h : base ∈ map) (hne : base ≠ 0) :
    ∃ key, key ∉ flagCodes ∧ isKeyPress key ∧ map.getD key.toNat 0 = base := by
  have hall : ∀ k : Fin 89, map.getD k 0 ≠ 0 →
      BitVec.ofNat 8 k ∉ flagCodes ∧ isKeyPress (BitVec.ofNat 8 k) ∧ (BitVec.ofNat 8 k).toNat = k := by decide
  obtain ⟨k, hk, rfl⟩ := List.getElem_of_mem h
  rw [← List.getD_eq_getElem _ 0 hk] at hne ⊢
  obtain ⟨hflag, hpress, hnum⟩ := hall ⟨k, hk⟩ hne
  exact ⟨_, hflag, hpress, by rw [hnum]⟩

/-- `o` is only itself, and `O` is also an `o` upper-cased. -/
theorem cased_eq_o (shift : Bool) (ch : BitVec 8) : cased shift ch = 111 ↔ ch = 111 ∧ shift = false := by
  unfold cased isLower
  cases shift <;> simp
  split <;> bv_omega

theorem cased_eq_capital (shift : Bool) (ch : BitVec 8) :
    cased shift ch = 79 ↔ ch = 79 ∨ ch = 111 ∧ shift = true := by
  unfold cased isLower
  cases shift <;> simp
  split <;> bv_omega

theorem map_without_o : (111 : BitVec 8) ∉ map ∧ (79 : BitVec 8) ∉ map := by decide

end Showable

/-- Over all runs of interrupts the cell shows the characters of the map and the one that was there, also
upper-cased, and no others: no key shows an `o`, since the map has a zero in its place. -/
theorem shown_characters (s : StatusRow) :
    (∀ ch, (∃ events, shownKey (run interrupt s events) = ch) ↔ Showable (shownKey s) ch) ∧
    ((∃ events, shownKey (run interrupt s events) = 111) ↔ shownKey s = 111) ∧
    ((∃ events, shownKey (run interrupt s events) = 79) ↔ shownKey s = 79 ∨ shownKey s = 111) := by
  have hiff : ∀ ch, (∃ events, shownKey (run interrupt s events) = ch) ↔ Showable (shownKey s) ch := by
    intro ch
    constructor
    · rintro ⟨events, rfl⟩
      induction events using List.reverseRecOn with
      | nil => exact ⟨false, _, .inl rfl, rfl⟩
      | append_singleton events e ih =>
        rw [Noninterference.run_append]
        exact showable_step e ih
    · rintro ⟨shift, base, rfl | ⟨hmem, hne⟩, rfl⟩
      · have hother : (0x80 : BitVec 8) ∉ flagCodes ∧ ¬ isKeyPress 0x80 := by decide
        exact ⟨_, (shownKey_shifted s shift hother.1).trans (by rw [if_neg hother.2])⟩
      · obtain ⟨key, hflag, hpress, rfl⟩ := press_of_map hmem hne
        exact ⟨_, (shownKey_shifted s shift hflag).trans (by rw [if_pos hpress])⟩
  refine ⟨hiff, ?_, ?_⟩
  · rw [hiff]
    constructor
    · rintro ⟨shift, base, hbase, hch⟩
      obtain ⟨rfl, -⟩ := (cased_eq_o shift base).1 hch.symm
      rcases hbase with hfirst | ⟨hmem, -⟩
      · exact hfirst.symm
      · exact absurd hmem map_without_o.1
    · intro h
      exact ⟨false, 111, .inl h.symm, rfl⟩
  · rw [hiff]
    constructor
    · rintro ⟨shift, base, hbase, hch⟩
      rcases (cased_eq_capital shift base).1 hch.symm with rfl | ⟨rfl, -⟩
      · rcases hbase with hfirst | ⟨hmem, -⟩
        · exact .inl hfirst.symm
        · exact absurd hmem map_without_o.2
      · rcases hbase with hfirst | ⟨hmem, -⟩
        · exact .inr hfirst.symm
        · exact absurd hmem map_without_o.1
    · rintro (h | h)
      · exact ⟨false, 79, .inl h.symm, rfl⟩
      · exact ⟨true, 111, .inl h.symm, rfl⟩

end Sbunix.Console
