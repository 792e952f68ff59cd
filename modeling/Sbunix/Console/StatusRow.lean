/-
The status row below the screen: the banners of `setUpWelcomeScreen` (sys/main.c), the time that the
timer interrupt prints (sys/pit.c, sys/kprintf.c) and the keys that the keyboard interrupt shows
(sys/ps2Controller.c). The two handlers share video memory and nothing else.
-/
import Mathlib.Data.Nat.Digits.Lemmas
import Mathlib.Data.Set.Basic
import Mathlib.Order.CompletePartialOrder
import Mathlib.Order.Interval.Set.Disjoint
import Sbunix.Console.Cells
import Sbunix.Interrupt.Keyboard
import Sbunix.Lib.Noninterference

namespace Sbunix.Console

open Noninterference
open Interrupt (isLower Keyboard)

/-! ## The handlers -/

/-- Video memory, what the handlers keep between interrupts, and how many interrupts have been
acknowledged. -/
structure StatusRow where
  screen : Screen
  pitCount : BitVec 32
  timeInSec : BitVec 64
  uppercase : BitVec 8
  ctrlKey : BitVec 8
  acknowledged : Nat

/-- What pit.c and ps2Controller.c start with. -/
def booted (screen : Screen) : StatusRow := ⟨screen, 0, 1, 0, 0, 0⟩

/-- `"Time :"` -/
def timeString : List (BitVec 8) := [84, 105, 109, 101, 32, 58]

/-- `"Key Press :"` -/
def keypressString : List (BitVec 8) := [75, 101, 121, 32, 80, 114, 101, 115, 115, 32, 58]

def setUpWelcomeScreen (s : StatusRow) : StatusRow :=
  let screen := (putCells timeString (timeAddress - 16) s.screen).2
  { s with screen := (putCells keypressString keypressBanner screen).2 }

/-- The digits, none of them for 0, and `'s'`. -/
def printTime (time : BitVec 32) (s : Screen) : Screen :=
  let (currAddr, s) := putCells (decimalCells time.toNat) timeAddress s
  (putCell 115 currAddr s).2

/-- `time_in_sec` has 64 bits, the parameter of `printTime` 32. -/
def helperCalculateTimer (s : StatusRow) : StatusRow :=
  let s := { s with pitCount := s.pitCount + 1 }
  let s :=
    if s.pitCount % 35 = 0 then
      let timeInSec := s.timeInSec + 1
      { s with timeInSec := timeInSec, screen := printTime ((timeInSec / 100).setWidth 32) s.screen }
    else s
  { s with acknowledged := s.acknowledged + 1 }

/-- `*(address + 1) = ch; *(address + 2) = 0x07;` -/
def StatusRow.put (s : StatusRow) (address : Nat) (ch : BitVec 8) : StatusRow :=
  { s with screen := (putCell ch (address + 1) s.screen).2 }

/-- The default branch of the handler, which reads back what is on the screen. -/
def showKey (key : BitVec 8) (s : StatusRow) : StatusRow :=
  let s := if s.ctrlKey = 0 then s.put ctrlKeypressAddress 0 else s
  let ch := Interrupt.map.getD key.toNat 0
  let s :=
    if key.toNat ≤ 88 ∧ ch ≠ 0 then
      let s := if s.ctrlKey ≠ 0 then s.put ctrlKeypressAddress 94 else s
      if s.uppercase ≠ 0 ∧ isLower ch then s.put keypressAddress (ch - 32) else s.put keypressAddress ch
    else s
  if s.uppercase ≠ 0 ∧ isLower (s.screen.video (keypressAddress + 1)) then
    s.put keypressAddress (s.screen.video (keypressAddress + 1) - 32)
  else s

/-- `key` is what port 0x60 answers. -/
def helperKeyboardHandler (key : BitVec 8) (s : StatusRow) : StatusRow :=
  let s :=
    if key = 0x2A then { s with uppercase := 1 }
    else if key = 0x36 then { s with uppercase := 1 }
    else if key = 0xAA then { s with uppercase := 0 }
    else if key = 0xB6 then { s with uppercase := 0 }
    else if key = 0x1D then { s with ctrlKey := 1 }
    else if key = 0xE0 then { s with ctrlKey := 1 }
    else if key = 0x9D then { s with ctrlKey := 0 }
    else showKey key s
  { s with acknowledged := s.acknowledged + 1 }

inductive Interruption where
  | timer
  | keyboard (key : BitVec 8)

def interrupt (s : StatusRow) : Interruption → StatusRow
  | .timer => helperCalculateTimer s
  | .keyboard key => helperKeyboardHandler key s

def Interruption.isTimer : Interruption → Bool
  | .timer => true
  | .keyboard _ => false

def Interruption.scanCode : Interruption → Option (BitVec 8)
  | .timer => none
  | .keyboard key => some key

/-! ## The regions -/

/-- Ten digits and the `'s'`. -/
def timeCells : Set Nat := Set.Ico timeAddress (timeAddress + 22)

def ctrlCells : Set Nat := Set.Ico (ctrlKeypressAddress + 1) (ctrlKeypressAddress + 3)

def keyCells : Set Nat := Set.Ico (keypressAddress + 1) (keypressAddress + 3)

def timeBannerCells : Set Nat := Set.Ico (timeAddress - 16) (timeAddress - 16 + 2 * timeString.length)

def keypressBannerCells : Set Nat := Set.Ico keypressBanner (keypressBanner + 2 * keypressString.length)

/-- Rows 0 to 23. -/
def rowCells : Set Nat := Set.Ico 0 (maxScreenWidth * maxScreenHeight)

/-- No step of `f` on any screen changes a cell outside `cells`. -/
def ChangesOnly (cells : Set Nat) (f : StatusRow → StatusRow) : Prop :=
  ∀ s, ∀ k ∉ cells, (f s).screen.video k = s.screen.video k

/-! ## What the handlers change -/

section Stores

variable {cells : List (BitVec 8)} {s t : Screen} {a k : Nat}

theorem length_decimalCells (time : BitVec 32) : (decimalCells time.toNat).length ≤ 10 := by
  unfold decimalCells
  rw [List.length_reverse, List.length_map, Nat.digits_length_le_iff (by omega)]
  exact Nat.lt_trans time.isLt (by decide)

/-- Ten digits at most, so that with the `'s'` the time takes 22 bytes. -/
theorem printTime_outside (time : BitVec 32) (s : Screen) (hk : k ∉ timeCells) :
    (printTime time s).video k = s.video k := by
  have hlen := length_decimalCells time
  unfold timeCells at hk
  rw [Set.mem_Ico] at hk
  unfold printTime
  dsimp only
  rw [putCell_video, putCells_fst, if_neg (by omega), if_neg (by omega),
    putCells_outside _ (by rw [Set.mem_Ico]; omega)]

theorem printTime_congr (time : BitVec 32) (h : s.video k = t.video k) :
    (printTime time s).video k = (printTime time t).video k := by
  unfold printTime
  dsimp only
  rw [putCells_fst, putCells_fst]
  exact putCell_congr _ _ (putCells_congr _ _ h)

end Stores

section Handlers

variable {s t : StatusRow} {key : BitVec 8} {k : Nat}

theorem setUpWelcomeScreen_changes : ChangesOnly (keypressBannerCells ∪ timeBannerCells) setUpWelcomeScreen := by
  intro s k hk
  rw [Set.mem_union, not_or] at hk
  unfold setUpWelcomeScreen
  dsimp only
  rw [putCells_outside _ hk.1, putCells_outside _ hk.2]

theorem timer_changes : ChangesOnly timeCells helperCalculateTimer := by
  intro s k hk
  unfold helperCalculateTimer
  dsimp only
  split
  · exact printTime_outside _ _ hk
  · rfl

/-- The handler of Interrupt.Keyboard keeps the cells themselves, here they are read from the screen. -/
def keyboardOf (acknowledged : Nat) (s : StatusRow) : Keyboard where
  uppercase := s.uppercase
  ctrlKey := s.ctrlKey
  ctrlCell := (s.screen.video (ctrlKeypressAddress + 1), s.screen.video (ctrlKeypressAddress + 2))
  keyCell := (s.screen.video (keypressAddress + 1), s.screen.video (keypressAddress + 2))
  acknowledged := acknowledged

theorem keyboardOf_put_ctrl (n : Nat) (ch : BitVec 8) (s : StatusRow) :
    keyboardOf n (s.put ctrlKeypressAddress ch) =
      { keyboardOf n s with ctrlCell := (ch, Interrupt.lightGrey) } := by
  unfold keyboardOf StatusRow.put
  dsimp only
  rw [putCell_video, putCell_video, putCell_video, putCell_video]
  rfl

theorem keyboardOf_put_key (n : Nat) (ch : BitVec 8) (s : StatusRow) :
    keyboardOf n (s.put keypressAddress ch) =
      { keyboardOf n s with keyCell := (ch, Interrupt.lightGrey) } := by
  unfold keyboardOf StatusRow.put
  dsimp only
  rw [putCell_video, putCell_video, putCell_video, putCell_video]
  rfl

theorem keyboardOf_showKey (n : Nat) (key : BitVec 8) (s : StatusRow) :
    keyboardOf n (showKey key s) = Interrupt.showKey key (keyboardOf n s) := by
  -- the three tests, one after the other
  have hclear : ∀ s : StatusRow, keyboardOf n (if s.ctrlKey = 0 then s.put ctrlKeypressAddress 0 else s) =
      if (keyboardOf n s).ctrlKey = 0 then
        { keyboardOf n s with ctrlCell := (0, Interrupt.lightGrey) } else keyboardOf n s := by
    intro s
    rw [apply_ite (keyboardOf n), keyboardOf_put_ctrl]
    rfl
  have hmark : ∀ s : StatusRow, keyboardOf n (if s.ctrlKey ≠ 0 then s.put ctrlKeypressAddress 94 else s) =
      if (keyboardOf n s).ctrlKey ≠ 0 then
        { keyboardOf n s with ctrlCell := (94, Interrupt.lightGrey) } else keyboardOf n s := by
    intro s
    rw [apply_ite (keyboardOf n), keyboardOf_put_ctrl]
    rfl
  have hput : ∀ (s : StatusRow) (ch : BitVec 8), keyboardOf n
        (if s.uppercase ≠ 0 ∧ isLower ch then s.put keypressAddress (ch - 32) else s.put keypressAddress ch) =
      if (keyboardOf n s).uppercase ≠ 0 ∧ isLower ch then
        { keyboardOf n s with keyCell := (ch - 32, Interrupt.lightGrey) }
      else { keyboardOf n s with keyCell := (ch, Interrupt.lightGrey) } := by
    intro s ch
    rw [apply_ite (keyboardOf n), keyboardOf_put_key, keyboardOf_put_key]
    rfl
  have hraise : ∀ s : StatusRow, keyboardOf n
        (if s.uppercase ≠ 0 ∧ isLower (s.screen.video (keypressAddress + 1)) then
          s.put keypressAddress (s.screen.video (keypressAddress + 1) - 32) else s) =
      if (keyboardOf n s).uppercase ≠ 0 ∧ isLower (keyboardOf n s).keyCell.1 then
        { keyboardOf n s with keyCell := ((keyboardOf n s).keyCell.1 - 32, Interrupt.lightGrey) }
      else keyboardOf n s := by
    intro s
    rw [apply_ite (keyboardOf n), keyboardOf_put_key]
    rfl
  unfold showKey Interrupt.showKey
  dsimp only
  rw [hraise, apply_ite (keyboardOf n), hput, hmark, hclear]

/-- The flags and the cells are read and written as the handler of Interrupt.Keyboard does. -/
theorem keyboardOf_handler (n : Nat) (key : BitVec 8) (s : StatusRow) :
    keyboardOf (n + 1) (helperKeyboardHandler key s) = Interrupt.helperKeyboardHandler key (keyboardOf n s) := by
  have hacknowledge : ∀ t : StatusRow, keyboardOf (n + 1) { t with acknowledged := t.acknowledged + 1 } =
      { keyboardOf n t with acknowledged := (keyboardOf n t).acknowledged + 1 } := fun _ => rfl
  unfold helperKeyboardHandler Interrupt.helperKeyboardHandler
  refine (hacknowledge _).trans ?_
  simp only [apply_ite (keyboardOf n), keyboardOf_showKey]
  rfl

theorem put_outside {a : Nat} (ch : BitVec 8) (s : StatusRow) (hk : k ∉ Set.Ico (a + 1) (a + 3)) :
    (s.put a ch).screen.video k = s.screen.video k := by
  rw [Set.mem_Ico] at hk
  unfold StatusRow.put
  rw [putCell_video, if_neg (by omega), if_neg (by omega)]

/-- What each store of the handler keeps, the default branch keeps. -/
theorem showKey_keeps (key : BitVec 8) (P : StatusRow → Prop) (hctrl : ∀ s ch, P s → P (s.put ctrlKeypressAddress ch))
    (hkey : ∀ s ch, P s → P (s.put keypressAddress ch)) (h : P s) : P (showKey key s) := by
  have hite : ∀ {c : Prop} {_ : Decidable c} {s t : StatusRow}, P s → P t → P (if c then s else t) := by
    intro c _ s t hs ht
    split
    · exact hs
    · exact ht
  have hclear : P (if s.ctrlKey = 0 then s.put ctrlKeypressAddress 0 else s) := hite (hctrl s 0 h) h
  have hmark : ∀ s : StatusRow, P s → P (if s.ctrlKey ≠ 0 then s.put ctrlKeypressAddress 94 else s) :=
    fun s h => hite (hctrl s 94 h) h
  have hput : ∀ (s : StatusRow) (ch : BitVec 8), P s → P (if s.uppercase ≠ 0 ∧ isLower ch then
      s.put keypressAddress (ch - 32) else s.put keypressAddress ch) :=
    fun s _ h => hite (hkey s _ h) (hkey s _ h)
  have hraise : ∀ s : StatusRow, P s → P (if s.uppercase ≠ 0 ∧ isLower (s.screen.video (keypressAddress + 1)) then
      s.put keypressAddress (s.screen.video (keypressAddress + 1) - 32) else s) :=
    fun s h => hite (hkey s _ h) h
  unfold showKey
  exact hraise _ (hite (hput _ _ (hmark _ hclear)) hclear)

/-- So does the handler, if it holds whatever the flags are. -/
theorem keyboard_keeps (key : BitVec 8) (P : StatusRow → Prop) (hctrl : ∀ s ch, P s → P (s.put ctrlKeypressAddress ch))
    (hkey : ∀ s ch, P s → P (s.put keypressAddress ch))
    (hflags : ∀ s uppercase ctrlKey acknowledged, P s →
      P { s with uppercase := uppercase, ctrlKey := ctrlKey, acknowledged := acknowledged })
    (h : P s) : P (helperKeyboardHandler key s) := by
  have hshow := showKey_keeps key P hctrl hkey h
  have hacknowledge : ∀ t : StatusRow, P t → P { t with acknowledged := t.acknowledged + 1 } :=
    fun t => hflags t t.uppercase t.ctrlKey _
  unfold helperKeyboardHandler
  refine hacknowledge _ ?_
  split_ifs
  all_goals first
    | exact hshow
    | exact hflags s _ _ s.acknowledged h

theorem keyboard_changes (key : BitVec 8) : ChangesOnly (ctrlCells ∪ keyCells) (helperKeyboardHandler key) := by
  intro s k hk
  rw [Set.mem_union, not_or] at hk
  refine keyboard_keeps key (fun t => t.screen.video k = s.screen.video k) ?_ ?_ (fun _ _ _ _ h => h) rfl
  · exact fun t ch h => (put_outside ch t hk.1).trans h
  · exact fun t ch h => (put_outside ch t hk.2).trans h

theorem keyboard_time (key : BitVec 8) (s : StatusRow) :
    (helperKeyboardHandler key s).pitCount = s.pitCount ∧
      (helperKeyboardHandler key s).timeInSec = s.timeInSec :=
  keyboard_keeps key (fun t => t.pitCount = s.pitCount ∧ t.timeInSec = s.timeInSec) (fun _ _ h => h) (fun _ _ h => h)
    (fun _ _ _ _ h => h) ⟨rfl, rfl⟩

theorem timer_flags (s : StatusRow) : (helperCalculateTimer s).uppercase = s.uppercase ∧
    (helperCalculateTimer s).ctrlKey = s.ctrlKey := by
  unfold helperCalculateTimer
  dsimp only
  constructor
  · split <;> rfl
  · split <;> rfl

end Handlers

/-! ## Separation -/

section Separation

variable {s t : StatusRow} {key : BitVec 8} {k : Nat}

/-- What the timer interrupt reads and writes. -/
structure SameTime (s t : StatusRow) : Prop where
  pitCount : s.pitCount = t.pitCount
  timeInSec : s.timeInSec = t.timeInSec
  cells : ∀ k ∈ timeCells, s.screen.video k = t.screen.video k

/-- What the keyboard interrupt reads and writes. -/
def SameKeys (s t : StatusRow) : Prop := keyboardOf 0 s = keyboardOf 0 t

theorem regions_disjoint : List.Pairwise Disjoint
    [rowCells, keypressBannerCells, ctrlCells, keyCells, timeBannerCells, timeCells] := by
  unfold rowCells keypressBannerCells ctrlCells keyCells timeBannerCells timeCells
  simp only [List.pairwise_cons, List.mem_cons, List.not_mem_nil, or_false, forall_eq_or_imp, forall_eq,
    Set.Ico_disjoint_Ico, false_implies, implies_true, List.Pairwise.nil, and_true]
  decide

theorem timer_consistent (h : SameTime s t) : SameTime (helperCalculateTimer s) (helperCalculateTimer t) := by
  have hcount := h.pitCount
  have hsec := h.timeInSec
  unfold helperCalculateTimer
  dsimp only
  rw [hcount]
  split
  · rw [hsec]
    exact ⟨rfl, rfl, fun k hk => printTime_congr _ (h.cells k hk)⟩
  · exact ⟨rfl, hsec, h.cells⟩

theorem video_keyboardOf (h : SameKeys s t) (hk : k ∈ ctrlCells ∪ keyCells) :
    s.screen.video k = t.screen.video k := by
  unfold SameKeys keyboardOf at h
  rw [Keyboard.mk.injEq, Prod.mk.injEq, Prod.mk.injEq] at h
  obtain ⟨-, -, ⟨hctrl, hctrl'⟩, ⟨hkey, hkey'⟩, -⟩ := h
  unfold ctrlCells keyCells at hk
  rw [Set.mem_union, Set.mem_Ico, Set.mem_Ico] at hk
  rcases hk with ⟨hle, hlt⟩ | ⟨hle, hlt⟩
  · obtain rfl | rfl : k = ctrlKeypressAddress + 1 ∨ k = ctrlKeypressAddress + 2 := by omega
    · exact hctrl
    · exact hctrl'
  · obtain rfl | rfl : k = keypressAddress + 1 ∨ k = keypressAddress + 2 := by omega
    · exact hkey
    · exact hkey'

theorem keyboardOf_timer (s : StatusRow) : keyboardOf 0 (helperCalculateTimer s) = keyboardOf 0 s := by
  obtain ⟨hupper, hctrl⟩ := timer_flags s
  have hcell : ∀ k < timeAddress, (helperCalculateTimer s).screen.video k = s.screen.video k :=
    fun k hk => timer_changes s k fun hmem => Nat.not_le_of_lt hk (Set.mem_Ico.1 hmem).1
  unfold keyboardOf
  rw [hupper, hctrl, hcell _ (by decide), hcell _ (by decide), hcell _ (by decide), hcell _ (by decide)]

theorem keyboard_consistent (h : SameKeys s t) :
    SameKeys (helperKeyboardHandler key s) (helperKeyboardHandler key t) := by
  have hs := keyboardOf_handler 0 key s
  rw [show keyboardOf 0 s = keyboardOf 0 t from h, ← keyboardOf_handler 0 key t] at hs
  exact congrArg (fun kb : Keyboard => { kb with acknowledged := 0 }) hs

theorem unwinding_time : Unwinding interrupt Interruption.isTimer SameTime where
  consistent := by
    intro s t e he h
    cases e with
    | timer => exact timer_consistent h
    | keyboard key => cases he
  respects := by
    intro s t e he h
    cases e with
    | timer => cases he
    | keyboard key =>
      obtain ⟨hcount, hsec⟩ := keyboard_time key s
      refine ⟨hcount.trans h.pitCount, hsec.trans h.timeInSec, fun k hk => ?_⟩
      refine (keyboard_changes key s k ?_).trans (h.cells k hk)
      unfold timeCells at hk
      unfold ctrlCells keyCells
      rw [Set.mem_union, Set.mem_Ico, Set.mem_Ico]
      rw [Set.mem_Ico] at hk
      unfold timeAddress at hk
      unfold ctrlKeypressAddress keypressAddress
      omega

theorem unwinding_keys : Unwinding interrupt (fun e => !e.isTimer) SameKeys where
  consistent := by
    intro s t e he h
    cases e with
    | timer => cases he
    | keyboard key => exact keyboard_consistent h
  respects := by
    intro s t e he h
    cases e with
    | timer => exact (keyboardOf_timer s).trans h
    | keyboard key => cases he

theorem filter_isTimer (events : List Interruption) :
    events.filter Interruption.isTimer = List.replicate (events.countP Interruption.isTimer) .timer := by
  rw [List.countP_eq_length_filter]
  refine List.eq_replicate_of_mem fun e he => ?_
  cases e with
  | timer => rfl
  | keyboard key => exact absurd (List.mem_filter.1 he).2 Bool.false_ne_true

theorem filter_scanCodes : ∀ events : List Interruption,
    (events.filter fun e => !e.isTimer) = (events.filterMap Interruption.scanCode).map .keyboard
  | [] => rfl
  | .timer :: events => filter_scanCodes events
  | .keyboard key :: events => congrArg (Interruption.keyboard key :: ·) (filter_scanCodes events)

/-- After any interleaving the time is what the timer interrupts alone leave and the keys are what the
scan codes alone leave; each handler stays in its own region, and the regions, the banners and the rows
are apart. -/
theorem interrupts_separate (s : StatusRow) (events : List Interruption) :
    (∀ k ∈ timeCells, (run interrupt (setUpWelcomeScreen s) events).screen.video k =
      (run interrupt (setUpWelcomeScreen s)
        (List.replicate (events.countP Interruption.isTimer) .timer)).screen.video k) ∧
    (∀ k ∈ ctrlCells ∪ keyCells, (run interrupt (setUpWelcomeScreen s) events).screen.video k =
      (run interrupt (setUpWelcomeScreen s)
        ((events.filterMap Interruption.scanCode).map .keyboard)).screen.video k) ∧
    (∀ k ∉ timeCells ∪ (ctrlCells ∪ keyCells), (run interrupt (setUpWelcomeScreen s) events).screen.video k =
      (setUpWelcomeScreen s).screen.video k) ∧
    ChangesOnly (keypressBannerCells ∪ timeBannerCells) setUpWelcomeScreen ∧
    ChangesOnly timeCells helperCalculateTimer ∧
    (∀ time, ChangesOnly timeCells fun s => { s with screen := printTime time s.screen }) ∧
    (∀ key, ChangesOnly (ctrlCells ∪ keyCells) (helperKeyboardHandler key)) ∧
    List.Pairwise Disjoint [rowCells, keypressBannerCells, ctrlCells, keyCells, timeBannerCells, timeCells] := by
  refine ⟨?_, ?_, ?_, setUpWelcomeScreen_changes, timer_changes, fun time _ _ hk => printTime_outside time _ hk,
    keyboard_changes, regions_disjoint⟩
  · intro k hk
    have h := unwinding_time.purge events (s := setUpWelcomeScreen s) ⟨rfl, rfl, fun _ _ => rfl⟩
    rw [filter_isTimer] at h
    exact h.cells k hk
  · intro k hk
    have h := unwinding_keys.purge events (s := setUpWelcomeScreen s) rfl
    rw [filter_scanCodes] at h
    exact video_keyboardOf h hk
  · intro k hk
    rw [Set.mem_union, not_or] at hk
    refine run_unchanged (fun s : StatusRow => s.screen.video k) ?_ events _
    intro s e
    cases e with
    | timer => exact timer_changes s k hk.1
    | keyboard key => exact keyboard_changes key s k hk.2

end Separation

end Sbunix.Console
