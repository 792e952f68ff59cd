/-
The keyboard handler (`helper_keyboard_handler` of sys/ps2Controller.c) and the keys that are
pressed and released before it. Every scan code is an interrupt of its own, and the handler keeps
nothing from one to the next but the two flags: the prefix of an extended key looks to it like a
Ctrl key, and each flag stands for two keys.
-/
import Mathlib.Logic.Function.Basic
import Sbunix.Lib.Run

namespace Sbunix.Interrupt

open Transition

/-! ## The handler -/

/-- The flags, the cells of the status row that the handler writes, and how many interrupts it has
acknowledged. -/
structure Keyboard where
  uppercase : BitVec 8
  ctrlKey : BitVec 8
  ctrlCell : BitVec 8 × BitVec 8
  keyCell : BitVec 8 × BitVec 8
  acknowledged : Nat
deriving DecidableEq, Repr

/-- The character of each make code, NUL where there is none. -/
def map : List (BitVec 8) :=
  [0, 0, 49, 50, 51, 52, 53, 54, 55, 56, 57, 48, 45, 61, 8, 9, 113,
    119, 101, 114, 116, 121, 117, 105, 48, 112, 91, 93, 13, 0, 97, 115, 100, 102, 103,
    104, 106, 107, 108, 59, 39, 0, 0, 92, 122, 120, 99, 118, 98, 110, 109, 44, 46,
    47, 0, 42, 0, 32, 0, 112, 113, 114, 115, 116, 117, 118, 119, 120, 121, 0, 0,
    55, 56, 57, 45, 52, 53, 54, 43, 49, 50, 51, 48, 46, 0, 0, 0, 122, 123]

/-- `97 <= ch && ch <= 122` -/
def isLower (ch : BitVec 8) : Bool := 97 ≤ ch ∧ ch ≤ 122

def lightGrey : BitVec 8 := 0x07

/-- The default branch of the handler: the key is shown. -/
def showKey (key : BitVec 8) (s : Keyboard) : Keyboard :=
  let s := if s.ctrlKey = 0 then { s with ctrlCell := (0, lightGrey) } else s
  let ch := map.getD key.toNat 0
  let s :=
    if key.toNat ≤ 88 ∧ ch ≠ 0 then
      let s := if s.ctrlKey ≠ 0 then { s with ctrlCell := (94, lightGrey) } else s
      if s.uppercase ≠ 0 ∧ isLower ch then { s with keyCell := (ch - 32, lightGrey) }
      else { s with keyCell := (ch, lightGrey) }
    else s
  if s.uppercase ≠ 0 ∧ isLower s.keyCell.1 then { s with keyCell := (s.keyCell.1 - 32, lightGrey) } else s

/-- `key` is what port 0x60 answers. -/
def helperKeyboardHandler (key : BitVec 8) (s : Keyboard) : Keyboard :=
  let s :=
    if key = 0x2A then { s with uppercase := 1 }
    else if key = 0x36 then { s with uppercase := 1 }
    else if key = 0xAA then { s with uppercase := 0 }
    else if key = 0xB6 then { s with uppercase := 0 }
    else if key = 0x1D then { s with ctrlKey := 1 }
    else if key = 0xE0 then { s with ctrlKey := 1 }
    else if key = 0x9D then { s with ctrlKey := 0 }
    else showKey key s
  { s with acknowledged := s.acknowledged + 1 }

/-- One interrupt for each scan code. -/
def interrupts (s : Keyboard) (codes : List (BitVec 8)) : Keyboard :=
  codes.foldl (fun s key => helperKeyboardHandler key s) s

/-! ## Keys -/

/-- A key by its make code in scan code set 1, where 0x60 is no key's: its break code would be the
prefix of the extended keys. -/
structure Key where
  extended : Bool
  code : BitVec 8
  code_lt : code.toNat < 0x80
  code_ne : code ≠ 0x60
deriving DecidableEq

def leftCtrl : Key := ⟨false, 0x1D, by decide, by decide⟩
def rightCtrl : Key := ⟨true, 0x1D, by decide, by decide⟩
def leftShift : Key := ⟨false, 0x2A, by decide, by decide⟩
def rightShift : Key := ⟨false, 0x36, by decide, by decide⟩

inductive KeyEvent where
  | press (key : Key)
  | release (key : Key)

def KeyEvent.key : KeyEvent → Key
  | .press key => key
  | .release key => key

def prefixCodes (key : Key) : List (BitVec 8) := if key.extended then [0xE0] else []

def KeyEvent.codes : KeyEvent → List (BitVec 8)
  | .press key => prefixCodes key ++ [key.code]
  | .release key => prefixCodes key ++ [key.code ||| 0x80]

/-- The handler's state and the keys held down. -/
structure Typing where
  keyboard : Keyboard
  held : Key → Bool

def Typing.CtrlHeld (s : Typing) : Prop := s.held leftCtrl ∨ s.held rightCtrl

def Typing.ShiftHeld (s : Typing) : Prop := s.held leftShift ∨ s.held rightShift

/-- A key is pressed, where one held down may repeat its make code, or a key held is released. -/
inductive KeyStep (s : Typing) : KeyEvent → Typing → Prop
  | press (key : Key) : KeyStep s (.press key)
      ⟨interrupts s.keyboard (KeyEvent.press key).codes, Function.update s.held key true⟩
  | release (key : Key) : s.held key → KeyStep s (.release key)
      ⟨interrupts s.keyboard (KeyEvent.release key).codes, Function.update s.held key false⟩

/-- No key is held, both flags are clear. -/
def untouched (ctrlCell keyCell : BitVec 8 × BitVec 8) : Typing :=
  ⟨⟨0, 0, ctrlCell, keyCell, 0⟩, fun _ => false⟩

/-- After each of the event's interrupts `ctrlKey` tells whether a Ctrl key is held. -/
def CtrlRight (s : Typing) (event : KeyEvent) (t : Typing) : Prop :=
  ∀ codes, codes ≠ [] → codes <+: event.codes →
    ((interrupts s.keyboard codes).ctrlKey = 1 ↔ t.CtrlHeld)

/-- The same of `uppercase` and the Shift keys. -/
def ShiftRight (s : Typing) (event : KeyEvent) (t : Typing) : Prop :=
  ∀ codes, codes ≠ [] → codes <+: event.codes →
    ((interrupts s.keyboard codes).uppercase = 1 ↔ t.ShiftHeld)

/-- The right Ctrl key is not released, the left one only when the right one is up, and another
extended key is used only while a Ctrl key is held. -/
def SparesCtrl (s : Typing) (event : KeyEvent) (_ : Typing) : Prop :=
  match event with
  | .press key => key.extended → key = rightCtrl ∨ s.CtrlHeld
  | .release key => key ≠ rightCtrl ∧ (key = leftCtrl → ¬ s.held rightCtrl) ∧
      (key.extended → s.CtrlHeld)

/-- What holds of `ctrlKey` between two events, when all codes of a key have arrived. -/
def CtrlRightBetween (_ : Typing) (_ : KeyEvent) (t : Typing) : Prop := t.keyboard.ctrlKey = 1 ↔ t.CtrlHeld

/-- No Ctrl key is released while the other is held, and another extended key is used only while a
Ctrl key is held. -/
def SparesCtrlBetween (s : Typing) (event : KeyEvent) (_ : Typing) : Prop :=
  (event.key.extended → event.key = rightCtrl ∨ s.CtrlHeld) ∧
    ∀ key, event = .release key → (key = leftCtrl → ¬ s.held rightCtrl) ∧
      (key = rightCtrl → ¬ s.held leftCtrl)

/-- No Shift key is released while the other is held. -/
def SparesShift (s : Typing) (event : KeyEvent) (_ : Typing) : Prop :=
  ∀ key, event = .release key → (key = leftShift → ¬ s.held rightShift) ∧
    (key = rightShift → ¬ s.held leftShift)

/-! ## What a scan code does to the flags -/

section Codes

variable {s : Keyboard} {key c d : BitVec 8} {k : Key}

variable (key s) in
theorem showKey_flags : (showKey key s).uppercase = s.uppercase ∧ (showKey key s).ctrlKey = s.ctrlKey := by
  unfold showKey
  dsimp only
  -- both branches of each test have the flags of `s`
  constructor
  · simp only [apply_ite Keyboard.uppercase, ite_self]
  · simp only [apply_ite Keyboard.ctrlKey, ite_self]

theorem ctrlKey_handler : (helperKeyboardHandler key s).ctrlKey =
    if key = 0x1D ∨ key = 0xE0 then 1 else if key = 0x9D then 0 else s.ctrlKey := by
  have hshow := (showKey_flags s key).2
  unfold helperKeyboardHandler
  dsimp only
  -- the Shift codes first: none of them is a Ctrl code
  by_cases hshift : key = 0x2A ∨ key = 0x36 ∨ key = 0xAA ∨ key = 0xB6
  · rcases hshift with rfl | rfl | rfl | rfl <;> rfl
  · simp only [not_or] at hshift
    obtain ⟨h1, h2, h3, h4⟩ := hshift
    rw [if_neg h1, if_neg h2, if_neg h3, if_neg h4]
    split_ifs <;> simp_all

theorem uppercase_handler : (helperKeyboardHandler key s).uppercase =
    if key = 0x2A ∨ key = 0x36 then 1 else if key = 0xAA ∨ key = 0xB6 then 0 else s.uppercase := by
  have hshow := (showKey_flags s key).1
  unfold helperKeyboardHandler
  dsimp only
  by_cases hctrl : key = 0x1D ∨ key = 0xE0 ∨ key = 0x9D
  · rcases hctrl with rfl | rfl | rfl <;> rfl
  · simp only [not_or] at hctrl
    obtain ⟨h1, h2, h3⟩ := hctrl
    rw [if_neg h1, if_neg h2, if_neg h3]
    split_ifs <;> simp_all

theorem toNat_breakCode (hc : c.toNat < 0x80) : (c ||| 0x80).toNat = 0x80 + c.toNat := by
  rw [BitVec.toNat_or, Nat.or_comm]
  exact (Nat.two_pow_add_eq_or_of_lt (i := 7) hc 1).symm

theorem breakCode_inj (hc : c.toNat < 0x80) (hd : d.toNat < 0x80) : c ||| 0x80 = d ||| 0x80 ↔ c = d := by
  constructor
  · intro h
    have := congrArg BitVec.toNat h
    rw [toNat_breakCode hc, toNat_breakCode hd] at this
    exact BitVec.eq_of_toNat_eq (by omega)
  · rintro rfl
    rfl

theorem breakCode_ne (hc : c.toNat < 0x80) (hd : d.toNat < 0x80) : c ||| 0x80 ≠ d := by
  intro h
  have := congrArg BitVec.toNat h
  rw [toNat_breakCode hc] at this
  omega

theorem ctrlKey_prefixCodes (key : Key) (hp : key.extended = true) :
    (interrupts s (prefixCodes key)).ctrlKey = 1 := by
  rw [prefixCodes, if_pos hp]
  exact ctrlKey_handler

theorem interrupts_append (codes : List (BitVec 8)) :
    interrupts s (codes ++ [c]) = helperKeyboardHandler c (interrupts s codes) := by
  rw [interrupts, List.foldl_append]
  rfl

theorem eq_iff_code {k' : Key} (hx : k.extended = k'.extended) : k = k' ↔ k.code = k'.code := by
  constructor
  · rintro rfl
    rfl
  · intro h
    cases k
    cases k'
    cases hx
    cases h
    rfl

theorem Key.code_ne_break (k : Key) (hd : 0x80 ≤ d.toNat) : k.code ≠ d := by
  rintro rfl
  exact absurd k.code_lt (by omega)

/-- `ctrlKey` after all codes of a press. -/
theorem ctrlKey_press : (interrupts s (KeyEvent.press k).codes).ctrlKey =
    if k.code = 0x1D ∨ k.extended then 1 else s.ctrlKey := by
  have h1 : k.code ≠ 0xE0 := k.code_ne_break (by decide)
  have h2 : k.code ≠ 0x9D := k.code_ne_break (by decide)
  rw [KeyEvent.codes, interrupts_append, ctrlKey_handler, if_neg h2]
  by_cases hx : k.extended = true
  · rw [ctrlKey_prefixCodes k hx, ite_self, if_pos (.inr hx)]
  · rw [prefixCodes, if_neg hx, if_congr (or_iff_left h1) rfl rfl, if_congr (or_iff_left hx) rfl rfl]
    rfl

theorem ctrlKey_release : (interrupts s (KeyEvent.release k).codes).ctrlKey =
    if k.code = 0x1D then 0 else if k.extended then 1 else s.ctrlKey := by
  have h1 : k.code ||| 0x80 ≠ 0x1D := breakCode_ne k.code_lt (by decide)
  have h2 : k.code ||| 0x80 ≠ 0xE0 := fun h =>
    k.code_ne ((breakCode_inj k.code_lt (show (0x60 : BitVec 8).toNat < 0x80 by decide)).1 h)
  have h3 : k.code ||| 0x80 = 0x9D ↔ k.code = 0x1D :=
    breakCode_inj k.code_lt (show (0x1D : BitVec 8).toNat < 0x80 by decide)
  rw [KeyEvent.codes, interrupts_append, ctrlKey_handler, if_neg (not_or.2 ⟨h1, h2⟩),
    if_congr h3 rfl rfl]
  by_cases hx : k.extended = true
  · rw [ctrlKey_prefixCodes k hx, if_pos hx]
  · rw [prefixCodes, if_neg hx, if_neg hx]
    rfl

theorem isShift_iff (hx : k.extended = false) :
    k = leftShift ∨ k = rightShift ↔ k.code = 0x2A ∨ k.code = 0x36 :=
  or_congr (eq_iff_code hx) (eq_iff_code hx)

/-- `uppercase` after the code of a key that is not extended. -/
theorem uppercase_press (hx : k.extended = false) :
    (interrupts s (KeyEvent.press k).codes).uppercase =
      if k = leftShift ∨ k = rightShift then 1 else s.uppercase := by
  have h1 : k.code ≠ 0xAA := k.code_ne_break (by decide)
  have h2 : k.code ≠ 0xB6 := k.code_ne_break (by decide)
  rw [KeyEvent.codes, interrupts_append, uppercase_handler, if_neg (not_or.2 ⟨h1, h2⟩),
    if_congr (isShift_iff hx) rfl rfl, prefixCodes, hx]
  rfl

theorem uppercase_release (hx : k.extended = false) :
    (interrupts s (KeyEvent.release k).codes).uppercase =
      if k = leftShift ∨ k = rightShift then 0 else s.uppercase := by
  have h1 : k.code ||| 0x80 ≠ 0x2A := breakCode_ne k.code_lt (by decide)
  have h2 : k.code ||| 0x80 ≠ 0x36 := breakCode_ne k.code_lt (by decide)
  have h3 : k.code ||| 0x80 = 0xAA ↔ k.code = 0x2A :=
    breakCode_inj k.code_lt (show (0x2A : BitVec 8).toNat < 0x80 by decide)
  have h4 : k.code ||| 0x80 = 0xB6 ↔ k.code = 0x36 :=
    breakCode_inj k.code_lt (show (0x36 : BitVec 8).toNat < 0x80 by decide)
  rw [KeyEvent.codes, interrupts_append, uppercase_handler, if_neg (not_or.2 ⟨h1, h2⟩),
    if_congr (or_congr h3 h4) rfl rfl, if_congr (isShift_iff hx) rfl rfl, prefixCodes, hx]
  rfl

/-- What holds after every interrupt of an event holds after its prefix, if it has one, and after
its last code. -/
theorem after_codes_iff (P : Keyboard → Prop) (key : Key) (code : BitVec 8) :
    (∀ codes, codes ≠ [] → codes <+: prefixCodes key ++ [code] → P (interrupts s codes)) ↔
      (key.extended = true → P (interrupts s (prefixCodes key))) ∧
        P (interrupts s (prefixCodes key ++ [code])) := by
  by_cases hx : key.extended = true
  · rw [prefixCodes, if_pos hx, List.singleton_append]
    constructor
    · intro h
      exact ⟨fun _ => h _ (by simp) ⟨[code], rfl⟩, h _ (by simp) (List.prefix_refl _)⟩
    · rintro ⟨h1, h2⟩ codes hne hp
      rcases List.prefix_cons_iff.1 hp with rfl | ⟨t, rfl, ht⟩
      · exact absurd rfl hne
      · rcases List.prefix_cons_iff.1 ht with rfl | ⟨t', rfl, ht'⟩
        · exact h1 hx
        · rw [List.prefix_nil.1 ht']
          exact h2
  · rw [prefixCodes, if_neg hx, List.nil_append]
    constructor
    · intro h
      exact ⟨fun h' => absurd h' hx, h _ (by simp) (List.prefix_refl _)⟩
    · rintro ⟨-, h2⟩ codes hne hp
      rcases List.prefix_cons_iff.1 hp with rfl | ⟨t, rfl, ht⟩
      · exact absurd rfl hne
      · rw [List.prefix_nil.1 ht]
        exact h2

end Codes

/-! ## Runs -/

section Runs

variable {s t : Typing} {event : KeyEvent} {k : Key} {s' : Keyboard}

theorem held_press (held : Key → Bool) (a b : Key) :
    (Function.update held k true a ∨ Function.update held k true b) ↔
      (k = a ∨ k = b) ∨ held a ∨ held b := by
  rw [Function.update_apply, Function.update_apply]
  by_cases h1 : a = k
  · simp [h1]
  · by_cases h2 : b = k
    · simp [h2]
    · simp [h1, h2, Ne.symm h1, Ne.symm h2]

theorem held_release (held : Key → Bool) (a b : Key) :
    (Function.update held k false a ∨ Function.update held k false b) ↔
      k ≠ a ∧ held a ∨ k ≠ b ∧ held b := by
  rw [Function.update_apply, Function.update_apply]
  by_cases h1 : a = k
  · by_cases h2 : b = k
    · simp [h1, h2]
    · simp [h1, h2, Ne.symm h2]
  · by_cases h2 : b = k
    · simp [h1, h2, Ne.symm h1]
    · simp [h1, h2, Ne.symm h1, Ne.symm h2]

theorem ctrlHeld_press : (Typing.mk s' (Function.update s.held k true)).CtrlHeld ↔
    (k = leftCtrl ∨ k = rightCtrl) ∨ s.CtrlHeld := held_press _ _ _

/-- Releasing a key that is not Ctrl does not matter; releasing one of the two leaves the other. -/
theorem ctrlHeld_release : (Typing.mk s' (Function.update s.held k false)).CtrlHeld ↔
    k ≠ leftCtrl ∧ s.held leftCtrl ∨ k ≠ rightCtrl ∧ s.held rightCtrl := held_release _ _ _

theorem shiftHeld_press : (Typing.mk s' (Function.update s.held k true)).ShiftHeld ↔
    (k = leftShift ∨ k = rightShift) ∨ s.ShiftHeld := held_press _ _ _

theorem shiftHeld_release : (Typing.mk s' (Function.update s.held k false)).ShiftHeld ↔
    k ≠ leftShift ∧ s.held leftShift ∨ k ≠ rightShift ∧ s.held rightShift := held_release _ _ _

theorem code_ctrl_iff : k.code = 0x1D ↔ k = leftCtrl ∨ k = rightCtrl := by
  constructor
  · intro h
    by_cases hx : k.extended = true
    · exact .inr ((eq_iff_code hx).2 h)
    · exact .inl ((eq_iff_code (Bool.eq_false_iff.2 hx)).2 h)
  · rintro (rfl | rfl) <;> rfl

theorem uppercase_press_iff (hx : k.extended = false) :
    (interrupts s.keyboard (KeyEvent.press k).codes).uppercase = 1 ↔
      (k = leftShift ∨ k = rightShift) ∨ s.keyboard.uppercase = 1 := by
  rw [uppercase_press hx]
  split
  · next h => exact iff_of_true rfl (.inl h)
  · next h => exact (or_iff_right h).symm

theorem uppercase_release_iff (hx : k.extended = false) :
    (interrupts s.keyboard (KeyEvent.release k).codes).uppercase = 1 ↔
      ¬ (k = leftShift ∨ k = rightShift) ∧ s.keyboard.uppercase = 1 := by
  rw [uppercase_release hx]
  split
  · next h => exact iff_of_false (by decide) fun h' => h'.1 h
  · next h => exact (and_iff_right h).symm

theorem ctrlKey_press_iff : (interrupts s.keyboard (KeyEvent.press k).codes).ctrlKey = 1 ↔
    (k = leftCtrl ∨ k = rightCtrl) ∨ k.extended ∨ s.keyboard.ctrlKey = 1 := by
  rw [ctrlKey_press, ← code_ctrl_iff, ← or_assoc]
  split
  · next h => exact iff_of_true rfl (.inl h)
  · next h => exact (or_iff_right h).symm

theorem ctrlKey_release_iff : (interrupts s.keyboard (KeyEvent.release k).codes).ctrlKey = 1 ↔
    ¬ (k = leftCtrl ∨ k = rightCtrl) ∧ (k.extended ∨ s.keyboard.ctrlKey = 1) := by
  rw [ctrlKey_release, ← code_ctrl_iff]
  split
  · next h => simp [h]
  · next h =>
    rw [and_iff_right h]
    split
    · next hx => simp [hx]
    · next hx => simp [hx]

/-- A key pressed makes the flag say of Ctrl what is so, unless its prefix sets the flag alone. -/
theorem press_agrees_iff {held : Prop} :
    ((k = leftCtrl ∨ k = rightCtrl) ∨ k.extended ∨ held ↔ (k = leftCtrl ∨ k = rightCtrl) ∨ held) ↔
      (k.extended → k = rightCtrl ∨ held) := by
  have hleft : k = leftCtrl → ¬ k.extended := by rintro rfl; simp [leftCtrl]
  constructor
  · intro h hx
    rcases h.1 (.inr (.inl hx)) with (hk | hk) | hh
    · exact absurd hx (hleft hk)
    · exact .inl hk
    · exact .inr hh
  · intro h
    constructor
    · rintro (hk | hx | hh)
      · exact .inl hk
      · exact (h hx).imp_left .inr
      · exact .inr hh
    · exact Or.imp_right .inr

/-- Clearing the flag for either of two keys is right unless the other one is still held. -/
theorem release_agrees_iff {a b : Key} {heldA heldB : Prop} (hab : a ≠ b) :
    (¬ (k = a ∨ k = b) ∧ (heldA ∨ heldB) ↔ k ≠ a ∧ heldA ∨ k ≠ b ∧ heldB) ↔
      (k = a → ¬ heldB) ∧ (k = b → ¬ heldA) := by
  constructor
  · intro h
    constructor
    · rintro rfl hb
      exact (h.2 (.inr ⟨hab, hb⟩)).1 (.inl rfl)
    · rintro rfl ha
      exact (h.2 (.inl ⟨hab.symm, ha⟩)).1 (.inr rfl)
  · rintro ⟨ha, hb⟩
    constructor
    · rintro ⟨hk, hh⟩
      rw [not_or] at hk
      exact hh.imp (fun hh => ⟨hk.1, hh⟩) fun hh => ⟨hk.2, hh⟩
    · rintro (⟨hne, hh⟩ | ⟨hne, hh⟩)
      · exact ⟨not_or.2 ⟨hne, fun he => hb he hh⟩, .inl hh⟩
      · exact ⟨not_or.2 ⟨fun he => ha he hh, hne⟩, .inr hh⟩

theorem leftCtrl_ne_rightCtrl : leftCtrl ≠ rightCtrl := by simp [leftCtrl, rightCtrl]

theorem leftShift_ne_rightShift : leftShift ≠ rightShift := by simp [leftShift, rightShift]

/-- Where the prefix sets the flag only while Ctrl is held, it does not matter to the release. -/
theorem release_prefix_iff {heldA heldB : Prop} (hx : k.extended → k = rightCtrl ∨ heldA ∨ heldB) :
    (¬ (k = leftCtrl ∨ k = rightCtrl) ∧ (k.extended ∨ heldA ∨ heldB)) ↔
      ¬ (k = leftCtrl ∨ k = rightCtrl) ∧ (heldA ∨ heldB) := by
  refine and_congr_right fun hk => ?_
  constructor
  · rintro (he | hh)
    · exact (hx he).resolve_left fun hr => hk (.inr hr)
    · exact hh
  · exact .inr

/-- One event leaves the flag right at every interrupt exactly if it spares it, and the flag starts
the next event right then. -/
theorem ctrlRight_iff (h : s.keyboard.ctrlKey = 1 ↔ s.CtrlHeld) (hstep : KeyStep s event t) :
    (CtrlRight s event t ↔ SparesCtrl s event t) ∧
      (CtrlRight s event t → (t.keyboard.ctrlKey = 1 ↔ t.CtrlHeld)) := by
  cases hstep with
  | press k =>
    have hpre : k.extended → (interrupts s.keyboard (prefixCodes k)).ctrlKey = 1 := ctrlKey_prefixCodes k
    unfold CtrlRight SparesCtrl
    rw [KeyEvent.codes, after_codes_iff fun s => s.ctrlKey = 1 ↔ _, ← KeyEvent.codes, ctrlKey_press_iff,
      ctrlHeld_press, h]
    dsimp only
    refine ⟨?_, fun hr => hr.2⟩
    rw [press_agrees_iff]
    constructor
    · exact fun hr => hr.2
    · intro hs
      exact ⟨fun hx => iff_of_true (hpre hx) ((hs hx).imp_left .inr), hs⟩
  | release k hk =>
    have hpre : k.extended → (interrupts s.keyboard (prefixCodes k)).ctrlKey = 1 := ctrlKey_prefixCodes k
    unfold CtrlRight SparesCtrl
    rw [KeyEvent.codes, after_codes_iff fun s => s.ctrlKey = 1 ↔ _, ← KeyEvent.codes, ctrlKey_release_iff,
      ctrlHeld_release, h]
    dsimp only
    refine ⟨?_, fun hr => hr.2⟩
    unfold Typing.CtrlHeld
    constructor
    · rintro ⟨h1, h2⟩
      -- after the prefix of an extended key the flag is set
      have hheld : k.extended → k ≠ leftCtrl ∧ s.held leftCtrl ∨ k ≠ rightCtrl ∧ s.held rightCtrl :=
        fun hx => (h1 hx).1 (hpre hx)
      have hany : k.extended → s.held leftCtrl ∨ s.held rightCtrl := fun hx =>
        (hheld hx).imp And.right And.right
      rw [release_prefix_iff fun hx => .inr (hany hx), release_agrees_iff leftCtrl_ne_rightCtrl] at h2
      refine ⟨?_, h2.1, hany⟩
      rintro rfl
      rcases hheld rfl with ⟨-, hl⟩ | ⟨hne, -⟩
      · exact h2.2 rfl hl
      · exact hne rfl
    · rintro ⟨hright, hleft, hheld⟩
      rw [release_prefix_iff fun hx => .inr (hheld hx), release_agrees_iff leftCtrl_ne_rightCtrl]
      refine ⟨fun hx => iff_of_true (hpre hx) ?_, hleft, fun he => absurd he hright⟩
      have hne : k ≠ leftCtrl := by rintro rfl; cases hx
      exact (hheld hx).imp (fun hh => ⟨hne, hh⟩) fun hh => ⟨hright, hh⟩

theorem ctrlRightBetween_iff (h : s.keyboard.ctrlKey = 1 ↔ s.CtrlHeld) (hstep : KeyStep s event t) :
    CtrlRightBetween s event t ↔ SparesCtrlBetween s event t := by
  unfold CtrlRightBetween SparesCtrlBetween
  cases hstep with
  | press k =>
    rw [ctrlKey_press_iff, ctrlHeld_press, h, press_agrees_iff]
    constructor
    · intro hr
      exact ⟨hr, fun key hk => (by cases hk)⟩
    · exact And.left
  | release k hk =>
    rw [ctrlKey_release_iff, ctrlHeld_release, h]
    unfold Typing.CtrlHeld
    constructor
    · intro hr
      have hx : k.extended → k = rightCtrl ∨ s.held leftCtrl ∨ s.held rightCtrl := by
        intro hx
        by_cases hright : k = rightCtrl
        · exact .inl hright
        · have hleft : k ≠ leftCtrl := by rintro rfl; cases hx
          exact .inr ((hr.1 ⟨not_or.2 ⟨hleft, hright⟩, .inl hx⟩).imp And.right And.right)
      rw [release_prefix_iff hx, release_agrees_iff leftCtrl_ne_rightCtrl] at hr
      refine ⟨hx, ?_⟩
      rintro key ⟨⟩
      exact hr
    · rintro ⟨hx, hs⟩
      rw [release_prefix_iff (k := k) hx, release_agrees_iff leftCtrl_ne_rightCtrl]
      exact hs k rfl

/-- Among the keys that are not extended, a Shift key released while the other is held is all that
makes `uppercase` wrong. -/
theorem shiftRight_iff (h : s.keyboard.uppercase = 1 ↔ s.ShiftHeld) (hx : event.key.extended = false)
    (hstep : KeyStep s event t) : (ShiftRight s event t ↔ SparesShift s event t) ∧
      (ShiftRight s event t → (t.keyboard.uppercase = 1 ↔ t.ShiftHeld)) := by
  cases hstep with
  | press k =>
    have hk : k.extended = false := hx
    have hnot : ¬ k.extended = true := by rw [hk]; exact Bool.false_ne_true
    unfold ShiftRight SparesShift
    rw [KeyEvent.codes, after_codes_iff fun s => s.uppercase = 1 ↔ _, ← KeyEvent.codes,
      uppercase_press_iff hk, shiftHeld_press, h]
    refine ⟨iff_of_true ⟨fun hx' => absurd hx' hnot, Iff.rfl⟩ ?_, fun _ => Iff.rfl⟩
    intro key hk
    cases hk
  | release k _ =>
    have hk : k.extended = false := hx
    have hnot : ¬ k.extended = true := by rw [hk]; exact Bool.false_ne_true
    unfold ShiftRight SparesShift
    rw [KeyEvent.codes, after_codes_iff fun s => s.uppercase = 1 ↔ _, ← KeyEvent.codes,
      uppercase_release_iff hk, shiftHeld_release, h]
    refine ⟨?_, fun hr => hr.2⟩
    rw [Typing.ShiftHeld, release_agrees_iff leftShift_ne_rightShift]
    constructor
    · rintro ⟨-, hr⟩ key ⟨⟩
      exact hr
    · exact fun hs => ⟨fun hx' => absurd hx' hnot, hs k rfl⟩

end Runs

/-- The events of keys that are not extended. -/
abbrev PlainStep : Typing → KeyEvent → Typing → Prop :=
  Restrict KeyStep fun _ event _ => event.key.extended = false

variable (ctrlCell keyCell : BitVec 8 × BitVec 8) (events : List KeyEvent) (t : Typing)

/-- `ctrlKey` is right at every interrupt of a run exactly if every event spares it. -/
theorem ctrl_right_iff : Run (Restrict KeyStep CtrlRight) (untouched ctrlCell keyCell) events t ↔
    Run (Restrict KeyStep SparesCtrl) (untouched ctrlCell keyCell) events t := by
  apply Run.restrict_iff fun s => s.keyboard.ctrlKey = 1 ↔ s.CtrlHeld
  · exact iff_of_false (by simp [untouched]) (by simp [Typing.CtrlHeld, untouched])
  · exact fun s event t h hstep => (ctrlRight_iff h hstep).1
  · exact fun s event t h hstep => (ctrlRight_iff h hstep).2

/-- The weaker condition under which it is right whenever all codes of a key have arrived. -/
theorem ctrl_right_between_iff :
    Run (Restrict KeyStep CtrlRightBetween) (untouched ctrlCell keyCell) events t ↔
      Run (Restrict KeyStep SparesCtrlBetween) (untouched ctrlCell keyCell) events t := by
  apply Run.restrict_iff fun s => s.keyboard.ctrlKey = 1 ↔ s.CtrlHeld
  · exact iff_of_false (by simp [untouched]) (by simp [Typing.CtrlHeld, untouched])
  · exact fun s event t h hstep => ctrlRightBetween_iff h hstep
  · exact fun s event t _ _ hr => hr

/-- The same for `uppercase` with the keys that are not extended. -/
theorem shift_right_iff : Run (Restrict PlainStep ShiftRight) (untouched ctrlCell keyCell) events t ↔
    Run (Restrict PlainStep SparesShift) (untouched ctrlCell keyCell) events t := by
  apply Run.restrict_iff fun s => s.keyboard.uppercase = 1 ↔ s.ShiftHeld
  · exact iff_of_false (by simp [untouched]) (by simp [Typing.ShiftHeld, untouched])
  · exact fun s event t h hstep => (shiftRight_iff h hstep.2 hstep.1).1
  · exact fun s event t h hstep => (shiftRight_iff h hstep.2 hstep.1).2

/-- The cursor key `↑`, 0xE0 0x48. -/
def cursorUp : Key := ⟨true, 0x48, by decide, by decide⟩

/-- A cursor key leaves `ctrlKey` set. -/
theorem cursor_sets_ctrl : ∃ t,
    Run KeyStep (untouched (0, 0) (0, 0)) [.press cursorUp, .release cursorUp] t ∧
      t.keyboard.ctrlKey = 1 ∧ ¬ t.CtrlHeld := by
  refine ⟨_, (Run.nil.snoc (.press cursorUp)).snoc (.release cursorUp (by decide)), by decide, ?_⟩
  rintro (h | h) <;> exact absurd h (by decide)

/-- Of two Shift keys the first one released clears `uppercase`. -/
theorem first_release_clears : ∃ t, Run PlainStep (untouched (0, 0) (0, 0))
      [.press leftShift, .press rightShift, .release leftShift] t ∧
    t.keyboard.uppercase = 0 ∧ t.ShiftHeld := by
  refine ⟨_, ((Run.nil.snoc ⟨.press leftShift, rfl⟩).snoc ⟨.press rightShift, rfl⟩).snoc
    ⟨.release leftShift (by decide), rfl⟩, by decide, .inr (by decide)⟩

end Sbunix.Interrupt
