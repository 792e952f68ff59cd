/-
`kprintf` (sys/kprintf.c): the cursor, the scrolling, what each directive prints, and the scan of the
format. Stores to video memory are noted, the last one first.

Whether the cursor has left row 23 is looked at once for a directive, not once for a cell.
-/
import Mathlib.Data.Nat.Digits.Defs
import Sbunix.Lib.Fallible
import Sbunix.Console.Video

namespace Sbunix.Console

open Fallible

/-! ## The cursor -/

structure Screen where
  video : Video
  currentHeight : Nat
  currentWidth : Nat
  stored : List Nat

def Screen.store (s : Screen) (address : Nat) (v : BitVec 8) : Screen :=
  { s with video := s.video.store address v, stored := address :: s.stored }

/-- `baseAddr[i * MAX_SCREEN_WIDTH + j] = baseAddr[(i + 1) * MAX_SCREEN_WIDTH + j];` over all but the
last row. -/
def copyRows (s : Screen) : Screen :=
  (List.range (maxScreenHeight - 1)).foldl (fun s i =>
    (List.range maxScreenWidth).foldl (fun s j =>
      s.store (i * maxScreenWidth + j) (s.video ((i + 1) * maxScreenWidth + j))) s) s

def blankRow (s : Screen) : Screen :=
  (List.range maxScreenWidth).foldl (fun s index =>
    if index % 2 = 0 then
      (s.store (23 * maxScreenWidth + index) 0).store (23 * maxScreenWidth + index + 1) lightGrey
    else s) s

def getCurrentAddress (s : Screen) : Nat × Screen :=
  let s :=
    if s.currentHeight > 23 then blankRow { copyRows s with currentHeight := 23, currentWidth := 0 }
    else s
  (s.currentHeight * maxScreenWidth + s.currentWidth, s)

def updateHeightWidth (currAddr : Nat) (s : Screen) : Screen :=
  { s with currentHeight := currAddr / maxScreenWidth, currentWidth := currAddr % maxScreenWidth }

/-! ## What is printed -/

/-- `*currAddr++ = ch; *currAddr++ = 0x07;` -/
def putCell (ch : BitVec 8) (currAddr : Nat) (s : Screen) : Nat × Screen :=
  (currAddr + 2, (s.store currAddr ch).store (currAddr + 1) lightGrey)

/-- The cells of a text one after the other. -/
def putCells : List (BitVec 8) → Nat → Screen → Nat × Screen
  | [], currAddr, s => (currAddr, s)
  | ch :: text, currAddr, s =>
    let (currAddr, s) := putCell ch currAddr s
    putCells text currAddr s

def handleNewLine (s : Screen) : Screen :=
  (getCurrentAddress { s with currentHeight := s.currentHeight + 1, currentWidth := 0 }).2

/-- `'\n'` -/
def newLineChar : BitVec 8 := 10

def handleEverythingElse (fmt : BitVec 8) (currAddr : Nat) (s : Screen) : Screen :=
  if fmt = newLineChar then handleNewLine s
  else
    let (currAddr, s) := putCell fmt currAddr s
    updateHeightWidth currAddr s

def handleChar (ch : BitVec 8) (currAddr : Nat) (s : Screen) : Screen :=
  let (currAddr, s) := putCell ch currAddr s
  updateHeightWidth currAddr s

/-- `while (*str != 0)`, with the bytes of the string up to its NUL. -/
def stringLoop : List (BitVec 8) → Nat → Screen → Nat × Screen
  | [], currAddr, s => (currAddr, s)
  | ch :: str, currAddr, s =>
    if ch ≠ 0 then
      let (currAddr, s) := putCell ch currAddr s
      stringLoop str currAddr s
    else (currAddr, s)

def handleString (str : List (BitVec 8)) (currAddr : Nat) (s : Screen) : Screen :=
  let (currAddr, s) := stringLoop str currAddr s
  updateHeightWidth currAddr s

/-- `0x30` -/
def zeroHex : BitVec 8 := 0x30

/-- `ch[numdigits++] = num % 10; num = num / 10;` while `num > 0`: the low digit comes first, and it
is printed last. -/
def decimalCells (num : Nat) : List (BitVec 8) :=
  ((Nat.digits 10 num).map fun d => zeroHex + BitVec.ofNat 8 d).reverse

/-- `INT_MIN` has no negative: it stays what it is, and no digit is printed. -/
def handleSignedInt (argVal : BitVec 32) (currAddr : Nat) (s : Screen) : Screen :=
  if argVal = 0 then
    let (currAddr, s) := putCell zeroHex currAddr s
    updateHeightWidth currAddr s
  else
    let (num, currAddr, s) :=
      if argVal.toInt < 0 then
        let (currAddr, s) := putCell 0x2d currAddr s
        (-argVal, currAddr, s)
      else (argVal, currAddr, s)
    let (currAddr, s) := putCells (decimalCells num.toInt.toNat) currAddr s
    updateHeightWidth currAddr s

/-- `%x`, in decimal. -/
def handleUnsignedInt (argVal : BitVec 32) (currAddr : Nat) (s : Screen) : Screen :=
  if argVal = 0 then
    let (currAddr, s) := putCell zeroHex currAddr s
    updateHeightWidth currAddr s
  else
    let (currAddr, s) := putCells (decimalCells argVal.toNat) currAddr s
    updateHeightWidth currAddr s

def hexDigit (rem : Nat) : BitVec 8 := if rem < 10 then BitVec.ofNat 8 (48 + rem) else BitVec.ofNat 8 (55 + rem)

/-- The digits in `ch`, and printed from `ch[i]` on, which is behind the last of them and 0. -/
def handleAddress (addr : BitVec 64) (currAddr : Nat) (s : Screen) : Screen :=
  if addr = 0 then
    let (currAddr, s) := putCell zeroHex currAddr s
    updateHeightWidth currAddr s
  else
    let ch := (Nat.digits 16 addr.toNat).map hexDigit
    let (currAddr, s) := putCells (ch ++ [0]).reverse currAddr s
    updateHeightWidth currAddr s

/-! ## The scan of the format -/

/-- A variadic argument: the bytes of a string up to its NUL, an `int` or `unsigned int`, an address. -/
inductive Arg where
  | str (str : List (BitVec 8))
  | int (argVal : BitVec 32)
  | addr (addr : BitVec 64)

inductive KprintfFault where
  | pastFormat
  | noArgument
deriving DecidableEq, Repr

/-- `'%'` -/
def percent : BitVec 8 := 37

/-- The character after a `'%'`; other letters print nothing and take no argument. -/
def directive (letter : BitVec 8) (apList : List Arg) (s : Screen) :
    Except KprintfFault (List Arg × Screen) :=
  let current := getCurrentAddress s
  if letter = 115 then -- 's'
    match apList with
    | .str str :: apList => .ok (apList, handleString str current.1 current.2)
    | _ => .error .noArgument
  else if letter = 100 then -- 'd'
    match apList with
    | .int argVal :: apList => .ok (apList, handleSignedInt argVal current.1 current.2)
    | _ => .error .noArgument
  else if letter = 120 then -- 'x'
    match apList with
    | .int argVal :: apList => .ok (apList, handleUnsignedInt argVal current.1 current.2)
    | _ => .error .noArgument
  else if letter = 99 then -- 'c'
    match apList with
    | .int argVal :: apList => .ok (apList, handleChar (argVal.setWidth 8) current.1 current.2)
    | _ => .error .noArgument
  else if letter = 112 then -- 'p'
    match apList with
    | .addr addr :: apList => .ok (apList, handleAddress addr current.1 current.2)
    | _ => .error .noArgument
  else .ok (apList, s)

/-- The bytes are those from `fmt` on, the NUL and what stands behind it included: after a `'%'` the
scan steps over the next byte, whichever it is. -/
def kprintfLoop : List (BitVec 8) → List Arg → Screen → Except KprintfFault (List Arg × Screen)
  | [], _, _ => .error .pastFormat
  | ch :: fmt, apList, s =>
    if ch = 0 then .ok (apList, s)
    else if ch = percent then
      match fmt with
      | [] => .error .pastFormat
      | letter :: fmt => do
        let (apList, s) ← directive letter apList s
        kprintfLoop fmt apList s
    else
      let (currAddr, s) := getCurrentAddress s
      kprintfLoop fmt apList (handleEverythingElse ch currAddr s)

/-- A call with the bytes of its format and its arguments. -/
structure Call where
  fmt : List (BitVec 8)
  args : List Arg

def kprintf (call : Call) (s : Screen) : Except KprintfFault Screen := do
  let (_, s) ← kprintfLoop call.fmt call.args s
  return s

def kprintfs (s : Screen) (calls : List Call) : Except KprintfFault Screen :=
  calls.foldlM (fun s call => kprintf call s) s

/-! ## What is printed, apart from where -/

/-- A newline of the format, or the cells of a directive or a character. -/
inductive Item where
  | newline
  | text (cells : List (BitVec 8))

def signedCells (argVal : BitVec 32) : List (BitVec 8) :=
  if argVal = 0 then [zeroHex]
  else if argVal.toInt < 0 then 0x2d :: decimalCells (-argVal).toInt.toNat
  else decimalCells argVal.toInt.toNat

def unsignedCells (argVal : BitVec 32) : List (BitVec 8) :=
  if argVal = 0 then [zeroHex] else decimalCells argVal.toNat

def addressCells (addr : BitVec 64) : List (BitVec 8) :=
  if addr = 0 then [zeroHex] else (((Nat.digits 16 addr.toNat).map hexDigit) ++ [0]).reverse

/-- The cells of a directive, and the arguments it leaves. -/
def directiveItems (letter : BitVec 8) (apList : List Arg) : Except KprintfFault (List Arg × List Item) :=
  if letter = 115 then
    match apList with
    | .str str :: apList => .ok (apList, [.text (str.takeWhile (· ≠ 0))])
    | _ => .error .noArgument
  else if letter = 100 then
    match apList with
    | .int argVal :: apList => .ok (apList, [.text (signedCells argVal)])
    | _ => .error .noArgument
  else if letter = 120 then
    match apList with
    | .int argVal :: apList => .ok (apList, [.text (unsignedCells argVal)])
    | _ => .error .noArgument
  else if letter = 99 then
    match apList with
    | .int argVal :: apList => .ok (apList, [.text [argVal.setWidth 8]])
    | _ => .error .noArgument
  else if letter = 112 then
    match apList with
    | .addr addr :: apList => .ok (apList, [.text (addressCells addr)])
    | _ => .error .noArgument
  else .ok (apList, [])

def charItem (ch : BitVec 8) : Item := if ch = newLineChar then .newline else .text [ch]

/-- What a format prints with its arguments. -/
def items : List (BitVec 8) → List Arg → Except KprintfFault (List Item)
  | [], _ => .error .pastFormat
  | ch :: fmt, apList =>
    if ch = 0 then .ok []
    else if ch = percent then
      match fmt with
      | [] => .error .pastFormat
      | letter :: fmt => do
        let (apList, printed) ← directiveItems letter apList
        return printed ++ (← items fmt apList)
    else do
      return charItem ch :: (← items fmt apList)

/-- Cells printed from the cursor on. -/
def emit (text : List (BitVec 8)) (s : Screen) : Screen :=
  let (currAddr, s) := getCurrentAddress s
  let (currAddr, s) := putCells text currAddr s
  updateHeightWidth currAddr s

def perform (s : Screen) : Item → Screen
  | .newline => handleNewLine (getCurrentAddress s).2
  | .text cells => emit cells s

section Items

variable {s : Screen} {a : Nat} {apList : List Arg}

theorem stringLoop_eq : ∀ (str : List (BitVec 8)) (a : Nat) (s : Screen),
    stringLoop str a s = putCells (str.takeWhile (· ≠ 0)) a s
  | [], _, _ => rfl
  | ch :: str, a, s => by
    rw [stringLoop]
    by_cases h : ch = 0
    · rw [if_neg (not_not.2 h), List.takeWhile_cons_of_neg (by simp [h])]
      rfl
    · rw [if_pos h, List.takeWhile_cons_of_pos (by simpa using h)]
      exact stringLoop_eq str _ _

theorem handleString_eq (str : List (BitVec 8)) : handleString str a s = updateHeightWidth
    (putCells (str.takeWhile (· ≠ 0)) a s).1 (putCells (str.takeWhile (· ≠ 0)) a s).2 := by
  unfold handleString
  rw [stringLoop_eq]

theorem handleSignedInt_eq (argVal : BitVec 32) : handleSignedInt argVal a s =
    updateHeightWidth (putCells (signedCells argVal) a s).1 (putCells (signedCells argVal) a s).2 := by
  unfold handleSignedInt signedCells
  by_cases h0 : argVal = 0
  · rw [if_pos h0, if_pos h0]
    rfl
  · rw [if_neg h0, if_neg h0]
    by_cases hneg : argVal.toInt < 0
    · rw [if_pos hneg, if_pos hneg]
      rfl
    · rw [if_neg hneg, if_neg hneg]

theorem handleUnsignedInt_eq (argVal : BitVec 32) : handleUnsignedInt argVal a s =
    updateHeightWidth (putCells (unsignedCells argVal) a s).1 (putCells (unsignedCells argVal) a s).2 := by
  unfold handleUnsignedInt unsignedCells
  split <;> rfl

theorem handleAddress_eq (addr : BitVec 64) : handleAddress addr a s =
    updateHeightWidth (putCells (addressCells addr) a s).1 (putCells (addressCells addr) a s).2 := by
  unfold handleAddress addressCells
  split <;> rfl

theorem handleEverythingElse_eq (ch : BitVec 8) :
    handleEverythingElse ch (getCurrentAddress s).1 (getCurrentAddress s).2 = perform s (charItem ch) := by
  unfold handleEverythingElse charItem
  split <;> rfl

theorem directive_eq (letter : BitVec 8) (apList : List Arg) (s : Screen) : directive letter apList s =
    (directiveItems letter apList).map fun x => (x.1, x.2.foldl perform s) := by
  unfold directive directiveItems
  dsimp only
  split_ifs
  · cases apList with
    | nil => rfl
    | cons arg apList =>
      cases arg with
      | str str => dsimp only; rw [handleString_eq]; rfl
      | int => rfl
      | addr => rfl
  · cases apList with
    | nil => rfl
    | cons arg apList =>
      cases arg with
      | str => rfl
      | int argVal => dsimp only; rw [handleSignedInt_eq]; rfl
      | addr => rfl
  · cases apList with
    | nil => rfl
    | cons arg apList =>
      cases arg with
      | str => rfl
      | int argVal => dsimp only; rw [handleUnsignedInt_eq]; rfl
      | addr => rfl
  · cases apList with
    | nil => rfl
    | cons arg apList => cases arg <;> rfl
  · cases apList with
    | nil => rfl
    | cons arg apList =>
      cases arg with
      | str => rfl
      | int => rfl
      | addr addr => dsimp only; rw [handleAddress_eq]; rfl
  · rfl

/-- The scan of the format performs its items, in their order. -/
theorem kprintfLoop_eq : ∀ (fmt : List (BitVec 8)) (apList : List Arg) (s : Screen),
    (kprintfLoop fmt apList s).map Prod.snd = (items fmt apList).map fun printed => printed.foldl perform s
  | [], _, _ => rfl
  | ch :: fmt, apList, s => by
    unfold kprintfLoop items
    by_cases h0 : ch = 0
    · rw [if_pos h0, if_pos h0]
      rfl
    · rw [if_neg h0, if_neg h0]
      by_cases hp : ch = percent
      · rw [if_pos hp, if_pos hp]
        match fmt with
        | [] => rfl
        | letter :: fmt =>
          dsimp only
          rw [directive_eq]
          cases directiveItems letter apList with
          | error e => rfl
          | ok x =>
            obtain ⟨apList', printed⟩ := x
            refine (kprintfLoop_eq fmt apList' (printed.foldl perform s)).trans ?_
            rw [ok_bind]
            cases items fmt apList' with
            | error e => rfl
            | ok more => exact congrArg Except.ok (List.foldl_append ..).symm
      · rw [if_neg hp, if_neg hp]
        dsimp only
        rw [handleEverythingElse_eq]
        refine (kprintfLoop_eq fmt apList _).trans ?_
        cases items fmt apList <;> rfl

theorem kprintf_eq (call : Call) (s : Screen) :
    kprintf call s = (items call.fmt call.args).map fun printed => printed.foldl perform s := by
  rw [← kprintfLoop_eq, kprintf]
  cases kprintfLoop call.fmt call.args s <;> rfl

end Items

/-! ## Scrolling -/

/-- The offsets of the rows 0 to 23. -/
def screenBytes : Nat := maxScreenHeight * maxScreenWidth

/-- Nothing was stored outside the rows 0 to 23. -/
def Screen.StoresInside (s : Screen) : Prop := ∀ a ∈ s.stored, a < screenBytes

/-- The first `n` bytes of the screen hold what stood a row below. -/
structure Copied (n : Nat) (s t : Screen) : Prop where
  video : ∀ k, t.video k = if k < n then s.video (k + maxScreenWidth) else s.video k
  inside : t.StoresInside ↔ s.StoresInside

/-- The offset is in the bottom row, in one of the cells up to byte `n`. -/
def InBottom (n k : Nat) : Prop := 23 * maxScreenWidth ≤ k ∧ k < 23 * maxScreenWidth + (n + n % 2)

instance (n k : Nat) : Decidable (InBottom n k) := inferInstanceAs (Decidable (_ ∧ _))

/-- A byte of a blank cell. -/
def blankByte (k : Nat) : BitVec 8 := if k % 2 = 0 then 0 else lightGrey

/-- The bottom row is blank as far as the cells up to byte `n`. -/
structure Blanked (n : Nat) (s t : Screen) : Prop where
  video : ∀ k, t.video k = if InBottom n k then blankByte k else s.video k
  height : t.currentHeight = s.currentHeight
  width : t.currentWidth = s.currentWidth
  inside : t.StoresInside ↔ s.StoresInside

section Scroll

variable {s t u : Screen} {n a : Nat} {v : BitVec 8}

theorem storesInside_store : (s.store a v).StoresInside ↔ a < screenBytes ∧ s.StoresInside := by
  unfold Screen.StoresInside Screen.store
  simp

theorem video_store (k : Nat) : (s.store a v).video k = if k = a then v else s.video k :=
  Video.store_apply ..

theorem Copied.refl (s : Screen) : Copied 0 s s := ⟨fun _ => rfl, Iff.rfl⟩

/-- The byte copied next has not been overwritten. -/
theorem Copied.store (h : Copied n s t) (hn : n < 23 * maxScreenWidth) :
    Copied (n + 1) s (t.store n (t.video (n + maxScreenWidth))) where
  video k := by
    have hsrc := h.video (n + maxScreenWidth)
    rw [if_neg (by omega)] at hsrc
    rw [video_store, hsrc, h.video]
    by_cases hk : k = n
    · rw [if_pos hk, if_pos (by omega), hk]
    · rw [if_neg hk]
      by_cases hlt : k < n
      · rw [if_pos hlt, if_pos (by omega)]
      · rw [if_neg hlt, if_neg (by omega)]
  inside := by
    rw [storesInside_store, h.inside]
    refine and_iff_right ?_
    unfold screenBytes maxScreenHeight
    omega

theorem copyRow_copied (i : Nat) (hi : i < 23) (h : Copied (i * maxScreenWidth) s t) :
    ∀ j ≤ maxScreenWidth, Copied (i * maxScreenWidth + j) s ((List.range j).foldl (fun s j =>
      s.store (i * maxScreenWidth + j) (s.video ((i + 1) * maxScreenWidth + j))) t) := by
  intro j
  induction j with
  | zero => exact fun _ => h
  | succ j ih =>
    intro hj
    have hnext : (i + 1) * maxScreenWidth + j = i * maxScreenWidth + j + maxScreenWidth := by
      rw [Nat.succ_mul]
      omega
    have hlt : i * maxScreenWidth + j < 23 * maxScreenWidth := by
      have := Nat.mul_le_mul_right maxScreenWidth (show i + 1 ≤ 23 from hi)
      rw [Nat.succ_mul] at this
      omega
    rw [List.range_succ, List.foldl_append, List.foldl_cons, List.foldl_nil, hnext]
    exact (ih (by omega)).store hlt

theorem copyRows_copied (s : Screen) : Copied (23 * maxScreenWidth) s (copyRows s) := by
  have hrows : ∀ i ≤ maxScreenHeight - 1, Copied (i * maxScreenWidth) s ((List.range i).foldl (fun s i =>
      (List.range maxScreenWidth).foldl (fun s j =>
        s.store (i * maxScreenWidth + j) (s.video ((i + 1) * maxScreenWidth + j))) s) s) := by
    intro i
    induction i with
    | zero => exact fun _ => by rw [Nat.zero_mul]; exact .refl s
    | succ i ih =>
      intro hi
      have h23 : i < 23 := hi
      have h := copyRow_copied i h23 (ih (by omega)) maxScreenWidth (Nat.le_refl _)
      rw [← Nat.succ_mul] at h
      rw [List.range_succ, List.foldl_append, List.foldl_cons, List.foldl_nil]
      exact h
  have h23 : maxScreenHeight - 1 = 23 := rfl
  rw [h23] at hrows
  rw [copyRows, h23]
  exact hrows 23 (Nat.le_refl _)

theorem Blanked.refl (s : Screen) : Blanked 0 s s where
  video k := by rw [if_neg (by unfold InBottom; omega)]
  height := rfl
  width := rfl
  inside := Iff.rfl

theorem Blanked.even (h : Blanked n s t) (hn : n < maxScreenWidth) (he : n % 2 = 0) : Blanked (n + 1) s
    ((t.store (23 * maxScreenWidth + n) 0).store (23 * maxScreenWidth + n + 1) lightGrey) := by
  have hw : maxScreenWidth = 160 := rfl
  constructor
  case video =>
    intro k
    rw [video_store, video_store, h.video]
    have hbottom : InBottom (n + 1) k ↔ k = 23 * maxScreenWidth + n + 1 ∨ k = 23 * maxScreenWidth + n ∨
        InBottom n k := by
      unfold InBottom
      omega
    by_cases h1 : k = 23 * maxScreenWidth + n + 1
    · rw [if_pos h1, if_pos (hbottom.2 (.inl h1)), blankByte, if_neg (by omega)]
    · by_cases h2 : k = 23 * maxScreenWidth + n
      · rw [if_neg h1, if_pos h2, if_pos (hbottom.2 (.inr (.inl h2))), blankByte, if_pos (by omega)]
      · rw [if_neg h1, if_neg h2]
        exact if_congr (by rw [hbottom, or_iff_right h1, or_iff_right h2]) rfl rfl
  case height => exact h.height
  case width => exact h.width
  case inside =>
    rw [storesInside_store, storesInside_store, h.inside]
    have hs : screenBytes = 24 * maxScreenWidth := rfl
    constructor
    · exact fun hi => hi.2.2
    · exact fun hi => ⟨by omega, by omega, hi⟩

theorem Blanked.odd (h : Blanked n s t) (ho : ¬ n % 2 = 0) : Blanked (n + 1) s t := by
  constructor
  case video =>
    intro k
    rw [h.video]
    refine if_congr ?_ rfl rfl
    unfold InBottom
    omega
  case height => exact h.height
  case width => exact h.width
  case inside => exact h.inside

theorem blankRow_blanked (s : Screen) : Blanked maxScreenWidth s (blankRow s) := by
  have hcells : ∀ n ≤ maxScreenWidth, Blanked n s ((List.range n).foldl (fun s index =>
      if index % 2 = 0 then
        (s.store (23 * maxScreenWidth + index) 0).store (23 * maxScreenWidth + index + 1) lightGrey
      else s) s) := by
    intro n
    induction n with
    | zero => exact fun _ => .refl s
    | succ n ih =>
      intro hn
      rw [List.range_succ, List.foldl_append, List.foldl_cons, List.foldl_nil]
      split
      · next he => exact (ih (by omega)).even hn he
      · next ho => exact (ih (by omega)).odd ho
  exact hcells maxScreenWidth (Nat.le_refl _)

/-- The rows moved up by one, and the cursor stands at the start of the blank bottom row. -/
structure Scrolled (s t : Screen) : Prop where
  video : ∀ k, t.video k =
    if k < 23 * maxScreenWidth then s.video (k + maxScreenWidth)
    else if k < screenBytes then blankByte k
    else s.video k
  height : t.currentHeight = 23
  width : t.currentWidth = 0
  inside : t.StoresInside ↔ s.StoresInside

theorem getCurrentAddress_stay (h : s.currentHeight ≤ 23) :
    getCurrentAddress s = (s.currentHeight * maxScreenWidth + s.currentWidth, s) := by
  unfold getCurrentAddress
  rw [if_neg (by omega)]

theorem getCurrentAddress_scroll (h : 23 < s.currentHeight) :
    ∃ t, getCurrentAddress s = (23 * maxScreenWidth, t) ∧ Scrolled s t := by
  have hcopied := copyRows_copied s
  unfold getCurrentAddress
  rw [if_pos h]
  generalize copyRows s = u at hcopied ⊢
  have hblanked := blankRow_blanked { u with currentHeight := 23, currentWidth := 0 }
  generalize blankRow _ = t at hblanked ⊢
  dsimp only
  rw [hblanked.height, hblanked.width]
  refine ⟨_, rfl, ?_⟩
  constructor
  case video =>
    intro k
    have hbottom : InBottom maxScreenWidth k ↔ ¬ k < 23 * maxScreenWidth ∧ k < screenBytes := by
      have hs : screenBytes = 24 * maxScreenWidth := rfl
      have hw : maxScreenWidth = 160 := rfl
      unfold InBottom
      omega
    rw [hblanked.video, hcopied.video]
    by_cases h1 : k < 23 * maxScreenWidth
    · rw [if_pos h1, if_pos h1, if_neg fun hb => (hbottom.1 hb).1 h1]
    · by_cases h2 : k < screenBytes
      · rw [if_pos (hbottom.2 ⟨h1, h2⟩), if_neg h1, if_pos h2]
      · rw [if_neg fun hb => h2 (hbottom.1 hb).2, if_neg h1, if_neg h1, if_neg h2]
  case height => exact hblanked.height
  case width => exact hblanked.width
  case inside => exact hblanked.inside.trans hcopied.inside

end Scroll

end Sbunix.Console
