/-
Numbers on the screen: `%d`, `%x` and `%p` of `kprintf` against the numeral of their argument. `%d` has
no digits for the one number whose negative does not fit, `%p` prints a cell more in front of its digits,
and `%x` prints in decimal.
-/
import Sbunix.Console.Cells
import Sbunix.Console.Text
import Sbunix.Lib.Numeral

namespace Sbunix.Console

open Fallible Numeral

/-! ## Numerals in cells -/

/-- `'0'` to `'9'` -/
def decimal : Alphabet (BitVec 8) 10 where
  glyph d := zeroHex + BitVec.ofNat 8 d
  digit ch := if 48 ≤ ch.toNat ∧ ch.toNat < 58 then some (ch.toNat - 48) else none
  one_lt := by decide
  digit_glyph := by decide

/-- `'0'` to `'9'` and `'A'` to `'F'` -/
def hexadecimal : Alphabet (BitVec 8) 16 where
  glyph := hexDigit
  digit ch :=
    if 48 ≤ ch.toNat ∧ ch.toNat < 58 then some (ch.toNat - 48)
    else if 65 ≤ ch.toNat ∧ ch.toNat < 71 then some (ch.toNat - 55)
    else none
  one_lt := by decide
  digit_glyph := by decide

/-- `'-'` -/
def minus : BitVec 8 := 0x2d

/-- The numeral of an integer, with its sign. -/
def decimalNumeral (i : Int) : List (BitVec 8) :=
  if i < 0 then minus :: decimal.numeral i.natAbs else decimal.numeral i.natAbs

def readDecimal : List (BitVec 8) → Option Int
  | [] => none
  | ch :: text =>
    if ch = minus then (decimal.value text).map fun n : Nat => -(n : Int)
    else (decimal.value (ch :: text)).map fun n : Nat => (n : Int)

/-- The digits `HandleAddress` computes for an address, in the order of the numeral. -/
def addressDigits (addr : BitVec 64) : List (BitVec 8) :=
  if addr = 0 then [zeroHex] else ((Nat.digits 16 addr.toNat).map hexDigit).reverse

/-! ## What a directive should print -/

/-- `kprintf("%d", argVal)` writes the numeral, and it reads back as the number. -/
def PrintsSigned (argVal : BitVec 32) (s : Screen) : Prop :=
  ∃ t, kprintf ⟨[percent, 100, 0], [.int argVal]⟩ s = .ok t ∧ Writes s (decimalNumeral argVal.toInt) t ∧
    readDecimal (textBetween s t) = some argVal.toInt

/-- `kprintf("%p", addr)` -/
def PrintsAddress (addr : BitVec 64) (s : Screen) : Prop :=
  ∃ t, kprintf ⟨[percent, 112, 0], [.addr addr]⟩ s = .ok t ∧
    Writes s (hexadecimal.numeral addr.toNat) t ∧ hexadecimal.value (textBetween s t) = some addr.toNat

/-- `kprintf("%x", argVal)`, from where the cursor is once the screen has been scrolled. -/
def PrintsHexadecimal (argVal : BitVec 32) (s : Screen) : Prop :=
  let u := (getCurrentAddress s).2
  ∃ t, kprintf ⟨[percent, 120, 0], [.int argVal]⟩ s = .ok t ∧
    Writes u (hexadecimal.numeral argVal.toNat) t ∧
    hexadecimal.value (textBetween u t) = some argVal.toNat ∧
    textBetween u t = addressDigits (argVal.setWidth 64)

section Numerals

theorem decimalCells_eq {num : Nat} (h : num ≠ 0) : decimalCells num = decimal.numeral num := by
  unfold decimalCells Alphabet.numeral
  rw [if_neg h]
  rfl

theorem unsignedCells_eq (argVal : BitVec 32) : unsignedCells argVal = decimal.numeral argVal.toNat := by
  unfold unsignedCells
  by_cases h : argVal = 0
  · rw [if_pos h, h]
    rfl
  · rw [if_neg h]
    exact decimalCells_eq fun h0 => h (BitVec.eq_of_toNat_eq h0)

theorem addressDigits_eq (addr : BitVec 64) : addressDigits addr = hexadecimal.numeral addr.toNat := by
  unfold addressDigits Alphabet.numeral
  by_cases h : addr = 0
  · rw [if_pos h, h]
    rfl
  · have hn : addr.toNat ≠ 0 := fun h0 => h (BitVec.eq_of_toNat_eq h0)
    rw [if_neg h, if_neg hn]
    rfl

/-- The cells of an address are its digits behind a NUL, but for 0. -/
theorem addressCells_eq (addr : BitVec 64) :
    addressCells addr = if addr = 0 then [zeroHex] else 0 :: hexadecimal.numeral addr.toNat := by
  rw [← addressDigits_eq]
  unfold addressCells addressDigits
  by_cases h : addr = 0
  · rw [if_pos h, if_pos h]
  · rw [if_neg h, if_neg h, if_neg h, List.reverse_append]
    rfl

/-- The digits are those of the magnitude, except that the least `int` has no positive one. -/
theorem signedCells_eq (argVal : BitVec 32) :
    signedCells argVal = if argVal = BitVec.intMin 32 then [minus] else decimalNumeral argVal.toInt := by
  unfold signedCells decimalNumeral
  by_cases h0 : argVal = 0
  · subst h0
    rfl
  rw [if_neg h0]
  by_cases hmin : argVal = BitVec.intMin 32
  · subst hmin
    decide
  rw [if_neg hmin]
  have hne : argVal.toInt ≠ 0 := fun h => h0 (BitVec.eq_of_toInt_eq h)
  by_cases hneg : argVal.toInt < 0
  · have hopp : (-argVal).toInt = -argVal.toInt := by
      rw [BitVec.toInt_neg_of_ne_intMin hmin]
    rw [if_pos hneg, if_pos hneg, decimalCells_eq (by rw [hopp]; omega), hopp,
      show (-argVal.toInt).toNat = argVal.toInt.natAbs by omega]
    rfl
  · rw [if_neg hneg, if_neg hneg, decimalCells_eq (by omega),
      show argVal.toInt.toNat = argVal.toInt.natAbs by omega]

/-- No digit is a sign. -/
theorem numeral_ne_minus {n : Nat} {ch : BitVec 8} {text : List (BitVec 8)}
    (h : decimal.numeral n = ch :: text) : ch ≠ minus := by
  rintro rfl
  have hvalue := decimal.value_numeral n
  rw [h] at hvalue
  cases hvalue

theorem readDecimal_decimalNumeral (i : Int) : readDecimal (decimalNumeral i) = some i := by
  unfold decimalNumeral
  by_cases hneg : i < 0
  · rw [if_pos hneg, readDecimal, if_pos rfl, decimal.value_numeral, Option.map_some, Option.some.injEq]
    omega
  · rw [if_neg hneg]
    cases h : decimal.numeral i.natAbs with
    | nil => exact absurd h (decimal.numeral_ne_nil _)
    | cons ch text =>
      rw [readDecimal, if_neg (numeral_ne_minus h), ← h, decimal.value_numeral, Option.map_some,
        Option.some.injEq]
      omega

/-- The decimal numeral is the hexadecimal one for a single digit only. -/
theorem decimal_eq_hexadecimal_iff (n : Nat) : decimal.numeral n = hexadecimal.numeral n ↔ n < 10 := by
  rw [← digits_eq_digits_iff (b := 10) (c := 16) (by decide) (by decide)]
  unfold Alphabet.numeral
  by_cases h : n = 0
  · subst h
    exact iff_of_true rfl (by simp)
  · rw [if_neg h, if_neg h, List.reverse_inj]
    have hlt : ∀ d ∈ Nat.digits 10 n, d < 10 := fun d hd => Nat.digits_lt_base (by decide) hd
    have hglyph : ∀ d < 10, decimal.glyph d = hexadecimal.glyph d := by decide
    have hsame : (Nat.digits 10 n).map decimal.glyph = (Nat.digits 10 n).map hexadecimal.glyph :=
      List.map_congr_left fun d hd => hglyph d (hlt d hd)
    rw [hsame]
    constructor
    · intro he
      have hten := mapM_digit hexadecimal (Nat.digits 10 n) fun d hd => Nat.lt_trans (hlt d hd) (by decide)
      have hsixteen := mapM_digit hexadecimal (Nat.digits 16 n) fun d hd =>
        Nat.digits_lt_base (by decide) hd
      rw [he] at hten
      exact Option.some.inj (hten.symm.trans hsixteen)
    · exact congrArg _

end Numerals

/-! ## The directives -/

section Directives

variable {s : Screen} {n : Nat}

theorem Room.row_le (h : Room s n) : s.currentHeight ≤ 23 := Nat.le_of_lt_succ h.row

theorem kprintf_signed (argVal : BitVec 32) (s : Screen) :
    kprintf ⟨[percent, 100, 0], [.int argVal]⟩ s = .ok (emit (signedCells argVal) s) :=
  kprintf_directive rfl s

theorem kprintf_address (addr : BitVec 64) (s : Screen) :
    kprintf ⟨[percent, 112, 0], [.addr addr]⟩ s = .ok (emit (addressCells addr) s) :=
  kprintf_directive rfl s

theorem kprintf_unsigned (argVal : BitVec 32) (s : Screen) :
    kprintf ⟨[percent, 120, 0], [.int argVal]⟩ s = .ok (emit (unsignedCells argVal) s) :=
  kprintf_directive rfl s

/-- The sign alone is not the numeral of the least `int`. -/
theorem not_printsSigned_intMin (h : s.currentHeight ≤ 23) : ¬ PrintsSigned (BitVec.intMin 32) s := by
  have hw := emit_writes h (signedCells (BitVec.intMin 32))
  rw [PrintsSigned, kprintf_signed]
  rintro ⟨t, he, hw', -⟩
  cases he
  have hcells := hw.unique hw'
  revert hcells
  decide

theorem printsSigned_of_ne {argVal : BitVec 32} (h : s.currentHeight ≤ 23) (hne : argVal ≠ BitVec.intMin 32) :
    PrintsSigned argVal s := by
  have hw := emit_writes h (signedCells argVal)
  rw [PrintsSigned, kprintf_signed]
  rw [signedCells_eq, if_neg hne] at hw ⊢
  refine ⟨_, rfl, hw, ?_⟩
  rw [hw.textBetween]
  exact readDecimal_decimalNumeral argVal.toInt

/-- There is a cell more than digits. -/
theorem not_printsAddress {addr : BitVec 64} (h : s.currentHeight ≤ 23) (hne : addr ≠ 0) :
    ¬ PrintsAddress addr s := by
  have hw := emit_writes h (addressCells addr)
  rw [PrintsAddress, kprintf_address]
  rintro ⟨t, he, hw', -⟩
  cases he
  have hcells := hw.unique hw'
  rw [addressCells_eq, if_neg hne] at hcells
  exact absurd (congrArg List.length hcells) (Nat.succ_ne_self _)

theorem printsAddress_zero (h : s.currentHeight ≤ 23) : PrintsAddress 0 s := by
  have hw := emit_writes h (addressCells 0)
  rw [PrintsAddress, kprintf_address]
  refine ⟨_, rfl, hw, ?_⟩
  rw [hw.textBetween]
  rfl

theorem unsigned_writes (argVal : BitVec 32) (s : Screen) :
    Writes (getCurrentAddress s).2 (decimal.numeral argVal.toNat) (emit (unsignedCells argVal) s) := by
  have hw := emit_writes (settled_row s) (unsignedCells argVal)
  rw [← emit_settled] at hw
  rwa [← unsignedCells_eq]

theorem not_printsHexadecimal {argVal : BitVec 32} (h : ¬ argVal.toNat < 10) (s : Screen) :
    ¬ PrintsHexadecimal argVal s := by
  have hw := unsigned_writes argVal s
  rw [PrintsHexadecimal, kprintf_unsigned]
  rintro ⟨t, he, hw', -⟩
  cases he
  exact h ((decimal_eq_hexadecimal_iff _).1 (hw.unique hw'))

theorem printsHexadecimal_of_lt {argVal : BitVec 32} (h : argVal.toNat < 10) (s : Screen) :
    PrintsHexadecimal argVal s := by
  have hw := unsigned_writes argVal s
  have hdigits : addressDigits (argVal.setWidth 64) = hexadecimal.numeral argVal.toNat := by
    rw [addressDigits_eq, BitVec.toNat_setWidth_of_le (by decide)]
  rw [(decimal_eq_hexadecimal_iff _).2 h] at hw
  rw [PrintsHexadecimal, kprintf_unsigned]
  refine ⟨_, rfl, hw, ?_, ?_⟩
  · rw [hw.textBetween]
    exact hexadecimal.value_numeral argVal.toNat
  · rw [hw.textBetween, hdigits]

end Directives

/-- `%d` prints every number but the least `int`, of which it prints only the sign. -/
theorem prints_signed_iff {s : Screen} {argVal : BitVec 32}
    (h : Room s (decimalNumeral argVal.toInt).length) :
    PrintsSigned argVal s ↔ argVal ≠ BitVec.intMin 32 := by
  constructor
  · rintro hp rfl
    exact not_printsSigned_intMin h.row_le hp
  · exact printsSigned_of_ne h.row_le

theorem prints_minus_120 : PrintsSigned (-120) (started fun _ => 0) :=
  (prints_signed_iff ⟨by decide, by decide⟩).2 (by decide)

theorem least_int_has_no_digits : Room (started fun _ => 0) (decimalNumeral (-2147483648)).length ∧
    ¬ PrintsSigned (BitVec.intMin 32) (started fun _ => 0) :=
  ⟨⟨by decide, by decide⟩, not_printsSigned_intMin (Nat.zero_le 23)⟩

/-- `%p` prints 0, and before the digits of every other address a NUL. -/
theorem prints_address_iff {s : Screen} {addr : BitVec 64}
    (h : Room s (hexadecimal.numeral addr.toNat).length) : PrintsAddress addr s ↔ addr = 0 := by
  constructor
  · exact not_imp_not.1 (not_printsAddress h.row_le)
  · rintro rfl
    exact printsAddress_zero h.row_le

theorem prints_null : PrintsAddress 0 (started fun _ => 0) :=
  (prints_address_iff ⟨by decide, by decide⟩).2 rfl

theorem one_cell_too_many : Room (started fun _ => 0) (hexadecimal.numeral 0xb8000).length ∧
    ¬ PrintsAddress 0xb8000 (started fun _ => 0) :=
  ⟨⟨by decide, by decide⟩, not_printsAddress (Nat.zero_le 23) (by decide)⟩

/-- `%x` prints a single digit as it should, and no other number. -/
theorem prints_hexadecimal_iff (argVal : BitVec 32) (s : Screen) :
    PrintsHexadecimal argVal s ↔ argVal.toNat < 10 := by
  constructor
  · exact fun hp => by_contra fun h => not_printsHexadecimal h s hp
  · exact fun h => printsHexadecimal_of_lt h s

/-- 10 comes out as `10`. -/
theorem ten_in_decimal : ¬ PrintsHexadecimal 10 (started fun _ => 0) :=
  not_printsHexadecimal (by decide) _

end Sbunix.Console
