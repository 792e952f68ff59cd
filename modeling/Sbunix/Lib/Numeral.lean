/-
Numerals over any characters: the digits of a number in some base, the most significant first, and
how they are read back.
-/
import Mathlib.Data.List.GetD
import Mathlib.Data.Nat.Digits.Lemmas

namespace Numeral

/-- One character for each digit of base `base`. -/
structure Alphabet (α : Type) (base : Nat) where
  glyph : Nat → α
  digit : α → Option Nat
  one_lt : 1 < base
  digit_glyph : ∀ d < base, digit (glyph d) = some d

variable {α : Type} {base : Nat} (A : Alphabet α base)

/-- 0 is one digit, and no other numeral begins with a 0. -/
def Alphabet.numeral (n : Nat) : List α :=
  if n = 0 then [A.glyph 0] else ((Nat.digits base n).map A.glyph).reverse

/-- The number that is read, if every character is a digit and there is one. -/
def Alphabet.value (text : List α) : Option Nat :=
  if text = [] then none else (text.mapM A.digit).map fun digits => Nat.ofDigits base digits.reverse

theorem mapM_digit : ∀ (digits : List Nat), (∀ d ∈ digits, d < base) →
    (digits.map A.glyph).mapM A.digit = some digits
  | [], _ => rfl
  | d :: digits, h => by
    have hd := A.digit_glyph d (h d List.mem_cons_self)
    have hrest := mapM_digit digits fun x hx => h x (List.mem_cons_of_mem _ hx)
    rw [List.map_cons, List.mapM_cons, hd, hrest]
    rfl

theorem Alphabet.numeral_ne_nil (n : Nat) : A.numeral n ≠ [] := by
  unfold Alphabet.numeral
  split
  · exact List.cons_ne_nil _ _
  · next h => simpa using Nat.digits_ne_nil_iff_ne_zero.2 h

/-- A numeral reads back as its number. -/
theorem Alphabet.value_numeral (n : Nat) : A.value (A.numeral n) = some n := by
  unfold Alphabet.value
  rw [if_neg (A.numeral_ne_nil n)]
  unfold Alphabet.numeral
  by_cases h : n = 0
  · rw [if_pos h, h]
    have hzero := mapM_digit A [0] fun d hd => by
      rw [List.mem_singleton.1 hd]
      exact Nat.zero_lt_of_lt A.one_lt
    rw [List.map_singleton] at hzero
    rw [hzero]
    simp
  · rw [if_neg h, ← List.map_reverse]
    rw [mapM_digit A _ fun d hd => Nat.digits_lt_base A.one_lt (List.mem_reverse.1 hd)]
    simp [Nat.ofDigits_digits]

/-- Two bases have the same digits for the numbers below both of them, and for no other. -/
theorem digits_eq_digits_iff {b c n : Nat} (hb : 1 < b) (hbc : b < c) :
    Nat.digits b n = Nat.digits c n ↔ n < b := by
  constructor
  · intro h
    by_contra hn
    have hn0 : n ≠ 0 := by omega
    rw [Nat.digits_eq_cons_digits_div hb hn0, Nat.digits_eq_cons_digits_div (by omega) hn0] at h
    obtain ⟨hmod, hdiv⟩ := List.cons.inj h
    -- the same digits are worth more in the larger base
    have hle : n / b ≤ n / c := by
      calc n / b = Nat.ofDigits b (Nat.digits b (n / b)) := (Nat.ofDigits_digits _ _).symm
        _ ≤ Nat.ofDigits c (Nat.digits b (n / b)) := Nat.ofDigits_monotone _ hbc.le
        _ = Nat.ofDigits c (Nat.digits c (n / c)) := by rw [hdiv]
        _ = n / c := Nat.ofDigits_digits _ _
    have h1 := Nat.div_add_mod n b
    have h2 := Nat.div_add_mod n c
    have hpos : 0 < n / b := Nat.div_pos (by omega) (by omega)
    have hmul : b * (n / b) < c * (n / c) :=
      calc b * (n / b) < c * (n / b) := Nat.mul_lt_mul_of_pos_right hbc hpos
        _ ≤ c * (n / c) := Nat.mul_le_mul_left c hle
    omega
  · intro h
    by_cases h0 : n = 0
    · rw [h0, Nat.digits_zero, Nat.digits_zero]
    · rw [Nat.digits_of_lt b n h0 h, Nat.digits_of_lt c n h0 (by omega)]

end Numeral
