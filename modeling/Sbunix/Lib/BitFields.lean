/-
Fields of a word: `n` bits taken out from bit `k` on and put back there. Adjacent fields put
together are one longer field, and the field of all bits is the word itself.
-/
import Mathlib.Algebra.Group.Nat.Defs
import Mathlib.Tactic.Common

namespace BitFields

variable {w n p : Nat}

/-- Bits `k .. k + n - 1`. -/
def field (x : BitVec w) (k n : Nat) : BitVec n := (x >>> k).setWidth n

/-- The field `y` at bit `k` of a word of `w` bits, zeros around it. -/
def place (w : Nat) (y : BitVec n) (k : Nat) : BitVec w := y.setWidth w <<< k

theorem getLsbD_place_field (x : BitVec w) (k n i : Nat) : (place w (field x k n) k).getLsbD i =
    (x.getLsbD i && decide (k ≤ i ∧ i < k + n)) := by
  rw [place, field]
  simp only [BitVec.getLsbD_shiftLeft, BitVec.getLsbD_setWidth, BitVec.getLsbD_ushiftRight]
  by_cases hk : k ≤ i
  · rw [Nat.add_sub_cancel' hk]
    by_cases hw : i < w
    · have h1 : i - k < w := by omega
      have h2 : i - k < n ↔ i < k + n := by omega
      simp [hw, hk, h1, h2, Bool.and_comm]
    · rw [BitVec.getLsbD_of_ge x i (by omega)]
      simp
  · simp [hk, show i < k by omega]

/-- Two adjacent fields are one. -/
theorem place_or_place (x : BitVec w) (k n p : Nat) :
    place w (field x (k + n) p) (k + n) ||| place w (field x k n) k = place w (field x k (n + p)) k := by
  apply BitVec.eq_of_getLsbD_eq
  intro i _
  rw [BitVec.getLsbD_or, getLsbD_place_field, getLsbD_place_field, getLsbD_place_field,
    ← Bool.and_or_distrib_left, ← Bool.decide_or]
  congr 2
  simp only [eq_iff_iff]
  omega

/-- The same with the two fields side by side. -/
theorem field_append_field (x : BitVec w) (k n p : Nat) :
    field x (k + n) p ++ field x k n = (field x k (p + n) : BitVec (p + n)) := by
  apply BitVec.eq_of_getLsbD_eq
  intro i hi
  unfold field
  rw [BitVec.getLsbD_append]
  simp only [BitVec.getLsbD_setWidth, BitVec.getLsbD_ushiftRight]
  by_cases h : i < n
  · simp [h, hi]
  · rw [if_neg h, Nat.add_assoc, Nat.add_sub_cancel' (by omega : n ≤ i)]
    simp [hi, show i - n < p by omega]

theorem field_all (x : BitVec w) : field x 0 w = x := by
  rw [field]
  simp

theorem place_field_all (x : BitVec w) : place w (field x 0 w) 0 = x := by
  rw [place, field]
  simp

/-- A field placed in a narrower word that holds all of it may be widened afterwards. -/
theorem setWidth_place {v k : Nat} (y : BitVec n) (h : k + n ≤ v) :
    (place v y k).setWidth w = place w y k := by
  unfold place
  apply BitVec.eq_of_getLsbD_eq
  intro i hi
  simp only [BitVec.getLsbD_setWidth, BitVec.getLsbD_shiftLeft]
  by_cases hin : i < k + n
  · simp [hi, show i < v by omega, show i - k < v by omega, show i - k < w by omega]
  · by_cases hk : i < k
    · simp [hk]
    · rw [BitVec.getLsbD_of_ge y (i - k) (by omega)]
      simp

/-- Masking with ones does not matter to the bits that are kept. -/
theorem setWidth_and_ones (x : BitVec w) (n : Nat) :
    (x &&& BitVec.ofNat w (2 ^ n - 1)).setWidth n = x.setWidth n := by
  apply BitVec.eq_of_getLsbD_eq
  intro i hi
  rw [BitVec.getLsbD_setWidth, BitVec.getLsbD_setWidth, BitVec.getLsbD_and, BitVec.getLsbD_ofNat,
    Nat.testBit_two_pow_sub_one]
  by_cases hw : i < w
  · simp [hi, hw]
  · rw [BitVec.getLsbD_of_ge x i (by omega)]
    simp

/-- The field at bit `k` of `x` replaced by `y`. -/
def put (x : BitVec w) (k : Nat) (y : BitVec n) : BitVec w :=
  (x &&& ~~~place w (BitVec.allOnes n) k) ||| place w y k

theorem getLsbD_put (x : BitVec w) (k : Nat) (y : BitVec n) {i : Nat} (hi : i < w) :
    (put x k y).getLsbD i =
      if k ≤ i ∧ i < k + n then y.getLsbD (i - k) else x.getLsbD i := by
  have hw : i - k < w := by omega
  unfold put place
  simp only [BitVec.getLsbD_or, BitVec.getLsbD_and, BitVec.getLsbD_not, BitVec.getLsbD_shiftLeft,
    BitVec.getLsbD_setWidth, BitVec.getLsbD_allOnes, hi, hw]
  by_cases hk : k ≤ i
  · by_cases hn : i - k < n
    · rw [if_pos ⟨hk, by omega⟩]
      simp [hn, Nat.not_lt.2 hk]
    · rw [if_neg fun h => hn (by omega), BitVec.getLsbD_of_ge y (i - k) (by omega)]
      simp [hn]
  · rw [if_neg fun h => hk h.1]
    simp [show i < k by omega]

theorem getLsbD_field (x : BitVec w) (k : Nat) {i : Nat} (hi : i < n) :
    (field x k n).getLsbD i = x.getLsbD (k + i) := by
  unfold field
  simp [hi]

/-- What is put in is taken out. -/
theorem field_put_same (x : BitVec w) {k : Nat} (y : BitVec n) (h : k + n ≤ w) :
    field (put x k y) k n = y := by
  apply BitVec.eq_of_getLsbD_eq
  intro i hi
  rw [getLsbD_field _ _ hi, getLsbD_put _ _ _ (by omega), if_pos (by omega), Nat.add_sub_cancel_left]

/-- The fields beside it stay. -/
theorem field_put_apart (x : BitVec w) {k j : Nat} (y : BitVec n) (h : j + p ≤ w)
    (hd : j + p ≤ k ∨ k + n ≤ j) : field (put x k y) j p = field x j p := by
  apply BitVec.eq_of_getLsbD_eq
  intro i hi
  rw [getLsbD_field _ _ hi, getLsbD_field _ _ hi, getLsbD_put _ _ _ (by omega), if_neg (by omega)]

/-- A field of a field. -/
theorem field_field (x : BitVec w) (k j : Nat) (h : j + p ≤ n) :
    field (field x k n) j p = field x (k + j) p := by
  apply BitVec.eq_of_getLsbD_eq
  intro i hi
  rw [getLsbD_field _ _ hi, getLsbD_field _ _ (by omega), getLsbD_field _ _ hi, Nat.add_assoc]

end BitFields
