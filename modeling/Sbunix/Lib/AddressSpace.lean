/-
A byte-addressed address space in which only some addresses are mapped: little-endian words,
loads and stores that fault outside the mapped bytes, and mapping and unmapping of ranges, with
the frame rules between them.
-/
import Mathlib.Tactic.Common
import Mathlib.Tactic.Ring

namespace AddressSpace

/-! ## Little-endian words -/

/-- The `n`-byte word at address `a`. -/
def readLE (f : Nat → UInt8) (a : Nat) : Nat → Nat
  | 0 => 0
  | n + 1 => (f a).toNat + 256 * readLE f (a + 1) n

/-- The bytes after storing the low `n` bytes of `v` at address `a`. -/
def writeLE (f : Nat → UInt8) (a n v : Nat) : Nat → UInt8 :=
  fun x => if a ≤ x ∧ x < a + n then UInt8.ofNat (v / 256 ^ (x - a)) else f x

theorem readLE_congr {f g : Nat → UInt8} : ∀ {n a : Nat}, (∀ x, a ≤ x → x < a + n → f x = g x) →
    readLE f a n = readLE g a n
  | 0, _, _ => rfl
  | n + 1, a, h => by
    rw [readLE, readLE, h a (by omega) (by omega),
      readLE_congr (n := n) (a := a + 1) fun x h1 h2 => h x (by omega) (by omega)]

theorem readLE_eq_zero_iff {f : Nat → UInt8} : ∀ {n a : Nat},
    readLE f a n = 0 ↔ ∀ x, a ≤ x → x < a + n → f x = 0
  | 0, a => iff_of_true rfl fun x h1 h2 => by omega
  | n + 1, a => by
    rw [readLE, Nat.add_eq_zero_iff, Nat.mul_eq_zero, or_iff_right (by decide), readLE_eq_zero_iff]
    constructor
    · rintro ⟨hhead, htail⟩ x h1 h2
      rcases Nat.eq_or_lt_of_le h1 with rfl | hlt
      · exact UInt8.toNat_inj.1 hhead
      · exact htail x hlt (by omega)
    · intro h
      refine ⟨?_, fun x h1 h2 => h x (by omega) (by omega)⟩
      rw [h a (Nat.le_refl _) (by omega)]
      rfl

theorem writeLE_of_lt {f : Nat → UInt8} {a n v x : Nat} (h : x < a) : writeLE f a n v x = f x := by
  rw [writeLE, if_neg (by omega)]

theorem writeLE_of_le {f : Nat → UInt8} {a n v x : Nat} (h : a + n ≤ x) : writeLE f a n v x = f x := by
  rw [writeLE, if_neg (by omega)]

theorem writeLE_writeLE (f : Nat → UInt8) (a n v w : Nat) :
    writeLE (writeLE f a n v) a n w = writeLE f a n w := by
  funext x
  unfold writeLE
  split <;> rfl

/-- A word reads back as what was stored, cut to its width. -/
theorem readLE_writeLE (f : Nat → UInt8) : ∀ n a v : Nat, readLE (writeLE f a n v) a n = v % 256 ^ n
  | 0, _, v => by simp [readLE, Nat.mod_one]
  | n + 1, a, v => by
    have htail : readLE (writeLE f a (n + 1) v) (a + 1) n =
        readLE (writeLE f (a + 1) n (v / 256)) (a + 1) n :=
      readLE_congr fun x h1 h2 => by
        rw [writeLE, writeLE, if_pos (by omega), if_pos (by omega),
          show x - a = x - (a + 1) + 1 by omega, pow_succ', Nat.div_div_eq_div_mul]
    have hhead : (writeLE f a (n + 1) v a).toNat = v % 256 := by
      rw [writeLE, if_pos (by omega)]
      simp
    rw [readLE, htail, hhead, readLE_writeLE f n (a + 1) (v / 256), pow_succ', Nat.mod_mul]

/-- A word stored again is the bytes that were read. -/
theorem writeLE_readLE (f g : Nat → UInt8) : ∀ {n a x : Nat}, a ≤ x → x < a + n →
    writeLE g a n (readLE f a n) x = f x
  | 0, a, x, h1, h2 => by omega
  | n + 1, a, x, h1, h2 => by
    have hlt := (f a).toNat_lt
    rw [writeLE, if_pos ⟨h1, h2⟩, readLE]
    rcases Nat.eq_or_lt_of_le h1 with rfl | hlt'
    · apply UInt8.toNat_inj.1
      simp
    · have hbyte := writeLE_readLE f g (n := n) hlt' (by omega)
      rw [writeLE, if_pos ⟨hlt', by omega⟩] at hbyte
      rw [← hbyte, show x - a = x - (a + 1) + 1 by omega, pow_succ', ← Nat.div_div_eq_div_mul,
        Nat.add_mul_div_left _ _ (by decide), Nat.div_eq_of_lt hlt, Nat.zero_add]

/-- A word that a store does not touch is unchanged. -/
theorem readLE_writeLE_disjoint {f : Nat → UInt8} {a n v b m : Nat} (h : a + n ≤ b ∨ b + m ≤ a) :
    readLE (writeLE f a n v) b m = readLE f b m :=
  readLE_congr fun x h1 h2 => by
    rcases h with h | h
    · exact writeLE_of_le (by omega)
    · exact writeLE_of_lt (by omega)

/-! ## Mapped addresses -/

/-- What stops a program: an access to an unmapped address, or running out of the steps it was
given. -/
inductive Stop
  | segv
  | outOfFuel
  deriving DecidableEq, Repr

structure Space where
  byte : Nat → UInt8
  mapped : Nat → Bool

namespace Space

/-- Every byte of the range is mapped. -/
def Mapped (s : Space) (a n : Nat) : Prop := ∀ i, i < n → s.mapped (a + i) = true

instance (s : Space) (a n : Nat) : Decidable (s.Mapped a n) :=
  inferInstanceAs (Decidable (∀ i, i < n → s.mapped (a + i) = true))

/-- No byte of the range is mapped. -/
def Unmapped (s : Space) (a n : Nat) : Prop := ∀ i, i < n → s.mapped (a + i) = false

instance (s : Space) (a n : Nat) : Decidable (s.Unmapped a n) :=
  inferInstanceAs (Decidable (∀ i, i < n → s.mapped (a + i) = false))

def load (s : Space) (a n : Nat) : Except Stop Nat :=
  if s.Mapped a n then .ok (readLE s.byte a n) else .error .segv

def store (s : Space) (a n v : Nat) : Except Stop Space :=
  if s.Mapped a n then .ok { s with byte := writeLE s.byte a n v } else .error .segv

/-- Map a range; its bytes are whatever the mapping brings. -/
def map (s : Space) (a n : Nat) (fill : Nat → UInt8) : Space where
  byte := fun x => if a ≤ x ∧ x < a + n then fill x else s.byte x
  mapped := fun x => decide (a ≤ x ∧ x < a + n) || s.mapped x

def unmap (s : Space) (a n : Nat) : Space :=
  { s with mapped := fun x => s.mapped x && !decide (a ≤ x ∧ x < a + n) }

variable {s t : Space} {a n v : Nat}

theorem load_ok (h : s.Mapped a n) : s.load a n = .ok (readLE s.byte a n) := if_pos h

theorem load_eq_ok {w : Nat} (h : s.load a n = .ok w) : s.Mapped a n ∧ readLE s.byte a n = w := by
  unfold load at h
  split at h
  · rename_i hm; cases h; exact ⟨hm, rfl⟩
  · cases h

theorem store_ok (h : s.Mapped a n) : s.store a n v = .ok { s with byte := writeLE s.byte a n v } :=
  if_pos h

theorem store_eq_ok (h : s.store a n v = .ok t) :
    s.Mapped a n ∧ t = { s with byte := writeLE s.byte a n v } := by
  unfold store at h
  split at h
  · rename_i hm; cases h; exact ⟨hm, rfl⟩
  · cases h

theorem Mapped.sub {b m : Nat} (h : s.Mapped a n) (hab : a ≤ b) (hbm : b + m ≤ a + n) : s.Mapped b m := by
  intro i hi
  have := h (b - a + i) (by omega)
  rwa [show a + (b - a + i) = b + i by omega] at this

theorem map_mapped {fill : Nat → UInt8} (x : Nat) :
    (s.map a n fill).mapped x = true ↔ (a ≤ x ∧ x < a + n) ∨ s.mapped x = true := by
  simp [map]

theorem mapped_map (fill : Nat → UInt8) : (s.map a n fill).Mapped a n :=
  fun i hi => (map_mapped _).2 (.inl ⟨by omega, by omega⟩)

theorem Mapped.map {b m : Nat} (fill : Nat → UInt8) (h : s.Mapped b m) : (s.map a n fill).Mapped b m :=
  fun i hi => (map_mapped _).2 (.inr (h i hi))

theorem unmap_mapped (x : Nat) :
    (s.unmap a n).mapped x = true ↔ s.mapped x = true ∧ ¬ (a ≤ x ∧ x < a + n) := by
  simp only [unmap, Bool.and_eq_true, Bool.not_eq_true', decide_eq_false_iff_not]

theorem Mapped.unmap {b m : Nat} (h : s.Mapped b m) (hd : a + n ≤ b ∨ b + m ≤ a) :
    (s.unmap a n).Mapped b m :=
  fun i hi => (unmap_mapped _).2 ⟨h i hi, by omega⟩

/-- Mapped bytes keep their contents when a range disjoint from them is mapped. -/
theorem readLE_map {fill : Nat → UInt8} {b m : Nat} (h : a + n ≤ b ∨ b + m ≤ a) :
    readLE (s.map a n fill).byte b m = readLE s.byte b m :=
  readLE_congr fun x h1 h2 => if_neg (by omega)

/-- A mapped range is disjoint from an unmapped one. -/
theorem Mapped.disjoint {b m : Nat} (h : s.Mapped b m) (hu : s.Unmapped a n) (hn : 0 < n) (hm : 0 < m) :
    a + n ≤ b ∨ b + m ≤ a := by
  by_contra hd
  push Not at hd
  by_cases hab : a ≤ b
  · have h1 := h 0 hm
    have h2 := hu (b - a) (by omega)
    rw [show a + (b - a) = b + 0 by omega, h1] at h2
    cases h2
  · have h1 := h (a - b) (by omega)
    have h2 := hu 0 hn
    rw [show b + (a - b) = a + 0 by omega, h2] at h1
    cases h1

end Space

end AddressSpace
