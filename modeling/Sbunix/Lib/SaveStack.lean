/-
Saving registers on a downward-growing stack of quadwords and loading them back: what a block of
pushes leaves on the stack, what a block of pops loads from it, and for which saved values the
two compose to the identity. The register names and the words are parameters.
-/
import Mathlib.Algebra.Group.Nat.Defs
import Mathlib.Data.List.Nodup
import Mathlib.Logic.Function.Basic
import Mathlib.Tactic.Common

namespace SaveStack

/-- An address of the stack's memory. -/
abbrev Address := BitVec 64

/-- Registers, stack pointer, and the quadword stored at each address of the stack. -/
structure Frame (ρ W : Type) where
  regs : ρ → W
  sp : Address
  stack : Address → W

variable {ρ W : Type}

namespace Frame

/-- Push a word: one quadword down, then store. -/
def pushWord (s : Frame ρ W) (w : W) : Frame ρ W :=
  { s with sp := s.sp - 8, stack := Function.update s.stack (s.sp - 8) w }

def push (s : Frame ρ W) (r : ρ) : Frame ρ W := s.pushWord (s.regs r)

/-- Pop into a register: load, then one quadword up. -/
def pop [DecidableEq ρ] (s : Frame ρ W) (r : ρ) : Frame ρ W :=
  { s with regs := Function.update s.regs r (s.stack s.sp), sp := s.sp + 8 }

def pushAll (s : Frame ρ W) (rs : List ρ) : Frame ρ W := rs.foldl push s

def popAll [DecidableEq ρ] (s : Frame ρ W) (rs : List ρ) : Frame ρ W := rs.foldl pop s

/-- The `n` quadwords from the stack pointer up. -/
def words (s : Frame ρ W) : Nat → List W
  | 0 => []
  | n + 1 => s.stack s.sp :: words { s with sp := s.sp + 8 } n

/-- The quadword `i` places above the one the stack pointer is at. -/
def word (s : Frame ρ W) (i : Nat) : W := s.stack (s.sp + BitVec.ofNat 64 (8 * i))

def moveTo (s : Frame ρ W) (a : Address) : Frame ρ W := { s with sp := a }

@[simp] theorem pushAll_nil (s : Frame ρ W) : s.pushAll [] = s := rfl
@[simp] theorem pushAll_cons (s : Frame ρ W) (r : ρ) (rs : List ρ) :
    s.pushAll (r :: rs) = (s.push r).pushAll rs := rfl
@[simp] theorem popAll_nil [DecidableEq ρ] (s : Frame ρ W) : s.popAll [] = s := rfl
@[simp] theorem popAll_cons [DecidableEq ρ] (s : Frame ρ W) (r : ρ) (rs : List ρ) :
    s.popAll (r :: rs) = (s.pop r).popAll rs := rfl
@[simp] theorem push_regs (s : Frame ρ W) (r : ρ) : (s.push r).regs = s.regs := rfl
@[simp] theorem words_zero (s : Frame ρ W) : s.words 0 = [] := rfl
@[simp] theorem words_succ (s : Frame ρ W) (n : Nat) :
    s.words (n + 1) = s.stack s.sp :: words { s with sp := s.sp + 8 } n := rfl

/-! ## What a block of pushes leaves -/

theorem pushAll_sp (s : Frame ρ W) (rs : List ρ) :
    (s.pushAll rs).sp = s.sp - BitVec.ofNat 64 (8 * rs.length) := by
  induction rs generalizing s with
  | nil => simp
  | cons r rs ih =>
    rw [pushAll_cons, ih]
    show s.sp - 8 - _ = _
    rw [List.length_cons]
    bv_omega

/-- The quadwords above a pointer do not include those stored below it. -/
theorem words_congr (n : Nat) : ∀ (s t : Frame ρ W), s.sp = t.sp →
    (∀ i < n, s.stack (s.sp + BitVec.ofNat 64 (8 * i)) = t.stack (s.sp + BitVec.ofNat 64 (8 * i))) →
    s.words n = t.words n := by
  induction n with
  | zero => intro s t _ _; rfl
  | succ n ih =>
    intro s t hsp h
    rw [words_succ, words_succ]
    congr 1
    · have := h 0 (by omega)
      simpa [hsp] using this
    · apply ih _ _ (by simp [hsp])
      intro i hi
      have := h (i + 1) (by omega)
      show s.stack (s.sp + 8 + _) = t.stack (s.sp + 8 + _)
      have e : s.sp + BitVec.ofNat 64 (8 * (i + 1)) = s.sp + 8 + BitVec.ofNat 64 (8 * i) := by bv_omega
      rwa [e] at this

/-- Reading the quadwords one by one. -/
theorem getElem?_words : ∀ (n : Nat) (s : Frame ρ W) (i : Nat), i < n → (s.words n)[i]? = some (s.word i)
  | 0, _, _, hi => absurd hi (Nat.not_lt_zero _)
  | n + 1, s, 0, _ => by simp [word]
  | n + 1, s, i + 1, hi => by
    have e : s.sp + 8 + BitVec.ofNat 64 (8 * i) = s.sp + BitVec.ofNat 64 (8 * (i + 1)) := by bv_omega
    rw [words_succ, List.getElem?_cons_succ, getElem?_words n _ i (by omega), word, word, ← e]

theorem word_pushWord_zero (s : Frame ρ W) (w : W) : (s.pushWord w).word 0 = w := by
  unfold word pushWord
  dsimp only
  rw [Nat.mul_zero, BitVec.ofNat_eq_ofNat, BitVec.add_zero, Function.update_self]

theorem word_pushWord_succ (s : Frame ρ W) (w : W) {i : Nat} (hi : i < 2 ^ 60) :
    (s.pushWord w).word (i + 1) = s.word i := by
  have e : s.sp - 8 + BitVec.ofNat 64 (8 * (i + 1)) = s.sp + BitVec.ofNat 64 (8 * i) := by bv_omega
  have hne : s.sp + BitVec.ofNat 64 (8 * i) ≠ s.sp - 8 := by bv_omega
  unfold word pushWord
  dsimp only
  rw [e, Function.update_of_ne hne]

theorem regs_moveTo_pushWord (s : Frame ρ W) (w : W) (a : Address) : ((s.pushWord w).moveTo a).regs = s.regs := rfl

/-- What is pushed does not show above it. -/
theorem words_pushWord (s : Frame ρ W) (w : W) (n : Nat) (hn : n < 2 ^ 60) :
    ((s.pushWord w).moveTo s.sp).words n = s.words n := by
  apply words_congr n ((s.pushWord w).moveTo s.sp) s rfl
  intro i hi
  have hne : s.sp + BitVec.ofNat 64 (8 * i) ≠ s.sp - 8 := by bv_omega
  show Function.update s.stack (s.sp - 8) w (s.sp + _) = _
  rw [Function.update_of_ne hne]
  rfl

theorem pushAll_regs (s : Frame ρ W) (rs : List ρ) : (s.pushAll rs).regs = s.regs := by
  induction rs generalizing s with
  | nil => rfl
  | cons r rs ih => rw [pushAll_cons, ih, push_regs]

theorem words_push (s : Frame ρ W) (r : ρ) (n : Nat) (hn : n < 2 ^ 60) :
    (s.push r).words (n + 1) = s.regs r :: s.words n := by
  rw [words_succ]
  congr 1
  · simp [push, pushWord]
  · apply words_congr n _ _ (show s.sp - 8 + 8 = s.sp by bv_omega)
    intro i hi
    have hne : s.sp - 8 + 8 + BitVec.ofNat 64 (8 * i) ≠ s.sp - 8 := by bv_omega
    show Function.update s.stack (s.sp - 8) (s.regs r) (s.sp - 8 + 8 + _) = _
    rw [Function.update_of_ne hne]
    rfl

/-- The pushed values lie on the stack, the last pushed lowest. -/
theorem words_pushAll (rs : List ρ) : ∀ (s : Frame ρ W) (n : Nat), rs.length + n < 2 ^ 60 →
    (s.pushAll rs).words (rs.length + n) = (rs.map s.regs).reverse ++ s.words n := by
  induction rs with
  | nil => intro s n _; simp
  | cons r rs ih =>
    intro s n hn
    rw [List.length_cons] at hn
    have e : (r :: rs).length + n = rs.length + (n + 1) := by simp; omega
    rw [e, pushAll_cons, ih (s.push r) (n + 1) (by omega), words_push s r n (by omega)]
    simp

/-! ## What a block of pops loads -/

section Pops

variable [DecidableEq ρ]

/-- Load the words into the registers, first to first; a later load of a register wins. -/
def assign (f : ρ → W) : List ρ → List W → ρ → W
  | r :: rs, w :: ws => assign (Function.update f r w) rs ws
  | _, _ => f

theorem popAll_regs (rs : List ρ) : ∀ s : Frame ρ W,
    (s.popAll rs).regs = assign s.regs rs (s.words rs.length) := by
  induction rs with
  | nil => intro s; rfl
  | cons r rs ih =>
    intro s
    rw [popAll_cons, ih, List.length_cons, words_succ]
    show assign _ rs (words _ _) = assign _ rs (words _ _)
    congr 1
    exact words_congr _ _ _ rfl fun _ _ => rfl

theorem popAll_sp (rs : List ρ) (s : Frame ρ W) :
    (s.popAll rs).sp = s.sp + BitVec.ofNat 64 (8 * rs.length) := by
  induction rs generalizing s with
  | nil => simp
  | cons r rs ih =>
    rw [popAll_cons, ih]
    show s.sp + 8 + _ = _
    rw [List.length_cons]
    bv_omega

theorem assign_of_notMem {r : ρ} : ∀ (rs : List ρ) (ws : List W) (f : ρ → W), r ∉ rs →
    assign f rs ws r = f r
  | [], _, _, _ => rfl
  | _ :: _, [], _, _ => rfl
  | q :: rs, w :: ws, f, h => by
    rw [List.mem_cons, not_or] at h
    rw [assign, assign_of_notMem rs ws _ h.2, Function.update_of_ne h.1]

/-- Distinct registers hold, in order, the words loaded into them. -/
theorem map_assign : ∀ (rs : List ρ) (ws : List W) (f : ρ → W), rs.Nodup → rs.length = ws.length →
    rs.map (assign f rs ws) = ws
  | [], [], _, _, _ => rfl
  | r :: rs, w :: ws, f, hd, hl => by
    obtain ⟨hr, hd⟩ := List.nodup_cons.1 hd
    rw [List.map_cons, assign, assign_of_notMem rs ws _ hr, Function.update_self,
      map_assign rs ws _ hd (by simpa using hl)]

/-! ## Save and restore -/

/-- Pushing `rs` and later, from any register values `f`, popping `qs` restores every popped
register exactly when the saved values read downwards are the values `qs` had. -/
theorem restore_iff (g f : ρ → W) (rs qs : List ρ) (hd : qs.Nodup) (hl : qs.length = rs.length) :
    (∀ q ∈ qs, assign f qs (rs.map g).reverse q = g q) ↔ (rs.map g).reverse = qs.map g := by
  rw [← List.map_inj_left, map_assign qs _ f hd (by simp [hl])]

end Pops

end Frame

end SaveStack
