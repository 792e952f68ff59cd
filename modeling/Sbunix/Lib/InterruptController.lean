/-
A programmable interrupt controller (an 8259): eight request lines of which line 0 goes first, words that
are written to a command and a data port, and two such chips of which the second one's output is a line of
the first. A word whose effect is not described here (level triggering, polling, the special mask,
rotating priorities) leads to no state.
-/
import Mathlib.Data.Fin.Tuple.Basic
import Mathlib.Tactic.Common

namespace InterruptController

/-! ## Bits -/

abbrev Line := Fin 8

def isSet (x : BitVec 8) (n : Line) : Bool := x.getLsbD n

def bit (n : Line) : BitVec 8 := BitVec.twoPow 8 n

def setBit (x : BitVec 8) (n : Line) : BitVec 8 := x ||| bit n

def clearBit (x : BitVec 8) (n : Line) : BitVec 8 := x &&& ~~~bit n

/-- The bit of the line that goes first. -/
def highest (x : BitVec 8) : Option Line := Fin.find? (isSet x)

/-! ## A chip -/

/-- What the next word to the data port is. -/
inductive Expected
  | operation | icw2 | icw3 | icw4
deriving DecidableEq, Repr

structure Chip where
  requested : BitVec 8
  inService : BitVec 8
  masked : BitVec 8
  offset : BitVec 8
  cascade : BitVec 8
  mode : BitVec 8
  expected : Expected
  single : Bool
  icw4 : Bool
  readsInService : Bool
deriving DecidableEq, Repr

/-- A device raises the line. -/
def Chip.raise (n : Line) (c : Chip) : Chip := { c with requested := setBit c.requested n }

/-- The line the chip asks the processor to serve: the first that is requested and not masked, if it
goes before those in service. -/
def Chip.output (c : Chip) : Option Line :=
  match highest (c.requested &&& ~~~c.masked) with
  | none => none
  | some n =>
    match highest c.inService with
    | none => some n
    | some m => if n < m then some n else none

/-- The number that is put on the bus for a line. -/
def Chip.vector (c : Chip) (n : Line) : BitVec 8 := c.offset ||| BitVec.ofNat 8 n

/-- Bit 1 of the mode ends each interrupt as it is acknowledged. -/
def Chip.acknowledge (n : Line) (c : Chip) : Chip :=
  { c with
    requested := clearBit c.requested n
    inService := if c.mode.getLsbD 1 then c.inService else setBit c.inService n }

/-- The first of the lines in service. -/
def Chip.endOfInterrupt (c : Chip) : Chip :=
  match highest c.inService with
  | none => c
  | some n => { c with inService := clearBit c.inService n }

/-- A word to the command port: with bit 4 the first of the initialization words, with bit 3 the choice of
the register that is read, else an end of interrupt. -/
def Chip.command (w : BitVec 8) (c : Chip) : Option Chip :=
  if w.getLsbD 4 then
    if w.getLsbD 3 then none
    else
      some { c with
        requested := 0
        masked := 0
        mode := 0
        expected := .icw2
        single := w.getLsbD 1
        icw4 := w.getLsbD 0
        readsInService := false }
  else if w.getLsbD 3 then
    if w.getLsbD 2 || w.getLsbD 6 then none
    else some (if w.getLsbD 1 then { c with readsInService := w.getLsbD 0 } else c)
  else if w >>> 5 = 1 then some c.endOfInterrupt
  else if w >>> 5 = 3 then some { c with inService := c.inService &&& ~~~BitVec.twoPow 8 (w &&& 7).toNat }
  else if w >>> 5 = 2 then some c
  else none

/-- What is expected behind the third word. -/
def Chip.afterIcw3 (c : Chip) : Expected := if c.icw4 then .icw4 else .operation

/-- A word to the data port. The low three bits of the offset are the line's. -/
def Chip.data (w : BitVec 8) (c : Chip) : Chip :=
  match c.expected with
  | .icw2 => { c with offset := w &&& 0xF8, expected := if c.single then c.afterIcw3 else .icw3 }
  | .icw3 => { c with cascade := w, expected := c.afterIcw3 }
  | .icw4 => { c with mode := w, expected := .operation }
  | .operation => { c with masked := w }

def Chip.readCommand (c : Chip) : BitVec 8 := if c.readsInService then c.inService else c.requested

def Chip.readData (c : Chip) : BitVec 8 := c.masked

/-! ## Two chips -/

/-- The second chip's output is a line of the first. -/
structure Pair where
  master : Chip
  slave : Chip
deriving DecidableEq, Repr

def cascadeLine : Line := 2

/-- A line of either chip. -/
inductive Source
  | master (n : Line)
  | slave (n : Line)
deriving DecidableEq, Repr

/-- From 0 to 15. -/
def Source.number : Source → Nat
  | .master n => n
  | .slave n => 8 + n

/-- The line of the first chip on which it comes. -/
def Source.upper : Source → Line
  | .master n => n
  | .slave _ => cascadeLine

def Pair.raise (q : Source) (p : Pair) : Pair :=
  match q with
  | .master n => { p with master := p.master.raise n }
  | .slave n => { p with slave := p.slave.raise n }

/-- The first chip with the line of the second as it is. -/
def Pair.upper (p : Pair) : Chip :=
  { p.master with
    requested :=
      if p.slave.output.isSome then setBit p.master.requested cascadeLine
      else clearBit p.master.requested cascadeLine }

/-- The line that is served next, its vector and what is left. A second chip that was not told that it is
one gives no vector. -/
def Pair.accept (p : Pair) : Option (Source × BitVec 8 × Pair) :=
  match p.upper.output with
  | none => none
  | some n =>
    if n = cascadeLine then
      match p.slave.output with
      | none => none
      | some k =>
        if isSet p.master.cascade cascadeLine && p.slave.cascade == 2 then
          some (.slave k, p.slave.vector k, ⟨p.upper.acknowledge cascadeLine, p.slave.acknowledge k⟩)
        else none
    else some (.master n, p.master.vector n, { p with master := p.master.acknowledge n })

section Bits

variable {x y : BitVec 8} {n m : Line}

/-- Bytes are the same if each line's bit is. -/
theorem eq_of_lines (h : ∀ n : Line, isSet x n = isSet y n) : x = y :=
  BitVec.eq_of_getLsbD_eq fun i hi => h ⟨i, hi⟩

@[simp] theorem isSet_zero : isSet 0 n = false := BitVec.getLsbD_zero

@[simp] theorem isSet_or : isSet (x ||| y) n = (isSet x n || isSet y n) := BitVec.getLsbD_or

@[simp] theorem isSet_and : isSet (x &&& y) n = (isSet x n && isSet y n) := BitVec.getLsbD_and

@[simp] theorem isSet_not : isSet (~~~x) n = !isSet x n := by
  unfold isSet
  rw [BitVec.getLsbD_not, decide_eq_true n.isLt, Bool.true_and]

@[simp] theorem isSet_bit : isSet (bit n) m = decide (n = m) := by
  unfold isSet bit
  rw [BitVec.getLsbD_twoPow, decide_eq_true n.isLt, Bool.true_and]
  exact decide_eq_decide.2 Fin.ext_iff.symm

@[simp] theorem isSet_setBit : isSet (setBit x n) m = (isSet x m || decide (n = m)) := by
  unfold setBit
  rw [isSet_or, isSet_bit]

@[simp] theorem isSet_clearBit : isSet (clearBit x n) m = (isSet x m && !decide (n = m)) := by
  unfold clearBit
  rw [isSet_and, isSet_not, isSet_bit]

theorem highest_eq_some_iff : highest x = some n ↔ isSet x n = true ∧ ∀ m < n, isSet x m = false := by
  unfold highest
  rw [Fin.find?_eq_some_iff]

theorem highest_eq_none_iff : highest x = none ↔ x = 0 := by
  unfold highest
  rw [Fin.find?_eq_none_iff]
  constructor
  · intro h
    refine eq_of_lines fun n => ?_
    rw [h n, isSet_zero]
  · rintro rfl n
    exact isSet_zero

end Bits

section Chip

variable {c : Chip} {n m : Line}

/-- A line is served before those behind it that are requested, and before all that are in service. -/
theorem output_eq_some_iff : c.output = some n ↔
    (isSet c.requested n = true ∧ isSet c.masked n = false) ∧
      (∀ m < n, isSet c.requested m = true → isSet c.masked m = true) ∧
      ∀ m ≤ n, isSet c.inService m = false := by
  have hfirst : highest (c.requested &&& ~~~c.masked) = some n ↔
      (isSet c.requested n = true ∧ isSet c.masked n = false) ∧
        ∀ m < n, isSet c.requested m = true → isSet c.masked m = true := by
    rw [highest_eq_some_iff]
    simp
  unfold Chip.output
  constructor
  · intro h
    cases hreq : highest (c.requested &&& ~~~c.masked) with
    | none => rw [hreq] at h; cases h
    | some k =>
      rw [hreq] at h
      dsimp only at h
      cases hserv : highest c.inService with
      | none =>
        rw [hserv] at h
        cases h
        obtain ⟨h1, h2⟩ := hfirst.1 hreq
        refine ⟨h1, h2, fun m _ => ?_⟩
        rw [highest_eq_none_iff.1 hserv, isSet_zero]
      | some j =>
        rw [hserv] at h
        dsimp only at h
        split at h
        · next hlt =>
          cases h
          obtain ⟨h1, h2⟩ := hfirst.1 hreq
          exact ⟨h1, h2, fun m hm => (highest_eq_some_iff.1 hserv).2 m (lt_of_le_of_lt hm hlt)⟩
        · cases h
  · rintro ⟨h1, h2, h3⟩
    rw [hfirst.2 ⟨h1, h2⟩]
    dsimp only
    cases hserv : highest c.inService with
    | none => rfl
    | some j =>
      dsimp only
      refine if_pos (lt_of_not_ge fun hle => ?_)
      have hj := (highest_eq_some_iff.1 hserv).1
      rw [h3 j hle] at hj
      cases hj

/-- With one line in service none is afterwards. -/
theorem endOfInterrupt_single (h : ∀ m, isSet c.inService m = true ↔ n = m) : c.endOfInterrupt.inService = 0 := by
  have hfirst : highest c.inService = some n := by
    rw [highest_eq_some_iff, h]
    refine ⟨rfl, fun m hm => ?_⟩
    rw [← Bool.not_eq_true, h]
    exact ne_of_gt hm
  unfold Chip.endOfInterrupt
  rw [hfirst]
  refine eq_of_lines fun m => ?_
  rw [isSet_clearBit, isSet_zero, Bool.and_eq_false_iff, Bool.not_eq_false', decide_eq_true_eq, ← h m]
  exact (Bool.eq_false_or_eq_true _).symm

theorem endOfInterrupt_requested (c : Chip) : c.endOfInterrupt.requested = c.requested := by
  unfold Chip.endOfInterrupt
  split <;> rfl

theorem endOfInterrupt_masked (c : Chip) : c.endOfInterrupt.masked = c.masked := by
  unfold Chip.endOfInterrupt
  split <;> rfl

/-- What is in service goes before what is asked for. -/
theorem output_lt (h : c.output = some n) (hm : isSet c.inService m = true) : n < m := by
  obtain ⟨-, -, hbefore⟩ := output_eq_some_iff.1 h
  refine lt_of_not_ge fun hle => ?_
  rw [hbefore m hle] at hm
  cases hm

end Chip

section Pair

variable {p p' : Pair} {q : Source} {vector : BitVec 8}

/-- The lines of the first chip but the second one's, and those of the second. -/
theorem accept_cases (h : p.accept = some (q, vector, p')) :
    (∃ n, n ≠ cascadeLine ∧ p.upper.output = some n ∧ q = .master n ∧ vector = p.master.vector n ∧
      p' = { p with master := p.master.acknowledge n }) ∨
    ∃ k, p.upper.output = some cascadeLine ∧ p.slave.output = some k ∧ q = .slave k ∧
      vector = p.slave.vector k ∧ p' = ⟨p.upper.acknowledge cascadeLine, p.slave.acknowledge k⟩ := by
  unfold Pair.accept at h
  cases hupper : p.upper.output with
  | none => rw [hupper] at h; cases h
  | some n =>
    rw [hupper] at h
    dsimp only at h
    by_cases hn : n = cascadeLine
    · rw [if_pos hn] at h
      cases hslave : p.slave.output with
      | none => rw [hslave] at h; cases h
      | some k =>
        rw [hslave] at h
        dsimp only at h
        split at h
        · cases h
          exact .inr ⟨k, congrArg some hn, rfl, rfl, rfl, rfl⟩
        · cases h
    · rw [if_neg hn] at h
      cases h
      exact .inl ⟨n, hn, rfl, rfl, rfl, rfl⟩

end Pair

end InterruptController
