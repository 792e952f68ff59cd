/-
The interval timer (`init_pit` of sys/pit.c) and the two handlers that are put into the descriptor table
(also `init_ps2_controller` of sys/ps2Controller.c). The timer's channel takes the count it starts again
from a byte at a time, the low one first.
-/
import Sbunix.Interrupt.Idt

namespace Sbunix.Interrupt

open BitFields

/-! ## The timer -/

/-- Bits 4 and 5 of a command. -/
inductive Access
  | lobyte | hibyte | lobyteHibyte
deriving DecidableEq, Repr

/-- Channel 0; `low` is the low byte when the high one has still to come. -/
structure PitChannel where
  access : Access
  mode : BitVec 3
  bcd : Bool
  low : Option (BitVec 8)
  reload : BitVec 16
deriving DecidableEq, Repr

def pitRateGen : BitVec 3 := 2

/-- A command for channel 0 begins anew; those for the other channels, or that latch the count, leave it
as it is. -/
def PitChannel.command (w : BitVec 8) (c : PitChannel) : PitChannel :=
  if field w 6 2 = 0 then
    if field w 4 2 = 0 then c
    else
      { c with
        access := if field w 4 2 = 1 then .lobyte else if field w 4 2 = 2 then .hibyte else .lobyteHibyte
        mode := field w 1 3
        bcd := w.getLsbD 0
        low := none }
  else c

def PitChannel.data (w : BitVec 8) (c : PitChannel) : PitChannel :=
  match c.access with
  | .lobyte => { c with reload := w.setWidth 16 }
  | .hibyte => { c with reload := w ++ (0 : BitVec 8) }
  | .lobyteHibyte =>
    match c.low with
    | none => { c with low := some w }
    | some low => { c with low := none, reload := w ++ low }

def pitChannel0 : BitVec 16 := 0x40

def pitCommand : BitVec 16 := 0x43

/-- `PIT_SQUARE_WAVE_COMMAND_VALUE` -/
def pitSquareWaveCommandValue : BitVec 8 := 0x34

def PitChannel.outportb (port : BitVec 16) (val : BitVec 8) (c : PitChannel) : PitChannel :=
  if port = pitCommand then c.command val else if port = pitChannel0 then c.data val else c

/-- `(uint16_t)(max_frequency/base_frequency)` -/
def frequency : BitVec 16 := BitVec.ofNat 16 (1193181 / 4000)

/-- `pit` is where `pit_interrupt_service_routine` stands. -/
def initPit (pit : BitVec 64) (idt : Idt) (c : PitChannel) : Option (Idt × PitChannel) := do
  let idt ← setIrInIdt idt 32 pit
  let c := c.outportb pitCommand pitSquareWaveCommandValue
  let c := c.outportb pitChannel0 (frequency.setWidth 8)
  return (idt, c.outportb pitChannel0 ((frequency >>> 8).setWidth 8))

/-- `keyboard` is where `keyboard_interrupt_service_routine` stands. -/
def initPs2Controller (keyboard : BitVec 64) (idt : Idt) : Option Idt := setIrInIdt idt 33 keyboard

/-- A rate generator that counts down from 298, not the square wave of the command's name. -/
def rateOf298 : PitChannel := ⟨.lobyteHibyte, pitRateGen, false, none, 298⟩

section Pit

variable {idt : Idt} {handler : Nat → BitVec 64} {pit keyboard : BitVec 64}

/-- Whatever the channel was doing, also with only the low byte of a count written. -/
theorem initPit_eq (pit : BitVec 64) (idt : Idt) (c : PitChannel) : initPit pit idt c =
    (setIrInIdt idt 32 pit).map fun idt => (idt, rateOf298) := by
  unfold initPit
  cases setIrInIdt idt 32 pit <;> rfl

/-- Both handlers are in the table, and all other entries are as they were. -/
theorem handlers_set (hi : Routes idt handler) (hpit : pit ≠ 0) (hkeyboard : keyboard ≠ 0) (c : PitChannel) :
    ∃ idt' idt'', initPit pit idt c = some (idt', rateOf298) ∧
      initPs2Controller keyboard idt' = some idt'' ∧
      Routes idt'' (Function.update (Function.update handler 32 pit) 33 keyboard) := by
  obtain ⟨idt', h1, hi1⟩ := hi.setIr hpit (show (32 : BitVec 16).toNat < 256 by decide)
  obtain ⟨idt'', h2, hi2⟩ := hi1.setIr hkeyboard (show (33 : BitVec 16).toNat < 256 by decide)
  refine ⟨idt', idt'', ?_, h2, hi2⟩
  rw [initPit_eq, h1]
  rfl

theorem handlers_get (hi : Routes idt (Function.update (Function.update handler 32 pit) 33 keyboard)) :
    getIrFromIdt idt 32 = pit ∧ getIrFromIdt idt 33 = keyboard := by
  rw [hi.getIr, hi.getIr]
  exact ⟨rfl, rfl⟩

end Pit

end Sbunix.Interrupt
