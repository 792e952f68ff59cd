/-
The interrupt controllers and their driver (sys/pic.c): the words that `init_pic` sends, what the two
functions that ask for a register are answered, and the ends of interrupts.
-/
import Sbunix.Lib.InterruptController
import Sbunix.Lib.Run

namespace Sbunix.Interrupt

open InterruptController Transition

def picIrqTimer : Line := ⟨0, by decide⟩

def picIrqKeyboard : Line := ⟨1, by decide⟩

def picIrqMouse : Line := ⟨4, by decide⟩

/-! ## The ports -/

def masterPicId : BitVec 8 := 0

def slavePicId : BitVec 8 := 1

def masterPicCommand : BitVec 8 := 0x20

def masterPicData : BitVec 8 := 0x21

def slavePicCommand : BitVec 8 := 0xA0

def slavePicData : BitVec 8 := 0xA1

/-- `PIC_ICW1_MASK_INIT | PIC_ICW1_MASK_ICW4` -/
def picIcw1 : BitVec 8 := 0x10 ||| 0x01

def picIcw4Mask8086 : BitVec 8 := 0x01

def picOcw3Isr : BitVec 8 := 0x0a

def picOcw3Irr : BitVec 8 := 0x0b

def picEoi : BitVec 8 := 0x20

/-- The other ports are not the controllers'. -/
def outportb (port : BitVec 16) (val : BitVec 8) (p : Pair) : Option Pair :=
  if port = masterPicCommand.setWidth 16 then (p.master.command val).map fun c => { p with master := c }
  else if port = masterPicData.setWidth 16 then some { p with master := p.master.data val }
  else if port = slavePicCommand.setWidth 16 then (p.slave.command val).map fun c => { p with slave := c }
  else if port = slavePicData.setWidth 16 then some { p with slave := p.slave.data val }
  else some p

def inportb (port : BitVec 16) (p : Pair) : Option (BitVec 8) :=
  if port = masterPicCommand.setWidth 16 then some p.master.readCommand
  else if port = masterPicData.setWidth 16 then some p.master.readData
  else if port = slavePicCommand.setWidth 16 then some p.slave.readCommand
  else if port = slavePicData.setWidth 16 then some p.slave.readData
  else none

/-- `outb %al, $0x80` -/
def ioWait (p : Pair) : Option Pair := outportb 0x80 0 p

/-! ## The driver -/

def writeDataToPic (data picNum : BitVec 8) (p : Pair) : Option Pair :=
  if picNum = masterPicId then outportb (masterPicData.setWidth 16) data p
  else if picNum = slavePicId then outportb (slavePicData.setWidth 16) data p
  else some p

def writeCommandWordToPic (cmd picNum : BitVec 8) (p : Pair) : Option Pair :=
  if picNum = masterPicId then outportb (masterPicCommand.setWidth 16) cmd p
  else if picNum = slavePicId then outportb (slavePicCommand.setWidth 16) cmd p
  else some p

def readDataFromPic (picNum : BitVec 8) (p : Pair) : Option (BitVec 8) :=
  if picNum = masterPicId then inportb (masterPicData.setWidth 16) p
  else if picNum = slavePicId then inportb (slavePicData.setWidth 16) p
  else some 0

def readCommandWordFromPic (picNum : BitVec 8) (p : Pair) : Option (BitVec 8) :=
  if picNum = masterPicId then inportb (masterPicCommand.setWidth 16) p
  else if picNum = slavePicId then inportb (slavePicCommand.setWidth 16) p
  else some 0

def initPic (offset1 offset2 : BitVec 8) (p : Pair) : Option Pair := do
  let masterData ← readDataFromPic masterPicId p
  let slaveData ← readDataFromPic slavePicId p
  let p ← writeCommandWordToPic picIcw1 masterPicId p
  let p ← ioWait p
  let p ← writeCommandWordToPic picIcw1 slavePicId p
  let p ← ioWait p
  let p ← writeDataToPic offset1 masterPicId p
  let p ← ioWait p
  let p ← writeDataToPic offset2 slavePicId p
  let p ← ioWait p
  let p ← writeDataToPic 0x04 masterPicId p
  let p ← ioWait p
  let p ← writeDataToPic 0x02 slavePicId p
  let p ← ioWait p
  let p ← writeDataToPic picIcw4Mask8086 masterPicId p
  let p ← ioWait p
  let p ← writeDataToPic picIcw4Mask8086 slavePicId p
  let p ← ioWait p
  let p ← writeDataToPic masterData masterPicId p
  let p ← ioWait p
  let p ← writeDataToPic slaveData slavePicId p
  ioWait p

/-- The command goes to both controllers, whose answers are put side by side. -/
def readRegisters (cmd : BitVec 8) (p : Pair) : Option (BitVec 16 × Pair) := do
  let p ← writeCommandWordToPic cmd masterPicId p
  let p ← writeCommandWordToPic cmd slavePicId p
  let master ← readCommandWordFromPic masterPicId p
  let slave ← readCommandWordFromPic slavePicId p
  return (master.setWidth 16 <<< 8 ||| slave.setWidth 16, p)

def getPicIsr (p : Pair) : Option (BitVec 16 × Pair) := readRegisters picOcw3Isr p

def getPicIrr (p : Pair) : Option (BitVec 16 × Pair) := readRegisters picOcw3Irr p

def endOfInterrupt (interruptNum : BitVec 8) (p : Pair) : Option Pair :=
  if interruptNum.toNat > 15 then some p
  else if interruptNum.toNat ≥ 8 then do
    let p ← writeCommandWordToPic picEoi slavePicId p
    writeCommandWordToPic picEoi masterPicId p
  else writeCommandWordToPic picEoi masterPicId p

/-! ## Initialization -/

/-- The chip as `init_pic` leaves it: its requests are gone, what it had in service and what it had masked
are as they were. -/
def programmed (offset cascade : BitVec 8) (c : Chip) : Chip where
  requested := 0
  inService := c.inService
  masked := c.masked
  offset := offset &&& 0xF8
  cascade := cascade
  mode := picIcw4Mask8086
  expected := .operation
  single := false
  icw4 := true
  readsInService := false

/-- Whatever the controllers were doing, also in the middle of an initialization. -/
theorem initPic_eq (offset1 offset2 : BitVec 8) (p : Pair) : initPic offset1 offset2 p =
    some ⟨programmed offset1 0x04 p.master, programmed offset2 0x02 p.slave⟩ := rfl

/-- Ready for operation, with interrupts that are ended by the driver. -/
structure ProgrammedChip (offset cascade : BitVec 8) (c : Chip) : Prop where
  expected : c.expected = .operation
  offset : c.offset = offset &&& 0xF8
  cascade : c.cascade = cascade
  mode : c.mode = picIcw4Mask8086

structure Programmed (offset1 offset2 : BitVec 8) (p : Pair) : Prop where
  master : ProgrammedChip offset1 0x04 p.master
  slave : ProgrammedChip offset2 0x02 p.slave

/-- The vector of a line: the low three bits of an offset are not used. -/
def vectorOf (offset1 offset2 : BitVec 8) : Source → BitVec 8
  | .master n => (offset1 &&& 0xF8) ||| BitVec.ofNat 8 n
  | .slave n => (offset2 &&& 0xF8) ||| BitVec.ofNat 8 n

/-! ## Interrupts in service -/

/-- The controllers and the lines whose handlers have begun, the innermost first. -/
structure Serving where
  pics : Pair
  lines : List Source

inductive ServingEvent
  | request (q : Source)
  | mask (master slave : BitVec 8)
  | accept (q : Source) (vector : BitVec 8)
  | finish (q : Source)
  | isr (word : BitVec 16)
  | irr (word : BitVec 16)

/-- Lines are requested and masked and registers read at any time; the innermost handler ends first, with
the end of interrupt of its line. No device has the line that the second controller is on. -/
inductive ServingStep (s : Serving) : ServingEvent → Serving → Prop
  | request {q : Source} : q ≠ .master cascadeLine → ServingStep s (.request q) ⟨s.pics.raise q, s.lines⟩
  | mask {master slave : BitVec 8} {p : Pair} :
      (writeDataToPic master masterPicId s.pics >>= writeDataToPic slave slavePicId) = some p →
      ServingStep s (.mask master slave) ⟨p, s.lines⟩
  | accept {q : Source} {vector : BitVec 8} {p : Pair} : s.pics.accept = some (q, vector, p) →
      ServingStep s (.accept q vector) ⟨p, q :: s.lines⟩
  | finish {q : Source} {lines : List Source} {p : Pair} : s.lines = q :: lines →
      endOfInterrupt (BitVec.ofNat 8 q.number) s.pics = some p → ServingStep s (.finish q) ⟨p, lines⟩
  | isr {word : BitVec 16} {p : Pair} : getPicIsr s.pics = some (word, p) →
      ServingStep s (.isr word) ⟨p, s.lines⟩
  | irr {word : BitVec 16} {p : Pair} : getPicIrr s.pics = some (word, p) →
      ServingStep s (.irr word) ⟨p, s.lines⟩

/-- The controllers have in service the lines whose handlers have begun, each of which goes before those
it has interrupted. -/
structure InService (s : Serving) : Prop where
  master : ∀ n, isSet s.pics.master.inService n = true ↔ ∃ q ∈ s.lines, q.upper = n
  slave : ∀ k, isSet s.pics.slave.inService k = true ↔ .slave k ∈ s.lines
  nested : s.lines.Pairwise fun q r => q.upper < r.upper

section Serving

variable {offset1 offset2 offset cascade w : BitVec 8} {p p' : Pair} {c : Chip} {s t : Serving}
  {q : Source} {vector : BitVec 8} {n : Line} {lines : List Source}

theorem ProgrammedChip.raise (h : ProgrammedChip offset cascade c) (n : Line) :
    ProgrammedChip offset cascade (c.raise n) := ⟨h.expected, h.offset, h.cascade, h.mode⟩

theorem ProgrammedChip.acknowledge (h : ProgrammedChip offset cascade c) (n : Line) :
    ProgrammedChip offset cascade (c.acknowledge n) := ⟨h.expected, h.offset, h.cascade, h.mode⟩

theorem ProgrammedChip.endOfInterrupt (h : ProgrammedChip offset cascade c) :
    ProgrammedChip offset cascade c.endOfInterrupt := by
  unfold Chip.endOfInterrupt
  split
  · exact h
  · exact ⟨h.expected, h.offset, h.cascade, h.mode⟩

theorem ProgrammedChip.data_eq (h : ProgrammedChip offset cascade c) (w : BitVec 8) :
    c.data w = { c with masked := w } := by
  unfold Chip.data
  rw [h.expected]

theorem ProgrammedChip.mode_bit (h : ProgrammedChip offset cascade c) : c.mode.getLsbD 1 = false := by
  rw [h.mode]
  rfl

theorem ProgrammedChip.acknowledge_inService (h : ProgrammedChip offset cascade c) (n : Line) :
    (c.acknowledge n).inService = setBit c.inService n :=
  if_neg (by rw [h.mode_bit]; decide)

theorem Programmed.raise (h : Programmed offset1 offset2 p) (q : Source) :
    Programmed offset1 offset2 (p.raise q) := by
  cases q with
  | master n => exact ⟨h.master.raise n, h.slave⟩
  | slave k => exact ⟨h.master, h.slave.raise k⟩

theorem Programmed.mask_eq (h : Programmed offset1 offset2 p) (master slave : BitVec 8) :
    (writeDataToPic master masterPicId p >>= writeDataToPic slave slavePicId) =
      some ⟨{ p.master with masked := master }, { p.slave with masked := slave }⟩ := by
  have hwrite : (writeDataToPic master masterPicId p >>= writeDataToPic slave slavePicId) =
      some ⟨p.master.data master, p.slave.data slave⟩ := rfl
  rw [hwrite, h.master.data_eq, h.slave.data_eq]

/-- The vector of the line is its number behind the offset of its controller. -/
theorem Programmed.accept (h : Programmed offset1 offset2 p) (ha : p.accept = some (q, vector, p')) :
    Programmed offset1 offset2 p' ∧ vector = vectorOf offset1 offset2 q := by
  obtain ⟨n, -, -, rfl, rfl, rfl⟩ | ⟨k, -, -, rfl, rfl, rfl⟩ := accept_cases ha
  · refine ⟨⟨h.master.acknowledge n, h.slave⟩, ?_⟩
    unfold Chip.vector vectorOf
    rw [h.master.offset]
  · refine ⟨⟨?_, h.slave.acknowledge k⟩, ?_⟩
    · exact ⟨h.master.expected, h.master.offset, h.master.cascade, h.master.mode⟩
    · unfold Chip.vector vectorOf
      rw [h.slave.offset]

/-! ### The registers -/

/-- Which register is read next. -/
def select (inService : Bool) (p : Pair) : Pair :=
  ⟨{ p.master with readsInService := inService }, { p.slave with readsInService := inService }⟩

theorem shifted_or (x y : BitVec 8) : x.setWidth 16 <<< 8 ||| y.setWidth 16 = x ++ y := by
  apply BitVec.eq_of_getLsbD_eq
  intro i hi
  rw [BitVec.getLsbD_or, BitVec.getLsbD_append]
  by_cases h : i < 8
  · simp [h, hi]
  · rw [BitVec.getLsbD_setWidth, BitVec.getLsbD_of_ge y i (by omega)]
    simp [h, hi]

theorem getPicIsr_eq (p : Pair) :
    getPicIsr p = some (p.master.requested ++ p.slave.requested, select false p) := by
  rw [← shifted_or]
  rfl

theorem getPicIrr_eq (p : Pair) :
    getPicIrr p = some (p.master.inService ++ p.slave.inService, select true p) := by
  rw [← shifted_or]
  rfl

theorem Programmed.select (h : Programmed offset1 offset2 p) (inService : Bool) :
    Programmed offset1 offset2 (select inService p) :=
  ⟨⟨h.master.expected, h.master.offset, h.master.cascade, h.master.mode⟩,
    ⟨h.slave.expected, h.slave.offset, h.slave.cascade, h.slave.mode⟩⟩

/-! ### The ends of interrupts -/

theorem endOfInterrupt_master (n : Line) (p : Pair) :
    endOfInterrupt (BitVec.ofNat 8 (Source.master n).number) p =
      some { p with master := p.master.endOfInterrupt } := by
  have hn := n.isLt
  have hnum : (BitVec.ofNat 8 (Source.master n).number).toNat = n := by
    rw [BitVec.toNat_ofNat]
    exact Nat.mod_eq_of_lt (Nat.lt_trans hn (by decide))
  unfold endOfInterrupt
  rw [hnum, if_neg (by omega), if_neg (by omega)]
  rfl

theorem endOfInterrupt_slave (k : Line) (p : Pair) :
    endOfInterrupt (BitVec.ofNat 8 (Source.slave k).number) p =
      some ⟨p.master.endOfInterrupt, p.slave.endOfInterrupt⟩ := by
  have hk := k.isLt
  have hnum : (BitVec.ofNat 8 (Source.slave k).number).toNat = 8 + k := by
    rw [BitVec.toNat_ofNat]
    exact Nat.mod_eq_of_lt (Nat.lt_trans (Nat.add_lt_add_left hk 8) (by decide))
  unfold endOfInterrupt
  rw [hnum, if_neg (by omega), if_pos (by omega)]
  rfl

/-- The innermost handler's line is the first in service. -/
theorem InService.endOfInterrupt (h : InService s) (hlines : s.lines = q :: lines) :
    s.pics.master.endOfInterrupt = { s.pics.master with inService := clearBit s.pics.master.inService q.upper } := by
  have hnested := h.nested
  rw [hlines, List.pairwise_cons] at hnested
  have hfirst : highest s.pics.master.inService = some q.upper := by
    rw [highest_eq_some_iff, h.master, hlines]
    refine ⟨⟨q, List.mem_cons_self, rfl⟩, fun m hm => ?_⟩
    rw [← Bool.not_eq_true, h.master, hlines]
    rintro ⟨r, hr, rfl⟩
    rcases List.mem_cons.1 hr with rfl | hr
    · exact lt_irrefl _ hm
    · exact lt_asymm hm (hnested.1 r hr)
  unfold Chip.endOfInterrupt
  rw [hfirst]

/-- At most one line of the second controller is in service, and only as the innermost. -/
theorem InService.slave_of_innermost {k : Line} (h : InService s) (hlines : s.lines = .slave k :: lines) :
    ∀ j, Source.slave j ∉ lines := by
  have hnested := h.nested
  rw [hlines, List.pairwise_cons] at hnested
  exact fun j hj => lt_irrefl cascadeLine (hnested.1 (.slave j) hj)

theorem InService.slave_endOfInterrupt {k : Line} (h : InService s) (hlines : s.lines = .slave k :: lines) :
    s.pics.slave.endOfInterrupt = { s.pics.slave with inService := clearBit s.pics.slave.inService k } := by
  have hfirst : highest s.pics.slave.inService = some k := by
    rw [highest_eq_some_iff, h.slave, hlines]
    refine ⟨List.mem_cons_self, fun j hj => ?_⟩
    rw [← Bool.not_eq_true, h.slave, hlines, List.mem_cons]
    rintro (heq | hmem)
    · cases heq
      exact lt_irrefl _ hj
    · exact h.slave_of_innermost hlines j hmem
  unfold Chip.endOfInterrupt
  rw [hfirst]

/-! ### One step -/

/-- What is accepted goes before all handlers that have begun. -/
theorem InService.accept (h : InService s) (hp : Programmed offset1 offset2 s.pics)
    (ha : s.pics.accept = some (q, vector, p)) : InService ⟨p, q :: s.lines⟩ := by
  obtain ⟨n, hn, hout, rfl, -, rfl⟩ | ⟨k, hout, hslave, rfl, -, rfl⟩ := accept_cases ha
  · have hbefore : ∀ r ∈ s.lines, n < r.upper := fun r hr => output_lt hout ((h.master _).2 ⟨r, hr, rfl⟩)
    constructor
    case master =>
      intro m
      dsimp only
      rw [hp.master.acknowledge_inService, isSet_setBit, Bool.or_eq_true, h.master, decide_eq_true_eq]
      simp [Source.upper, or_comm]
    case slave =>
      intro j
      dsimp only
      rw [h.slave]
      simp
    case nested => exact List.pairwise_cons.2 ⟨hbefore, h.nested⟩
  · have hbefore : ∀ r ∈ s.lines, cascadeLine < r.upper :=
      fun r hr => output_lt hout ((h.master _).2 ⟨r, hr, rfl⟩)
    constructor
    case master =>
      intro m
      have hupper : (s.pics.upper.acknowledge cascadeLine).inService =
          setBit s.pics.master.inService cascadeLine := hp.master.acknowledge_inService cascadeLine
      dsimp only
      rw [hupper, isSet_setBit, Bool.or_eq_true, h.master, decide_eq_true_eq]
      simp [Source.upper, or_comm]
    case slave =>
      intro j
      dsimp only
      rw [hp.slave.acknowledge_inService, isSet_setBit, Bool.or_eq_true, h.slave, decide_eq_true_eq]
      simp [or_comm, eq_comm]
    case nested => exact List.pairwise_cons.2 ⟨hbefore, h.nested⟩

theorem InService.finish (h : InService s) (hp : Programmed offset1 offset2 s.pics)
    (hlines : s.lines = q :: lines) (he : Interrupt.endOfInterrupt (BitVec.ofNat 8 q.number) s.pics = some p) :
    InService ⟨p, lines⟩ ∧ Programmed offset1 offset2 p := by
  have hnested := h.nested
  rw [hlines, List.pairwise_cons] at hnested
  -- the lines that are still in service, on the first controller
  have hmaster : ∀ n, isSet s.pics.master.endOfInterrupt.inService n = true ↔ ∃ r ∈ lines, r.upper = n := by
    intro n
    rw [h.endOfInterrupt hlines]
    dsimp only
    rw [isSet_clearBit, Bool.and_eq_true, h.master, hlines, Bool.not_eq_true', decide_eq_false_iff_not]
    constructor
    · rintro ⟨⟨r, hr, rfl⟩, hne⟩
      rcases List.mem_cons.1 hr with rfl | hr
      · exact absurd rfl hne
      · exact ⟨r, hr, rfl⟩
    · rintro ⟨r, hr, rfl⟩
      exact ⟨⟨r, List.mem_cons_of_mem _ hr, rfl⟩, ne_of_lt (hnested.1 r hr)⟩
  cases q with
  | master n =>
    rw [endOfInterrupt_master] at he
    cases he
    refine ⟨⟨hmaster, fun j => ?_, hnested.2⟩, hp.master.endOfInterrupt, hp.slave⟩
    dsimp only
    rw [h.slave, hlines, List.mem_cons, or_iff_right (by simp)]
  | slave k =>
    rw [endOfInterrupt_slave] at he
    cases he
    refine ⟨⟨hmaster, fun j => ?_, hnested.2⟩, hp.master.endOfInterrupt, hp.slave.endOfInterrupt⟩
    dsimp only
    rw [h.slave_endOfInterrupt hlines]
    dsimp only
    rw [isSet_clearBit, Bool.and_eq_true, h.slave, hlines, List.mem_cons, Bool.not_eq_true',
      decide_eq_false_iff_not]
    constructor
    · rintro ⟨hj | hj, hne⟩
      · cases hj
        exact absurd rfl hne
      · exact hj
    · intro hj
      exact absurd hj (h.slave_of_innermost hlines j)

theorem inService_step {event : ServingEvent} (h : InService s) (hp : Programmed offset1 offset2 s.pics)
    (hstep : ServingStep s event t) : InService t ∧ Programmed offset1 offset2 t.pics ∧
      ∀ q vector, event = .accept q vector → vector = vectorOf offset1 offset2 q := by
  cases hstep with
  | @request q hq =>
    refine ⟨?_, hp.raise q, fun _ _ he => by cases he⟩
    cases q with
    | master n => exact ⟨h.master, h.slave, h.nested⟩
    | slave k => exact ⟨h.master, h.slave, h.nested⟩
  | mask hw =>
    rw [hp.mask_eq] at hw
    cases hw
    refine ⟨⟨h.master, h.slave, h.nested⟩, ⟨⟨?_, ?_, ?_, ?_⟩, ⟨?_, ?_, ?_, ?_⟩⟩, fun _ _ he => by cases he⟩
    · exact hp.master.expected
    · exact hp.master.offset
    · exact hp.master.cascade
    · exact hp.master.mode
    · exact hp.slave.expected
    · exact hp.slave.offset
    · exact hp.slave.cascade
    · exact hp.slave.mode
  | accept ha =>
    refine ⟨h.accept hp ha, (hp.accept ha).1, fun _ _ he => ?_⟩
    cases he
    exact (hp.accept ha).2
  | finish hlines he =>
    obtain ⟨hin, hprog⟩ := h.finish hp hlines he
    exact ⟨hin, hprog, fun _ _ hev => by cases hev⟩
  | isr hr =>
    rw [getPicIsr_eq] at hr
    cases hr
    exact ⟨⟨h.master, h.slave, h.nested⟩, hp.select false, fun _ _ hev => by cases hev⟩
  | irr hr =>
    rw [getPicIrr_eq] at hr
    cases hr
    exact ⟨⟨h.master, h.slave, h.nested⟩, hp.select true, fun _ _ hev => by cases hev⟩

end Serving

/-- Where the run of the kernel begins. -/
theorem inService_init {offset1 offset2 : BitVec 8} {p p' : Pair}
    (hinit : initPic offset1 offset2 p = some p') (hmaster : p.master.inService = 0)
    (hslave : p.slave.inService = 0) : InService ⟨p', []⟩ ∧ Programmed offset1 offset2 p' := by
  rw [initPic_eq] at hinit
  cases hinit
  refine ⟨⟨fun n => ?_, fun k => ?_, .nil⟩, ⟨rfl, rfl, rfl, rfl⟩, ⟨rfl, rfl, rfl, rfl⟩⟩
  · unfold programmed
    dsimp only
    rw [hmaster, isSet_zero]
    simp
  · unfold programmed
    dsimp only
    rw [hslave, isSet_zero]
    simp

/-- Whatever the controllers were doing, `init_pic` programs both and leaves their masks. With nothing in
service, every line is then given the vector of its number, and however interrupts come, are masked and
interrupt each other, exactly the lines whose handlers have begun are in service. -/
theorem in_service_run {p : Pair} (hmaster : p.master.inService = 0) (hslave : p.slave.inService = 0)
    (offset1 offset2 : BitVec 8) : ∃ p', initPic offset1 offset2 p = some p' ∧ Programmed offset1 offset2 p' ∧
      p'.master.masked = p.master.masked ∧ p'.slave.masked = p.slave.masked ∧
      ∀ events s, Run ServingStep ⟨p', []⟩ events s →
        InService s ∧ ∀ q vector, .accept q vector ∈ events → vector = vectorOf offset1 offset2 q := by
  have hinit := initPic_eq offset1 offset2 p
  have hstart := inService_init hinit hmaster hslave
  refine ⟨_, hinit, hstart.2, rfl, rfl, fun events s h => ?_⟩
  have hall : (InService s ∧ Programmed offset1 offset2 s.pics) ∧
      ∀ q vector, .accept q vector ∈ events → vector = vectorOf offset1 offset2 q := by
    refine h.invariant_steps (fun events s => (InService s ∧ Programmed offset1 offset2 s.pics) ∧
      ∀ q vector, .accept q vector ∈ events → vector = vectorOf offset1 offset2 q)
      ⟨hstart, fun q vector hmem => by cases hmem⟩ ?_
    rintro events s event t ⟨⟨hin, hp⟩, hvectors⟩ hstep
    obtain ⟨hin', hp', hvector⟩ := inService_step hin hp hstep
    refine ⟨⟨hin', hp'⟩, fun q vector hmem => ?_⟩
    rcases List.mem_append.1 hmem with hmem | hmem
    · exact hvectors q vector hmem
    · exact hvector q vector (List.mem_singleton.1 hmem).symm
  exact ⟨hall.1.1, hall.2⟩

/-- Nothing requested, masked or in service. -/
def quietChip : Chip := ⟨0, 0, 0, 0, 0, 0, .operation, false, false, false⟩

/-- The mouse (line 4 of the second controller), and a key that interrupts its handler. -/
def mouseThenKey : List ServingEvent :=
  [.request (.slave picIrqMouse), .accept (.slave picIrqMouse) 0x2C, .request (.master picIrqKeyboard),
    .accept (.master picIrqKeyboard) 0x21]

theorem mouseThenKey_run : ∃ s, s.lines = [.master picIrqKeyboard, .slave picIrqMouse] ∧
    Run ServingStep ⟨⟨programmed 0x20 0x04 quietChip, programmed 0x28 0x02 quietChip⟩, []⟩ mouseThenKey s := by
  have h1 := Run.nil.snoc (ServingStep.request (s := ⟨⟨programmed 0x20 0x04 quietChip,
    programmed 0x28 0x02 quietChip⟩, []⟩) (q := .slave picIrqMouse) (by decide))
  have h2 := h1.snoc (ServingStep.accept (q := .slave picIrqMouse) rfl)
  have h3 := h2.snoc (ServingStep.request (q := .master picIrqKeyboard) (by decide))
  have h4 := h3.snoc (ServingStep.accept (q := .master picIrqKeyboard) rfl)
  exact ⟨_, rfl, h4⟩

theorem in_service_mouse : ∃ s, s.lines = [.master picIrqKeyboard, .slave picIrqMouse] ∧ InService s ∧
    ∀ q vector, .accept q vector ∈ mouseThenKey → vector = vectorOf 0x20 0x28 q := by
  obtain ⟨s, hlines, h⟩ := mouseThenKey_run
  have hquiet : (⟨quietChip, quietChip⟩ : Pair).master.inService = 0 := rfl
  obtain ⟨p', hinit, -, -, -, hrun⟩ := in_service_run hquiet rfl 0x20 0x28
  cases (initPic_eq 0x20 0x28 ⟨quietChip, quietChip⟩).symm.trans hinit
  exact ⟨s, hlines, hrun _ s h⟩

/-- The two functions that ask for a register have each other's command: along every such run it is
`get_pic_irr` that tells which handlers have begun, and `get_pic_isr` that tells the requests. -/
theorem registers_swapped {offset1 offset2 : BitVec 8} {p p' : Pair} {events : List ServingEvent} {s : Serving}
    (hinit : initPic offset1 offset2 p = some p') (hmaster : p.master.inService = 0)
    (hslave : p.slave.inService = 0) (h : Run ServingStep ⟨p', []⟩ events s) :
    ∃ requests handlers p1 p2, getPicIsr s.pics = some (requests, p1) ∧
      getPicIrr s.pics = some (handlers, p2) ∧
      requests = s.pics.master.requested ++ s.pics.slave.requested ∧
      (∀ n : Line, handlers.getLsbD (8 + n) = true ↔ ∃ q ∈ s.lines, q.upper = n) ∧
      ∀ k : Line, handlers.getLsbD k = true ↔ .slave k ∈ s.lines := by
  have hstart := inService_init hinit hmaster hslave
  have hall : InService s ∧ Programmed offset1 offset2 s.pics := by
    refine h.invariant (fun s => InService s ∧ Programmed offset1 offset2 s.pics) hstart ?_
    rintro s event t ⟨hin, hp⟩ hstep
    obtain ⟨hin', hp', -⟩ := inService_step hin hp hstep
    exact ⟨hin', hp'⟩
  refine ⟨_, _, _, _, getPicIsr_eq s.pics, getPicIrr_eq s.pics, rfl, fun n => ?_, fun k => ?_⟩
  · rw [← hall.1.master, BitVec.getLsbD_append, if_neg (by omega), Nat.add_sub_cancel_left]
    exact Iff.rfl
  · rw [← hall.1.slave, BitVec.getLsbD_append, if_pos k.isLt]
    exact Iff.rfl

theorem registers_swapped_mouse : ∃ (s : Serving) (requests handlers : BitVec 16) (p1 p2 : Pair),
    s.lines = [.master picIrqKeyboard, .slave picIrqMouse] ∧ getPicIsr s.pics = some (requests, p1) ∧
    getPicIrr s.pics = some (handlers, p2) ∧ handlers.getLsbD (8 + 1) = true ∧ handlers.getLsbD 4 = true := by
  obtain ⟨s, hlines, h⟩ := mouseThenKey_run
  obtain ⟨requests, handlers, p1, p2, h1, h2, -, hmaster, hslave⟩ :=
    registers_swapped (initPic_eq 0x20 0x28 ⟨quietChip, quietChip⟩) rfl rfl h
  refine ⟨s, requests, handlers, p1, p2, hlines, h1, h2, (hmaster picIrqKeyboard).2 ?_, (hslave picIrqMouse).2 ?_⟩
  · rw [hlines]
    exact ⟨.master picIrqKeyboard, List.mem_cons_self, rfl⟩
  · rw [hlines]
    exact List.mem_cons_of_mem _ List.mem_cons_self

end Sbunix.Interrupt
