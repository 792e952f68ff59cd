/-
The configuration registers of a PCI device (sys/pci.c, include/sys/pci.h): how they are addressed
through the two ports, and the record they are taken apart into.
-/
import Sbunix.Lib.BitFields

namespace Sbunix.Device

open BitFields

/-! ## Addresses -/

def registerOffsetVendor : BitVec 8 := 0x00
def registerOffsetStatus : BitVec 8 := 0x04
def registerOffsetClass : BitVec 8 := 0x08
def registerOffsetBist : BitVec 8 := 0x0C
def registerOffsetBarAddr0 : BitVec 8 := 0x10
def registerOffsetBarAddr1 : BitVec 8 := 0x14
def registerOffsetBarAddr2 : BitVec 8 := 0x18
def registerOffsetBarAddr3 : BitVec 8 := 0x1C
def registerOffsetBarAddr4 : BitVec 8 := 0x20
def registerOffsetBarAddr5 : BitVec 8 := 0x24
def registerOffsetCsPointer : BitVec 8 := 0x28
def registerOffsetSubsystem : BitVec 8 := 0x2C
def registerOffsetRomBaseAddr : BitVec 8 := 0x30
def registerOffsetReserved0 : BitVec 8 := 0x34
def registerOffsetReserved1 : BitVec 8 := 0x38
def registerOffsetInterruptFlags : BitVec 8 := 0x3C

/-- The `address` of `pciConfigReadWord`. -/
def configAddress (bus slot func offset : BitVec 8) : BitVec 32 :=
  (bus.setWidth 32 <<< 16) ||| (slot.setWidth 32 <<< 11) ||| (func.setWidth 32 <<< 8) |||
    (offset &&& 0xfc).setWidth 32 ||| 0x80000000

def registerOffsets : List (BitVec 8) :=
  [registerOffsetVendor, registerOffsetStatus, registerOffsetClass, registerOffsetBist,
    registerOffsetBarAddr0, registerOffsetBarAddr1, registerOffsetBarAddr2, registerOffsetBarAddr3,
    registerOffsetBarAddr4, registerOffsetBarAddr5, registerOffsetCsPointer, registerOffsetSubsystem,
    registerOffsetRomBaseAddr, registerOffsetReserved0, registerOffsetReserved1,
    registerOffsetInterruptFlags]

/-! ## Records -/

structure PciDevInfo where
  deviceId : BitVec 16
  vendorId : BitVec 16
  status : BitVec 16
  command : BitVec 16
  classCode : BitVec 8
  subClass : BitVec 8
  progIf : BitVec 8
  revisionId : BitVec 8
  bist : BitVec 8
  headerType : BitVec 8
  latencyTimer : BitVec 8
  cacheLineSize : BitVec 8
  bar0 : BitVec 32
  bar1 : BitVec 32
  bar2 : BitVec 32
  bar3 : BitVec 32
  bar4 : BitVec 32
  bar5 : BitVec 32
  cardBusCISPtr : BitVec 32
  subsystemId : BitVec 16
  subsystemVendorId : BitVec 16
  expansionBaseROMAddr : BitVec 32
  reserved0 : BitVec 16
  capabilitiesPtr : BitVec 16
  reserved1 : BitVec 32
  maxLatency : BitVec 8
  minGrant : BitVec 8
  interruptPin : BitVec 8
  interruptLine : BitVec 8
deriving DecidableEq, Repr

def PciDevInfo.zero : PciDevInfo :=
  ⟨0, 0, 0, 0, 0, 0, 0, 0, 0, 0, 0, 0, 0, 0, 0, 0, 0, 0, 0, 0, 0, 0, 0, 0, 0, 0, 0, 0, 0⟩

/-- `word & 0xFFFF` and `(word >> 16) & 0xFFFF` -/
def half (word : BitVec 32) (k : Nat) : BitVec 16 := ((word >>> k) &&& 0xFFFF).setWidth 16

/-- `word & 0xFF`, `(word >> 8) & 0xFF` and so on. -/
def quarter (word : BitVec 32) (k : Nat) : BitVec 8 := ((word >>> k) &&& 0xFF).setWidth 8

/-! What is stored of the word read last, in the order of the registers. -/

namespace PciDevInfo

variable (word : BitVec 32) (d : PciDevInfo)

def setVendor (vendorId deviceId : BitVec 16) : PciDevInfo := { d with vendorId, deviceId }

def setStatus : PciDevInfo := { d with command := half word 0, status := half word 16 }

def setClass : PciDevInfo :=
  { d with
    revisionId := quarter word 0
    progIf := quarter word 8
    subClass := quarter word 16
    classCode := quarter word 24 }

def setBist : PciDevInfo :=
  { d with
    cacheLineSize := quarter word 0
    latencyTimer := quarter word 8
    headerType := quarter word 16
    bist := quarter word 24 }

def setBar0 : PciDevInfo := { d with bar0 := word &&& 0xFFFFFFFF }
def setBar1 : PciDevInfo := { d with bar1 := word &&& 0xFFFFFFFF }
def setBar2 : PciDevInfo := { d with bar2 := word &&& 0xFFFFFFFF }
def setBar3 : PciDevInfo := { d with bar3 := word &&& 0xFFFFFFFF }
def setBar4 : PciDevInfo := { d with bar4 := word &&& 0xFFFFFFFF }
def setBar5 : PciDevInfo := { d with bar5 := word &&& 0xFFFFFFFF }

def setCsPointer : PciDevInfo := { d with cardBusCISPtr := word &&& 0xFFFFFFFF }

def setSubsystem : PciDevInfo :=
  { d with subsystemVendorId := half word 0, subsystemId := half word 16 }

def setRomBaseAddr : PciDevInfo := { d with expansionBaseROMAddr := word &&& 0xFFFFFFFF }

def setReserved0 : PciDevInfo := { d with capabilitiesPtr := half word 0, reserved0 := half word 16 }

def setReserved1 : PciDevInfo := { d with reserved1 := word &&& 0xFFFFFFFF }

def setInterruptFlags : PciDevInfo :=
  { d with
    interruptLine := quarter word 0
    interruptPin := quarter word 8
    minGrant := quarter word 16
    maxLatency := quarter word 24 }

/-- The registers by the table in pci.c, the high field first. -/
def registers : List (BitVec 32) :=
  [d.deviceId ++ d.vendorId,
    d.status ++ d.command,
    d.classCode ++ d.subClass ++ d.progIf ++ d.revisionId,
    d.bist ++ d.headerType ++ d.latencyTimer ++ d.cacheLineSize,
    d.bar0, d.bar1, d.bar2, d.bar3, d.bar4, d.bar5,
    d.cardBusCISPtr,
    d.subsystemId ++ d.subsystemVendorId,
    d.expansionBaseROMAddr,
    d.reserved0 ++ d.capabilitiesPtr,
    d.reserved1,
    d.maxLatency ++ d.minGrant ++ d.interruptPin ++ d.interruptLine]

end PciDevInfo

/-- The record holds the device's sixteen registers. -/
def Describes (space : BitVec 32 → BitVec 32) (d : PciDevInfo) (pair : BitVec 8 × BitVec 8) : Prop :=
  d.registers = registerOffsets.map fun offset => space (configAddress pair.1 pair.2 0 offset)

/-! ## Fields and addresses -/

section Fields

variable (word : BitVec 32)

theorem half_eq (k : Nat) : half word k = field word k 16 := setWidth_and_ones _ 16

theorem quarter_eq (k : Nat) : quarter word k = field word k 8 := setWidth_and_ones _ 8

theorem halves : half word 16 ++ half word 0 = word := by
  rw [half_eq, half_eq]
  exact (field_append_field word 0 16 16).trans (field_all word)

theorem quarters : quarter word 24 ++ quarter word 16 ++ quarter word 8 ++ quarter word 0 = word := by
  rw [quarter_eq, quarter_eq, quarter_eq, quarter_eq]
  calc field word 24 8 ++ field word 16 8 ++ field word 8 8 ++ field word 0 8
      = field word (8 + 8) 16 ++ field word 8 8 ++ field word 0 8 := by
        rw [field_append_field word 16 8 8]
    _ = field word (0 + 8) 24 ++ field word 0 8 := by rw [field_append_field word 8 8 16]
    _ = word := (field_append_field word 0 8 24).trans (field_all word)

theorem whole : word &&& 0xFFFFFFFF = word := BitVec.and_allOnes

end Fields

section Addresses

variable {bus slot bus' slot' offset offset' : BitVec 8} {i : Nat}

theorem getLsbD_configAddress (hi : i < 31) : (configAddress bus slot 0 offset).getLsbD i =
    ((!decide (i < 16) && bus.getLsbD (i - 16)) || (!decide (i < 11) && slot.getLsbD (i - 11)) ||
      (offset &&& 0xfc).getLsbD i) := by
  have htop : (0x80000000 : BitVec 32).getLsbD i = false := by
    rw [show (0x80000000 : BitVec 32) = BitVec.twoPow 32 31 from rfl, BitVec.getLsbD_twoPow]
    simp only [Bool.and_eq_false_imp, decide_eq_true_eq, decide_eq_false_iff_not]
    omega
  unfold configAddress
  simp only [BitVec.getLsbD_or, htop, BitVec.getLsbD_shiftLeft, BitVec.getLsbD_setWidth]
  simp [show i < 32 by omega, show i - 16 < 32 by omega, show i - 11 < 32 by omega]

theorem getLsbD_slot (hs : slot.toNat < 32) (hi : 5 ≤ i) : slot.getLsbD i = false := by
  rw [← BitVec.testBit_toNat]
  exact Nat.testBit_lt_two_pow (Nat.lt_of_lt_of_le hs (Nat.pow_le_pow_right (n := 2) (by decide) hi))

theorem field_bus (hs : slot.toNat < 32) : field (configAddress bus slot 0 offset) 16 8 = bus := by
  apply BitVec.eq_of_getLsbD_eq
  intro i hi
  have ho : (offset &&& 0xfc).getLsbD (16 + i) = false := BitVec.getLsbD_of_ge _ _ (by omega)
  rw [field, BitVec.getLsbD_setWidth, BitVec.getLsbD_ushiftRight, getLsbD_configAddress (by omega), ho,
    getLsbD_slot hs (by omega)]
  simp [hi]

theorem field_slot :
    field (configAddress bus slot 0 offset) 11 5 = slot.setWidth 5 := by
  apply BitVec.eq_of_getLsbD_eq
  intro i hi
  have ho : (offset &&& 0xfc).getLsbD (11 + i) = false := BitVec.getLsbD_of_ge _ _ (by omega)
  rw [field, BitVec.getLsbD_setWidth, BitVec.getLsbD_ushiftRight, getLsbD_configAddress (by omega), ho,
    BitVec.getLsbD_setWidth]
  simp [hi, show 11 + i < 16 by omega]

theorem field_offset : field (configAddress bus slot 0 offset) 0 8 = offset &&& 0xfc := by
  apply BitVec.eq_of_getLsbD_eq
  intro i hi
  rw [field, BitVec.getLsbD_setWidth, BitVec.getLsbD_ushiftRight, getLsbD_configAddress (by omega)]
  simp [hi, show i < 16 by omega, show i < 11 by omega]

/-- Different registers, of slots that there are, stand at different addresses. -/
theorem configAddress_injective (hs : slot.toNat < 32) (hs' : slot'.toNat < 32)
    (ho : offset ∈ registerOffsets) (ho' : offset' ∈ registerOffsets)
    (h : configAddress bus slot 0 offset = configAddress bus' slot' 0 offset') :
    bus = bus' ∧ slot = slot' ∧ offset = offset' := by
  have hall : registerOffsets.all (fun o => o &&& 0xfc = o) = true := rfl
  have haligned : ∀ o ∈ registerOffsets, o &&& 0xfc = o := fun o ho =>
    of_decide_eq_true (List.all_eq_true.1 hall o ho)
  refine ⟨?_, ?_, ?_⟩
  · have hb : field (configAddress bus slot 0 offset) 16 8 = bus := field_bus hs
    rw [← hb, h, field_bus hs']
  · have h5 : slot.setWidth 5 = slot'.setWidth 5 := by
      have hb : field (configAddress bus slot 0 offset) 11 5 = slot.setWidth 5 := field_slot
      rw [← hb, h, field_slot]
    apply BitVec.eq_of_toNat_eq
    have := congrArg BitVec.toNat h5
    rw [BitVec.toNat_setWidth, BitVec.toNat_setWidth] at this
    omega
  · have hl : field (configAddress bus slot 0 offset) 0 8 = offset &&& 0xfc := field_offset
    rw [← haligned offset ho, ← hl, h, field_offset, haligned offset' ho']

end Addresses

end Sbunix.Device
