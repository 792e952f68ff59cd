/-
The scan of the PCI buses (`pciCheckVendor` and `init_pci_devInfo` of sys/pci.c): each slot that
answers is recorded in the next element of `devInfo`, of which there are eight and which are not
counted. A store behind the last of them is a fault here, and nothing is said about what follows.
-/
import Mathlib.Data.List.Forall2
import Mathlib.Data.List.Induction
import Mathlib.Data.List.Nodup
import Mathlib.Data.List.Perm.Subperm
import Sbunix.Device.PciConfig
import Sbunix.Lib.Fallible

namespace Sbunix.Device

open BitFields Fallible

def maxPciDevices : Nat := 8

def pciConfigAddress : BitVec 16 := 0xCF8

def pciConfigData : BitVec 16 := 0xCFC

/-- The address port keeps what was written to it last. -/
structure Pci where
  latch : BitVec 32
  devInfo : Vector PciDevInfo maxPciDevices
  devCount : Nat

/-- A store through `devInfo[index]` behind the array. -/
inductive PciFault where
  | outside (index : Nat)
deriving DecidableEq, Repr

/-! ## The functions -/

section Functions

variable (space : BitVec 32 → BitVec 32)

def outportl (port : BitVec 16) (value : BitVec 32) (s : Pci) : Pci :=
  if port = pciConfigAddress then { s with latch := value } else s

/-- Only the data port answers with a register. -/
def inportl (port : BitVec 16) (s : Pci) : BitVec 32 :=
  if port = pciConfigData then space s.latch else 0xFFFFFFFF

def pciConfigReadWord (bus slot func offset : BitVec 8) (s : Pci) : BitVec 32 × Pci :=
  let s := outportl pciConfigAddress (configAddress bus slot func offset) s
  (inportl space pciConfigData s &&& 0xffffffff, s)

/-- A store through `devInfo[devCount]`. -/
def storeInfo (s : Pci) (f : PciDevInfo → PciDevInfo) : Except PciFault Pci :=
  if h : s.devCount < maxPciDevices then
    .ok { s with devInfo := s.devInfo.set s.devCount (f s.devInfo[s.devCount]) }
  else .error (.outside s.devCount)

/-- A register is read, and its fields are stored. -/
def storeRegister (bus slot offset : BitVec 8) (set : BitVec 32 → PciDevInfo → PciDevInfo)
    (s : Pci) : Except PciFault Pci :=
  let (word, s) := pciConfigReadWord space bus slot 0 offset s
  storeInfo s (set word)

def pciCheckVendor (bus slot : BitVec 8) (s : Pci) : Except PciFault (BitVec 16 × Pci) := do
  let (word, s) := pciConfigReadWord space bus slot 0 registerOffsetVendor s
  let vendorId := half word 0
  let deviceId := half word 16
  if vendorId ≠ 0xFFFF then
    let s ← storeInfo s (PciDevInfo.setVendor · vendorId deviceId)
    let s ← storeRegister space bus slot registerOffsetStatus PciDevInfo.setStatus s
    let s ← storeRegister space bus slot registerOffsetClass PciDevInfo.setClass s
    let s ← storeRegister space bus slot registerOffsetBist PciDevInfo.setBist s
    let s ← storeRegister space bus slot registerOffsetBarAddr0 PciDevInfo.setBar0 s
    let s ← storeRegister space bus slot registerOffsetBarAddr1 PciDevInfo.setBar1 s
    let s ← storeRegister space bus slot registerOffsetBarAddr2 PciDevInfo.setBar2 s
    let s ← storeRegister space bus slot registerOffsetBarAddr3 PciDevInfo.setBar3 s
    let s ← storeRegister space bus slot registerOffsetBarAddr4 PciDevInfo.setBar4 s
    let s ← storeRegister space bus slot registerOffsetBarAddr5 PciDevInfo.setBar5 s
    let s ← storeRegister space bus slot registerOffsetCsPointer PciDevInfo.setCsPointer s
    let s ← storeRegister space bus slot registerOffsetSubsystem PciDevInfo.setSubsystem s
    let s ← storeRegister space bus slot registerOffsetRomBaseAddr PciDevInfo.setRomBaseAddr s
    let s ← storeRegister space bus slot registerOffsetReserved0 PciDevInfo.setReserved0 s
    let s ← storeRegister space bus slot registerOffsetReserved1 PciDevInfo.setReserved1 s
    let s ← storeRegister space bus slot registerOffsetInterruptFlags PciDevInfo.setInterruptFlags s
    return (vendorId, { s with devCount := s.devCount + 1 })
  return (vendorId, s)

/-- One slot of the scan, the returned vendor dropped. -/
def checkSlot (s : Pci) (pair : BitVec 8 × BitVec 8) : Except PciFault Pci := do
  let (_, s) ← pciCheckVendor space pair.1 pair.2 s
  return s

def initPciDevInfo (s : Pci) : Except PciFault Pci :=
  (List.range 256).foldlM (fun s bus => (List.range 32).foldlM (fun s deviceId =>
    checkSlot space s (BitVec.ofNat 8 bus, BitVec.ofNat 8 deviceId)) s) s

end Functions

/-- Before the scan: `devInfo` zeroed, `devCount` 0, and whatever the port was last used for. -/
def unscanned (latch : BitVec 32) : Pci := ⟨latch, Vector.replicate maxPciDevices .zero, 0⟩

/-- The slots in the order of the scan. -/
def scanOrder : List (BitVec 8 × BitVec 8) :=
  (List.range 256).flatMap fun bus => (List.range 32).map fun slot => (BitVec.ofNat 8 bus, BitVec.ofNat 8 slot)

/-- The vendor of function 0 is not the one that stands for nothing. -/
def responds (space : BitVec 32 → BitVec 32) (pair : BitVec 8 × BitVec 8) : Bool :=
  half (space (configAddress pair.1 pair.2 0 registerOffsetVendor)) 0 ≠ 0xFFFF

/-- The slots that answer, in the order of the scan. -/
def responding (space : BitVec 32 → BitVec 32) : List (BitVec 8 × BitVec 8) :=
  scanOrder.filter (responds space)

/-! ## One slot -/

/-- All of a device's registers, stored in a record. -/
def readInfo (space : BitVec 32 → BitVec 32) (bus slot : BitVec 8) (d : PciDevInfo) : PciDevInfo :=
  let word (offset : BitVec 8) : BitVec 32 := space (configAddress bus slot 0 offset)
  d.setVendor (half (word registerOffsetVendor) 0) (half (word registerOffsetVendor) 16)
    |>.setStatus (word registerOffsetStatus)
    |>.setClass (word registerOffsetClass)
    |>.setBist (word registerOffsetBist)
    |>.setBar0 (word registerOffsetBarAddr0)
    |>.setBar1 (word registerOffsetBarAddr1)
    |>.setBar2 (word registerOffsetBarAddr2)
    |>.setBar3 (word registerOffsetBarAddr3)
    |>.setBar4 (word registerOffsetBarAddr4)
    |>.setBar5 (word registerOffsetBarAddr5)
    |>.setCsPointer (word registerOffsetCsPointer)
    |>.setSubsystem (word registerOffsetSubsystem)
    |>.setRomBaseAddr (word registerOffsetRomBaseAddr)
    |>.setReserved0 (word registerOffsetReserved0)
    |>.setReserved1 (word registerOffsetReserved1)
    |>.setInterruptFlags (word registerOffsetInterruptFlags)

/-- The state with another address latched and another record at the index `k`. -/
def Pci.withInfo (s : Pci) (k : Nat) (hk : k < maxPciDevices) (latch : BitVec 32) (d : PciDevInfo) : Pci :=
  ⟨latch, s.devInfo.set k d, k⟩

section Slot

variable {space : BitVec 32 → BitVec 32} {bus slot offset : BitVec 8} {s : Pci} {k : Nat}
  {latch : BitVec 32} {d : PciDevInfo}

theorem readWord_eq (func : BitVec 8) : pciConfigReadWord space bus slot func offset s =
    (space (configAddress bus slot func offset),
      { s with latch := configAddress bus slot func offset }) := by
  unfold pciConfigReadWord outportl inportl
  rw [if_pos rfl]
  dsimp only
  rw [if_pos rfl, whole]

theorem storeInfo_withInfo (hk : k < maxPciDevices) (f : PciDevInfo → PciDevInfo) :
    storeInfo (s.withInfo k hk latch d) f = .ok (s.withInfo k hk latch (f d)) := by
  unfold storeInfo Pci.withInfo
  rw [dif_pos hk]
  simp

/-- The next register is read, and the rest goes on with it. -/
theorem storeRegister_bind {α : Type} (hk : k < maxPciDevices) (set : BitVec 32 → PciDevInfo → PciDevInfo)
    (rest : Pci → Except PciFault α) :
    (storeRegister space bus slot offset set (s.withInfo k hk latch d) >>= rest) =
      rest (s.withInfo k hk (configAddress bus slot 0 offset)
        (set (space (configAddress bus slot 0 offset)) d)) := by
  unfold storeRegister
  rw [readWord_eq]
  exact congrArg (· >>= rest) (storeInfo_withInfo (s := s) hk _)

theorem responds_iff : responds space (bus, slot) ↔
    half (space (configAddress bus slot 0 registerOffsetVendor)) 0 ≠ 0xFFFF := by
  unfold responds
  simp

/-- A slot that answers is recorded in the next element. -/
theorem checkSlot_responds (h : responds space (bus, slot)) (hk : s.devCount < maxPciDevices) :
    ∃ latch, checkSlot space s (bus, slot) = .ok ⟨latch,
      s.devInfo.set s.devCount (readInfo space bus slot s.devInfo[s.devCount]), s.devCount + 1⟩ := by
  have hs : ∀ latch, { s with latch := latch } = s.withInfo s.devCount hk latch s.devInfo[s.devCount] := by
    intro latch
    rw [Pci.withInfo, Vector.set_getElem_self]
  refine ⟨configAddress bus slot 0 registerOffsetInterruptFlags, ?_⟩
  unfold checkSlot pciCheckVendor
  rw [readWord_eq]
  dsimp only
  rw [if_pos (responds_iff.1 h), hs, storeInfo_withInfo, ok_bind]
  simp only [storeRegister_bind]
  rfl

theorem checkSlot_silent (h : ¬ responds space (bus, slot)) :
    ∃ latch, checkSlot space s (bus, slot) = .ok { s with latch := latch } := by
  refine ⟨configAddress bus slot 0 registerOffsetVendor, ?_⟩
  unfold checkSlot pciCheckVendor
  rw [readWord_eq]
  dsimp only
  rw [if_neg (mt responds_iff.2 h)]
  rfl

/-- With all elements taken the first store is behind the array. -/
theorem checkSlot_full (h : responds space (bus, slot)) (hk : s.devCount = maxPciDevices) :
    checkSlot space s (bus, slot) = .error (.outside maxPciDevices) := by
  unfold checkSlot pciCheckVendor
  rw [readWord_eq]
  dsimp only
  rw [if_pos (responds_iff.1 h), storeInfo, dif_neg (by dsimp only; omega)]
  dsimp only
  rw [hk]
  rfl

theorem describes_readInfo : Describes space (readInfo space bus slot d) (bus, slot) := by
  have hregisters : (readInfo space bus slot d).registers =
      let word (offset : BitVec 8) : BitVec 32 := space (configAddress bus slot 0 offset)
      let halves (w : BitVec 32) : BitVec 32 := half w 16 ++ half w 0
      let quarters (w : BitVec 32) : BitVec 32 := quarter w 24 ++ quarter w 16 ++ quarter w 8 ++ quarter w 0
      let whole (w : BitVec 32) : BitVec 32 := w &&& 0xFFFFFFFF
      [halves (word registerOffsetVendor), halves (word registerOffsetStatus),
        quarters (word registerOffsetClass), quarters (word registerOffsetBist),
        whole (word registerOffsetBarAddr0), whole (word registerOffsetBarAddr1),
        whole (word registerOffsetBarAddr2), whole (word registerOffsetBarAddr3),
        whole (word registerOffsetBarAddr4), whole (word registerOffsetBarAddr5),
        whole (word registerOffsetCsPointer), halves (word registerOffsetSubsystem),
        whole (word registerOffsetRomBaseAddr), halves (word registerOffsetReserved0),
        whole (word registerOffsetReserved1), quarters (word registerOffsetInterruptFlags)] := rfl
  unfold Describes
  rw [hregisters]
  dsimp only
  simp only [halves, quarters, whole]
  rfl

end Slot

/-! ## The scan -/

/-- The slots visited so far that answer are recorded, in their order. -/
structure Recorded (space : BitVec 32 → BitVec 32) (visited : List (BitVec 8 × BitVec 8)) (s : Pci) :
    Prop where
  count : s.devCount = (visited.filter (responds space)).length
  inside : s.devCount ≤ maxPciDevices
  records : List.Forall₂ (Describes space) (s.devInfo.toList.take s.devCount)
    (visited.filter (responds space))

/-- No store of the scan falls behind `devInfo`, and `devCount` never passes its length. -/
def StoresInside (space : BitVec 32 → BitVec 32) (s : Pci) : Prop :=
  (∃ t, initPciDevInfo space s = .ok t) ∧
    ∀ visited t, visited <+: scanOrder → visited.foldlM (checkSlot space) s = .ok t →
      t.devCount ≤ maxPciDevices

section Scan

variable {space : BitVec 32 → BitVec 32} {visited : List (BitVec 8 × BitVec 8)} {s t : Pci}
  {pair : BitVec 8 × BitVec 8}

theorem initPciDevInfo_eq : initPciDevInfo space s = scanOrder.foldlM (checkSlot space) s := by
  have hflat : ∀ (l : List Nat) (s : Pci),
      (l.flatMap fun bus => (List.range 32).map fun slot =>
        (BitVec.ofNat 8 bus, BitVec.ofNat 8 slot)).foldlM (checkSlot space) s =
      l.foldlM (fun s bus => (List.range 32).foldlM (fun s deviceId =>
        checkSlot space s (BitVec.ofNat 8 bus, BitVec.ofNat 8 deviceId)) s) s := by
    intro l
    induction l with
    | nil => exact fun _ => rfl
    | cons bus l ih =>
      intro s
      rw [List.flatMap_cons, List.foldlM_append, List.foldlM_map, List.foldlM_cons]
      exact congrArg _ (funext ih)
  exact (hflat (List.range 256) s).symm

theorem recorded_unscanned (latch : BitVec 32) : Recorded space [] (unscanned latch) where
  count := rfl
  inside := Nat.zero_le _
  records := .nil

theorem Recorded.silent (h : Recorded space visited s) (hp : ¬ responds space pair) :
    ∃ t, checkSlot space s pair = .ok t ∧ Recorded space (visited ++ [pair]) t := by
  obtain ⟨latch, he⟩ := checkSlot_silent hp
  refine ⟨_, he, ?_⟩
  have hsame : (visited ++ [pair]).filter (responds space) = visited.filter (responds space) := by
    rw [List.filter_append, List.filter_cons_of_neg hp, List.filter_nil, List.append_nil]
  constructor
  case count => rw [hsame]; exact h.count
  case inside => exact h.inside
  case records => rw [hsame]; exact h.records

theorem Recorded.responds (h : Recorded space visited s) (hp : responds space pair)
    (hk : s.devCount < maxPciDevices) :
    ∃ t, checkSlot space s pair = .ok t ∧ Recorded space (visited ++ [pair]) t := by
  obtain ⟨latch, he⟩ := checkSlot_responds hp hk
  refine ⟨_, he, ?_⟩
  have hmore : (visited ++ [pair]).filter (Device.responds space) =
      visited.filter (Device.responds space) ++ [pair] := by
    rw [List.filter_append, List.filter_cons_of_pos hp, List.filter_nil]
  constructor
  case count => rw [hmore, List.length_append, ← h.count]; rfl
  case inside => exact hk
  case records =>
    have hlen : s.devCount < s.devInfo.toList.length := by rw [Vector.length_toList]; exact hk
    rw [hmore, Vector.toList_set, List.take_add_one, List.take_set_of_le (Nat.le_refl _),
      List.getElem?_set_self hlen]
    exact List.rel_append h.records (.cons describes_readInfo .nil)

variable (space) in
/-- As long as at most eight of the slots answer, they are all recorded. -/
theorem scan_recorded (latch : BitVec 32) :
    (visited.filter (responds space)).length ≤ maxPciDevices →
    ∃ t, visited.foldlM (checkSlot space) (unscanned latch) = .ok t ∧ Recorded space visited t := by
  induction visited using List.reverseRecOn with
  | nil => exact fun _ => ⟨_, rfl, recorded_unscanned latch⟩
  | append_singleton visited pair ih =>
    intro hle
    rw [List.filter_append, List.length_append] at hle
    obtain ⟨s, he, h⟩ := ih (by omega)
    have hnext : ∃ t, checkSlot space s pair = .ok t ∧ Recorded space (visited ++ [pair]) t := by
      by_cases hp : responds space pair
      · rw [List.filter_cons_of_pos hp, List.filter_nil, List.length_singleton] at hle
        exact h.responds hp (by rw [h.count]; omega)
      · exact h.silent hp
    obtain ⟨t, ht, hr⟩ := hnext
    refine ⟨t, ?_, hr⟩
    rw [List.foldlM_append, he, ok_bind, List.foldlM_cons, ht]
    rfl

/-- The ninth slot that answers is stored behind the array. -/
theorem scan_outside (latch : BitVec 32) :
    maxPciDevices < (visited.filter (responds space)).length →
    visited.foldlM (checkSlot space) (unscanned latch) = .error (.outside maxPciDevices) := by
  induction visited using List.reverseRecOn with
  | nil => exact fun h => absurd h (Nat.not_lt_zero _)
  | append_singleton visited pair ih =>
    intro hlt
    rw [List.foldlM_append]
    by_cases hbefore : maxPciDevices < (visited.filter (responds space)).length
    · rw [ih hbefore]
      rfl
    · -- this slot is the ninth
      obtain ⟨s, he, h⟩ := scan_recorded space latch (Nat.not_lt.1 hbefore)
      rw [List.filter_append, List.length_append] at hlt
      have hp : responds space pair := by
        by_contra hp
        rw [List.filter_cons_of_neg hp, List.filter_nil, List.length_nil] at hlt
        omega
      rw [List.filter_cons_of_pos hp, List.filter_nil, List.length_singleton] at hlt
      rw [he, ok_bind, List.foldlM_cons, checkSlot_full hp (by rw [h.count]; omega)]
      rfl

theorem slot_lt_of_mem (h : pair ∈ scanOrder) : pair.2.toNat < 32 := by
  unfold scanOrder at h
  rw [List.mem_flatMap] at h
  obtain ⟨bus, -, h⟩ := h
  obtain ⟨slot, hs, rfl⟩ := List.mem_map.1 h
  rw [List.mem_range] at hs
  rw [BitVec.toNat_ofNat]
  omega

theorem nodup_scanOrder : scanOrder.Nodup := by
  unfold scanOrder
  rw [List.nodup_flatMap]
  constructor
  · intro bus _
    rw [List.nodup_map_iff_inj_on List.nodup_range]
    intro slot hs slot' hs' h
    rw [List.mem_range] at hs hs'
    have := congrArg (fun pair => BitVec.toNat pair.2) h
    simp only [BitVec.toNat_ofNat] at this
    omega
  · refine List.nodup_range.imp_of_mem fun {bus bus'} hb hb' hne => ?_
    refine List.disjoint_left.2 ?_
    intro pair hp hp'
    obtain ⟨slot, -, rfl⟩ := List.mem_map.1 hp
    obtain ⟨slot', -, h⟩ := List.mem_map.1 hp'
    rw [List.mem_range] at hb hb'
    have := congrArg (fun pair => BitVec.toNat pair.1) h
    simp only [BitVec.toNat_ofNat] at this
    omega

end Scan

/-- With at most eight slots answering, `devInfo` lists them in the order of the scan, each with its
sixteen registers, which were read from different addresses. -/
theorem devices_listed (space : BitVec 32 → BitVec 32) (latch : BitVec 32)
    (hle : (responding space).length ≤ maxPciDevices) :
    ∃ t, initPciDevInfo space (unscanned latch) = .ok t ∧ t.devCount = (responding space).length ∧
      (responding space).Nodup ∧
      List.Forall₂ (Describes space) (t.devInfo.toList.take t.devCount) (responding space) ∧
      ∀ pair ∈ scanOrder, ∀ pair' ∈ scanOrder, ∀ offset ∈ registerOffsets, ∀ offset' ∈ registerOffsets,
        configAddress pair.1 pair.2 0 offset = configAddress pair'.1 pair'.2 0 offset' →
          pair = pair' ∧ offset = offset' := by
  obtain ⟨t, he, h⟩ := scan_recorded space latch hle
  refine ⟨t, initPciDevInfo_eq.trans he, h.count, nodup_scanOrder.filter _, h.records, ?_⟩
  intro pair hp pair' hp' offset ho offset' ho' heq
  obtain ⟨h1, h2, h3⟩ := configAddress_injective (slot_lt_of_mem hp) (slot_lt_of_mem hp') ho ho' heq
  exact ⟨Prod.ext h1 h2, h3⟩

/-- One device, in slot 3 of bus 0. -/
def oneDevice (address : BitVec 32) : BitVec 32 :=
  if address = configAddress 0 3 0 registerOffsetVendor then 0x100E8086 else 0xFFFFFFFF

theorem responding_oneDevice : responding oneDevice = [(0, 3)] := by
  have hsub : responding oneDevice ⊆ [(0, 3)] := by
    intro pair hp
    obtain ⟨hm, hr⟩ := List.mem_filter.1 hp
    by_cases he : configAddress pair.1 pair.2 0 registerOffsetVendor = configAddress 0 3 0 registerOffsetVendor
    · obtain ⟨h1, h2, -⟩ := configAddress_injective (slot_lt_of_mem hm) (by decide) (by decide) (by decide) he
      exact List.mem_singleton.2 (Prod.ext h1 h2)
    · rw [responds, oneDevice, if_neg he] at hr
      exact absurd hr (by decide)
  have hmem : ((0, 3) : BitVec 8 × BitVec 8) ∈ responding oneDevice := by
    refine List.mem_filter.2 ⟨?_, by decide⟩
    rw [scanOrder, List.mem_flatMap]
    exact ⟨0, by simp, List.mem_map.2 ⟨3, by simp, rfl⟩⟩
  have hle : (responding oneDevice).length ≤ 1 :=
    (List.subperm_of_subset (nodup_scanOrder.filter _) hsub).length_le
  have hpos := List.length_pos_of_mem hmem
  obtain ⟨pair, hp⟩ := List.length_eq_one_iff.1 (show (responding oneDevice).length = 1 by omega)
  rw [hp, List.mem_singleton] at hmem
  rw [hp, ← hmem]

theorem devices_listed_one : ∃ t, initPciDevInfo oneDevice (unscanned 0) = .ok t ∧ t.devCount = 1 ∧
    List.Forall₂ (Describes oneDevice) (t.devInfo.toList.take t.devCount) [(0, 3)] := by
  have hone : (responding oneDevice).length ≤ maxPciDevices := by
    rw [responding_oneDevice]
    decide
  obtain ⟨t, he, hcount, -, hrecords, -⟩ := devices_listed oneDevice 0 hone
  rw [responding_oneDevice] at hcount hrecords
  exact ⟨t, he, hcount, hrecords⟩

/-- The stores stay inside `devInfo` exactly if at most eight slots answer. -/
theorem stores_inside_iff (space : BitVec 32 → BitVec 32) (latch : BitVec 32) :
    StoresInside space (unscanned latch) ↔ (responding space).length ≤ maxPciDevices := by
  constructor
  · rintro ⟨⟨t, ht⟩, -⟩
    by_contra hlt
    rw [initPciDevInfo_eq, scan_outside latch (Nat.not_le.1 hlt)] at ht
    cases ht
  · intro hle
    obtain ⟨t, he, -⟩ := scan_recorded space latch hle
    refine ⟨⟨t, initPciDevInfo_eq.trans he⟩, fun visited t' hpre ht' => ?_⟩
    have hsub : (visited.filter (responds space)).length ≤ (responding space).length :=
      (hpre.sublist.filter _).length_le
    obtain ⟨t'', he'', h''⟩ := scan_recorded space latch
      (Nat.le_trans hsub hle)
    cases ht'.symm.trans he''
    exact h''.inside

/-- The slots 0 to 8 of bus 0. -/
def nineDevices (address : BitVec 32) : BitVec 32 :=
  if address.toNat < 0x80000000 + 9 * 2048 then 0x100E8086 else 0xFFFFFFFF

theorem ninth_outside : (responding nineDevices).length > maxPciDevices ∧
    initPciDevInfo nineDevices (unscanned 0) = .error (.outside 8) ∧
    ¬ StoresInside nineDevices (unscanned 0) := by
  have hnine : ((scanOrder.take 9).filter (responds nineDevices)).length = 9 := by decide
  have hmore : maxPciDevices < (responding nineDevices).length :=
    Nat.lt_of_lt_of_le (by rw [hnine]; decide) ((List.take_sublist 9 scanOrder).filter _).length_le
  have herror : initPciDevInfo nineDevices (unscanned 0) = .error (.outside 8) :=
    initPciDevInfo_eq.trans (scan_outside 0 hmore)
  refine ⟨hmore, herror, ?_⟩
  rintro ⟨⟨t, ht⟩, -⟩
  cases herror.symm.trans ht

end Sbunix.Device
