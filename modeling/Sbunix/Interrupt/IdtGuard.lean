/-
The guard of `set_interrupt_service_routine` (sys/idt.c) on the bytes of the table and what the kernel
keeps behind them. `get_interrupt_service_routine` has entries 0 to 255, the guard lets 256 pass as well.
-/
import Mathlib.Data.Set.Basic
import Mathlib.Order.Interval.Set.Defs
import Sbunix.Interrupt.Idt

namespace Sbunix.Interrupt

open BitFields

/-- The bytes from `&s_Idtd[0]` on. -/
abbrev KernelBytes := Nat → BitVec 8

def storeBytes (mem : KernelBytes) (address : Nat) (bytes : List (BitVec 8)) : KernelBytes :=
  fun k => if address ≤ k then (bytes[k - address]?).getD (mem k) else mem k

def loadBytes (mem : KernelBytes) (address n : Nat) : List (BitVec 8) :=
  (List.range n).map fun i => mem (address + i)

/-- What is stored in an entry. -/
def serviceEntry (type : BitVec 8) (addr : BitVec 64) : Idtd where
  offset1 := (addr &&& 0xffff).setWidth 16
  selector := idtSelector
  ist := 0
  type := type
  offset2 := ((addr >>> 16) &&& 0xffff).setWidth 16
  offset3 := ((addr >>> 32) &&& 0xffffffff).setWidth 32
  zero := 0

/-- `set_interrupt_service_routine`; the fields of an entry are its bytes one after the other. -/
def setInterruptServiceRoutineBytes (mem : KernelBytes) (interruptServiceNum : BitVec 32) (type : BitVec 8)
    (interruptServiceRoutine : BitVec 64) : KernelBytes :=
  if interruptServiceRoutine = 0 ∨ interruptServiceNum.toNat > maxNumInterrupts then mem
  else storeBytes mem (sizeofIdtd * interruptServiceNum.toNat) (serviceEntry type interruptServiceRoutine).bytes

/-- `set_ir_in_idt` -/
def setIrInIdtBytes (mem : KernelBytes) (interruptNum : BitVec 16) (routine : BitVec 64) : KernelBytes :=
  if interruptNum.toNat ≥ 256 then mem
  else setInterruptServiceRoutineBytes mem (interruptNum.setWidth 32) interruptGateTypeAttr routine

/-- The table that the bytes are. -/
def tableAt (mem : KernelBytes) : Vector Idtd maxNumInterrupts :=
  Vector.ofFn fun i => .ofBytes (loadBytes mem (sizeofIdtd * i) sizeofIdtd)

/-- Only bytes of an entry of the table are stored to, and something is stored exactly if
`get_interrupt_service_routine` has the entry. -/
structure StoresInTable (num : BitVec 32) (type : BitVec 8) (routine : BitVec 64) : Prop where
  stores : ∀ mem k, setInterruptServiceRoutineBytes mem num type routine k ≠ mem k →
    num.toNat < maxNumInterrupts ∧ k ∈ Set.Ico (sizeofIdtd * num.toNat) (sizeofIdtd * num.toNat + sizeofIdtd)
  accepts : ∀ idt, (∃ mem, setInterruptServiceRoutineBytes mem num type routine ≠ mem) ↔
    ∃ entry, getInterruptServiceRoutine idt num = some entry

section Bytes

variable {mem : KernelBytes} {bytes : List (BitVec 8)} {a k n : Nat}

theorem storeBytes_inside (mem : KernelBytes) (a i : Nat) (h : i < bytes.length) :
    storeBytes mem a bytes (a + i) = bytes[i] := by
  unfold storeBytes
  rw [if_pos (Nat.le_add_right a i), Nat.add_sub_cancel_left, List.getElem?_eq_getElem h, Option.getD_some]

theorem storeBytes_outside (h : k < a ∨ a + bytes.length ≤ k) : storeBytes mem a bytes k = mem k := by
  unfold storeBytes
  split
  · rw [List.getElem?_eq_none (by omega), Option.getD_none]
  · rfl

theorem loadBytes_storeBytes (mem : KernelBytes) (a : Nat) (bytes : List (BitVec 8)) :
    loadBytes (storeBytes mem a bytes) a bytes.length = bytes := by
  unfold loadBytes
  apply List.ext_getElem
  · rw [List.length_map, List.length_range]
  · intro i h1 h2
    rw [List.getElem_map, List.getElem_range]
    exact storeBytes_inside mem a i h2

theorem loadBytes_outside {b : Nat} (h : b + n ≤ a ∨ a + bytes.length ≤ b) :
    loadBytes (storeBytes mem a bytes) b n = loadBytes mem b n := by
  refine List.map_congr_left fun i hi => ?_
  rw [List.mem_range] at hi
  exact storeBytes_outside (by omega)

end Bytes

section Guard

variable {num : BitVec 32} {type : BitVec 8} {routine : BitVec 64}

theorem length_bytes (e : Idtd) : e.bytes.length = sizeofIdtd := rfl

/-- An entry is what its bytes say. -/
theorem ofBytes_bytes (e : Idtd) : Idtd.ofBytes e.bytes = e := by
  have htwo : ∀ x : BitVec 16, field x 8 8 ++ field x 0 8 = x := fun x =>
    (field_append_field x 0 8 8).trans (field_all x)
  have hfour : ∀ x : BitVec 32, field x 24 8 ++ field x 16 8 ++ field x 8 8 ++ field x 0 8 = x := by
    intro x
    calc field x 24 8 ++ field x 16 8 ++ field x 8 8 ++ field x 0 8
        = field x 16 (8 + 8) ++ field x 8 8 ++ field x 0 8 :=
          congrArg (· ++ field x 8 8 ++ field x 0 8) (field_append_field x 16 8 8)
      _ = field x 8 (8 + 8 + 8) ++ field x 0 8 := congrArg (· ++ field x 0 8) (field_append_field x 8 8 (8 + 8))
      _ = field x 0 (8 + 8 + 8 + 8) := field_append_field x 0 8 (8 + 8 + 8)
      _ = x := field_all x
  obtain ⟨offset1, selector, ist, type, offset2, offset3, zero⟩ := e
  rw [Idtd.mk.injEq]
  exact ⟨htwo offset1, htwo selector, rfl, rfl, htwo offset2, hfour offset3, hfour zero⟩

theorem setBytes_ignored (mem : KernelBytes) (h : routine = 0 ∨ num.toNat > maxNumInterrupts) :
    setInterruptServiceRoutineBytes mem num type routine = mem := if_pos h

theorem setBytes_stored (mem : KernelBytes) (hr : routine ≠ 0) (h : num.toNat ≤ maxNumInterrupts) :
    setInterruptServiceRoutineBytes mem num type routine =
      storeBytes mem (sizeofIdtd * num.toNat) (serviceEntry type routine).bytes :=
  if_neg (by rw [not_or]; exact ⟨hr, by omega⟩)

/-- On the bytes the function does what it does to the table, wherever that says what it does. -/
theorem setBytes_refines (sIdtr : Idtr) (mem : KernelBytes)
    (h : routine = 0 ∨ num.toNat ≠ maxNumInterrupts) :
    setInterruptServiceRoutine ⟨sIdtr, tableAt mem⟩ num type routine =
      some ⟨sIdtr, tableAt (setInterruptServiceRoutineBytes mem num type routine)⟩ := by
  unfold setInterruptServiceRoutine
  by_cases hguard : routine = 0 ∨ num.toNat > maxNumInterrupts
  · rw [if_pos hguard, setBytes_ignored mem hguard]
  · rw [not_or] at hguard
    have hlt : num.toNat < maxNumInterrupts := by
      have := h.resolve_left hguard.1
      omega
    rw [if_neg (not_or.2 hguard), setBytes_stored mem hguard.1 (by omega)]
    dsimp only
    rw [dif_pos hlt, Option.some.injEq, Idt.mk.injEq]
    refine ⟨rfl, Vector.ext fun i hi => ?_⟩
    unfold tableAt
    rw [Vector.getElem_set, Vector.getElem_ofFn, Vector.getElem_ofFn]
    split
    · next he =>
      subst he
      have hload := loadBytes_storeBytes mem (sizeofIdtd * num.toNat) (serviceEntry type routine).bytes
      rw [length_bytes] at hload
      rw [hload, ofBytes_bytes]
      rfl
    · next hne =>
      rw [loadBytes_outside]
      rw [length_bytes]
      unfold sizeofIdtd
      dsimp only
      omega

/-- At 256 there is no saying what it does to the table: it stores behind it. -/
theorem set_behind_table (idt : Idt) (hr : routine ≠ 0) (h : num.toNat = maxNumInterrupts) :
    setInterruptServiceRoutine idt num type routine = none := by
  unfold setInterruptServiceRoutine
  rw [if_neg (by rw [not_or]; exact ⟨hr, by omega⟩)]
  exact dif_neg (by omega)

/-- Where something is stored, some memory is changed by it. -/
theorem set_changes (type : BitVec 8) (hr : routine ≠ 0) (h : num.toNat ≤ maxNumInterrupts) :
    ∃ mem, setInterruptServiceRoutineBytes mem num type routine (sizeofIdtd * num.toNat) ≠
      mem (sizeofIdtd * num.toNat) := by
  refine ⟨fun _ => ~~~ field (serviceEntry type routine).offset1 0 8, ?_⟩
  have hlen : 0 < (serviceEntry type routine).bytes.length := Nat.zero_lt_succ _
  have hfirst := storeBytes_inside (fun _ => ~~~ field (serviceEntry type routine).offset1 0 8)
    (sizeofIdtd * num.toNat) 0 hlen
  rw [Nat.add_zero] at hfirst
  rw [setBytes_stored _ hr h, hfirst]
  intro he
  have hbit := congrArg (BitVec.getLsbD · 0) he
  simp [Idtd.bytes] at hbit

theorem get_isSome_iff (idt : Idt) :
    (∃ entry, getInterruptServiceRoutine idt num = some entry) ↔ num.toNat < maxNumInterrupts := by
  unfold getInterruptServiceRoutine
  split
  · next h => exact iff_of_true ⟨_, rfl⟩ h
  · next h => exact iff_of_false (by rintro ⟨entry, he⟩; cases he) h

theorem not_storesInTable (hr : routine ≠ 0) (h : num.toNat = maxNumInterrupts) :
    ¬ StoresInTable num type routine := by
  intro hin
  obtain ⟨mem, hmem⟩ := set_changes type hr (Nat.le_of_eq h)
  exact absurd (hin.stores mem _ hmem).1 (by omega)

theorem storesInTable_of_ne (hr : routine ≠ 0) (h : num.toNat ≠ maxNumInterrupts) :
    StoresInTable num type routine := by
  constructor
  · intro mem k hk
    by_cases hlt : num.toNat ≤ maxNumInterrupts
    · rw [setBytes_stored mem hr hlt] at hk
      refine ⟨by omega, ?_⟩
      by_contra hout
      rw [Set.mem_Ico] at hout
      exact hk (storeBytes_outside (by rw [length_bytes]; omega))
    · exact absurd (congrFun (setBytes_ignored mem (.inr (by omega))) k) hk
  · intro idt
    rw [get_isSome_iff]
    constructor
    · rintro ⟨mem, hmem⟩
      by_contra hlt
      exact hmem (setBytes_ignored mem (.inr (by omega)))
    · intro hlt
      obtain ⟨mem, hmem⟩ := set_changes type hr (Nat.le_of_lt hlt)
      exact ⟨mem, fun he => hmem (congrFun he _)⟩

/-- The number that `set_ir_in_idt` is given is checked once more, so that it stores to the table only. -/
theorem setIrInIdtBytes_inside (mem : KernelBytes) (n : BitVec 16) {k : Nat}
    (hk : sizeofIdtd * maxNumInterrupts ≤ k) :
    setIrInIdtBytes mem n routine k = mem k := by
  unfold setIrInIdtBytes
  split
  · rfl
  · next hn =>
    by_cases hr : routine = 0
    · rw [setBytes_ignored mem (.inl hr)]
    · have hlt : (n.setWidth 32).toNat < maxNumInterrupts := by
        rw [toNat_setWidth_num]
        unfold maxNumInterrupts
        omega
      rw [setBytes_stored mem hr (Nat.le_of_lt hlt)]
      refine storeBytes_outside ?_
      rw [length_bytes]
      unfold sizeofIdtd at hk ⊢
      omega

end Guard

/-- The only number that the guard lets pass and that has no entry is 256. -/
theorem stores_in_table_iff {num : BitVec 32} {type : BitVec 8} {routine : BitVec 64} (hr : routine ≠ 0) :
    StoresInTable num type routine ↔ num ≠ 256 := by
  have hnum : num = 256 ↔ num.toNat = maxNumInterrupts := BitVec.toNat_inj.symm
  rw [Ne, hnum]
  constructor
  · exact fun h he => not_storesInTable hr he h
  · exact storesInTable_of_ne hr

theorem last_entry_in_table : StoresInTable 255 0x8E 0xffffffff80205678 :=
  (stores_in_table_iff (by decide)).2 (by decide)

/-- Number 256 is refused by the getter, and the setter stores to the bytes behind the table. -/
theorem entry_256_behind_table : ¬ StoresInTable 256 0x8E 0xffffffff80205678 :=
  not_storesInTable (by decide) rfl

end Sbunix.Interrupt
