/-
The interrupt descriptor table (sys/idt.c, with `get_ir_from_idt` and `set_ir_in_idt` of sys/pic.c).
A handler's address is cut into three fields of its entry and put together again when it is asked
for. The address 0 is refused, so every entry keeps a handler.
-/
import Mathlib.Logic.Function.Basic
import Sbunix.Lib.BitFields
import Sbunix.Lib.Slots

namespace Sbunix.Interrupt

open BitFields

/-! ## The table -/

def maxNumInterrupts : Nat := 256

def idtSelector : BitVec 16 := 0x8

def interruptGateTypeAttr : BitVec 8 := 0x8E

/-- A packed structure of 16 bytes. -/
structure Idtd where
  offset1 : BitVec 16
  selector : BitVec 16
  ist : BitVec 8
  type : BitVec 8
  offset2 : BitVec 16
  offset3 : BitVec 32
  zero : BitVec 32
deriving DecidableEq, Repr

def sizeofIdtd : Nat := 16

/-- The bytes of an entry, the low byte of each field first. -/
def Idtd.bytes (e : Idtd) : List (BitVec 8) :=
  [field e.offset1 0 8, field e.offset1 8 8, field e.selector 0 8, field e.selector 8 8, e.ist, e.type,
    field e.offset2 0 8, field e.offset2 8 8,
    field e.offset3 0 8, field e.offset3 8 8, field e.offset3 16 8, field e.offset3 24 8,
    field e.zero 0 8, field e.zero 8 8, field e.zero 16 8, field e.zero 24 8]

def Idtd.ofBytes (l : List (BitVec 8)) : Idtd :=
  let b (i : Nat) : BitVec 8 := l.getD i 0
  { offset1 := b 1 ++ b 0, selector := b 3 ++ b 2, ist := b 4, type := b 5, offset2 := b 7 ++ b 6
    offset3 := b 11 ++ b 10 ++ b 9 ++ b 8, zero := b 15 ++ b 14 ++ b 13 ++ b 12 }

structure Idtr where
  limit : BitVec 16
  base : BitVec 64
deriving DecidableEq, Repr

structure Idt where
  sIdtr : Idtr
  sIdtd : Vector Idtd maxNumInterrupts

/-! ## The functions -/

def memset (c : BitVec 8) (n : Nat) (l : List (BitVec 8)) : List (BitVec 8) :=
  List.replicate n c ++ l.drop n

/-- `memset(&s_Idtd[0], 0, n)` -/
def clearTable (n : Nat) (table : Vector Idtd maxNumInterrupts) : Vector Idtd maxNumInterrupts :=
  let l := memset 0 n (table.toList.flatMap Idtd.bytes)
  Vector.ofFn fun i => .ofBytes ((l.drop (sizeofIdtd * i)).take sizeofIdtd)

/-- The guard lets 256 pass; a store at that entry falls behind the table, where nothing is known. -/
def setInterruptServiceRoutine (idt : Idt) (interruptServiceNum : BitVec 32) (type : BitVec 8)
    (interruptServiceRoutine : BitVec 64) : Option Idt :=
  if interruptServiceRoutine = 0 ∨ interruptServiceNum.toNat > maxNumInterrupts then some idt
  else
    let addr := interruptServiceRoutine
    let entry : Idtd :=
      { offset1 := (addr &&& 0xffff).setWidth 16
        selector := idtSelector
        ist := 0
        type := type
        offset2 := ((addr >>> 16) &&& 0xffff).setWidth 16
        offset3 := ((addr >>> 32) &&& 0xffffffff).setWidth 32
        zero := 0 }
    if h : interruptServiceNum.toNat < maxNumInterrupts then
      some { idt with sIdtd := idt.sIdtd.set interruptServiceNum.toNat entry h }
    else none

def getInterruptServiceRoutine (idt : Idt) (interruptServiceNum : BitVec 32) : Option Idtd :=
  if h : interruptServiceNum.toNat < maxNumInterrupts then some (idt.sIdtd[interruptServiceNum.toNat])
  else none

/-- `address` is where the table stands, `defaultRoutine` where `default_interrupt_service_routine`. -/
def initIdt (address defaultRoutine : BitVec 64) (idt : Idt) : Option Idt :=
  let idt : Idt :=
    { sIdtr := ⟨BitVec.ofNat 16 (sizeofIdtd * maxNumInterrupts - 1), address⟩
      sIdtd := clearTable (sizeofIdtd * maxNumInterrupts - 1) idt.sIdtd }
  (List.range maxNumInterrupts).foldlM (fun idt i =>
    setInterruptServiceRoutine idt (BitVec.ofNat 32 i) interruptGateTypeAttr defaultRoutine) idt

def getIrFromIdt (idt : Idt) (interruptNum : BitVec 16) : BitVec 64 :=
  if interruptNum.toNat ≥ 256 then 0
  else
    match getInterruptServiceRoutine idt (interruptNum.setWidth 32) with
    | none => 0
    | some entry =>
      -- the shift by 16 is made on 32 bits, without a sign
      (entry.offset3.setWidth 64 <<< 32) ||| (entry.offset2.setWidth 32 <<< 16).setWidth 64 |||
        entry.offset1.setWidth 64

def setIrInIdt (idt : Idt) (interruptNum : BitVec 16) (routine : BitVec 64) : Option Idt :=
  if interruptNum.toNat ≥ 256 then some idt
  else setInterruptServiceRoutine idt (interruptNum.setWidth 32) interruptGateTypeAttr routine

/-- Calls of `set_ir_in_idt` one after the other. -/
def setIrs (idt : Idt) : List (BitVec 16 × BitVec 64) → Option Idt
  | [] => some idt
  | (n, routine) :: calls => do setIrs (← setIrInIdt idt n routine) calls

/-! ## Entries -/

/-- The entry of a handler. -/
def gate (routine : BitVec 64) : Idtd where
  offset1 := field routine 0 16
  selector := idtSelector
  ist := 0
  type := interruptGateTypeAttr
  offset2 := field routine 16 16
  offset3 := field routine 32 32
  zero := 0

/-- Entry `i` is the gate of `handler i`. -/
def Routes (idt : Idt) (handler : Nat → BitVec 64) : Prop :=
  ∀ i (h : i < maxNumInterrupts), idt.sIdtd[i] = gate (handler i)

section Entries

variable {idt : Idt} {handler : Nat → BitVec 64} {num : BitVec 32} {n : BitVec 16}
  {routine : BitVec 64}

/-- No bit of an address is lost on the way through its entry. -/
theorem gate_address : ((gate routine).offset3.setWidth 64 <<< 32) |||
    ((gate routine).offset2.setWidth 32 <<< 16).setWidth 64 ||| (gate routine).offset1.setWidth 64 =
      routine := by
  have h2 : ((field routine 16 16).setWidth 32 <<< 16).setWidth 64 = place 64 (field routine 16 16) 16 :=
    setWidth_place _ (by decide)
  have h1 : (field routine 0 16).setWidth 64 = place 64 (field routine 0 16) 0 := by
    unfold place
    simp
  have h3 : (field routine 32 32).setWidth 64 <<< 32 = place 64 (field routine 32 32) 32 := rfl
  calc (field routine 32 32).setWidth 64 <<< 32 ||| ((field routine 16 16).setWidth 32 <<< 16).setWidth 64 |||
        (field routine 0 16).setWidth 64
      = place 64 (field routine 32 32) 32 |||
          (place 64 (field routine 16 16) 16 ||| place 64 (field routine 0 16) 0) := by
        rw [h1, h2, h3, BitVec.or_assoc]
    _ = place 64 (field routine (0 + 32) 32) (0 + 32) ||| place 64 (field routine 0 (16 + 16)) 0 := by
        rw [← place_or_place routine 0 16 16]
    _ = routine := by rw [place_or_place, place_field_all]

theorem set_eq (hr : routine ≠ 0) (h : num.toNat < maxNumInterrupts) :
    setInterruptServiceRoutine idt num interruptGateTypeAttr routine =
      some { idt with sIdtd := idt.sIdtd.set num.toNat (gate routine) h } := by
  have h1 : (routine &&& 0xffff).setWidth 16 = field routine 0 16 := by
    rw [field, BitVec.ushiftRight_zero]
    exact setWidth_and_ones routine 16
  have h2 : ((routine >>> 16) &&& 0xffff).setWidth 16 = field routine 16 16 := setWidth_and_ones _ 16
  have h3 : ((routine >>> 32) &&& 0xffffffff).setWidth 32 = field routine 32 32 := setWidth_and_ones _ 32
  rw [setInterruptServiceRoutine, if_neg (by rw [not_or]; exact ⟨hr, by omega⟩)]
  dsimp only
  rw [dif_pos h, h1, h2, h3]
  rfl

/-- One more entry routed, the others as they were. -/
theorem Routes.set (hi : Routes idt handler) (hr : routine ≠ 0) (h : num.toNat < maxNumInterrupts) :
    ∃ idt', setInterruptServiceRoutine idt num interruptGateTypeAttr routine = some idt' ∧
      Routes idt' (Function.update handler num.toNat routine) := by
  refine ⟨_, set_eq hr h, fun i hlt => ?_⟩
  rw [Vector.getElem_set, Function.update_apply]
  split
  · next he => rw [if_pos he.symm]
  · next hne => rw [if_neg (Ne.symm hne), hi i hlt]

theorem setIrInIdt_ignored (h : routine = 0 ∨ 256 ≤ n.toNat) : setIrInIdt idt n routine = some idt := by
  unfold setIrInIdt
  split
  · rfl
  · next hn =>
    rw [setInterruptServiceRoutine, if_pos (.inl (h.resolve_right hn))]

theorem toNat_setWidth_num : (n.setWidth 32).toNat = n.toNat := by
  rw [BitVec.toNat_setWidth]
  have := n.isLt
  omega

theorem Routes.setIr (hi : Routes idt handler) (hr : routine ≠ 0) (h : n.toNat < 256) :
    ∃ idt', setIrInIdt idt n routine = some idt' ∧
      Routes idt' (Function.update handler n.toNat routine) := by
  rw [setIrInIdt, if_neg (by omega), ← toNat_setWidth_num (n := n)]
  exact hi.set hr (by rw [toNat_setWidth_num]; exact h)

theorem Routes.getIr (hi : Routes idt handler) :
    getIrFromIdt idt n = if n.toNat < 256 then handler n.toNat else 0 := by
  unfold getIrFromIdt
  by_cases h : n.toNat < 256
  · have hlt : (n.setWidth 32).toNat < maxNumInterrupts := by rw [toNat_setWidth_num]; exact h
    rw [if_neg (by omega), if_pos h, getInterruptServiceRoutine, dif_pos hlt, hi _ hlt, toNat_setWidth_num]
    exact gate_address
  · rw [if_pos (by omega), if_neg h]

/-- The loop of `init_Idt` up to entry `k`. -/
theorem initLoop_eq (hr : routine ≠ 0) (idt : Idt) : ∀ k ≤ maxNumInterrupts,
    ∃ idt', (List.range k).foldlM (fun idt i =>
        setInterruptServiceRoutine idt (BitVec.ofNat 32 i) interruptGateTypeAttr routine) idt = some idt' ∧
      ∀ i (h : i < maxNumInterrupts), i < k → idt'.sIdtd[i] = gate routine := by
  intro k
  induction k with
  | zero => exact fun _ => ⟨idt, rfl, fun i _ h => absurd h (Nat.not_lt_zero i)⟩
  | succ k ih =>
    intro hk
    obtain ⟨idt1, he, hgates⟩ := ih (by omega)
    have hnum : (BitVec.ofNat 32 k).toNat = k := by
      rw [BitVec.toNat_ofNat]
      unfold maxNumInterrupts at hk
      omega
    have hlt : (BitVec.ofNat 32 k).toNat < maxNumInterrupts := by omega
    have hset : setInterruptServiceRoutine idt1 _ _ _ = _ := set_eq hr hlt
    refine ⟨{ idt1 with sIdtd := idt1.sIdtd.set _ (gate routine) hlt }, ?_, fun i hi hik => ?_⟩
    · rw [List.range_succ, List.foldlM_append, he, Option.bind_eq_bind, Option.bind_some,
        List.foldlM_cons, hset]
      rfl
    · rw [Vector.getElem_set]
      split
      · rfl
      · exact hgates i hi (by omega)

/-- After `init_Idt` every entry is the default routine's, whatever stood there before. -/
theorem initIdt_routes (address : BitVec 64) (hr : routine ≠ 0) (idt : Idt) :
    ∃ idt', initIdt address routine idt = some idt' ∧ Routes idt' fun _ => routine := by
  unfold initIdt
  obtain ⟨idt', he, hgates⟩ := initLoop_eq hr
    { sIdtr := ⟨BitVec.ofNat 16 (sizeofIdtd * maxNumInterrupts - 1), address⟩
      sIdtd := clearTable (sizeofIdtd * maxNumInterrupts - 1) idt.sIdtd } _ (Nat.le_refl _)
  exact ⟨idt', he, fun i hi => hgates i hi hi⟩

/-- The register for `lidt` is not touched by the entries. -/
theorem set_sIdtr {type : BitVec 8} {idt' : Idt}
    (h : setInterruptServiceRoutine idt num type routine = some idt') : idt'.sIdtr = idt.sIdtr := by
  unfold setInterruptServiceRoutine at h
  split at h
  · cases h
    rfl
  · dsimp only at h
    split at h
    · cases h
      rfl
    · cases h

theorem initIdt_sIdtr {address : BitVec 64} {idt' : Idt} (h : initIdt address routine idt = some idt') :
    idt'.sIdtr = ⟨4095, address⟩ := by
  have hloop : ∀ (l : List Nat) (idt : Idt), l.foldlM (fun idt i =>
      setInterruptServiceRoutine idt (BitVec.ofNat 32 i) interruptGateTypeAttr routine) idt = some idt' →
      idt'.sIdtr = idt.sIdtr := by
    intro l
    induction l with
    | nil =>
      intro idt h
      cases h
      rfl
    | cons i l ih =>
      intro idt h
      rw [List.foldlM_cons, Option.bind_eq_bind, Option.bind_eq_some_iff] at h
      obtain ⟨idt1, h1, h⟩ := h
      rw [ih idt1 h, set_sIdtr h1]
  exact hloop _ _ h

end Entries

/-! ## Runs -/

/-- The handler set last for an interrupt. -/
def lastHandler (calls : List (BitVec 16 × BitVec 64)) (n : BitVec 16) : Option (BitVec 64) :=
  Slots.lastValue (calls.filter fun call => call.2 ≠ 0) n

theorem Routes.setIrs {idt : Idt} {handler : Nat → BitVec 64} (h : Routes idt handler)
    (calls : List (BitVec 16 × BitVec 64)) : ∃ idt' handler', setIrs idt calls = some idt' ∧
      Routes idt' handler' ∧ ∀ n : BitVec 16, n.toNat < 256 →
        handler' n.toNat = (lastHandler calls n).getD (handler n.toNat) := by
  induction calls generalizing idt handler with
  | nil => exact ⟨idt, handler, rfl, h, fun n _ => rfl⟩
  | cons call calls ih =>
    obtain ⟨n, routine⟩ := call
    by_cases hz : routine = 0
    · -- the address 0 is refused
      obtain ⟨idt', handler', he, hr, hlast⟩ := ih h
      refine ⟨idt', handler', ?_, hr, fun n' hn => ?_⟩
      · rw [Interrupt.setIrs, setIrInIdt_ignored (.inl hz)]
        exact he
      · have hskip : lastHandler ((n, routine) :: calls) n' = lastHandler calls n' := by
          rw [lastHandler, List.filter_cons_of_neg (by simpa using hz), ← lastHandler]
        rw [hlast n' hn, hskip]
    · have hkeep : ∀ n' : BitVec 16, lastHandler ((n, routine) :: calls) n' =
          (lastHandler calls n').or (if n = n' then some routine else none) := fun n' => by
        rw [lastHandler, List.filter_cons_of_pos (by simpa using hz), Slots.lastValue, ← lastHandler]
      by_cases hn : n.toNat < 256
      · obtain ⟨idt1, he1, h1⟩ := h.setIr hz hn
        obtain ⟨idt', handler', he, hr, hlast⟩ := ih h1
        refine ⟨idt', handler', ?_, hr, fun n' hn' => ?_⟩
        · rw [Interrupt.setIrs, he1]
          exact he
        · rw [hlast n' hn', hkeep, Function.update_apply]
          by_cases hnn : n = n'
          · subst hnn
            cases lastHandler calls n <;> simp
          · rw [if_neg hnn, if_neg fun heq => hnn (BitVec.eq_of_toNat_eq heq.symm), Option.or_none]
      · obtain ⟨idt', handler', he, hr, hlast⟩ := ih h
        refine ⟨idt', handler', ?_, hr, fun n' hn' => ?_⟩
        · rw [Interrupt.setIrs, setIrInIdt_ignored (.inr (by omega))]
          exact he
        · rw [hlast n' hn', hkeep, if_neg (fun heq => hn (by rwa [heq])), Option.or_none]

/-- After `init_Idt` and any calls of `set_ir_in_idt`, each interrupt below 256 has the last address
other than 0 that was set for it, in a gate of the kernel's selector; there is none above. -/
theorem handlers_last (address : BitVec 64) {defaultRoutine : BitVec 64} (hd : defaultRoutine ≠ 0)
    (idt : Idt) (calls : List (BitVec 16 × BitVec 64)) :
    ∃ idt1 idt', initIdt address defaultRoutine idt = some idt1 ∧ setIrs idt1 calls = some idt' ∧
      (∀ n : BitVec 16, getIrFromIdt idt' n =
        if n.toNat < 256 then (lastHandler calls n).getD defaultRoutine else 0) ∧
      (∀ entry ∈ idt'.sIdtd.toList,
        entry.selector = 8 ∧ entry.ist = 0 ∧ entry.type = 0x8E ∧ entry.zero = 0) ∧
      ∀ (n : BitVec 16) (routine : BitVec 64), routine = 0 ∨ 256 ≤ n.toNat →
        setIrInIdt idt' n routine = some idt' := by
  obtain ⟨idt1, he1, h1⟩ := initIdt_routes address hd idt
  obtain ⟨idt', handler', he, hr, hlast⟩ := h1.setIrs calls
  refine ⟨idt1, idt', he1, he, ?_, ?_, ?_⟩
  · intro n
    rw [hr.getIr]
    split
    · next hn => exact hlast n hn
    · rfl
  · intro entry hm
    obtain ⟨i, hi, rfl⟩ := List.getElem_of_mem hm
    rw [Vector.length_toList] at hi
    rw [Vector.getElem_toList, hr i hi]
    exact ⟨rfl, rfl, rfl, rfl⟩
  · exact fun n routine h => setIrInIdt_ignored h

def noIdt : Idt := ⟨⟨0, 0⟩, Vector.replicate _ ⟨0, 0, 0, 0, 0, 0, 0⟩⟩

theorem handlers_last_clock : ∃ idt1 idt', initIdt 0x1000 0xffffffff80201234 noIdt = some idt1 ∧
    setIrs idt1 [(32, 0xffffffff80205678), (32, 0), (256, 7)] = some idt' ∧
    getIrFromIdt idt' 32 = 0xffffffff80205678 ∧ getIrFromIdt idt' 33 = 0xffffffff80201234 ∧
    getIrFromIdt idt' 256 = 0 := by
  obtain ⟨idt1, idt', h1, h, hget, -⟩ := handlers_last 0x1000
    (show (0xffffffff80201234 : BitVec 64) ≠ 0 by decide) noIdt [(32, 0xffffffff80205678), (32, 0), (256, 7)]
  exact ⟨idt1, idt', h1, h, hget 32, hget 33, hget 256⟩

end Sbunix.Interrupt
