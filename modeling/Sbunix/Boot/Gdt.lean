/-
The segments (sys/gdt.c, sys/gdt.s). The descriptor of the task state segment is put together from
bit fields, and the processor takes it apart along other ones. Loading a selector checks the entry
it names.
-/
import Mathlib.Tactic.Common
import Sbunix.Lib.BitFields

namespace Sbunix.Boot

open BitFields

/-! ## The table -/

def gdtCs : BitVec 64 := 0x00180000000000
def gdtDs : BitVec 64 := 0x00100000000000
def dpl0 : BitVec 64 := 0x00000000000000
def dpl3 : BitVec 64 := 0x00600000000000
def flagP : BitVec 64 := 0x00800000000000
def flagL : BitVec 64 := 0x20000000000000
def flagW : BitVec 64 := 0x00020000000000

def maxGdt : Nat := 32

abbrev Table := Vector (BitVec 64) maxGdt

/-- `gdt` as it is linked. -/
def gdt : Table :=
  Vector.ofFn fun i => #[0, gdtCs ||| flagP ||| dpl0 ||| flagL, gdtDs ||| flagP ||| flagW ||| dpl0,
    gdtCs ||| flagP ||| dpl3 ||| flagL, gdtDs ||| flagP ||| flagW ||| dpl3].getD i 0

structure Gdtr where
  size : BitVec 16
  addr : BitVec 64
deriving DecidableEq, Repr

/-- `gdtr`, of a table at `address`. -/
def gdtr (address : BitVec 64) : Gdtr := ⟨BitVec.ofNat 16 (8 * maxGdt), address⟩

/-- `struct tss_t` is packed. -/
def sizeofTss : Nat := 4 + 3 * 8 + 8 + 7 * 8 + 8 + 2 + 2

/-! ## The processor -/

/-- The table, and the registers that hold selectors into it. -/
structure Segments where
  gdt : Table
  gdtr : Gdtr
  cs : BitVec 16
  ds : BitVec 16
  es : BitVec 16
  fs : BitVec 16
  gs : BitVec 16
  ss : BitVec 16
  tr : BitVec 16

/-- Bytes `0 .. size` of the table count, bit 2 asks for another table, and where the register points
elsewhere nothing is known. -/
def Segments.entry (s : Segments) (address : BitVec 64) (selector : BitVec 16) (size : Nat) :
    Option (BitVec 64) :=
  if s.gdtr.addr ≠ address ∨ selector.getLsbD 2 ∨ s.gdtr.size.toNat < 8 * (selector.toNat / 8) + (size - 1)
  then none else s.gdt[selector.toNat / 8]?

def present (entry : BitVec 64) : Bool := entry.getLsbD 47

def level (entry : BitVec 64) : BitVec 2 := field entry 45 2

def isCode (entry : BitVec 64) : Bool :=
  entry.getLsbD 44 && entry.getLsbD 43 && entry.getLsbD 53 && !entry.getLsbD 54

def isData (entry : BitVec 64) : Bool := entry.getLsbD 44 && !entry.getLsbD 43 && entry.getLsbD 41

/-- What a load at level 0 asks of a segment of level 0. -/
def Segments.load (s : Segments) (address : BitVec 64) (kind : BitVec 64 → Bool) (selector : BitVec 16) :
    Option (BitVec 16) := do
  let entry ← s.entry address selector 8
  if kind entry ∧ present entry ∧ level entry = 0 ∧ field selector 0 2 = 0 then some selector else none

/-- `lgdt`, the far return and the five moves. -/
def x86_64AsmLgdt (address : BitVec 64) (gdtr : Gdtr) (csIdx dsIdx : BitVec 64) (s : Segments) :
    Option Segments := do
  let s := { s with gdtr := gdtr }
  let s := { s with cs := ← s.load address isCode (csIdx.setWidth 16) }
  let data ← s.load address isData (dsIdx.setWidth 16)
  some { s with es := data, fs := data, gs := data, ds := data, ss := data }

/-- Two entries side by side. -/
abbrev SysSegmentDescriptor := BitVec 128

def Segments.sd (s : Segments) : SysSegmentDescriptor := s.gdt[6] ++ s.gdt[5]

def Segments.setSd (s : Segments) (sd : SysSegmentDescriptor) : Segments :=
  { s with gdt := (s.gdt.set 5 (field sd 0 64)).set 6 (field sd 64 64) }

/-- What the processor reads of such a descriptor. -/
structure SystemSegment where
  base : BitVec 64
  limit : BitVec 20
  type : BitVec 5
  dpl : BitVec 2
  present : Bool
  granular : Bool
  zero : BitVec 5
deriving DecidableEq, Repr

def SysSegmentDescriptor.read (sd : SysSegmentDescriptor) : SystemSegment where
  base := field sd 64 32 ++ (field sd 56 8 ++ (field sd 32 8 ++ field sd 16 16))
  limit := field sd 48 4 ++ field sd 0 16
  type := field sd 40 5
  dpl := field sd 45 2
  present := sd.getLsbD 47
  granular := sd.getLsbD 55
  zero := field sd 104 5

/-- `ltr` of the selector `0x28`: a task state segment that is not busy becomes busy. -/
def x86_64AsmLtr (address : BitVec 64) (s : Segments) : Option Segments := do
  let _ ← s.entry address 0x28 16
  let segment := SysSegmentDescriptor.read s.sd
  if segment.type = 9 ∧ segment.present ∧ segment.zero = 0 then
    some { s.setSd (put s.sd 41 (1 : BitVec 1)) with tr := 0x28 }
  else none

/-! ## The functions -/

section Fields

/-- A bit field of the structure: the value is cut to its width. -/
def store (k n : Nat) (value : BitVec 64) (sd : SysSegmentDescriptor) : SysSegmentDescriptor :=
  put sd k (value.setWidth n)

def sdLolimit : BitVec 64 → SysSegmentDescriptor → SysSegmentDescriptor := store 0 16
def sdLobase : BitVec 64 → SysSegmentDescriptor → SysSegmentDescriptor := store 16 24
def sdType : BitVec 64 → SysSegmentDescriptor → SysSegmentDescriptor := store 40 5
def sdDpl : BitVec 64 → SysSegmentDescriptor → SysSegmentDescriptor := store 45 2
def sdP : BitVec 64 → SysSegmentDescriptor → SysSegmentDescriptor := store 47 1
def sdHilimit : BitVec 64 → SysSegmentDescriptor → SysSegmentDescriptor := store 48 4
def sdGran : BitVec 64 → SysSegmentDescriptor → SysSegmentDescriptor := store 55 1
def sdHibase : BitVec 64 → SysSegmentDescriptor → SysSegmentDescriptor := store 56 40

/-- The eight stores of `init_gdt`. -/
def describe (tss : BitVec 64) (sd : SysSegmentDescriptor) : SysSegmentDescriptor :=
  let sd := sdLolimit (BitVec.ofNat 64 (sizeofTss - 1)) sd
  let sd := sdLobase tss sd
  let sd := sdType 9 sd
  let sd := sdDpl 0 sd
  let sd := sdP 1 sd
  let sd := sdHilimit 0 sd
  let sd := sdGran 0 sd
  sdHibase (tss >>> 24) sd

end Fields

/-- `address` is where `gdt` stands, `tss` where `tss`. -/
def initGdt (address tss : BitVec 64) (s : Segments) : Option Segments := do
  let s := s.setSd (describe tss s.sd)
  let s ← x86_64AsmLgdt address (gdtr address) 8 16 s
  x86_64AsmLtr address s

/-! ## The descriptor -/

section Descriptor

variable (tss : BitVec 64) (sd : SysSegmentDescriptor)

theorem sd_setSd (s : Segments) : (s.setSd sd).sd = sd := by
  unfold Segments.setSd Segments.sd
  rw [Vector.getElem_set_self, Vector.getElem_set_ne _ _ (by omega), Vector.getElem_set_self]
  have := field_append_field sd 0 64 64
  rw [Nat.zero_add] at this
  rw [this, field_all]

theorem base_of_fields : field tss 32 32 ++ (field tss 24 8 ++ (field tss 16 8 ++ field tss 0 16)) = tss := by
  have h1 : field tss 16 8 ++ field tss 0 16 = field tss 0 24 := field_append_field tss 0 16 8
  have h2 : field tss 24 8 ++ field tss 0 24 = field tss 0 32 := field_append_field tss 0 24 8
  have h3 : field tss 32 32 ++ field tss 0 32 = field tss 0 64 := field_append_field tss 0 32 32
  rw [h1, h2, h3, field_all]

/-- A bit that no store covers. -/
def reserved (i : Nat) : Prop := 52 ≤ i ∧ i < 55 ∨ 96 ≤ i

theorem getLsbD_describe {i : Nat} (hi : i < 128) (hr : reserved i) :
    (describe tss sd).getLsbD i = sd.getLsbD i := by
  unfold reserved at hr
  unfold describe sdLolimit sdLobase sdType sdDpl sdP sdHilimit sdGran sdHibase store
  repeat rw [getLsbD_put _ _ _ hi, if_neg (by omega)]

/-- The other bits do not depend on what stood there. -/
theorem describe_congr {sd sd' : SysSegmentDescriptor}
    (h : ∀ i < 128, reserved i → sd.getLsbD i = sd'.getLsbD i) : describe tss sd = describe tss sd' := by
  apply BitVec.eq_of_getLsbD_eq
  intro i hi
  by_cases hr : reserved i
  · rw [getLsbD_describe _ _ hi hr, getLsbD_describe _ _ hi hr, h i hi hr]
  · unfold reserved at hr
    unfold describe sdLolimit sdLobase sdType sdDpl sdP sdHilimit sdGran sdHibase store
    simp only [getLsbD_put _ _ _ hi]
    split_ifs <;> first | rfl | omega

/-- No bit of the address is lost, though the processor cuts it in four where the structure cuts it
in two. -/
theorem read_describe : SysSegmentDescriptor.read (describe tss sd) =
    { base := tss, limit := BitVec.ofNat 20 (sizeofTss - 1), type := 9, dpl := 0, present := true
      granular := false, zero := field sd 104 5 } := by
  have hlow : field (describe tss sd) 16 24 = field tss 0 24 := by
    unfold describe sdLobase sdType sdDpl sdP sdHilimit sdGran sdHibase store
    simp (disch := omega) only [field_put_apart, field_put_same]
    simp [field]
  have hhigh : field (describe tss sd) 56 40 = field tss 24 40 := field_put_same _ _ (by omega)
  have b0 : field (describe tss sd) 16 16 = field tss 0 16 := by
    rw [← field_field _ 16 0 (by omega : 0 + 16 ≤ 24), hlow, field_field _ _ _ (by omega)]
  have b1 : field (describe tss sd) 32 8 = field tss 16 8 := by
    rw [← field_field _ 16 16 (by omega : 16 + 8 ≤ 24), hlow, field_field _ _ _ (by omega)]
  have b2 : field (describe tss sd) 56 8 = field tss 24 8 := by
    rw [← field_field _ 56 0 (by omega : 0 + 8 ≤ 40), hhigh, field_field _ _ _ (by omega)]
  have b3 : field (describe tss sd) 64 32 = field tss 32 32 := by
    rw [← field_field _ 56 8 (by omega : 8 + 32 ≤ 40), hhigh, field_field _ _ _ (by omega)]
  have bit {i : Nat} (hi : i < 128) : (describe tss sd).getLsbD i = (field (describe tss sd) i 1).getLsbD 0 := by
    rw [getLsbD_field _ _ (by omega), Nat.add_zero]
  unfold SysSegmentDescriptor.read
  rw [b0, b1, b2, b3, base_of_fields, bit (by omega : 47 < 128), bit (by omega : 55 < 128)]
  unfold describe sdLolimit sdLobase sdType sdDpl sdP sdHilimit sdGran sdHibase store
  simp (disch := omega) only [field_put_apart, field_put_same]
  rfl

/-- `ltr` changes one bit. -/
theorem read_busy : SysSegmentDescriptor.read (put (describe tss sd) 41 (1 : BitVec 1)) =
    { SysSegmentDescriptor.read (describe tss sd) with type := 11 } := by
  have htype : field (put (describe tss sd) 41 (1 : BitVec 1)) 40 5 = 11 := by
    apply BitVec.eq_of_getLsbD_eq
    intro i hi
    have hbits : ∀ i < 5, (if 41 ≤ 40 + i ∧ 40 + i < 41 + 1 then (1 : BitVec 1).getLsbD (40 + i - 41)
        else (9 : BitVec 5).getLsbD i) = (11 : BitVec 5).getLsbD i := by decide
    have h9 : field (describe tss sd) 40 5 = 9 := congrArg SystemSegment.type (read_describe tss sd)
    rw [getLsbD_field _ _ hi, getLsbD_put _ _ _ (by omega), ← getLsbD_field (n := 5) _ _ hi, h9,
      hbits i hi]
  unfold SysSegmentDescriptor.read
  rw [htype, getLsbD_put _ _ _ (by omega), if_neg (by omega), getLsbD_put _ _ _ (by omega),
    if_neg (by omega)]
  simp (disch := omega) only [field_put_apart]

end Descriptor

/-! ## The load -/

/-- What `init_gdt` finds in the table: the kernel's two segments, and zeros where they must be. -/
structure Segments.Flat (s : Segments) : Prop where
  code : s.gdt[1] = gdtCs ||| flagP ||| dpl0 ||| flagL
  data : s.gdt[2] = gdtDs ||| flagP ||| flagW ||| dpl0
  zero : field s.sd 104 5 = 0

section Load

variable {s : Segments} {address tss : BitVec 64}

/-- The limit is one too large, by which no entry gets in. -/
theorem entry_eq (h : s.gdtr = gdtr address) (selector : BitVec 16) : s.entry address selector 8 =
    if selector.getLsbD 2 then none else s.gdt[selector.toNat / 8]? := by
  have hsize : (gdtr address).size.toNat = 256 := rfl
  unfold Segments.entry
  rw [h, hsize]
  by_cases h2 : selector.getLsbD 2
  · rw [if_pos (.inr (.inl h2)), if_pos h2]
  · rw [if_neg h2]
    by_cases hi : selector.toNat / 8 < maxGdt
    · unfold maxGdt at hi
      rw [if_neg (by rintro (h | h | h); exacts [h rfl, h2 h, by omega])]
    · rw [Vector.getElem?_eq_none (by omega)]
      exact ite_self _

theorem load_eq {kind : BitVec 64 → Bool} {selector : BitVec 16} {entry : BitVec 64}
    (h : s.gdtr = gdtr address) (h2 : selector.getLsbD 2 = false)
    (he : s.gdt[selector.toNat / 8]? = some entry)
    (hk : kind entry ∧ present entry ∧ level entry = 0 ∧ field selector 0 2 = 0) :
    s.load address kind selector = some selector := by
  unfold Segments.load
  rw [entry_eq h, h2, if_neg Bool.false_ne_true, he]
  exact if_pos hk

theorem setSd_other (s : Segments) (sd : SysSegmentDescriptor) {i : Nat} (h5 : i ≠ 5) (h6 : i ≠ 6) :
    (s.setSd sd).gdt[i]? = s.gdt[i]? := by
  unfold Segments.setSd
  rw [Vector.getElem?_set_ne _ h6.symm, Vector.getElem?_set_ne _ h5.symm]

/-- The state `init_gdt` leaves behind. -/
def loaded (address tss : BitVec 64) (s : Segments) : Segments :=
  { s.setSd (put (describe tss s.sd) 41 (1 : BitVec 1)) with
    gdtr := gdtr address, cs := 8, ds := 16, es := 16, fs := 16, gs := 16, ss := 16, tr := 0x28 }

theorem setSd_setSd (s : Segments) (sd sd' : SysSegmentDescriptor) :
    (s.setSd sd).setSd sd' = s.setSd sd' := by
  unfold Segments.setSd
  rw [Vector.set_comm _ _ (show 6 ≠ 5 by omega), Vector.set_set, Vector.set_set]

theorem flat_setSd (h : s.Flat) (sd : SysSegmentDescriptor) :
    (s.setSd sd).gdt[1]? = some (gdtCs ||| flagP ||| dpl0 ||| flagL) ∧
      (s.setSd sd).gdt[2]? = some (gdtDs ||| flagP ||| flagW ||| dpl0) := by
  rw [setSd_other _ _ (by omega) (by omega), setSd_other _ _ (by omega) (by omega), ← h.code, ← h.data]
  exact ⟨Vector.getElem?_eq_getElem _, Vector.getElem?_eq_getElem _⟩

/-- The two selectors are let in. -/
theorem lgdt_eq (h : s.Flat) (sd : SysSegmentDescriptor) :
    x86_64AsmLgdt address (gdtr address) 8 16 (s.setSd sd) = some { s.setSd sd with
      gdtr := gdtr address, cs := 8, ds := 16, es := 16, fs := 16, gs := 16, ss := 16 } := by
  obtain ⟨hcode, hdata⟩ := flat_setSd h sd
  unfold x86_64AsmLgdt
  dsimp only
  rw [load_eq rfl rfl hcode (by decide)]
  rw [Option.bind_eq_bind, Option.bind_some, load_eq rfl rfl hdata (by decide)]
  rfl

theorem ltr_eq (hg : s.gdtr = gdtr address) {sd : SysSegmentDescriptor} (hsd : s.sd = describe tss sd)
    (hz : field sd 104 5 = 0) :
    x86_64AsmLtr address s =
      some { s.setSd (put (describe tss sd) 41 (1 : BitVec 1)) with tr := 0x28 } := by
  have he : s.entry address 0x28 16 = some s.gdt[5] := by
    have hsize : (gdtr address).size.toNat = 256 := rfl
    unfold Segments.entry
    rw [hg, hsize, if_neg (by rintro (h | h | h); exacts [h rfl, absurd h (by decide), absurd h (by decide)])]
    rfl
  unfold x86_64AsmLtr
  rw [he, Option.bind_eq_bind, Option.bind_some, hsd, read_describe]
  exact if_pos ⟨rfl, rfl, hz⟩

/-- No check of the processor fails. -/
theorem initGdt_eq (h : s.Flat) : initGdt address tss s = some (loaded address tss s) := by
  have hsd := sd_setSd (describe tss s.sd) s
  have hltr := ltr_eq (s := { s.setSd (describe tss s.sd) with
    gdtr := gdtr address, cs := 8, ds := 16, es := 16, fs := 16, gs := 16, ss := 16 }) rfl hsd h.zero
  unfold initGdt
  dsimp only
  rw [lgdt_eq h, Option.bind_eq_bind, Option.bind_some]
  exact hltr.trans (congrArg (fun t : Segments => some { t with
    gdtr := gdtr address, cs := 8, ds := 16, es := 16, fs := 16, gs := 16, ss := 16, tr := 0x28 })
    (setSd_setSd s (describe tss s.sd) (put (describe tss s.sd) 41 (1 : BitVec 1))))

theorem loaded_sd : (loaded address tss s).sd = put (describe tss s.sd) 41 (1 : BitVec 1) := sd_setSd _ s

theorem flat_loaded (h : s.Flat) : (loaded address tss s).Flat := by
  obtain ⟨hcode, hdata⟩ := flat_setSd h (put (describe tss s.sd) 41 (1 : BitVec 1))
  refine ⟨?_, ?_, ?_⟩
  · exact Option.some.inj ((Vector.getElem?_eq_getElem _).symm.trans hcode)
  · exact Option.some.inj ((Vector.getElem?_eq_getElem _).symm.trans hdata)
  · have hread := congrArg SystemSegment.zero (read_busy tss s.sd)
    rw [read_describe] at hread
    rw [loaded_sd]
    exact hread.trans h.zero

/-- Loading again writes what is there. -/
theorem loaded_loaded : loaded address tss (loaded address tss s) = loaded address tss s := by
  have hd : describe tss (loaded address tss s).sd = describe tss s.sd := by
    apply describe_congr
    intro i hi hr
    rw [loaded_sd, getLsbD_put _ _ _ hi, if_neg (by unfold reserved at hr; omega),
      getLsbD_describe _ _ hi hr]
  unfold loaded at hd ⊢
  rw [hd]
  exact congrArg (fun t : Segments => { t with
    gdtr := gdtr address, cs := 8, ds := 16, es := 16, fs := 16, gs := 16, ss := 16, tr := 0x28 })
    (setSd_setSd s _ _)

end Load

/-- Wherever the table and the task state segment stand, and whatever else the table holds,
`init_gdt` passes every check the processor makes. The processor then reads the address of the
segment and its length out of the descriptor, finds it in use, and lets in the selectors of the 32
entries and no others; the rest of the table and the reserved bits stay. A second call changes
nothing. -/
theorem segments_loaded (address tss : BitVec 64) (s : Segments) (h : s.Flat) :
    ∃ s', initGdt address tss s = some s' ∧ initGdt address tss s' = some s' ∧
      s'.cs = 8 ∧ (∀ r ∈ [s'.ds, s'.es, s'.fs, s'.gs, s'.ss], r = 16) ∧ s'.tr = 0x28 ∧
      SysSegmentDescriptor.read s'.sd = { base := tss, limit := 103, type := 11, dpl := 0
                                          present := true, granular := false, zero := 0 } ∧
      (∀ selector, (s'.entry address selector 8).isSome ↔
        selector.getLsbD 2 = false ∧ selector.toNat / 8 < maxGdt) ∧
      (∀ i, i ≠ 5 → i ≠ 6 → s'.gdt[i]? = s.gdt[i]?) ∧
      ∀ i < 128, reserved i → s'.sd.getLsbD i = s.sd.getLsbD i := by
  refine ⟨loaded address tss s, initGdt_eq h, ?_, rfl, ?_, rfl, ?_, ?_, ?_, ?_⟩
  · rw [initGdt_eq (flat_loaded h), loaded_loaded]
  · intro r hr
    simp only [List.mem_cons, List.not_mem_nil, or_false] at hr
    rcases hr with rfl | rfl | rfl | rfl | rfl <;> rfl
  · rw [loaded_sd, read_busy, read_describe, h.zero]
    rfl
  · intro selector
    rw [entry_eq rfl]
    cases selector.getLsbD 2 <;> simp
  · exact fun i h5 h6 => setSd_other s _ h5 h6
  · intro i hi hr
    rw [loaded_sd, getLsbD_put _ _ _ hi, if_neg (by unfold reserved at hr; omega),
      getLsbD_describe _ _ hi hr]

/-- The processor as the loader leaves it, the table as it is linked. -/
def loaderSegments : Segments :=
  { gdt := gdt, gdtr := ⟨0xffff, 0x1000⟩, cs := 0x10, ds := 0, es := 0, fs := 0, gs := 0, ss := 0x18, tr := 0 }

theorem segments_loaded_linked : ∃ s', initGdt 0xffffffff80209000 0xffffffff8020a123 loaderSegments = some s' ∧
    SysSegmentDescriptor.read s'.sd = { base := 0xffffffff8020a123, limit := 103, type := 11, dpl := 0
                                        present := true, granular := false, zero := 0 } := by
  obtain ⟨s', h, -, -, -, -, hread, -⟩ := segments_loaded 0xffffffff80209000 0xffffffff8020a123
    loaderSegments ⟨by decide, by decide, by decide⟩
  exact ⟨s', h, hread⟩

end Sbunix.Boot
