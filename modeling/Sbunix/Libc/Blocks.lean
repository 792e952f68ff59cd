/-
The allocator (libc/malloc.c) over block memory. Every block has the header that `malloc` writes: the first
block's lies 576 bytes in front of it, every later block begins with its own, so that the bytes the program
stores there are what `malloc` and `free` find in the header at `ROOT`.

No block has a list behind it but what the program stores over the field `next`: `getMemoryBlockFromOs` drops
the old head. Where such a number leads is left open. A memory is one whose header at `ROOT` is mapped.
-/
import Sbunix.Lib.BlockMemory
import Sbunix.Libc.Malloc

namespace Sbunix.Libc

open AddressSpace BlockMemory Fallible

/-! ## The header at ROOT -/

/-- `ROOT->addr` -/
def rootAddr (m : Mem) : Nat := readLE m.rootByte 0 8

/-- `ROOT->blockSize` -/
def rootSize (m : Mem) : Int := toInt (readLE m.rootByte 8 4)

/-- `ROOT->next`; nothing is behind an empty list. -/
def rootNext (m : Mem) : Nat := readLE m.rootByte 16 8

/-- The field `addr` of the next block: on the empty list it is the pointer that `malloc` returns. -/
def addrOf (U : Unspecified) (m : Mem) : Nat :=
  if m.root.isNone then U.address (.ofBlock m.next 0)
  else U.address (.ofBlock m.next 0) + sizeofMetaBlock * sizeofMetaBlock

/-- The header that `malloc(n)` writes, over the bytes that the mapping brings. -/
def newHeader (U : Unspecified) (m : Mem) (n : Nat) : Nat → UInt8 :=
  writeLE (writeLE (writeLE (U.fresh m.next) 8 4 n) 0 8 (addrOf U m)) 16 8 (rootNext m)

/-- The bytes of the new block. Of the header's fields in it only `next` depends on what was before, the
others are unspecified like the rest. -/
def newBytes (U : Unspecified) (m : Mem) (n : Nat) : List UInt8 :=
  (List.range n).map fun i =>
    if m.root.isSome ∧ 16 ≤ i ∧ i < 24 then newHeader U m n i else U.fresh m.next i

/-! ## The functions -/

/-- `malloc(n)` for a positive `n`. -/
def mallocBlock (U : Unspecified) (m : Mem) (n : Nat) : Ptr × Mem :=
  (.ofBlock m.next 0,
    { m with
      blocks := m.blocks ++ [newBytes U m n]
      root := some ⟨m.next, m.root.isNone, (List.range sizeofMetaBlock).map (newHeader U m n)⟩ })

/-- What `free` has done: nothing, or it has unmapped so many bytes from the header at `ROOT` on. -/
inductive Freed where
  | kept (m : Mem)
  | unmapped (m : Mem) (length : Nat)

/-- `free(p)`. A `munmap` of a length that is not positive fails; any other takes the header, and the block that
it stands in or in front of is no longer to be used. -/
def freeBlock (U : Unspecified) (m : Mem) : Ptr → Except Fault Freed
  | .null => .ok (.kept m)
  | .wild => .error .wild
  | .ofBlock b o =>
    let m' := release m (.ofBlock b o)
    match m.root with
    | none => .ok (.kept m')
    | some r =>
      if rootAddr m = U.address (.ofBlock b o) then
        let length := toInt (rootSize m + sizeofMetaBlock)
        if 0 < length then .ok (.unmapped (release m' (.ofBlock r.block 0)) length.toNat) else .ok (.kept m')
      else if rootNext m = 0 ∨ U.listEnds m (rootNext m) (.ofBlock b o) = true then .ok (.kept m')
      else .error .wild

/-- `free` for a program that goes on using its blocks. Once the block at `ROOT` is unmapped the next call of
`malloc` or `free` reads a header that is gone; the fault is put here. -/
def freeMapped (U : Unspecified) (m : Mem) (p : Ptr) : Except Fault Mem := do
  match ← freeBlock U m p with
  | .kept m => return m
  | .unmapped _ _ => .error .unmapped

/-- The header at `ROOT` has the pointer in its field `addr`, and a size that can be unmapped. -/
def Unmaps (U : Unspecified) (m : Mem) (p : Ptr) : Prop :=
  rootAddr m = U.address p ∧ 0 < toInt (rootSize m + sizeofMetaBlock)

instance (U : Unspecified) (m : Mem) (p : Ptr) : Decidable (Unmaps U m p) := inferInstanceAs (Decidable (_ ∧ _))

/-- The walk of `free` stops at that header, or behind it. -/
def Ends (U : Unspecified) (m : Mem) (p : Ptr) : Prop :=
  rootAddr m = U.address p ∨ rootNext m = 0 ∨ U.listEnds m (rootNext m) p = true

instance (U : Unspecified) (m : Mem) (p : Ptr) : Decidable (Ends U m p) := inferInstanceAs (Decidable (_ ∨ _))

/-! ## malloc -/

section Malloc

variable {U : Unspecified} {K : Nat → Prop} {m m' : Mem} {b c i n : Nat}

theorem malloc_fst : (mallocBlock U m n).1 = .ofBlock m.next 0 := rfl

@[simp] theorem next_malloc : (mallocBlock U m n).2.next = m.next + 1 := by simp [mallocBlock, Mem.next]

@[simp] theorem length_newBytes : (newBytes U m n).length = n := by simp [newBytes]

theorem bytes_malloc_self : (mallocBlock U m n).2.bytes m.next = newBytes U m n := by
  simp [mallocBlock, Mem.bytes, Mem.next, List.getD_eq_getElem?_getD]

theorem bytes_malloc_ne (h : c ≠ m.next) : (mallocBlock U m n).2.bytes c = m.bytes c := by
  unfold Mem.next at h
  simp only [mallocBlock, Mem.bytes, List.getD_eq_getElem?_getD]
  rcases Nat.lt_or_gt_of_ne h with h | h
  · rw [List.getElem?_append_left h]
  · rw [List.getElem?_eq_none (by simp; omega), List.getElem?_eq_none (by omega)]

/-- A byte in front of the field `next` is not determined. -/
theorem getElem?_newBytes (hi : i < n) (h : i < 16 ∨ m.root = none) :
    (newBytes U m n)[i]? = some (U.fresh m.next i) := by
  have hfield : ¬ (m.root.isSome ∧ 16 ≤ i ∧ i < 24) := by
    rintro ⟨hroot, hle, -⟩
    rcases h with h | h
    · omega
    · rw [h] at hroot
      cases hroot
  rw [newBytes, List.getElem?_map, List.getElem?_range hi, Option.map_some, if_neg hfield]

theorem frame_malloc (hK : ¬ K m.next) : Frame K m (mallocBlock U m n).2 where
  next_le := by simp
  bytes _ hc := bytes_malloc_ne fun h => hK (h ▸ hc)
  stray _ _ := rfl

theorem keeps_malloc (hb : b < m.next) : Keeps b m (mallocBlock U m n).2 :=
  ⟨Nat.le_of_lt (by simp), bytes_malloc_ne (Nat.ne_of_lt hb)⟩

theorem outside_malloc (hb : b < m.next) : Outside b (mallocBlock U m n).1 := by
  intro o he
  cases he
  exact Nat.lt_irrefl _ hb

theorem root_malloc : ∃ h, (mallocBlock U m n).2.root = some h ∧ h.block = m.next ∧ h.apart = m.root.isNone :=
  ⟨_, rfl, rfl, rfl⟩

/-- The new header takes over the bytes of the field `next`. -/
theorem newHeader_next (h16 : 16 ≤ i) (h24 : i < 24) : newHeader U m n i = m.rootByte i :=
  writeLE_readLE _ _ h16 h24

theorem getElem?_newBytes_next (hi : i < n) (hroot : m.root.isSome) (h16 : 16 ≤ i) (h24 : i < 24) :
    (newBytes U m n)[i]? = some (m.rootByte i) := by
  rw [newBytes, List.getElem?_map, List.getElem?_range hi, Option.map_some, if_pos ⟨hroot, h16, h24⟩,
    newHeader_next h16 h24]

/-- The header's bytes in memory are those that `malloc` wrote, as far as `next` is concerned. -/
theorem rootByte_malloc (h16 : 16 ≤ i) (h24 : i < 24) : (mallocBlock U m n).2.rootByte i = m.rootByte i := by
  have hheader : ((List.range sizeofMetaBlock).map (newHeader U m n)).getD i 0 = m.rootByte i := by
    rw [List.getD_eq_getElem?_getD, List.getElem?_map, List.getElem?_range (show i < sizeofMetaBlock from h24),
      Option.map_some, newHeader_next h16 h24]
    rfl
  rw [Mem.rootByte_some rfl, bytes_malloc_self, length_newBytes, hheader]
  split
  · rfl
  · next hin =>
    rw [not_or, Bool.not_eq_true, Option.isNone_eq_false_iff] at hin
    rw [List.getD_eq_getElem?_getD, getElem?_newBytes_next (by omega) hin.1 h16 h24, Option.getD_some]

/-- The new header takes over the field `next`. -/
theorem rootNext_malloc : rootNext (mallocBlock U m n).2 = rootNext m :=
  readLE_congr fun i h16 h24 => rootByte_malloc h16 (by omega)

end Malloc

/-! ## The header in its block -/

/-- The list begins at block `b`, which holds its own header. -/
def RootIn (b : Nat) (m : Mem) : Prop := ∃ r, m.root = some r ∧ r.block = b ∧ r.apart = false

section RootIn

variable {U : Unspecified} {m m' : Mem} {b i n : Nat}

/-- Every block but the first holds its header. -/
theorem RootIn.malloc (h : m.root.isSome) : RootIn m.next (mallocBlock U m n).2 := by
  obtain ⟨r, hr, hb, hapart⟩ := root_malloc (U := U) (m := m) (n := n)
  exact ⟨r, hr, hb, hapart.trans (Option.isNone_eq_false_iff.2 h)⟩

theorem RootIn.of_root (h : RootIn b m) (hroot : m'.root = m.root) : RootIn b m' := by
  unfold RootIn
  rw [hroot]
  exact h

theorem RootIn.isSome (h : RootIn b m) : m.root.isSome := by
  obtain ⟨r, hr, -⟩ := h
  exact hr ▸ rfl

theorem RootIn.rootByte (h : RootIn b m) (hi : i < (m.bytes b).length) : m.rootByte i = (m.bytes b).getD i 0 := by
  obtain ⟨r, hr, rfl, hapart⟩ := h
  rw [Mem.rootByte_some hr, if_neg]
  rw [hapart]
  simpa using hi

end RootIn

/-! ## The field next -/

section Next

variable {U : Unspecified} {m m' : Mem} {r : Header} {b i : Nat} {l : List UInt8}

theorem rootNext_eq_zero_iff : rootNext m = 0 ↔ ∀ i, 16 ≤ i → i < 24 → m.rootByte i = 0 := readLE_eq_zero_iff

theorem rootNext_congr (h : ∀ i, m'.rootByte i = m.rootByte i) : rootNext m' = rootNext m :=
  readLE_congr fun i _ _ => h i

/-- What is stored into the block at ROOT does not fill the field. -/
theorem rootNext_of_root (hroot : m'.root = m.root)
    (hlen : ∀ r, m.root = some r → (m'.bytes r.block).length = (m.bytes r.block).length)
    (hbytes : ∀ r, m.root = some r → ∀ i, 16 ≤ i → i < 24 →
      (m'.bytes r.block).getD i 0 = 0 ∨ (m'.bytes r.block).getD i 0 = (m.bytes r.block).getD i 0)
    (h : rootNext m = 0) : rootNext m' = 0 := by
  rw [rootNext_eq_zero_iff] at h ⊢
  intro i h16 h24
  have hi := h i h16 h24
  cases hr : m.root with
  | none => rw [Mem.rootByte, hroot, hr]
  | some r =>
    rw [Mem.rootByte_some hr] at hi
    rw [Mem.rootByte_some (hroot.trans hr), hlen r hr]
    split
    · next hin => rwa [if_pos hin] at hi
    · next hin =>
      rw [if_neg hin] at hi
      rcases hbytes r hr i h16 h24 with h0 | hsame
      · exact h0
      · exact hsame.trans hi

theorem rootNext_setBytes (h : rootNext m = 0) (hb : b < m.next) (hlen : l.length = (m.bytes b).length)
    (hl : ∀ i, 16 ≤ i → i < 24 → l.getD i 0 = 0 ∨ l.getD i 0 = (m.bytes b).getD i 0) :
    rootNext (m.setBytes b l) = 0 := by
  refine rootNext_of_root Mem.root_setBytes (fun r _ => ?_) (fun r _ i h16 h24 => ?_) h
  · by_cases hr : r.block = b
    · rw [hr, Mem.bytes_setBytes_self hb, hlen]
    · rw [Mem.bytes_setBytes_ne hr]
  · by_cases hr : r.block = b
    · rw [hr, Mem.bytes_setBytes_self hb]
      exact hl i h16 h24
    · rw [Mem.bytes_setBytes_ne hr]
      exact .inr rfl

end Next

/-! ## free -/

section Free

variable {U : Unspecified} {m m' : Mem} {b k : Nat} {o : Int} {p : Ptr}

theorem freeBlock_root {r : Header} (hr : m.root = some r) : freeBlock U m (.ofBlock b o) =
    if Unmaps U m (.ofBlock b o) then
      .ok (.unmapped (release (release m (.ofBlock b o)) (.ofBlock r.block 0))
        (toInt (rootSize m + sizeofMetaBlock)).toNat)
    else if Ends U m (.ofBlock b o) then .ok (.kept (release m (.ofBlock b o)))
    else .error .wild := by
  unfold freeBlock
  dsimp only
  rw [hr]
  dsimp only
  by_cases haddr : rootAddr m = U.address (.ofBlock b o)
  · rw [if_pos haddr]
    by_cases hsize : 0 < toInt (rootSize m + sizeofMetaBlock)
    · rw [if_pos hsize, if_pos (show Unmaps U m (.ofBlock b o) from ⟨haddr, hsize⟩)]
    · rw [if_neg hsize, if_neg (show ¬ Unmaps U m (.ofBlock b o) from fun h => hsize h.2),
        if_pos (show Ends U m (.ofBlock b o) from .inl haddr)]
  · rw [if_neg haddr, if_neg (show ¬ Unmaps U m (.ofBlock b o) from fun h => haddr h.1)]
    have hends : Ends U m (.ofBlock b o) ↔ rootNext m = 0 ∨ U.listEnds m (rootNext m) (.ofBlock b o) = true :=
      or_iff_right haddr
    by_cases hnext : rootNext m = 0 ∨ U.listEnds m (rootNext m) (.ofBlock b o) = true
    · rw [if_pos hnext, if_pos (hends.2 hnext)]
    · rw [if_neg hnext, if_neg fun h => hnext (hends.1 h)]

theorem freeBlock_kept (h : freeBlock U m p = .ok (.kept m')) : m' = release m p := by
  unfold freeBlock at h
  split at h
  · cases h
    rfl
  · cases h
  · dsimp only at h
    split at h
    · cases h
      rfl
    · split at h
      · split at h
        · cases h
        · cases h
          rfl
      · split at h
        · cases h
          rfl
        · cases h

/-- What `free` leaves of the memory, if it returns. -/
theorem freeMapped_ok (h : freeMapped U m p = .ok m') : m' = release m p := by
  obtain ⟨r, hfree, h⟩ := bind_eq_ok h
  cases r with
  | kept m1 =>
    cases h
    exact freeBlock_kept hfree
  | unmapped m1 length => cases h

theorem freeMapped_keeps (h : freeMapped U m p = .ok m') : Keeps b m m' := freeMapped_ok h ▸ .release p

/-- The kernel maps whole pages, and the blocks from `n` on stand at their start. -/
def PageAligned (U : Unspecified) (n : Nat) : Prop := ∀ b, n ≤ b → U.address (.ofBlock b 0) % 4096 = 0

/-- `free` finds no pointer to a page in the header at `ROOT` and no further header behind it. The header
is in none of the blocks before `k`, which may be written to. -/
structure Quiet (k : Nat) (m : Mem) : Prop where
  addr : m.rootByte 0 ≠ 0
  next : rootNext m = 0
  apart : ∀ r, m.root = some r → k ≤ r.block

/-- A text at ROOT that does not reach the field `next`. -/
theorem Quiet.of_text {l : List UInt8} (hroot : RootIn b m) (hbytes : m.bytes b = l) (h0 : l.head? ≠ some 0)
    (hl : l ≠ []) (hnext : rootNext m = 0) (hb : k ≤ b) : Quiet k m := by
  refine ⟨?_, hnext, fun r hr => ?_⟩
  · cases l with
    | nil => exact absurd rfl hl
    | cons ch l =>
      rw [hroot.rootByte (by rw [hbytes]; simp), hbytes]
      exact fun h => h0 (congrArg some h)
  · obtain ⟨r', hr', rfl, -⟩ := hroot
    cases hr.symm.trans hr'
    exact hb

theorem rootAddr_ne (h : m.rootByte 0 ≠ 0) {a : Nat} (ha : a % 4096 = 0) : rootAddr m ≠ a := by
  have hbyte : (m.rootByte 0).toNat ≠ 0 := fun h0 => h (UInt8.toNat_inj.1 h0)
  have hlt := (m.rootByte 0).toNat_lt
  unfold rootAddr
  rw [readLE]
  omega

/-- Then nothing is unmapped, and the blocks stay as they are. -/
theorem Quiet.free (h : Quiet k m) (ha : U.address (.ofBlock b o) % 4096 = 0) :
    freeMapped U m (.ofBlock b o) = .ok (release m (.ofBlock b o)) := by
  unfold freeMapped freeBlock
  dsimp only
  cases m.root with
  | none => rfl
  | some r =>
    dsimp only
    rw [if_neg (rootAddr_ne h.addr ha), if_pos (.inl h.next)]
    rfl

theorem Quiet.congr (h : Quiet k m) (hroot : m'.root = m.root) (hbyte : ∀ i, m'.rootByte i = m.rootByte i) :
    Quiet k m' where
  addr := by rw [hbyte]; exact h.addr
  next := (rootNext_congr hbyte).trans h.next
  apart r hr := h.apart r (hroot.symm.trans hr)

theorem Quiet.release (h : Quiet k m) (p : Ptr) : Quiet k (release m p) :=
  h.congr (root_release p) fun i => rootByte_release p i

/-- Another block than that at ROOT changes. -/
theorem Quiet.setBytes (h : Quiet k m) (hb : b < k) (l : List UInt8) : Quiet k (m.setBytes b l) :=
  h.congr Mem.root_setBytes (Mem.rootByte_setBytes_ne fun r hr => Nat.ne_of_gt (Nat.lt_of_lt_of_le hb (h.apart r hr)))

theorem Quiet.frame {p : Nat} (h : Quiet k m) (hf : Frame (· ≠ p) m m') (hroot : m'.root = m.root) (hp : p < k) :
    Quiet k m' :=
  h.congr hroot (Mem.rootByte_congr hroot fun r hr =>
    hf.bytes _ (Nat.ne_of_gt (Nat.lt_of_lt_of_le hp (h.apart r hr))))

/-- A NUL is stored behind the first byte of a block. -/
theorem Quiet.store {i : Nat} (h : Quiet k m) (h0 : 0 < i) (hst : store m (.ofBlock b i) 0 = .ok m') : Quiet k m' := by
  obtain ⟨b', o', heq, hi, rfl⟩ := store_cases hst
  cases heq
  have hb := hi.lt_next
  refine ⟨?_, ?_, h.apart⟩
  · have haddr := h.addr
    cases hr : m.root with
    | none =>
      rw [Mem.rootByte, hr] at haddr
      exact absurd rfl haddr
    | some r =>
      rw [Mem.rootByte_some hr] at haddr
      rw [Mem.rootByte_some (Mem.root_setBytes.trans hr)]
      by_cases hrb : r.block = b
      · rw [hrb] at haddr ⊢
        rw [Mem.bytes_setBytes_self hb, List.length_set, Int.toNat_natCast]
        split
        · next hin => rwa [if_pos hin] at haddr
        · next hin =>
          rw [if_neg hin] at haddr
          rwa [List.getD_eq_getElem?_getD, List.getElem?_set_ne (Nat.ne_of_gt h0), ← List.getD_eq_getElem?_getD]
      · rwa [Mem.bytes_setBytes_ne hrb]
  · refine rootNext_setBytes h.next hb List.length_set fun j _ _ => ?_
    rw [Int.toNat_natCast, List.getD_eq_getElem?_getD, List.getElem?_set]
    split
    · split
      · exact .inl rfl
      · exact .inl rfl
    · exact .inr (List.getD_eq_getElem?_getD).symm

end Free

end Sbunix.Libc
