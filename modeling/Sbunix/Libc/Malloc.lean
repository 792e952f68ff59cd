/-
The allocator (libc/malloc.c) on a byte-addressed address space: one mapping for each block, with
a `meta_block` header in its first 24 bytes and the headers chained from `ROOT`. What `mmap`
answers is a parameter of each call; `munmap` calls are recorded.

The spec lemmas say once what `getNewBlock`, `malloc` and `free` do to the address space; the
results about whole runs are proved from them.
-/
import Sbunix.Lib.AddressSpace
import Sbunix.Lib.Fallible

namespace Sbunix.Libc

open AddressSpace Fallible

/-! ## The data -/

/-- `sizeof(meta_block)`: `addr` at 0, `blockSize` at 8, `next` at 16. -/
def sizeofMetaBlock : Nat := 24

/-- The conversion of an integer to `int`. -/
def toInt (n : Int) : Int := Int.bmod n (2 ^ 32)

/-- The allocator's view of the process: its memory, `ROOT`, and the `munmap` calls so far, the
last one first. -/
structure Heap where
  mem : Space
  root : Nat
  unmaps : List (Nat × Int)

/-- What the kernel answers to an `mmap`: the base of the mapping (0 for failure) and the bytes
it holds. -/
structure Mmap where
  base : Nat
  fill : Nat → UInt8

namespace Heap

def load (h : Heap) (a n : Nat) : Except Stop Nat := h.mem.load a n

def store (h : Heap) (a n v : Nat) : Except Stop Heap := do
  let mem ← h.mem.store a n v
  return { h with mem }

/-- `mmap(NULL, length, ..)`; a failed call maps nothing. -/
def mmap (h : Heap) (os : Mmap) (length : Int) : Heap :=
  if os.base = 0 then h else { h with mem := h.mem.map os.base length.toNat os.fill }

def munmap (h : Heap) (addr : Nat) (length : Int) : Heap :=
  { h with mem := h.mem.unmap addr length.toNat, unmaps := (addr, length) :: h.unmaps }

/-- The field `addr` of the header at `a`. -/
def addr (h : Heap) (a : Nat) : Except Stop Nat := h.load a 8

/-- The field `blockSize`, a signed `int`. -/
def blockSize (h : Heap) (a : Nat) : Except Stop Int := do
  let v ← h.load (a + 8) 4
  return toInt v

/-- The field `next`. -/
def next (h : Heap) (a : Nat) : Except Stop Nat := h.load (a + 16) 8

end Heap

/-! ## The functions -/

/-- A fresh mapping for the header and `len` bytes. The block's address is computed as
`new_meta_block + sizeof(meta_block)`, in units of `meta_block`. -/
def getNewBlock (h : Heap) (len : Int) (os : Mmap) : Except Stop (Nat × Heap) := do
  let newMetaBlock := os.base
  let h := h.mmap os (toInt (sizeofMetaBlock + len))
  if newMetaBlock = 0 then
    return (0, h)
  let h ← h.store (newMetaBlock + 8) 4 len.toNat
  let h ← h.store newMetaBlock 8 (newMetaBlock + sizeofMetaBlock * sizeofMetaBlock)
  let h ← h.store (newMetaBlock + 16) 8 0
  return (newMetaBlock, h)

def allocateMemoryWhenListIsEmpty (h : Heap) (size : Int) (os : Mmap) : Except Stop Heap := do
  let (root, h) ← getNewBlock h size os
  return { h with root }

def getMemoryBlockFromOs (h : Heap) (size : Int) (os : Mmap) : Except Stop (Nat × Heap) := do
  let (newMetaBlock, h) ← getNewBlock h size os
  let next ← h.next h.root
  let h ← h.store (newMetaBlock + 16) 8 next
  return (newMetaBlock, { h with root := newMetaBlock })

def malloc (h : Heap) (size : Int) (os : Mmap) : Except Stop (Nat × Heap) := do
  if size ≤ 0 then
    return (0, h)
  if h.root = 0 then
    let h ← allocateMemoryWhenListIsEmpty h size os
    let addr ← h.addr h.root
    return (addr, h)
  getMemoryBlockFromOs h size os

/-- `if(prev != NULL) prev->next = trav->next;` -/
def unlink (h : Heap) (prev trav : Nat) : Except Stop Heap := do
  if prev = 0 then
    return h
  let next ← h.next trav
  h.store (prev + 16) 8 next

/-- The loop of `free`: `trav` runs along the list, `prev` is the node before it. -/
def freeLoop (ptr : Nat) : Nat → Heap → Nat → Nat → Except Stop Heap
  | 0, _, _, _ => .error .outOfFuel
  | fuel + 1, h, trav, prev => do
    if trav = 0 then
      return h
    let addr ← h.addr trav
    if addr = ptr then
      let h ← unlink h prev trav
      let blockSize ← h.blockSize trav
      return h.munmap trav (toInt (blockSize + sizeofMetaBlock))
    let next ← h.next trav
    freeLoop ptr fuel h next trav

def free (fuel : Nat) (h : Heap) (ptr : Nat) : Except Stop Heap :=
  if ptr = 0 then .ok h else freeLoop ptr fuel h h.root 0

/-! ## What the functions do -/

/-- The mapping an `mmap` of `length` bytes returns under its contract: a positive number of
bytes, none of them mapped before, inside the address space. -/
structure Fresh (h : Heap) (os : Mmap) (length : Int) : Prop where
  pos : 0 < length
  base : os.base ≠ 0
  unmapped : h.mem.Unmapped os.base length.toNat
  fits : os.base + length.toNat ≤ 2 ^ 64

theorem toInt_of_lt {n : Int} (h0 : -2 ^ 31 ≤ n) (h1 : n < 2 ^ 31) : toInt n = n := by
  unfold toInt
  rw [Int.bmod_def]
  omega

/-- A count does not grow when it is taken for an `int`. -/
theorem toNat_toInt_le (n : Nat) : (toInt n).toNat ≤ n := by
  unfold toInt
  rw [Int.bmod_def]
  omega

/-- A positive length is the sum itself: it did not overflow. -/
theorem toInt_pos {len : Int} (h0 : 0 < len) (h1 : len < 2 ^ 31)
    (h : 0 < toInt (sizeofMetaBlock + len)) :
    toInt (sizeofMetaBlock + len) = 24 + len ∧ 24 + len < 2 ^ 31 := by
  unfold toInt sizeofMetaBlock at *
  rw [Int.bmod_def] at *
  omega

/-- The memory with a fresh mapping for a block of `len` bytes and its header written into it. -/
def withBlock (mem : Space) (os : Mmap) (len next : Nat) : Space :=
  let mem := mem.map os.base (24 + len) os.fill
  { mem with byte := writeLE (writeLE (writeLE mem.byte (os.base + 8) 4 len)
      os.base 8 (os.base + 576)) (os.base + 16) 8 next }

section WithBlock

variable {mem : Space} {os : Mmap} {len next : Nat}

theorem withBlock_mapped (x : Nat) : (withBlock mem os len next).mapped x = true ↔
    (os.base ≤ x ∧ x < os.base + (24 + len)) ∨ mem.mapped x = true :=
  (Space.map_mapped x : (mem.map os.base (24 + len) os.fill).mapped x = true ↔ _)

theorem withBlock_mapped_new : (withBlock mem os len next).Mapped os.base (24 + len) :=
  Space.mapped_map os.fill

theorem withBlock_mapped_old {a n : Nat} (h : mem.Mapped a n) :
    (withBlock mem os len next).Mapped a n :=
  Space.Mapped.map os.fill h

/-- The words of other mappings are unchanged. -/
theorem withBlock_old {a n : Nat} (hm : mem.Mapped a n) (hn : 0 < n)
    (hu : mem.Unmapped os.base (24 + len)) :
    readLE (withBlock mem os len next).byte a n = readLE mem.byte a n := by
  have hd := hm.disjoint hu (by omega) hn
  unfold withBlock
  simp only
  rw [readLE_writeLE_disjoint (by omega), readLE_writeLE_disjoint (by omega),
    readLE_writeLE_disjoint (by omega), Space.readLE_map (by omega)]

theorem withBlock_addr :
    readLE (withBlock mem os len next).byte os.base 8 = (os.base + 576) % 2 ^ 64 := by
  unfold withBlock
  simp only
  rw [readLE_writeLE_disjoint (by omega), readLE_writeLE]
  norm_num

theorem withBlock_blockSize :
    readLE (withBlock mem os len next).byte (os.base + 8) 4 = len % 2 ^ 32 := by
  unfold withBlock
  simp only
  rw [readLE_writeLE_disjoint (by omega), readLE_writeLE_disjoint (by omega), readLE_writeLE]
  norm_num

theorem withBlock_next :
    readLE (withBlock mem os len next).byte (os.base + 16) 8 = next % 2 ^ 64 := by
  unfold withBlock
  simp only
  rw [readLE_writeLE]
  norm_num

theorem store_next (next' : Nat) : (withBlock mem os len next).store (os.base + 16) 8 next' =
    .ok (withBlock mem os len next') := by
  rw [Space.store_ok (withBlock_mapped_new.sub (by omega) (by omega))]
  unfold withBlock
  simp only [writeLE_writeLE]

end WithBlock

/-! ## malloc -/

section Malloc

variable {h : Heap} {len : Int} {os : Mmap}

theorem getNewBlock_eq (h0 : 0 < len) (h1 : len < 2 ^ 31)
    (hf : Fresh h os (toInt (sizeofMetaBlock + len))) :
    getNewBlock h len os = .ok (os.base, { h with mem := withBlock h.mem os len.toNat 0 }) := by
  obtain ⟨e, hlt⟩ := toInt_pos h0 h1 hf.pos
  have hn : (24 + len).toNat = 24 + len.toNat := by omega
  have hm : (h.mem.map os.base (24 + len.toNat) os.fill).Mapped os.base (24 + len.toNat) :=
    Space.mapped_map _
  have m1 := hm.sub (b := os.base + 8) (m := 4) (by omega) (by omega)
  have m2 := hm.sub (b := os.base) (m := 8) (by omega) (by omega)
  have m3 := hm.sub (b := os.base + 16) (m := 8) (by omega) (by omega)
  unfold getNewBlock
  simp only [Heap.mmap, if_neg hf.base, e, hn, Heap.store]
  rw [Space.store_ok m1]
  simp only [ok_bind, pure_eq_ok]
  rw [Space.store_ok (by exact m2)]
  simp only [ok_bind]
  rw [Space.store_ok (by exact m3)]
  rfl

/-- On the empty list the new header becomes `ROOT`; the pointer returned is its field `addr`. -/
theorem malloc_empty (h0 : 0 < len) (h1 : len < 2 ^ 31)
    (hf : Fresh h os (toInt (sizeofMetaBlock + len))) (hr : h.root = 0) :
    malloc h len os = .ok ((os.base + 576) % 2 ^ 64,
      { h with mem := withBlock h.mem os len.toNat 0, root := os.base }) := by
  unfold malloc allocateMemoryWhenListIsEmpty
  rw [if_neg (by omega), if_pos hr, getNewBlock_eq h0 h1 hf]
  simp only [ok_bind, pure_eq_ok, Heap.addr, Heap.load]
  rw [Space.load_ok (withBlock_mapped_new.sub (by omega) (by omega)), withBlock_addr]
  rfl

/-- On a non-empty list the new header becomes `ROOT` and takes over the old head's `next`; the
pointer returned is the header itself. -/
theorem malloc_nonempty (h0 : 0 < len) (h1 : len < 2 ^ 31)
    (hf : Fresh h os (toInt (sizeofMetaBlock + len))) (hr : h.root ≠ 0) :
    malloc h len os = (withBlock h.mem os len.toNat 0).load (h.root + 16) 8 >>= fun next =>
      .ok (os.base, { h with mem := withBlock h.mem os len.toNat next, root := os.base }) := by
  unfold malloc getMemoryBlockFromOs
  rw [if_neg (by omega), if_neg hr, getNewBlock_eq h0 h1 hf]
  simp only [ok_bind, Heap.next, Heap.load, Heap.store]
  cases (withBlock h.mem os len.toNat 0).load (h.root + 16) 8 with
  | error e => rfl
  | ok next =>
    simp only [ok_bind, store_next, pure_eq_ok]

/-- Everything a call of `malloc` that returns can do. -/
theorem malloc_cases {p : Nat} {h' : Heap} (h0 : 0 < len) (h1 : len < 2 ^ 31)
    (hf : Fresh h os (toInt (sizeofMetaBlock + len))) (hm : malloc h len os = .ok (p, h')) :
    ∃ next, h' = { h with mem := withBlock h.mem os len.toNat next, root := os.base } ∧
      ((h.root = 0 ∧ p = (os.base + 576) % 2 ^ 64 ∧ next = 0) ∨
        (h.root ≠ 0 ∧ p = os.base ∧
          (withBlock h.mem os len.toNat 0).load (h.root + 16) 8 = .ok next)) := by
  by_cases hr : h.root = 0
  · rw [malloc_empty h0 h1 hf hr, Except.ok.injEq, Prod.mk.injEq] at hm
    obtain ⟨rfl, rfl⟩ := hm
    exact ⟨0, rfl, .inl ⟨hr, rfl, rfl⟩⟩
  · rw [malloc_nonempty h0 h1 hf hr] at hm
    obtain ⟨next, hl, hm⟩ := bind_eq_ok hm
    cases hm
    exact ⟨next, rfl, .inr ⟨hr, rfl, hl⟩⟩

theorem getNewBlock_failed (h : Heap) (len : Int) (hos : os.base = 0) :
    getNewBlock h len os = .ok (0, h) := by
  unfold getNewBlock Heap.mmap
  dsimp only
  rw [if_pos hos, if_pos hos]
  rfl

/-- Nobody looks at the NULL `getNewBlock` returns: the field `addr` is read through it, or the field
`next` is written. -/
theorem malloc_failed (h0 : 0 < len) (hos : os.base = 0) : malloc h len os =
    if h.root = 0 then h.addr 0 >>= fun addr => .ok (addr, { h with root := 0 })
    else h.next h.root >>= fun next => h.store 16 8 next >>= fun h => .ok (0, { h with root := 0 }) := by
  unfold malloc allocateMemoryWhenListIsEmpty getMemoryBlockFromOs
  rw [if_neg (by omega), getNewBlock_failed h len hos]
  rfl

end Malloc

/-! ## free -/

section Free

variable {h h' : Heap} {ptr fuel trav prev : Nat}

/-- A match at the head of the list unmaps the head and leaves `ROOT` as it is. -/
theorem freeLoop_head (ht : trav ≠ 0) (ha : h.addr trav = .ok ptr) {size : Int}
    (hs : h.blockSize trav = .ok size) :
    freeLoop ptr (fuel + 1) h trav 0 = .ok (h.munmap trav (toInt (size + sizeofMetaBlock))) := by
  rw [freeLoop, if_neg ht, ha, ok_bind, if_pos rfl, unlink, if_pos rfl, pure_eq_ok, ok_bind, hs,
    ok_bind, pure_eq_ok]

/-- No match on a list of one node: nothing happens. -/
theorem freeLoop_single (ht : trav ≠ 0) {a : Nat} (ha : h.addr trav = .ok a) (hne : a ≠ ptr)
    (hn : h.next trav = .ok 0) : freeLoop ptr (fuel + 2) h trav prev = .ok h := by
  rw [freeLoop, if_neg ht, ha, ok_bind, if_neg hne, hn, ok_bind, freeLoop, if_pos rfl, pure_eq_ok]

theorem unlink_unmaps {h₁ : Heap} (hu : unlink h prev trav = .ok h₁) : h₁.unmaps = h.unmaps := by
  unfold unlink at hu
  split at hu
  · cases hu; rfl
  · obtain ⟨next, -, hu⟩ := bind_eq_ok hu
    obtain ⟨mem, -, hu⟩ := bind_eq_ok hu
    cases hu; rfl

/-- Everything a call of `free` that returns can do: nothing, or one `munmap`, of a node whose
field `addr` is the pointer being freed. -/
theorem freeLoop_cases : ∀ {fuel trav prev : Nat}, freeLoop ptr fuel h trav prev = .ok h' →
    h' = h ∨ ∃ t n, h.addr t = .ok ptr ∧ h'.unmaps = (t, n) :: h.unmaps
  | 0, _, _, hf => by cases hf
  | fuel + 1, trav, prev, hf => by
    unfold freeLoop at hf
    split at hf
    · cases hf; exact .inl rfl
    obtain ⟨a, ha, hf⟩ := bind_eq_ok hf
    by_cases hap : a = ptr
    · rw [if_pos hap] at hf
      obtain ⟨h₁, hu, hf⟩ := bind_eq_ok hf
      obtain ⟨size, -, hf⟩ := bind_eq_ok hf
      cases hf
      exact .inr ⟨trav, _, hap ▸ ha, by rw [Heap.munmap, unlink_unmaps hu]⟩
    · rw [if_neg hap] at hf
      obtain ⟨next, -, hf⟩ := bind_eq_ok hf
      exact freeLoop_cases hf

end Free

end Sbunix.Libc
