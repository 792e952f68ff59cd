/-
The allocator over block memory does what malloc.c does in the address space: through every run of calls of
`malloc` and `free` and of bytes that the program stores into its blocks, the fields of the header at `ROOT` are
the same on both sides, and so are the pointers that `malloc` returns.
-/
import Sbunix.Libc.Blocks
import Sbunix.Libc.MallocRuns

namespace Sbunix.Libc

open AddressSpace BlockMemory Fallible Transition

/-! ## The relation -/

/-- Where a block lies in the address space. -/
def blockAddress (U : Unspecified) (b : Nat) : Nat := U.address (.ofBlock b 0)

/-- Bytes 12 to 15 of a header are padding. -/
def FieldByte (i : Nat) : Prop := i < 12 ∨ 16 ≤ i ∧ i < sizeofMetaBlock

/-- The header at `ROOT` is that of the block at the root, with the bytes it has there by now. No other block
meets it. -/
structure HeaderAt (U : Unspecified) (m : Mem) (h : Heap) (r : Header) : Prop where
  root : h.root ≠ 0
  mapped : h.mem.Mapped h.root sizeofMetaBlock
  allocated : r.block < m.next
  place : blockAddress U r.block = if r.apart = true then h.root + sizeofMetaBlock * sizeofMetaBlock else h.root
  bytes : ∀ i, FieldByte i → h.mem.byte (h.root + i) = m.rootByte i
  elsewhere : ∀ b < m.next, b ≠ r.block ∨ r.apart = true →
    Apart (blockAddress U b) (m.bytes b).length h.root sizeofMetaBlock

structure Represents (U : Unspecified) (m : Mem) (h : Heap) : Prop where
  empty : m.root = none → h.root = 0
  header : ∀ r, m.root = some r → HeaderAt U m h r

section Fields

variable {U : Unspecified} {m m' : Mem} {h h' : Heap} {r : Header} {os : Mmap} {b n : Nat} {o : Int} {p : Ptr}
  {v : UInt8}

theorem readLE_shift (f : Nat → UInt8) (a : Nat) : ∀ n k : Nat, readLE f (a + k) n = readLE (fun i => f (a + i)) k n
  | 0, _ => rfl
  | n + 1, k => by rw [readLE, readLE, Nat.add_assoc, readLE_shift f a n (k + 1)]

theorem HeaderAt.readLE_eq (hh : HeaderAt U m h r) {k n : Nat} (hk : ∀ i, k ≤ i → i < k + n → FieldByte i) :
    readLE h.mem.byte (h.root + k) n = readLE m.rootByte k n := by
  rw [readLE_shift]
  exact readLE_congr fun i h1 h2 => hh.bytes i (hk i h1 h2)

theorem HeaderAt.addr (hh : HeaderAt U m h r) : h.addr h.root = .ok (rootAddr m) := by
  have hread := hh.readLE_eq (k := 0) (n := 8) fun i _ hi => .inl (by omega)
  have hmapped := hh.mapped.sub (b := h.root) (m := 8) (Nat.le_refl _) (by unfold sizeofMetaBlock; omega)
  unfold Heap.addr Heap.load
  rw [Space.load_ok hmapped]
  exact congrArg Except.ok hread

theorem HeaderAt.blockSize (hh : HeaderAt U m h r) : h.blockSize h.root = .ok (rootSize m) := by
  have hread := hh.readLE_eq (k := 8) (n := 4) fun i _ hi => .inl (by omega)
  have hmapped := hh.mapped.sub (b := h.root + 8) (m := 4) (by omega) (by unfold sizeofMetaBlock; omega)
  unfold Heap.blockSize Heap.load
  rw [Space.load_ok hmapped, ok_bind, hread]
  rfl

theorem HeaderAt.next (hh : HeaderAt U m h r) : h.next h.root = .ok (rootNext m) := by
  have hread := hh.readLE_eq (k := 16) (n := 8) fun i h1 hi => .inr ⟨h1, by unfold sizeofMetaBlock; omega⟩
  have hmapped := hh.mapped.sub (b := h.root + 16) (m := 8) (by omega) (by unfold sizeofMetaBlock; omega)
  unfold Heap.next Heap.load
  rw [Space.load_ok hmapped, hread]
  rfl

/-! ## malloc -/

/-- The block that the call returns is where `mmap` has put it, no other block is in its header, and what the
program finds at the start of the block is the header. -/
structure Answers (U : Unspecified) (m : Mem) (os : Mmap) (n : Nat) : Prop where
  address : blockAddress U m.next = if m.root.isNone then os.base + sizeofMetaBlock * sizeofMetaBlock else os.base
  fits : os.base + sizeofMetaBlock * sizeofMetaBlock < 2 ^ 64
  fresh : m.root.isSome → ∀ i < 12, U.fresh m.next i = newHeader U m n i
  elsewhere : ∀ b < m.next, Apart (blockAddress U b) (m.bytes b).length os.base sizeofMetaBlock

theorem Answers.addrOf_eq (ha : Answers U m os n) : addrOf U m = os.base + sizeofMetaBlock * sizeofMetaBlock := by
  have haddress := ha.address
  unfold blockAddress at haddress
  unfold addrOf
  split
  · next hroot => rw [haddress, if_pos hroot]
  · next hroot => rw [haddress, if_neg hroot]

theorem writeLE_shift (f : Nat → UInt8) (a k n v i : Nat) :
    writeLE f (a + k) n v (a + i) = writeLE (fun j => f (a + j)) k n v i := by
  unfold writeLE
  rw [Nat.add_sub_add_left]
  exact if_congr (by omega) rfl rfl

theorem writeLE_congr {f g : Nat → UInt8} {a k v i : Nat} (hfg : ¬ (a ≤ i ∧ i < a + k) → f i = g i) :
    writeLE f a k v i = writeLE g a k v i := by
  unfold writeLE
  split
  · rfl
  · next hi => exact hfg hi

/-- The header as it is in the address space: every byte of a field is written. -/
theorem withBlock_byte (ha : Answers U m os n) {i : Nat} (hi : FieldByte i) :
    (withBlock h.mem os n (rootNext m)).byte (os.base + i) = newHeader U m n i := by
  unfold newHeader
  rw [ha.addrOf_eq]
  refine (writeLE_shift _ os.base 16 8 _ i).trans (writeLE_congr fun hnext => ?_)
  refine (writeLE_shift _ os.base 0 8 _ i).trans (writeLE_congr fun haddr => ?_)
  refine (writeLE_shift _ os.base 8 4 _ i).trans (writeLE_congr fun hsize => ?_)
  unfold FieldByte sizeofMetaBlock at hi
  omega

/-- The header as it is in block memory. -/
theorem rootByte_new (ha : Answers U m os n) {i : Nat} (hi : FieldByte i) :
    (mallocBlock U m n).2.rootByte i = newHeader U m n i := by
  rcases hi with h12 | ⟨h16, h24⟩
  · have hheader : ((List.range sizeofMetaBlock).map (newHeader U m n)).getD i 0 = newHeader U m n i := by
      rw [List.getD_eq_getElem?_getD, List.getElem?_map,
        List.getElem?_range (show i < sizeofMetaBlock by unfold sizeofMetaBlock; omega)]
      rfl
    rw [Mem.rootByte_some rfl, bytes_malloc_self, length_newBytes, hheader]
    split
    · rfl
    · next hin =>
      rw [not_or, Bool.not_eq_true, Option.isNone_eq_false_iff] at hin
      rw [List.getD_eq_getElem?_getD, getElem?_newBytes (by omega) (.inl (by omega)), Option.getD_some]
      exact ha.fresh hin.1 i h12
  · rw [rootByte_malloc h16 h24, newHeader_next h16 h24]

/-- The header that malloc.c writes. -/
theorem headerAt_new (hf : Fresh h os (toInt (sizeofMetaBlock + n)))
    (ha : Answers U m os n) (hr : (mallocBlock U m n).2.root = some r) :
    HeaderAt U (mallocBlock U m n).2 { h with mem := withBlock h.mem os n (rootNext m), root := os.base } r := by
  obtain ⟨r', hr', hblock, hapart⟩ := root_malloc (U := U) (m := m) (n := n)
  cases hr'.symm.trans hr
  constructor
  case root => exact hf.base
  case mapped => exact withBlock_mapped_new.sub (Nat.le_refl _) (Nat.add_le_add_left (Nat.le_add_right _ _) _)
  case allocated =>
    rw [hblock, next_malloc]
    exact Nat.lt_succ_self _
  case place =>
    rw [hblock, hapart]
    exact ha.address
  case bytes =>
    intro i hi
    rw [rootByte_new ha hi]
    exact withBlock_byte ha hi
  case elsewhere =>
    intro b hb hne
    rw [next_malloc] at hb
    by_cases hbm : b = m.next
    · subst hbm
      rw [hblock] at hne
      have hnone : m.root.isNone := hapart.symm.trans (hne.resolve_left fun h => h rfl)
      rw [ha.address, if_pos hnone]
      exact .inr (Nat.add_le_add_left (by decide) _)
    · rw [bytes_malloc_ne hbm]
      exact ha.elsewhere b (by omega)

/-- Both sides return the same pointer. -/
theorem Represents.malloc (hrep : Represents U m h) (h0 : 0 < n) (h1 : n < 2 ^ 31)
    (hf : Fresh h os (toInt (sizeofMetaBlock + n))) (ha : Answers U m os n) :
    ∃ h', Libc.malloc h n os = .ok (U.address (mallocBlock U m n).1, h') ∧ Represents U (mallocBlock U m n).2 h' := by
  have hpos : (0 : Int) < n := by omega
  have hlt : (n : Int) < 2 ^ 31 := by omega
  have hlen := (toInt_pos hpos hlt hf.pos).1
  have haddress : U.address (.ofBlock m.next 0) = _ := ha.address
  cases hr : m.root with
  | none =>
    rw [hr, Option.isNone_none, if_pos rfl] at haddress
    have hnext : rootNext m = 0 := by
      rw [rootNext_eq_zero_iff]
      intro i _ _
      rw [Mem.rootByte, hr]
    refine ⟨{ h with mem := withBlock h.mem os n (rootNext m), root := os.base }, ?_,
      ⟨fun hnone => ?_, fun r' hr' => ?_⟩⟩
    · have hempty := malloc_empty hpos hlt hf (hrep.empty hr)
      rw [Int.toNat_natCast, Nat.mod_eq_of_lt (show os.base + 576 < 2 ^ 64 from ha.fits)] at hempty
      rw [hempty, malloc_fst, haddress, hnext]
      rfl
    · cases hnone
    · exact headerAt_new hf ha hr'
  | some r =>
    have hh := hrep.header r hr
    rw [hr, Option.isNone_some, if_neg Bool.false_ne_true] at haddress
    have hmapped := hh.mapped.sub (b := h.root + 16) (m := 8) (by omega) (by unfold sizeofMetaBlock; omega)
    have hunmapped : h.mem.Unmapped os.base (24 + n) := by
      have hu := hf.unmapped
      rwa [hlen, show (24 + (n : Int)).toNat = 24 + n by omega] at hu
    have hload : (withBlock h.mem os n 0).load (h.root + 16) 8 = .ok (rootNext m) := by
      rw [Space.load_ok (withBlock_mapped_old hmapped), withBlock_old hmapped (by omega) hunmapped]
      exact congrArg Except.ok (hh.readLE_eq fun i h1 hi => .inr ⟨h1, by unfold sizeofMetaBlock; omega⟩)
    refine ⟨{ h with mem := withBlock h.mem os n (rootNext m), root := os.base }, ?_,
      ⟨fun hnone => ?_, fun r' hr' => ?_⟩⟩
    · rw [malloc_nonempty hpos hlt hf hh.root, Int.toNat_natCast, hload, ok_bind, malloc_fst, haddress]
    · cases hnone
    · exact headerAt_new hf ha hr'

/-! ## free -/

theorem Represents.of_release (hrep : Represents U m h) (p : Ptr) : Represents U (release m p) h where
  empty hr := hrep.empty ((root_release p).symm.trans hr)
  header r hr := by
    have hh := hrep.header r ((root_release p).symm.trans hr)
    refine ⟨hh.root, hh.mapped, by rw [next_release]; exact hh.allocated, hh.place, fun i hi => ?_, fun b hb hne => ?_⟩
    · rw [hh.bytes i hi, rootByte_release]
    · rw [bytes_release]
      exact hh.elsewhere b (by rwa [next_release] at hb) hne

/-- A `munmap` that fails is recorded, and nothing else. -/
theorem Represents.failed_munmap (hrep : Represents U m h) {length : Int} (hlength : length ≤ 0) :
    Represents U m (h.munmap h.root length) where
  empty hr := hrep.empty hr
  header r hr := by
    have hh := hrep.header r hr
    have hzero : length.toNat = 0 := Int.toNat_eq_zero.2 hlength
    refine ⟨hh.root, ?_, hh.allocated, hh.place, hh.bytes, hh.elsewhere⟩
    unfold Heap.munmap
    rw [hzero]
    exact hh.mapped.unmap (.inl (by omega))

/-- Both sides unmap the same bytes from `ROOT` on, or none. Where the walk goes beyond the header at `ROOT` the
block memory leaves open what it finds. -/
theorem Represents.free (hrep : Represents U m h) (hp : U.address (.ofBlock b o) ≠ 0)
    (hends : rootAddr m = U.address (.ofBlock b o) ∨ rootNext m = 0) :
    ∃ freed h', freeBlock U m (.ofBlock b o) = .ok freed ∧
      (∀ fuel, Libc.free (fuel + 2) h (U.address (.ofBlock b o)) = .ok h') ∧
      (∀ m', freed = .kept m' → Represents U m' h') ∧
      ∀ m' length, freed = .unmapped m' length → 0 < length ∧ h' = h.munmap h.root length := by
  cases hr : m.root with
  | none =>
    refine ⟨.kept (release m (.ofBlock b o)), h, ?_, fun fuel => ?_, fun m' hm' => ?_, fun m' length hm' => ?_⟩
    · unfold freeBlock
      dsimp only
      rw [hr]
    · rw [Libc.free, if_neg hp, hrep.empty hr, freeLoop, if_pos rfl]
      rfl
    · cases hm'
      exact hrep.of_release _
    · cases hm'
  | some r =>
    have hh := hrep.header r hr
    by_cases haddr : rootAddr m = U.address (.ofBlock b o)
    · have hfree : ∀ fuel, Libc.free (fuel + 2) h (U.address (.ofBlock b o)) =
          .ok (h.munmap h.root (toInt (rootSize m + sizeofMetaBlock))) := fun fuel => by
        rw [Libc.free, if_neg hp]
        exact freeLoop_head hh.root (haddr ▸ hh.addr) hh.blockSize
      by_cases hsize : 0 < toInt (rootSize m + sizeofMetaBlock)
      · have hunmaps : Unmaps U m (.ofBlock b o) := ⟨haddr, hsize⟩
        refine ⟨_, _, (freeBlock_root hr).trans (if_pos hunmaps), hfree, fun m' hm' => ?_, fun m' length hm' => ?_⟩
        · cases hm'
        · cases hm'
          refine ⟨by omega, ?_⟩
          rw [Int.toNat_of_nonneg (Int.le_of_lt hsize)]
      · have hunmaps : ¬ Unmaps U m (.ofBlock b o) := fun h => hsize h.2
        have hstops : Ends U m (.ofBlock b o) := .inl haddr
        refine ⟨_, _, ((freeBlock_root hr).trans (if_neg hunmaps)).trans (if_pos hstops), hfree, fun m' hm' => ?_,
          fun m' length hm' => ?_⟩
        · cases hm'
          exact (hrep.of_release _).failed_munmap (by omega)
        · cases hm'
    · have hnext := hends.resolve_left haddr
      have hunmaps : ¬ Unmaps U m (.ofBlock b o) := fun h => haddr h.1
      have hstops : Ends U m (.ofBlock b o) := .inr (.inl hnext)
      refine ⟨_, h, ((freeBlock_root hr).trans (if_neg hunmaps)).trans (if_pos hstops), fun fuel => ?_, fun m' hm' => ?_,
        fun m' length hm' => ?_⟩
      · rw [Libc.free, if_neg hp]
        exact freeLoop_single hh.root hh.addr haddr (hnext ▸ hh.next)
      · cases hm'
        exact hrep.of_release _
      · cases hm'

/-! ## Stores -/

/-- The program stores a byte at an address. -/
def Heap.put (h : Heap) (a : Nat) (v : UInt8) : Heap :=
  { h with mem := { h.mem with byte := writeLE h.mem.byte a 1 v.toNat } }

theorem put_self (a : Nat) : (h.put a v).mem.byte a = v := by
  unfold Heap.put
  dsimp only
  rw [writeLE, if_pos ⟨Nat.le_refl _, Nat.lt_succ_self _⟩, Nat.sub_self, pow_zero, Nat.div_one, UInt8.ofNat_toNat]

theorem put_ne {a c : Nat} (hne : c ≠ a) : (h.put a v).mem.byte c = h.mem.byte c := by
  unfold Heap.put
  dsimp only
  rcases Nat.lt_or_gt_of_ne hne with hlt | hlt
  · rw [writeLE_of_lt hlt]
  · rw [writeLE_of_le hlt]

/-- A store into the block at `ROOT` is one into its header; any other one is not. -/
theorem Represents.store (hrep : Represents U m h) (hstore : store m (.ofBlock b o) v = .ok m') :
    Represents U m' (h.put (blockAddress U b + o.toNat) v) := by
  obtain ⟨b', o', heq, ⟨ho, hlen⟩, rfl⟩ := store_cases hstore
  cases heq
  have hb := Mem.Inside.lt_next ⟨ho, hlen⟩
  refine ⟨fun hr => hrep.empty hr, fun r hr => ?_⟩
  have hh := hrep.header r hr
  refine ⟨hh.root, hh.mapped, by rw [Mem.next_setBytes]; exact hh.allocated, hh.place, fun i hi => ?_, fun c hc hne => ?_⟩
  · have hold := hh.bytes i hi
    have h24 : i < sizeofMetaBlock := by
      unfold FieldByte sizeofMetaBlock at hi
      unfold sizeofMetaBlock
      omega
    show (h.put (blockAddress U b + o.toNat) v).mem.byte (h.root + i) = _
    by_cases hin : b = r.block ∧ r.apart = false
    · obtain ⟨rfl, hapart⟩ := hin
      have hplace := hh.place
      rw [hapart, if_neg Bool.false_ne_true] at hplace
      rw [hplace, Mem.rootByte_some hr, hapart, Mem.bytes_setBytes_self hb, List.length_set]
      rw [Mem.rootByte_some (show m.root = some r from hr), hapart] at hold
      by_cases hio : i = o.toNat
      · subst hio
        rw [put_self, if_neg (by simp; omega), List.getD_eq_getElem?_getD, List.getElem?_set_self (by omega),
          Option.getD_some]
      · rw [put_ne (by omega), hold]
        split
        · rfl
        · rw [List.getD_eq_getElem?_getD, List.getD_eq_getElem?_getD, List.getElem?_set_ne (Ne.symm hio)]
    · have hout : b ≠ r.block ∨ r.apart = true := by
        by_cases hbr : b = r.block
        · exact .inr (Bool.not_eq_false _ ▸ fun h => hin ⟨hbr, h⟩)
        · exact .inl hbr
      have hdisjoint := hh.elsewhere b hb hout
      unfold Apart at hdisjoint
      rw [put_ne (by omega), hold]
      rcases hout with hbr | hapart
      · exact (Mem.rootByte_setBytes_ne (fun r' hr' => by
          cases hr'.symm.trans hr
          exact Ne.symm hbr) i).symm
      · rw [Mem.rootByte_some hr, Mem.rootByte_some (show m.root = some r from hr), hapart, if_pos (.inl rfl),
          if_pos (.inl rfl)]
  · rw [Mem.next_setBytes] at hc
    have hdisjoint := hh.elsewhere c hc hne
    by_cases hcb : c = b
    · subst hcb
      rwa [Mem.bytes_setBytes_self hb, List.length_set]
    · rwa [Mem.bytes_setBytes_ne hcb]

end Fields

/-! ## Runs -/

/-- What a program does with its blocks. -/
inductive BlockEvent where
  | malloc (n : Nat) (os : Mmap)
  | free (b : Nat) (o : Int)
  | store (b : Nat) (o : Int) (v : UInt8)

variable (U : Unspecified)

/-- One of these in block memory: no `free` unmaps the header at `ROOT`, and none has to go beyond it. -/
inductive BlockStep : Mem → BlockEvent → Mem → Prop where
  | malloc {m : Mem} {n : Nat} {os : Mmap} : 0 < n → n < 2 ^ 31 → Answers U m os n →
      BlockStep m (.malloc n os) (mallocBlock U m n).2
  | free {m m' : Mem} {b : Nat} {o : Int} : U.address (.ofBlock b o) ≠ 0 →
      (rootAddr m = U.address (.ofBlock b o) ∨ rootNext m = 0) → freeBlock U m (.ofBlock b o) = .ok (.kept m') →
      BlockStep m (.free b o) m'
  | store {m m' : Mem} {b : Nat} {o : Int} {v : UInt8} : store m (.ofBlock b o) v = .ok m' →
      BlockStep m (.store b o v) m'

/-- The same with the functions of malloc.c. -/
inductive HeapStep : Heap → BlockEvent → Heap → Prop where
  | malloc {h h' : Heap} {n : Nat} {os : Mmap} {p : Nat} : malloc h n os = .ok (p, h') →
      HeapStep h (.malloc n os) h'
  | free {h h' : Heap} {b : Nat} {o : Int} {fuel : Nat} : free fuel h (U.address (.ofBlock b o)) = .ok h' →
      HeapStep h (.free b o) h'
  | store {h : Heap} {b : Nat} {o : Int} {v : UInt8} : HeapStep h (.store b o v) (h.put (blockAddress U b + o.toNat) v)

variable {U} {m m' : Mem} {h : Heap} {e : BlockEvent} {es : List BlockEvent}

theorem Represents.step (hrep : Represents U m h) (hstep : BlockStep U m e m')
    (hfresh : ∀ (n : Nat) os, e = .malloc n os → Fresh h os (toInt (sizeofMetaBlock + n))) :
    ∃ h', HeapStep U h e h' ∧ Represents U m' h' := by
  cases hstep with
  | malloc h0 h1 ha =>
    obtain ⟨h', hmalloc, hrep'⟩ := hrep.malloc h0 h1 (hfresh _ _ rfl) ha
    exact ⟨h', .malloc hmalloc, hrep'⟩
  | free hp hends hfree =>
    obtain ⟨freed, h', hfreed, hheap, hkept, -⟩ := hrep.free hp hends
    cases hfree.symm.trans hfreed
    exact ⟨h', .free (hheap 0), hkept _ rfl⟩
  | store hstore => exact ⟨_, .store, hrep.store hstore⟩

/-- The functions of malloc.c follow every run in block memory, as long as `mmap` answers with memory that is not
mapped yet. -/
theorem Represents.run (hrep : Represents U m h) (hrun : Run (BlockStep U) m es m')
    (hfresh : ∀ es₁ h₁ (n : Nat) os, es₁ ++ [.malloc n os] <+: es → Run (HeapStep U) h es₁ h₁ →
      Fresh h₁ os (toInt (sizeofMetaBlock + n))) :
    ∃ h', Run (HeapStep U) h es h' ∧ Represents U m' h' := by
  induction hrun with
  | nil => exact ⟨h, .nil, hrep⟩
  | @snoc es m₁ m₂ e hrun hstep ih =>
    obtain ⟨h₁, hrun₁, hrep₁⟩ := ih fun es₁ h₁ n os hpre => hfresh es₁ h₁ n os (hpre.trans (List.prefix_append es [e]))
    obtain ⟨h₂, hstep₂, hrep₂⟩ := hrep₁.step hstep fun n os he =>
      hfresh es h₁ n os (he ▸ List.prefix_refl _) hrun₁
    exact ⟨h₂, hrun₁.snoc hstep₂, hrep₂⟩

/-- Before the first call of `malloc` there is nothing to agree on. -/
theorem represents_start (hroot : m.root = none) (mem : Space) (unmaps : List (Nat × Int)) :
    Represents U m ⟨mem, 0, unmaps⟩ :=
  ⟨fun _ => rfl, fun r hr => by
    rw [hroot] at hr
    cases hr⟩

end Sbunix.Libc
