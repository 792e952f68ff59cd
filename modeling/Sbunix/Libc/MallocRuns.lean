/-
Runs of `malloc` and `free` (libc/malloc.c), with `mmap` answering each request by a fresh mapping:
where the returned regions lie, which `free` unmaps what, and when the list from `ROOT` stays a
list of mapped headers.

The state pairs the heap with the blocks handed out: for each the pointer returned, the base of
its mapping and the size asked for.
-/
import Sbunix.Lib.Run
import Sbunix.Libc.Malloc
import Mathlib.Data.List.Nodup
import Mathlib.Data.List.Pairwise
import Mathlib.Order.Interval.Set.Defs

namespace Sbunix.Libc

open AddressSpace Fallible Transition

/-! ## Runs -/

/-- A block handed out by `malloc`: its mapping is the `24 + size` bytes from `base`. -/
structure Block where
  ptr : Nat
  base : Nat
  size : Nat
  deriving DecidableEq, Repr

structure State where
  heap : Heap
  live : List Block
  allocated : List Block

inductive Event
  | malloc (size : Int) (os : Mmap)
  | free (b : Block)
  | write (a : Nat) (v : UInt8)

/-- One call of `malloc` with a size that is a positive `int`, one call of `free`, or one byte
written by the program inside a region that `malloc` returned. A call that faults has no
successor. -/
inductive Step : State → Event → State → Prop
  | malloc {s : State} {size : Int} {os : Mmap} {p : Nat} {h : Heap} : 0 < size → size < 2 ^ 31 →
      Fresh s.heap os (toInt (sizeofMetaBlock + size)) → Libc.malloc s.heap size os = .ok (p, h) →
      Step s (.malloc size os)
        ⟨h, ⟨p, os.base, size.toNat⟩ :: s.live, ⟨p, os.base, size.toNat⟩ :: s.allocated⟩
  | free {s : State} {b : Block} {fuel : Nat} {h : Heap} : Libc.free fuel s.heap b.ptr = .ok h →
      Step s (.free b) ⟨h, s.live.erase b, s.allocated⟩
  | write {s : State} {a : Nat} {v : UInt8} {b : Block} {h : Heap} : b ∈ s.allocated → b.ptr ≤ a →
      a < b.ptr + b.size → s.heap.store a 1 v.toNat = .ok h →
      Step s (.write a v) ⟨h, s.live, s.allocated⟩

/-- Only blocks returned and not yet freed are freed. -/
def Valid (s : State) (e : Event) (_ : State) : Prop := ∀ b, e = .free b → b ∈ s.live

/-- Calls of `malloc` and `free` only. -/
def CallsOnly (_ : State) (e : Event) (_ : State) : Prop := ∀ a v, e ≠ .write a v

/-- Before the first call: `ROOT` is NULL, the rest of the process has `mem`. -/
def start (mem : Space) : State := ⟨⟨mem, 0, []⟩, [], []⟩

/-! The first two requests of a process whose memory is otherwise unmapped, one byte each. -/

def noMemory : Space := ⟨fun _ => 0, fun _ => false⟩

def page (base : Nat) : Mmap := ⟨base, fun _ => 0⟩

def blockOne : Block := ⟨0x10240, 0x10000, 1⟩

def stateOne : State :=
  ⟨⟨withBlock noMemory (page 0x10000) 1 0, 0x10000, []⟩, [blockOne], [blockOne]⟩

def blockTwo : Block := ⟨0x20000, 0x20000, 1⟩

def stateTwo : State :=
  ⟨⟨withBlock stateOne.heap.mem (page 0x20000) 1 0, 0x20000, []⟩, [blockTwo, blockOne],
    [blockTwo, blockOne]⟩

theorem step_one : Step (start noMemory) (.malloc 1 (page 0x10000)) stateOne :=
  .malloc (by decide) (by decide) ⟨by decide, by decide, by decide, by decide⟩ rfl

theorem step_two : Step stateOne (.malloc 1 (page 0x20000)) stateTwo := by
  have hf : Fresh stateOne.heap (page 0x20000) (toInt (sizeofMetaBlock + 1)) :=
    ⟨by decide, by decide, by decide, by decide⟩
  apply Step.malloc (by decide) (by decide) hf
  rw [malloc_nonempty (by decide) (by decide) hf (by decide)]
  rfl

/-- Two ranges without a common byte. -/
def Apart (a n b m : Nat) : Prop := a + n ≤ b ∨ b + m ≤ a

/-! ## Where the regions lie -/

/-- The headers the allocator still uses: those on the list from `ROOT`. -/
inductive InUse (h : Heap) : Nat → Prop
  | root : h.root ≠ 0 → InUse h h.root
  | next {a n : Nat} : InUse h a → h.next a = .ok n → n ≠ 0 → InUse h n

/-- The region of `b` lies inside its mapping, and apart from the headers in use and from the
regions of the other live blocks. -/
structure RegionOk (h : Heap) (b : Block) (others : List Block) : Prop where
  inside : b.base ≤ b.ptr ∧ b.ptr + b.size ≤ b.base + (24 + b.size)
  headers : ∀ a, InUse h a → Apart b.ptr b.size a sizeofMetaBlock
  blocks : ∀ c ∈ others, Apart b.ptr b.size c.ptr c.size

/-- The block a call of `malloc` returns has a good region at that moment. -/
def RegionsOk (s : State) (e : Event) (t : State) : Prop :=
  ∀ size os, e = .malloc size os → ∀ b, t.live = b :: s.live → RegionOk t.heap b s.live

/-- No call of `malloc` returns a good region: from an empty list the region begins 576 bytes
behind the header, beyond the end of the mapping; otherwise it is the header itself. -/
theorem malloc_region_bad {s t : State} {size : Int} {os : Mmap} (h : Step s (.malloc size os) t) :
    ¬ RegionsOk s (.malloc size os) t := by
  intro hok
  cases h with
  | malloc h0 h1 hf hm =>
    obtain ⟨next, rfl, hc⟩ := malloc_cases h0 h1 hf hm
    have hr := hok _ _ rfl _ rfl
    rcases hc with ⟨-, hp, -⟩ | ⟨-, hp, -⟩
    · have hin := hr.inside
      have hfits := hf.fits
      have := (toInt_pos h0 h1 hf.pos).1
      simp only [hp] at hin
      omega
    · have := hr.headers _ (.root hf.base)
      simp only [Apart, sizeofMetaBlock, hp] at this
      omega

/-- In any run of calls every region returned is good exactly when the run never calls `malloc`. -/
theorem regions_ok_iff (s t : State) (es : List Event) :
    Run (Restrict Step RegionsOk) s es t ↔
      Run Step s es t ∧ ∀ e ∈ es, ∀ size os, e ≠ .malloc size os := by
  refine Iff.trans ?_ (Run.restrict_label_iff fun e : Event => ∀ size os, e ≠ .malloc size os)
  refine Run.restrict_iff (fun _ => True) trivial (fun s e t _ he => ?_)
    fun _ _ _ _ _ _ => trivial
  constructor
  · rintro hok size os rfl
    exact malloc_region_bad he hok
  · rintro hne size os rfl
    exact absurd rfl (hne size os)

/-- The first byte ever allocated lies 576 bytes behind its header, outside its mapping. -/
theorem first_region_outside : ∃ t, Run Step (start noMemory) [.malloc 1 (page 0x10000)] t ∧
    ¬ RegionsOk (start noMemory) (.malloc 1 (page 0x10000)) t := by
  refine ⟨stateOne, Run.nil.snoc step_one, fun h => ?_⟩
  have := (h 1 _ rfl blockOne rfl).inside
  revert this
  decide

/-! ## Which free unmaps what -/

/-- The header and the mapping of a live block are as `malloc` left them. -/
structure Intact (h : Heap) (b : Block) : Prop where
  mapped : h.mem.Mapped b.base (24 + b.size)
  base : b.base ≠ 0
  below : b.base < 2 ^ 64
  ptr : b.ptr = b.base ∨ b.ptr = (b.base + 576) % 2 ^ 64
  size : 0 < b.size ∧ 24 + b.size < 2 ^ 31
  addr : readLE h.mem.byte b.base 8 = (b.base + 576) % 2 ^ 64
  blockSize : readLE h.mem.byte (b.base + 8) 4 = b.size

/-- The mappings of two blocks have no byte in common. -/
def Block.Apart (b c : Block) : Prop := Libc.Apart b.base (24 + b.size) c.base (24 + c.size)

instance : Std.Symm Block.Apart := ⟨fun _ _ h => Or.symm h⟩

/-- `ROOT` is the header of a live block, and the list ends there. -/
def HeadLive (s : State) : Prop :=
  ∃ c ∈ s.live, c.base = s.heap.root ∧ readLE s.heap.mem.byte (c.base + 16) 8 = 0

/-- The state between calls, as long as every `free` so far unmapped the right mapping. Only the
first block of all, the one returned while the list was empty, has a pointer other than its
header's address. -/
structure HeapInv (mem₀ : Space) (s : State) : Prop where
  intact : ∀ b ∈ s.live, Intact s.heap b
  apart : s.live.Pairwise Block.Apart
  mapped : ∀ a, s.heap.mem.mapped a = true ↔
    mem₀.mapped a = true ∨ ∃ b ∈ s.live, b.base ≤ a ∧ a < b.base + (24 + b.size)
  outside : ∀ b ∈ s.live, mem₀.Unmapped b.base (24 + b.size)
  empty : s.heap.root = 0 → s.live = []
  first : ∃ f, ∀ b ∈ s.live, b.ptr ≠ b.base → b = f
  head : ∀ b ∈ s.live, b.ptr ≠ b.base → HeadLive s

/-- A step that frees `b` unmaps exactly the mapping of `b`, and leaves the others mapped. -/
def FreesExact (s : State) (e : Event) (t : State) : Prop :=
  ∀ b, e = .free b → t.heap.unmaps = (b.base, (24 + b.size : Int)) :: s.heap.unmaps ∧
    ∀ c ∈ t.live, t.heap.mem.Mapped c.base (24 + c.size)

/-- The mapped bytes are those of `mem` and those of the live blocks. -/
def ExactlyLive (mem : Space) (t : State) : Prop :=
  ∀ a, t.heap.mem.mapped a = true ↔
    mem.mapped a = true ∨ ∃ b ∈ t.live, b.base ≤ a ∧ a < b.base + (24 + b.size)

/-- A step that frees a block frees the one at `ROOT`, and that block was returned while the list
was empty: its pointer is neither NULL nor its header's address. -/
def FreesHead (s : State) (e : Event) (_ : State) : Prop :=
  ∀ b, e = .free b → s.heap.root = b.base ∧ b.ptr ≠ b.base ∧ b.ptr ≠ 0

theorem start_inv (mem : Space) : HeapInv mem (start mem) where
  intact := by simp [start]
  apart := List.Pairwise.nil
  mapped := by simp [start]
  outside := by simp [start]
  empty := fun _ => rfl
  first := ⟨⟨0, 0, 0⟩, by simp [start]⟩
  head := by simp [start]

section Intact

variable {h : Heap} {b : Block}

theorem Intact.addr_eq (hb : Intact h b) : h.addr b.base = .ok ((b.base + 576) % 2 ^ 64) := by
  rw [Heap.addr, Heap.load, Space.load_ok (hb.mapped.sub (by omega) (by omega)), hb.addr]

theorem Intact.blockSize_eq (hb : Intact h b) : h.blockSize b.base = .ok (b.size : Int) := by
  have := hb.size
  rw [Heap.blockSize, Heap.load, Space.load_ok (hb.mapped.sub (by omega) (by omega)), ok_bind,
    hb.blockSize, toInt_of_lt (by omega) (by omega), pure_eq_ok]

theorem Intact.next_eq (hb : Intact h b) :
    h.next b.base = .ok (readLE h.mem.byte (b.base + 16) 8) :=
  Space.load_ok (hb.mapped.sub (by omega) (by omega))

/-- A block's header does not move when another block is allocated. -/
theorem Intact.withBlock (hb : Intact h b) {os : Mmap} {len next root : Nat}
    (hu : h.mem.Unmapped os.base (24 + len)) :
    Intact { h with mem := withBlock h.mem os len next, root } b where
  mapped := withBlock_mapped_old hb.mapped
  base := hb.base
  below := hb.below
  ptr := hb.ptr
  size := hb.size
  addr := by
    rw [← hb.addr]
    exact withBlock_old (hb.mapped.sub (by omega) (by omega)) (by omega) hu
  blockSize := by
    rw [← hb.blockSize]
    exact withBlock_old (hb.mapped.sub (by omega) (by omega)) (by omega) hu

end Intact

/-- A call of `malloc` keeps the invariant. -/
theorem malloc_inv {mem₀ : Space} {s t : State} {size : Int} {os : Mmap} (hi : HeapInv mem₀ s)
    (h : Step s (.malloc size os) t) : HeapInv mem₀ t := by
  cases h with
  | malloc h0 h1 hf hm =>
    obtain ⟨next, rfl, hc⟩ := malloc_cases h0 h1 hf hm
    obtain ⟨e, hlt⟩ := toInt_pos h0 h1 hf.pos
    have hu : s.heap.mem.Unmapped os.base (24 + size.toNat) := by
      have := hf.unmapped
      rwa [e, show (24 + size).toNat = 24 + size.toNat by omega] at this
    have hnew (c : Block) (hc : c ∈ s.live) :
        Apart os.base (24 + size.toNat) c.base (24 + c.size) :=
      (hi.intact c hc).mapped.disjoint hu (by omega) (by omega)
    -- the old head, when it is live and ends the list, hands NULL on to the new one
    have hnext : HeadLive s → next = 0 := by
      rintro ⟨c, hc', hcr, hc0⟩
      rcases hc with ⟨-, -, h⟩ | ⟨-, -, hl⟩
      · exact h
      · obtain ⟨-, hl⟩ := Space.load_eq_ok hl
        rw [← hl, ← hcr, withBlock_old ((hi.intact c hc').mapped.sub (by omega) (by omega))
          (by omega) hu, hc0]
    constructor
    case intact =>
      intro b hb
      rcases List.mem_cons.1 hb with rfl | hb
      · have hfits := hf.fits
        refine ⟨withBlock_mapped_new, hf.base, by simp only; omega, ?_,
          ⟨by simp only; omega, by simp only; omega⟩, withBlock_addr, ?_⟩
        · rcases hc with ⟨-, hp, -⟩ | ⟨-, hp, -⟩
          · exact .inr hp
          · exact .inl hp
        · simp only
          rw [withBlock_blockSize, Nat.mod_eq_of_lt (by omega)]
      · exact (hi.intact b hb).withBlock hu
    case apart =>
      exact List.pairwise_cons.2 ⟨hnew, hi.apart⟩
    case mapped =>
      intro a
      simp only [withBlock_mapped, hi.mapped, List.mem_cons, exists_eq_or_imp]
      exact or_left_comm
    case outside =>
      intro b hb
      rcases List.mem_cons.1 hb with rfl | hb
      · intro i hi'
        have := hu i hi'
        by_contra hne
        rw [(hi.mapped _).2 (.inl (by simpa using hne))] at this
        cases this
      · exact hi.outside b hb
    case empty => exact fun h => absurd h hf.base
    case first =>
      rcases hc with ⟨hr, -⟩ | ⟨-, hp, -⟩
      · have hl := hi.empty hr
        simp only [hl]
        exact ⟨_, fun b hb _ => List.mem_singleton.1 hb⟩
      · obtain ⟨f, hf'⟩ := hi.first
        refine ⟨f, fun b hb hne => ?_⟩
        rcases List.mem_cons.1 hb with rfl | hb
        · exact absurd hp hne
        · exact hf' b hb hne
    case head =>
      intro b hb hne
      refine ⟨_, List.mem_cons_self .., rfl, ?_⟩
      -- a block of the empty-list path is live, so the old head ended the list
      have h0 : next = 0 := by
        rcases hc with ⟨-, -, h⟩ | ⟨-, hp, -⟩
        · exact h
        · rcases List.mem_cons.1 hb with rfl | hb
          · exact absurd hp hne
          · exact hnext (hi.head b hb hne)
      simp only
      rw [withBlock_next, h0, Nat.zero_mod]

theorem HeapInv.nodup {mem₀ : Space} {s : State} (hi : HeapInv mem₀ s) : s.live.Nodup :=
  hi.apart.imp fun {b c} h e => by
    subst e
    unfold Block.Apart Apart at h
    omega

/-- Freeing the block at `ROOT` through the pointer of the empty-list path. -/
theorem free_head {s : State} {b : Block} {fuel : Nat} {h : Heap} (hb : Intact s.heap b)
    (hr : s.heap.root = b.base) (hp : b.ptr ≠ b.base) (hp0 : b.ptr ≠ 0)
    (hf : free fuel s.heap b.ptr = .ok h) : h = s.heap.munmap b.base (24 + b.size : Int) := by
  have hptr : b.ptr = (b.base + 576) % 2 ^ 64 := hb.ptr.resolve_left hp
  have hsize := hb.size
  rw [free, if_neg hp0, hr] at hf
  cases fuel with
  | zero => cases hf
  | succ fuel =>
    rw [freeLoop_head hb.base (hptr ▸ hb.addr_eq) hb.blockSize_eq] at hf
    rw [toInt_of_lt (by simp [sizeofMetaBlock]; omega) (by simp [sizeofMetaBlock]; omega)] at hf
    cases hf
    rw [sizeofMetaBlock, add_comm]
    rfl

/-- A `free` that unmaps the right mapping frees the head. -/
theorem free_exact {mem₀ : Space} {s : State} {b : Block} {fuel : Nat} {h : Heap}
    (hi : HeapInv mem₀ s) (hb : b ∈ s.live) (hf : free fuel s.heap b.ptr = .ok h)
    (hu : h.unmaps = (b.base, (24 + b.size : Int)) :: s.heap.unmaps) :
    s.heap.root = b.base ∧ b.ptr ≠ b.base ∧ b.ptr ≠ 0 := by
  have hb' := hi.intact b hb
  have hne (h' : Heap) (e : h' = s.heap) : h'.unmaps ≠ (b.base, (24 + b.size : Int)) :: s.heap.unmaps := by
    subst e
    exact fun e => List.cons_ne_self _ _ e.symm
  unfold free at hf
  split at hf
  · cases hf; exact absurd hu (hne _ rfl)
  · rename_i hp0
    -- the node unmapped is the block's own header, so the field `addr` there is the pointer freed
    have haddr : b.ptr = (b.base + 576) % 2 ^ 64 := by
      rcases freeLoop_cases hf with e | ⟨t, n, ha, hu'⟩
      · exact absurd hu (hne _ e)
      · rw [hu', List.cons.injEq, Prod.mk.injEq] at hu
        rw [hu.1.1, hb'.addr_eq, Except.ok.injEq] at ha
        exact ha.symm
    have hp : b.ptr ≠ b.base := by omega
    refine ⟨?_, hp, hp0⟩
    -- the list is the single node at `ROOT`
    obtain ⟨c, hc, hcr, hc0⟩ := hi.head b hb hp
    have hc' := hi.intact c hc
    by_contra hroot
    have hcb : (c.base + 576) % 2 ^ 64 ≠ b.ptr := by
      intro e
      have hlt := hc'.below
      have hlt' := hb'.below
      omega
    -- so the loop finds another address there, and after it the end of the list
    cases fuel with
    | zero => cases hf
    | succ fuel =>
      cases fuel with
      | zero =>
        rw [← hcr, freeLoop, if_neg hc'.base, hc'.addr_eq, ok_bind, if_neg hcb, hc'.next_eq] at hf
        cases hf
      | succ fuel =>
        rw [← hcr, freeLoop_single hc'.base hc'.addr_eq hcb (by rw [hc'.next_eq, hc0])] at hf
        cases hf
        exact hne _ rfl hu

/-- Unmapping one live block keeps the header and mapping of every other. -/
theorem Intact.munmap {h : Heap} {b c : Block} (hc : Intact h c)
    (hd : b.Apart c) : Intact (h.munmap b.base (24 + b.size : Int)) c where
  mapped := by
    have := hc.mapped.unmap (a := b.base) (n := 24 + b.size) hd
    rwa [Heap.munmap, show (24 + b.size : Int).toNat = 24 + b.size by omega]
  base := hc.base
  below := hc.below
  ptr := hc.ptr
  size := hc.size
  addr := hc.addr
  blockSize := hc.blockSize

/-- Freeing the head keeps the invariant. -/
theorem free_inv {mem₀ : Space} {s t : State} {b : Block} (hi : HeapInv mem₀ s) (hb : b ∈ s.live)
    (h : Step s (.free b) t) (hh : FreesHead s (.free b) t) :
    HeapInv mem₀ t ∧ FreesExact s (.free b) t := by
  obtain ⟨hr, hp, hp0⟩ := hh b rfl
  cases h with
  | free hf =>
    obtain rfl := free_head (hi.intact b hb) hr hp hp0 hf
    have hmem (c : Block) : c ∈ s.live.erase b ↔ c ≠ b ∧ c ∈ s.live := hi.nodup.mem_erase_iff
    have hapart (c : Block) (hc : c ∈ s.live.erase b) : b.Apart c := by
      obtain ⟨hne, hc⟩ := (hmem c).1 hc
      exact hi.apart.forall hb hc hne.symm
    have hint (c : Block) (hc : c ∈ s.live.erase b) :
        Intact (s.heap.munmap b.base (24 + b.size : Int)) c :=
      (hi.intact c ((hmem c).1 hc).2).munmap (hapart c hc)
    -- the block just freed was the only one with a pointer behind its header
    have hfirst (c : Block) (hc : c ∈ s.live.erase b) : c.ptr = c.base := by
      obtain ⟨hne, hc⟩ := (hmem c).1 hc
      obtain ⟨f, hf⟩ := hi.first
      by_contra h
      exact hne ((hf c hc h).trans (hf b hb hp).symm)
    refine ⟨⟨hint, hi.apart.sublist List.erase_sublist, fun a => ?_,
      fun c hc => hi.outside c ((hmem c).1 hc).2, fun h => ?_,
      ⟨b, fun c hc h => absurd (hfirst c hc) h⟩, fun c hc h => absurd (hfirst c hc) h⟩, ?_⟩
    · rw [Heap.munmap, show (24 + b.size : Int).toNat = 24 + b.size by omega, Space.unmap_mapped,
        hi.mapped]
      constructor
      · rintro ⟨h | ⟨c, hc, h⟩, hout⟩
        · exact .inl h
        · refine .inr ⟨c, (hmem c).2 ⟨?_, hc⟩, h⟩
          rintro rfl
          exact hout h
      · rintro (h | ⟨c, hc, h⟩)
        · refine ⟨.inl h, fun hin => ?_⟩
          have := hi.outside b hb (a - b.base) (by omega)
          rw [show b.base + (a - b.base) = a by omega, h] at this
          cases this
        · have := hapart c hc
          unfold Block.Apart Apart at this
          exact ⟨.inr ⟨c, ((hmem c).1 hc).2, h⟩, by omega⟩
    · exact absurd (hr.symm.trans h) (hi.intact b hb).base
    · rintro _ ⟨⟩
      exact ⟨rfl, fun c hc => (hint c hc).mapped⟩

/-- The calls of a run on blocks that are live. -/
abbrev Call : State → Event → State → Prop := Restrict (Restrict Step Valid) CallsOnly

theorem call_inv {mem₀ : Space} {s t : State} {e : Event} (hi : HeapInv mem₀ s) (h : Call s e t)
    (hh : FreesHead s e t) : HeapInv mem₀ t ∧ FreesExact s e t := by
  obtain ⟨⟨h, hv⟩, hw⟩ := h
  cases e with
  | malloc size os => exact ⟨malloc_inv hi h, fun b hb => by cases hb⟩
  | free b => exact free_inv hi (hv b rfl) h hh
  | write a v => exact absurd rfl (hw a v)

theorem exact_iff_head {mem₀ : Space} {s t : State} {e : Event} (hi : HeapInv mem₀ s)
    (h : Call s e t) : FreesExact s e t ↔ FreesHead s e t := by
  constructor
  · rintro hx b rfl
    obtain ⟨⟨h, hv⟩, -⟩ := h
    cases h with
    | free hf => exact free_exact hi (hv b rfl) hf (hx b rfl).1
  · exact fun hh => (call_inv hi h hh).2

/-- Over a run of calls on live blocks, every `free` unmaps exactly its block's mapping, and the
mapped blocks are the live ones, exactly when every `free` is of the block at `ROOT` returned
while the list was empty. -/
theorem frees_exact_iff (mem : Space) (es : List Event) (t : State) :
    Run (Restrict Call FreesExact) (start mem) es t ∧ ExactlyLive mem t ↔
      Run (Restrict Call FreesHead) (start mem) es t := by
  have hiff : Run (Restrict Call FreesExact) (start mem) es t ↔
      Run (Restrict Call FreesHead) (start mem) es t :=
    Run.restrict_iff (HeapInv mem) (start_inv mem) (fun _ _ _ hi he => exact_iff_head hi he)
      fun _ _ _ hi he hx => (call_inv hi he ((exact_iff_head hi he).1 hx)).1
  refine ⟨fun h => hiff.1 h.1, fun h => ⟨hiff.2 h, ?_⟩⟩
  exact (h.invariant (HeapInv mem) (start_inv mem)
    fun _ _ _ hi he => (call_inv hi he.1 he.2).1).mapped

/-- Freeing the second block allocated does nothing: `malloc` returned its header's address, and
`free` looks for the address 576 bytes behind it. -/
theorem second_block_leaks : ∃ t, Run Call (start noMemory)
    [.malloc 1 (page 0x10000), .malloc 1 (page 0x20000), .free blockTwo] t ∧
    ¬ ExactlyLive noMemory t := by
  have h1 : Call (start noMemory) (.malloc 1 (page 0x10000)) stateOne :=
    ⟨⟨step_one, by rintro b ⟨⟩⟩, by rintro a v ⟨⟩⟩
  have h2 : Call stateOne (.malloc 1 (page 0x20000)) stateTwo :=
    ⟨⟨step_two, by rintro b ⟨⟩⟩, by rintro a v ⟨⟩⟩
  have hf : free 2 stateTwo.heap blockTwo.ptr = .ok stateTwo.heap := rfl
  have h3 : Call stateTwo (.free blockTwo) ⟨stateTwo.heap, [blockOne], [blockTwo, blockOne]⟩ :=
    ⟨⟨.free hf, by rintro b ⟨⟩; decide⟩, by rintro a v ⟨⟩⟩
  refine ⟨_, ((Run.nil.snoc h1).snoc h2).snoc h3, fun h => ?_⟩
  rcases (h 0x20000).1 rfl with h | ⟨b, hb, h⟩
  · cases h
  · rw [List.mem_singleton.1 hb] at h
    revert h
    decide

/-! ## When the list stays a list -/

/-- The `next` fields lead from `a` through the nodes of the list to NULL, without a fault. -/
inductive Chain (h : Heap) : Nat → List Nat → Prop
  | nil : Chain h 0 []
  | cons {a n : Nat} {l : List Nat} : a ≠ 0 → h.next a = .ok n → Chain h n l → Chain h a (a :: l)

/-- `a` is the header of a block whose whole mapping is still mapped. -/
def MappedHeader (s : State) (a : Nat) : Prop :=
  ∃ b ∈ s.allocated, b.base = a ∧ s.heap.mem.Mapped b.base (24 + b.size)

/-- `ROOT` is NULL or starts a finite list of distinct mapped headers. -/
def ListOk (s : State) : Prop :=
  ∃ l, Chain s.heap s.heap.root l ∧ l.Nodup ∧ ∀ a ∈ l, MappedHeader s a

/-- No traversal faults or runs on for ever: neither the one in `free`, nor the read of
`ROOT->next` in `malloc`. -/
def TraversalsOk (s : State) : Prop :=
  (∀ ptr, ∃ fuel h, free fuel s.heap ptr = .ok h) ∧
    (s.heap.root ≠ 0 → ∃ n, s.heap.next s.heap.root = .ok n)

/-- A step neither frees the pointer stored in the field `addr` of the head, nor writes into the
head's field `next`. -/
def SparesHead (s : State) (e : Event) (_ : State) : Prop :=
  match e with
  | .malloc _ _ => True
  | .free b => s.heap.root ≠ 0 → s.heap.addr s.heap.root ≠ .ok b.ptr
  | .write a _ => s.heap.root ≠ 0 → a < s.heap.root + 16 ∨ s.heap.root + 24 ≤ a

/-- `ROOT` is NULL, or the mapped header of a block with NULL in its field `next`. -/
def SingleHead (s : State) : Prop :=
  s.heap.root = 0 ∨ MappedHeader s s.heap.root ∧ readLE s.heap.mem.byte (s.heap.root + 16) 8 = 0

theorem MappedHeader.next {s : State} {a : Nat} (h : MappedHeader s a) :
    s.heap.next a = .ok (readLE s.heap.mem.byte (a + 16) 8) := by
  obtain ⟨b, -, rfl, hm⟩ := h
  exact Space.load_ok (hm.sub (by omega) (by omega))

theorem MappedHeader.addr {s : State} {a : Nat} (h : MappedHeader s a) :
    s.heap.addr a = .ok (readLE s.heap.mem.byte a 8) := by
  obtain ⟨b, -, rfl, hm⟩ := h
  exact Space.load_ok (hm.sub (by omega) (by omega))

theorem malloc_single {s t : State} {size : Int} {os : Mmap} (hi : SingleHead s)
    (h : Step s (.malloc size os) t) : SingleHead t := by
  cases h with
  | malloc h0 h1 hf hm =>
    obtain ⟨next, rfl, hc⟩ := malloc_cases h0 h1 hf hm
    obtain ⟨e, -⟩ := toInt_pos h0 h1 hf.pos
    have hu : s.heap.mem.Unmapped os.base (24 + size.toNat) := by
      have := hf.unmapped
      rwa [e, show (24 + size).toNat = 24 + size.toNat by omega] at this
    -- the field `next` handed on is NULL, as the old head's was
    have hnext : next = 0 := by
      rcases hc with ⟨-, -, h⟩ | ⟨hr, -, hl⟩
      · exact h
      · obtain ⟨⟨b, -, hb, hbm⟩, hn⟩ := hi.resolve_left hr
        obtain ⟨-, hl⟩ := Space.load_eq_ok hl
        rw [← hb] at hl hn
        rw [← hl, withBlock_old (hbm.sub (by omega) (by omega)) (by omega) hu, hn]
    refine .inr ⟨⟨_, List.mem_cons_self .., rfl, withBlock_mapped_new⟩, ?_⟩
    simp only
    rw [withBlock_next, hnext, Nat.zero_mod]

theorem free_single {s t : State} {b : Block} (hi : SingleHead s) (h : Step s (.free b) t)
    (hs : SparesHead s (.free b) t) : SingleHead t := by
  cases h with
  | @free _ fuel h hf =>
    suffices h = s.heap by subst this; exact hi
    unfold free at hf
    split at hf
    · cases hf; rfl
    by_cases hr : s.heap.root = 0
    · cases fuel with
      | zero => cases hf
      | succ fuel => rw [freeLoop, if_pos hr] at hf; cases hf; rfl
    · obtain ⟨hm, hn⟩ := hi.resolve_left hr
      have hne : readLE s.heap.mem.byte s.heap.root 8 ≠ b.ptr := fun e =>
        hs hr (by rw [hm.addr, e])
      cases fuel with
      | zero => cases hf
      | succ fuel =>
        cases fuel with
        | zero =>
          rw [freeLoop, if_neg hr, hm.addr, ok_bind, if_neg hne, hm.next] at hf
          cases hf
        | succ fuel =>
          rw [freeLoop_single hr hm.addr hne (by rw [hm.next, hn])] at hf
          cases hf; rfl

theorem write_single {s t : State} {a : Nat} {v : UInt8} (hi : SingleHead s)
    (h : Step s (.write a v) t) (hs : SparesHead s (.write a v) t) : SingleHead t := by
  cases h with
  | write hb _ _ hf =>
    obtain ⟨mem, hm, hf⟩ := bind_eq_ok hf
    obtain ⟨-, rfl⟩ := Space.store_eq_ok hm
    cases hf
    rcases hi with hr | ⟨⟨c, hc, hcr, hcm⟩, hn⟩
    · exact .inl hr
    · by_cases hr : s.heap.root = 0
      · exact .inl hr
      · refine .inr ⟨⟨c, hc, hcr, hcm⟩, ?_⟩
        have := hs hr
        rw [← hn]
        exact readLE_writeLE_disjoint (by simp only; omega)

theorem SingleHead.listOk {s : State} (hi : SingleHead s) : ListOk s := by
  by_cases hr : s.heap.root = 0
  · exact ⟨[], hr ▸ .nil, List.nodup_nil, by simp⟩
  · obtain ⟨hm, hn⟩ := hi.resolve_left hr
    exact ⟨[s.heap.root], .cons hr (by rw [hm.next, hn]) .nil, List.nodup_singleton s.heap.root, by simpa⟩

/-- Along a list of mapped headers the loop of `free` ends without a fault. -/
theorem free_returns {s : State} {ptr : Nat} : ∀ {l : List Nat} {trav prev : Nat},
    Chain s.heap trav l → (∀ a ∈ l, MappedHeader s a) → (prev = 0 ∨ MappedHeader s prev) →
    ∃ h, freeLoop ptr (l.length + 1) s.heap trav prev = .ok h
  | [], trav, prev, hc, _, _ => by
    cases hc
    exact ⟨s.heap, rfl⟩
  | a :: l, trav, prev, hc, hm, hp => by
    cases hc with
    | @cons _ n _ ha hn hc =>
      have hma := hm a (by simp)
      rw [List.length_cons, freeLoop, if_neg ha, hma.addr, ok_bind]
      split
      · -- unlinking writes into a mapped header, and changes no mapping
        have hu : ∃ h, unlink s.heap prev a = .ok h ∧ h.mem.mapped = s.heap.mem.mapped := by
          unfold unlink
          split
          · exact ⟨_, rfl, rfl⟩
          · rename_i hp0
            obtain ⟨b, -, rfl, hbm⟩ := hp.resolve_left hp0
            rw [hn, ok_bind, Heap.store, Space.store_ok (hbm.sub (by omega) (by omega))]
            exact ⟨_, rfl, rfl⟩
        obtain ⟨h, hu, hmm⟩ := hu
        obtain ⟨b, -, rfl, hbm⟩ := hma
        have hsz : h.mem.Mapped (b.base + 8) 4 := fun i hi => by
          rw [hmm]; exact hbm.sub (by omega) (by omega) i hi
        rw [hu, ok_bind, Heap.blockSize, Heap.load, Space.load_ok hsz]
        exact ⟨_, rfl⟩
      · rw [hn, ok_bind]
        exact free_returns hc (fun c hc => hm c (List.mem_cons_of_mem _ hc)) (.inr hma)

theorem ListOk.traversals {s : State} (h : ListOk s) : TraversalsOk s := by
  obtain ⟨l, hc, -, hm⟩ := h
  constructor
  · intro ptr
    by_cases hp : ptr = 0
    · exact ⟨0, s.heap, by rw [free, if_pos hp]⟩
    · obtain ⟨h, hf⟩ := free_returns hc hm (.inl rfl)
      exact ⟨l.length + 1, h, by rw [free, if_neg hp, hf]⟩
  · intro hr
    cases hl : l with
    | nil => rw [hl] at hc; generalize s.heap.root = r at hc hr; cases hc; exact absurd rfl hr
    | cons a l =>
      rw [hl] at hc
      generalize hr' : s.heap.root = r at hc
      cases hc with
      | cons _ hn _ => exact ⟨_, hn⟩

/-- In every state of a run of `malloc`, `free` of live blocks and writes into returned regions
whose steps spare the head, `ROOT` is NULL or starts a finite list of distinct mapped headers,
and no traversal of it faults. -/
theorem list_ok_of_spares (mem : Space) (es : List Event) (t : State)
    (h : Run (Restrict (Restrict Step Valid) SparesHead) (start mem) es t) :
    ListOk t ∧ TraversalsOk t := by
  have hi : SingleHead t := h.invariant SingleHead (.inl rfl) fun s e t hi he => by
    cases e with
    | malloc size os => exact malloc_single hi he.1.1
    | free b => exact free_single hi he.1.1 he.2
    | write a v => exact write_single hi he.1.1 he.2
  exact ⟨hi.listOk, hi.listOk.traversals⟩

/-- The program has stored a byte into the second block, and so into the field `addr` of its header. -/
def stateThree : State :=
  { stateTwo with heap := { stateTwo.heap with
      mem := { stateTwo.heap.mem with byte := writeLE stateTwo.heap.mem.byte 0x20000 1 65 } } }

/-- Then the first block is freed, of which the list knows nothing. -/
def stateFour : State := { stateThree with live := [blockTwo] }

theorem step_three : Step stateTwo (.write 0x20000 65) stateThree :=
  .write List.mem_cons_self (by decide) (by decide) rfl

theorem step_four : Step stateThree (.free blockOne) stateFour :=
  @Step.free stateThree blockOne 2 stateThree.heap (freeLoop_single (by decide)
    (show stateThree.heap.addr 0x20000 = .ok 0x20241 from rfl) (by decide) rfl)

/-- A run of two allocations, a write and a `free` that spares the head. -/
theorem list_ok_after_two : ListOk stateFour ∧ TraversalsOk stateFour := by
  have htwo : Run (Restrict (Restrict Step Valid) SparesHead) (start noMemory)
      [.malloc 1 (page 0x10000), .malloc 1 (page 0x20000)] stateTwo :=
    (Run.nil.snoc ⟨⟨step_one, by rintro b ⟨⟩⟩, trivial⟩).snoc ⟨⟨step_two, by rintro b ⟨⟩⟩, trivial⟩
  have hwrite : SparesHead stateTwo (.write 0x20000 65) stateThree := fun _ => .inl (by decide)
  have hfree : SparesHead stateThree (.free blockOne) stateFour := fun _ haddr => by
    cases (show stateThree.heap.addr 0x20000 = .ok 0x20241 from rfl).symm.trans haddr
  have hlive : Valid stateThree (.free blockOne) stateFour := by
    rintro b ⟨⟩
    exact List.mem_cons_of_mem _ List.mem_cons_self
  exact list_ok_of_spares noMemory _ stateFour
    ((htwo.snoc ⟨⟨step_three, by rintro b ⟨⟩⟩, hwrite⟩).snoc ⟨⟨step_four, hlive⟩, hfree⟩)

/-- Freeing the only block leaves `ROOT` pointing at its unmapped header. -/
theorem root_stale_after_free : ∃ t, Run (Restrict Step Valid) (start noMemory)
    [.malloc 1 (page 0x10000), .free blockOne] t ∧ ¬ ListOk t := by
  have hb : Intact stateOne.heap blockOne :=
    (malloc_inv (start_inv noMemory) step_one).intact blockOne (List.mem_singleton_self _)
  have hf : free 1 stateOne.heap blockOne.ptr = .ok (stateOne.heap.munmap blockOne.base
      (toInt (blockOne.size + sizeofMetaBlock))) := by
    rw [free, if_neg (by decide)]
    exact freeLoop_head hb.base hb.addr_eq hb.blockSize_eq
  refine ⟨_, (Run.nil.snoc ⟨step_one, by rintro b ⟨⟩⟩).snoc ⟨.free hf, by rintro b ⟨⟩; decide⟩,
    ?_⟩
  rintro ⟨l, hc, -, hm⟩
  cases hc with
  | cons _ hn _ =>
    have hseg : (stateOne.heap.munmap blockOne.base (toInt (blockOne.size + sizeofMetaBlock))).next
        blockOne.base = .error .segv := rfl
    exact nomatch hseg.symm.trans hn

/-! ## When mmap fails -/

/-- Nothing is mapped where a header at NULL would be. -/
def Heap.withoutNull (h : Heap) : Heap := { h with mem := h.mem.unmap 0 sizeofMetaBlock }

/-- A call of `malloc` does without a header at NULL, and it returns NULL with `ROOT` and the blocks of
the list, header and region, as they were. -/
structure FailsClean (h : Heap) (size : Int) (os : Mmap) : Prop where
  sparesNull : ∃ r, malloc h.withoutNull size os = .ok r
  returns : ∃ h', malloc h size os = .ok (0, h') ∧ h'.root = h.root ∧
    ∀ a len, InUse h a → h.blockSize a = .ok len →
      ∀ k ∈ Set.Ico a (a + sizeofMetaBlock + len.toNat), h'.mem.byte k = h.mem.byte k

section Failed

variable {h : Heap} {size : Int} {os : Mmap}

theorem Heap.withoutNull_unmapped (h : Heap) {k : Nat} (hk : k < sizeofMetaBlock) :
    ¬ h.withoutNull.mem.mapped k = true := by
  intro hm
  exact ((Space.unmap_mapped k).1 hm).2 ⟨Nat.zero_le k, by rwa [Nat.zero_add]⟩

/-- Both callers of `getNewBlock` go through the NULL it returns. -/
theorem malloc_failed_faults (h0 : 0 < size) (hos : os.base = 0) (r : Nat × Heap) :
    malloc h.withoutNull size os ≠ .ok r := by
  rw [malloc_failed h0 hos]
  intro hr
  by_cases hroot : h.withoutNull.root = 0
  · rw [if_pos hroot] at hr
    obtain ⟨addr, ha, -⟩ := bind_eq_ok hr
    exact h.withoutNull_unmapped (by decide) ((Space.load_eq_ok ha).1 0 (by decide))
  · rw [if_neg hroot] at hr
    obtain ⟨next, -, hr⟩ := bind_eq_ok hr
    obtain ⟨h', hs, -⟩ := bind_eq_ok hr
    obtain ⟨mem, hmem, -⟩ := bind_eq_ok hs
    exact h.withoutNull_unmapped (by decide) ((Space.store_eq_ok hmem).1 0 (by decide))

/-- If there is memory at NULL, the list is lost. -/
theorem malloc_failed_root (h0 : 0 < size) (hos : os.base = 0) {p : Nat} {h' : Heap}
    (hm : malloc h size os = .ok (p, h')) : h'.root = 0 := by
  rw [malloc_failed h0 hos] at hm
  by_cases hroot : h.root = 0
  · rw [if_pos hroot] at hm
    obtain ⟨addr, -, hm⟩ := bind_eq_ok hm
    cases hm
    rfl
  · rw [if_neg hroot] at hm
    obtain ⟨next, -, hm⟩ := bind_eq_ok hm
    obtain ⟨h₁, -, hm⟩ := bind_eq_ok hm
    cases hm
    rfl

end Failed

/-- In no state, whatever calls led to it, does a `malloc` whose `mmap` fails return as it should: it
goes through NULL, and a list that is not empty is lost. -/
theorem failed_mmap_never_clean {h : Heap} {size : Int} {os : Mmap} (h0 : 0 < size) (hos : os.base = 0) :
    ¬ FailsClean h size os ∧
      (h.root ≠ 0 → ∀ p h', malloc h size os = .ok (p, h') → h'.root ≠ h.root) := by
  constructor
  · rintro ⟨⟨r, hr⟩, -⟩
    exact malloc_failed_faults h0 hos r hr
  · intro hroot p h' hm heq
    exact hroot (heq.symm.trans (malloc_failed_root h0 hos hm))

/-- After two allocations. -/
theorem failed_mmap_after_two : ¬ FailsClean stateTwo.heap 1 (page 0) :=
  (failed_mmap_never_clean (by decide) rfl).1

/-- The first request of a process. -/
theorem first_mmap_failed : ¬ FailsClean (start noMemory).heap 1 (page 0) :=
  fun h => h.sparesNull.elim fun r hr => malloc_failed_faults (by decide) rfl r hr

end Sbunix.Libc
