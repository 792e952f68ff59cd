/-
C memory as a list of blocks: pointers into blocks, reads and writes of single bytes, allocation
and release, and the C strings that blocks hold.

A read outside its block is noted and finds an unspecified byte; a write outside its block, or an
access through NULL or an indeterminate pointer, is a fault. What is unspecified (the contents of a
fresh block, the bytes around blocks, addresses as numbers) is a parameter.

The memory also holds where an allocator's list of blocks begins: the header of the first of them, which the
program overwrites as far as it lies in the block itself.
-/
import Sbunix.Lib.Fallible
import Mathlib.Data.List.GetD
import Mathlib.Tactic.Common

namespace BlockMemory

/-! ## Pointers and memory -/

/-- NULL, an indeterminate pointer, or an offset into a block. -/
inductive Ptr where
  | null
  | wild
  | ofBlock (block : Nat) (offset : Int)
deriving DecidableEq, Repr

/-- Pointer arithmetic in bytes; away from NULL there is nothing to point to. -/
def Ptr.add : Ptr → Int → Ptr
  | .ofBlock b o, i => .ofBlock b (o + i)
  | p, i => if i = 0 then p else .wild

inductive Fault where
  | null
  | wild
  | outside
  | unmapped
  | outOfFuel
deriving DecidableEq, Repr

/-- A block and the bytes of its header as the allocator left them. The header lies at the start of the
block, or `apart` from it. -/
structure Header where
  block : Nat
  apart : Bool
  bytes : List UInt8
deriving DecidableEq, Repr

/-- The blocks in the order of their allocation, those released, the reads so far that fell outside
their block, the last one first, and the header at which the allocator's list begins. -/
structure Mem where
  blocks : List (List UInt8)
  released : List Nat
  stray : List (Nat × Int)
  root : Option Header := none
deriving DecidableEq, Repr

/-- What C leaves open: byte `i` of block `b` when it is allocated, the byte found at an offset
outside block `b`, how many bytes other than NUL follow block `b`, pointers as numbers, and whether a walk along
an allocator's list that goes on at a number the program has stored comes to an end and leaves the blocks as
they are. -/
structure Unspecified where
  fresh : Nat → Nat → UInt8
  outside : Nat → Int → UInt8
  overrun : Nat → Nat
  address : Ptr → Nat
  listEnds : Mem → Nat → Ptr → Bool

namespace Mem

variable (U : Unspecified) (m : Mem)

def bytes (b : Nat) : List UInt8 := m.blocks.getD b []

/-- The block the next allocation returns. -/
def next : Nat := m.blocks.length

def setBytes (b : Nat) (l : List UInt8) : Mem := { m with blocks := m.blocks.set b l }

def strayOf (b : Nat) : List Int := (m.stray.filter (·.1 = b)).map Prod.snd

def Inside (b : Nat) (o : Int) : Prop := 0 ≤ o ∧ o < (m.bytes b).length

instance (b : Nat) (o : Int) : Decidable (m.Inside b o) := inferInstanceAs (Decidable (_ ∧ _))

def read (b : Nat) (o : Int) : UInt8 :=
  if m.Inside b o then (m.bytes b).getD o.toNat 0 else U.outside b o

/-- The memory once a read at offset `o` of block `b` is noted. -/
def noted (b : Nat) (o : Int) : Mem :=
  if m.Inside b o then m else { m with stray := (b, o) :: m.stray }

/-- The bytes from an offset to the end of its block. -/
def rest (b : Nat) (o : Int) : List UInt8 := if 0 ≤ o then (m.bytes b).drop o.toNat else []

/-- Byte `i` of the header at the root, as it is by now. -/
def rootByte (i : Nat) : UInt8 :=
  match m.root with
  | none => 0
  | some r =>
    if r.apart = true ∨ (m.bytes r.block).length ≤ i then r.bytes.getD i 0 else (m.bytes r.block).getD i 0

end Mem

def load (U : Unspecified) (m : Mem) : Ptr → Except Fault (UInt8 × Mem)
  | .null => .error .null
  | .wild => .error .wild
  | .ofBlock b o => .ok (m.read U b o, m.noted b o)

def store (m : Mem) : Ptr → UInt8 → Except Fault Mem
  | .null, _ => .error .null
  | .wild, _ => .error .wild
  | .ofBlock b o, v =>
    if m.Inside b o then .ok (m.setBytes b ((m.bytes b).set o.toNat v)) else .error .outside

def Unspecified.freshBlock (U : Unspecified) (b n : Nat) : List UInt8 :=
  (List.range n).map (U.fresh b)

/-- A new block of `n` bytes with unspecified contents. -/
def alloc (U : Unspecified) (m : Mem) (n : Nat) : Ptr × Mem :=
  (.ofBlock m.next 0, { m with blocks := m.blocks ++ [U.freshBlock m.next n] })

/-- Releasing a block leaves its bytes where they are; releasing NULL does nothing. -/
def release (m : Mem) : Ptr → Mem
  | .ofBlock b _ => { m with released := b :: m.released }
  | _ => m

/-! ## Accesses -/

namespace Mem

variable {U : Unspecified} {m : Mem} {b c : Nat} {o : Int} {l : List UInt8}

theorem lt_next_of_bytes_ne (h : m.bytes b ≠ []) : b < m.next := by
  by_contra hb
  unfold next at hb
  exact h (by rw [bytes, List.getD_eq_default _ _ (by omega)])

theorem Inside.lt_next (h : m.Inside b o) : b < m.next := by
  apply lt_next_of_bytes_ne
  intro he
  have := h.2
  rw [he, List.length_nil] at this
  have := h.1
  omega

@[simp] theorem next_setBytes : (m.setBytes b l).next = m.next := by simp [setBytes, next]

theorem bytes_setBytes_self (h : b < m.next) : (m.setBytes b l).bytes b = l := by
  unfold next at h
  simp [setBytes, bytes, List.getD_eq_getElem?_getD, h]

theorem bytes_setBytes_ne (h : c ≠ b) : (m.setBytes b l).bytes c = m.bytes c := by
  simp [setBytes, bytes, List.getD_eq_getElem?_getD, List.getElem?_set_ne (Ne.symm h)]

theorem setBytes_setBytes (l' : List UInt8) : (m.setBytes b l').setBytes b l = m.setBytes b l := by
  simp [setBytes]

@[simp] theorem bytes_noted : (m.noted b o).bytes c = m.bytes c := by
  unfold noted; split <;> rfl

@[simp] theorem next_noted : (m.noted b o).next = m.next := by
  unfold noted; split <;> rfl

@[simp] theorem root_setBytes : (m.setBytes b l).root = m.root := rfl

@[simp] theorem root_noted : (m.noted b o).root = m.root := by
  unfold noted; split <;> rfl

theorem released_noted : (m.noted b o).released = m.released := by
  unfold noted; split <;> rfl

theorem rootByte_some {r : Header} (h : m.root = some r) (i : Nat) : m.rootByte i =
    if r.apart = true ∨ (m.bytes r.block).length ≤ i then r.bytes.getD i 0 else (m.bytes r.block).getD i 0 := by
  rw [rootByte, h]

/-- The header is where it was, and what the program can reach of it is as it was. -/
theorem rootByte_congr {m' : Mem} (hroot : m'.root = m.root)
    (hbytes : ∀ r, m.root = some r → m'.bytes r.block = m.bytes r.block) (i : Nat) :
    m'.rootByte i = m.rootByte i := by
  unfold rootByte
  rw [hroot]
  cases h : m.root with
  | none => rfl
  | some r =>
    dsimp only
    rw [hbytes r h]

@[simp] theorem rootByte_noted (i : Nat) : (m.noted b o).rootByte i = m.rootByte i :=
  rootByte_congr root_noted (fun _ _ => bytes_noted) i

theorem rootByte_setBytes_ne (h : ∀ r, m.root = some r → r.block ≠ b) (i : Nat) :
    (m.setBytes b l).rootByte i = m.rootByte i :=
  rootByte_congr root_setBytes (fun r hr => bytes_setBytes_ne (h r hr)) i

/-- A byte of the header that the block keeps. -/
theorem rootByte_setBytes {i : Nat} (hb : b < m.next) (hlen : l.length = (m.bytes b).length)
    (h : l.getD i 0 = (m.bytes b).getD i 0) : (m.setBytes b l).rootByte i = m.rootByte i := by
  cases hr : m.root with
  | none => rw [rootByte, rootByte, root_setBytes, hr]
  | some r =>
    rw [rootByte_some hr, rootByte_some (root_setBytes.trans hr)]
    by_cases hrb : r.block = b
    · rw [hrb, bytes_setBytes_self hb, hlen, h]
    · rw [bytes_setBytes_ne hrb]

theorem noted_inside (h : m.Inside b o) : m.noted b o = m := by rw [noted, if_pos h]

theorem strayOf_noted_ne (h : c ≠ b) : (m.noted b o).strayOf c = m.strayOf c := by
  unfold noted
  split
  · rfl
  · simp [strayOf, Ne.symm h]

theorem strayOf_noted_outside (h : ¬ m.Inside b o) :
    (m.noted b o).strayOf b = o :: m.strayOf b := by
  rw [noted, if_neg h]
  simp [strayOf]

end Mem

section Access

variable {U : Unspecified} {m : Mem} {b c n : Nat} {o : Int} {v : UInt8}

theorem store_inside (h : m.Inside b o) :
    store m (.ofBlock b o) v = .ok (m.setBytes b ((m.bytes b).set o.toNat v)) := if_pos h

theorem store_outside (h : ¬ m.Inside b o) : store m (.ofBlock b o) v = .error .outside := if_neg h

theorem load_cases {m' : Mem} {p : Ptr} (h : load U m p = .ok (v, m')) :
    ∃ b o, p = .ofBlock b o ∧ m' = m.noted b o := by
  cases p with
  | null => cases h
  | wild => cases h
  | ofBlock b o =>
    cases h
    exact ⟨b, o, rfl, rfl⟩

theorem load_getElem {o : Nat} (h : (m.bytes b)[o]? = some v) : load U m (.ofBlock b o) = .ok (v, m) := by
  have hlt := (List.getElem?_eq_some_iff.1 h).1
  have hi : m.Inside b o := ⟨by omega, by omega⟩
  rw [load, Mem.noted_inside hi, Mem.read, if_pos hi, Int.toNat_natCast, List.getD_eq_getElem?_getD, h,
    Option.getD_some]

theorem store_cases {m' : Mem} {p : Ptr} (h : store m p v = .ok m') :
    ∃ b o, p = .ofBlock b o ∧ m.Inside b o ∧ m' = m.setBytes b ((m.bytes b).set o.toNat v) := by
  cases p with
  | null => cases h
  | wild => cases h
  | ofBlock b o =>
    by_cases hi : m.Inside b o
    · rw [store_inside hi] at h
      cases h
      exact ⟨b, o, rfl, hi, rfl⟩
    · rw [store_outside hi] at h
      cases h

@[simp] theorem length_freshBlock : (U.freshBlock b n).length = n := by
  simp [Unspecified.freshBlock]

@[simp] theorem next_alloc : (alloc U m n).2.next = m.next + 1 := by simp [alloc, Mem.next]

theorem bytes_alloc_self : (alloc U m n).2.bytes m.next = U.freshBlock m.next n := by
  simp [alloc, Mem.bytes, Mem.next, List.getD_eq_getElem?_getD]

theorem bytes_alloc_ne (h : c ≠ m.next) : (alloc U m n).2.bytes c = m.bytes c := by
  unfold Mem.next at h
  simp only [alloc, Mem.bytes, List.getD_eq_getElem?_getD]
  rcases Nat.lt_or_gt_of_ne h with h | h
  · rw [List.getElem?_append_left h]
  · rw [List.getElem?_eq_none (by simp; omega), List.getElem?_eq_none (by omega)]

@[simp] theorem bytes_release (p : Ptr) : (release m p).bytes c = m.bytes c := by
  cases p <;> rfl

@[simp] theorem next_release (p : Ptr) : (release m p).next = m.next := by
  cases p <;> rfl

@[simp] theorem strayOf_release (p : Ptr) : (release m p).strayOf c = m.strayOf c := by
  cases p <;> rfl

@[simp] theorem root_release (p : Ptr) : (release m p).root = m.root := by
  cases p <;> rfl

@[simp] theorem rootByte_release (p : Ptr) (i : Nat) : (release m p).rootByte i = m.rootByte i :=
  Mem.rootByte_congr (root_release p) (fun _ _ => bytes_release p) i

end Access

/-! ## Frames -/

/-- The blocks in `K` keep their bytes, and no read outside them was added. -/
structure Frame (K : Nat → Prop) (m m' : Mem) : Prop where
  next_le : m.next ≤ m'.next
  bytes : ∀ b, K b → m'.bytes b = m.bytes b
  stray : ∀ b, K b → m'.strayOf b = m.strayOf b

namespace Frame

variable {K K' : Nat → Prop} {U : Unspecified} {m m' m'' : Mem} {b n : Nat}

theorem refl (K : Nat → Prop) (m : Mem) : Frame K m m :=
  ⟨Nat.le_refl _, fun _ _ => rfl, fun _ _ => rfl⟩

theorem trans (h : Frame K m m') (h' : Frame K m' m'') : Frame K m m'' where
  next_le := Nat.le_trans h.next_le h'.next_le
  bytes b hb := (h'.bytes b hb).trans (h.bytes b hb)
  stray b hb := (h'.stray b hb).trans (h.stray b hb)

theorem mono (hK : ∀ b, K' b → K b) (h : Frame K m m') : Frame K' m m' where
  next_le := h.next_le
  bytes b hb := h.bytes b (hK b hb)
  stray b hb := h.stray b (hK b hb)

theorem setBytes (hb : ¬ K b) (l : List UInt8) : Frame K m (m.setBytes b l) where
  next_le := by simp
  bytes c hc := Mem.bytes_setBytes_ne fun h => hb (h ▸ hc)
  stray _ _ := rfl

theorem alloc (hK : ¬ K m.next) : Frame K m (alloc U m n).2 where
  next_le := by simp
  bytes _ hc := bytes_alloc_ne fun h => hK (h ▸ hc)
  stray _ _ := rfl

theorem release (p : Ptr) : Frame K m (release m p) where
  next_le := by simp
  bytes _ _ := by simp
  stray _ _ := by simp

theorem noted {o : Int} (hb : ¬ K b) : Frame K m (m.noted b o) where
  next_le := by simp
  bytes _ _ := by simp
  stray _ hc := Mem.strayOf_noted_ne fun h => hb (h ▸ hc)

/-- The same read noted on both sides. -/
theorem noted_noted (h : Frame K m m') (hb : K b) (o : Int) :
    Frame K (m.noted b o) (m'.noted b o) where
  next_le := by simpa using h.next_le
  bytes c hc := by simpa using h.bytes c hc
  stray c hc := by
    have hi : m'.Inside b o ↔ m.Inside b o := by rw [Mem.Inside, Mem.Inside, h.bytes b hb]
    by_cases hcb : c = b
    · subst hcb
      by_cases hin : m.Inside c o
      · rw [Mem.noted_inside hin, Mem.noted_inside (hi.2 hin), h.stray c hc]
      · rw [Mem.strayOf_noted_outside hin, Mem.strayOf_noted_outside (mt hi.1 hin), h.stray c hc]
    · rw [Mem.strayOf_noted_ne hcb, Mem.strayOf_noted_ne hcb, h.stray c hc]

end Frame

/-! ## A block kept -/

/-- The pointer points elsewhere. -/
def Outside (b : Nat) (p : Ptr) : Prop := ∀ o, p ≠ .ofBlock b o

/-- Block `b` keeps its bytes, whatever is read around it. -/
structure Keeps (b : Nat) (m m' : Mem) : Prop where
  next_le : m.next ≤ m'.next
  bytes : m'.bytes b = m.bytes b

namespace Keeps

variable {U : Unspecified} {m m' m'' : Mem} {b c n : Nat} {o : Int} {p : Ptr} {v : UInt8}

theorem refl (b : Nat) (m : Mem) : Keeps b m m := ⟨Nat.le_refl _, rfl⟩

theorem trans (h : Keeps b m m') (h' : Keeps b m' m'') : Keeps b m m'' :=
  ⟨Nat.le_trans h.next_le h'.next_le, h'.bytes.trans h.bytes⟩

theorem of_frame {K : Nat → Prop} (h : Frame K m m') (hb : K b) : Keeps b m m' :=
  ⟨h.next_le, h.bytes b hb⟩

theorem noted : Keeps b m (m.noted c o) := ⟨Nat.le_of_eq Mem.next_noted.symm, Mem.bytes_noted⟩

theorem load (h : load U m p = .ok (v, m')) : Keeps b m m' := by
  obtain ⟨c, o, -, rfl⟩ := load_cases h
  exact noted

theorem store (h : store m p v = .ok m') (hp : Outside b p) : Keeps b m m' := by
  obtain ⟨c, o, rfl, -, rfl⟩ := store_cases h
  exact ⟨Nat.le_of_eq Mem.next_setBytes.symm, Mem.bytes_setBytes_ne fun he => hp o (he ▸ rfl)⟩

theorem release (p : Ptr) : Keeps b m (release m p) :=
  ⟨Nat.le_of_eq (next_release p).symm, bytes_release p⟩

end Keeps

theorem Outside.add {b : Nat} {p : Ptr} (h : Outside b p) (i : Int) : Outside b (p.add i) := by
  intro o
  cases p with
  | null =>
    show (if i = 0 then Ptr.null else .wild) ≠ .ofBlock b o
    split <;> simp
  | wild =>
    show (if i = 0 then Ptr.wild else .wild) ≠ .ofBlock b o
    split <;> simp
  | ofBlock c k =>
    intro he
    cases he
    exact h k rfl

/-- No block has changed its length. -/
structure SameLengths (m m' : Mem) : Prop where
  next_le : m.next ≤ m'.next
  length : ∀ b < m.next, (m'.bytes b).length = (m.bytes b).length

namespace SameLengths

variable {U : Unspecified} {m m' m'' : Mem} {b n : Nat} {o : Int} {p : Ptr} {v : UInt8}

theorem refl (m : Mem) : SameLengths m m := ⟨Nat.le_refl _, fun _ _ => rfl⟩

theorem trans (h : SameLengths m m') (h' : SameLengths m' m'') : SameLengths m m'' where
  next_le := Nat.le_trans h.next_le h'.next_le
  length b hb := (h'.length b (Nat.lt_of_lt_of_le hb h.next_le)).trans (h.length b hb)

theorem noted : SameLengths m (m.noted b o) where
  next_le := Nat.le_of_eq Mem.next_noted.symm
  length _ _ := by rw [Mem.bytes_noted]

theorem load (h : load U m p = .ok (v, m')) : SameLengths m m' := by
  obtain ⟨c, o, -, rfl⟩ := load_cases h
  exact noted

theorem store (h : store m p v = .ok m') : SameLengths m m' := by
  obtain ⟨c, o, rfl, hi, rfl⟩ := store_cases h
  refine ⟨Nat.le_of_eq Mem.next_setBytes.symm, fun b hb => ?_⟩
  by_cases hbc : b = c
  · rw [hbc, Mem.bytes_setBytes_self hi.lt_next, List.length_set]
  · rw [Mem.bytes_setBytes_ne hbc]

theorem alloc : SameLengths m (alloc U m n).2 where
  next_le := Nat.le_of_lt (by simp)
  length _ hb := by rw [bytes_alloc_ne (Nat.ne_of_lt hb)]

end SameLengths

/-! ## Strings -/

/-- `l` begins with the C string `s`. -/
structure IsString (l s : List UInt8) : Prop where
  noNul : 0 ∉ s
  isPrefix : s ++ [0] <+: l

/-- The C string `s` stands at offset `o` of block `b`. -/
def Mem.StringAt (m : Mem) (b o : Nat) (s : List UInt8) : Prop := IsString ((m.bytes b).drop o) s

/-- The C string at a pointer. -/
def Mem.String (m : Mem) (p : Ptr) (s : List UInt8) : Prop :=
  ∃ b o : Nat, p = .ofBlock b o ∧ m.StringAt b o s

section Strings

variable {U : Unspecified} {m m' : Mem} {b o : Nat} {l s : List UInt8}

theorem isString_append (h : 0 ∉ s) (r : List UInt8) : IsString (s ++ 0 :: r) s :=
  ⟨h, ⟨r, by simp⟩⟩

theorem IsString.eq_append (h : IsString l s) : ∃ r, l = s ++ 0 :: r := by
  obtain ⟨r, hr⟩ := h.isPrefix
  exact ⟨r, by rw [← hr]; simp⟩

theorem Mem.StringAt.nul_mem (h : m.StringAt b o s) : 0 ∈ m.bytes b := by
  obtain ⟨r, hr⟩ := IsString.eq_append h
  exact List.mem_of_mem_drop (hr ▸ List.mem_append_right _ List.mem_cons_self)

theorem IsString.takeWhile (h : IsString l s) : l.takeWhile (· ≠ 0) = s := by
  obtain ⟨r, rfl⟩ := h.eq_append
  have hnul : ∀ ch ∈ s, decide (ch ≠ 0) = true := fun ch hch =>
    decide_eq_true fun h0 => h.noNul (h0 ▸ hch)
  rw [List.takeWhile_append_of_pos hnul, List.takeWhile_cons_of_neg (by simp), List.append_nil]

theorem IsString.unique {t : List UInt8} (h : IsString l s) (h' : IsString l t) : s = t :=
  h.takeWhile.symm.trans h'.takeWhile

theorem Mem.stringAt_of_bytes (hl : m.bytes b = l) (h : IsString (l.drop o) s) : m.StringAt b o s := by
  unfold Mem.StringAt
  rw [hl]
  exact h

theorem Mem.StringAt.lt_next (h : m.StringAt b o s) : b < m.next := by
  apply Mem.lt_next_of_bytes_ne
  intro he
  obtain ⟨r, hr⟩ := IsString.eq_append h
  rw [he, List.drop_nil] at hr
  simp at hr

theorem Mem.StringAt.bound (h : m.StringAt b o s) : o + s.length < (m.bytes b).length := by
  obtain ⟨r, hr⟩ := IsString.eq_append h
  have := congrArg List.length hr
  simp only [List.length_drop, List.length_append, List.length_cons] at this
  omega

theorem Mem.string_ofBlock_iff : m.String (.ofBlock b o) s ↔ m.StringAt b o s := by
  constructor
  · rintro ⟨c, k, he, h⟩
    rw [Ptr.ofBlock.injEq, Int.ofNat_inj] at he
    obtain ⟨rfl, rfl⟩ := he
    exact h
  · exact fun h => ⟨b, o, rfl, h⟩

theorem stringAt_of {i k : Nat} {q : Ptr} (hq : q = .ofBlock k i) (h : m.String q s) :
    m.StringAt k i s := by
  subst hq
  exact Mem.string_ofBlock_iff.1 h

theorem Mem.StringAt.frame {K : Nat → Prop} (hf : Frame K m m') (hb : K b)
    (h : m.StringAt b o s) : m'.StringAt b o s :=
  Mem.stringAt_of_bytes (hf.bytes b hb) h

theorem Mem.StringAt.inside (h : m.StringAt b o s) {i : Int} (h0 : 0 ≤ i) (hi : i ≤ s.length) :
    m.Inside b (o + i) := by
  have := h.bound
  constructor <;> omega

/-- The NUL is read as the default of `getD`. -/
theorem Mem.StringAt.read (h : m.StringAt b o s) {i : Int} (h0 : 0 ≤ i) (hi : i ≤ s.length) :
    m.read U b (o + i) = s.getD i.toNat 0 := by
  obtain ⟨r, hr⟩ := IsString.eq_append h
  have ht : ((o : Int) + i).toNat = o + i.toNat := by omega
  rw [Mem.read, if_pos (h.inside h0 hi), ht, List.getD_eq_getElem?_getD, ← List.getElem?_drop, hr]
  rcases Nat.lt_or_ge i.toNat s.length with hlt | hge
  · rw [List.getElem?_append_left hlt, List.getD_eq_getElem?_getD]
  · rw [List.getElem?_append_right hge, List.getD_eq_default _ _ hge]
    simp [show i.toNat - s.length = 0 by omega]

theorem Mem.StringAt.load (h : m.StringAt b o s) {i : Int} (h0 : 0 ≤ i) (hi : i ≤ s.length) :
    load U m (.ofBlock b (o + i)) = .ok (s.getD i.toNat 0, m) := by
  rw [BlockMemory.load, h.read h0 hi, Mem.noted_inside (h.inside h0 hi)]

end Strings

end BlockMemory
