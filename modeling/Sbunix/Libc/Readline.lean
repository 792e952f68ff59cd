/-
Reading a line in chunks (libc/readline.c). The loop takes a `read` that fills the four bytes it asked
for, and whose last byte is no newline, for a sign that the line goes on; it looks for a newline nowhere
else, and puts no NUL behind what it has read.

The buffer is replaced by a longer one whenever it is full. From the first longer one on the line is read
over the header that `free` looks at, and `free` may find the old buffer there by its address: it then unmaps
the new one. What `read` answers is a parameter.
-/
import Sbunix.Libc.Blocks
import Sbunix.Libc.String

namespace Sbunix.Libc

open AddressSpace BlockMemory Fallible

/-! ## The function -/

/-- `MAX_BUF_SIZE` -/
def maxBufSize : Nat := 4

/-- The answer of a `read`: -1, or the bytes it stores. -/
abbrev Answer := Option (List UInt8)

def Answer.returned : Answer → Int
  | some bytes => bytes.length
  | none => -1

/-- The kernel stores the bytes it has read. -/
def deliver : List UInt8 → Mem → Ptr → Except Fault Mem
  | [], m, _ => .ok m
  | ch :: bytes, m, buf => do
    let m ← store m buf ch
    deliver bytes m (buf.add 1)

/-- The bytes of the pages that `length` bytes from the start of a page take. -/
def pagesOf (length : Nat) : Nat := (length + 4095) / 4096 * 4096

def Freed.mem : Freed → Mem
  | .kept m => m
  | .unmapped m _ => m

/-- So many bytes behind the header at `ROOT` are gone. -/
def Freed.gone : Freed → Nat
  | .kept _ => 0
  | .unmapped _ length => pagesOf length

/-- `malloc` with a size that is an `int`. It reads the header at `ROOT`. -/
def mallocInt (U : Unspecified) (gone : Nat) (m : Mem) (size : Int) : Except Fault (Ptr × Mem) :=
  if size ≤ 0 then .ok (.null, m)
  else if 0 < gone then .error .unmapped
  else .ok (mallocBlock U m size.toNat)

/-- The variables of `readline`, the memory, how many bytes at the start of the buffer are no longer mapped,
and what `read` still has to answer. -/
structure Locals (σ : Type) where
  mem : Mem
  gone : Nat
  data : Ptr
  currentBufPtr : Ptr
  readCount : Int
  totalReadBytes : Int
  remainingSpaceInBuf : Int
  input : σ

/-- How a round of the loop ends: with a `break`, or with another round. -/
inductive Round (σ : Type) where
  | leave (s : Locals σ)
  | again (s : Locals σ)

section Code

variable {σ : Type} (U : Unspecified) (read : Nat → σ → Answer × σ)

/-- `if(remainingSpaceInBuf == 0)`: a buffer for four bytes more. -/
def grow (s : Locals σ) : Except Fault (Locals σ) :=
  if s.remainingSpaceInBuf = 0 then do
    let size := toInt (maxBufSize * s.readCount)
    let (newData, mem) ← mallocInt U s.gone s.mem size
    let (_, mem) ← memcpy U mem newData s.data s.totalReadBytes.toNat
    let freed ← freeBlock U mem s.data
    return { s with
      mem := freed.mem
      gone := freed.gone
      data := newData
      currentBufPtr := newData.add s.totalReadBytes
      remainingSpaceInBuf := size - s.totalReadBytes }
  else .ok s

/-- `read(0, currentBufPtr, remainingSpaceInBuf)`. The kernel refuses a buffer that is not mapped. -/
def readBuffer (s : Locals σ) : Answer × σ :=
  if s.totalReadBytes < s.gone then (none, s.input) else read s.remainingSpaceInBuf.toNat s.input

/-- The body of the loop. Behind the first `break` a `read` has not failed, so that the condition of the
loop holds. -/
def readlineRound (s : Locals σ) : Except Fault (Round σ) := do
  let (answer, input) := readBuffer read s
  let mem ← deliver (answer.getD []) s.mem s.currentBufPtr
  let readBytes := answer.returned
  let s := { s with mem, input, readCount := s.readCount + 1 }
  if readBytes = -1 ∨ readBytes < maxBufSize then
    return .leave s
  let s := { s with
    totalReadBytes := s.totalReadBytes + readBytes
    remainingSpaceInBuf := s.remainingSpaceInBuf - readBytes }
  let (last, mem) ← load U s.mem (s.data.add (s.totalReadBytes - 1))
  let s := { s with mem }
  if last = newline then
    return .leave s
  let s ← grow U s
  return .again s

def readlineLoop : Nat → Locals σ → Except Fault (Locals σ)
  | 0, _ => .error .outOfFuel
  | fuel + 1, s => do
    match ← readlineRound U read s with
    | .leave s => return s
    | .again s => readlineLoop fuel s

/-- The variables before the first round. -/
def readlineStart (m : Mem) (input : σ) : Locals σ :=
  let (data, mem) := mallocBlock U m maxBufSize
  ⟨mem, 0, data, data, 1, 0, maxBufSize, input⟩

def readline (fuel : Nat) (m : Mem) (input : σ) : Except Fault (Ptr × Mem × σ) := do
  let s ← readlineLoop U read fuel (readlineStart U m input)
  return (s.data, s.mem, s.input)

end Code

/-- Fresh pages are blank but for the header. The first block stands behind its header, every later one at the
start of a page. -/
def blankBlocks : Unspecified where
  fresh
    | 0 => fun _ => 0
    | b + 1 => writeLE (writeLE (fun _ => 0) 8 4 (4 * (b + 2))) 0 8
        (0x10000 + 0x1000 * (b + 1) + sizeofMetaBlock * sizeofMetaBlock)
  outside _ _ := 0
  overrun _ := 0
  address
    | .ofBlock 0 o => (0x10000 + sizeofMetaBlock * sizeofMetaBlock + o).toNat
    | .ofBlock (b + 1) o => (0x10000 + 0x1000 * (b + 1) + o).toNat
    | _ => 0
  listEnds _ _ _ := false

def noBlocks : Mem := { blocks := [], released := [], stray := [] }

/-! ## The memory -/

/-- The block begins with the text. -/
def fill (m : Mem) (b : Nat) (text : List UInt8) : Mem := m.setBytes b (overwrite (m.bytes b) 0 text)

/-- The memory after `k` reads of four bytes each, if every `free` has left the blocks as they are: each time the
buffer was filled, copied to a longer one and released. -/
def roundMem (U : Unspecified) (m : Mem) : Nat → List UInt8 → Mem
  | 0, _ => (mallocBlock U m maxBufSize).2
  | k + 1, text =>
    let filled := fill (roundMem U m k (text.take (4 * k))) (m.next + k) text
    let grown := fill (mallocBlock U filled (4 * (k + 2))).2 (m.next + (k + 1)) text
    release grown (.ofBlock (m.next + k) 0)

/-- What a `read` has then put behind the first `4 * k` bytes of `text` is the rest of it. -/
def filledMem (U : Unspecified) (m : Mem) (k : Nat) (text : List UInt8) : Mem :=
  fill (roundMem U m k (text.take (4 * k))) (m.next + k) text

/-- The memory in which the next `free` runs. -/
def grownMem (U : Unspecified) (m : Mem) (k : Nat) (text : List UInt8) : Mem :=
  fill (mallocBlock U (filledMem U m k text) (4 * (k + 2))).2 (m.next + (k + 1)) text

/-- Byte `i` of the buffer, before anything is read to it. Over the header's field `next` lies what was there
before the first call of `malloc`. -/
def behind (U : Unspecified) (m : Mem) (i : Nat) : UInt8 :=
  if 16 ≤ i ∧ i < 24 then m.rootByte i else U.fresh (m.next + i / 4) i

section Memory

variable {U : Unspecified} {m : Mem} {b c i k : Nat} {pre text : List UInt8}

theorem overwrite_behind {l : List UInt8} (h : pre <+: l) :
    overwrite l pre.length text = overwrite l 0 (pre ++ text) := by
  obtain ⟨r, rfl⟩ := h
  unfold overwrite
  simp [List.drop_append]

theorem prefix_overwrite {l w : List UInt8} : w <+: overwrite l 0 w := by
  rw [overwrite, List.take_zero, List.nil_append]
  exact List.prefix_append _ _

theorem getD_overwrite {l w : List UInt8} (hi : w.length ≤ i) : (overwrite l 0 w)[i]? = l[i]? := by
  have hget := getElem?_overwrite (l := l) (w := w) (Nat.zero_le _) i
  rwa [Nat.zero_add, if_neg (Nat.not_lt.2 hi)] at hget

@[simp] theorem next_fill : (fill m b text).next = m.next := Mem.next_setBytes

theorem bytes_fill (hb : b < m.next) : (fill m b text).bytes b = overwrite (m.bytes b) 0 text :=
  Mem.bytes_setBytes_self hb

theorem rootByte_fill (hb : b < m.next) (hfit : text.length ≤ (m.bytes b).length) (hi : text.length ≤ i) :
    (fill m b text).rootByte i = m.rootByte i := by
  refine Mem.rootByte_setBytes hb (length_overwrite (by rwa [Nat.zero_add])) ?_
  rw [List.getD_eq_getElem?_getD, getD_overwrite hi, ← List.getD_eq_getElem?_getD]

theorem roundMem_succ : roundMem U m (k + 1) pre = release (grownMem U m k pre) (.ofBlock (m.next + k) 0) := rfl

@[simp] theorem next_roundMem : (roundMem U m k pre).next = m.next + (k + 1) := by
  induction k generalizing pre with
  | zero => exact next_malloc
  | succ k ih =>
    rw [roundMem_succ, next_release, grownMem, next_fill, next_malloc, filledMem, next_fill, ih]
    rfl

@[simp] theorem next_filledMem : (filledMem U m k text).next = m.next + (k + 1) := next_fill.trans next_roundMem

@[simp] theorem next_grownMem : (grownMem U m k text).next = m.next + (k + 2) := by
  rw [grownMem, next_fill, next_malloc, next_filledMem]
  rfl

theorem bytes_grownMem : (grownMem U m k text).bytes (m.next + (k + 1)) =
    overwrite (newBytes U (filledMem U m k text) (4 * (k + 2))) 0 text := by
  have hmalloc := bytes_malloc_self (U := U) (m := filledMem U m k text) (n := 4 * (k + 2))
  rw [next_filledMem] at hmalloc
  rw [grownMem, bytes_fill (by rw [next_malloc, next_filledMem]; exact Nat.lt_succ_self _), hmalloc]

theorem length_roundMem (hpre : pre.length = 4 * k) : ((roundMem U m k pre).bytes (m.next + k)).length = 4 * (k + 1) := by
  cases k with
  | zero => exact (congrArg List.length bytes_malloc_self).trans length_newBytes
  | succ k =>
    rw [roundMem_succ, bytes_release, bytes_grownMem, length_overwrite, length_newBytes]
    rw [length_newBytes]
    omega

theorem prefix_roundMem (hpre : pre.length = 4 * k) : pre <+: (roundMem U m k pre).bytes (m.next + k) := by
  cases k with
  | zero =>
    rw [List.eq_nil_of_length_eq_zero hpre]
    exact List.nil_prefix
  | succ k =>
    rw [roundMem_succ, bytes_release, bytes_grownMem]
    exact prefix_overwrite

theorem bytes_filledMem : (filledMem U m k text).bytes (m.next + k) =
    overwrite ((roundMem U m k (text.take (4 * k))).bytes (m.next + k)) 0 text :=
  bytes_fill (by rw [next_roundMem]; omega)

theorem length_take_four (h : 4 * k ≤ text.length) : (text.take (4 * k)).length = 4 * k :=
  List.length_take_of_le h

theorem length_filledMem (hle : 4 * k ≤ text.length) (hfit : text.length ≤ 4 * (k + 1)) :
    ((filledMem U m k text).bytes (m.next + k)).length = 4 * (k + 1) := by
  have hround := length_roundMem (U := U) (m := m) (length_take_four hle)
  rw [bytes_filledMem, length_overwrite (by omega), hround]

theorem released_filledMem : (filledMem U m k text).released = (roundMem U m k (text.take (4 * k))).released := rfl

/-- Only buffers that were replaced have been released. -/
theorem held_roundMem (hm : ∀ c ∈ m.released, c < m.next) : ∀ c ∈ (roundMem U m k pre).released, c < m.next + k := by
  induction k generalizing pre with
  | zero => exact hm
  | succ k ih =>
    refine List.forall_mem_cons.2 ⟨Nat.lt_succ_self _, fun c hc => ?_⟩
    exact Nat.lt_succ_of_lt (ih c hc)

/-- The field `next` behind the text is the one before the first call of `malloc`. -/
theorem rootByte_roundMem (hpre : pre.length = 4 * k) (hi : 4 * k ≤ i) (h16 : 16 ≤ i) (h24 : i < 24) :
    (roundMem U m k pre).rootByte i = m.rootByte i := by
  induction k generalizing pre with
  | zero => exact rootByte_malloc h16 h24
  | succ k ih =>
    have htake : (pre.take (4 * k)).length = 4 * k := length_take_four (by omega)
    have hround := length_roundMem (U := U) (m := m) htake
    have hnew := bytes_malloc_self (U := U) (m := filledMem U m k pre) (n := 4 * (k + 2))
    rw [next_filledMem] at hnew
    rw [roundMem_succ, rootByte_release, grownMem,
      rootByte_fill (by rw [next_malloc, next_filledMem]; exact Nat.lt_succ_self _)
        (by rw [hnew, length_newBytes]; omega) (by omega),
      rootByte_malloc h16 h24, filledMem,
      rootByte_fill (by rw [next_roundMem]; omega) (by omega) (by omega)]
    exact ih htake (by omega)

theorem rootByte_filledMem (hle : 4 * k ≤ text.length) (hfit : text.length ≤ 4 * (k + 1)) (hi : text.length ≤ i)
    (h16 : 16 ≤ i) (h24 : i < 24) : (filledMem U m k text).rootByte i = m.rootByte i := by
  have hround := length_roundMem (U := U) (m := m) (length_take_four hle)
  rw [filledMem, rootByte_fill (by rw [next_roundMem]; omega) (by omega) hi]
  exact rootByte_roundMem (length_take_four hle) (by omega) h16 h24

theorem isSome_root_filledMem : (filledMem U m k text).root.isSome := by
  cases k with
  | zero => rfl
  | succ k => rfl

/-- Behind what was read the last buffer is as `malloc` has delivered it. -/
theorem getElem?_roundMem (hpre : pre.length = 4 * k) (hi : 4 * k ≤ i) (hlt : i < 4 * (k + 1)) :
    ((roundMem U m k pre).bytes (m.next + k))[i]? = some (behind U m i) := by
  have hdiv : i / 4 = k := by omega
  cases k with
  | zero =>
    have hfresh : behind U m i = U.fresh m.next i := by
      unfold behind
      rw [if_neg (by omega), hdiv]
      rfl
    rw [roundMem, Nat.add_zero, bytes_malloc_self, getElem?_newBytes (show i < maxBufSize from hlt) (.inl (by omega)),
      hfresh]
  | succ k =>
    rw [roundMem_succ, bytes_release, bytes_grownMem, getD_overwrite (by omega)]
    unfold behind
    by_cases hfield : 16 ≤ i ∧ i < 24
    · rw [if_pos hfield, getElem?_newBytes_next hlt isSome_root_filledMem hfield.1 hfield.2,
        rootByte_filledMem (by omega) (by omega) (by omega) hfield.1 hfield.2]
    · rw [if_neg hfield, newBytes, List.getElem?_map, List.getElem?_range (show i < 4 * (k + 2) from hlt), Option.map_some,
        if_neg fun h => hfield h.2, next_filledMem, hdiv]

theorem getElem?_filledMem (hle : 4 * k ≤ text.length) (hi : text.length ≤ i) (hlt : i < 4 * (k + 1)) :
    ((filledMem U m k text).bytes (m.next + k))[i]? = some (behind U m i) := by
  rw [bytes_filledMem, getD_overwrite hi]
  exact getElem?_roundMem (length_take_four hle) (by omega) hlt

variable (U m k text) in
/-- The list begins at the new buffer. -/
theorem root_grownMem : ∃ r, (grownMem U m k text).root = some r ∧ r.block = m.next + (k + 1) := by
  obtain ⟨r, hr, hblock, -⟩ := root_malloc (U := U) (m := filledMem U m k text) (n := 4 * (k + 2))
  exact ⟨r, hr, hblock.trans next_filledMem⟩

end Memory

/-! ## The rounds -/

/-- The numbers after `k` reads of four bytes each: there is room for four bytes more. -/
structure Counted {σ : Type} (k : Nat) (s : Locals σ) : Prop where
  count : s.readCount = (k + 1 : Nat)
  total : s.totalReadBytes = (4 * k : Nat)
  space : s.remainingSpaceInBuf = 4
  small : 4 * (k + 1) < 2 ^ 31

/-- The loop of `readline` has come to a round after `k` reads of four bytes each: `pre` is what they
read, and nothing has been unmapped. -/
structure AtRound {σ : Type} (U : Unspecified) (m : Mem) (k : Nat) (pre : List UInt8) (s : Locals σ) : Prop
    extends Counted k s where
  mem : s.mem = roundMem U m k pre
  gone : s.gone = 0
  data : s.data = .ofBlock (m.next + k) 0
  current : s.currentBufPtr = .ofBlock (m.next + k) (4 * k : Nat)
  length : pre.length = 4 * k

/-- The loop has been left with `text` at the start of that buffer. -/
structure Left {σ : Type} (U : Unspecified) (m : Mem) (k : Nat) (text : List UInt8) (s : Locals σ) : Prop where
  mem : s.mem = filledMem U m k text
  data : s.data = .ofBlock (m.next + k) 0
  least : 4 * k ≤ text.length
  most : text.length ≤ 4 * (k + 1)

/-- The last `free` has unmapped the buffer that was to be the new one. -/
structure Unmapped {σ : Type} (b k : Nat) (s : Locals σ) : Prop extends Counted k s where
  data : s.data = .ofBlock b 0
  released : b ∈ s.mem.released
  gone : 0 < s.gone
  read : 0 < k

/-- The old buffer is not the one that the header at `ROOT`, in the new buffer, is for. -/
def SparesBuffer (U : Unspecified) (m : Mem) (k : Nat) (text : List UInt8) : Prop :=
  ¬ Unmaps U (grownMem U m k text) (.ofBlock (m.next + k) 0)

instance (U : Unspecified) (m : Mem) (k : Nat) (text : List UInt8) : Decidable (SparesBuffer U m k text) :=
  inferInstanceAs (Decidable (¬ _))

/-- `free` comes back. -/
def FreeEnds (U : Unspecified) (m : Mem) (k : Nat) (text : List UInt8) : Prop :=
  Ends U (grownMem U m k text) (.ofBlock (m.next + k) 0)

instance (U : Unspecified) (m : Mem) (k : Nat) (text : List UInt8) : Decidable (FreeEnds U m k text) :=
  inferInstanceAs (Decidable (Ends _ _ _))

section Rounds

variable {σ : Type} {U : Unspecified} {read : Nat → σ → Answer × σ} {m m' : Mem} {b o k n : Nat}
  {pre text : List UInt8} {s s' : Locals σ} {input : σ} {p : Ptr}

theorem deliver_eq : ∀ (text : List UInt8) {m : Mem} {o : Nat}, b < m.next →
    o + text.length ≤ (m.bytes b).length →
    deliver text m (.ofBlock b o) = .ok (m.setBytes b (overwrite (m.bytes b) o text))
  | [], m, o, hb, _ => by rw [deliver, overwrite_nil, setBytes_bytes hb]
  | ch :: text, m, o, hb, hl => by
    rw [List.length_cons] at hl
    have hi : m.Inside b o := ⟨by omega, by omega⟩
    have hbytes := Mem.bytes_setBytes_self (l := (m.bytes b).set o ch) hb
    have hrest := deliver_eq text (o := o + 1)
      (show b < (m.setBytes b ((m.bytes b).set o ch)).next by rwa [Mem.next_setBytes])
      (by rw [hbytes, List.length_set]; omega)
    rw [hbytes, overwrite_cons (by omega), setBytes_setBytes] at hrest
    rw [deliver, store_inside hi, ok_bind, Int.toNat_natCast]
    exact hrest

theorem deliver_released : ∀ (text : List UInt8) {m : Mem} {p : Ptr},
    deliver text m p = .ok m' → m'.released = m.released
  | [], _, _, h => by
    cases h
    rfl
  | ch :: text, m, p, h => by
    obtain ⟨m1, hstore, h⟩ := bind_eq_ok h
    obtain ⟨b, o, -, -, rfl⟩ := store_cases hstore
    exact (deliver_released text h :)

theorem returned_some (text : List UInt8) : Answer.returned (some text) = text.length := rfl

theorem AtRound.readBuffer_eq (h : AtRound U m k pre s) : readBuffer read s = read 4 s.input := by
  have hgone : ¬ s.totalReadBytes < (s.gone : Int) := by
    rw [h.total, h.gone]
    omega
  rw [readBuffer, if_neg hgone, h.space]
  rfl

theorem AtRound.length_append (h : AtRound U m k pre s) (text : List UInt8) :
    (pre ++ text).length = 4 * k + text.length := by
  rw [List.length_append, h.length]

theorem AtRound.take (h : AtRound U m k pre s) (text : List UInt8) : (pre ++ text).take (4 * k) = pre := by
  rw [← h.length]
  exact List.take_left

/-- What is read comes behind what was read. -/
theorem AtRound.deliver (h : AtRound U m k pre s) (htext : text.length ≤ 4) :
    Libc.deliver text s.mem s.currentBufPtr = .ok (filledMem U m k (pre ++ text)) := by
  have hlen := length_roundMem (U := U) (m := m) h.length
  rw [h.current, h.mem, deliver_eq text (by rw [next_roundMem]; omega) (by omega), ← h.length,
    overwrite_behind (prefix_roundMem h.length), filledMem, h.take]
  rfl

/-- A `read` of `text` has been answered. -/
def answered (U : Unspecified) (m : Mem) (k : Nat) (pre text : List UInt8) (s : Locals σ) (input : σ) : Locals σ :=
  { s with
    mem := filledMem U m k (pre ++ text)
    input
    readCount := s.readCount + 1 }

/-- It was four bytes long. -/
def chunkRead (U : Unspecified) (m : Mem) (k : Nat) (pre text : List UInt8) (s : Locals σ) (input : σ) : Locals σ :=
  { answered U m k pre text s input with
    totalReadBytes := (4 * (k + 1) : Nat)
    remainingSpaceInBuf := 0 }

theorem AtRound.left (h : AtRound U m k pre s) (htext : text.length ≤ 4) (input : σ) :
    Left U m k (pre ++ text) (answered U m k pre text s input) := by
  have hlen := h.length_append text
  exact ⟨rfl, h.data, by omega, by omega⟩

/-- A round whose `read` comes back with less than four bytes is the last. -/
theorem AtRound.short (h : AtRound U m k pre s) (hread : read 4 s.input = (some text, input))
    (htext : text.length < 4) :
    readlineRound U read s = .ok (.leave (answered U m k pre text s input)) := by
  have hshort : (text.length : Int) = -1 ∨ (text.length : Int) < maxBufSize := by
    right
    unfold maxBufSize
    omega
  unfold readlineRound
  rw [h.readBuffer_eq, hread]
  dsimp only
  rw [returned_some, Option.getD_some, h.deliver (by omega), ok_bind, if_pos hshort]
  rfl

/-- Four bytes: the last of them is looked at. -/
theorem AtRound.full (h : AtRound U m k pre s) {ch : UInt8}
    (hread : read 4 s.input = (some (text ++ [ch]), input)) (htext : text.length = 3) :
    readlineRound U read s =
      if ch = newline then .ok (.leave (chunkRead U m k pre (text ++ [ch]) s input))
      else grow U (chunkRead U m k pre (text ++ [ch]) s input) >>= fun s => .ok (.again s) := by
  have hlen := h.length
  have hfour : (text ++ [ch]).length = 4 := by rw [List.length_append, htext]; rfl
  have hlong : ¬ (((text ++ [ch]).length : Int) = -1 ∨ ((text ++ [ch]).length : Int) < maxBufSize) := by
    rw [hfour]
    decide
  have hlast : ((filledMem U m k (pre ++ (text ++ [ch]))).bytes (m.next + k))[4 * k + 3]? = some ch := by
    have hthree : 4 * k + 3 = (pre ++ text).length := by rw [h.length_append, htext]
    obtain ⟨r, hr⟩ : pre ++ text ++ [ch] <+: (filledMem U m k (pre ++ (text ++ [ch]))).bytes (m.next + k) := by
      rw [bytes_filledMem, List.append_assoc]
      exact prefix_overwrite
    rw [← hr, hthree, List.append_assoc, List.getElem?_append_right (Nat.le_refl _), Nat.sub_self]
    rfl
  unfold readlineRound
  rw [h.readBuffer_eq, hread]
  dsimp only
  rw [returned_some, Option.getD_some, h.deliver (by omega), ok_bind, if_neg hlong, h.total, h.space, hfour, h.data]
  have hptr : (Ptr.ofBlock (m.next + k) 0).add ((4 * k : Nat) + (4 : Nat) - 1) =
      .ofBlock (m.next + k) (4 * k + 3 : Nat) := by
    refine congrArg (Ptr.ofBlock (m.next + k)) ?_
    push_cast
    omega
  have hload := load_getElem (U := U) (m := filledMem U m k (pre ++ (text ++ [ch]))) (b := m.next + k) hlast
  have htotal : ((4 * k : Nat) : Int) + (4 : Nat) = (4 * (k + 1) : Nat) := by
    push_cast
    omega
  rw [hptr, hload, ok_bind, htotal, show (4 : Int) - (4 : Nat) = 0 from rfl, ← h.data]
  split_ifs <;> rfl

/-- The new buffer begins with all that was read when the old one is freed. -/
theorem grow_eq {d : Nat} (hspace : s.remainingSpaceInBuf = 0) (hgone : s.gone = 0) (hdata : s.data = .ofBlock d 0)
    (hd : d < s.mem.next) (htotal : s.totalReadBytes = (text.length : Nat)) (htext : text <+: s.mem.bytes d)
    (hsize : toInt (maxBufSize * s.readCount) = (n : Nat)) (hfit : text.length < n) (hn : n < 2 ^ 31) :
    grow U s = (freeBlock U (fill (mallocBlock U s.mem n).2 s.mem.next text) s.data >>= fun freed => .ok { s with
      mem := freed.mem
      gone := freed.gone
      data := .ofBlock s.mem.next 0
      currentBufPtr := .ofBlock s.mem.next (text.length : Nat)
      remainingSpaceInBuf := (n : Int) - (text.length : Nat) }) := by
  have hcopy := memcpy_eq (U := U) (m := (mallocBlock U s.mem n).2) (d := s.mem.next) (b := d) (o := 0) (e := 0)
    (w := text) (by omega) (by omega) (by rw [next_malloc]; omega)
    (by rw [bytes_malloc_ne (by omega), List.drop_zero]; exact htext)
    (by rw [bytes_malloc_self, length_newBytes]; omega)
  unfold grow mallocInt
  rw [if_pos hspace, hsize]
  dsimp only
  rw [if_neg (by omega), hgone, if_neg (Nat.lt_irrefl 0), ok_bind, Int.toNat_natCast, malloc_fst, hdata, htotal,
    Int.toNat_natCast]
  refine (congrArg (· >>= _) hcopy).trans ?_
  have hptr : (Ptr.ofBlock s.mem.next 0).add (text.length : Nat) = .ofBlock s.mem.next (text.length : Nat) :=
    congrArg (Ptr.ofBlock s.mem.next) (Int.zero_add _)
  rw [ok_bind, hptr]
  rfl

theorem chunk_of_length {l : List UInt8} (h : l.length = 4) :
    ∃ text ch, l = text ++ [ch] ∧ text.length = 3 := by
  rcases List.eq_nil_or_concat l with rfl | ⟨text, ch, rfl⟩
  · cases h
  · rw [List.length_concat] at h
    exact ⟨text, ch, List.concat_eq_append, Nat.succ.inj h⟩

theorem Counted.size (h : Counted k s) : (maxBufSize : Int) * (s.readCount + 1) = (4 * (k + 2) : Nat) := by
  unfold maxBufSize
  rw [h.count]
  push_cast
  omega

/-- The variables once the buffer has been replaced. -/
def regrown (m : Mem) (k : Nat) (s : Locals σ) (freed : Freed) (input : σ) : Locals σ :=
  { mem := freed.mem
    gone := freed.gone
    data := .ofBlock (m.next + (k + 1)) 0
    currentBufPtr := .ofBlock (m.next + (k + 1)) (4 * (k + 1) : Nat)
    readCount := s.readCount + 1
    totalReadBytes := (4 * (k + 1) : Nat)
    remainingSpaceInBuf := 4
    input }

theorem AtRound.counted_regrown (h : AtRound U m k pre s) (hsmall : 4 * (k + 2) < 2 ^ 31) (freed : Freed) :
    Counted (k + 1) (regrown m k s freed input) := by
  refine ⟨?_, rfl, rfl, hsmall⟩
  unfold regrown
  dsimp only
  rw [h.count]
  rfl

/-- Four bytes that do not end in a newline: a buffer for four bytes more. -/
theorem AtRound.grow_eq (h : AtRound U m k pre s) (htext : text.length = 4) (hsmall : 4 * (k + 2) < 2 ^ 31)
    (input : σ) : Libc.grow U (chunkRead U m k pre text s input) =
      (freeBlock U (grownMem U m k (pre ++ text)) (.ofBlock (m.next + k) 0) >>= fun freed =>
        .ok (regrown m k s freed input)) := by
  have hall : (pre ++ text).length = 4 * (k + 1) := by
    rw [h.length_append]
    omega
  have hnext : (filledMem U m k (pre ++ text)).next = m.next + (k + 1) := next_filledMem
  have hsize : toInt (maxBufSize * (s.readCount + 1)) = (4 * (k + 2) : Nat) := by
    rw [h.toCounted.size, toInt_of_lt (by omega) (by omega)]
  have hgrow := Libc.grow_eq (U := U) (s := chunkRead U m k pre text s input) rfl h.gone h.data
    (by rw [chunkRead, answered, hnext]; omega) (show _ = (((pre ++ text).length : Nat) : Int) by rw [hall]; rfl)
    (by rw [chunkRead, answered, bytes_filledMem]; exact prefix_overwrite) hsize (by omega) hsmall
  have hspace : ((4 * (k + 2) : Nat) : Int) - (4 * (k + 1) : Nat) = 4 := by
    push_cast
    omega
  rw [hall, hspace] at hgrow
  have hdata : (chunkRead U m k pre text s input).data = .ofBlock (m.next + k) 0 := h.data
  rw [hgrow, hdata]
  unfold chunkRead answered regrown grownMem
  dsimp only
  rw [hnext]

/-- If `free` leaves the blocks as they are, another round begins. -/
theorem AtRound.grow (h : AtRound U m k pre s) (htext : text.length = 4) (hsmall : 4 * (k + 2) < 2 ^ 31)
    (hspares : SparesBuffer U m k (pre ++ text)) (hends : FreeEnds U m k (pre ++ text)) (input : σ) :
    ∃ s', Libc.grow U (chunkRead U m k pre text s input) = .ok s' ∧
      AtRound U m (k + 1) (pre ++ text) s' ∧ s'.input = input := by
  obtain ⟨r, hr, -⟩ := root_grownMem U m k (pre ++ text)
  have hfree : freeBlock U (grownMem U m k (pre ++ text)) (.ofBlock (m.next + k) 0) =
      .ok (.kept (roundMem U m (k + 1) (pre ++ text))) := by
    unfold FreeEnds at hends
    rw [freeBlock_root hr, if_neg hspares, if_pos hends]
    rfl
  refine ⟨regrown m k s (.kept (roundMem U m (k + 1) (pre ++ text))) input, ?_,
    ⟨h.counted_regrown hsmall _, rfl, rfl, rfl, rfl, ?_⟩, rfl⟩
  · rw [h.grow_eq htext hsmall, hfree]
    rfl
  · rw [h.length_append]
    omega

/-- Else the new buffer is gone. -/
theorem AtRound.grow_unmapped (h : AtRound U m k pre s) (htext : text.length = 4) (hsmall : 4 * (k + 2) < 2 ^ 31)
    (hspares : ¬ SparesBuffer U m k (pre ++ text)) (input : σ) :
    ∃ s', Libc.grow U (chunkRead U m k pre text s input) = .ok s' ∧ Unmapped (m.next + (k + 1)) (k + 1) s' := by
  obtain ⟨r, hr, hblock⟩ := root_grownMem U m k (pre ++ text)
  have hunmaps := not_not.1 hspares
  rw [h.grow_eq htext hsmall, freeBlock_root hr, if_pos hunmaps]
  refine ⟨_, rfl, h.counted_regrown hsmall _, rfl, ?_, ?_, Nat.succ_pos k⟩
  · unfold regrown Freed.mem
    rw [hblock]
    exact List.mem_cons_self
  · have hpos := hunmaps.2
    unfold regrown Freed.gone pagesOf
    dsimp only
    omega

/-- What replacing the buffer can lead to. -/
theorem AtRound.grow_cases (h : AtRound U m k pre s) (htext : text.length = 4) (hsmall : 4 * (k + 2) < 2 ^ 31)
    (hgrow : Libc.grow U (chunkRead U m k pre text s input) = .ok s') :
    SparesBuffer U m k (pre ++ text) ∧ FreeEnds U m k (pre ++ text) ∧ AtRound U m (k + 1) (pre ++ text) s' ∨
      ¬ SparesBuffer U m k (pre ++ text) ∧ Unmapped (m.next + (k + 1)) (k + 1) s' := by
  by_cases hspares : SparesBuffer U m k (pre ++ text)
  · by_cases hends : FreeEnds U m k (pre ++ text)
    · obtain ⟨t, ht, hround, -⟩ := h.grow htext hsmall hspares hends input
      cases ht.symm.trans hgrow
      exact .inl ⟨hspares, hends, hround⟩
    · obtain ⟨r, hr, -⟩ := root_grownMem U m k (pre ++ text)
      unfold FreeEnds at hends
      rw [h.grow_eq htext hsmall, freeBlock_root hr, if_neg hspares, if_neg hends] at hgrow
      cases hgrow
  · obtain ⟨t, ht, hunmapped⟩ := h.grow_unmapped htext hsmall hspares input
    cases ht.symm.trans hgrow
    exact .inr ⟨hspares, hunmapped⟩

theorem mallocInt_of_le {gone : Nat} {size : Int} (h : size ≤ 0) : mallocInt U gone m size = .ok (.null, m) :=
  if_pos h

theorem memcpy_null {d : Nat} {r : Ptr × Mem} (hn : 0 < toInt n) : memcpy U m .null (.ofBlock d o) n ≠ .ok r := by
  obtain ⟨j, hj⟩ : ∃ j, (toInt n).toNat = j + 1 := ⟨(toInt n).toNat - 1, by omega⟩
  unfold memcpy
  rw [if_neg (by simp), hj, memcpyLoop]
  intro h
  obtain ⟨⟨ch, m'⟩, -, h⟩ := bind_eq_ok h
  obtain ⟨m'', hstore, -⟩ := bind_eq_ok h
  cases hstore

/-- Without a buffer to copy to there is a fault. -/
theorem grow_null {d : Nat} (hspace : s.remainingSpaceInBuf = 0) (hdata : s.data = .ofBlock d (0 : Nat))
    (htotal : s.totalReadBytes = (n : Nat)) (hsize : toInt (maxBufSize * s.readCount) ≤ 0)
    (hn : 0 < toInt n) (s' : Locals σ) : grow U s ≠ .ok s' := by
  unfold grow
  rw [if_pos hspace]
  dsimp only
  rw [mallocInt_of_le hsize, ok_bind, hdata, htotal, Int.toNat_natCast]
  intro hgrow
  obtain ⟨r, hcopy, -⟩ := bind_eq_ok hgrow
  exact memcpy_null hn hcopy

/-- From 2 ^ 31 bytes on the size of the new buffer is negative. -/
theorem AtRound.overflow (h : AtRound U m k pre s) (hlarge : ¬ 4 * (k + 2) < 2 ^ 31) (text : List UInt8)
    (input : σ) (s' : Locals σ) : Libc.grow U (chunkRead U m k pre text s input) ≠ .ok s' := by
  have hsmall := h.small
  have hdata : (chunkRead U m k pre text s input).data = .ofBlock (m.next + k) (0 : Nat) := h.data
  have hsize : toInt (maxBufSize * (s.readCount + 1)) ≤ 0 := by
    rw [h.toCounted.size]
    unfold toInt
    rw [Int.bmod_def]
    omega
  have htotal : 0 < toInt (4 * (k + 1) : Nat) := by
    rw [toInt_of_lt (by omega) (by omega)]
    omega
  exact grow_null rfl hdata rfl hsize htotal s'

/-- Once the header at `ROOT` is gone no buffer can be had. -/
theorem grow_unmapped (hspace : s.remainingSpaceInBuf = 0) (hgone : 0 < s.gone) (hdata : s.data = .ofBlock b (0 : Nat))
    (htotal : s.totalReadBytes = (n : Nat)) (hn : 0 < toInt n) (s' : Locals σ) : grow U s ≠ .ok s' := by
  by_cases hsize : toInt (maxBufSize * s.readCount) ≤ 0
  · exact grow_null hspace hdata htotal hsize hn s'
  · unfold grow mallocInt
    rw [if_pos hspace]
    dsimp only
    rw [if_neg hsize, if_pos hgone]
    intro h
    cases h

theorem readBuffer_fits (hread : ∀ n x text, (read n x).1 = some text → text.length ≤ n)
    (h : (readBuffer read s).1 = some text) : text.length ≤ s.remainingSpaceInBuf.toNat := by
  unfold readBuffer at h
  split at h
  · cases h
  · exact hread _ _ _ h

/-- The loop is then left in the next round, with the buffer that was unmapped. -/
theorem Unmapped.round (h : Unmapped b k s)
    (hfits : ∀ text, (readBuffer read s).1 = some text → text.length ≤ s.remainingSpaceInBuf.toNat)
    {r : Round σ} (hround : readlineRound U read s = .ok r) :
    ∃ s', r = .leave s' ∧ s'.data = .ofBlock b 0 ∧ b ∈ s'.mem.released := by
  rw [h.space] at hfits
  unfold readlineRound at hround
  generalize readBuffer read s = x at hround hfits
  obtain ⟨answer, input⟩ := x
  dsimp only at hround hfits
  obtain ⟨mem, hdeliver, hround⟩ := bind_eq_ok hround
  have hheld : b ∈ mem.released := (deliver_released _ hdeliver).symm ▸ h.released
  split at hround
  · cases hround
    exact ⟨_, rfl, h.data, hheld⟩
  next hlong =>
  obtain ⟨⟨last, mem'⟩, hload, hround⟩ := bind_eq_ok hround
  obtain ⟨c, o, -, rfl⟩ := load_cases hload
  dsimp only at hround
  split at hround
  · cases hround
    exact ⟨_, rfl, h.data, Mem.released_noted.symm ▸ hheld⟩
  obtain ⟨s', hgrow, -⟩ := bind_eq_ok hround
  -- four bytes were read, and the buffer is full
  cases answer with
  | none => exact absurd (.inl rfl) hlong
  | some text =>
    have htext : text.length ≤ 4 := hfits text rfl
    rw [returned_some] at hlong hgrow
    unfold maxBufSize at hlong
    have hfour : (text.length : Int) = 4 := by omega
    have hsmall := h.small
    have hpos := h.read
    refine absurd hgrow (grow_unmapped (b := b) (n := 4 * (k + 1)) ?_ ?_ ?_ ?_ ?_ s')
    · dsimp only
      rw [h.space, hfour]
      rfl
    · exact h.gone
    · exact h.data
    · dsimp only
      rw [h.total, hfour]
      push_cast
      omega
    · rw [toInt_of_lt (by omega) (by omega)]
      omega

theorem atRound_start (U : Unspecified) (m : Mem) (input : σ) : AtRound U m 0 [] (readlineStart U m input) :=
  ⟨⟨rfl, rfl, rfl, by decide⟩, rfl, rfl, rfl, rfl, rfl⟩

theorem grow_input (h : grow U s = .ok s') : s'.input = s.input := by
  unfold grow at h
  split at h
  · dsimp only at h
    obtain ⟨⟨newData, mem⟩, -, h⟩ := bind_eq_ok h
    obtain ⟨⟨dest, mem'⟩, -, h⟩ := bind_eq_ok h
    obtain ⟨freed, -, h⟩ := bind_eq_ok h
    cases h
    rfl
  · cases h
    rfl

/-- A round takes the answer of one `read`. -/
theorem round_input {r : Round σ} (h : readlineRound U read s = .ok r) :
    ∃ s', (r = .leave s' ∨ r = .again s') ∧ s'.input = (readBuffer read s).2 := by
  unfold readlineRound at h
  generalize readBuffer read s = x at h ⊢
  obtain ⟨answer, input⟩ := x
  dsimp only at h ⊢
  obtain ⟨mem, -, h⟩ := bind_eq_ok h
  split at h
  · cases h
    exact ⟨_, .inl rfl, rfl⟩
  · obtain ⟨⟨last, mem'⟩, -, h⟩ := bind_eq_ok h
    dsimp only at h
    split at h
    · cases h
      exact ⟨_, .inl rfl, rfl⟩
    · obtain ⟨s', hgrow, h⟩ := bind_eq_ok h
      cases h
      exact ⟨s', .inr rfl, grow_input hgrow⟩

end Rounds

end Sbunix.Libc
