/-
Reading a stream line by line (libc/fgetc.c, libc/fgets.c). The kernel is asked for one byte at a time;
a byte comes back as a `char` with its sign, so that 0xFF is the end of the file to the caller, and
`fgets` drops what it has read of a line when the file ends in it.
-/
import Sbunix.Libc.String

namespace Sbunix.Libc

open BlockMemory Fallible

/-! ## The functions -/

/-- What a `read` of one byte answers: 1, and the byte, or 0, or -1. -/
inductive ReadOutcome where
  | byte (ch : UInt8)
  | endOfFile
  | error

/-- The answers to come. -/
abbrev Stream := Nat → ReadOutcome

def read (stream : Stream) : ReadOutcome × Stream := (stream 0, fun n => stream (n + 1))

def EOF : Int := -1

/-- A `char` is signed. -/
def charToInt (ch : UInt8) : Int := ch.toInt8.toInt

def intToChar (c : Int) : UInt8 := (Int8.ofInt c).toUInt8

/-- `if (read(fp->fd, &c, 1) == 0) return EOF; return c;`, where `c` is what it was (`unset`) if the
read failed. -/
def fgetc (unset : UInt8) (stream : Stream) : Int × Stream :=
  match read stream with
  | (.byte ch, stream) => (charToInt ch, stream)
  | (.endOfFile, stream) => (EOF, stream)
  | (.error, stream) => (charToInt unset, stream)

/-- `for (size--; size > 0; size--)`, with so many rounds to go: where `ch` stands behind it, and `c`. -/
def fgetsLoop (unset : Nat → UInt8) : Nat → Mem → Ptr → Int → Stream →
    Except Fault (Ptr × Int × Mem × Stream)
  | 0, m, ch, c, stream => .ok (ch, c, m, stream)
  | size + 1, m, ch, _, stream => do
    let (c, stream) := fgetc (unset size) stream
    if c = EOF then
      return (ch, c, m, stream)
    let m ← store m ch (intToChar c)
    if c = charToInt newline then
      return (ch.add 1, c, m, stream)
    fgetsLoop unset size m (ch.add 1) c stream

/-- `c` is only looked at once a byte was stored, which sets it. -/
def fgets (unset : Nat → UInt8) (m : Mem) (s : Ptr) (size : Int) (stream : Stream) :
    Except Fault (Ptr × Mem × Stream) := do
  let (ch, c, m, stream) ← fgetsLoop unset (size - 1).toNat m s 0 stream
  let m ← store m ch 0
  if ch = s ∨ c = EOF then
    return (.null, m, stream)
  return (s, m, stream)

/-! ## Files -/

/-- The reads of a file with these bytes: each of them once, and then the end. -/
def ofBytes (bytes : List UInt8) : Stream := fun n =>
  match bytes[n]? with
  | some ch => .byte ch
  | none => .endOfFile

/-- A byte that reads as the end of the file. -/
def eofChar : UInt8 := 255

/-- What is stored of a file by a `fgets` of at most `n` bytes. -/
def chunk : Nat → List UInt8 → List UInt8
  | 0, _ => []
  | _ + 1, [] => []
  | n + 1, ch :: bytes =>
    if ch = eofChar then [] else if ch = newline then [ch] else ch :: chunk n bytes

/-- Whether it meets the end of the file. -/
def meetsEnd : Nat → List UInt8 → Bool
  | 0, _ => false
  | _ + 1, [] => true
  | n + 1, ch :: bytes => if ch = eofChar then true else if ch = newline then false else meetsEnd n bytes

/-- What it leaves. -/
def unread : Nat → List UInt8 → List UInt8
  | 0, bytes => bytes
  | _ + 1, [] => []
  | n + 1, ch :: bytes => if ch = eofChar then bytes else if ch = newline then bytes else unread n bytes

section Reading

variable {U : Unspecified} {unset : Nat → UInt8} {m : Mem} {b o n : Nat} {ch : UInt8}
  {bytes line rest : List UInt8}

theorem fgetc_cons (u : UInt8) : fgetc u (ofBytes (ch :: bytes)) = (charToInt ch, ofBytes bytes) := rfl

theorem fgetc_nil (u : UInt8) : fgetc u (ofBytes []) = (EOF, ofBytes []) := rfl

theorem intToChar_charToInt : intToChar (charToInt ch) = ch := by
  unfold intToChar charToInt
  rw [Int8.ofInt_toInt, UInt8.toUInt8_toInt8]

theorem charToInt_eq_iff {c : UInt8} : charToInt ch = charToInt c ↔ ch = c := by
  constructor
  · intro h
    have hback := congrArg intToChar h
    rwa [intToChar_charToInt, intToChar_charToInt] at hback
  · exact congrArg charToInt

theorem charToInt_eq_EOF : charToInt ch = EOF ↔ ch = eofChar :=
  show charToInt ch = charToInt eofChar ↔ ch = eofChar from charToInt_eq_iff

theorem length_chunk_le : ∀ (n : Nat) (bytes : List UInt8), (chunk n bytes).length ≤ n
  | 0, _ => Nat.zero_le _
  | _ + 1, [] => Nat.zero_le _
  | n + 1, ch :: bytes => by
    unfold chunk
    split
    · exact Nat.zero_le _
    · split
      · exact Nat.succ_le_succ (Nat.zero_le n)
      · exact Nat.succ_le_succ (length_chunk_le n bytes)

section Rounds

variable {c c' : Int} {stream stream' : Stream}

/-- A round that has the end of the file stores nothing. -/
theorem fgetsLoop_end (h : fgetc (unset n) stream = (c', stream')) (he : c' = EOF) (hb : b < m.next) :
    fgetsLoop unset (n + 1) m (.ofBlock b o) c stream =
      .ok (.ofBlock b o, c', m.setBytes b (overwrite (m.bytes b) o []), stream') := by
  rw [overwrite_nil, setBytes_bytes hb, fgetsLoop, h]
  exact if_pos he

/-- A newline is stored and is the last character. -/
theorem fgetsLoop_newline (h : fgetc (unset n) stream = (c', stream')) (he : c' ≠ EOF)
    (hn : c' = charToInt newline) (hlt : o < (m.bytes b).length) :
    fgetsLoop unset (n + 1) m (.ofBlock b o) c stream =
      .ok (.ofBlock b (o + 1 : Nat), c', m.setBytes b (overwrite (m.bytes b) o [intToChar c']), stream') := by
  have hi : m.Inside b o := ⟨by omega, by omega⟩
  rw [fgetsLoop, h]
  dsimp only
  rw [if_neg he, store_inside hi, ok_bind, if_pos hn, Int.toNat_natCast, ← overwrite_cons hlt, overwrite_nil]
  rfl

/-- Any other character is stored in front of what the rounds behind it store. -/
theorem fgetsLoop_store {text : List UInt8} {last : Int} {rest : Stream}
    (h : fgetc (unset n) stream = (c', stream')) (he : c' ≠ EOF) (hn : c' ≠ charToInt newline)
    (hb : b < m.next) (hlt : o < (m.bytes b).length)
    (hloop : ∀ m', m' = m.setBytes b ((m.bytes b).set o (intToChar c')) →
      fgetsLoop unset n m' (.ofBlock b (o + 1 : Nat)) c' stream' =
        .ok (.ofBlock b (o + 1 + text.length : Nat), last, m'.setBytes b (overwrite (m'.bytes b) (o + 1) text), rest)) :
    fgetsLoop unset (n + 1) m (.ofBlock b o) c stream =
      .ok (.ofBlock b (o + (intToChar c' :: text).length : Nat), last,
        m.setBytes b (overwrite (m.bytes b) o (intToChar c' :: text)), rest) := by
  have hi : m.Inside b o := ⟨by omega, by omega⟩
  have hrest := hloop _ rfl
  rw [Mem.bytes_setBytes_self hb, overwrite_cons hlt, setBytes_setBytes, Nat.add_assoc, Nat.add_comm 1] at hrest
  rw [fgetsLoop, h]
  dsimp only
  rw [if_neg he, store_inside hi, ok_bind, if_neg hn, Int.toNat_natCast, List.length_cons]
  exact hrest

/-- The block is as long as before, and there is room for one byte less. -/
theorem room_after_store (ch : UInt8) (hb : b < m.next) (hl : o + (n + 1) ≤ (m.bytes b).length) :
    b < (m.setBytes b ((m.bytes b).set o ch)).next ∧
      o + 1 + n ≤ ((m.setBytes b ((m.bytes b).set o ch)).bytes b).length := by
  rw [Mem.next_setBytes, Mem.bytes_setBytes_self hb, List.length_set]
  exact ⟨hb, by omega⟩

end Rounds

/-- The loop on a file: where it stops, and that `c` tells whether it met the end. -/
theorem fgetsLoop_bytes : ∀ (n : Nat) (bytes : List UInt8) {m : Mem} {o : Nat} {c : Int},
    b < m.next → o + n ≤ (m.bytes b).length → c ≠ EOF →
    ∃ c', fgetsLoop unset n m (.ofBlock b o) c (ofBytes bytes) =
        .ok (.ofBlock b (o + (chunk n bytes).length : Nat), c',
          m.setBytes b (overwrite (m.bytes b) o (chunk n bytes)), ofBytes (unread n bytes)) ∧
      (c' = EOF ↔ meetsEnd n bytes = true)
  | 0, bytes, m, o, c, hb, _, hc => by
    refine ⟨c, ?_, iff_of_false hc Bool.false_ne_true⟩
    rw [chunk, overwrite_nil, setBytes_bytes hb]
    rfl
  | n + 1, [], m, o, c, hb, _, _ => ⟨EOF, fgetsLoop_end (fgetc_nil _) rfl hb, iff_of_true rfl rfl⟩
  | n + 1, ch :: bytes, m, o, c, hb, hl, _ => by
    have hfgetc : fgetc (unset n) (ofBytes (ch :: bytes)) = (charToInt ch, ofBytes bytes) := fgetc_cons _
    have hlt : o < (m.bytes b).length := by omega
    rw [chunk, unread, meetsEnd]
    by_cases he : ch = eofChar
    · rw [if_pos he, if_pos he, if_pos he]
      exact ⟨charToInt ch, fgetsLoop_end hfgetc (charToInt_eq_EOF.2 he) hb,
        iff_of_true (charToInt_eq_EOF.2 he) rfl⟩
    · have hc : charToInt ch ≠ EOF := mt charToInt_eq_EOF.1 he
      rw [if_neg he, if_neg he, if_neg he]
      by_cases hn : ch = newline
      · have hloop := fgetsLoop_newline (c := c) hfgetc hc (charToInt_eq_iff.2 hn) hlt
        rw [intToChar_charToInt] at hloop
        rw [if_pos hn, if_pos hn, if_pos hn]
        exact ⟨charToInt ch, hloop, iff_of_false hc Bool.false_ne_true⟩
      · obtain ⟨hb', hl'⟩ := room_after_store (intToChar (charToInt ch)) hb hl
        obtain ⟨c', hrest, hc'⟩ := fgetsLoop_bytes n bytes hb' hl' hc
        have hloop := fgetsLoop_store (c := c) hfgetc hc (mt charToInt_eq_iff.1 hn) hb hlt (by
          rintro m' rfl
          exact hrest)
        rw [intToChar_charToInt] at hloop
        rw [if_neg hn, if_neg hn, if_neg hn]
        exact ⟨c', hloop, hc'⟩

/-- What the loop stored gets a NUL behind it; the answer is NULL if that is nothing, or `c` the end. -/
theorem fgets_of_loop {text : List UInt8} {size c : Int} {stream stream' : Stream} (hb : b < m.next)
    (hfit : o + text.length < (m.bytes b).length)
    (hloop : fgetsLoop unset (size - 1).toNat m (.ofBlock b o) 0 stream =
      .ok (.ofBlock b (o + text.length : Nat), c, m.setBytes b (overwrite (m.bytes b) o text), stream')) :
    fgets unset m (.ofBlock b o) size stream =
      .ok (if text = [] ∨ c = EOF then .null else .ofBlock b o,
        m.setBytes b (overwrite (m.bytes b) o (text ++ [0])), stream') := by
  have hbytes := Mem.bytes_setBytes_self (l := overwrite (m.bytes b) o text) hb
  have hsame : (overwrite (m.bytes b) o text).length = (m.bytes b).length :=
    length_overwrite (Nat.le_of_lt hfit)
  have hi : (m.setBytes b (overwrite (m.bytes b) o text)).Inside b (o + text.length : Nat) := by
    constructor
    · omega
    · rw [hbytes, hsame]
      omega
  have hset : (overwrite (m.bytes b) o text).set (o + text.length) 0 = overwrite (m.bytes b) o (text ++ [0]) := by
    rw [← overwrite_append (Nat.le_of_lt hfit), ← overwrite_cons (by rw [hsame]; exact hfit), overwrite_nil]
  have hstart : (Ptr.ofBlock b (o + text.length : Nat) = .ofBlock b o ∨ c = EOF) ↔ (text = [] ∨ c = EOF) := by
    refine or_congr ?_ Iff.rfl
    rw [Ptr.ofBlock.injEq, ← List.length_eq_zero_iff]
    omega
  unfold fgets
  rw [hloop]
  simp only [ok_bind]
  rw [store_inside hi, ok_bind, hbytes, setBytes_setBytes, Int.toNat_natCast, hset]
  by_cases h : text = [] ∨ c = EOF
  · rw [if_pos (hstart.2 h), if_pos h]
    rfl
  · rw [if_neg (mt hstart.1 h), if_neg h]
    rfl

/-- `fgets` on a file: what it read stands in the buffer as a string, and it is NULL if that is
nothing or the file ended in it. -/
theorem fgets_bytes (unset : Nat → UInt8) (size : Int) (bytes : List UInt8) (hb : b < m.next)
    (hl : o + (size - 1).toNat < (m.bytes b).length) :
    let n := (size - 1).toNat
    fgets unset m (.ofBlock b o) size (ofBytes bytes) =
      .ok (if chunk n bytes = [] ∨ meetsEnd n bytes = true then .null else .ofBlock b o,
        m.setBytes b (overwrite (m.bytes b) o (chunk n bytes ++ [0])), ofBytes (unread n bytes)) := by
  intro n
  have hlen : (chunk n bytes).length ≤ n := length_chunk_le n bytes
  have hfit : o + n < (m.bytes b).length := hl
  have hstart : (0 : Int) ≠ EOF := by decide
  obtain ⟨c', hloop, hc'⟩ := fgetsLoop_bytes n bytes hb (Nat.le_of_lt hfit) hstart
  rw [fgets_of_loop hb (by omega) hloop, if_congr (or_congr Iff.rfl hc') rfl rfl]

/-- Characters that end nothing are read over. -/
theorem chunk_append (hn : newline ∉ line) (he : eofChar ∉ line) (n : Nat) (bytes : List UInt8) :
    chunk (n + line.length) (line ++ bytes) = line ++ chunk n bytes ∧
      meetsEnd (n + line.length) (line ++ bytes) = meetsEnd n bytes ∧
      unread (n + line.length) (line ++ bytes) = unread n bytes := by
  induction line with
  | nil => exact ⟨rfl, rfl, rfl⟩
  | cons ch line ih =>
    rw [List.mem_cons, not_or] at hn he
    obtain ⟨h1, h2, h3⟩ := ih hn.2 he.2
    rw [List.length_cons, ← Nat.add_assoc, List.cons_append, chunk, meetsEnd, unread,
      if_neg (Ne.symm he.1), if_neg (Ne.symm he.1), if_neg (Ne.symm he.1), if_neg (Ne.symm hn.1),
      if_neg (Ne.symm hn.1), if_neg (Ne.symm hn.1), h1]
    exact ⟨rfl, h2, h3⟩

theorem chunk_line (rest : List UInt8) (hn : newline ∉ line) (he : eofChar ∉ line)
    (hl : line.length < n) : chunk n (line ++ newline :: rest) = line ++ [newline] ∧
      meetsEnd n (line ++ newline :: rest) = false ∧ unread n (line ++ newline :: rest) = rest := by
  obtain ⟨k, rfl⟩ : ∃ k, n = k + 1 + line.length := ⟨n - line.length - 1, by omega⟩
  exact chunk_append hn he (k + 1) (newline :: rest)

theorem chunk_last (hn : newline ∉ line) (he : eofChar ∉ line) (hl : line.length < n) :
    chunk n line = line ∧ meetsEnd n line = true ∧ unread n line = [] := by
  obtain ⟨k, rfl⟩ : ∃ k, n = k + 1 + line.length := ⟨n - line.length - 1, by omega⟩
  have h := chunk_append hn he (k + 1) []
  rwa [List.append_nil, chunk, meetsEnd, unread, List.append_nil] at h

/-- A line that fits is read with its newline. -/
theorem fgets_line {size : Int} (hb : b < m.next) (hl : o + (size - 1).toNat < (m.bytes b).length)
    (hn : newline ∉ line) (he : eofChar ∉ line) (hfit : line.length < (size - 1).toNat) :
    fgets unset m (.ofBlock b o) size (ofBytes (line ++ newline :: rest)) =
      .ok (.ofBlock b o, m.setBytes b (overwrite (m.bytes b) o (line ++ [newline, 0])), ofBytes rest) := by
  obtain ⟨h1, h2, h3⟩ := chunk_line rest hn he hfit
  rw [fgets_bytes unset size _ hb hl, h1, h2, h3, if_neg (by simp), List.append_assoc]
  rfl

/-- A last line without a newline is read, and NULL returned. -/
theorem fgets_last {size : Int} (hb : b < m.next) (hl : o + (size - 1).toNat < (m.bytes b).length)
    (hn : newline ∉ line) (he : eofChar ∉ line) (hfit : line.length < (size - 1).toNat) :
    fgets unset m (.ofBlock b o) size (ofBytes line) =
      .ok (.null, m.setBytes b (overwrite (m.bytes b) o (line ++ [0])), ofBytes []) := by
  obtain ⟨h1, h2, h3⟩ := chunk_last hn he hfit
  rw [fgets_bytes unset size _ hb hl, h1, h2, h3, if_pos (.inr rfl)]

/-- What is stored of a file is its beginning. -/
theorem chunk_isPrefix : ∀ (n : Nat) (bytes : List UInt8), chunk n bytes <+: bytes
  | 0, _ => List.nil_prefix
  | _ + 1, [] => List.nil_prefix
  | n + 1, ch :: bytes => by
    unfold chunk
    split
    · exact List.nil_prefix
    · split
      · exact ⟨bytes, rfl⟩
      · exact List.cons_prefix_cons.2 ⟨rfl, chunk_isPrefix n bytes⟩

/-- A character before the end is a newline, or the bytes behind it are read on. -/
theorem meetsEnd_cons {n : Nat} {ch : UInt8} {bytes : List UInt8} (h : meetsEnd (n + 1) (ch :: bytes) = false) :
    ch ≠ eofChar ∧ (ch ≠ newline → meetsEnd n bytes = false) := by
  rw [meetsEnd] at h
  split at h
  · cases h
  · next he => exact ⟨he, fun hn => by rwa [if_neg hn] at h⟩

theorem chunk_ne_nil {n : Nat} (hn : n ≠ 0) (h : meetsEnd n bytes = false) : chunk n bytes ≠ [] := by
  cases n with
  | zero => exact absurd rfl hn
  | succ n =>
    cases bytes with
    | nil => cases h
    | cons ch bytes =>
      rw [chunk, if_neg (meetsEnd_cons h).1]
      split <;> simp

/-- If there is room for a character, nothing is read only at the end. -/
theorem chunk_nil_or_meetsEnd {n : Nat} (hn : n ≠ 0) :
    (chunk n bytes = [] ∨ meetsEnd n bytes = true) ↔ meetsEnd n bytes = true := by
  refine or_iff_right_of_imp fun hnil => ?_
  by_contra h
  exact chunk_ne_nil hn (Bool.not_eq_true _ ▸ h) hnil

end Reading

end Sbunix.Libc
