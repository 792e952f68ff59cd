/-
`cat` (bin/cat/cat.c). The copy ends at the first write that takes less than it is given. The file is
that of `argv[0]`, and crt/crt1.c gives every program the same word.
-/
import Sbunix.Libc.Standard

namespace Sbunix.Bin

open Libc

/-! ## The functions -/

def sizeofBuffer : Nat := 4096

/-- What a `read` answers: bytes, none of them at the end of the file, or -1. -/
inductive Reply where
  | data (bytes : List UInt8)
  | failed

/-- The answers to the reads, one after the other. -/
structure File where
  reply : Nat → Reply
  fits : ∀ i bytes, reply i = .data bytes → bytes.length ≤ sizeofBuffer

/-- The answers to the writes: how many of so many bytes are taken, or -1. -/
structure Sink where
  taken : Nat → Nat → Option Nat
  taken_le : ∀ i n k, taken i n = some k → k ≤ n

/-- What of a text is written, by write `i`. -/
def Sink.write (sink : Sink) (i : Nat) (text : List UInt8) : List UInt8 :=
  text.take ((sink.taken i text.length).getD 0)

section Functions

variable (sink : Sink)

/-- So many rounds at most: the result, how many writes were made, and what they have written. -/
def catLoop (file : File) : Nat → Nat → List UInt8 → List UInt8 → Option (Int × Nat × List UInt8)
  | 0, _, _, _ => none
  | rounds + 1, i, buffer, out =>
    match file.reply i with
    | .failed => some (-1, i, out)
    | .data bytes =>
      if bytes.length > 0 then
        let buffer := overwrite buffer 0 bytes
        let out := out ++ sink.write i (buffer.take bytes.length)
        if sink.taken i bytes.length ≠ some bytes.length then some (-1, i + 1, out)
        else catLoop file rounds (i + 1) (List.replicate sizeofBuffer 0) out
      else some (0, i, out)

def cat (file : File) (rounds : Nat) : Option (Int × Nat × List UInt8) :=
  catLoop sink file rounds 0 (List.replicate sizeofBuffer 0) []

/-- `"Failed to open file for reading\n"` -/
def openMessage : List UInt8 :=
  [70, 97, 105, 108, 101, 100, 32, 116, 111, 32, 111, 112, 101, 110, 32, 102, 105, 108, 101, 32, 102,
    111, 114, 32, 114, 101, 97, 100, 105, 110, 103, 10]

/-- `"Failed to write file to standard output\n"` -/
def writeMessage : List UInt8 :=
  [70, 97, 105, 108, 101, 100, 32, 116, 111, 32, 119, 114, 105, 116, 101, 32, 102, 105, 108, 101, 32,
    116, 111, 32, 115, 116, 97, 110, 100, 97, 114, 100, 32, 111, 117, 116, 112, 117, 116, 10]

/-- What is written to descriptor 1, and what `main` returns. -/
structure Ended where
  out : List UInt8
  status : Int
deriving DecidableEq, Repr

/-- The branch of `main` with a name. -/
def catNamed (openFile : List UInt8 → Option File) (name : List UInt8) (rounds : Nat) : Option Ended :=
  match openFile name with
  | none => some ⟨sink.write 0 openMessage, 1⟩
  | some file => do
    let (result, i, out) ← cat sink file rounds
    if result ≠ 0 then some ⟨out ++ sink.write i writeMessage, 1⟩ else some ⟨out, 1⟩

/-- `argc >= 1` is also true of a call without arguments. -/
def main (openFile : List UInt8 → Option File) (stdin : File) (rounds : Nat) :
    List (List UInt8) → Option Ended
  | [] => do
    let (_, _, out) ← cat sink stdin rounds
    some ⟨out, 1⟩
  | name :: _ => catNamed sink openFile name rounds

/-- `"Makefile"` -/
def makefile : List UInt8 := [77, 97, 107, 101, 102, 105, 108, 101]

/-- `_start` of crt1.c, whatever the kernel has passed to the program. -/
def start (openFile : List UInt8 → Option File) (stdin : File) (rounds : Nat) : Option Ended :=
  main sink openFile stdin rounds [makefile]

end Functions

/-! ## What is copied -/

def File.bytes (file : File) (i : Nat) : List UInt8 :=
  match file.reply i with
  | .data bytes => bytes
  | .failed => []

/-- What the first `n` reads bring. -/
def File.input (file : File) (n : Nat) : List UInt8 := (List.range n).flatMap file.bytes

/-- Read `i` brings something, and all of it is written. -/
def Whole (file : File) (sink : Sink) (i : Nat) : Prop :=
  file.bytes i ≠ [] ∧ sink.taken i (file.bytes i).length = some (file.bytes i).length

/-- How the copy ends in a round. -/
inductive EndsAt (file : File) (sink : Sink) (i : Nat) : Int → Nat → List UInt8 → Prop
  | done : file.reply i = .data [] → EndsAt file sink i 0 i (file.input i)
  | unread : file.reply i = .failed → EndsAt file sink i (-1) i (file.input i)
  | unwritten : file.bytes i ≠ [] → sink.taken i (file.bytes i).length ≠ some (file.bytes i).length →
      EndsAt file sink i (-1) (i + 1) (file.input i ++ sink.write i (file.bytes i))

/-- What a call of `main` may have written: of its file, or of the standard input if it has no argument,
and of a message. -/
def MayWrite (openFile : List UInt8 → Option File) (stdin : File) : List (List UInt8) → List UInt8 → Prop
  | [], out => ∃ n, out <+: stdin.input n
  | name :: _, out =>
    match openFile name with
    | none => out <+: openMessage
    | some file => ∃ n copied message, out = copied ++ message ∧ copied <+: file.input n ∧ message <+: writeMessage

section Copy

variable {file : File} {sink : Sink} {rounds i n w : Nat} {buffer out : List UInt8} {r : Int}

theorem input_succ (file : File) (i : Nat) : file.input (i + 1) = file.input i ++ file.bytes i := by
  simp [File.input, List.range_succ]

theorem reply_of_bytes (h : file.bytes i ≠ []) : file.reply i = .data (file.bytes i) := by
  unfold File.bytes at h ⊢
  cases hr : file.reply i with
  | data bytes => rfl
  | failed => simp [hr] at h

theorem round_cases (file : File) (sink : Sink) (i : Nat) :
    Whole file sink i ∨ ∃ r w out, EndsAt file sink i r w out := by
  by_cases hempty : file.bytes i = []
  · cases hr : file.reply i with
    | failed => exact .inr ⟨_, _, _, .unread hr⟩
    | data bytes =>
      have hbytes : file.bytes i = bytes := by simp [File.bytes, hr]
      rw [← hbytes, hempty] at hr
      exact .inr ⟨_, _, _, .done hr⟩
  · by_cases hw : sink.taken i (file.bytes i).length = some (file.bytes i).length
    · exact .inl ⟨hempty, hw⟩
    · exact .inr ⟨_, _, _, .unwritten hempty hw⟩

/-- What was in the buffer does not matter. -/
theorem catLoop_data (h : file.bytes i ≠ []) : catLoop sink file (rounds + 1) i buffer out =
    if sink.taken i (file.bytes i).length ≠ some (file.bytes i).length then
      some (-1, i + 1, out ++ sink.write i (file.bytes i))
    else catLoop sink file rounds (i + 1) (List.replicate sizeofBuffer 0) (out ++ sink.write i (file.bytes i)) := by
  have hpos : (file.bytes i).length > 0 := List.length_pos_iff.2 h
  have htake : (overwrite buffer 0 (file.bytes i)).take (file.bytes i).length = file.bytes i := by
    simp [overwrite]
  rw [catLoop, reply_of_bytes h]
  dsimp only
  rw [if_pos hpos, htake]

theorem catLoop_whole (h : Whole file sink i) : catLoop sink file (rounds + 1) i buffer (file.input i) =
    catLoop sink file rounds (i + 1) (List.replicate sizeofBuffer 0) (file.input (i + 1)) := by
  obtain ⟨hne, htaken⟩ := h
  have hwrite : sink.write i (file.bytes i) = file.bytes i := by simp [Sink.write, htaken]
  rw [catLoop_data hne, if_neg (not_not.2 htaken), hwrite, input_succ]

theorem catLoop_ends (h : EndsAt file sink i r w out) :
    catLoop sink file (rounds + 1) i buffer (file.input i) = some (r, w, out) := by
  cases h with
  | done hr => simp [catLoop, hr]
  | unread hr => simp [catLoop, hr]
  | unwritten hne htaken => rw [catLoop_data hne, if_pos htaken]

theorem EndsAt.not_whole (h : EndsAt file sink i r w out) : ¬ Whole file sink i := by
  rintro ⟨hne, htaken⟩
  cases h with
  | done hr => simp [File.bytes, hr] at hne
  | unread hr => simp [File.bytes, hr] at hne
  | unwritten _ hshort => exact hshort htaken

/-- By induction on the rounds: those before the last one are whole. -/
theorem catLoop_iff : catLoop sink file rounds i buffer (file.input i) = some (r, w, out) ↔
    ∃ n, i ≤ n ∧ n < i + rounds ∧ (∀ j, i ≤ j → j < n → Whole file sink j) ∧
      EndsAt file sink n r w out := by
  induction rounds generalizing i buffer with
  | zero =>
    constructor
    · intro h
      cases h
    · rintro ⟨n, hle, hlt, -⟩
      omega
  | succ rounds ih =>
    rcases round_cases file sink i with hwhole | ⟨r', w', out', hend⟩
    · rw [catLoop_whole hwhole, ih]
      constructor
      · rintro ⟨n, hle, hlt, hbefore, hend⟩
        refine ⟨n, by omega, by omega, ?_, hend⟩
        intro j hj hjn
        rcases Nat.eq_or_lt_of_le hj with rfl | hlt
        · exact hwhole
        · exact hbefore j hlt hjn
      · rintro ⟨n, hle, hlt, hbefore, hend⟩
        rcases Nat.eq_or_lt_of_le hle with rfl | hin
        · exact absurd hwhole hend.not_whole
        · exact ⟨n, hin, by omega, fun j hj => hbefore j (by omega), hend⟩
    · have hlast : catLoop sink file 1 i buffer (file.input i) = some (r', w', out') := catLoop_ends hend
      rw [catLoop_ends hend]
      constructor
      · intro h
        cases h
        exact ⟨i, Nat.le_refl i, by omega, fun j hj hji => by omega, hend⟩
      · rintro ⟨n, hle, hlt, hbefore, hend'⟩
        rcases Nat.eq_or_lt_of_le hle with rfl | hin
        · rw [← hlast, catLoop_ends hend']
        · exact absurd (hbefore i (Nat.le_refl i) hin) hend.not_whole

theorem cat_iff : cat sink file rounds = some (r, w, out) ↔
    ∃ n < rounds, (∀ j < n, Whole file sink j) ∧ EndsAt file sink n r w out := by
  have h : catLoop sink file rounds 0 (List.replicate sizeofBuffer 0) (file.input 0) = some (r, w, out) ↔ _ :=
    catLoop_iff
  simpa [cat, File.input] using h

theorem EndsAt.wrote (h : EndsAt file sink i r w out) : ∃ n, out <+: file.input n := by
  cases h with
  | done => exact ⟨i, List.prefix_rfl⟩
  | unread => exact ⟨i, List.prefix_rfl⟩
  | unwritten =>
    refine ⟨i + 1, ?_⟩
    rw [input_succ, List.prefix_append_right_inj]
    exact List.take_prefix _ _

theorem EndsAt.zero_iff (h : EndsAt file sink i r w out) :
    r = 0 ↔ file.reply i = .data [] ∧ out = file.input i := by
  cases h with
  | done hr => simp [hr]
  | unread hr => simp [hr]
  | unwritten hne =>
    refine iff_of_false (by simp) ?_
    rintro ⟨hr, -⟩
    simp [File.bytes, hr] at hne

/-- The first round that is not whole is the last one. -/
theorem cat_returns (h : ¬ Whole file sink n) : ∃ rounds result, cat sink file rounds = some result := by
  classical
  have hex : ∃ n, ¬ Whole file sink n := ⟨n, h⟩
  have hbefore : ∀ j < Nat.find hex, Whole file sink j := fun j hj => not_not.1 (Nat.find_min hex hj)
  rcases round_cases file sink (Nat.find hex) with hwhole | ⟨r, w, out, hend⟩
  · exact absurd hwhole (Nat.find_spec hex)
  · exact ⟨Nat.find hex + 1, (r, w, out), cat_iff.2 ⟨_, by omega, hbefore, hend⟩⟩

/-- What is written behind the file is a part of the message. -/
theorem catNamed_ends {openFile : List UInt8 → Option File} {name : List UInt8} {ended : Ended}
    (hopen : openFile name = some file) (h : catNamed sink openFile name rounds = some ended) :
    ended.status = 1 ∧ ∃ n out message, ended.out = out ++ message ∧ out <+: file.input n ∧
      message <+: writeMessage := by
  unfold catNamed at h
  rw [hopen] at h
  obtain ⟨⟨r, w, out⟩, hcat, h⟩ := Option.bind_eq_some_iff.1 h
  obtain ⟨n, -, -, hend⟩ := cat_iff.1 hcat
  obtain ⟨m, hwrote⟩ := hend.wrote
  dsimp only at h
  split at h
  · cases h
    exact ⟨rfl, m, out, _, rfl, hwrote, List.take_prefix _ _⟩
  · cases h
    exact ⟨rfl, m, out, [], (List.append_nil out).symm, hwrote, List.nil_prefix⟩

theorem main_ends {openFile : List UInt8 → Option File} {stdin : File} {args : List (List UInt8)} {ended : Ended}
    (h : main sink openFile stdin rounds args = some ended) :
    ended.status = 1 ∧ MayWrite openFile stdin args ended.out := by
  cases args with
  | nil =>
    obtain ⟨⟨r, w, out⟩, hcat, h⟩ := Option.bind_eq_some_iff.1 h
    obtain ⟨n, -, -, hend⟩ := cat_iff.1 hcat
    cases h
    exact ⟨rfl, hend.wrote⟩
  | cons name args =>
    have hnamed : catNamed sink openFile name rounds = some ended := h
    cases hopen : openFile name with
    | none =>
      rw [catNamed, hopen] at hnamed
      cases hnamed
      refine ⟨rfl, ?_⟩
      rw [MayWrite, hopen]
      exact List.take_prefix _ _
    | some file =>
      rw [MayWrite, hopen]
      exact catNamed_ends hopen hnamed

end Copy

/-- However the kernel cuts the file and however much it takes of what is written: nothing is written
that is not in the file, in its order. The result is 0 exactly if the file came to its end and every
write was whole, and then all of it has been copied; the copy goes on for ever exactly if the file has
no end and every write is whole. Whether it has an argument or not, and whether the file opens or not,
`main` returns 1; the program copies the file `Makefile`, whatever it is called with. -/
theorem cat_copies (file : File) (sink : Sink) :
    (∀ rounds r w out, cat sink file rounds = some (r, w, out) →
      (∃ n, out <+: file.input n) ∧ (r = 0 → ∃ n, file.reply n = .data [] ∧ out = file.input n)) ∧
    ((∃ rounds w out, cat sink file rounds = some (0, w, out)) ↔
      ∃ n, file.reply n = .data [] ∧ ∀ i < n, Whole file sink i) ∧
    ((∀ rounds, cat sink file rounds = none) ↔ ∀ i, Whole file sink i) ∧
    (∀ openFile stdin rounds args ended, main sink openFile stdin rounds args = some ended →
      ended.status = 1 ∧ MayWrite openFile stdin args ended.out) ∧
    ∀ openFile stdin rounds ended, openFile makefile = some file →
      start sink openFile stdin rounds = some ended →
      ended.status = 1 ∧ ∃ n out message, ended.out = out ++ message ∧ out <+: file.input n ∧
        message <+: writeMessage := by
  refine ⟨?_, ⟨?_, ?_⟩, ⟨?_, ?_⟩, fun _ _ _ _ _ => main_ends, fun _ _ _ _ => catNamed_ends⟩
  · intro rounds r w out h
    obtain ⟨n, -, -, hend⟩ := cat_iff.1 h
    exact ⟨hend.wrote, fun hr => ⟨n, hend.zero_iff.1 hr⟩⟩
  · rintro ⟨rounds, w, out, h⟩
    obtain ⟨n, -, hbefore, hend⟩ := cat_iff.1 h
    exact ⟨n, (hend.zero_iff.1 rfl).1, hbefore⟩
  · rintro ⟨n, hr, hbefore⟩
    exact ⟨n + 1, n, file.input n, cat_iff.2 ⟨n, by omega, hbefore, .done hr⟩⟩
  · intro h i
    by_contra hnot
    obtain ⟨rounds, result, he⟩ := cat_returns hnot
    rw [h rounds] at he
    cases he
  · intro h rounds
    rw [Option.eq_none_iff_forall_ne_some]
    rintro ⟨r, w, out⟩ he
    obtain ⟨n, -, -, hend⟩ := cat_iff.1 he
    exact hend.not_whole (h n)

end Sbunix.Bin
