/-
Reading a line with `gets` (libc/getchar.c, libc/gets.c). It skips the blanks in front of the line and
answers with where the line ends, not where it begins; `getchar` looks for an error only, and at the end of
the file takes what stands in its `char` for one that was read.
-/
import Mathlib.Data.List.TakeWhile
import Sbunix.Libc.Stdio

namespace Sbunix.Libc

open BlockMemory Fallible

/-! ## gets -/

/-- `LINE_LENGTH` -/
def lineLength : Nat := 1024

/-- `if(rd == -1) return -1; return ch;`, where `ch` is what it was (`unset`) if nothing was read. -/
def getchar (unset : UInt8) : ReadOutcome → Int
  | .byte ch => charToInt ch
  | .endOfFile => charToInt unset
  | .error => -1

/-- A call has returned, and left some of the outcomes, or it waits for the next one. -/
inductive Progress where
  | returned (s : Ptr) (m : Mem) (rest : List ReadOutcome)
  | reading (m : Mem)

/-- `while(rd == ' ' || rd == '\t')`: the first other character. -/
def skipLoop (unset : Nat → UInt8) : List ReadOutcome → Option (Int × List ReadOutcome)
  | [] => none
  | outcome :: outcomes =>
    let rd := getchar (unset outcomes.length) outcome
    if rd = charToInt 32 ∨ rd = charToInt 9 then skipLoop unset outcomes else some (rd, outcomes)

/-- `*s++ = rd; rd = getchar(); ++count;` -/
def copyLoop (unset : Nat → UInt8) : List ReadOutcome → Nat → Mem → Ptr → Int → Except Fault Progress
  | [], _, m, s, rd => do
    let m ← store m s (intToChar rd)
    return .reading m
  | outcome :: outcomes, count, m, s, rd => do
    let m ← store m s (intToChar rd)
    let rd := getchar (unset outcomes.length) outcome
    let count := count + 1
    if rd ≠ charToInt newline ∧ rd ≠ -1 ∧ count ≤ lineLength then
      copyLoop unset outcomes count m (s.add 1) rd
    else do
      let m ← store m (s.add 1) 0
      return .returned (s.add 1) m outcomes

/-- On the outcomes so far; the pointer returned is the one the loop has advanced. -/
def gets (unset : Nat → UInt8) (m : Mem) (s : Ptr) (outcomes : List ReadOutcome) : Except Fault Progress :=
  match skipLoop unset outcomes with
  | none => .ok (.reading m)
  | some (rd, outcomes) =>
    if rd = charToInt newline then do
      let m ← store m s 0
      return .returned .null m outcomes
    else copyLoop unset outcomes 1 m s rd

/-- The bytes the loop stores, and what it leaves if it comes to its end. -/
def copied (unset : Nat → UInt8) :
    List ReadOutcome → Nat → Int → List UInt8 × Option (List ReadOutcome)
  | [], _, rd => ([intToChar rd], none)
  | outcome :: outcomes, count, rd =>
    let next := getchar (unset outcomes.length) outcome
    if next ≠ charToInt newline ∧ next ≠ -1 ∧ count + 1 ≤ lineLength then
      let (text, rest) := copied unset outcomes (count + 1) next
      (intToChar rd :: text, rest)
    else ([intToChar rd], some outcomes)

/-- With these bytes stored from offset `o` of block `b` on. -/
def finish (m : Mem) (b o : Nat) (text : List UInt8) : Option (List ReadOutcome) → Progress
  | some rest => .returned (.ofBlock b (o + text.length : Nat))
      (m.setBytes b (overwrite (m.bytes b) o (text ++ [0]))) rest
  | none => .reading (m.setBytes b (overwrite (m.bytes b) o text))

section Copying

variable {unset : Nat → UInt8} {m : Mem} {b o count : Nat} {outcome : ReadOutcome}
  {outcomes : List ReadOutcome}

/-- The line goes on after this character. -/
def GoesOn (count : Nat) (rd : Int) : Prop := rd ≠ charToInt newline ∧ rd ≠ -1 ∧ count ≤ lineLength

theorem copied_next (unset : Nat → UInt8) {rd : Int}
    (h : GoesOn (count + 1) (getchar (unset outcomes.length) outcome)) :
    copied unset (outcome :: outcomes) count rd =
      (intToChar rd :: (copied unset outcomes (count + 1) (getchar (unset outcomes.length) outcome)).1,
        (copied unset outcomes (count + 1) (getchar (unset outcomes.length) outcome)).2) := if_pos h

theorem copied_last {rd : Int} (h : ¬ GoesOn (count + 1) (getchar (unset outcomes.length) outcome)) :
    copied unset (outcome :: outcomes) count rd = ([intToChar rd], some outcomes) := if_neg h

theorem length_copied_le (unset : Nat → UInt8) : ∀ (outcomes : List ReadOutcome) {count : Nat} (rd : Int),
    count ≤ lineLength → (copied unset outcomes count rd).1.length + count ≤ lineLength + 1
  | [], count, rd, h => by
    show 1 + count ≤ lineLength + 1
    omega
  | outcome :: outcomes, count, rd, h => by
    by_cases hgo : GoesOn (count + 1) (getchar (unset outcomes.length) outcome)
    · have hlen := length_copied_le unset outcomes (getchar (unset outcomes.length) outcome) hgo.2.2
      rw [copied_next unset hgo, List.length_cons]
      omega
    · rw [copied_last hgo, List.length_singleton]
      omega

/-- One byte more in front. -/
theorem finish_cons (hb : b < m.next) (ho : o < (m.bytes b).length) (ch : UInt8) (text : List UInt8)
    (rest : Option (List ReadOutcome)) :
    finish (m.setBytes b ((m.bytes b).set o ch)) b (o + 1) text rest = finish m b o (ch :: text) rest := by
  have hbytes := Mem.bytes_setBytes_self (l := (m.bytes b).set o ch) hb
  cases rest with
  | none =>
    rw [finish, finish, hbytes, setBytes_setBytes, overwrite_cons ho]
  | some rest =>
    rw [finish, finish, hbytes, setBytes_setBytes, overwrite_cons ho, List.cons_append, List.length_cons,
      Nat.add_assoc, Nat.add_comm 1]

/-- The loop stores these bytes one behind the other, and a NUL behind them at its end. -/
theorem copyLoop_eq (unset : Nat → UInt8) : ∀ (outcomes : List ReadOutcome) (count : Nat) {m : Mem} {o : Nat}
    (rd : Int), b < m.next → o + (copied unset outcomes count rd).1.length < (m.bytes b).length →
    copyLoop unset outcomes count m (.ofBlock b o) rd =
      .ok (finish m b o (copied unset outcomes count rd).1 (copied unset outcomes count rd).2)
  | [], count, m, o, rd, hb, hl => by
    have hlt : o < (m.bytes b).length := by omega
    have hi : m.Inside b o := ⟨by omega, by omega⟩
    rw [copyLoop, store_inside hi, ok_bind, Int.toNat_natCast, ← overwrite_nil (l := (m.bytes b).set _ _),
      overwrite_cons hlt]
    rfl
  | outcome :: outcomes, count, m, o, rd, hb, hl => by
    have hlt : o < (m.bytes b).length := by omega
    have hi : m.Inside b o := ⟨by omega, by omega⟩
    have hbytes := Mem.bytes_setBytes_self (l := (m.bytes b).set o (intToChar rd)) hb
    rw [copyLoop, store_inside hi, ok_bind, Int.toNat_natCast]
    dsimp only
    by_cases hgo : GoesOn (count + 1) (getchar (unset outcomes.length) outcome)
    · rw [copied_next unset hgo] at hl ⊢
      rw [List.length_cons] at hl
      have hfit : o + 1 + (copied unset outcomes (count + 1) (getchar (unset outcomes.length) outcome)).1.length <
          ((m.setBytes b ((m.bytes b).set o (intToChar rd))).bytes b).length := by
        rw [hbytes, List.length_set]
        omega
      have hloop := copyLoop_eq unset outcomes (count + 1) _ (by rwa [Mem.next_setBytes]) hfit
      rw [finish_cons hb hlt] at hloop
      exact (if_pos hgo).trans hloop
    · rw [copied_last hgo] at hl ⊢
      rw [List.length_singleton] at hl
      have hi' : (m.setBytes b ((m.bytes b).set o (intToChar rd))).Inside b (o + 1 : Nat) := by
        constructor
        · omega
        · rw [hbytes, List.length_set]
          omega
      refine (if_neg hgo).trans ?_
      refine (congrArg (· >>= _) (store_inside hi')).trans ?_
      rw [ok_bind, ← finish_cons hb hlt, Int.toNat_natCast, ← overwrite_nil (l := List.set _ (o + 1) _),
        overwrite_cons (by rw [hbytes, List.length_set]; omega)]
      rfl

theorem copied_fst (unset : Nat → UInt8) (outcomes : List ReadOutcome) (count : Nat) (rd : Int) :
    ∃ text, (copied unset outcomes count rd).1 = intToChar rd :: text := by
  cases outcomes with
  | nil => exact ⟨[], rfl⟩
  | cons outcome outcomes =>
    by_cases hgo : GoesOn (count + 1) (getchar (unset outcomes.length) outcome)
    · exact ⟨_, congrArg Prod.fst (copied_next unset hgo)⟩
    · exact ⟨[], congrArg Prod.fst (copied_last hgo)⟩

/-- A first character that is not a newline is stored, and the line goes on from it. -/
theorem gets_copies {rd : Int} {rest : List ReadOutcome} (hskip : skipLoop unset outcomes = some (rd, rest))
    (hn : rd ≠ charToInt newline) (hb : b < m.next) (hl : o + lineLength < (m.bytes b).length) :
    gets unset m (.ofBlock b o) outcomes =
      .ok (finish m b o (copied unset rest 1 rd).1 (copied unset rest 1 rd).2) := by
  have hlen := length_copied_le unset rest rd (show 1 ≤ lineLength by decide)
  unfold gets
  rw [hskip]
  dsimp only
  rw [if_neg hn]
  exact copyLoop_eq unset rest 1 rd hb (by omega)

theorem gets_newline {rest : List ReadOutcome} (hskip : skipLoop unset outcomes = some (charToInt newline, rest))
    (hl : o < (m.bytes b).length) : gets unset m (.ofBlock b o) outcomes =
      .ok (.returned .null (m.setBytes b (overwrite (m.bytes b) o [0])) rest) := by
  have hi : m.Inside b o := ⟨by omega, by omega⟩
  unfold gets
  rw [hskip]
  dsimp only
  rw [if_pos rfl, store_inside hi, ok_bind, Int.toNat_natCast, ← overwrite_cons hl, overwrite_nil]
  rfl

end Copying

/-! ## A line of a file -/

/-- `' '` or `'\t'` -/
def blank (ch : UInt8) : Bool := ch = 32 || ch = 9

/-- The bytes read before a newline from the first that is not blank on. -/
def lineText (bytes : List UInt8) : List UInt8 := (bytes.takeWhile (· ≠ newline)).dropWhile blank

/-- The line is returned from its first character that is not blank on, or NULL and an empty string if
there is none, and nothing of it is lost. -/
def ReadsLine (unset : Nat → UInt8) (m : Mem) (b o : Nat) (bytes : List UInt8) : Prop :=
  ∃ r m' rest, gets unset m (.ofBlock b o) (bytes.map .byte) = .ok (.returned r m' (rest.map .byte)) ∧
    r = (if lineText bytes = [] then .null else .ofBlock b o) ∧
    m'.StringAt b o ((lineText bytes).take lineLength) ∧
    ∃ blanks ends, bytes = blanks ++ (lineText bytes).take lineLength ++ ends ++ rest ∧
      (∀ ch ∈ blanks, blank ch = true) ∧ (ends = [] ∨ ends = [newline])

section Lines

variable {unset : Nat → UInt8} {m : Mem} {b o : Nat} {ch : UInt8} {bytes blanks rest : List UInt8}

theorem blank_iff : blank ch = true ↔ charToInt ch = charToInt 32 ∨ charToInt ch = charToInt 9 := by
  rw [charToInt_eq_iff, charToInt_eq_iff]
  unfold blank
  rw [Bool.or_eq_true, decide_eq_true_eq, decide_eq_true_eq]

/-- The blanks at the start of a line. -/
theorem skipLoop_blanks (hblanks : ∀ c ∈ blanks, blank c = true) (outcomes : List ReadOutcome) :
    skipLoop unset (blanks.map .byte ++ outcomes) = skipLoop unset outcomes := by
  induction blanks with
  | nil => rfl
  | cons c blanks ih =>
    rw [List.forall_mem_cons] at hblanks
    refine Eq.trans ?_ (ih hblanks.2)
    exact if_pos (blank_iff.1 hblanks.1)

theorem skipLoop_byte (h : ¬ blank ch = true) (outcomes : List ReadOutcome) :
    skipLoop unset (.byte ch :: outcomes) = some (charToInt ch, outcomes) := if_neg (mt blank_iff.2 h)

theorem lineText_blank (h : blank ch = true) : lineText (ch :: bytes) = lineText bytes := by
  have hn : ch ≠ newline := by
    rintro rfl
    exact absurd h (by decide)
  unfold lineText
  rw [List.takeWhile_cons_of_pos (by simpa using hn), List.dropWhile_cons_of_pos h]

theorem lineText_char (h : ¬ blank ch = true) (hn : ch ≠ newline) : lineText (ch :: bytes) ≠ [] := by
  unfold lineText
  rw [List.takeWhile_cons_of_pos (by simpa using hn), List.dropWhile_cons_of_neg h]
  exact List.cons_ne_nil _ _

theorem lineText_newline : lineText (newline :: bytes) = [] := by
  unfold lineText
  rw [List.takeWhile_cons_of_neg (by simp), List.dropWhile_nil]

/-- Behind the blanks at the start of a line there is the newline, or another character. -/
theorem line_cases (hn : newline ∈ bytes) : ∃ blanks ch rest, bytes = blanks ++ ch :: rest ∧
    (∀ c ∈ blanks, blank c = true) ∧ ¬ blank ch = true ∧ (ch = newline ↔ lineText bytes = []) := by
  induction bytes with
  | nil => exact absurd hn List.not_mem_nil
  | cons c bytes ih =>
    by_cases hblank : blank c = true
    · have hn' : newline ∈ bytes := (List.mem_cons.1 hn).resolve_left fun h => absurd hblank (h ▸ by decide)
      obtain ⟨blanks, ch, rest, rfl, hblanks, hch, htext⟩ := ih hn'
      exact ⟨c :: blanks, ch, rest, rfl, List.forall_mem_cons.2 ⟨hblank, hblanks⟩, hch,
        by rw [lineText_blank hblank, htext]⟩
    · refine ⟨[], c, bytes, rfl, by simp, hblank, ?_⟩
      by_cases hc : c = newline
      · rw [hc]
        exact iff_of_true rfl lineText_newline
      · exact iff_of_false hc (lineText_char hblank hc)

/-- What `gets` meets behind the blanks. -/
theorem skipLoop_line (hblanks : ∀ c ∈ blanks, blank c = true) (hch : ¬ blank ch = true) :
    skipLoop unset ((blanks ++ ch :: rest).map .byte) = some (charToInt ch, rest.map .byte) := by
  rw [List.map_append, skipLoop_blanks hblanks]
  exact skipLoop_byte hch _

/-- A line of blanks. -/
theorem readsLine_blank (hb : b < m.next) (hl : o < (m.bytes b).length) (hn : newline ∈ bytes)
    (h : lineText bytes = []) : ReadsLine unset m b o bytes := by
  obtain ⟨blanks, ch, rest, rfl, hblanks, hch, htext⟩ := line_cases hn
  obtain rfl := htext.2 h
  refine ⟨_, _, rest, gets_newline (skipLoop_line hblanks hch) hl, (if_pos h).symm, ?_, ?_⟩
  · rw [h]
    exact Mem.stringAt_of_bytes (Mem.bytes_setBytes_self hb)
      (isString_overwrite (w := []) (Nat.le_of_lt hl) List.not_mem_nil)
  · rw [h]
    exact ⟨blanks, [newline], by simp, hblanks, .inr rfl⟩

/-- Of any other line the end is returned. -/
theorem not_readsLine (hb : b < m.next) (hl : o + lineLength < (m.bytes b).length) (hn : newline ∈ bytes)
    (h : lineText bytes ≠ []) : ¬ ReadsLine unset m b o bytes := by
  obtain ⟨blanks, ch, rest, rfl, hblanks, hch, htext⟩ := line_cases hn
  have hskip : skipLoop unset ((blanks ++ ch :: rest).map .byte) = some (charToInt ch, rest.map .byte) :=
    skipLoop_line hblanks hch
  have hgets := gets_copies hskip (mt charToInt_eq_iff.1 (mt htext.1 h)) hb hl
  obtain ⟨text, hcopied⟩ := copied_fst unset (rest.map .byte) 1 (charToInt ch)
  rintro ⟨r, m', rest', he, hr, -⟩
  rw [hgets, hcopied] at he
  rw [if_neg h] at hr
  subst hr
  cases hrest : (copied unset (rest.map .byte) 1 (charToInt ch)).2 with
  | none =>
    rw [hrest] at he
    cases he
  | some rest'' =>
    rw [hrest, finish, List.length_cons] at he
    simp only [Except.ok.injEq, Progress.returned.injEq, Ptr.ofBlock.injEq] at he
    omega

end Lines

/-- `gets` does so exactly if only blanks come before the newline: otherwise the pointer it returns is
behind the line. -/
theorem reads_line_iff (unset : Nat → UInt8) {m : Mem} {b o : Nat} {bytes : List UInt8} (hb : b < m.next)
    (hl : o + lineLength < (m.bytes b).length) (hn : newline ∈ bytes) :
    ReadsLine unset m b o bytes ↔ ∀ ch ∈ bytes.takeWhile (· ≠ newline), blank ch = true := by
  rw [← List.dropWhile_eq_nil_iff]
  constructor
  · exact fun h => by_contra fun htext => not_readsLine hb hl hn htext h
  · exact fun htext => readsLine_blank hb (by omega) hn htext

/-- A buffer for the longest line. -/
def longMem : Mem := { blocks := [List.replicate 1025 0], released := [], stray := [] }

theorem longMem_room : 0 + lineLength < (longMem.bytes 0).length := by
  show 0 + 1024 < (List.replicate 1025 (0 : UInt8)).length
  rw [List.length_replicate]
  exact Nat.lt_succ_self 1024

/-- `" \n"` -/
theorem reads_line_blank : ReadsLine (fun _ => 0) longMem 0 0 [32, newline] := by
  refine (reads_line_iff (fun _ => 0) Nat.zero_lt_one longMem_room (by simp)).2 fun ch hch => ?_
  rw [List.mem_singleton.1 (show ch ∈ [32] from hch)]
  rfl

/-- `"a\n"` -/
theorem line_end_returned : ¬ ReadsLine (fun _ => 0) longMem 0 0 [97, newline] :=
  not_readsLine Nat.zero_lt_one longMem_room (by simp) (by decide)

end Sbunix.Libc
