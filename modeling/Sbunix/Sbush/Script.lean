/-
Running a script (bin/sbush/sbush.c, executeFile): the first line is read to see whose script it is,
then the file is read again from the start and its lines are executed one by one.

The loop's end is tested on the line that was executed last, in the buffer where the command may have
cut it. A script ends there at its first empty line, at a line that begins with `'|'`, and before a
last line that has no newline.
-/
import Sbunix.Libc.Stdio
import Sbunix.Sbush.LineBuffer

namespace Sbunix.Sbush

open BlockMemory Fallible Libc

/-! ## executeFile -/

/-- `char line[150]` -/
def sizeofLine : Nat := 150

/-- `"#!"` -/
def shebang : List UInt8 := [35, 33]

/-- `"#!rootfs/bin/sbush"` -/
def sbushLine : List UInt8 :=
  shebang ++ [114, 111, 111, 116, 102, 115, 47, 98, 105, 110, 47, 115, 98, 117, 115, 104]

/-- `"PATH"` -/
def pathWord : List UInt8 := [80, 65, 84, 72]

/-- What a script is passed to, with the text found there. -/
inductive Call where
  | parseAndExecuteCommand (input : List UInt8)
  | execvpe (file : List UInt8)

/-- `executeFile` returns, is at fault itself, or is stuck in a function that does not return. -/
inductive Ending where
  | returned (sh : Shell)
  | fault (f : Fault)
  | stuck (f : Fault)

/-- The text at a pointer. -/
def textAt (m : Mem) : Ptr → List UInt8
  | .ofBlock b o => (m.rest b o).takeWhile (· ≠ 0)
  | _ => []

/-- `p[i] = v;`, through NULL for every `i` if `p` is. -/
def storeAt (m : Mem) (p : Ptr) (i : Int) (v : UInt8) : Except Fault Mem :=
  if p = .null then .error .null else store m (p.add i) v

section ExecuteFile

variable (U : Unspecified) (unset : Nat → UInt8)

/-- Whether the first line is the one of sbush, and whether it begins with `#!`. -/
def readShebang (file : List UInt8) (line : Ptr) (m : Mem) : Except Fault (Bool × Bool × Mem) := do
  let (currentLine, m, _) ← fgets unset m line sizeofLine (ofBytes file)
  let (len, m) ← strlen U m currentLine
  let m ← storeAt m currentLine (len - 1) 0
  let isSbush ← strcmp m (.pointer currentLine) (.literal sbushLine)
  let (ch0, m) ← load U m line
  let (ch1, m) ← load U m (line.add 1)
  return (isSbush = 0, [ch0, ch1] = shebang, m)

/-- `currentLine == NULL || strlen(currentLine) == 0 || *currentLine == '\\0' || *currentLine == '\\n'` -/
def isBlank (m : Mem) (currentLine : Ptr) : Except Fault (Bool × Mem) := do
  if currentLine = .null then
    return (true, m)
  let (len, m) ← strlen U m currentLine
  if len = 0 then
    return (true, m)
  let (ch, m) ← load U m currentLine
  return (ch = 0 ∨ ch = newline, m)

/-- `memset(line, '\\0', sizeof(line)); currentLine = fgets(line, sizeof(line), fp1);`, and whether
there is nothing to do. -/
def nextLine (line : Ptr) (m : Mem) (fp1 : Stream) : Except Fault (Bool × Ptr × Mem × Stream) := do
  let m ← memset m line 0 sizeofLine
  let (currentLine, m, fp1) ← fgets unset m line sizeofLine fp1
  let (blank, m) ← isBlank U m currentLine
  return (blank, currentLine, m, fp1)

variable (other : Nat → CommandArgument → Shell → Except Fault Shell)

/-- `while(1)`, for so many rounds. -/
def scriptLoop (line : Ptr) : Nat → Ptr → Stream → Shell → List Call × Ending
  | 0, _, _, _ => ([], .fault .outOfFuel)
  | rounds + 1, currentLine, fp1, sh =>
    match isBlank U sh.mem currentLine with
    | .error f => ([], .fault f)
    | .ok (true, m) => ([], .returned { sh with mem := m })
    | .ok (false, m) =>
      match nextLine U unset line m fp1 with
      | .error f => ([], .fault f)
      | .ok (true, currentLine, m, fp1) =>
        scriptLoop line rounds currentLine fp1 { sh with mem := m }
      | .ok (false, currentLine, m, fp1) =>
        let call := Call.parseAndExecuteCommand (textAt m currentLine)
        match parseAndExecuteCommand U other currentLine { sh with mem := m } with
        | .error f => ([call], .stuck f)
        | .ok sh =>
          let (calls, ending) := scriptLoop line rounds currentLine fp1 sh
          (call :: calls, ending)

/-- The second pass over the file. Each round but the last reads a byte of it at least. -/
def runScript (file : List UInt8) (line : Ptr) (sh : Shell) : List Call × Ending :=
  match fgets unset sh.mem line sizeofLine (ofBytes file) with
  | .error f => ([], .fault f)
  | .ok (currentLine, m, fp1) =>
    scriptLoop U unset other line (file.length + 1) currentLine fp1 { sh with mem := m }

/-- What the script of another shell does once it is started is not part of the calls. The blocks that `fopen`
takes for a `FILE` are left out: nothing reads them, and the field `next` of the blocks that follow is that of
`newLine`, 0, without them too. -/
def executeFile (file : List UInt8) (sh : Shell) : List Call × Ending :=
  let (line, m) := alloc U sh.mem sizeofLine
  let (newLine, m) := mallocBlock U m sizeofLine
  match memset m newLine 0 sizeofLine with
  | .error f => ([], .fault f)
  | .ok m =>
    match getenv m (.literal pathWord) sh.environ with
    | .error f => ([], .stuck f)
    | .ok _ =>
      match readShebang U unset file line m with
      | .error f => ([], .fault f)
      | .ok (isSbush, hasShebang, m) =>
        if hasShebang then
          if isSbush then runScript U unset other file line { sh with mem := m }
          else ([.execvpe (textAt m (line.add 2))], .returned { sh with mem := m })
        else ([], .returned { sh with mem := m })

end ExecuteFile

/-! ## One round -/

section Round

variable (U : Unspecified) (unset : Nat → UInt8) {m : Mem} {b : Nat} {ch : UInt8} {l : List UInt8}

/-- The shell with its line in block `b`. -/
structure LineBuffer (b : Nat) (m : Mem) : Prop where
  block : b < m.next
  length : (m.bytes b).length = sizeofLine

/-- Nothing but the line's block has changed. -/
def LineOnly (b : Nat) (m m' : Mem) : Prop := ∀ l, m'.setBytes b l = m.setBytes b l

theorem LineOnly.next {m' : Mem} (h : LineOnly b m m') : m'.next = m.next := by
  simpa using congrArg Mem.next (h [])

theorem LineOnly.frame {m' : Mem} (h : LineOnly b m m') : Frame (· ≠ b) m m' where
  next_le := Nat.le_of_eq h.next.symm
  bytes c hc := by
    have hbytes := congrArg (Mem.bytes · c) (h [])
    simpa only [Mem.bytes_setBytes_ne hc] using hbytes
  stray c _ := by
    have hstray : (m'.setBytes b []).strayOf c = (m.setBytes b []).strayOf c := by rw [h []]
    exact hstray

theorem LineOnly.trans {m' m'' : Mem} (h : LineOnly b m m') (h' : LineOnly b m' m'') :
    LineOnly b m m'' :=
  fun l => (h' l).trans (h l)

theorem LineOnly.setBytes (l : List UInt8) : LineOnly b m (m.setBytes b l) :=
  fun _ => Mem.setBytes_setBytes l

theorem LineBuffer.setBytes (h : LineBuffer b m) {l : List UInt8} (hl : l.length = sizeofLine) :
    LineBuffer b (m.setBytes b l) :=
  ⟨by rw [Mem.next_setBytes]; exact h.block, by rw [Mem.bytes_setBytes_self h.block]; exact hl⟩

theorem isString_takeWhile : ∀ (w r : List UInt8), IsString (w ++ 0 :: r) (w.takeWhile (· ≠ 0))
  | [], r => isString_append List.not_mem_nil r
  | ch :: w, r => by
    by_cases h : ch = 0
    · rw [List.takeWhile_cons_of_neg (by simpa using h), h]
      exact isString_append List.not_mem_nil _
    · obtain ⟨h0, hp⟩ := isString_takeWhile w r
      rw [List.takeWhile_cons_of_pos (by simpa using h)]
      constructor
      · rw [List.mem_cons, not_or]
        exact ⟨Ne.symm h, h0⟩
      · exact List.cons_prefix_cons.2 ⟨rfl, hp⟩

/-- The first character of a line that ends in its buffer tells whether it is blank. -/
theorem isBlank_first (hch : (m.bytes b)[0]? = some ch) (hnul : 0 ∈ m.bytes b) :
    isBlank U m (.ofBlock b 0) = .ok (decide (ch = 0 ∨ ch = newline), m) := by
  obtain ⟨w, r, hw⟩ := List.append_of_mem hnul
  have hs : m.StringAt b 0 (w.takeWhile (· ≠ 0)) := Mem.stringAt_of_bytes hw (isString_takeWhile w r)
  have hempty : (w.takeWhile (· ≠ 0)).length = 0 ↔ ch = 0 := by
    rw [hw] at hch
    cases w with
    | nil =>
      cases hch
      exact iff_of_true rfl rfl
    | cons x w =>
      cases hch
      by_cases h0 : ch = 0
      · simp [h0]
      · simp [h0]
  unfold isBlank
  rw [if_neg (by simp), strlen_start (U := U) hs]
  simp only [ok_bind]
  by_cases h0 : (w.takeWhile (· ≠ 0)).length = 0
  · rw [if_pos h0, decide_eq_true (.inl (hempty.1 h0))]
    rfl
  · have hin : m.Inside b 0 :=
      ⟨Int.le_refl 0, Int.natCast_pos.2 (List.getElem?_eq_some_iff.1 hch).1⟩
    have hread : m.read U b 0 = ch := by
      rw [Mem.read, if_pos hin, List.getD_eq_getElem?_getD]
      exact congrArg (·.getD 0) hch
    rw [if_neg h0, load, hread, Mem.noted_inside hin]
    rfl

/-- The line is cleared, and the next one read into it. -/
theorem nextLine_eq (hbuf : LineBuffer b m) {stream stream' : Stream} {currentLine : Ptr} {w : List UInt8}
    (h : ∀ m1 : Mem, LineBuffer b m1 → fgets unset m1 (.ofBlock b 0) sizeofLine stream =
      .ok (currentLine, m1.setBytes b (overwrite (m1.bytes b) 0 w), stream')) :
    nextLine U unset (.ofBlock b 0) m stream = (do
      let (blank, m) ← isBlank U (m.setBytes b (w ++ List.replicate (sizeofLine - w.length) 0)) currentLine
      return (blank, currentLine, m, stream')) := by
  have hset := memset_eq (o := 0) (c := 0) (n := sizeofLine) (by decide) hbuf.block (by
    rw [hbuf.length]
    exact Nat.le_of_eq (Nat.zero_add _))
  have hclear : overwrite (m.bytes b) 0 (List.replicate sizeofLine 0) = List.replicate sizeofLine 0 := by
    unfold overwrite
    rw [List.take_zero, List.nil_append, List.length_replicate, Nat.zero_add, ← hbuf.length,
      List.drop_length, List.append_nil]
  rw [hclear] at hset
  have hbuf1 : LineBuffer b (m.setBytes b (List.replicate sizeofLine 0)) :=
    hbuf.setBytes List.length_replicate
  have hfgets := h _ hbuf1
  rw [Mem.bytes_setBytes_self hbuf.block, Mem.setBytes_setBytes] at hfgets
  have hw' : overwrite (List.replicate sizeofLine 0) 0 w =
      w ++ List.replicate (sizeofLine - w.length) 0 := by
    unfold overwrite
    rw [List.take_zero, List.nil_append, Nat.zero_add, List.drop_replicate]
  rw [hw'] at hfgets
  unfold nextLine
  rw [show memset m (.ofBlock b 0) 0 sizeofLine = _ from hset, ok_bind, hfgets]
  rfl

/-- The line in its buffer, which was cleared before. -/
def lineBytes (l : List UInt8) : List UInt8 := l ++ newline :: List.replicate (sizeofLine - (l.length + 1)) 0

theorem length_lineBytes (h : l.length ≤ 148) : (lineBytes l).length = sizeofLine := by
  rw [lineBytes, List.length_append, List.length_cons, List.length_replicate]
  unfold sizeofLine
  omega

theorem isString_lineBytes (h : l.length ≤ 148) (h0 : 0 ∉ l) : IsString (lineBytes l) (l ++ [newline]) := by
  have hnul : 0 ∉ l ++ [newline] := by
    rw [List.mem_append, List.mem_singleton, not_or]
    exact ⟨h0, by decide⟩
  obtain ⟨k, hk⟩ : ∃ k, sizeofLine - (l.length + 1) = k + 1 :=
    ⟨sizeofLine - (l.length + 2), by unfold sizeofLine; omega⟩
  rw [lineBytes, hk, List.replicate_succ, ← List.singleton_append (l := 0 :: _), ← List.append_assoc]
  exact isString_append hnul _

/-- A line is read whole. -/
theorem nextLine_line (rest : List UInt8) (hbuf : LineBuffer b m) (hl : l.length ≤ 148) (hn : newline ∉ l)
    (he : eofChar ∉ l) (h0 : 0 ∉ l) :
    nextLine U unset (.ofBlock b 0) m (ofBytes (l ++ newline :: rest)) =
      .ok (decide (l = []), .ofBlock b 0, m.setBytes b (lineBytes l), ofBytes rest) := by
  have hsize : (sizeofLine - 1 : Int).toNat = 149 := rfl
  have hfgets : ∀ m1 : Mem, LineBuffer b m1 →
      fgets unset m1 (.ofBlock b 0) sizeofLine (ofBytes (l ++ newline :: rest)) =
        .ok (.ofBlock b 0, m1.setBytes b (overwrite (m1.bytes b) 0 (l ++ [newline, 0])), ofBytes rest) :=
    fun m1 h1 => fgets_line h1.block (by rw [hsize, h1.length]; decide) hn he (by rw [hsize]; omega)
  have hbytes : l ++ [newline, 0] ++ List.replicate (sizeofLine - (l ++ [newline, 0]).length) 0 = lineBytes l := by
    have hk : sizeofLine - (l.length + 1) = sizeofLine - (l.length + 2) + 1 := by
      unfold sizeofLine
      omega
    simp [lineBytes, hk, List.replicate_succ]
  have heq := nextLine_eq U unset hbuf hfgets
  rw [hbytes] at heq
  have hself : (m.setBytes b (lineBytes l)).bytes b = lineBytes l := Mem.bytes_setBytes_self hbuf.block
  have hs : (m.setBytes b (lineBytes l)).StringAt b 0 (l ++ [newline]) :=
    Mem.stringAt_of_bytes hself (isString_lineBytes hl h0)
  -- the first character is the newline exactly if the line is empty
  obtain ⟨ch, hch, hblank⟩ : ∃ ch, (lineBytes l)[0]? = some ch ∧ (ch = 0 ∨ ch = newline ↔ l = []) := by
    cases l with
    | nil => exact ⟨newline, rfl, iff_of_true (.inr rfl) rfl⟩
    | cons ch l =>
      rw [List.mem_cons, not_or] at hn h0
      refine ⟨ch, rfl, iff_of_false ?_ (List.cons_ne_nil _ _)⟩
      rintro (rfl | rfl)
      · exact h0.1 rfl
      · exact hn.1 rfl
  rw [heq, isBlank_first U (hself ▸ hch) hs.nul_mem, decide_eq_decide.2 hblank]
  rfl

/-- A last line without a newline is not there. -/
theorem nextLine_last (hbuf : LineBuffer b m) (hl : l.length ≤ 148) (hn : newline ∉ l)
    (he : eofChar ∉ l) :
    ∃ m', LineOnly b m m' ∧
      nextLine U unset (.ofBlock b 0) m (ofBytes l) = .ok (true, .null, m', ofBytes []) := by
  have hsize : (sizeofLine - 1 : Int).toNat = 149 := rfl
  have hfgets : ∀ m1 : Mem, LineBuffer b m1 → fgets unset m1 (.ofBlock b 0) sizeofLine (ofBytes l) =
      .ok (.null, m1.setBytes b (overwrite (m1.bytes b) 0 (l ++ [0])), ofBytes []) :=
    fun m1 h1 => fgets_last h1.block (by rw [hsize, h1.length]; decide) hn he (by rw [hsize]; omega)
  exact ⟨_, .setBytes _, nextLine_eq U unset hbuf hfgets⟩

theorem textAt_string (h : m.StringAt b 0 l) : textAt m (.ofBlock b 0) = l := by
  show (m.rest b 0).takeWhile _ = l
  rw [show m.rest b 0 = (m.bytes b).drop 0 from rest_eq]
  exact IsString.takeWhile h

end Round

/-! ## The first pass -/

section FirstPass

variable (U : Unspecified) (unset : Nat → UInt8) {m : Mem} {b : Nat} {file : List UInt8}

theorem fgets_first (hbuf : LineBuffer b m) :
    fgets unset m (.ofBlock b 0) sizeofLine (ofBytes file) =
      .ok (if meetsEnd 149 file = true then .null else .ofBlock b 0,
        m.setBytes b (overwrite (m.bytes b) 0 (chunk 149 file ++ [0])), ofBytes (unread 149 file)) := by
  have hsize : (sizeofLine - 1 : Int).toNat = 149 := rfl
  have hfgets := fgets_bytes (o := 0) unset sizeofLine file hbuf.block
    (by rw [hsize, hbuf.length]; decide)
  dsimp only at hfgets
  rw [hsize] at hfgets
  rw [← if_congr (chunk_nil_or_meetsEnd (Nat.succ_ne_zero 148)) rfl rfl]
  exact hfgets

/-- What is compared: the first line up to a NUL, without its last character. -/
def firstLine (file : List UInt8) : List UInt8 := ((chunk 149 file).takeWhile (· ≠ 0)).dropLast

theorem string_first (file : List UInt8) (hbuf : LineBuffer b m) :
    LineBuffer b (m.setBytes b (overwrite (m.bytes b) 0 (chunk 149 file ++ [0]))) ∧
      (m.setBytes b (overwrite (m.bytes b) 0 (chunk 149 file ++ [0]))).StringAt b 0
        ((chunk 149 file).takeWhile (· ≠ 0)) := by
  have hlen : (chunk 149 file).length ≤ 149 := length_chunk_le 149 file
  have hfit : 0 + (chunk 149 file ++ [0]).length ≤ (m.bytes b).length := by
    rw [hbuf.length, List.length_append, List.length_singleton, Nat.zero_add]
    exact Nat.succ_le_succ hlen
  refine ⟨hbuf.setBytes ((length_overwrite hfit).trans hbuf.length), ?_⟩
  apply Mem.stringAt_of_bytes (Mem.bytes_setBytes_self hbuf.block)
  unfold overwrite
  rw [List.drop_zero, List.take_zero, List.nil_append, List.append_assoc]
  exact isString_takeWhile _ _

/-- `currentLine[strlen(currentLine) - 1] = '\0';` -/
theorem storeAt_last {init : List UInt8} {last : UInt8} (hbuf : LineBuffer b m)
    (hs : m.StringAt b 0 (init ++ [last])) :
    ∃ m', storeAt m (.ofBlock b 0) ((init ++ [last]).length - 1 : Int) 0 = .ok m' ∧ LineBuffer b m' ∧
      LineOnly b m m' ∧ m'.StringAt b 0 init := by
  obtain ⟨r, hr⟩ := hs.eq_append
  rw [List.drop_zero] at hr
  have hindex : ((init ++ [last]).length - 1 : Int) = (init.length : Nat) := by simp
  have hi : m.Inside b (init.length : Nat) := by
    constructor
    · omega
    · rw [hr]
      simp
      omega
  have hset : (m.bytes b).set init.length 0 = init ++ 0 :: (0 :: r) := by
    rw [hr]
    simp
  have hnul := hs.noNul
  rw [List.mem_append, not_or] at hnul
  refine ⟨m.setBytes b ((m.bytes b).set init.length 0), ?_, ?_, .setBytes _, ?_⟩
  · unfold storeAt
    rw [if_neg (by simp), hindex, Ptr.add, Int.zero_add, store_inside hi, Int.toNat_natCast]
  · exact hbuf.setBytes (List.length_set.trans hbuf.length)
  · apply Mem.stringAt_of_bytes (Mem.bytes_setBytes_self hbuf.block)
    rw [List.drop_zero, hset]
    exact isString_append hnul.1 _

theorem load_inside {o : Nat} (h : o < (m.bytes b).length) :
    load U m (.ofBlock b o) = .ok ((m.bytes b).getD o 0, m) := by
  have hi : m.Inside b o := ⟨by omega, by omega⟩
  rw [load, Mem.noted_inside hi, Mem.read, if_pos hi, Int.toNat_natCast]

theorem first_two {t r : List UInt8} (h : m.bytes b = t ++ 0 :: r) :
    [(m.bytes b).getD 0 0, (m.bytes b).getD 1 0] = shebang ↔ shebang <+: t := by
  unfold shebang
  rw [h]
  cases t with
  | nil => exact iff_of_false (by simp) (by simp)
  | cons ch0 t =>
    cases t with
    | nil => exact iff_of_false (by simp) (by simp)
    | cons ch1 t =>
      simp [List.cons_prefix_cons, eq_comm]

theorem readShebang_line (hbuf : LineBuffer b m) (h : meetsEnd 149 file = false)
    (hnul : (chunk 149 file).takeWhile (· ≠ 0) ≠ []) :
    ∃ m', LineBuffer b m' ∧ LineOnly b m m' ∧ readShebang U unset file (.ofBlock b 0) m =
      .ok (decide (firstLine file = sbushLine), decide (shebang <+: firstLine file), m') := by
  obtain ⟨hbuf1, hs1⟩ := string_first file hbuf
  have hline : (chunk 149 file).takeWhile (· ≠ 0) = firstLine file ++
      [((chunk 149 file).takeWhile (· ≠ 0)).getLast hnul] := (List.dropLast_append_getLast hnul).symm
  have hlen := strlen_start (U := U) hs1
  rw [hline] at hs1 hlen
  obtain ⟨m2, hstore, hbuf2, honly2, hs2⟩ := storeAt_last hbuf1 hs1
  obtain ⟨r, hr⟩ := hs2.eq_append
  rw [List.drop_zero] at hr
  have hpointer : Source.IsString m2 (.pointer (.ofBlock b 0)) (firstLine file) := ⟨b, 0, rfl, hs2⟩
  have hliteral : Source.IsString m2 (.literal sbushLine) sbushLine := ⟨by decide, rfl⟩
  obtain ⟨d, hd, hiff⟩ := strcmp_string hpointer hliteral
  have h0 := load_inside (U := U) (o := 0) (by rw [hbuf2.length]; decide)
  have h1 := load_inside (U := U) (o := 1) (by rw [hbuf2.length]; decide)
  refine ⟨m2, hbuf2, (LineOnly.setBytes _).trans honly2, ?_⟩
  unfold readShebang
  rw [fgets_first unset hbuf, h]
  simp only [ok_bind, Bool.false_eq_true, if_false]
  rw [hlen, ok_bind]
  dsimp only
  rw [hstore, ok_bind, hd, ok_bind, show load U m2 (.ofBlock b 0) = _ from h0, ok_bind]
  dsimp only
  rw [show load U m2 ((Ptr.ofBlock b 0).add 1) = _ from h1, ok_bind, decide_eq_decide.2 hiff,
    decide_eq_decide.2 (first_two hr)]
  rfl

end FirstPass

/-! ## The loop -/

section Loop

variable (U : Unspecified) (unset : Nat → UInt8)
  (other : Nat → CommandArgument → Shell → Except Fault Shell) {b : Nat} {ch : UInt8} {sh : Shell}

/-- A line of a script. -/
structure ScriptLine (l : List UInt8) : Prop where
  length : l.length ≤ 148
  noNewline : newline ∉ l
  noEof : eofChar ∉ l
  noNul : 0 ∉ l

instance (l : List UInt8) : Decidable (ScriptLine l) :=
  decidable_of_iff (l.length ≤ 148 ∧ newline ∉ l ∧ eofChar ∉ l ∧ 0 ∉ l)
    ⟨fun ⟨a, b, c, d⟩ => ⟨a, b, c, d⟩, fun ⟨a, b, c, d⟩ => ⟨a, b, c, d⟩⟩

/-- The loop ends on a blank line, and leaves the shell as it is. -/
theorem scriptLoop_blank (line : Ptr) (rounds : Nat) (stream : Stream) (hch : (sh.mem.bytes b)[0]? = some ch)
    (hnul : 0 ∈ sh.mem.bytes b) (hblank : ch = 0 ∨ ch = newline) :
    scriptLoop U unset other line (rounds + 1) (.ofBlock b 0) stream sh = ([], .returned sh) := by
  rw [scriptLoop, isBlank_first U hch hnul, decide_eq_true hblank]

/-- The lines that reach the shell, if the last of these has no newline. -/
def reached : List (List UInt8) → List (List UInt8)
  | [] => []
  | [_] => []
  | l :: ls => if l = [] then [] else if l.head? = some pipeChar then [l] else l :: reached ls

theorem reached_cons (l g : List UInt8) (ls : List (List UInt8)) : reached (l :: g :: ls) =
    if l = [] then [] else if l.head? = some pipeChar then [l] else l :: reached (g :: ls) := rfl

/-- The shell with a line in its buffer. -/
def Shell.withLine (b : Nat) (l : List UInt8) (sh : Shell) : Shell :=
  { sh with mem := sh.mem.setBytes b (lineBytes l) }

/-- What a round does with the next line. -/
theorem scriptLoop_line {l : List UInt8} (rest : List UInt8) (rounds : Nat) (hl : ScriptLine l)
    (hbuf : LineBuffer b sh.mem) (hch : (sh.mem.bytes b)[0]? = some ch) (hnul : 0 ∈ sh.mem.bytes b)
    (hblank : ¬ (ch = 0 ∨ ch = newline)) :
    scriptLoop U unset other (.ofBlock b 0) (rounds + 1) (.ofBlock b 0) (ofBytes (l ++ newline :: rest)) sh =
      if l = [] then
        scriptLoop U unset other (.ofBlock b 0) rounds (.ofBlock b 0) (ofBytes rest) (sh.withLine b l)
      else
        match parseAndExecuteCommand U other (.ofBlock b 0) (sh.withLine b l) with
        | .error f => ([.parseAndExecuteCommand (l ++ [newline])], .stuck f)
        | .ok sh =>
          let (calls, ending) :=
            scriptLoop U unset other (.ofBlock b 0) rounds (.ofBlock b 0) (ofBytes rest) sh
          (.parseAndExecuteCommand (l ++ [newline]) :: calls, ending) := by
  have hs : (sh.mem.setBytes b (lineBytes l)).StringAt b 0 (l ++ [newline]) :=
    Mem.stringAt_of_bytes (Mem.bytes_setBytes_self hbuf.block) (isString_lineBytes hl.length hl.noNul)
  rw [scriptLoop, isBlank_first U hch hnul, decide_eq_false hblank]
  simp only [nextLine_line U unset rest hbuf hl.length hl.noNewline hl.noEof hl.noNul]
  by_cases hnil : l = []
  · rw [decide_eq_true hnil, if_pos hnil]
    rfl
  · rw [decide_eq_false hnil, if_neg hnil]
    dsimp only
    rw [textAt_string hs]
    rfl

theorem LineBuffer.withLine {l : List UInt8} (hbuf : LineBuffer b sh.mem) (hl : ScriptLine l) :
    LineBuffer b (sh.withLine b l).mem ∧ (sh.withLine b l).mem.StringAt b 0 (l ++ [newline]) :=
  ⟨hbuf.setBytes (length_lineBytes hl.length),
    Mem.stringAt_of_bytes (Mem.bytes_setBytes_self hbuf.block) (isString_lineBytes hl.length hl.noNul)⟩

theorem first_of_string {m : Mem} {l : List UInt8} (h : m.StringAt b 0 (ch :: l)) :
    (m.bytes b)[0]? = some ch := by
  obtain ⟨r, hr⟩ := h.eq_append
  rw [List.drop_zero] at hr
  rw [hr]
  rfl

/-- A last line without a newline ends the loop. -/
theorem scriptLoop_last {l : List UInt8} (rounds : Nat) (hl : ScriptLine l) (hbuf : LineBuffer b sh.mem)
    (hch : (sh.mem.bytes b)[0]? = some ch) (hnul : 0 ∈ sh.mem.bytes b) (hblank : ¬ (ch = 0 ∨ ch = newline)) :
    ∃ m, LineOnly b sh.mem m ∧ scriptLoop U unset other (.ofBlock b 0) (rounds + 2) (.ofBlock b 0)
      (ofBytes l) sh = ([], .returned { sh with mem := m }) := by
  obtain ⟨m, honly, h⟩ := nextLine_last U unset hbuf hl.length hl.noNewline hl.noEof
  refine ⟨m, honly, ?_⟩
  rw [scriptLoop, isBlank_first U hch hnul, decide_eq_false hblank]
  simp only [h]
  rfl

end Loop

end Sbunix.Sbush
