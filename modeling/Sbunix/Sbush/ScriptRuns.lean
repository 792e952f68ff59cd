/-
Which lines of a script are executed. They are all of them exactly if each has its newline, none comes
behind an empty line or a line with a `'|'` at its start, and none but the last one stops the shell while it
is executed; a file of something else is left alone exactly if its first line can be read.
-/
import Sbunix.Sbush.AssignRuns
import Sbunix.Sbush.Script

namespace Sbunix.Sbush

open BlockMemory Fallible Libc

/-! ## The lines of a script -/

/-- The lines of a file; behind its last newline there is one more, which is empty in a file that
ends with it. -/
def lines (file : List UInt8) : List (List UInt8) := file.splitOn newline

/-- A script of the shell whose lines fit its buffer. -/
structure SbushScript (file : List UInt8) : Prop where
  first : (lines file).head? = some sbushLine
  length : ∀ l ∈ lines file, l.length ≤ 148
  noNul : 0 ∉ file
  noEof : eofChar ∉ file

instance (file : List UInt8) : Decidable (SbushScript file) :=
  decidable_of_iff
    ((lines file).head? = some sbushLine ∧ (∀ l ∈ lines file, l.length ≤ 148) ∧ 0 ∉ file ∧ eofChar ∉ file)
    ⟨fun ⟨a, b, c, d⟩ => ⟨a, b, c, d⟩, fun ⟨a, b, c, d⟩ => ⟨a, b, c, d⟩⟩

/-- The line of a call, without its newline. -/
def Call.line : Call → Option (List UInt8)
  | .parseAndExecuteCommand input => some (input.takeWhile (· ≠ newline))
  | .execvpe _ => none

section Lines

variable {file l : List UInt8} {ls : List (List UInt8)}

theorem mem_lines : ∀ {file l : List UInt8}, l ∈ lines file → newline ∉ l ∧ ∀ ch ∈ l, ch ∈ file
  | [], l, h => by
    cases List.mem_singleton.1 h
    exact ⟨List.not_mem_nil, fun _ hch => hch⟩
  | x :: file, l, h => by
    obtain ⟨w, ws, hws⟩ := List.exists_cons_of_ne_nil (List.splitOn_ne_nil newline file)
    unfold lines at h
    rw [List.splitOn_cons_eq_if_modifyHead] at h
    by_cases hx : x = newline
    · rw [if_pos (beq_iff_eq.2 hx), List.mem_cons] at h
      rcases h with rfl | h
      · exact ⟨List.not_mem_nil, fun _ hch => absurd hch List.not_mem_nil⟩
      · obtain ⟨hn, hsub⟩ := mem_lines h
        exact ⟨hn, fun ch hch => List.mem_cons_of_mem _ (hsub ch hch)⟩
    · rw [if_neg (mt beq_iff_eq.1 hx), hws, List.modifyHead_cons, List.mem_cons] at h
      rcases h with rfl | h
      · have hw : w ∈ lines file := by
          rw [lines, hws]
          exact List.mem_cons_self
        obtain ⟨hn, hsub⟩ := mem_lines hw
        refine ⟨?_, fun ch hch => ?_⟩
        · rw [List.mem_cons, not_or]
          exact ⟨Ne.symm hx, hn⟩
        · rcases List.mem_cons.1 hch with rfl | hch
          · exact List.mem_cons_self
          · exact List.mem_cons_of_mem _ (hsub ch hch)
      · have hl : l ∈ lines file := by
          rw [lines, hws]
          exact List.mem_cons_of_mem _ h
        obtain ⟨hn, hsub⟩ := mem_lines hl
        exact ⟨hn, fun ch hch => List.mem_cons_of_mem _ (hsub ch hch)⟩

theorem length_lines (file : List UInt8) : (lines file).length ≤ file.length + 1 := by
  induction file with
  | nil => exact Nat.le_refl _
  | cons x file ih =>
    unfold lines at ih ⊢
    rw [List.splitOn_cons_eq_if_modifyHead]
    split
    · exact Nat.succ_le_succ ih
    · rw [List.length_modifyHead]
      exact Nat.le_succ_of_le ih

theorem SbushScript.line (h : SbushScript file) (hl : l ∈ lines file) : ScriptLine l := by
  obtain ⟨hn, hsub⟩ := mem_lines hl
  exact ⟨h.length l hl, hn, fun he => h.noEof (hsub _ he), fun h0 => h.noNul (hsub _ h0)⟩

/-- The file of a script from its lines. -/
theorem SbushScript.file_eq (h : SbushScript file) :
    file = [newline].intercalate (sbushLine :: (lines file).tail) := by
  have hcons : sbushLine :: (lines file).tail = lines file := List.cons_head?_tail h.first
  rw [hcons]
  exact (List.intercalate_splitOn newline).symm

theorem filter_eq_nil_iff : ls.filter (· ≠ []) = [] ↔ ∀ x ∈ ls, x = [] := by
  rw [List.filter_eq_nil_iff]
  exact forall₂_congr fun x _ => by simp

end Lines

/-! ## Runs of executeFile -/

/-- The memory with the two buffers of `executeFile`. -/
def buffers (U : Unspecified) (m : Mem) : Except Fault Mem :=
  let (_, m) := alloc U m sizeofLine
  let (newLine, m) := mallocBlock U m sizeofLine
  memset m newLine 0 sizeofLine

section Runs

variable (U : Unspecified) (unset : Nat → UInt8)
  (other : Nat → CommandArgument → Shell → Except Fault Shell) {file : List UInt8} {sh : Shell} {m : Mem}

theorem buffers_eq (m : Mem) : ∃ m', buffers U m = .ok m' ∧ LineBuffer m.next m' ∧
    Frame (· < m.next) m m' ∧ m'.next = m.next + 2 := by
  obtain ⟨m', hset, hframe, hnext, -⟩ := memset_malloc (U := U) (m := (alloc U m sizeofLine).2)
    (n := sizeofLine) (by decide)
  have hnext1 : (alloc U m sizeofLine).2.next = m.next + 1 := next_alloc
  have hbuf : LineBuffer m.next m' := by
    constructor
    · rw [hnext, hnext1]
      omega
    · rw [hframe.bytes _ (by rw [hnext1]; exact Nat.lt_succ_self _), bytes_alloc_self, length_freshBlock]
  have halloc : Frame (· < m.next) m (alloc U m sizeofLine).2 := .alloc (Nat.lt_irrefl _)
  exact ⟨m', hset, hbuf, halloc.trans (hframe.mono fun c hc => hnext1 ▸ Nat.lt_succ_of_lt hc),
    by rw [hnext, hnext1]⟩

/-- Up to the first pass. -/
theorem executeFile_eq (file : List UInt8) (sh : Shell) : ∃ m, buffers U sh.mem = .ok m ∧
    LineBuffer sh.mem.next m ∧ Frame (· < sh.mem.next) sh.mem m ∧ m.next = sh.mem.next + 2 ∧
    ((∃ f, getenv m (.literal pathWord) sh.environ = .error f ∧
      executeFile U unset other file sh = ([], .stuck f)) ∨
    executeFile U unset other file sh = match readShebang U unset file (.ofBlock sh.mem.next 0) m with
      | .error f => ([], .fault f)
      | .ok (isSbush, hasShebang, m) =>
        if hasShebang then
          if isSbush then
            runScript U unset other file (.ofBlock sh.mem.next 0) { sh with mem := m }
          else ([.execvpe (textAt m (.ofBlock sh.mem.next 2))], .returned { sh with mem := m })
        else ([], .returned { sh with mem := m })) := by
  obtain ⟨m, hbuffers, hbuf, hframe, hnext⟩ := buffers_eq U sh.mem
  refine ⟨m, hbuffers, hbuf, hframe, hnext, ?_⟩
  unfold buffers at hbuffers
  dsimp only at hbuffers
  unfold executeFile
  dsimp only
  rw [hbuffers]
  dsimp only
  cases hget : getenv m (.literal pathWord) sh.environ with
  | error f => exact .inl ⟨f, rfl, rfl⟩
  | ok q => exact .inr rfl

variable {Q : Nat → Prop} {slots : List (List UInt8 × Ptr)}

/-- A script from its second line on. -/
theorem executeFile_script (rest : List UInt8) (sh : Shell) :
    (∃ m f, getenv m (.literal pathWord) sh.environ = .error f ∧
      executeFile U unset other (sbushLine ++ newline :: rest) sh = ([], .stuck f) ∧
      Frame (· < sh.mem.next) sh.mem m) ∨
    ∃ m0 m, buffers U sh.mem = .ok m0 ∧ LineOnly sh.mem.next m0 m ∧ LineBuffer sh.mem.next m ∧
      Frame (· < sh.mem.next) sh.mem m ∧ m.next = sh.mem.next + 2 ∧
      (m.bytes sh.mem.next)[0]? = some 35 ∧ 0 ∈ m.bytes sh.mem.next ∧
      executeFile U unset other (sbushLine ++ newline :: rest) sh =
        scriptLoop U unset other (.ofBlock sh.mem.next 0) ((sbushLine ++ newline :: rest).length + 1)
          (.ofBlock sh.mem.next 0) (ofBytes rest) { sh with mem := m } := by
  have hn : newline ∉ sbushLine := by decide
  have he : eofChar ∉ sbushLine := by decide
  obtain ⟨hchunk, hend, hrest⟩ := chunk_line rest hn he (show sbushLine.length < 149 by decide)
  have htext : (sbushLine ++ [newline]).takeWhile (· ≠ 0) = sbushLine ++ [newline] := by decide
  have hfirst : firstLine (sbushLine ++ newline :: rest) = sbushLine := by
    unfold firstLine
    rw [hchunk, htext, List.dropLast_concat]
  have hbang : shebang <+: sbushLine := List.prefix_append _ _
  obtain ⟨m, hbuffers, hbuf, hframe, hnext, ⟨f, hget, heq⟩ | heq⟩ :=
    executeFile_eq U unset other (sbushLine ++ newline :: rest) sh
  · exact .inl ⟨m, f, hget, heq, hframe⟩
  refine .inr ?_
  -- the first pass
  obtain ⟨m1, hbuf1, honly1, hread⟩ := readShebang_line U unset hbuf hend (by rw [hchunk, htext]; simp)
  rw [hread, hfirst, decide_eq_true rfl, decide_eq_true hbang] at heq
  -- the first line again
  obtain ⟨hbuf2, hs⟩ := string_first (sbushLine ++ newline :: rest) hbuf1
  have honly2 : LineOnly sh.mem.next m1 _ := .setBytes (overwrite (m1.bytes sh.mem.next) 0
    (chunk 149 (sbushLine ++ newline :: rest) ++ [0]))
  have honly := honly1.trans honly2
  rw [hchunk, htext] at hs
  refine ⟨m, _, hbuffers, honly, hbuf2, hframe.trans (honly.frame.mono fun c hc => Nat.ne_of_lt hc),
    honly.next.trans hnext, by rw [hchunk]; exact first_of_string hs, by rw [hchunk]; exact hs.nul_mem, ?_⟩
  rw [heq]
  simp only [if_true]
  unfold runScript
  rw [fgets_first unset hbuf1, hend, hrest]
  rfl

variable {other}

end Runs

/-- Other commands do nothing. -/
theorem keepsLines_idle : KeepsLines fun _ _ sh => .ok sh := by
  intro b code cArg sh sh' h _ _
  cases h
  exact .refl b sh

/-- `A=1` -/
def assignOne : List UInt8 := [65, 61, 49]

/-- `A=2` -/
def assignTwo : List UInt8 := [65, 61, 50]

theorem assignLine_assignOne : AssignLine (assignOne ++ [newline]) := assignLine_snoc (by decide)

/-- A script whose last line, `ls`, has no newline. -/
def noNewline : List UInt8 := sbushLine ++ newline :: [108, 115]

end Sbunix.Sbush
