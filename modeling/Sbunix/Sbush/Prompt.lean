/-
The prompt, line after line (bin/sbush/sbush.c): the array `PS1` is a second copy of the variable, made
by the assignment that is the command itself and by no other.
-/
import Sbunix.Sbush.AssignRuns
import Sbunix.Sbush.Script

namespace Sbunix.Sbush

open BlockMemory Fallible Libc Transition

/-- A line of assignments as `fgets` delivers it. -/
structure Assigning (line : List UInt8) : Prop where
  noNul : 0 ∉ line
  newlineLast : NewlineLast line
  single : pipeChar ∉ line
  assigns : ∀ w ∈ assigned line, equalsChar ∈ w

theorem AssignLine.assigning {line : List UInt8} (h : AssignLine line) : Assigning line where
  noNul := h.noNul
  newlineLast := h.newlineLast
  single := h.single
  assigns := h.assigns

theorem Assigning.fits {line : List UInt8} (h : Assigning line) (hf : FitsBuffers line) : AssignLine line where
  noNul := h.noNul
  newlineLast := h.newlineLast
  single := h.single
  fits := hf
  assigns := h.assigns

/-- What the arguments of a line assign, in their order. -/
def argAssignments (line : List UInt8) : List (List UInt8 × List UInt8) :=
  (argWords line).map fun word => (keyOf word, valueOf word)

/-- What `custom_fputs(PS1, stdout)` prints. -/
def promptOf (sh : Shell) : List UInt8 := textAt sh.mem sh.ps1

/-- The prompt once the command itself has assigned, if it is `PS1=..`. -/
def promptAfter (line prompt : List UInt8) : List UInt8 :=
  if keyOf (commandWord line) = ps1Word then valueOf (commandWord line) else prompt

/-- The value of `PS1` after the lines, `initial` without an assignment to it. -/
def lastPS1 (initial : List UInt8) (lines : List (List UInt8)) : List UInt8 :=
  (Slots.lastValue (history lines) ps1Word).getD initial

/-- The last argument that assigns to `PS1`, if any does, gives it the value the prompt has by then. -/
def PromptAgrees (line prompt : List UInt8) : Prop :=
  ∀ value, Slots.lastValue (argAssignments line) ps1Word = some value → value = promptAfter line prompt

/-- The parser reads the line right, its release finds nothing in the allocator's header, and its arguments
leave the prompt what it is. -/
structure KeepsPrompt (U : Unspecified) (sh : Shell) (line : List UInt8) : Prop where
  fits : FitsBuffers line
  clean : ParsesClean U sh.mem.next line
  header : SparesHeader line
  agrees : PromptAgrees line (promptOf sh)

/-- The steps of lines whose arguments leave the prompt what it is. -/
abbrev PromptStep (U : Unspecified) (other : Nat → CommandArgument → Shell → Except Fault Shell) (b : Nat) :
    Shell → List UInt8 → Shell → Prop :=
  Restrict (LineStep U other b) fun sh line _ => KeepsPrompt U sh line

/-- After the lines, with the text `text` in the array. -/
structure Shows (b p : Nat) (slots0 : List (List UInt8 × Ptr)) (lines : List (List UInt8))
    (slots : List (List UInt8 × Ptr)) (text : List UInt8) (sh : Shell) : Prop
    extends ShellAt b p slots sh where
  keysOf : KeysOf slots0 lines slots
  array : sh.mem.StringAt p 0 text

section Prompt

variable {U : Unspecified} {other : Nat → CommandArgument → Shell → Except Fault Shell} {b p : Nat}
  {line l initial prompt : List UInt8} {lines : List (List UInt8)} {sh sh' sh0 : Shell}
  {slots slots0 : List (List UInt8 × Ptr)}

/-! ## One line -/

theorem length_valueOf_le (word : List UInt8) : (valueOf word).length ≤ word.length :=
  ((List.tail_sublist _).trans (List.dropWhile_sublist _)).length_le

theorem isString_shown {key value : List UInt8} (hl : IsString l prompt) (h0 : 0 ∉ value)
    (hfit : value.length < maxPS1Length) :
    IsString (shown key value l) (if key = ps1Word then value else prompt) := by
  unfold shown
  split
  · obtain ⟨k, hk⟩ : ∃ k, maxPS1Length - value.length = k + 1 := ⟨maxPS1Length - value.length - 1, by omega⟩
    rw [hk, List.replicate_succ]
    exact isString_append h0 _
  · exact hl

/-- What the line leaves `PS1` with: its arguments' value, or that of the command, or the one before. -/
theorem lastPS1_snoc : lastPS1 initial (lines ++ [line]) =
    (Slots.lastValue (argAssignments line) ps1Word).getD (promptAfter line (lastPS1 initial lines)) := by
  have hno : ¬ keyOf exportWord = ps1Word := by decide
  unfold lastPS1 promptAfter
  rw [history_snoc, Slots.lastValue_append, assignments, assigned]
  by_cases he : commandWord line = exportWord
  · rw [if_pos he, he, if_neg hno, ← argAssignments]
    rcases Slots.lastValue (argAssignments line) ps1Word with _ | value
    · rfl
    · rfl
  · rw [if_neg he, List.map_cons, Slots.lastValue, ← argAssignments]
    rcases Slots.lastValue (argAssignments line) ps1Word with _ | value
    · by_cases hk : keyOf (commandWord line) = ps1Word
      · rw [if_pos hk, if_pos hk]
        rfl
      · rw [if_neg hk, if_neg hk]
        rfl
    · rfl

/-- The copy is right after the line exactly if the arguments agree with it. -/
theorem promptAfter_iff (h : prompt = lastPS1 initial lines) :
    promptAfter line prompt = lastPS1 initial (lines ++ [line]) ↔ PromptAgrees line prompt := by
  rw [lastPS1_snoc, ← h, PromptAgrees]
  rcases Slots.lastValue (argAssignments line) ps1Word with _ | value
  · simp
  · simp [eq_comm]

theorem Shows.promptOf (h : Shows b p slots0 lines slots prompt sh) : promptOf sh = prompt := by
  rw [Sbush.promptOf, h.prompt]
  exact textAt_string h.array

variable (other) in
/-- A line that the parser reads right changes the prompt as its command says. -/
theorem Shows.step (h : Shows b p slots0 lines slots prompt sh) (hone : slots0.length ≤ 1) (hl : AssignLine line)
    (hc : ParsesClean U sh.mem.next line) (hh : SparesHeader line)
    (hk : keyCount (lines ++ [line]) < environDataSize) (hpage : PageAligned U (sh.mem.next + 1))
    (hs : IsString l line) :
    ∃ sh' slots', parseAndExecuteCommand U other (.ofBlock b 0) { sh with mem := sh.mem.setBytes b l } = .ok sh' ∧
      Shows b p slots0 (lines ++ [line]) slots' (promptAfter line prompt) sh' ∧
      PageAligned U (sh'.mem.next + 1) := by
  have hready := h.fgets hs
  have hn : (sh.mem.setBytes b l).next = sh.mem.next := Mem.next_setBytes
  obtain ⟨sh', he, hd, hshown⟩ := executeSingle_eq (U := U) other hready hl (hn ▸ hc) (h.keysOf.room hone hk)
    hh (hn ▸ hpage)
  have hle : sh.mem.next ≤ sh'.mem.next := hn ▸ hd.frame.next_le
  refine ⟨sh', _, (hl.single_eq hready.line).trans he, ⟨hd.shellAt hready.toShellAt, h.keysOf.lineDone, ?_⟩,
    fun k hk => hpage k (by omega)⟩
  -- filling the line buffer leaves the array alone
  have hbytes : (sh.mem.setBytes b l).bytes p = sh.mem.bytes p := Mem.bytes_setBytes_ne h.apart.symm
  have hfit : (valueOf (commandWord line)).length < maxPS1Length := by
    have h1 : (commandWord line).length < commandLength := hl.fits.command
    have h2 := length_valueOf_le (commandWord line)
    unfold commandLength at h1
    unfold maxPS1Length
    omega
  refine Mem.stringAt_of_bytes hshown ?_
  rw [List.drop_zero, promptAfter]
  refine isString_shown ?_ hl.noNul_value hfit
  show IsString ((sh.mem.setBytes b l).bytes p) prompt
  rw [hbytes]
  exact h.array

/-! ## Runs -/

theorem Shows.of_start (h : ShellAt b p slots0 sh0) (hone : slots0.length ≤ 1)
    (hprompt : sh0.mem.StringAt p 0 initial) : Shows b p slots0 [] slots0 initial sh0 where
  toShellAt := h
  keysOf := .of_start hone
  array := hprompt

theorem Shows.of_run (h0 : ShellAt b p slots0 sh0) (hone : slots0.length ≤ 1)
    (hprompt : sh0.mem.StringAt p 0 initial) (hrun : Run (PromptStep U other b) sh0 lines sh)
    (hl : ∀ line ∈ lines, Assigning line) (hk : keyCount lines < environDataSize)
    (hpage : PageAligned U (sh0.mem.next + 1)) :
    (∃ slots, Shows b p slots0 lines slots (lastPS1 initial lines) sh) ∧ PageAligned U (sh.mem.next + 1) := by
  refine hrun.invariant_steps (fun lines sh => (∀ line ∈ lines, Assigning line) →
    keyCount lines < environDataSize → (∃ slots, Shows b p slots0 lines slots (lastPS1 initial lines) sh) ∧
      PageAligned U (sh.mem.next + 1)) ?_ ?_ hl hk
  · exact fun _ _ => ⟨⟨slots0, .of_start h0 hone hprompt⟩, hpage⟩
  · rintro lines sh line sh' ih ⟨⟨l, hs, -, he⟩, hkeeps⟩ hl hk
    obtain ⟨⟨slots, h⟩, hpage⟩ := ih (fun x hx => hl x (List.mem_append_left _ hx))
      (Nat.lt_of_le_of_lt keyCount_le hk)
    have hagrees := hkeeps.agrees
    rw [h.promptOf] at hagrees
    obtain ⟨sh'', slots', he', h', hpage'⟩ := h.step (U := U) other hone ((hl line (by simp)).fits hkeeps.fits)
      hkeeps.clean hkeeps.header hk hpage hs
    cases he.symm.trans he'
    rw [(promptAfter_iff rfl).2 hagrees] at h'
    exact ⟨⟨slots', h'⟩, hpage'⟩

end Prompt

/-- From a shell with at most one entry in its environment, every run of such lines over fewer than 20 keys
leaves the prompt with the last value of `PS1`. The next line that is read right and released keeps it so
exactly if its arguments agree with the prompt. Blocks are mapped as whole pages. -/
theorem prompt_follows (U : Unspecified) (other : Nat → CommandArgument → Shell → Except Fault Shell) {b p : Nat}
    {slots0 : List (List UInt8 × Ptr)} {initial : List UInt8} {lines : List (List UInt8)} {sh0 sh : Shell}
    (h0 : ShellAt b p slots0 sh0) (hone : slots0.length ≤ 1) (hprompt : sh0.mem.StringAt p 0 initial)
    (hrun : Run (PromptStep U other b) sh0 lines sh) (hl : ∀ line ∈ lines, Assigning line)
    (hk : keyCount lines < environDataSize) (hpage : PageAligned U (sh0.mem.next + 1)) :
    promptOf sh = lastPS1 initial lines ∧ ∀ line, Assigning line → FitsBuffers line →
      ParsesClean U sh.mem.next line → SparesHeader line → keyCount (lines ++ [line]) < environDataSize →
      line.length < (sh.mem.bytes b).length → (∃ sh', LineStep U other b sh line sh') ∧
        ∀ sh', LineStep U other b sh line sh' →
          (promptOf sh' = lastPS1 initial (lines ++ [line]) ↔ PromptAgrees line (promptOf sh)) := by
  obtain ⟨⟨slots, h⟩, hpage'⟩ := Shows.of_run h0 hone hprompt hrun hl hk hpage
  refine ⟨h.promptOf, fun line hline hf hc hh hk' hlen => ⟨?_, ?_⟩⟩
  · obtain ⟨l, hs, hl'⟩ := exists_buffer hline.noNul hlen
    obtain ⟨sh', -, he, -⟩ := h.step (U := U) other hone (hline.fits hf) hc hh hk' hpage' hs
    exact ⟨sh', l, hs, hl', he⟩
  · rintro sh' ⟨l, hs, -, he⟩
    obtain ⟨sh'', slots', he', h', -⟩ := h.step (U := U) other hone (hline.fits hf) hc hh hk' hpage' hs
    cases he.symm.trans he'
    rw [h'.promptOf, h.promptOf]
    exact promptAfter_iff rfl

/-- `"sbush~>"` -/
def initialPS1 : List UInt8 := [115, 98, 117, 115, 104, 126, 62]

/-- A shell with an empty environment and the first prompt. -/
def promptShell : Shell where
  mem := {
    blocks := [List.replicate 64 0, initialPS1 ++ List.replicate (maxPS1Length - initialPS1.length) 0]
    released := []
    stray := [] }
  environ := []
  ps1 := .ofBlock 1 0
  pipelines := []

theorem shows_promptShell : Shows 0 1 [] [] [] initialPS1 promptShell := by
  refine .of_start ⟨by decide, by decide, rfl, by decide, .nil⟩ (by decide) ?_
  exact Mem.stringAt_of_bytes rfl (isString_append (by decide) _)

/-- `PS1=x` -/
def ps1Line : List UInt8 := (ps1Word ++ [equalsChar, 120]) ++ [newline]

/-- `export PS1=x` -/
def exportPS1 : List UInt8 := (exportWord ++ space :: ps1Word ++ [equalsChar, 120]) ++ [newline]

theorem assignLine_ps1Line : AssignLine ps1Line := assignLine_snoc (by decide)

theorem assignLine_exportPS1 : AssignLine exportPS1 := assignLine_snoc (by decide)

/-- The prompt `x`. -/
theorem prompt_follows_x : ∃ sh, Run (PromptStep (filled 0) (fun _ _ sh => .ok sh) 0) promptShell [ps1Line] sh ∧
    promptOf sh = [120] := by
  have hnone : Slots.lastValue (argAssignments ps1Line) ps1Word = none := by decide
  have hstart := shows_promptShell
  have hclean : ParsesClean (filled 0) promptShell.mem.next ps1Line := parsesClean_zeros (by decide)
  have hline := assignLine_ps1Line
  obtain ⟨⟨sh, hstep⟩, -⟩ := (prompt_follows (filled 0) (fun _ _ sh => .ok sh) hstart.toShellAt (by decide)
    hstart.array .nil (by simp) (by decide) (pageAligned_filled 0 _)).2 ps1Line hline.assigning hline.fits hclean
    (by decide) (by decide) (by decide)
  have hkeeps : KeepsPrompt (filled 0) promptShell ps1Line := ⟨hline.fits, hclean, by decide, fun value hv => by
    rw [hnone] at hv
    cases hv⟩
  have hrun := Run.snoc (.nil : Run (PromptStep (filled 0) (fun _ _ sh => .ok sh) 0) promptShell [] _)
    ⟨hstep, hkeeps⟩
  exact ⟨sh, hrun, (prompt_follows _ _ hstart.toShellAt (by decide) hstart.array hrun
    (by simp [hline.assigning]) (by decide) (pageAligned_filled 0 _)).1⟩

/-- `export PS1=x` leaves the prompt what it was. -/
theorem export_keeps_prompt : Assigning exportPS1 ∧ keyCount [exportPS1] < environDataSize ∧
    ∃ sh, Run (LineStep (filled 0) (fun _ _ sh => .ok sh) 0) promptShell [exportPS1] sh ∧
      promptOf sh ≠ lastPS1 (promptOf promptShell) [exportPS1] := by
  have hline := assignLine_exportPS1
  refine ⟨hline.assigning, by decide, ?_⟩
  obtain ⟨l, hs, hl⟩ := exists_buffer hline.noNul (show exportPS1.length < 64 by decide)
  obtain ⟨sh, slots, he, h, -⟩ := shows_promptShell.step (U := filled 0) (fun _ _ sh => .ok sh) (by decide)
    hline (parsesClean_zeros (by decide)) (by decide) (by decide) (pageAligned_filled 0 _) hs
  refine ⟨sh, .snoc .nil ⟨l, hs, hl, he⟩, ?_⟩
  rw [h.promptOf, shows_promptShell.promptOf]
  decide

end Sbunix.Sbush
