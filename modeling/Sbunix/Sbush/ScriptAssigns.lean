/-
A script of assignments, from the bytes of its file to the environment: its lines are executed in their
order, it ends, and `getenv` finds under each key the value of the last line that assigns to it.
-/
import Sbunix.Sbush.ScriptRuns

namespace Sbunix.Sbush

open BlockMemory Fallible Libc

/-- A shell that has read no line yet: `PS1` in block `p`, and the environment `slots`. -/
structure ShellStart (p : Nat) (slots : List (List UInt8 × Ptr)) (sh : Shell) : Prop where
  block : p < sh.mem.next
  prompt : sh.ps1 = .ofBlock p 0
  promptLength : (sh.mem.bytes p).length = maxPS1Length
  environ : Holds (· ≠ p) sh.mem sh.environ slots

/-- The lines with the newlines they are read with. -/
def withNewlines (ls : List (List UInt8)) : List (List UInt8) := ls.map (· ++ [newline])

/-- A line is an assignment which does no harm to its own values, whichever blocks the parser gets. -/
structure SafeAssign (U : Unspecified) (l : List UInt8) : Prop where
  assigns : AssignLine (l ++ [newline])
  harmless : ∀ n, Harmless U n (l ++ [newline])

section Loop

variable {U : Unspecified} {b p : Nat} {m : Mem} {sh : Shell} {l : List UInt8}
  {ls done : List (List UInt8)} {slots slots0 : List (List UInt8 × Ptr)}

theorem ShellStart.shellAt (h : ShellStart p slots sh) (hbuf : LineBuffer sh.mem.next m)
    (hframe : Frame (· < sh.mem.next) sh.mem m) : ShellAt sh.mem.next p slots { sh with mem := m } where
  buffer := hbuf.block
  apart := Nat.ne_of_gt h.block
  prompt := h.prompt
  promptLength := by
    show (m.bytes p).length = maxPS1Length
    rw [hframe.bytes p h.block]
    exact h.promptLength
  environ := h.environ.frame hframe (fun _ _ hc => hc) fun _ hp hc => ⟨Nat.ne_of_lt hc, hp⟩

theorem LineOnly.frame_kept (honly : LineOnly b sh.mem m) : Frame (Kept b p) sh.mem m :=
  honly.frame.mono fun _ hc => hc.1

/-- What happens outside the blocks that are kept changes no value. -/
theorem Reached.moved (h : Reached b p slots0 done slots sh) (hat : ShellAt b p slots { sh with mem := m })
    (hf : Frame (fun c => c < sh.mem.next ∧ Kept b p c) sh.mem m) :
    Reached b p slots0 done slots { sh with mem := m } where
  toShellAt := hat
  nodup := h.nodup
  keys := h.keys
  stores := by
    intro key value hv
    obtain ⟨q, hq, hstored⟩ := h.stores key value hv
    exact ⟨q, hq, hstored.frame hf⟩

theorem Reached.lineOnly (h : Reached b p slots0 done slots sh) (honly : LineOnly b sh.mem m) :
    Reached b p slots0 done slots { sh with mem := m } :=
  h.moved (h.kept honly.frame_kept (honly.frame.bytes p h.apart.symm)) (honly.frame_kept.mono fun _ hc => hc.2)

theorem keyCount_append_le : keyCount done ≤ keyCount (done ++ ls) := by
  induction ls using List.reverseRecOn with
  | nil => rw [List.append_nil]
  | append_singleton ls l ih =>
    rw [← List.append_assoc]
    exact ih.trans keyCount_le

variable (unset : Nat → UInt8) {other : Nat → CommandArgument → Shell → Except Fault Shell}

variable (other) in
/-- A line that stands in the buffer is executed. -/
theorem Reached.round (h : Reached b p slots0 done slots sh) (hone : slots0.length ≤ 1)
    (hs : sh.mem.StringAt b 0 (l ++ [newline])) (hl : SafeAssign U l)
    (hk : keyCount (done ++ [l ++ [newline]]) < environDataSize) (hpage : PageAligned U (sh.mem.next + 1)) :
    ∃ sh' slots', parseAndExecuteCommand U other (.ofBlock b 0) sh = .ok sh' ∧
      Reached b p slots0 (done ++ [l ++ [newline]]) slots' sh' ∧ PageAligned U (sh'.mem.next + 1) := by
  have hready : Ready b 0 p (l ++ [newline]) slots sh := ⟨h.toShellAt, hs⟩
  obtain ⟨sh', he, hd, -⟩ := executeSingle_eq (U := U) other hready hl.assigns
    (hl.harmless sh.mem.next).clean (h.keysOf.room hone hk) (hl.harmless sh.mem.next).header hpage
  have hle := hd.frame.next_le
  have hr := h.lineDone h.toShellAt (.refl _ _) rfl hl.assigns (hl.harmless sh.mem.next).spares hd
  exact ⟨sh', _, (hl.assigns.single_eq hs).trans he, hr, fun k hk => hpage k (by omega)⟩

/-- By induction on the lines still to be read, as in `scriptLoop_calls`; each that is executed goes to
the ones done. -/
theorem scriptLoop_assigns (hother : KeepsLines other) (hone : slots0.length ≤ 1) :
    ∀ (ls : List (List UInt8)) (l : List UInt8) (k : Nat) {sh : Shell} {ch : UInt8}
      {done : List (List UInt8)} {slots : List (List UInt8 × Ptr)}, (∀ x ∈ l :: ls, ScriptLine x) →
    (∀ x ∈ reached (l :: ls), SafeAssign U x) →
    keyCount (done ++ withNewlines (reached (l :: ls))) < environDataSize →
    Reached b p slots0 done slots sh → LineBuffer b sh.mem → (sh.mem.bytes b)[0]? = some ch →
    0 ∈ sh.mem.bytes b → ¬ (ch = 0 ∨ ch = newline) → PageAligned U (sh.mem.next + 1) →
    ∃ sh' slots', scriptLoop U unset other (.ofBlock b 0) (k + ls.length + 2) (.ofBlock b 0)
        (ofBytes ([newline].intercalate (l :: ls))) sh =
        ((withNewlines (reached (l :: ls))).map .parseAndExecuteCommand, .returned sh') ∧
      Reached b p slots0 (done ++ withNewlines (reached (l :: ls))) slots' sh'
  | [], l, k, sh, ch, done, slots, hls, hsafe, hk, h, hbuf, hch, hnul, hblank, hpage => by
    obtain ⟨m, honly, hend⟩ :=
      scriptLoop_last U unset other k (hls l List.mem_cons_self) hbuf hch hnul hblank
    refine ⟨{ sh with mem := m }, slots, ?_, ?_⟩
    · rw [List.intercalate_singleton]
      exact hend
    · simpa [reached, withNewlines] using h.lineOnly honly
  | g :: ls, l, k, sh, ch, done, slots, hls, hsafe, hk, h, hbuf, hch, hnul, hblank, hpage => by
    have hl := hls l List.mem_cons_self
    have heq := scriptLoop_line U unset other ([newline].intercalate (g :: ls)) (k + ls.length + 2) hl hbuf
      hch hnul hblank
    obtain ⟨hbuf', hs⟩ := hbuf.withLine hl
    have honly : LineOnly b sh.mem (sh.withLine b l).mem := .setBytes _
    have hread : Reached b p slots0 done slots (sh.withLine b l) := h.lineOnly honly
    rw [List.intercalate_cons_cons, List.append_assoc, List.singleton_append]
    have hrounds : k + (g :: ls).length + 2 = k + ls.length + 2 + 1 := rfl
    rw [hrounds, heq]
    cases l with
    | nil =>
      -- the buffer holds the newline
      have hend := scriptLoop_blank U unset other (.ofBlock b 0) (k + ls.length + 1)
        (ofBytes ([newline].intercalate (g :: ls))) (first_of_string hs) hs.nul_mem (.inr rfl)
      refine ⟨sh.withLine b [], slots, ?_, ?_⟩
      · rw [if_pos rfl, hend]
        rfl
      · simpa [reached, withNewlines] using hread
    | cons ch' l =>
      have hmem : ch' :: l ∈ reached ((ch' :: l) :: g :: ls) := by
        rw [reached_cons, if_neg (List.cons_ne_nil _ _)]
        split <;> exact List.mem_cons_self
      have hline := hsafe _ hmem
      -- an assignment does not begin with a `'|'`
      have hpipe : ch' ≠ pipeChar := by
        rintro rfl
        exact hline.assigns.single (List.mem_append_left _ List.mem_cons_self)
      have hreach : reached ((ch' :: l) :: g :: ls) = (ch' :: l) :: reached (g :: ls) := by
        rw [reached_cons, if_neg (List.cons_ne_nil _ _), List.head?_cons,
          if_neg fun hp => hpipe (Option.some.inj hp)]
      have hsplit : done ++ withNewlines (reached ((ch' :: l) :: g :: ls)) =
          done ++ [ch' :: l ++ [newline]] ++ withNewlines (reached (g :: ls)) := by
        rw [hreach, withNewlines, List.map_cons, List.append_assoc]
        rfl
      rw [hsplit] at hk ⊢
      have hpage' : PageAligned U ((sh.withLine b (ch' :: l)).mem.next + 1) := honly.next.symm ▸ hpage
      obtain ⟨sh1, slots1, hrun, h1, hpage1⟩ := hread.round other hone hs hline
        (Nat.lt_of_le_of_lt keyCount_append_le hk) hpage'
      obtain ⟨hr1, hlength, hnul1, hfirst⟩ := parseAndExecuteCommand_line hother
        (show LineReady b (sh.withLine b (ch' :: l)) from
          ⟨hbuf'.block, fun o ho => h.apart (by cases h.prompt.symm.trans ho; rfl)⟩) hs hrun
      rw [if_neg hpipe] at hfirst
      have hne : ¬ (ch' = 0 ∨ ch' = newline) := by
        rintro (rfl | rfl)
        · exact (hls _ List.mem_cons_self).noNul List.mem_cons_self
        · exact (hls _ List.mem_cons_self).noNewline List.mem_cons_self
      rw [hreach, List.forall_mem_cons] at hsafe
      obtain ⟨sh', slots', hrest, h'⟩ := scriptLoop_assigns hother hone ls g k
        (fun x hx => hls x (List.mem_cons_of_mem _ hx)) hsafe.2 hk h1
        ⟨hr1.block, hlength.trans hbuf'.length⟩ hfirst hnul1 hne hpage1
      refine ⟨sh', slots', ?_, h'⟩
      rw [if_neg (List.cons_ne_nil _ _), hrun, hreach]
      dsimp only
      rw [hrest]
      rfl

end Loop

/-- A script of the shell, whose lines up to the first empty one are harmless assignments to fewer than
20 keys: each of these lines is executed, in their order, the script ends, and every key has the last
value they assign to it. The blocks allocated behind the script's own are mapped as whole pages. -/
theorem script_assigns (U : Unspecified) (unset : Nat → UInt8)
    {other : Nat → CommandArgument → Shell → Except Fault Shell} (hother : KeepsLines other)
    {file : List UInt8} (hs : SbushScript file) (hnewline : newline ∈ file)
    (hsafe : ∀ l ∈ reached (lines file).tail, SafeAssign U l)
    (hk : keyCount (withNewlines (reached (lines file).tail)) < environDataSize)
    {p : Nat} {slots : List (List UInt8 × Ptr)} {sh : Shell} (hsh : ShellStart p slots sh)
    (hone : slots.length ≤ 1) (hpage : PageAligned U (sh.mem.next + 2)) :
    ∃ sh', executeFile U unset other file sh =
        ((withNewlines (reached (lines file).tail)).map .parseAndExecuteCommand, .returned sh') ∧
      HasLastValues (withNewlines (reached (lines file).tail)) sh' := by
  have hfile := hs.file_eq
  have hlength := length_lines file
  have hlines : ∀ l ∈ (lines file).tail, ScriptLine l := fun l hl => hs.line (List.mem_of_mem_tail hl)
  cases htail : (lines file).tail with
  | nil =>
    rw [hfile, htail, List.intercalate_singleton] at hnewline
    exact absurd hnewline (by decide)
  | cons l ls =>
    rw [htail, List.intercalate_cons_cons, List.append_assoc, List.singleton_append] at hfile
    rw [htail] at hlines hsafe hk
    have hscript := executeFile_script U unset other ([newline].intercalate (l :: ls)) sh
    rw [← hfile] at hscript
    rcases hscript with ⟨m, f, hget, -, hframe⟩ | ⟨-, m, -, -, hbuf, hframe, hnext, hch, hnul, heq⟩
    · -- `PATH` is looked up first
      have hpath : Source.IsString m (.literal pathWord) pathWord := ⟨by decide, rfl⟩
      have henviron : Holds (· ≠ p) m sh.environ slots :=
        hsh.environ.frame hframe (fun _ _ hc => hc) fun _ hp _ => hp
      cases (getenv_eq hpath henviron).symm.trans hget
    obtain ⟨k, hrounds⟩ : ∃ k, file.length + 1 = k + ls.length + 2 := by
      have hcons := congrArg List.length (List.cons_head?_tail hs.first)
      rw [htail, List.length_cons, List.length_cons] at hcons
      exact ⟨file.length + 1 - (ls.length + 2), by omega⟩
    obtain ⟨sh', slots', hrun, h⟩ := scriptLoop_assigns unset hother hone ls l k hlines hsafe
      hk (.of_start (hsh.shellAt hbuf hframe) hone) hbuf hch hnul (by decide) fun k hk =>
        hpage k (by rw [hnext] at hk; omega)
    rw [hrounds, hrun] at heq
    exact ⟨sh', heq, h.hasLastValues⟩

/-- A script that assigns to `A` twice; its `ls` comes behind an empty line. -/
def assignTwice : List UInt8 :=
  sbushLine ++ newline :: [newline].intercalate [assignOne, assignTwo, [], [108, 115], []]

theorem freshShell_start : ShellStart 1 [] freshShell where
  block := by decide
  prompt := rfl
  promptLength := by decide
  environ := .nil

theorem safeAssign_zeros {l : List UInt8} (h : AssignLine (l ++ [newline]))
    (hroom : (leading (l ++ [newline])).length + (trimmed (l ++ [newline])).length + 2 ≤ inputLength)
    (hone : argWords (l ++ [newline]) = []) (hheader : SparesHeader (l ++ [newline])) :
    SafeAssign (filled 0) l where
  assigns := h
  harmless := fun _ => ⟨parsesClean_zeros hroom, .inr (.inr (.inr (by simp [hone]))), hheader⟩

theorem assignTwice_runs : ∃ sh', executeFile (filled 0) (fun _ => 0) (fun _ _ sh => .ok sh) assignTwice
      freshShell = ((withNewlines [assignOne, assignTwo]).map .parseAndExecuteCommand, .returned sh') ∧
    HasLastValues (withNewlines [assignOne, assignTwo]) sh' := by
  have hreach : reached (lines assignTwice).tail = [assignOne, assignTwo] := by decide
  have hsafe : ∀ l ∈ [assignOne, assignTwo], SafeAssign (filled 0) l := by
    intro l hl
    rcases List.mem_pair.1 hl with rfl | rfl
    · exact safeAssign_zeros assignLine_assignOne (by decide) (by decide) (by decide)
    · exact safeAssign_zeros (assignLine_snoc (by decide)) (by decide) (by decide) (by decide)
  rw [← hreach] at hsafe ⊢
  exact script_assigns (filled 0) (fun _ => 0) keepsLines_idle (by decide) (by decide) hsafe
    (by rw [hreach]; decide) freshShell_start (by decide) (pageAligned_filled 0 _)

end Sbunix.Sbush
