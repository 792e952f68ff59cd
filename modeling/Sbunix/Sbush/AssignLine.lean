/-
One line of assignments: what its parsing, the assignment built-ins and the release of its command
leave in the shell.

A value lives in the buffer of its word. Only the value assigned by the command itself (`K=V ..`,
not `export ..`) stands in the buffer that `freeCommandArgument` clears.
-/
import Sbunix.Sbush.Assign

namespace Sbunix.Sbush

open BlockMemory Fallible Libc

/-! ## Lines of assignments -/

def commandWord (line : List UInt8) : List UInt8 := firstWord space (trimmed line)

def argWords (line : List UInt8) : List (List UInt8) := nonempty (laterWords space (trimmed line))

/-- The words that assign. -/
def assigned (line : List UInt8) : List (List UInt8) :=
  if commandWord line = exportWord then argWords line else commandWord line :: argWords line

/-- A line of assignments as `fgets` delivers it, whose words fit the parser's buffers. -/
structure AssignLine (line : List UInt8) : Prop where
  noNul : 0 ∉ line
  newlineLast : NewlineLast line
  single : pipeChar ∉ line
  fits : FitsBuffers line
  assigns : ∀ w ∈ assigned line, equalsChar ∈ w

/-- The parser finds the words of the line (`parsesRight_iff`). -/
structure ParsesClean (U : Unspecified) (n : Nat) (line : List UInt8) : Prop where
  room : (leading line).length + (trimmed line).length + 2 ≤ inputLength
  reuses : ReusesEmpty (garbageFrom U n) (laterWords space (trimmed line))

/-- The line's text ends in front of the field `next` of a header in its buffers, and no key is empty. -/
structure SparesHeader (line : List UInt8) : Prop where
  short : (trimmed line).length ≤ 16
  keys : ∀ w ∈ assigned line, keyOf w ≠ []

instance (line : List UInt8) : Decidable (SparesHeader line) :=
  decidable_of_iff ((trimmed line).length ≤ 16 ∧ ∀ w ∈ assigned line, keyOf w ≠ [])
    ⟨fun ⟨a, b⟩ => ⟨a, b⟩, fun ⟨a, b⟩ => ⟨a, b⟩⟩

/-- A line with its newline. -/
theorem assignLine_snoc {text : List UInt8} (h : newline ∉ text ∧ 0 ∉ text ++ [newline] ∧
    pipeChar ∉ text ++ [newline] ∧ FitsBuffers (text ++ [newline]) ∧
    ∀ w ∈ assigned (text ++ [newline]), equalsChar ∈ w) : AssignLine (text ++ [newline]) := by
  obtain ⟨hn, h0, hsingle, hfits, hassigns⟩ := h
  exact ⟨h0, newlineLast_snoc hn, hsingle, hfits, hassigns⟩

/-- In memory of NULs every empty word finds its buffer. -/
theorem parsesClean_zeros {n : Nat} {line : List UInt8}
    (h : (leading line).length + (trimmed line).length + 2 ≤ inputLength) : ParsesClean (filled 0) n line :=
  ⟨h, fun _ _ _ => rfl⟩

/-- Where the line's assignments point, if its parsing begins at block `n`. -/
def lineTargets (n : Nat) (line : List UInt8) : List (List UInt8 × Ptr) :=
  if commandWord line = exportWord then targets (n + 3) 0 (argWords line)
  else (keyOf (commandWord line), .ofBlock (n + 1) ((keyOf (commandWord line)).length + 1)) ::
    targets (n + 3) 0 (argWords line)

section Words

variable {line text : List UInt8} {separator ch : UInt8}

theorem mem_of_firstWord : ∀ text : List UInt8, ch ∈ firstWord separator text → ch ∈ text
  | [], h => by simp [firstWord] at h
  | x :: text, h => by
    by_cases hs : x = separator
    · rw [hs, firstWord_separator] at h
      simp at h
    · rw [firstWord_cons hs, List.mem_cons] at h
      rcases h with h | h
      · simp [h]
      · exact List.mem_cons_of_mem _ (mem_of_firstWord text h)

theorem mem_of_laterWords : ∀ text : List UInt8, ∀ w ∈ laterWords separator text, ch ∈ w → ch ∈ text
  | [], w, h, _ => by simp [laterWords] at h
  | x :: text, w, h, hc => by
    by_cases hs : x = separator
    · rw [hs, laterWords_separator, List.mem_cons] at h
      rcases h with h | h
      · exact List.mem_cons_of_mem _ (mem_of_firstWord text (h ▸ hc))
      · exact List.mem_cons_of_mem _ (mem_of_laterWords text w h hc)
    · rw [laterWords_cons hs] at h
      exact List.mem_cons_of_mem _ (mem_of_laterWords text w h hc)

theorem length_firstWord_le : ∀ text : List UInt8, (firstWord separator text).length ≤ text.length
  | [] => Nat.le_refl _
  | x :: text => by
    by_cases hs : x = separator
    · rw [hs, firstWord_separator]
      exact Nat.zero_le _
    · rw [firstWord_cons hs]
      exact Nat.succ_le_succ (length_firstWord_le text)

theorem length_laterWords_le : ∀ text : List UInt8, ∀ w ∈ laterWords separator text, w.length ≤ text.length
  | [], w, h => by simp [laterWords] at h
  | x :: text, w, h => by
    by_cases hs : x = separator
    · rw [hs, laterWords_separator, List.mem_cons] at h
      rcases h with rfl | h
      · exact Nat.le_succ_of_le (length_firstWord_le text)
      · exact Nat.le_succ_of_le (length_laterWords_le text w h)
    · rw [laterWords_cons hs] at h
      exact Nat.le_succ_of_le (length_laterWords_le text w h)

theorem SparesHeader.shortKey (h : SparesHeader line) {w : List UInt8} (hw : w ∈ assigned line)
    (hlen : w.length ≤ (trimmed line).length) : ShortKey (keyOf w) :=
  ⟨h.keys w hw, Nat.le_trans (length_keyOf_le w) (Nat.le_trans hlen h.short)⟩

theorem SparesHeader.argument (h : SparesHeader line) : ∀ w ∈ argWords line, ShortKey (keyOf w) := by
  intro w hw
  refine h.shortKey ?_ (length_laterWords_le _ w (List.mem_filter.1 hw).1)
  unfold assigned
  split
  · exact hw
  · exact List.mem_cons_of_mem _ hw

theorem SparesHeader.command (h : SparesHeader line) (hne : commandWord line ≠ exportWord) :
    ShortKey (keyOf (commandWord line)) :=
  h.shortKey (by rw [assigned, if_neg hne]; exact List.mem_cons_self) (length_firstWord_le _)

theorem AssignLine.trimmed_ne_nil (h : AssignLine line) : trimmed line ≠ [] := by
  intro he
  have hword : commandWord line = [] := by rw [commandWord, he]; rfl
  have hne : commandWord line ≠ exportWord := by rw [hword]; decide
  have hequals := h.assigns (commandWord line) (by rw [assigned, if_neg hne]; exact List.mem_cons_self)
  rw [hword] at hequals
  exact absurd hequals List.not_mem_nil

theorem AssignLine.argument (h : AssignLine line) : ∀ w ∈ argWords line, Assigns w := by
  intro w hw
  have hlater : w ∈ laterWords space (trimmed line) := (List.mem_filter.1 hw).1
  refine ⟨h.assigns w ?_, fun hn => h.newlineLast.trimmed (mem_of_laterWords _ w hlater hn),
    h.fits.words w hlater⟩
  unfold assigned
  split
  · exact hw
  · exact List.mem_cons_of_mem _ hw

theorem AssignLine.command (h : AssignLine line) (hne : commandWord line ≠ exportWord) :
    Assigns (commandWord line) :=
  ⟨h.assigns _ (by rw [assigned, if_neg hne]; simp),
    fun hn => h.newlineLast.trimmed (mem_of_firstWord _ hn), h.fits.command⟩

end Words

/-! ## One line -/

section Line

variable {U : Unspecified} {Q : Nat → Prop} {sh : Shell} {m : Mem} {n p : Nat} {c : CommandArgument}
  {words : List (List UInt8)} {s : List UInt8} {slots : List (List UInt8 × Ptr)}

theorem argsAt_of : ∀ (words : List (List UInt8)) (i : Nat),
    (∀ j (hj : j < words.length), c.arguments (i + j) = .ofBlock (n + (i + j)) 0 ∧
      m.StringAt (n + (i + j)) 0 words[j]) → ArgsAt m c n i words
  | [], _, _ => trivial
  | word :: words, i, h => by
    refine ⟨h 0 (by simp), argsAt_of words (i + 1) fun j hj => ?_⟩
    have := h (j + 1) (by simpa using hj)
    rwa [show i + (j + 1) = i + 1 + j by omega] at this

variable (sh) in
/-- The arguments' assignments and the release of the command. -/
theorem export_and_free (ht : c.trimmedInput = .ofBlock (n + 2) 0) (hc : c.command = .ofBlock (n + 1) 0)
    (hptr : ∀ j < words.length, c.arguments j = .ofBlock (n + 3 + j) 0)
    (hcount : c.argumentCount = words.length) (hw : ∀ w ∈ words, Assigns w)
    (hargs : ArgsAt sh.mem c (n + 3) 0 words) (hs : sh.mem.StringAt (n + 1) 0 s)
    (hlen : (sh.mem.bytes (n + 1)).length = commandLength)
    (hQ : ∀ b, sh.mem.next ≤ b → Q b) (hnQ : ∀ b, n ≤ b → b < n + 3 + words.length → ¬ Q b)
    (hnext : n + 3 + words.length ≤ sh.mem.next) (h : Holds Q sh.mem sh.environ slots)
    (hroom : (Slots.setAll slots (targets (n + 3) 0 words)).length ≤ environDataSize)
    (hshort : ∀ w ∈ words, ShortKey (keyOf w)) (hq : Quiet (n + 2) sh.mem) (hpage : PageAligned U (n + 1)) :
    ∃ sh' m', executeBuiltInExport U c sh = .ok sh' ∧ freeCommandArgument U c sh'.mem = .ok m' ∧
      SameShell sh sh' ∧ Frame (· < n) sh.mem m' ∧ CutAt m' (n + 3) 0 words ∧
      Holds Q m' sh'.environ (Slots.setAll slots (targets (n + 3) 0 words)) ∧
      m'.bytes (n + 1) = cleared (max (longestKey words) s.length) (sh.mem.bytes (n + 1)) := by
  -- the assignments leave the command's buffer alone
  obtain ⟨sh', he, hsame, hf, hcut, hH, hquiet⟩ := exportLoop_eq (U := U) (c := c) words 0 sh slots hw hargs hQ
    (fun j hj => hnQ _ (by omega) (by omega)) h hroom
  have hb1 : sh'.mem.bytes (n + 1) = sh.mem.bytes (n + 1) := hf.bytes _ ⟨by omega, by omega⟩
  have hs' : sh'.mem.StringAt (n + 1) 0 s :=
    Mem.stringAt_of_bytes hb1 hs
  have hkeys : longestKey words ≤ (sh'.mem.bytes (n + 1)).length := by
    rw [hb1, hlen, longestKey_le]
    intro w hm
    have h1 := (hw w hm).fits
    have h2 := length_keyOf_le w
    unfold argumentLength at h1
    unfold commandLength
    omega
  have htexts : ArgsAt sh'.mem c (n + 3) 0 (words.map keyOf) :=
    hcut.argsAt words 0 fun j _ hj => hptr j (by omega)
  obtain ⟨m', he', hf', hn', hb'⟩ := freeCommandArgument_eq (U := U) ht hc
    (by rw [hcount, List.length_map]) (by omega) (by omega) hs' htexts (longest_keys words ▸ hkeys)
    (by rw [hb1, hlen]; decide) (hquiet hshort hq (by omega)) hpage
  rw [longest_keys] at hb'
  refine ⟨sh', m', ?_, he', hsame, ?_, ?_, ?_, by rw [hb', hb1]⟩
  · rw [executeBuiltInExport, hcount, Int.toNat_natCast]
    exact he
  · exact (hf.mono fun b hb => ⟨by omega, by omega⟩).trans (hf'.mono fun b hb => by omega)
  · exact hcut.frame hf' fun b hb _ => by omega
  · exact hH.frame hf' (fun b hb _ he => hnQ b (by omega) (by omega) hb) fun b hb _ => hb

/-- The blocks other than the line's and that of `PS1`. -/
def Kept (b p c : Nat) : Prop := c ≠ b ∧ c ≠ p

/-- A shell with its line buffer in block `b`, `PS1` in block `p`, and the environment `slots`, none
of whose keys stands in these two. -/
structure ShellAt (b p : Nat) (slots : List (List UInt8 × Ptr)) (sh : Shell) : Prop where
  buffer : b < sh.mem.next
  apart : b ≠ p
  prompt : sh.ps1 = .ofBlock p 0
  promptLength : (sh.mem.bytes p).length = maxPS1Length
  environ : Holds (Kept b p) sh.mem sh.environ slots

/-- The line to be executed stands at offset `o` of the line buffer. -/
structure Ready (b o p : Nat) (line : List UInt8) (slots : List (List UInt8 × Ptr)) (sh : Shell) :
    Prop extends ShellAt b p slots sh where
  line : sh.mem.StringAt b o line

/-- The shell after the line: the environment, and the buffers its values point into. -/
structure LineDone (b p : Nat) (line : List UInt8) (slots : List (List UInt8 × Ptr))
    (sh sh' : Shell) : Prop where
  same : SameShell sh sh'
  frame : Frame (fun c => c < sh.mem.next ∧ Kept b p c) sh.mem sh'.mem
  promptLength : (sh'.mem.bytes p).length = maxPS1Length
  arguments : CutAt sh'.mem (sh.mem.next + 3) 0 (argWords line)
  environ : Holds (Kept b p) sh'.mem sh'.environ (Slots.setAll slots (lineTargets sh.mem.next line))
  command : commandWord line ≠ exportWord → ∃ r, sh'.mem.bytes (sh.mem.next + 1) =
    cleared (max (longestKey (argWords line)) (keyOf (commandWord line)).length)
      (keyOf (commandWord line) ++ 0 :: (valueOf (commandWord line) ++ 0 :: r))

variable {other : Nat → CommandArgument → Shell → Except Fault Shell} {b o : Nat}
  {line : List UInt8} {sh1 : Shell} {m1 m' : Mem}

theorem executeSingle_ok {input : Ptr} (h1 : parseInput U space sh.mem input = .ok (some c, m1))
    (h2 : executeCommand U other (some c) { sh with mem := m1 } = .ok sh1)
    (h3 : freeCommandArgument U c sh1.mem = .ok m') :
    executeSingle U other input sh = .ok { sh1 with mem := m' } := by
  rw [executeSingle, h1, ok_bind]
  dsimp only
  rw [h2, ok_bind, h3]
  rfl

theorem Parsed.argsAt {m0 : Mem} {bg : Int} {text word : List UInt8} {args : List (List UInt8)}
    (h : Parsed U m0 n bg text word args c m) (hmax : args.length ≤ maxArguments) (hne : ∀ x ∈ args, x ≠ []) :
    ArgsAt m c (n + 3) 0 args := by
  refine argsAt_of args 0 fun j hj => ?_
  rw [Nat.zero_add]
  have hjmax := Nat.lt_of_lt_of_le hj hmax
  have hptr := h.fields.arguments j hj hjmax
  exact ⟨hptr, stringAt_of (i := 0) hptr (h.argument_string hj hjmax (hne _ (List.getElem_mem hj)))⟩

/-- A short line leaves a text in the block at ROOT that `free` takes for no header of a page. -/
theorem Parsed.quiet {m0 : Mem} {bg : Int} {text word : List UInt8} {args : List (List UInt8)}
    (h : Parsed U m0 n bg text word args c m) (h0 : 0 ∉ text) (hne : text ≠ []) (hargs : ∀ x ∈ args, x ≠ [])
    (hshort : text.length ≤ 16) : Quiet (n + 2) m := by
  have hhead : ∀ {s r : List UInt8}, 0 ∉ s → s ≠ [] → (s ++ r).head? ≠ some 0 ∧ s ++ r ≠ [] := by
    intro s r hs hsne
    obtain ⟨ch, s, rfl⟩ := List.exists_cons_of_ne_nil hsne
    refine ⟨fun he => hs (Option.some.inj he ▸ List.mem_cons_self), List.cons_ne_nil _ _⟩
  have hroot := h.buffers.root
  rcases List.eq_nil_or_concat args with rfl | ⟨done, last, hlast⟩
  · -- the trimmed line is the block allocated last
    obtain ⟨hfirst, hnil⟩ := hhead (r := List.replicate (inputLength - text.length) 0) h0 hne
    exact .of_text hroot h.buffers.trimmedInput hfirst hnil (h.buffers.nextEmpty hshort) (by simp)
  · rw [List.concat_eq_append] at hlast
    have hmem : last ∈ args := by rw [hlast]; simp
    obtain ⟨l, -, -, hbytes⟩ := h.buffers.arguments done.length last (by rw [hlast]; simp)
    obtain ⟨hfirst, hnil⟩ := hhead (r := 0 :: l.drop (last.length + 1)) (h.buffers.argsNoNul last hmem) (hargs last hmem)
    rw [written, if_neg (hargs last hmem)] at hbytes
    rw [hlast, List.length_append, List.length_singleton] at hroot
    refine .of_text hroot ?_ hfirst hnil (h.buffers.nextEmpty hshort) (by omega)
    rw [show n + 2 + (done.length + 1) = n + 3 + done.length by omega, hbytes]

/-- The blocks that are neither kept out nor buffers of the line's words. -/
def Apart (b p n : Nat) (line : List UInt8) (c : Nat) : Prop :=
  Kept b p c ∧ (c < n ∨ n + 3 + (argWords line).length ≤ c)

/-- A line of assignments after its parsing, which began at block `n`. -/
structure LineParsed (b p n : Nat) (line : List UInt8) (slots : List (List UInt8 × Ptr))
    (sh : Shell) (c : CommandArgument) (m : Mem) : Prop where
  next : m.next = n + 3 + (argWords line).length
  frame : Frame (fun k => k < n ∧ k ≠ b) sh.mem m
  trimmedPtr : c.trimmedInput = .ofBlock (n + 2) 0
  commandPtr : c.command = .ofBlock (n + 1) 0
  argumentPtr : ∀ j < (argWords line).length, c.arguments j = .ofBlock (n + 3 + j) 0
  count : c.argumentCount = (argWords line).length
  command : m.StringAt (n + 1) 0 (commandWord line)
  commandBuffer : (m.bytes (n + 1)).length = commandLength
  arguments : ArgsAt m c (n + 3) 0 (argWords line)
  promptLength : (m.bytes p).length = maxPS1Length
  environ : Holds (Apart b p n line) m sh.environ slots
  quiet : trimmed line ≠ [] → (trimmed line).length ≤ 16 → Quiet (n + 2) m

theorem ShellAt.lt_next (h : ShellAt b p slots sh) : p < sh.mem.next := by
  apply Mem.lt_next_of_bytes_ne
  intro he
  have := h.promptLength
  rw [he] at this
  cases this

/-- Nothing changes but the line buffer. -/
theorem ShellAt.kept (h : ShellAt b p slots sh) (hf : Frame (Kept b p) sh.mem m) (hp : m.bytes p = sh.mem.bytes p) :
    ShellAt b p slots { sh with mem := m } where
  buffer := Nat.lt_of_lt_of_le h.buffer hf.next_le
  apart := h.apart
  prompt := h.prompt
  promptLength := by
    show (m.bytes p).length = maxPS1Length
    rw [hp]
    exact h.promptLength
  environ := h.environ.frame hf (fun _ hc _ => hc) fun _ hc _ => hc

theorem Ready.parsed_of_fits (h : Ready b o p line slots sh) (hfits : FitsBuffers line)
    (hc : ParsesClean U sh.mem.next line) :
    ∃ c m, parseInput U space sh.mem (.ofBlock b o) = .ok (some c, m) ∧
      LineParsed b p sh.mem.next line slots sh c m := by
  obtain ⟨c, m, he, hp⟩ := parseInput_parsed h.line hfits hc.room hc.reuses
  have hf := frame_of_reads hp.buffers.frame
  have hcommand := stringAt_of (i := 0) hp.fields.command hp.command_string
  have hargs : ∀ w ∈ argWords line, w ≠ [] := fun w hw => by simpa using (List.mem_filter.1 hw).2
  refine ⟨c, m, he, ?_⟩
  constructor
  case next => exact hp.buffers.next
  case frame => exact hf
  case trimmedPtr => exact hp.fields.trimmedInput
  case commandPtr => exact hp.fields.command
  case argumentPtr => exact fun j hj => hp.fields.arguments j hj (Nat.lt_of_lt_of_le hj hfits.count)
  case count => exact hp.argumentCount
  case command => exact hcommand
  case commandBuffer =>
    rw [hp.buffers.command, length_written] <;> rw [List.length_replicate]
    exact hfits.command
  case arguments => exact hp.argsAt hfits.count hargs
  case promptLength => rw [hf.bytes p ⟨h.lt_next, h.apart.symm⟩, h.promptLength]
  case environ => exact h.environ.frame hf (fun k hk hlt => ⟨hlt, hk.1⟩) fun k hk hlt => ⟨hk, .inl hlt⟩
  case quiet => exact fun hne hshort => hp.quiet (trimmed_noNul h.line.noNul) hne hargs hshort

theorem Ready.parsed (h : Ready b o p line slots sh) (hl : AssignLine line)
    (hc : ParsesClean U sh.mem.next line) :
    ∃ c m, parseInput U space sh.mem (.ofBlock b o) = .ok (some c, m) ∧
      LineParsed b p sh.mem.next line slots sh c m := h.parsed_of_fits hl.fits hc

theorem not_apart {k : Nat} (hk : n ≤ k) (hlt : k < n + 3 + (argWords line).length) :
    ¬ Apart b p n line k := by
  rintro ⟨-, h | h⟩
  · omega
  · omega

/-- New blocks are apart from everything. -/
theorem LineParsed.apart_next (hp : LineParsed b p sh.mem.next line slots sh c m)
    (h : Ready b o p line slots sh) {k : Nat} (hk : m.next ≤ k) :
    Apart b p sh.mem.next line k := by
  have hb := h.buffer
  have hpn := h.lt_next
  have hnext := hp.next
  exact ⟨⟨by omega, by omega⟩, .inr (by omega)⟩

/-- The parser leaves the prompt alone. -/
theorem LineParsed.prompt (hp : LineParsed b p sh.mem.next line slots sh c m) (h : Ready b o p line slots sh) :
    m.bytes p = sh.mem.bytes p :=
  hp.frame.bytes p ⟨h.lt_next, h.apart.symm⟩

theorem executeCommand_export (hc : c.command = .ofBlock (n + 1) 0)
    (hs : sh.mem.StringAt (n + 1) 0 exportWord) :
    executeCommand U other (some c) sh = executeBuiltInExport U c sh := by
  rw [executeCommand, getBuiltInCode_export hs hc, ok_bind, if_pos rfl]

theorem executeCommand_assigns {word : List UInt8} {sh2 : Shell} {k : Nat} (hw : Assigns word)
    (hc : c.command = .ofBlock k 0) (hs : sh.mem.StringAt k 0 word)
    (h1 : assign U sh (.ofBlock k 0) = .ok (sh1, .ofBlock k (keyOf word).length))
    (h2 : setPS1 U c (.ofBlock k ((keyOf word).length + 1 : Nat)) sh1 = .ok sh2) :
    executeCommand U other (some c) sh = executeBuiltInExport U c sh2 := by
  have hcode : ¬ builtInWithoutExport = builtInExport := by decide
  rw [executeCommand, getBuiltInCode_assigns hw hs hc, ok_bind, if_neg hcode, if_pos rfl,
    executeBuiltInWithoutExport, hc, h1, ok_bind]
  dsimp only
  rw [if_pos (by simp), Ptr.add]
  rw [Nat.cast_add, Nat.cast_one] at h2
  rw [h2]
  rfl

variable (other) in
theorem LineParsed.export (h : Ready b o p line slots sh) (hl : AssignLine line)
    (hp : LineParsed b p sh.mem.next line slots sh c m) (he : commandWord line = exportWord)
    (hroom : (Slots.setAll slots (lineTargets sh.mem.next line)).length ≤ environDataSize)
    (hspares : SparesHeader line) (hpage : PageAligned U (sh.mem.next + 1)) :
    ∃ sh1 m', executeCommand U other (some c) { sh with mem := m } = .ok sh1 ∧
      freeCommandArgument U c sh1.mem = .ok m' ∧ LineDone b p line slots sh { sh1 with mem := m' } ∧
      m'.bytes p = sh.mem.bytes p := by
  have hs : m.StringAt (sh.mem.next + 1) 0 exportWord := he ▸ hp.command
  rw [lineTargets, if_pos he] at hroom
  obtain ⟨sh1, m', e1, e2, hsame, hf, hcut, hH, -⟩ := export_and_free (U := U)
    { sh with mem := m } hp.trimmedPtr hp.commandPtr hp.argumentPtr hp.count hl.argument hp.arguments hs
    hp.commandBuffer (Q := Apart b p sh.mem.next line)
    (fun k hk => hp.apart_next h hk) (fun k hk hlt => not_apart hk hlt) (Nat.le_of_eq hp.next.symm)
    hp.environ hroom hspares.argument (hp.quiet hl.trimmed_ne_nil hspares.short) hpage
  have hprompt : m'.bytes p = m.bytes p := hf.bytes p h.lt_next
  refine ⟨sh1, m', ?_, e2, ⟨⟨hsame.ps1, hsame.pipelines⟩, ?_, ?_, hcut, ?_, fun hne => absurd he hne⟩,
    hprompt.trans (hp.prompt h)⟩
  · rw [executeCommand_export hp.commandPtr hs, e1]
  · exact (hp.frame.mono fun k hk => ⟨hk.1, hk.2.1⟩).trans (hf.mono fun k hk => hk.1)
  · rw [hprompt, hp.promptLength]
  · rw [lineTargets, if_pos he]
    exact hH.frame (.refl (fun _ => True) _) (fun _ _ _ => trivial) fun k hk _ => hk.1

variable (other) in
/-- The command's assignment, up to those of the arguments. -/
theorem LineParsed.commandAssigned (h : Ready b o p line slots sh) (hl : AssignLine line)
    (hp : LineParsed b p sh.mem.next line slots sh c m) (hne : commandWord line ≠ exportWord)
    (hroom : keyOf (commandWord line) ∈ Slots.keys slots ∨ slots.length < environDataSize)
    (hspares : SparesHeader line) :
    ∃ sh2 r, executeCommand U other (some c) { sh with mem := m } = executeBuiltInExport U c sh2 ∧
      SameShell sh sh2 ∧
      Frame (fun k => k < m.next ∧ k ≠ sh.mem.next + 1 ∧ k ≠ p) m sh2.mem ∧
      sh2.mem.bytes p = shown (keyOf (commandWord line)) (valueOf (commandWord line)) (sh.mem.bytes p) ∧
      (sh2.mem.bytes p).length = maxPS1Length ∧
      sh2.mem.bytes (sh.mem.next + 1) =
        keyOf (commandWord line) ++ 0 :: (valueOf (commandWord line) ++ 0 :: r) ∧
      (sh2.mem.bytes (sh.mem.next + 1)).length = commandLength ∧
      Holds (Apart b p sh.mem.next line) sh2.mem sh2.environ
        (Slots.set slots (keyOf (commandWord line))
          (.ofBlock (sh.mem.next + 1) ((keyOf (commandWord line)).length + 1))) ∧
      Quiet (sh.mem.next + 2) sh2.mem := by
  have hw := hl.command hne
  have hpn := h.lt_next
  have hnext := hp.next
  -- the assignment cuts the command's buffer into key and value
  obtain ⟨sh1, e1, hsame, hf1, hb1, hH1, hquiet⟩ := assign_eq (U := U) (p := sh.mem.next + 2) { sh with mem := m } hw
    hp.command (fun k hk => hp.apart_next h hk) (not_apart (by omega) (by omega)) hp.environ hroom
  obtain ⟨r, hr⟩ := cut_eq hw.equals hp.command
  rw [List.drop_zero] at hr
  have hblk : sh.mem.next + 1 < m.next := by omega
  have hle : m.next ≤ sh1.mem.next := hf1.next_le
  have hn1 : ∀ k, k = sh.mem.next + 1 → k ≠ p := fun k hk => by omega
  have hb1' : sh1.mem.bytes (sh.mem.next + 1) =
      keyOf (commandWord line) ++ 0 :: (valueOf (commandWord line) ++ 0 :: r) := hb1.trans hr
  have hkey : sh1.mem.StringAt (sh.mem.next + 1) 0 (keyOf (commandWord line)) :=
    Mem.stringAt_of_bytes hb1 (cut_key hw.equals hp.command)
  have hvalue : sh1.mem.StringAt (sh.mem.next + 1) ((keyOf (commandWord line)).length + 1)
      (valueOf (commandWord line)) :=
    Mem.stringAt_of_bytes hb1 (cut_value hw.equals hp.command)
  have hfit : (valueOf (commandWord line)).length ≤ maxPS1Length := by
    have h1 := congrArg List.length (eq_key_value hw.equals)
    have h2 := hw.fits
    rw [List.length_append, List.length_cons] at h1
    unfold argumentLength at h2
    unfold maxPS1Length
    omega
  have hprompt : sh1.mem.bytes p = m.bytes p :=
    hf1.bytes p ⟨Nat.lt_of_lt_of_le (by omega) (Nat.le_of_eq hp.next.symm), by omega⟩
  have hplen : (sh1.mem.bytes p).length = maxPS1Length := by rw [hprompt, hp.promptLength]
  -- a new prompt is copied, and nothing but the array `PS1` changes
  obtain ⟨m2, e2, hf2, -, hshown, hroot⟩ := setPS1_eq (U := U) (c := c) hkey hp.commandPtr hvalue
    (hn1 _ rfl) (hsame.ps1.trans h.prompt) hplen hfit
  have hcbytes : m2.bytes (sh.mem.next + 1) = sh1.mem.bytes (sh.mem.next + 1) :=
    hf2.bytes _ (hn1 _ rfl)
  refine ⟨{ sh1 with mem := m2 }, r, executeCommand_assigns hw hp.commandPtr hp.command e1 e2,
    ⟨hsame.ps1, hsame.pipelines⟩, ?_, ?_, hshown ▸ length_shown hplen hfit, hcbytes.trans hb1', ?_, ?_, ?_⟩
  · exact (hf1.mono fun k hk => ⟨hk.1, hk.2.1⟩).trans (hf2.mono fun k hk => hk.2.2)
  · exact hshown.trans (by rw [hprompt, hp.prompt h])
  · rw [hcbytes, hb1, List.length_set]
    exact hp.commandBuffer
  · exact hH1.frame hf2 (fun k hk _ => hk.1.2) fun k hk _ => hk
  · have hle2 : sh.mem.next + 2 ≤ m.next := by omega
    exact (hquiet (hspares.command hne) (hp.quiet hl.trimmed_ne_nil hspares.short) hle2).frame hf2 hroot (by omega)

variable (other) in
theorem LineParsed.assigns (h : Ready b o p line slots sh) (hl : AssignLine line)
    (hp : LineParsed b p sh.mem.next line slots sh c m) (hne : commandWord line ≠ exportWord)
    (hroom : (Slots.setAll slots (lineTargets sh.mem.next line)).length ≤ environDataSize)
    (hspares : SparesHeader line) (hpage : PageAligned U (sh.mem.next + 1)) :
    ∃ sh1 m', executeCommand U other (some c) { sh with mem := m } = .ok sh1 ∧
      freeCommandArgument U c sh1.mem = .ok m' ∧ LineDone b p line slots sh { sh1 with mem := m' } ∧
      m'.bytes p = shown (keyOf (commandWord line)) (valueOf (commandWord line)) (sh.mem.bytes p) := by
  have hpn := h.lt_next
  have hnext := hp.next
  rw [lineTargets, if_neg hne] at hroom
  obtain ⟨sh2, r, e0, hsame2, hf2, hshown, hplen2, hb2, hlen2, hH2, hq2⟩ := hp.commandAssigned (U := U) other
    h hl hne (Slots.room_of_setAll hroom) hspares
  have hle := hf2.next_le
  have hkey : sh2.mem.StringAt (sh.mem.next + 1) 0 (keyOf (commandWord line)) := by
    unfold Mem.StringAt
    rw [hb2, List.drop_zero]
    refine isString_append (fun h0 => ?_) _
    exact hp.command.noNul (List.takeWhile_subset _ h0)
  obtain ⟨sh3, m', e1, e2, hsame3, hf3, hcut, hH, hb3⟩ := export_and_free (U := U) sh2 hp.trimmedPtr
    hp.commandPtr hp.argumentPtr hp.count hl.argument
    (hp.arguments.frame hf2 fun k hk hlt => ⟨hlt, by omega, by omega⟩) hkey hlen2
    (Q := Apart b p sh.mem.next line) (fun k hk => hp.apart_next h (Nat.le_trans hle hk))
    (fun k hk hlt => not_apart hk hlt) (Nat.le_trans (Nat.le_of_eq hp.next.symm) hle) hH2 hroom
    hspares.argument hq2 hpage
  have hsame := hsame2.trans hsame3
  have hprompt : m'.bytes p = sh2.mem.bytes p := hf3.bytes p hpn
  refine ⟨sh3, m', e0.trans e1, e2,
    ⟨⟨hsame.ps1, hsame.pipelines⟩, ?_, ?_, hcut, ?_, fun _ => ⟨r, ?_⟩⟩, hprompt.trans hshown⟩
  · exact ((hp.frame.mono fun k hk => ⟨hk.1, hk.2.1⟩).trans (hf2.mono fun k hk =>
      ⟨by omega, by omega, hk.2.2⟩)).trans (hf3.mono fun k hk => hk.1)
  · rw [hprompt, hplen2]
  · rw [lineTargets, if_neg hne]
    exact hH.frame (.refl (fun _ => True) _) (fun _ _ _ => trivial) fun k hk _ => hk.1
  · rw [hb3, hb2]

variable (other) in
/-- One line of assignments that the parser reads right, with slots enough for its keys, and so short that
`free` is not led astray. Only the command's own assignment is copied to the prompt. -/
theorem executeSingle_eq (h : Ready b o p line slots sh) (hl : AssignLine line)
    (hc : ParsesClean U sh.mem.next line)
    (hroom : (Slots.setAll slots (lineTargets sh.mem.next line)).length ≤ environDataSize)
    (hspares : SparesHeader line) (hpage : PageAligned U (sh.mem.next + 1)) :
    ∃ sh', executeSingle U other (.ofBlock b o) sh = .ok sh' ∧ LineDone b p line slots sh sh' ∧
      sh'.mem.bytes p = shown (keyOf (commandWord line)) (valueOf (commandWord line)) (sh.mem.bytes p) := by
  obtain ⟨c, m, e1, hp⟩ := h.parsed hl hc
  by_cases he : commandWord line = exportWord
  · obtain ⟨sh1, m', e2, e3, hdone, hprompt⟩ := hp.export (U := U) other h hl he hroom hspares hpage
    have hno : ¬ keyOf exportWord = ps1Word := by decide
    exact ⟨_, executeSingle_ok e1 e2 e3, hdone, hprompt.trans (by rw [shown, he, if_neg hno])⟩
  · obtain ⟨sh1, m', e2, e3, hdone, hprompt⟩ := hp.assigns (U := U) other h hl he hroom hspares hpage
    exact ⟨_, executeSingle_ok e1 e2 e3, hdone, hprompt⟩

end Line

end Sbunix.Sbush
