/-
The built-in language of the shell (bin/sbush/sbush.c): assignments, `echo`, `cd` and `pwd`, what each of
them prints, and the interpreter that is meant by it, over the values of the variables, the prompt and the
current directory.

`echo` knows no texts: it prints the value behind the first `'$'` of each argument that has one, and a
newline.
-/
import Sbunix.Sbush.Dispatch
import Sbunix.Sbush.Prompt
import Sbunix.Sbush.ScriptAssigns

namespace Sbunix.Sbush

open BlockMemory Fallible Libc Execution

/-! ## What is printed -/

/-- `"No argument is allowed for pwd."` -/
def pwdMessage : List UInt8 := [78, 111, 32, 97, 114, 103, 117, 109, 101, 110, 116, 32, 105, 115, 32, 97, 108,
  108, 111, 119, 101, 100, 32, 102, 111, 114, 32, 112, 119, 100, 46]

/-- `"Max 1 argument is allowed for cd."` -/
def cdMessage : List UInt8 := [77, 97, 120, 32, 49, 32, 97, 114, 103, 117, 109, 101, 110, 116, 32, 105, 115, 32,
  97, 108, 108, 111, 119, 101, 100, 32, 102, 111, 114, 32, 99, 100, 46]

/-- `"Error in cd"` -/
def cdFailure : List UInt8 := [69, 114, 114, 111, 114, 32, 105, 110, 32, 99, 100]

/-- `char cwd[1024]` -/
def sizeofCwd : Nat := 1024

/-- What `getcwd` puts into `cwd`: nothing if the name does not fit. -/
def getcwdText (directory : List UInt8) : List UInt8 := if directory.length < sizeofCwd then directory else []

section Printed

variable (chdir : List UInt8 → List UInt8 → Option (List UInt8))

/-- What follows on the result of `chdir`. -/
def cdResult : Option (List UInt8) → List UInt8
  | some _ => []
  | none => cdFailure ++ [newline]

/-- What `executeBuiltInCd` prints. -/
def cdText (cArg : CommandArgument) (sh : Shell) : Except Fault (List UInt8) :=
  if cArg.argumentCount > 1 then .ok (cdMessage ++ [newline])
  else if cArg.argumentCount = 1 then
    match cArg.arguments 0 with
    | .null => .error .null
    | .wild => .error .wild
    | p => .ok (cdResult (chdir sh.directory (textAt sh.mem p)))
  else .ok (cdResult (chdir sh.directory root))

/-- What `executeBuiltInPwd` prints. -/
def pwdText (cArg : CommandArgument) (sh : Shell) : List UInt8 :=
  if cArg.argumentCount > 1 then pwdMessage ++ [newline] else getcwdText sh.directory ++ [newline]

/-- What the loop of `executeBuiltInEcho` prints; `custom_fputs` prints nothing of NULL. -/
def echoText (cArg : CommandArgument) (sh : Shell) : Nat → Nat → Except Fault (List UInt8)
  | 0, _ => .ok []
  | n + 1, i => do
    let cDollar ← strchr sh.mem (cArg.arguments i) dollarChar
    if cDollar ≠ .null then
      let result ← getenv sh.mem (.pointer (cDollar.add 1)) sh.environ
      let text ← echoText cArg sh n (i + 1)
      return textAt sh.mem result ++ newline :: text
    else
      echoText cArg sh n (i + 1)

/-- What `executeCommand` prints of a built-in; assignments print nothing. -/
def commandText (code : Nat) (cArg : CommandArgument) (sh : Shell) : Except Fault (List UInt8) :=
  if code = builtInCd then cdText chdir cArg sh
  else if code = builtInPwd then .ok (pwdText cArg sh)
  else if code = builtInEcho then echoText cArg sh cArg.argumentCount.toNat 0
  else .ok []

/-- What the shell itself prints of a line without a `'|'`. -/
def lineText (U : Unspecified) (input : Ptr) (sh : Shell) : Except Fault (List UInt8) := do
  match ← parseInput U space sh.mem input with
  | (none, _) => .error .null
  | (some cArg, m) =>
    let code ← getBuiltInCode m cArg
    commandText chdir code cArg { sh with mem := m }

/-- `other` does what `executeCommand` does with these built-ins. -/
structure BuiltIns (other : Nat → CommandArgument → Shell → Except Fault Shell) : Prop where
  cd : ∀ cArg sh, other builtInCd cArg sh = executeBuiltInCd chdir cArg sh
  pwd : ∀ cArg sh, other builtInPwd cArg sh = executeBuiltInPwd cArg sh
  echo : ∀ cArg sh, other builtInEcho cArg sh = executeBuiltInEcho cArg sh

theorem otherCommand_builtIns (U : Unspecified) (unset : Nat → UInt8) (files : List UInt8 → Option (List UInt8))
    (unopened : Shell → Except Fault (List Call × Shell)) (depth : Nat) :
    BuiltIns chdir (otherCommand chdir U unset files unopened (depth + 1)) where
  cd _ _ := rfl
  pwd _ _ := rfl
  echo _ _ := rfl

end Printed

/-! ## What is meant -/

/-- What the user knows of the shell. -/
structure State where
  values : List UInt8 → Option (List UInt8)
  prompt : List UInt8
  directory : List UInt8

/-- The text behind the first `'$'`. -/
def behindDollar (word : List UInt8) : List UInt8 := (word.dropWhile (· ≠ dollarChar)).tail

section Meaning

variable (chdir : List UInt8 → List UInt8 → Option (List UInt8)) (s : State)

def State.echoes (args : List (List UInt8)) : List UInt8 :=
  args.flatMap fun word =>
    if dollarChar ∈ word then (s.values (behindDollar word)).getD [] ++ [newline] else []

/-- A refused directory leaves the shell where it is. -/
def State.goes (path : List UInt8) : List UInt8 × State :=
  match chdir s.directory path with
  | some directory => ([], { s with directory })
  | none => (cdFailure ++ [newline], s)

def State.assigns (line : List UInt8) : State where
  values key := (Slots.lastValue (assignments line) key).or (s.values key)
  prompt := promptAfter line s.prompt
  directory := s.directory

/-- What a line prints, and the state after it. -/
def State.execute (line : List UInt8) : List UInt8 × State :=
  if commandWord line = cd then
    match argWords line with
    | [] => s.goes chdir root
    | [path] => s.goes chdir path
    | _ => (cdMessage ++ [newline], s)
  else if commandWord line = pwd then
    if (argWords line).length > 1 then (pwdMessage ++ [newline], s)
    else (getcwdText s.directory ++ [newline], s)
  else if commandWord line = echo then (s.echoes (argWords line), s)
  else ([], s.assigns line)

end Meaning

/-! ## A line -/

/-- A line of `cd`, `pwd` or `echo` that the parser reads right, whichever blocks it gets. -/
structure BuiltInLine (U : Unspecified) (line : List UInt8) : Prop where
  noNul : 0 ∉ line
  newlineLast : NewlineLast line
  single : pipeChar ∉ line
  fits : FitsBuffers line
  clean : ∀ n, ParsesClean U n line
  short : (trimmed line).length ≤ 16
  builtIn : commandWord line ∈ [cd, pwd, echo]

section Line

variable {U : Unspecified} {chdir : List UInt8 → List UInt8 → Option (List UInt8)}
  {other : Nat → CommandArgument → Shell → Except Fault Shell} {Q : Nat → Prop} {m : Mem}
  {b p n base k : Nat} {c : CommandArgument} {line word : List UInt8} {lines : List (List UInt8)} {sh : Shell}
  {slots : List (List UInt8 × Ptr)} {s : State}

theorem split_dollar (h : dollarChar ∈ word) : ∃ pre, word = pre ++ dollarChar :: behindDollar word ∧
    word.idxOf dollarChar = pre.length := by
  obtain ⟨pre, post, rfl, hpre⟩ := List.eq_append_cons_of_mem h
  have hdrop : (pre ++ dollarChar :: post).dropWhile (· ≠ dollarChar) = dollarChar :: post := by
    rw [List.dropWhile_append_of_pos fun ch hch => by simpa using fun he : ch = dollarChar => hpre (he ▸ hch),
      List.dropWhile_cons_of_neg (by simp)]
  refine ⟨pre, by rw [behindDollar, hdrop, List.tail_cons], ?_⟩
  rw [List.idxOf_append_of_notMem hpre, List.idxOf_cons_self, Nat.add_zero]

/-- The key that `echo` asks for. -/
theorem behindDollar_string (hs : m.StringAt k 0 word) (h : dollarChar ∈ word) :
    m.StringAt k (word.idxOf dollarChar + 1) (behindDollar word) := by
  obtain ⟨pre, hword, hidx⟩ := split_dollar h
  obtain ⟨r, hr⟩ := hs.eq_append
  unfold Mem.StringAt
  rw [List.drop_zero, hword, List.append_assoc] at hr
  rw [hidx, hr, ← List.drop_drop, List.drop_left, List.cons_append, List.drop_succ_cons, List.drop_zero]
  refine isString_append (fun h0 => hs.noNul ?_) r
  rw [hword]
  exact List.mem_append_right _ (List.mem_cons_of_mem _ h0)

/-- `getenv` answers with the values of the state. -/
def Answers (m : Mem) (slots : List (List UInt8 × Ptr)) (s : State) : Prop :=
  ∀ key, textAt m ((Slots.find slots key).getD .null) = (s.values key).getD []

/-- By recursion on the arguments that are left. -/
theorem echo_eq (henv : Holds Q sh.mem sh.environ slots) (hanswers : Answers sh.mem slots s) :
    ∀ (words : List (List UInt8)) (i : Nat), ArgsAt sh.mem c base i words → (∀ w ∈ words, newline ∉ w) →
      echoLoop c words.length i sh = .ok sh ∧ echoText c sh words.length i = .ok (s.echoes words)
  | [], _, _, _ => ⟨rfl, rfl⟩
  | word :: words, i, ⟨⟨hptr, hs⟩, hrest⟩, hnew => by
    obtain ⟨hloop, htext⟩ := echo_eq henv hanswers words (i + 1) hrest
      fun w hw => hnew w (List.mem_cons_of_mem _ hw)
    have hword : word.takeWhile (· ≠ newline) = word := List.takeWhile_eq_self_iff.2 fun ch hch => by
      simpa using fun he : ch = newline => hnew word List.mem_cons_self (he ▸ hch)
    have hfind := strchr_string (c := dollarChar) hs
    rw [hword, Nat.cast_zero, zero_add] at hfind
    have hechoes : s.echoes (word :: words) = (if dollarChar ∈ word then
        (s.values (behindDollar word)).getD [] ++ [newline] else []) ++ s.echoes words := by
      rw [State.echoes, List.flatMap_cons, ← State.echoes]
    rw [List.length_cons, echoLoop, echoText, hptr, hfind, ok_bind, ok_bind, hechoes]
    by_cases hd : dollarChar ∈ word
    · have hsrc : Source.IsString sh.mem (.pointer (.ofBlock (base + i) (word.idxOf dollarChar + 1 : Nat)))
          (behindDollar word) := ⟨_, _, rfl, behindDollar_string hs hd⟩
      have hget := getenv_eq hsrc henv
      rw [if_pos hd, if_pos hd, if_pos (by simp), if_pos (by simp), Ptr.add]
      rw [Nat.cast_add, Nat.cast_one] at hget
      rw [hget, ok_bind, ok_bind, htext, ok_bind, hanswers]
      exact ⟨hloop, by rw [List.append_assoc, List.singleton_append]; rfl⟩
    · rw [if_neg hd, if_neg hd, if_neg (by simp), if_neg (by simp)]
      exact ⟨hloop, htext⟩

/-- Of `cd`, `pwd` and `echo`, only `cd` changes anything, and that is the directory. -/
theorem execute_builtIn (s : State) (h : commandWord line ∈ [cd, pwd, echo]) :
    (s.execute chdir line).2 = { s with directory := (s.execute chdir line).2.directory } := by
  have hgoes : ∀ path, (s.goes chdir path).2 = { s with directory := (s.goes chdir path).2.directory } := by
    intro path
    unfold State.goes
    split <;> rfl
  unfold State.execute
  split
  · split
    · exact hgoes root
    · exact hgoes _
    · rfl
  · split
    · split <;> rfl
    · rw [if_pos (by simp_all)]

/-- What a built-in does with its words, and what it prints. -/
structure Does (U : Unspecified) (chdir : List UInt8 → List UInt8 → Option (List UInt8))
    (other : Nat → CommandArgument → Shell → Except Fault Shell) (c : CommandArgument) (sh : Shell)
    (text directory : List UInt8) : Prop where
  runs : executeCommand U other (some c) sh = .ok { sh with directory }
  prints : (getBuiltInCode sh.mem c >>= fun code => commandText chdir code c sh) = .ok text

theorem does_of_code {code : Nat} {text directory : List UInt8}
    (hcode : getBuiltInCode sh.mem c = .ok code) (hne : code ≠ builtInExport)
    (hne' : code ≠ builtInWithoutExport) (hruns : other code c sh = .ok { sh with directory })
    (hprints : commandText chdir code c sh = .ok text) : Does U chdir other c sh text directory where
  runs := by
    unfold executeCommand
    dsimp only
    rw [hcode, ok_bind, if_neg hne, if_neg hne', hruns]
  prints := by rw [hcode, ok_bind, hprints]

theorem cd_does (hb : BuiltIns chdir other) (hcode : getBuiltInCode sh.mem c = .ok builtInCd)
    {words : List (List UInt8)} (hcount : c.argumentCount = words.length) (hargs : ArgsAt sh.mem c base 0 words)
    (hword : commandWord line = cd) (hline : argWords line = words) (hdir : sh.directory = s.directory) :
    Does U chdir other c sh (s.execute chdir line).1 (s.execute chdir line).2.directory := by
  have hgoes : ∀ path, executeBuiltInCd chdir c sh = .ok (changeDirectory chdir path sh) →
      cdText chdir c sh = .ok (cdResult (chdir sh.directory path)) →
      s.execute chdir line = s.goes chdir path →
      Does U chdir other c sh (s.execute chdir line).1 (s.execute chdir line).2.directory := by
    intro path hruns hprints hexec
    refine does_of_code hcode (by decide) (by decide) ?_ ?_
    · rw [hb.cd, hruns, hexec, changeDirectory, State.goes, hdir]
      cases chdir s.directory path with
      | some directory => rfl
      | none => rw [← hdir]
    · rw [commandText, if_pos rfl, hprints, hexec, State.goes, hdir]
      cases chdir s.directory path <;> rfl
  match words, hcount, hargs, hline with
  | [], hcount, _, hline =>
    refine hgoes root ?_ ?_ ?_
    · rw [executeBuiltInCd, hcount, if_neg (by simp), if_neg (by simp)]
    · rw [cdText, hcount, if_neg (by simp), if_neg (by simp)]
    · rw [State.execute, if_pos hword, hline]
  | [path], hcount, ⟨⟨hptr, hs⟩, _⟩, hline =>
    have htext : textAt sh.mem (.ofBlock (base + 0) 0) = path := textAt_string hs
    refine hgoes path ?_ ?_ ?_
    · rw [executeBuiltInCd, hcount, if_neg (by simp), if_pos (by simp), hptr]
      dsimp only
      rw [htext]
    · rw [cdText, hcount, if_neg (by simp), if_pos (by simp), hptr]
      dsimp only
      rw [htext]
    · rw [State.execute, if_pos hword, hline]
  | w :: w' :: words, hcount, _, hline =>
    have hmany : c.argumentCount > 1 := by
      rw [hcount]
      simp
    have hexec : s.execute chdir line = (cdMessage ++ [newline], s) := by
      rw [State.execute, if_pos hword, hline]
    refine does_of_code hcode (by decide) (by decide) ?_ ?_
    · rw [hb.cd, executeBuiltInCd, if_pos hmany, hexec, ← hdir]
    · rw [commandText, if_pos rfl, cdText, if_pos hmany, hexec]

theorem BuiltInLine.trimmed_ne_nil (hl : BuiltInLine U line) : trimmed line ≠ [] := by
  intro he
  have hword : commandWord line = [] := by rw [commandWord, he]; rfl
  have hbuiltIn := hl.builtIn
  rw [hword] at hbuiltIn
  exact absurd hbuiltIn (by decide)

theorem LineParsed.does (hp : LineParsed b p n line slots sh c m) (hl : BuiltInLine U line)
    (hb : BuiltIns chdir other) (hanswers : Answers m slots s) (hdir : sh.directory = s.directory) :
    Does U chdir other c { sh with mem := m } (s.execute chdir line).1 (s.execute chdir line).2.directory := by
  have hcode := getBuiltInCode_eq hp.command hp.commandPtr
  have hmem := hl.builtIn
  rw [List.mem_cons, List.mem_pair] at hmem
  rcases hmem with hword | hword | hword
  · rw [hword] at hcode
    exact cd_does hb hcode hp.count hp.arguments hword rfl hdir
  · rw [hword] at hcode
    have hexec : s.execute chdir line = if (argWords line).length > 1 then (pwdMessage ++ [newline], s)
        else (getcwdText s.directory ++ [newline], s) := by
      rw [State.execute, if_neg (by rw [hword]; decide), if_pos hword]
    refine does_of_code hcode (by decide) (by decide) ?_ ?_
    · rw [hb.pwd, executeBuiltInPwd, hexec]
      split <;> rw [← hdir]
    · rw [commandText, if_neg (by decide), if_pos rfl, pwdText, hexec, hp.count, hdir]
      by_cases hmany : (argWords line).length > 1
      · rw [if_pos (by omega), if_pos hmany]
      · rw [if_neg (by omega), if_neg hmany]
  · rw [hword] at hcode
    have hexec : s.execute chdir line = (s.echoes (argWords line), s) := by
      rw [State.execute, if_neg (by rw [hword]; decide), if_neg (by rw [hword]; decide), if_pos hword]
    have hnew : ∀ w ∈ argWords line, newline ∉ w := fun w hw hn =>
      hl.newlineLast.trimmed (mem_of_laterWords _ w (List.mem_filter.1 hw).1 hn)
    obtain ⟨hloop, htext⟩ : echoLoop c (argWords line).length 0 { sh with mem := m } = .ok { sh with mem := m } ∧
        echoText c { sh with mem := m } (argWords line).length 0 = .ok (s.echoes (argWords line)) :=
      echo_eq hp.environ hanswers (argWords line) 0 hp.arguments hnew
    refine does_of_code hcode (by decide) (by decide) ?_ ?_
    · rw [hb.echo, executeBuiltInEcho, hp.count, Int.toNat_natCast, hloop, hexec, ← hdir]
    · rw [commandText, if_neg (by decide), if_neg (by decide), if_pos rfl, hp.count, Int.toNat_natCast, htext,
        hexec]

/-- The session goes on as the interpreter does: after the lines, with a state that the user knows. -/
structure InSession (b p : Nat) (lines : List (List UInt8)) (slots : List (List UInt8 × Ptr)) (s : State)
    (sh : Shell) : Prop extends Reached b p [] lines slots sh where
  values : s.values = Slots.lastValue (history lines)
  shows : sh.mem.StringAt p 0 s.prompt
  place : sh.directory = s.directory

theorem Stored.textAt {value : List UInt8} {q : Ptr} (h : Stored b p m value q) : Sbush.textAt m q = value := by
  obtain ⟨k, o, rfl, -, hs⟩ := h
  exact textAt_of_string ⟨k, o, rfl, hs⟩

theorem InSession.find_none (h : InSession b p lines slots s sh) {key : List UInt8}
    (hv : Slots.lastValue (history lines) key = none) : Slots.find slots key = none := by
  rw [Slots.find_eq_none_iff]
  intro hk
  rcases h.keys key hk with hk | hk
  · cases hk
  · exact (Slots.lastValue_eq_none_iff _ _).1 hv hk

theorem InSession.answers (h : InSession b p lines slots s sh)
    (hf : Frame (fun c => c < sh.mem.next ∧ Kept b p c) sh.mem m) : Answers m slots s := by
  intro key
  rw [h.values]
  cases hv : Slots.lastValue (history lines) key with
  | some value =>
    obtain ⟨q, hq, hstored⟩ := h.stores key value hv
    rw [hq]
    exact (hstored.frame hf).textAt
  | none =>
    rw [h.find_none hv]
    rfl

theorem Reached.inDirectory {slots0 : List (List UInt8 × Ptr)} (h : Reached b p slots0 lines slots sh)
    (directory : List UInt8) : Reached b p slots0 lines slots { sh with directory } where
  buffer := h.buffer
  apart := h.apart
  prompt := h.prompt
  promptLength := h.promptLength
  environ := h.environ
  nodup := h.nodup
  keys := h.keys
  stores := h.stores

variable (chdir) in
/-- A line of a built-in that stands in the buffer does and prints what the interpreter says. -/
theorem InSession.builtIn (h : InSession b p lines slots s sh) (hb : BuiltIns chdir other)
    (hs : sh.mem.StringAt b 0 line) (hl : BuiltInLine U line) (hpage : PageAligned U (sh.mem.next + 1)) :
    ∃ sh', parseAndExecuteCommand U other (.ofBlock b 0) sh = .ok sh' ∧
      lineText chdir U (.ofBlock b 0) sh = .ok (s.execute chdir line).1 ∧
      InSession b p lines slots (s.execute chdir line).2 sh' ∧ sh.mem.next ≤ sh'.mem.next := by
  obtain ⟨c, m, hparse, hp⟩ := Ready.parsed_of_fits (U := U) ⟨h.toShellAt, hs⟩ hl.fits (hl.clean _)
  have hpn := h.lt_next
  have hf : Frame (fun c => c < sh.mem.next ∧ Kept b p c) sh.mem m :=
    hp.frame.mono fun c hc => ⟨hc.1, hc.2.1⟩
  obtain ⟨hruns, hprints⟩ := hp.does hl hb (h.answers hf) h.place
  have hlen : longest (argWords line) ≤ (m.bytes (sh.mem.next + 1)).length := by
    rw [longest_le]
    intro w hw
    have hlt : w.length < argumentLength := hl.fits.words w (List.mem_filter.1 hw).1
    rw [hp.commandBuffer]
    unfold argumentLength at hlt
    unfold commandLength
    omega
  obtain ⟨m', hfree, hf', -, -⟩ := freeCommandArgument_eq hp.trimmedPtr hp.commandPtr hp.count (by omega) (by omega)
    hp.command hp.arguments hlen (by rw [hp.commandBuffer]; decide) (hp.quiet hl.trimmed_ne_nil hl.short) hpage
  have hf2 : Frame (fun c => c < sh.mem.next ∧ Kept b p c) sh.mem m' :=
    hf.trans (hf'.mono fun c hc => by omega)
  have hprompt : m'.bytes p = sh.mem.bytes p := by
    rw [hf'.bytes p (by omega), hp.frame.bytes p ⟨hpn, h.apart.symm⟩]
  have hat : ShellAt b p slots { sh with mem := m' } := by
    constructor
    case buffer => exact Nat.lt_of_lt_of_le h.buffer hf2.next_le
    case apart => exact h.apart
    case prompt => exact h.prompt
    case promptLength =>
      show (m'.bytes p).length = maxPS1Length
      rw [hprompt, h.promptLength]
    case environ =>
      refine hp.environ.frame hf' (fun k hk _ he => ?_) fun k hk _ => hk.1
      subst he
      exact not_apart (by omega) (by omega) hk
  have hpipe : ¬ pipeChar ∈ line.takeWhile (· ≠ newline) := fun hc => hl.single (List.takeWhile_subset _ hc)
  have hfind := strchr_string (c := pipeChar) hs
  rw [if_neg hpipe] at hfind
  refine ⟨{ sh with mem := m', directory := (s.execute chdir line).2.directory }, ?_, ?_, ?_, hf2.next_le⟩
  · rw [parseAndExecuteCommand, show strchr sh.mem (.ofBlock b 0) pipeChar = _ from hfind, ok_bind,
      if_neg (by simp)]
    exact executeSingle_ok hparse hruns hfree
  · rw [lineText, show parseInput U space sh.mem (.ofBlock b 0) = _ from hparse, ok_bind]
    exact hprints
  · rw [execute_builtIn s hl.builtIn]
    exact ⟨(h.toReached.moved hat hf2).inDirectory _, h.values,
      Mem.stringAt_of_bytes hprompt h.shows, rfl⟩

/-! ## Assignments -/

theorem assign_directory {sh' : Shell} {q r : Ptr} (h : assign U sh q = .ok (sh', r)) :
    sh'.directory = sh.directory := by
  unfold assign at h
  obtain ⟨cEqual, -, h⟩ := bind_eq_ok h
  split at h
  · cases h
    rfl
  · obtain ⟨m, -, h⟩ := bind_eq_ok h
    obtain ⟨⟨_, environ, m'⟩, -, h⟩ := bind_eq_ok h
    cases h
    rfl

theorem exportLoop_directory : ∀ (n i : Nat) {sh sh' : Shell}, exportLoop U c n i sh = .ok sh' →
    sh'.directory = sh.directory
  | 0, _, sh, sh', h => by
    cases h
    rfl
  | n + 1, i, sh, sh', h => by
    rw [exportLoop] at h
    obtain ⟨⟨sh1, q⟩, h1, h⟩ := bind_eq_ok h
    exact (exportLoop_directory n (i + 1) h).trans (assign_directory h1)

theorem setPS1_directory {sh' : Shell} {value : Ptr} (h : setPS1 U c value sh = .ok sh') :
    sh'.directory = sh.directory := by
  unfold setPS1 at h
  obtain ⟨d, -, h⟩ := bind_eq_ok h
  split at h
  · obtain ⟨m, -, h⟩ := bind_eq_ok h
    obtain ⟨⟨len, m1⟩, -, h⟩ := bind_eq_ok h
    obtain ⟨⟨_, m2⟩, -, h⟩ := bind_eq_ok h
    cases h
    rfl
  · cases h
    rfl

/-- An assignment leaves the directory alone, and nothing is printed. -/
theorem executeCommand_directory {sh' : Shell} {code : Nat} (hcode : getBuiltInCode sh.mem c = .ok code)
    (hassign : code = builtInExport ∨ code = builtInWithoutExport)
    (h : executeCommand U other (some c) sh = .ok sh') : sh'.directory = sh.directory := by
  have hexport : ∀ {sh1 : Shell}, executeBuiltInExport U c sh1 = .ok sh' → sh'.directory = sh1.directory :=
    fun h => exportLoop_directory _ _ h
  unfold executeCommand at h
  dsimp only at h
  rw [hcode, ok_bind] at h
  rcases hassign with rfl | rfl
  · exact hexport h
  · rw [if_neg (by decide), if_pos rfl, executeBuiltInWithoutExport] at h
    obtain ⟨⟨sh1, cEqual⟩, h1, h⟩ := bind_eq_ok h
    dsimp only at h
    split at h
    · obtain ⟨sh2, h2, h⟩ := bind_eq_ok h
      exact (hexport h).trans ((setPS1_directory h2).trans (assign_directory h1))
    · exact (hexport h).trans (assign_directory h1)

theorem AssignLine.code (hl : AssignLine line) (hp : LineParsed b p n line slots sh c m) :
    ∃ code, getBuiltInCode m c = .ok code ∧ (code = builtInExport ∨ code = builtInWithoutExport) := by
  by_cases he : commandWord line = exportWord
  · exact ⟨_, getBuiltInCode_export (he ▸ hp.command) hp.commandPtr, .inl rfl⟩
  · exact ⟨_, getBuiltInCode_assigns (hl.command he) hp.command hp.commandPtr, .inr rfl⟩

/-- What assigns is no other built-in. -/
theorem AssignLine.execute (hl : AssignLine line) (s : State) : s.execute chdir line = ([], s.assigns line) := by
  have hne : ∀ w, equalsChar ∉ w → w ≠ exportWord → commandWord line ≠ w := by
    rintro w hw hexport rfl
    exact hw (hl.command hexport).equals
  rw [State.execute, if_neg (hne cd (by decide) (by decide)), if_neg (hne pwd (by decide) (by decide)),
    if_neg (hne echo (by decide) (by decide))]

variable (chdir other) in
/-- A line of assignments that stands in the buffer. -/
theorem InSession.assign (h : InSession b p lines slots s sh) (hs : sh.mem.StringAt b 0 line)
    (hl : AssignLine line) (hh : Harmless U sh.mem.next line)
    (hk : keyCount (lines ++ [line]) < environDataSize) (hpage : PageAligned U (sh.mem.next + 1)) :
    ∃ sh' slots', parseAndExecuteCommand U other (.ofBlock b 0) sh = .ok sh' ∧
      lineText chdir U (.ofBlock b 0) sh = .ok (s.execute chdir line).1 ∧
      InSession b p (lines ++ [line]) slots' (s.execute chdir line).2 sh' ∧ sh.mem.next ≤ sh'.mem.next := by
  have hready : Ready b 0 p line slots sh := ⟨h.toShellAt, hs⟩
  obtain ⟨sh', he, hd, hshown⟩ := executeSingle_eq (U := U) other hready hl hh.clean
    (h.keysOf.room (Nat.zero_le 1) hk) hh.header hpage
  have hreached := h.lineDone h.toShellAt (.refl _ _) rfl hl hh.spares hd
  obtain ⟨c, m, hparse, hp⟩ := hready.parsed hl hh.clean
  obtain ⟨code, hcode, hassign⟩ := hl.code hp
  rw [hl.execute]
  refine ⟨sh', _, (hl.single_eq hs).trans he, ?_, ⟨hreached, ?_, ?_, ?_⟩, hd.frame.next_le⟩
  · rw [lineText, show parseInput U space sh.mem (.ofBlock b 0) = _ from hparse, ok_bind]
    dsimp only
    rw [hcode, ok_bind]
    rcases hassign with rfl | rfl <;> rfl
  · funext key
    rw [State.assigns, history_snoc, Slots.lastValue_append, h.values]
  · have hfit : (valueOf (commandWord line)).length < maxPS1Length := by
      have h1 : (commandWord line).length < commandLength := hl.fits.command
      have h2 := length_valueOf_le (commandWord line)
      unfold commandLength at h1
      unfold maxPS1Length
      omega
    refine Mem.stringAt_of_bytes hshown ?_
    rw [List.drop_zero]
    exact isString_shown h.shows hl.noNul_value hfit
  · rw [executeSingle, hparse, ok_bind] at he
    dsimp only at he
    obtain ⟨sh1, hexec, he⟩ := bind_eq_ok he
    obtain ⟨m', -, he⟩ := bind_eq_ok he
    cases he
    have hsame : sh1.directory = ({ sh with mem := m } : Shell).directory :=
      executeCommand_directory hcode hassign hexec
    exact hsame.trans h.place

end Line

end Sbunix.Sbush
