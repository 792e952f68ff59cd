/-
Commands that are no built-ins (bin/sbush/sbush.c): they run in a child, but for `rootfs/bin/sbush` and
`rootfs/bin/cat` the shell first runs the file that is their argument itself, with all its commands.

A nested script is as deep as the parameter `depth` allows. The files and the kernel's `chdir` are
parameters; what is printed is left out.
-/
import Sbunix.Sbush.Execution
import Sbunix.Sbush.ScriptRuns

namespace Sbunix.Sbush.Execution

open BlockMemory Fallible Libc

/-! ## The other built-ins -/

/-- `'$'` -/
def dollarChar : UInt8 := 36

/-- `"/"` -/
def root : List UInt8 := [47]

section Interpreter

variable (chdir : List UInt8 → List UInt8 → Option (List UInt8))

/-- A failure is only reported. -/
def changeDirectory (path : List UInt8) (sh : Shell) : Shell :=
  match chdir sh.directory path with
  | some directory => { sh with directory }
  | none => sh

def executeBuiltInCd (cArg : CommandArgument) (sh : Shell) : Except Fault Shell :=
  if cArg.argumentCount > 1 then .ok sh
  else if cArg.argumentCount = 1 then
    match cArg.arguments 0 with
    | .null => .error .null
    | .wild => .error .wild
    | p => .ok (changeDirectory chdir (textAt sh.mem p) sh)
  else .ok (changeDirectory chdir root sh)

/-- The directory is only printed. -/
def executeBuiltInPwd (_cArg : CommandArgument) (sh : Shell) : Except Fault Shell := .ok sh

/-- The loop over the arguments, `n` of them from index `i` on. -/
def echoLoop (cArg : CommandArgument) : Nat → Nat → Shell → Except Fault Shell
  | 0, _, sh => .ok sh
  | n + 1, i, sh => do
    let cDollar ← strchr sh.mem (cArg.arguments i) dollarChar
    if cDollar ≠ .null then
      let _ ← getenv sh.mem (.pointer (cDollar.add 1)) sh.environ
    echoLoop cArg n (i + 1) sh

def executeBuiltInEcho (cArg : CommandArgument) (sh : Shell) : Except Fault Shell :=
  echoLoop cArg cArg.argumentCount.toNat 0 sh

/-! ## executeFile from a command -/

variable (U : Unspecified) (unset : Nat → UInt8) (files : List UInt8 → Option (List UInt8))
  (unopened : Shell → Except Fault (List Call × Shell))

/-- How a call of `executeFile` ends for its caller. -/
def ended : List Call × Ending → Except Fault (List Call × Shell)
  | (calls, .returned sh) => .ok (calls, sh)
  | (_, .fault f) => .error f
  | (_, .stuck f) => .error f

/-- `executeFile(file_path)`, where `unopened` is what it does if `open` fails. -/
def executeFileAt (other : Nat → CommandArgument → Shell → Except Fault Shell) (filePath : Ptr) (sh : Shell) :
    Except Fault (List Call × Shell) :=
  match filePath with
  | .null => .error .null
  | .wild => .error .wild
  | p =>
    match files (textAt sh.mem p) with
    | none => unopened sh
    | some file => ended (executeFile U unset other file sh)

/-- What `executeCommand` does with a command that is no assignment, by its code. -/
def otherCommand : Nat → Nat → CommandArgument → Shell → Except Fault Shell
  | 0, _, _, _ => .error .outOfFuel
  | depth + 1, code, cArg, sh =>
    if code = builtInCd then executeBuiltInCd chdir cArg sh
    else if code = builtInPwd then executeBuiltInPwd cArg sh
    else if code = builtInEcho then executeBuiltInEcho cArg sh
    else
      (executeBinary U (executeFileAt U unset files unopened (otherCommand depth)) cArg sh).map fun r => r.2.2

end Interpreter

/-! ## The shell's own state -/

/-- The environment, the prompt and the directory are as they were, and so is every block of `m0`. -/
structure ShellKept (m0 : Mem) (sh sh' : Shell) : Prop where
  environ : sh'.environ = sh.environ
  ps1 : sh'.ps1 = sh.ps1
  directory : sh'.directory = sh.directory
  blocks : ∀ k < m0.next, Keeps k sh.mem sh'.mem

/-- The command returns, the shell is kept, and it has executed nothing itself. -/
def LeavesShell (U : Unspecified) (executeFile : Ptr → Shell → Except Fault (List Call × Shell))
    (other : Nat → CommandArgument → Shell → Except Fault Shell) (m0 : Mem) (cArg : CommandArgument)
    (sh : Shell) : Prop :=
  ∃ call sh', executeBinary U executeFile cArg sh = .ok (call, [], sh') ∧
    executeCommand U other (some cArg) sh = .ok sh' ∧ ShellKept m0 sh sh'

/-- The script of another shell: `#!x`. -/
def otherScript : List UInt8 := shebang ++ [120, newline]

section External

variable {U : Unspecified} {unset : Nat → UInt8} {chdir : List UInt8 → List UInt8 → Option (List UInt8)}
  {unopened : Shell → Except Fault (List Call × Shell)}
  {other : Nat → CommandArgument → Shell → Except Fault Shell} {cArg : CommandArgument} {sh sh' : Shell}
  {calls : List Call} {p : Ptr} {k : Nat} {word : List UInt8}

/-- The shell itself is replaced by the other one. -/
theorem executeFile_otherScript :
    (∃ f, ended (executeFile U unset other otherScript sh) = .error f) ∨
    ∃ file sh', ended (executeFile U unset other otherScript sh) = .ok ([.execvpe file], sh') := by
  obtain ⟨m, -, hbuf, -, -, ⟨f, -, heq⟩ | heq⟩ := executeFile_eq U unset other otherScript sh
  · exact .inl ⟨f, by rw [heq]; rfl⟩
  obtain ⟨m', -, -, hread⟩ := readShebang_line U unset hbuf (show meetsEnd 149 otherScript = false by decide)
    (by decide)
  have hno : firstLine otherScript ≠ sbushLine := by decide
  have hbang : shebang <+: firstLine otherScript := by decide
  rw [hread] at heq
  dsimp only at heq
  rw [decide_eq_false hno, decide_eq_true hbang, if_pos rfl, if_neg Bool.false_ne_true] at heq
  exact .inr ⟨_, _, by rw [heq]; rfl⟩

theorem executeFileAt_otherScript : executeFileAt U unset (fun _ => some otherScript) unopened other p sh ≠
    .ok ([], sh') := by
  intro h
  cases p with
  | null => cases h
  | wild => cases h
  | ofBlock b o =>
    have h' : ended (executeFile U unset other otherScript sh) = .ok ([], sh') := h
    rcases executeFile_otherScript with ⟨f, he⟩ | ⟨file, sh1, he⟩
    · rw [he] at h'
      cases h'
    · rw [he] at h'
      cases h'

theorem executeCommand_external (hcode : getBuiltInCode sh.mem cArg = .ok 0) :
    executeCommand U other (some cArg) sh = other 0 cArg sh := by
  unfold executeCommand
  dsimp only
  rw [hcode, ok_bind, if_neg (by decide), if_neg (by decide)]

theorem otherCommand_external (files : List UInt8 → Option (List UInt8)) (depth : Nat) :
    otherCommand chdir U unset files unopened (depth + 1) 0 cArg sh =
      (executeBinary U (executeFileAt U unset files unopened (otherCommand chdir U unset files unopened depth))
        cArg sh).map fun r => r.2.2 := by
  rw [otherCommand, if_neg (by decide), if_neg (by decide), if_neg (by decide)]

variable {executeFile : Ptr → Shell → Except Fault (List Call × Shell)} {value : List UInt8} {m0 : Mem}

/-- Only the command's buffer is stored to. -/
theorem leavesShell_of (h : PathReady k p word value cArg sh) (hsbush : word ≠ sbushFile) (hcat : word ≠ catFile)
    (hfit : value.length + word.length < commandLength) (hm0 : m0.next ≤ k)
    (hcode : getBuiltInCode sh.mem cArg = .ok 0)
    (hother : other 0 cArg sh = (executeBinary U executeFile cArg sh).map fun r => r.2.2) :
    LeavesShell U executeFile other m0 cArg sh := by
  obtain ⟨v, waited, hresult⟩ : CallsWithPath U k p sh (executeBinary U executeFile cArg sh) :=
    executeBinary_calls h hsbush hcat
  obtain ⟨m, hput, hf, -⟩ := putPath_eq (U := U) h.bytes h.block h.noNul h.value h.apart hfit
  rw [hput] at hresult
  have hblock := h.block
  refine ⟨⟨.ofBlock k 0, v, m, waited⟩, { sh with mem := m }, hresult, ?_, rfl, rfl, rfl, fun c hc => ?_⟩
  · rw [executeCommand_external hcode, hother, hresult]
    rfl
  · exact .of_frame hf ⟨by omega, by omega⟩

/-- Too long a path is stored behind the buffer. -/
theorem not_leavesShell_long (h : PathReady k p word value cArg sh) (hsbush : word ≠ sbushFile)
    (hcat : word ≠ catFile) (hlen : value.length < 2 ^ 31)
    (hlong : ¬ value.length + word.length < commandLength) : ¬ LeavesShell U executeFile other m0 cArg sh := by
  rintro ⟨call, sh', he, -, -⟩
  obtain ⟨v, waited, hresult⟩ : CallsWithPath U k p sh (executeBinary U executeFile cArg sh) :=
    executeBinary_calls h hsbush hcat
  rw [hresult] at he
  cases hput : putPath U (.ofBlock k 0) p sh.mem with
  | error f =>
    rw [hput] at he
    cases he
  | ok m => exact hlong (putPath_fits hput h.bytes h.block h.fits h.noNul h.value h.apart hlen)

/-- The script of another shell replaces this one. -/
theorem not_leavesShell_script (h : PathReady k p word value cArg sh) (hword : word = sbushFile ∨ word = catFile)
    (hfile : ∀ q sh', executeFile q sh ≠ .ok ([], sh')) : ¬ LeavesShell U executeFile other m0 cArg sh := by
  rintro ⟨call, sh', he, -, -⟩
  have hset : ∃ v, setExecutionArguments U executeFile (reserveVectors cArg) cArg sh = .ok (v, [], sh') := by
    unfold executeBinary at he
    split at he
    · obtain ⟨⟨v, calls, sh1⟩, hset, he⟩ := bind_eq_ok he
      cases he
      exact ⟨v, hset⟩
    · obtain ⟨⟨v, calls, sh1⟩, hset, he⟩ := bind_eq_ok he
      cases he
      exact ⟨v, hset⟩
  obtain ⟨v, hset⟩ := hset
  exact hfile _ _ (setExecutionArguments_script h hword hset)

end External

/-- Whatever the files are, an external command leaves the shell as it is and executes nothing in it,
exactly if it is neither of the two commands that run a file and the path fits before it. -/
theorem external_command_iff (U : Unspecified) (unset : Nat → UInt8)
    (chdir : List UInt8 → List UInt8 → Option (List UInt8)) (unopened : Shell → Except Fault (List Call × Shell))
    (depth : Nat) {sh : Shell} {m : Mem} {b o : Nat} {line word value : List UInt8}
    {slots : List (List UInt8 × Ptr)} {cArg : CommandArgument} (hline : sh.mem.StringAt b o line)
    (hparse : parseInput U space sh.mem (.ofBlock b o) = .ok (some cArg, m))
    (hcode : getBuiltInCode m cArg = .ok 0) (hword : m.String cArg.command word)
    (henv : Holds (fun _ => True) sh.mem sh.environ slots)
    (hvalue : ValueAt sh.mem ((Slots.find slots pathWord).getD .null) value) (hlen : value.length < 2 ^ 31) :
    (∀ files, LeavesShell U (executeFileAt U unset files unopened (otherCommand chdir U unset files unopened depth))
      (otherCommand chdir U unset files unopened (depth + 1)) sh.mem cArg { sh with mem := m }) ↔
    word ≠ sbushFile ∧ word ≠ catFile ∧ value.length + word.length < commandLength := by
  have h := pathReady_parsed hline hparse hword henv hvalue
  constructor
  · intro hleaves
    have hneither : ¬ (word = sbushFile ∨ word = catFile) := fun hscript =>
      not_leavesShell_script h hscript (fun _ _ => executeFileAt_otherScript) (hleaves fun _ => some otherScript)
    rw [not_or] at hneither
    refine ⟨hneither.1, hneither.2, ?_⟩
    by_contra hlong
    exact not_leavesShell_long h hneither.1 hneither.2 hlen hlong (hleaves fun _ => none)
  · rintro ⟨hsbush, hcat, hfit⟩ files
    exact leavesShell_of h hsbush hcat hfit (Nat.le_succ _) hcode (otherCommand_external files depth)

/-- `rootfs/bin/cat f` -/
def catLine : List UInt8 := catFile ++ [space, 102]

theorem getBuiltInCode_parsed {line word : List UInt8} {m : Mem} {cArg : CommandArgument} {slots value}
    (hline : (pathShell line).mem.StringAt 0 0 line)
    (hparse : parseInput (filled 0) space (pathShell line).mem (.ofBlock 0 0) = .ok (some cArg, m))
    (hword : m.String cArg.command word)
    (henv : Holds (fun _ => True) (pathShell line).mem (pathShell line).environ slots)
    (hvalue : ValueAt (pathShell line).mem ((Slots.find slots pathWord).getD .null) value)
    (hbinary : newline ∉ word ∧ ¬ BuiltInWord word) : getBuiltInCode m cArg = .ok 0 := by
  have h := pathReady_parsed hline hparse hword henv hvalue
  exact (getBuiltInCode_zero_iff h.string h.command hbinary.1).2 hbinary.2

/-- `ls` -/
theorem external_ls : ∃ c m, parseInput (filled 0) space (pathShell [108, 115]).mem (.ofBlock 0 0) =
      .ok (some c, m) ∧
    ∀ files, LeavesShell (filled 0) (executeFileAt (filled 0) (fun _ => 0) files (fun sh => .ok ([], sh))
        (otherCommand (fun _ _ => none) (filled 0) (fun _ => 0) files (fun sh => .ok ([], sh)) 0))
      (otherCommand (fun _ _ => none) (filled 0) (fun _ => 0) files (fun sh => .ok ([], sh)) 1)
      (pathShell [108, 115]).mem c { pathShell [108, 115] with mem := m } := by
  obtain ⟨hs, c, m, he, hword⟩ := pathShell_parsed [108, 115] (by decide)
  obtain ⟨henv, hvalue⟩ := pathShell_value [108, 115]
  have hcode := getBuiltInCode_parsed hs he hword henv hvalue (by decide)
  exact ⟨c, m, he, (external_command_iff (filled 0) (fun _ => 0) (fun _ _ => none) (fun sh => .ok ([], sh)) 0 hs he
    hcode hword henv hvalue (by decide)).2 (by decide)⟩

/-- `f` is the script of another shell, and the shell itself becomes it. -/
theorem cat_replaces_shell : ∃ c m, parseInput (filled 0) space (pathShell catLine).mem (.ofBlock 0 0) =
      .ok (some c, m) ∧ getBuiltInCode m c = .ok 0 ∧
    ¬ LeavesShell (filled 0) (executeFileAt (filled 0) (fun _ => 0) (fun _ => some otherScript)
        (fun sh => .ok ([], sh))
        (otherCommand (fun _ _ => none) (filled 0) (fun _ => 0) (fun _ => some otherScript) (fun sh => .ok ([], sh)) 0))
      (otherCommand (fun _ _ => none) (filled 0) (fun _ => 0) (fun _ => some otherScript) (fun sh => .ok ([], sh)) 1)
      (pathShell catLine).mem c { pathShell catLine with mem := m } := by
  obtain ⟨hs, c, m, he, hword⟩ := pathShell_parsed catLine (by decide)
  obtain ⟨henv, hvalue⟩ := pathShell_value catLine
  have hcat : firstWord space (trimmed catLine) = catFile := by decide
  rw [hcat] at hword
  refine ⟨c, m, he, getBuiltInCode_parsed hs he hword henv hvalue (by decide), ?_⟩
  exact not_leavesShell_script (pathReady_parsed hs he hword henv hvalue) (.inr rfl)
    fun _ _ => executeFileAt_otherScript

end Sbunix.Sbush.Execution
