/-
The shell's treatment of a command line (bin/sbush/sbush.c): cutting it at `'|'`, the built-ins
that assign, and the release of the parsed command.

What the other built-ins and the binaries do to the shell is a parameter of `executeCommand`; a
pipeline that is started is recorded, its processes are not part of this state.
-/
import Sbunix.Libc.Env
import Sbunix.Sbush.Parser

namespace Sbunix.Sbush

open BlockMemory Fallible Libc

/-- `'|'` -/
def pipeChar : UInt8 := 124

/-- `'='` -/
def equalsChar : UInt8 := 61

def maxPS1Length : Nat := 100

/-- The shell's memory, the slots of `environ_vars`, the array `PS1`, the pipelines started so far,
the last one first, and the current directory. -/
structure Shell where
  mem : Mem
  environ : Environ
  ps1 : Ptr
  pipelines : List (List (Option CommandArgument))
  directory : List UInt8 := [47]

/-! ## freeCommandArgument -/

section Free

variable (U : Unspecified) (cmdArg : CommandArgument)

/-- The loop over the arguments, `n` of them from index `i` on. The buffer cleared is the
command's, by then released; the length is the argument's. -/
def freeArguments : Nat → Nat → Mem → Except Fault Mem
  | 0, _, m => .ok m
  | n + 1, i, m => do
    let (len, m) ← strlen U m (cmdArg.arguments i)
    let m ← memset m cmdArg.command 0 len
    let m ← freeMapped U m (cmdArg.arguments i)
    freeArguments n (i + 1) m

/-- `if((*cmdArg).command) { memset(..); free(..); }` -/
def freeCommand (m : Mem) : Except Fault Mem := do
  if cmdArg.command = .null then
    return m
  let (len, m) ← strlen U m cmdArg.command
  let m ← memset m cmdArg.command 0 len
  freeMapped U m cmdArg.command

def freeCommandArgument (m : Mem) : Except Fault Mem := do
  let m ← freeMapped U m cmdArg.trimmedInput
  let m ← freeCommand U cmdArg m
  freeArguments U cmdArg cmdArg.argumentCount.toNat 0 m

end Free

/-! ## Pipelines -/

/-- `while(*input)`, up to the end of the block. -/
def countPipes : List UInt8 → Nat → Except Fault Nat
  | [], _ => .error .outside
  | ch :: input, count =>
    if ch ≠ 0 then countPipes input (if ch = pipeChar then count + 1 else count) else .ok count

def countNumberOfPipes (m : Mem) : Ptr → Except Fault Nat
  | .null => .error .null
  | .wild => .error .wild
  | .ofBlock b o => countPipes (m.rest b o) 0

/-- `if (next != NULL) *next = '\0';` -/
def cutAt (m : Mem) (next : Ptr) : Except Fault Mem :=
  if next ≠ .null then store m next 0 else .ok m

/-- `prev` after a round; the search for the NUL of the last field finds nothing. -/
def nextField (m : Mem) (prev next : Ptr) : Except Fault Ptr := do
  if next ≠ .null then
    return next.add 1
  let next ← strchr m prev 0
  return next.add 1

/-- The loop of `parsePipeCommand` with so many rounds to go. -/
def parseFields (U : Unspecified) :
    Nat → Mem → Ptr → Except Fault (List (Option CommandArgument) × Mem)
  | 0, m, _ => .ok ([], m)
  | rounds + 1, m, prev => do
    let next ← strchr m prev pipeChar
    let m ← cutAt m next
    let (cArg, m) ← parseInput U space m prev
    let prev ← nextField m prev next
    let (cArgs, m) ← parseFields U rounds m prev
    return (cArg :: cArgs, m)

def parsePipeCommand (U : Unspecified) (m : Mem) (numOfPipes : Nat) (input : Ptr) :
    Except Fault (List (Option CommandArgument) × Mem) :=
  parseFields U (numOfPipes + 1) m input

/-- Whether every command is there; a NULL entry is dereferenced. -/
def isValidateParsedPipeInput (U : Unspecified) :
    Mem → List (Option CommandArgument) → Except Fault (Bool × Mem)
  | m, [] => .ok (true, m)
  | _, none :: _ => .error .null
  | m, some cArg :: cArgs => do
    let (len, m) ← strlen U m cArg.command
    if len = 0 then
      return (false, m)
    isValidateParsedPipeInput U m cArgs

def freeAllParsedCommandArguments (U : Unspecified) :
    List (Option CommandArgument) → Mem → Except Fault Mem
  | [], m => .ok m
  | none :: cArgs, m => freeAllParsedCommandArguments U cArgs m
  | some cArg :: cArgs, m => do
    let m ← freeCommandArgument U cArg m
    freeAllParsedCommandArguments U cArgs m

/-- A line with a `'|'`, up to the decision whether to start the pipeline. -/
def parsePipeline (U : Unspecified) (m : Mem) (input : Ptr) :
    Except Fault (Bool × List (Option CommandArgument) × Mem) := do
  let numOfPipes ← countNumberOfPipes m input
  let (cArgs, m) ← parsePipeCommand U m numOfPipes input
  let (valid, m) ← isValidateParsedPipeInput U m cArgs
  return (valid, cArgs, m)

/-! ## Assignments -/

def builtInCd : Nat := 1
def builtInPwd : Nat := 2
def builtInExport : Nat := 3
def builtInEcho : Nat := 4
def builtInWithoutExport : Nat := 5

/-- The text of a literal. -/
def cd : List UInt8 := [99, 100]
def pwd : List UInt8 := [112, 119, 100]
def exportWord : List UInt8 := [101, 120, 112, 111, 114, 116]
def echo : List UInt8 := [101, 99, 104, 111]
def ps1Word : List UInt8 := [80, 83, 49]

def getBuiltInCode (m : Mem) (cArg : CommandArgument) : Except Fault Nat := do
  let command := Source.pointer cArg.command
  if (← strcmp m (.literal cd) command) = 0 then return builtInCd
  if (← strcmp m (.literal pwd) command) = 0 then return builtInPwd
  if (← strcmp m (.literal exportWord) command) = 0 then return builtInExport
  if (← strcmp m (.literal echo) command) = 0 then return builtInEcho
  if (← strchr m cArg.command equalsChar) ≠ .null then return builtInWithoutExport
  return 0

section Export

variable (U : Unspecified)

/-- `*c_equal = '\0'; setenv(.., c_equal + 1, 1);` for the assignment at `p`, if it is one. -/
def assign (sh : Shell) (p : Ptr) : Except Fault (Shell × Ptr) := do
  let cEqual ← strchr sh.mem p equalsChar
  if cEqual = .null then
    return (sh, .null)
  let m ← store sh.mem cEqual 0
  let (_, environ, m) ← setenv U p (cEqual.add 1) m sh.environ 1
  return ({ sh with mem := m, environ }, cEqual)

/-- The loop over the arguments, `n` of them from index `i` on. -/
def exportLoop (cArg : CommandArgument) : Nat → Nat → Shell → Except Fault Shell
  | 0, _, sh => .ok sh
  | n + 1, i, sh => do
    let (sh, _) ← assign U sh (cArg.arguments i)
    exportLoop cArg n (i + 1) sh

def executeBuiltInExport (cArg : CommandArgument) (sh : Shell) : Except Fault Shell :=
  exportLoop U cArg cArg.argumentCount.toNat 0 sh

/-- `memset(PS1,'\0', 100); memcpy(PS1, value, strlen(value));` when the key is `PS1`. -/
def setPS1 (cArg : CommandArgument) (value : Ptr) (sh : Shell) : Except Fault Shell := do
  if (← strcmp sh.mem (.pointer cArg.command) (.literal ps1Word)) = 0 then
    let m ← memset sh.mem sh.ps1 0 maxPS1Length
    let (len, m) ← strlen U m value
    let (_, m) ← memcpy U m sh.ps1 value len
    return { sh with mem := m }
  return sh

def executeBuiltInWithoutExport (cArg : CommandArgument) (sh : Shell) : Except Fault Shell := do
  let (sh, cEqual) ← assign U sh cArg.command
  if cEqual ≠ .null then
    let sh ← setPS1 U cArg (cEqual.add 1) sh
    executeBuiltInExport U cArg sh
  else
    executeBuiltInExport U cArg sh

/-! ## parseAndExecuteCommand -/

variable (other : Nat → CommandArgument → Shell → Except Fault Shell)

/-- `executeCommand` on a parsed command; a NULL one is dereferenced. -/
def executeCommand (cArg : Option CommandArgument) (sh : Shell) : Except Fault Shell := do
  match cArg with
  | none => .error .null
  | some cArg =>
    let code ← getBuiltInCode sh.mem cArg
    if code = builtInExport then
      executeBuiltInExport U cArg sh
    else if code = builtInWithoutExport then
      executeBuiltInWithoutExport U cArg sh
    else
      other code cArg sh

/-- The branch for a line with a `'|'`. -/
def executePipeline (input : Ptr) (sh : Shell) : Except Fault Shell := do
  let (valid, cArgs, m) ← parsePipeline U sh.mem input
  let pipelines := if valid then cArgs :: sh.pipelines else sh.pipelines
  let m ← freeAllParsedCommandArguments U cArgs m
  return { sh with mem := m, pipelines }

/-- The branch for a single command. -/
def executeSingle (input : Ptr) (sh : Shell) : Except Fault Shell := do
  let (cArg, m) ← parseInput U space sh.mem input
  let sh ← executeCommand U other cArg { sh with mem := m }
  match cArg with
  | none => .error .null
  | some cArg =>
    let m ← freeCommandArgument U cArg sh.mem
    return { sh with mem := m }

def parseAndExecuteCommand (input : Ptr) (sh : Shell) : Except Fault Shell := do
  let ch ← strchr sh.mem input pipeChar
  if ch ≠ .null then
    executePipeline U input sh
  else
    executeSingle U other input sh

end Export

end Sbunix.Sbush
