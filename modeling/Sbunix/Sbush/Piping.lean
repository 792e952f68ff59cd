/-
The processes of a pipeline (bin/sbush/sbush.c): `runPiping` makes a pipe and forks a process for
every command but the last, which it executes itself. Each of these processes connects its standard
input and output and forks once more for the binary.

What they print goes to descriptor 1, which may be a pipe; a write to it can wait. A command that names
`sbush` or `cat` first runs the file that is its argument in the process of its stage.
-/
import Sbunix.Lib.ProcessLogic
import Sbunix.Sbush.Parser

namespace Sbunix.Sbush

open Processes

/-- Whose process it is: the one running `runPiping`, by the index it has come to, or one of a
stage. -/
inductive Role where
  | runner (currentCommandIndex : Nat)
  | stage (k : Nat)
  | outside
deriving DecidableEq, Repr

/-- A program of a pipeline's process, from here to its end. -/
abbrev PipeProg := Prog CommandArgument Role

/-! ## The messages -/

/-- `"error while executing pipes"` -/
def errorWhileExecutingPipes : List UInt8 := [101, 114, 114, 111, 114, 32, 119, 104, 105, 108, 101, 32, 101, 120,
  101, 99, 117, 116, 105, 110, 103, 32, 112, 105, 112, 101, 115]

/-- `"Unable to run in bg\n"` -/
def unableToRunInBg : List UInt8 := [85, 110, 97, 98, 108, 101, 32, 116, 111, 32, 114, 117, 110, 32, 105, 110, 32,
  98, 103, 10]

/-- `"Command not found.\n"` -/
def commandNotFound : List UInt8 := [67, 111, 109, 109, 97, 110, 100, 32, 110, 111, 116, 32, 102, 111, 117, 110,
  100, 46, 10]

/-- `"Error while creating pipe"` -/
def errorWhileCreatingPipe : List UInt8 := [69, 114, 114, 111, 114, 32, 119, 104, 105, 108, 101, 32, 99, 114, 101,
  97, 116, 105, 110, 103, 32, 112, 105, 112, 101]

/-- `"Some error occured while forking"` -/
def errorWhileForking : List UInt8 := [83, 111, 109, 101, 32, 101, 114, 114, 111, 114, 32, 111, 99, 99, 117, 114,
  101, 100, 32, 119, 104, 105, 108, 101, 32, 102, 111, 114, 107, 105, 110, 103]

/-! ## The functions -/

/-- `fputs(text, stdout)` -/
abbrev fputs (text : List UInt8) (next : PipeProg) : PipeProg := .write 1 text next

def duplicateFileDescriptorsFromInputToOutput (oldFd newFd : Nat) (next : PipeProg) : PipeProg :=
  if oldFd = newFd then next
  else .dup2 oldFd newFd fun r => if r ≠ -1 then .close oldFd next else fputs errorWhileExecutingPipes next

section Execute

-- the value of PATH, which is `envp[0]`, and the commands that run a file
variable (path : List UInt8) (runsFile : CommandArgument → Bool) (cArg : CommandArgument) (next : PipeProg)

/-- `envp[0]` is printed before `execve`. -/
abbrev execvpe (failed : PipeProg) : PipeProg := fputs path <| .exec cArg failed

/-- `executeFile` when the command is `rootfs/bin/sbush` or `rootfs/bin/cat`. -/
def setExecutionArguments : PipeProg := if runsFile cArg then .script next else next

def executeBinaryInBackGround : PipeProg :=
  setExecutionArguments runsFile cArg <| .fork none fun pid =>
    if pid = 0 then execvpe path cArg <| fputs unableToRunInBg next else next

def executeBinaryInteractively : PipeProg :=
  setExecutionArguments runsFile cArg <| .fork none fun pid =>
    if pid = 0 then execvpe path cArg <| fputs commandNotFound .exit else .wait pid next

def executeBinary : PipeProg :=
  if cArg.isBackground ≠ 0 then executeBinaryInBackGround path runsFile cArg next
  else executeBinaryInteractively path runsFile cArg next

/-- The caller exits when `runPiping` returns. -/
def runPiping (cArgs : Nat → CommandArgument) (numberOfCommands currentCommandIndex fileDesc : Nat) :
    PipeProg :=
  if currentCommandIndex + 1 ≤ numberOfCommands then
    if currentCommandIndex + 1 = numberOfCommands then
      .mark (.stage currentCommandIndex) <|
      duplicateFileDescriptorsFromInputToOutput fileDesc 0 <|
      executeBinary path runsFile (cArgs currentCommandIndex) .exit
    else
      .mark (.runner currentCommandIndex) <| .pipe fun created fd0 fd1 =>
      (if created = -1 then fputs errorWhileCreatingPipe else id) <|
      .fork (some (.stage currentCommandIndex)) fun pid =>
        if pid = -1 then fputs errorWhileForking <| fputs [Libc.newline] .exit
        else if pid = 0 then
          .close fd0 <|
          duplicateFileDescriptorsFromInputToOutput fileDesc 0 <|
          duplicateFileDescriptorsFromInputToOutput fd1 1 <|
          executeBinary path runsFile (cArgs currentCommandIndex) .exit
        else
          .close fd1 <| runPiping cArgs numberOfCommands (currentCommandIndex + 1) fd0
  else .exit
termination_by numberOfCommands - currentCommandIndex

end Execute

/-! ## What is executed -/

section Executes

variable {path : List UInt8} {runsFile : CommandArgument → Bool} {cArg : CommandArgument}
  {cArgs : Nat → CommandArgument}
  {next : PipeProg} {l m : Role} {n i fd k a b : Nat}

theorem runPiping_last (h : i + 1 = n) : runPiping path runsFile cArgs n i fd =
    .mark (.stage i) (duplicateFileDescriptorsFromInputToOutput fd 0
      (executeBinary path runsFile (cArgs i) .exit)) := by
  rw [runPiping, if_pos (by omega), if_pos h]

theorem runPiping_returns (h : n ≤ i) : runPiping path runsFile cArgs n i fd = .exit := by
  rw [runPiping, if_neg (by omega)]

/-- The process of stage `i`, on the descriptors of the pipe behind it. -/
def stageProg (path : List UInt8) (runsFile : CommandArgument → Bool) (cArgs : Nat → CommandArgument)
    (i fileDesc fd0 fd1 : Nat) : PipeProg :=
  .close fd0 <|
  duplicateFileDescriptorsFromInputToOutput fileDesc 0 <|
  duplicateFileDescriptorsFromInputToOutput fd1 1 <|
  executeBinary path runsFile (cArgs i) .exit

/-- What the runner does once it has forked the process of stage `i`. -/
def runnerProg (path : List UInt8) (runsFile : CommandArgument → Bool) (cArgs : Nat → CommandArgument)
    (n i fd0 fd1 : Nat) : PipeProg := .close fd1 (runPiping path runsFile cArgs n (i + 1) fd0)

/-- The `switch` over the result of `fork`. -/
def afterFork (path : List UInt8) (runsFile : CommandArgument → Bool) (cArgs : Nat → CommandArgument)
    (n i fileDesc fd0 fd1 : Nat) (pid : Int) : PipeProg :=
  if pid = -1 then fputs errorWhileForking <| fputs [Libc.newline] .exit
  else if pid = 0 then stageProg path runsFile cArgs i fileDesc fd0 fd1
  else runnerProg path runsFile cArgs n i fd0 fd1

theorem afterFork_parent {fd0 fd1 child : Nat} (h : child ≠ 0) :
    afterFork path runsFile cArgs n i fd fd0 fd1 child = runnerProg path runsFile cArgs n i fd0 fd1 := by
  rw [afterFork, if_neg (by omega), if_neg (by omega)]

/-- The `if` over the result of `pipe`. -/
def afterPipe (path : List UInt8) (runsFile : CommandArgument → Bool) (cArgs : Nat → CommandArgument)
    (n i fileDesc : Nat) (created : Int) (fd0 fd1 : Nat) : PipeProg :=
  (if created = -1 then fputs errorWhileCreatingPipe else id) <|
  .fork (some (.stage i)) (afterFork path runsFile cArgs n i fileDesc fd0 fd1)

theorem afterPipe_zero {fd0 fd1 : Nat} : afterPipe path runsFile cArgs n i fd 0 fd0 fd1 =
    .fork (some (.stage i)) (afterFork path runsFile cArgs n i fd fd0 fd1) := by
  rw [afterPipe, if_neg (by decide), id]

theorem runPiping_more (h : i + 1 < n) : runPiping path runsFile cArgs n i fd =
    .mark (.runner i) (.pipe (afterPipe path runsFile cArgs n i fd)) := by
  rw [runPiping, if_pos (by omega), if_neg (by omega)]
  rfl

theorem mayExec_executeBinary : MayExec m (executeBinary path runsFile cArg .exit) l ↔ l = m := by
  unfold executeBinary executeBinaryInBackGround executeBinaryInteractively setExecutionArguments
  split <;> split <;> simp [MayExec]

theorem parts_executeBinary : Parts (executeBinary path runsFile cArg .exit) l := by
  unfold executeBinary executeBinaryInBackGround executeBinaryInteractively setExecutionArguments
  split <;> split <;> simp +contextual [MayExec, Parts]

theorem executes_executeBinary : Executes l (executeBinary path runsFile cArg .exit) l := by
  unfold executeBinary executeBinaryInBackGround executeBinaryInteractively setExecutionArguments
  split <;> split <;> simp [Executes]

theorem mayExec_duplicate : MayExec m (duplicateFileDescriptorsFromInputToOutput a b next) l ↔
    MayExec m next l := by
  unfold duplicateFileDescriptorsFromInputToOutput
  split
  · rfl
  · have hb : (b : Int) ≠ -1 := by omega
    simp [MayExec, hb]

theorem parts_duplicate : Parts (duplicateFileDescriptorsFromInputToOutput a b next) l ↔
    Parts next l := by
  unfold duplicateFileDescriptorsFromInputToOutput
  split
  · rfl
  · have hb : (b : Int) ≠ -1 := by omega
    simp [Parts, hb]

theorem executes_duplicate : Executes m (duplicateFileDescriptorsFromInputToOutput a b next) l ↔
    Executes m next l := by
  unfold duplicateFileDescriptorsFromInputToOutput
  split
  · rfl
  · have hb : (b : Int) ≠ -1 := by omega
    simp [Executes, hb]

theorem mayExec_stageProg {fd0 fd1 : Nat} :
    MayExec m (stageProg path runsFile cArgs i fd fd0 fd1) l ↔ l = m := by
  rw [stageProg, MayExec, mayExec_duplicate, mayExec_duplicate, mayExec_executeBinary]

/-- The runner executes the commands from its index on, each under its own stage. -/
theorem mayExec_runPiping {d : Nat} (hd : n - i = d) (h : MayExec m (runPiping path runsFile cArgs n i fd) l) :
    ∃ k, i ≤ k ∧ k < n ∧ m = .stage k := by
  induction d generalizing i fd l with
  | zero =>
    rw [runPiping_returns (by omega)] at h
    exact h.elim
  | succ d ih =>
    rcases Nat.lt_or_ge (i + 1) n with hlt | hge
    · rw [runPiping_more hlt] at h
      obtain ⟨fd0, fd1, h⟩ := h
      rw [afterPipe_zero] at h
      rcases h with ⟨child, hchild, hrunner⟩ | hstage
      · rw [afterFork_parent hchild] at hrunner
        obtain ⟨k, hk, hkn, hm⟩ := ih (by omega) hrunner
        exact ⟨k, by omega, hkn, hm⟩
      · exact ⟨i, Nat.le_refl i, by omega, (mayExec_stageProg.1 hstage).symm⟩
    · rw [runPiping_last (by omega), MayExec, mayExec_duplicate, mayExec_executeBinary] at h
      exact ⟨i, Nat.le_refl i, by omega, h.symm⟩

theorem parts_runPiping {d : Nat} (hd : n - i = d) : Parts (runPiping path runsFile cArgs n i fd) l := by
  induction d generalizing i fd l with
  | zero =>
    rw [runPiping_returns (by omega)]
    trivial
  | succ d ih =>
    rcases Nat.lt_or_ge (i + 1) n with hlt | hge
    · rw [runPiping_more hlt]
      intro fd0 fd1
      rw [afterPipe_zero]
      refine ⟨?_, fun child hchild => ?_⟩
      · exact parts_duplicate.2 (parts_duplicate.2 parts_executeBinary)
      · rw [afterFork_parent hchild]
        refine ⟨ih (by omega), fun m hrunner hstage => ?_⟩
        obtain ⟨k, hk, -, rfl⟩ := mayExec_runPiping rfl hrunner
        have := Role.stage.inj (mayExec_stageProg.1 hstage)
        omega
    · rw [runPiping_last (by omega), Parts]
      exact parts_duplicate.2 parts_executeBinary

theorem executes_runPiping {d : Nat} (hd : n - i = d) (hi : i ≤ k) (hk : k < n) :
    Executes (.stage k) (runPiping path runsFile cArgs n i fd) l := by
  induction d generalizing i fd l with
  | zero => omega
  | succ d ih =>
    rcases Nat.lt_or_ge (i + 1) n with hlt | hge
    · rw [runPiping_more hlt]
      intro fd0 fd1
      rw [afterPipe_zero]
      by_cases hik : i = k
      · right
        subst hik
        exact executes_duplicate.2 (executes_duplicate.2 executes_executeBinary)
      · left
        intro child hchild
        rw [afterFork_parent hchild]
        exact ih (by omega) (by omega)
    · obtain rfl : i = k := by omega
      rw [runPiping_last (by omega), Executes]
      exact executes_duplicate.2 executes_executeBinary

end Executes

end Sbunix.Sbush
