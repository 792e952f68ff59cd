/-
The command-line parser of the shell (bin/sbush/parser.c, parser.h) on block memory: `trim`
copies a line without its surrounding blanks into a buffer of its own, `parseInput` cuts the copy
at the separator in one pass.
-/
import Sbunix.Libc.String

namespace Sbunix.Sbush

open BlockMemory Fallible Libc

/-- `' '` -/
def space : UInt8 := 32

/-- `'&'` -/
def ampersand : UInt8 := 38

def argumentLength : Nat := 20

def commandLength : Nat := 20

def inputLength : Nat := 500

def maxArguments : Nat := 20

/-- A `commandArgument` by value. `arguments` has a slot past its end, which is the storage of
the two integers. -/
structure CommandArgument where
  trimmedInput : Ptr
  command : Ptr
  arguments : Nat → Ptr
  isBackground : Int
  argumentCount : Int

def sizeofCommandArgument : Nat := 184

/-- `arguments[i] = p`; from slot `maxArguments` on the pointer's halves land in the integers. -/
def CommandArgument.setArgument (U : Unspecified) (c : CommandArgument) (i : Nat) (p : Ptr) :
    CommandArgument :=
  let arguments := Function.update c.arguments i p
  if i < maxArguments then { c with arguments }
  else { c with
    arguments
    isBackground := toInt (U.address p)
    argumentCount := toInt (U.address p / 2 ^ 32) }

/-- The pointer that the two integers make: the old one if they are its halves. -/
def joinHalves (U : Unspecified) (old : Ptr) (isBackground argumentCount : Int) : Ptr :=
  if toInt (U.address old) = isBackground ∧ toInt (U.address old / 2 ^ 32) = argumentCount then old
  else if isBackground = 0 ∧ argumentCount = 0 then .null
  else .wild

/-- `argumentCount = count;`, which is the upper half of the slot past the end. -/
def CommandArgument.setCount (U : Unspecified) (c : CommandArgument) (count : Nat) : CommandArgument :=
  { c with
    arguments := Function.update c.arguments maxArguments
      (joinHalves U (c.arguments maxArguments) c.isBackground count)
    argumentCount := count }

section Trim

variable (U : Unspecified) (input : Ptr)

/-- `while (input[left_index] == ' ' && left_index <= right_index) left_index++;` -/
def skipSpaces (rightIndex : Int) (m : Mem) (leftIndex : Int) : Except Fault (Int × Mem) := do
  let (ch, m) ← load U m (input.add leftIndex)
  if h : ch = space ∧ leftIndex ≤ rightIndex then
    skipSpaces rightIndex m (leftIndex + 1)
  else
    return (leftIndex, m)
termination_by (rightIndex + 1 - leftIndex).toNat
decreasing_by omega

/-- The loop that moves `right_index` to the left over blanks and `'&'`; it answers with the
index and the flag `isBackground`. -/
def skipJunk (leftIndex : Int) (m : Mem) (rightIndex isBackground : Int) :
    Except Fault (Int × Int × Mem) := do
  let (ch, m) ← load U m (input.add rightIndex)
  if h : (ch = space ∨ ch = newline ∨ ch = ampersand) ∧ leftIndex ≤ rightIndex then
    skipJunk leftIndex m (rightIndex - 1) (if ch = ampersand then 1 else isBackground)
  else
    return (rightIndex, isBackground, m)
termination_by (rightIndex + 1 - leftIndex).toNat
decreasing_by omega

/-- `for (index = left_index; index <= right_index; index++) trimmedInput[count++] = input[index];` -/
def copyTrimmed (trimmedInput : Ptr) (rightIndex : Int) (m : Mem) (index count : Int) :
    Except Fault Mem := do
  if _h : index ≤ rightIndex then
    let (ch, m) ← load U m (input.add index)
    let m ← store m (trimmedInput.add count) ch
    copyTrimmed trimmedInput rightIndex m (index + 1) (count + 1)
  else
    return m
termination_by (rightIndex + 1 - index).toNat
decreasing_by omega

/-- The pointers in `arguments` and `argumentCount` are left as they are in fresh memory. -/
def trim (m : Mem) : Except Fault (CommandArgument × Mem) := do
  let argumentCount := (U.fresh m.next (sizeofCommandArgument - 4)).toNat
  let (_, m) := mallocBlock U m sizeofCommandArgument
  let (command, m) := mallocBlock U m commandLength
  let m ← memset m command 0 commandLength
  let (trimmedInput, m) := mallocBlock U m inputLength
  let (len, m) ← strlen U m input
  let rightIndex : Int := len - 1
  let m ← memset m trimmedInput 0 inputLength
  let (leftIndex, m) ← skipSpaces U input rightIndex m 0
  let (rightIndex, isBackground, m) ← skipJunk U input leftIndex m rightIndex 0
  let m ← copyTrimmed U input trimmedInput rightIndex m leftIndex 0
  let m ← store m (trimmedInput.add (rightIndex + 2)) 0
  return ({ trimmedInput, command, arguments := fun _ => .wild, isBackground, argumentCount }, m)

end Trim

/-- The local variables of `parseInput`. -/
structure Scan where
  cArg : CommandArgument
  input : Ptr
  command : Ptr
  argument : Ptr
  count : Nat
  commandFlag : Bool

/-- `*p = ch; *(p + 1) = '\0';` -/
def putChar (m : Mem) (p : Ptr) (ch : UInt8) : Except Fault Mem := do
  let m ← store m p ch
  store m (p.add 1) 0

def putCommand (m : Mem) (s : Scan) (ch : UInt8) : Except Fault (Scan × Mem) := do
  let m ← putChar m s.command ch
  return ({ s with command := s.command.add 1 }, m)

def putArgument (m : Mem) (s : Scan) (ch : UInt8) : Except Fault (Scan × Mem) := do
  let m ← putChar m s.argument ch
  return ({ s with argument := s.argument.add 1 }, m)

def allocArgument (U : Unspecified) (m : Mem) (s : Scan) : Scan × Mem :=
  let (argument, m) := mallocBlock U m argumentLength
  ({ s with cArg := s.cArg.setArgument U s.count argument, argument, count := s.count + 1 }, m)

/-- A buffer for the next argument, if there is none yet or the last one holds a string. -/
def nextArgument (U : Unspecified) (m : Mem) (s : Scan) : Except Fault (Scan × Mem) := do
  if s.argument = .null then
    return allocArgument U m s
  let (len, m) ← strlen U m (s.cArg.arguments (s.count - 1))
  if len ≠ 0 then
    return allocArgument U m s
  return (s, m)

section ParseInput

variable (U : Unspecified) (separator : UInt8)

/-- The body of the loop; no state is left when it returns NULL. -/
def parseChar (m : Mem) (s : Scan) (ch : UInt8) : Except Fault (Option Scan × Mem) := do
  let (s, m) ← if s.commandFlag ∧ ch ≠ separator then putCommand m s ch else pure (s, m)
  let s := if s.commandFlag ∧ ch = separator then { s with commandFlag := false } else s
  if ch = separator ∧ ¬ s.commandFlag then
    if s.count > maxArguments then
      return (none, m)
    let (s, m) ← nextArgument U m s
    return (some { s with input := s.input.add 1 }, m)
  let (s, m) ← if ch ≠ separator ∧ ¬ s.commandFlag then putArgument m s ch else pure (s, m)
  return (some { s with input := s.input.add 1 }, m)

/-- `while(*input)`; the fuel bounds the number of rounds. -/
def parseLoop : Nat → Mem → Scan → Except Fault (Option CommandArgument × Mem)
  | 0, _, _ => .error .outOfFuel
  | fuel + 1, m, s => do
    let (ch, m) ← load U m s.input
    if ch = 0 then
      return (some (s.cArg.setCount U s.count), m)
    match ← parseChar U separator m s ch with
    | (none, m) => return (none, m)
    | (some s, m) => parseLoop fuel m s

/-- NULL when there are too many arguments. The scan stays inside the buffer of the trimmed line,
which bounds its rounds. -/
def parseInput (m : Mem) (inputLine : Ptr) : Except Fault (Option CommandArgument × Mem) := do
  let (cArg, m) ← trim U inputLine m
  parseLoop U separator (inputLength + 1) m
    { cArg, input := cArg.trimmedInput, command := cArg.command, argument := .null, count := 0,
      commandFlag := true }

end ParseInput

end Sbunix.Sbush
