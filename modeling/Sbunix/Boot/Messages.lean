/-
What the kernel prints while it boots: the line of `init_Idt` (sys/idt.c), a line for each part of the
memory map that is available, and two lines more (`start` of sys/main.c). Whatever the values are, a line
is shorter than a row, so that the screen shows the last of them however long the map is.
-/
import Mathlib.Data.Nat.Digits.Lemmas
import Sbunix.Boot.Metadata
import Sbunix.Console.Rendering
import Sbunix.Interrupt.Idt

namespace Sbunix.Boot

open Console Strides Transition
open Interrupt (Idtr)

/-! ## The calls -/

/-- `"s_idtr: lim ("` -/
def idtrText : List (BitVec 8) := [115, 95, 105, 100, 116, 114, 58, 32, 108, 105, 109, 32, 40]

/-- `") base("` -/
def baseText : List (BitVec 8) := [41, 32, 98, 97, 115, 101, 40]

/-- `"Available Physical Memory ["` -/
def availableText : List (BitVec 8) :=
  [65, 118, 97, 105, 108, 97, 98, 108, 101, 32, 80, 104, 121, 115, 105, 99, 97, 108, 32, 77, 101, 109,
    111, 114, 121, 32, 91]

/-- `"physfree "` -/
def physfreeText : List (BitVec 8) := [112, 104, 121, 115, 102, 114, 101, 101, 32]

/-- `"tarfs in ["` -/
def tarfsText : List (BitVec 8) := [116, 97, 114, 102, 115, 32, 105, 110, 32, 91]

/-- `kprintf("s_idtr: lim (%d) base(%p)\n", s_Idtr.limit, s_Idtr.base)` -/
def idtrCall (idtr : Idtr) : Call :=
  ⟨idtrText ++ percent :: 100 :: (baseText ++ percent :: 112 :: 41 :: [newLineChar, 0]),
    [.int (idtr.limit.setWidth 32), .addr idtr.base]⟩

/-- `kprintf("Available Physical Memory [%p-%p]\n", smap->base, smap->base + smap->length)` -/
def availableCall (part : BitVec 64 × BitVec 64) : Call :=
  ⟨availableText ++ percent :: 112 :: 45 :: percent :: 112 :: 93 :: [newLineChar, 0],
    [.addr part.1, .addr part.2]⟩

/-- `kprintf("physfree %p\n", (uint64_t)physfree)` -/
def physfreeCall (physfree : BitVec 64) : Call :=
  ⟨physfreeText ++ percent :: 112 :: [newLineChar, 0], [.addr physfree]⟩

/-- `kprintf("tarfs in [%p:%p]\n", &_binary_tarfs_start, &_binary_tarfs_end)` -/
def tarfsCall (tarfs : BitVec 64 × BitVec 64) : Call :=
  ⟨tarfsText ++ percent :: 112 :: 58 :: percent :: 112 :: 93 :: [newLineChar, 0],
    [.addr tarfs.1, .addr tarfs.2]⟩

/-- In the order in which `boot` makes them, with the entries that the loop of `start` has come to. -/
def bootCalls (idtr : Idtr) (visits : List Visit) (physfree : BitVec 64)
    (tarfs : BitVec 64 × BitVec 64) : List Call :=
  idtrCall idtr :: (visits.filterMap Visit.printed).map availableCall ++
    [physfreeCall physfree, tarfsCall tarfs]

/-! ## The lines -/

def idtrLine (idtr : Idtr) : List (BitVec 8) :=
  idtrText ++ signedCells (idtr.limit.setWidth 32) ++ baseText ++ addressCells idtr.base ++ [41]

def availableLine (part : BitVec 64 × BitVec 64) : List (BitVec 8) :=
  availableText ++ addressCells part.1 ++ [45] ++ addressCells part.2 ++ [93]

def physfreeLine (physfree : BitVec 64) : List (BitVec 8) := physfreeText ++ addressCells physfree

def tarfsLine (tarfs : BitVec 64 × BitVec 64) : List (BitVec 8) :=
  tarfsText ++ addressCells tarfs.1 ++ [58] ++ addressCells tarfs.2 ++ [93]

/-- The parts of a memory map that are available. -/
def availableParts (payload : List Word) : List (BitVec 64 × BitVec 64) :=
  (List.range (payload.length / 5)).filterMap fun k => (smapAt payload k).available

def bootLines (idtr : Idtr) (payload : List Word) (physfree : BitVec 64)
    (tarfs : BitVec 64 × BitVec 64) : List (List (BitVec 8)) :=
  idtrLine idtr :: (availableParts payload).map availableLine ++ [physfreeLine physfree, tarfsLine tarfs]

section Lines

variable {idtr : Idtr} {part tarfs : BitVec 64 × BitVec 64} {physfree : BitVec 64} {payload : List Word}

theorem directive_address (addr : BitVec 64) (args : List Arg) :
    directiveItems 112 (.addr addr :: args) = .ok (args, [.text (addressCells addr)]) := rfl

theorem directive_signed (argVal : BitVec 32) (args : List Arg) :
    directiveItems 100 (.int argVal :: args) = .ok (args, [.text (signedCells argVal)]) := rfl

theorem printsLine_idtr (idtr : Idtr) : PrintsLine (idtrCall idtr) (idtrLine idtr) := by
  have hbehind := ((printsLine_end []).char 41 (by decide)).directive
    (directive_address idtr.base [])
  have hbase := hbehind.chars baseText (by decide)
  have hlimit := hbase.directive (directive_signed (idtr.limit.setWidth 32) [.addr idtr.base])
  have hline := hlimit.chars idtrText (by decide)
  unfold idtrLine
  simp only [List.append_assoc]
  exact hline

/-- Two addresses with a character between them and one behind. -/
theorem printsLine_interval {text : List (BitVec 8)} {between behind : BitVec 8} (a b : BitVec 64)
    (htext : ∀ ch ∈ text, ch ≠ 0 ∧ ch ≠ percent ∧ ch ≠ newLineChar)
    (hbetween : between ≠ 0 ∧ between ≠ percent ∧ between ≠ newLineChar)
    (hbehind : behind ≠ 0 ∧ behind ≠ percent ∧ behind ≠ newLineChar) :
    PrintsLine ⟨text ++ percent :: 112 :: between :: percent :: 112 :: behind :: [newLineChar, 0],
        [.addr a, .addr b]⟩
      (text ++ addressCells a ++ [between] ++ addressCells b ++ [behind]) := by
  have hlast := ((printsLine_end []).char behind hbehind).directive (directive_address b [])
  have hfirst := (hlast.char between hbetween).directive (directive_address a [.addr b])
  simp only [List.append_assoc]
  exact hfirst.chars text htext

theorem printsLine_available (part : BitVec 64 × BitVec 64) :
    PrintsLine (availableCall part) (availableLine part) :=
  printsLine_interval part.1 part.2 (by decide) (by decide) (by decide)

theorem printsLine_tarfs (tarfs : BitVec 64 × BitVec 64) : PrintsLine (tarfsCall tarfs) (tarfsLine tarfs) :=
  printsLine_interval tarfs.1 tarfs.2 (by decide) (by decide) (by decide)

theorem printsLine_physfree (physfree : BitVec 64) :
    PrintsLine (physfreeCall physfree) (physfreeLine physfree) := by
  have hline := ((printsLine_end []).directive (directive_address physfree [])).chars
    physfreeText (by decide)
  rw [List.append_nil] at hline
  exact hline

/-! ### Their lengths -/

theorem length_addressCells (addr : BitVec 64) : (addressCells addr).length ≤ 17 := by
  unfold addressCells
  split
  · decide
  · rw [List.length_reverse, List.length_append, List.length_map, List.length_singleton]
    have hdigits : (Nat.digits 16 addr.toNat).length ≤ 16 := by
      rw [Nat.digits_length_le_iff (by decide)]
      exact addr.isLt
    exact Nat.succ_le_succ hdigits

theorem length_signedCells (argVal : BitVec 32) : (signedCells argVal).length ≤ 11 := by
  have hdigits : ∀ x : BitVec 32, (decimalCells x.toInt.toNat).length ≤ 10 := by
    intro x
    have hlt : x.toInt.toNat < 10 ^ 10 := by
      have := BitVec.toInt_lt (x := x)
      omega
    unfold decimalCells
    rw [List.length_reverse, List.length_map, Nat.digits_length_le_iff (by decide)]
    exact hlt
  unfold signedCells
  split
  · decide
  · split
    · exact Nat.succ_le_succ (hdigits _)
    · exact Nat.le_succ_of_le (hdigits _)

theorem length_idtrLine (idtr : Idtr) : (idtrLine idtr).length < columns := by
  have h1 := length_signedCells (idtr.limit.setWidth 32)
  have h2 := length_addressCells idtr.base
  unfold idtrLine idtrText baseText columns
  simp only [List.length_append, List.length_cons, List.length_nil]
  omega

theorem length_availableLine (part : BitVec 64 × BitVec 64) : (availableLine part).length < columns := by
  have h1 := length_addressCells part.1
  have h2 := length_addressCells part.2
  unfold availableLine availableText columns
  simp only [List.length_append, List.length_cons, List.length_nil]
  omega

theorem length_physfreeLine (physfree : BitVec 64) : (physfreeLine physfree).length < columns := by
  have h := length_addressCells physfree
  unfold physfreeLine physfreeText columns
  simp only [List.length_append, List.length_cons, List.length_nil]
  omega

theorem length_tarfsLine (tarfs : BitVec 64 × BitVec 64) : (tarfsLine tarfs).length < columns := by
  have h1 := length_addressCells tarfs.1
  have h2 := length_addressCells tarfs.2
  unfold tarfsLine tarfsText columns
  simp only [List.length_append, List.length_cons, List.length_nil]
  omega

theorem length_bootLines : ∀ line ∈ bootLines idtr payload physfree tarfs, line.length < columns := by
  intro line hline
  unfold bootLines at hline
  rcases List.mem_append.1 hline with hline | hline
  · rcases List.mem_cons.1 hline with rfl | hline
    · exact length_idtrLine idtr
    · obtain ⟨part, -, rfl⟩ := List.mem_map.1 hline
      exact length_availableLine part
  · rcases List.mem_pair.1 hline with rfl | rfl
    · exact length_physfreeLine physfree
    · exact length_tarfsLine tarfs

/-! ### The calls print the lines -/

theorem filterMap_visitsOf (payload : List Word) (first : Nat) :
    (visitsOf payload first).filterMap Visit.printed = availableParts payload := by
  unfold visitsOf availableParts
  rw [List.filterMap_map]
  rfl

theorem bootCalls_print (first : Nat) :
    List.Forall₂ PrintsLine (bootCalls idtr (visitsOf payload first) physfree tarfs)
      (bootLines idtr payload physfree tarfs) := by
  have hparts : ∀ parts : List (BitVec 64 × BitVec 64),
      List.Forall₂ PrintsLine (parts.map availableCall) (parts.map availableLine) := by
    intro parts
    induction parts with
    | nil => exact .nil
    | cons part parts ih => exact .cons (printsLine_available part) ih
  unfold bootCalls bootLines
  rw [filterMap_visitsOf]
  refine List.rel_append (.cons (printsLine_idtr idtr) (hparts _)) ?_
  exact .cons (printsLine_physfree physfree) (.cons (printsLine_tarfs tarfs) .nil)

end Lines

/-- Whatever memory map `start` finds, each of its available parts gets a line between that of the
descriptor table and the two last ones; the screen shows the last 23 of these lines, and below it nothing
has been stored to. -/
theorem boot_lines_shown (video : Video) {pre : List Record} {target : Record} (h : FirstSmap pre target)
    {post : List Record} (hwords : CountsWords (metadata (target :: post)) (metadata pre)) (idtr : Idtr)
    (physfree : BitVec 64) (tarfs : BitVec 64 × BitVec 64) :
    ∃ fuel fuel' modulep visits s,
      start (metadata (pre ++ target :: post)) fuel fuel' = .ok (modulep, visits) ∧
      Run (Restrict KprintfStep CallFits) (started video) (bootCalls idtr visits physfree tarfs) s ∧
      ShowsLines video (bootLines idtr target.payload physfree tarfs) s := by
  obtain ⟨fuel, hwalk⟩ := (walk_iff_countsWords h post).2 hwords
  obtain ⟨fuel, fuel', hstart⟩ := start_of_walk h post hwalk
  obtain ⟨s, hrun, hs⟩ := lines_shown video (bootCalls_print _) length_bootLines
  exact ⟨fuel, fuel', _, _, s, hstart, hrun, hs⟩

/-- The map of one entry, a record without payload in front of it. -/
theorem boot_lines_one_entry : ∃ fuel fuel' modulep visits s,
    start (metadata ([⟨5, [], by decide⟩] ++ [oneEntry])) fuel fuel' = .ok (modulep, visits) ∧
    Run (Restrict KprintfStep CallFits) (started fun _ => 0)
      (bootCalls ⟨4095, 0x20a000⟩ visits 0x300000 (0x206000, 0x208000)) s ∧
    ShowsLines (fun _ => 0)
      (bootLines ⟨4095, 0x20a000⟩ oneEntry.payload 0x300000 (0x206000, 0x208000)) s := by
  have h : FirstSmap [⟨5, [], by decide⟩] oneEntry := ⟨rfl, by decide, by simp [smapType]⟩
  exact boot_lines_shown (fun _ => 0) h (countsWords_of_empty (by simp [smapType])) ⟨4095, 0x20a000⟩
    0x300000 (0x206000, 0x208000)

end Sbunix.Boot
