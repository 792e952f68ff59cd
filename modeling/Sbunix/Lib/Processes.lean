/-
Processes with descriptor tables of their own: programs of system calls, and their steps in any
interleaving.

A program is the calls still to be made, each with what follows on its result. The kernel's choice
of new descriptors is a parameter; a program that was executed does what it likes with the
descriptors it has, but makes no pipe. Labels are for the reader of a run: they do nothing.
-/
import Mathlib.Data.Fintype.EquivFin
import Sbunix.Lib.Run
import Sbunix.Lib.Slots

namespace Processes

open Transition

/-! ## Descriptors -/

/-- A pipe, named by its creator and the number of pipes the creator had made before. -/
structure PipeId where
  creator : Nat
  count : Nat
deriving DecidableEq, Repr

/-- What a descriptor is open on; `other` is anything but a pipe of the programs. -/
inductive End where
  | other (file : Nat)
  | read (pipe : PipeId)
  | write (pipe : PipeId)
deriving DecidableEq, Repr

/-- The open descriptors. -/
abbrev Table := List (Nat × End)

/-- A table with nothing in it but what the first one has, and ends of other things. -/
def Rearranged (t t' : Table) : Prop :=
  ∀ fd e, Slots.find t' fd = some e → (∃ fd', Slots.find t fd' = some e) ∨ ∃ file, e = .other file

/-- The descriptors of the next pipe: two closed ones. -/
structure Kernel where
  pick : Table → Nat × Nat
  closed : ∀ t, Slots.find t (pick t).1 = none ∧ Slots.find t (pick t).2 = none
  ne : ∀ t, (pick t).1 ≠ (pick t).2

theorem exists_closed (t : Table) : ∃ fd, Slots.find t fd = none := by
  obtain ⟨fd, hfd⟩ := Infinite.exists_notMem_finset (Slots.keys t).toFinset
  exact ⟨fd, (Slots.find_eq_none_iff t fd).2 fun h => hfd (List.mem_toFinset.2 h)⟩

/-- The lowest closed descriptor. -/
def lowest (t : Table) : Nat := Nat.find (exists_closed t)

theorem find_lowest (t : Table) : Slots.find t (lowest t) = none := Nat.find_spec (exists_closed t)

/-- The lowest closed descriptor but for the lowest. -/
def nextLowest (t : Table) : Nat := lowest (Slots.set t (lowest t) (.other 0))

theorem find_nextLowest (t : Table) : lowest t ≠ nextLowest t ∧ Slots.find t (nextLowest t) = none := by
  have h := find_lowest (Slots.set t (lowest t) (.other 0))
  rw [← nextLowest, Slots.find_set] at h
  split at h
  · cases h
  · next hne => exact ⟨hne, h⟩

/-- The kernel that takes the lowest descriptors. -/
def lowestKernel : Kernel where
  pick t := (lowest t, nextLowest t)
  closed t := ⟨find_lowest t, (find_nextLowest t).2⟩
  ne t := (find_nextLowest t).1

/-! ## Programs and steps -/

/-- The calls a process still makes. `fork` gives the child a label of its own, or its parent's;
`write` has the text still to be written; `script` runs commands of a file before going on; `foreign`
is a binary that was executed. -/
inductive Prog (C L : Type) where
  | mark (label : L) (next : Prog C L)
  | pipe (next : Int → Nat → Nat → Prog C L)
  | fork (label : Option L) (next : Int → Prog C L)
  | dup2 (old new : Nat) (next : Int → Prog C L)
  | close (fd : Nat) (next : Prog C L)
  | write (fd : Nat) (text : List UInt8) (next : Prog C L)
  | script (next : Prog C L)
  | exec (command : C) (failed : Prog C L)
  | wait (pid : Int) (next : Prog C L)
  | exit
  | foreign
  | ended

variable {C L : Type}

/-- A process; `made` counts the pipes it made. -/
structure Proc (C L : Type) where
  prog : Prog C L
  label : L
  table : Table
  made : Nat

/-- The processes by their ids. -/
abbrev System (C L : Type) := List (Proc C L)

/-- `Does K s pid P P' child`: a step that process `pid` can make in `s`, by which `P` becomes `P'`
and a child is started or not. The calls succeed; `dup2` fails on a closed descriptor, a binary may be
missing, and a write may fail or kill. -/
inductive Does (K : Kernel) (s : System C L) (pid : Nat) :
    Proc C L → Proc C L → Option (Proc C L) → Prop
  | mark {m l : L} {next : Prog C L} {t : Table} {c : Nat} :
    Does K s pid ⟨.mark m next, l, t, c⟩ ⟨next, m, t, c⟩ none
  | pipe {l : L} {next : Int → Nat → Nat → Prog C L} {t : Table} {c : Nat} :
    Does K s pid ⟨.pipe next, l, t, c⟩ ⟨next 0 (K.pick t).1 (K.pick t).2, l,
      Slots.set (Slots.set t (K.pick t).1 (.read ⟨pid, c⟩)) (K.pick t).2 (.write ⟨pid, c⟩), c + 1⟩ none
  | fork {m : Option L} {l : L} {next : Int → Prog C L} {t : Table} {c : Nat} :
    Does K s pid ⟨.fork m next, l, t, c⟩ ⟨next s.length, l, t, c⟩ (some ⟨next 0, m.getD l, t, 0⟩)
  | dup2 {old new : Nat} {e : End} {l : L} {next : Int → Prog C L} {t : Table} {c : Nat}
      (h : Slots.find t old = some e) :
    Does K s pid ⟨.dup2 old new next, l, t, c⟩ ⟨next new, l, Slots.set t new e, c⟩ none
  | dup2Closed {old new : Nat} {l : L} {next : Int → Prog C L} {t : Table} {c : Nat}
      (h : Slots.find t old = none) :
    Does K s pid ⟨.dup2 old new next, l, t, c⟩ ⟨next (-1), l, t, c⟩ none
  | close {fd : Nat} {l : L} {next : Prog C L} {t : Table} {c : Nat} :
    Does K s pid ⟨.close fd next, l, t, c⟩ ⟨next, l, Slots.erase t fd, c⟩ none
  | write {fd : Nat} {text : List UInt8} {l : L} {next : Prog C L} {t : Table} {c : Nat} :
    Does K s pid ⟨.write fd text next, l, t, c⟩ ⟨next, l, t, c⟩ none
  | writePart {fd : Nat} {text : List UInt8} {l : L} {next : Prog C L} {t : Table} {c : Nat} (n : Nat) :
    Does K s pid ⟨.write fd text next, l, t, c⟩ ⟨.write fd (text.drop n) next, l, t, c⟩ none
  | writeKilled {fd : Nat} {text : List UInt8} {l : L} {next : Prog C L} {t : Table} {c : Nat} :
    Does K s pid ⟨.write fd text next, l, t, c⟩ ⟨.ended, l, [], c⟩ none
  | scriptWrite {l : L} {next : Prog C L} {t : Table} {c : Nat} (fd : Nat) (text : List UInt8) :
    Does K s pid ⟨.script next, l, t, c⟩ ⟨.write fd text (.script next), l, t, c⟩ none
  | scriptCommand {l : L} {next : Prog C L} {t : Table} {c : Nat} :
    Does K s pid ⟨.script next, l, t, c⟩ ⟨.wait s.length (.script next), l, t, c⟩
      (some ⟨.foreign, l, t, 0⟩)
  | scriptBackground {l : L} {next : Prog C L} {t : Table} {c : Nat} :
    Does K s pid ⟨.script next, l, t, c⟩ ⟨.script next, l, t, c⟩ (some ⟨.foreign, l, t, 0⟩)
  | scriptShell {l : L} {next : Prog C L} {t : Table} {c : Nat} :
    Does K s pid ⟨.script next, l, t, c⟩ ⟨.foreign, l, t, c⟩ none
  | scriptEnd {l : L} {next : Prog C L} {t : Table} {c : Nat} :
    Does K s pid ⟨.script next, l, t, c⟩ ⟨next, l, t, c⟩ none
  | exec {command : C} {l : L} {failed : Prog C L} {t : Table} {c : Nat} :
    Does K s pid ⟨.exec command failed, l, t, c⟩ ⟨.foreign, l, t, c⟩ none
  | execMissing {command : C} {l : L} {failed : Prog C L} {t : Table} {c : Nat} :
    Does K s pid ⟨.exec command failed, l, t, c⟩ ⟨failed, l, t, c⟩ none
  | wait {child : Nat} {Q : Proc C L} {l : L} {next : Prog C L} {t : Table} {c : Nat}
      (hQ : s[child]? = some Q) (h : Q.prog = .ended) :
    Does K s pid ⟨.wait child next, l, t, c⟩ ⟨next, l, t, c⟩ none
  | exit {l : L} {t : Table} {c : Nat} : Does K s pid ⟨.exit, l, t, c⟩ ⟨.ended, l, [], c⟩ none
  | rearrange {l : L} {t t' : Table} {c : Nat} (h : Rearranged t t') :
    Does K s pid ⟨.foreign, l, t, c⟩ ⟨.foreign, l, t', c⟩ none
  | foreignFork {l : L} {t : Table} {c : Nat} :
    Does K s pid ⟨.foreign, l, t, c⟩ ⟨.foreign, l, t, c⟩ (some ⟨.foreign, l, t, 0⟩)
  | foreignExit {l : L} {t : Table} {c : Nat} :
    Does K s pid ⟨.foreign, l, t, c⟩ ⟨.ended, l, [], c⟩ none

/-- A program that may have to wait where it is, for a child or a pipe, or that has ended. -/
inductive Resting : Prog C L → Prop
  | wait (pid : Int) (next : Prog C L) : Resting (.wait pid next)
  | write (fd : Nat) (text : List UInt8) (next : Prog C L) : Resting (.write fd text next)
  | foreign : Resting .foreign
  | ended : Resting .ended

/-- Process `pid` makes a step; a child gets the next id. -/
def Step (K : Kernel) (s : System C L) (pid : Nat) (s' : System C L) : Prop :=
  ∃ P P' child, s[pid]? = some P ∧ Does K s pid P P' child ∧ s' = s.set pid P' ++ child.toList

section Step

variable {K : Kernel} {s s' : System C L} {pid i : Nat} {P P' Q : Proc C L} {child : Option (Proc C L)}

theorem step_self (hP : s[pid]? = some P) : (s.set pid P' ++ child.toList)[pid]? = some P' := by
  have hlt := (List.getElem?_eq_some_iff.1 hP).1
  rw [List.getElem?_append_left (by rwa [List.length_set]), List.getElem?_set_self hlt]

theorem step_child : (s.set pid P' ++ (some Q).toList)[s.length]? = some Q := by
  rw [List.getElem?_append_right (by rw [List.length_set]), List.length_set, Nat.sub_self]
  rfl

/-- Every process after a step is the one that made it, its child, or as it was. -/
theorem mem_step (hP : s[pid]? = some P) (hQ : (s.set pid P' ++ child.toList)[i]? = some Q) :
    (i = pid ∧ Q = P') ∨ (i ≠ pid ∧ s[i]? = some Q) ∨ (i = s.length ∧ child = some Q) := by
  have hlt := (List.getElem?_eq_some_iff.1 hP).1
  rw [List.getElem?_append, List.length_set] at hQ
  split at hQ
  · next hi =>
    by_cases hip : i = pid
    · subst hip
      rw [List.getElem?_set_self hlt] at hQ
      exact .inl ⟨rfl, (Option.some.inj hQ).symm⟩
    · rw [List.getElem?_set_ne (Ne.symm hip)] at hQ
      exact .inr (.inl ⟨hip, hQ⟩)
  · next hi =>
    cases child with
    | none => simp at hQ
    | some R =>
      rw [Option.toList_some, List.getElem?_singleton] at hQ
      split at hQ
      · next h0 => exact .inr (.inr ⟨by omega, hQ⟩)
      · cases hQ

end Step

end Processes
