/-
The processes a kernel keeps: who started whom, which of them are stopped or have ended, and what `waitpid`
answers to a parent. A process that has ended stays in the table until its parent hears of it; the children
of one that ends go to the first process, 0, which is not in the table.

What a process may call next, by its code, is a parameter. Signals come at any time.
-/
import Mathlib.Algebra.Group.Nat.Defs
import Mathlib.Logic.Function.Basic
import Mathlib.Tactic.Common

namespace ProcessTable

/-! ## Statuses -/

/-- The status of a process that has called `exit`. -/
def exitStatus (code : Nat) : Nat := code % 256 * 256

/-- The status of a process that a signal has ended, with or without a core file. -/
def signalStatus (signal : Nat) (core : Bool) : Nat := signal + if core then 128 else 0

/-- The status of a process that a signal has stopped. -/
def stopStatus (signal : Nat) : Nat := signal * 256 + 127

/-- The signals there are. -/
def IsSignal (signal : Nat) : Prop := 0 < signal ∧ signal ≤ 64

/-- The statuses of processes that have ended. -/
inductive EndStatus : Nat → Prop
  | exit (code : Nat) : EndStatus (exitStatus code)
  | signal {signal : Nat} (h : IsSignal signal) (core : Bool) : EndStatus (signalStatus signal core)

/-! ## The table -/

inductive Life where
  | running
  | stopped (signal : Nat) (reported : Bool)
  | ended (status : Nat)
deriving DecidableEq, Repr

/-- `job` is how the process was started, which the kernel does not look at. -/
structure Proc (C J : Type) where
  parent : Nat
  job : J
  code : C
  life : Life

/-- The process has not ended. -/
def Proc.Alive {C J : Type} (P : Proc C J) : Prop := ∀ status, P.life ≠ .ended status

abbrev Table (C J : Type) := Nat → Option (Proc C J)

section Table

variable {C J : Type} (t : Table C J) (pid : Nat)

def put (P : Proc C J) : Table C J := Function.update t pid (some P)

/-- The entry of a process that has ended is given back. -/
def reap : Table C J := Function.update t pid none

/-- What the end of process `pid` makes of the entry of process `q`. -/
def afterEnd (status : Nat) (q : Nat) (Q : Proc C J) : Proc C J :=
  if q = pid then { Q with life := .ended status }
  else if Q.parent = pid then { Q with parent := 0 }
  else Q

/-- The process ends, and its children go to process 0. -/
def finish (status : Nat) : Table C J := fun q => (t q).map (afterEnd pid status q)

/-- `waitpid(which, ..)` asks about the child: about every one, or about this one. -/
def Selected (which : Int) (q : Nat) : Prop := which = -1 ∨ which = q

/-- What `waitpid(which, &status, WUNTRACED)` answers to process `pid`: the status of a child that has
ended, or has stopped since it was asked about last, or a failure if there is no such child. While
there is one and nothing to tell of it the call does not return. -/
inductive WaitPid (which : Int) : Option Nat → Table C J → Prop
  | ended {q : Nat} {Q : Proc C J} {status : Nat} (hQ : t q = some Q) (hparent : Q.parent = pid)
      (hwhich : Selected which q) (h : Q.life = .ended status) : WaitPid which (some status) (reap t q)
  | stopped {q : Nat} {Q : Proc C J} {signal : Nat} (hQ : t q = some Q) (hparent : Q.parent = pid)
      (hwhich : Selected which q) (h : Q.life = .stopped signal false) :
      WaitPid which (some (stopStatus signal)) (put t q { Q with life := .stopped signal true })
  | noChild (h : ∀ q Q, t q = some Q → Q.parent = pid → ¬ Selected which q) : WaitPid which none t

end Table

/-! ## Steps -/

/-- A system call, with the code that follows on its result. -/
inductive Call (C J : Type) where
  | fork (job : J) (next : Int → C)
  | waitpid (which : Int) (next : Option Nat → C)
  | execve (found missing : C)
  | exit (code : Nat)

inductive Event where
  | forked (pid : Nat) (child : Option Nat)
  | waited (pid : Nat)
  | executed (pid : Nat) (found : Bool)
  | exited (pid code : Nat)
  | killed (pid signal : Nat) (core : Bool)
  | stopped (pid signal : Nat)
  | continued (pid : Nat)
  | inherited (pid : Nat)
deriving DecidableEq, Repr

/-- The process ends by this. -/
def Event.Ends (pid : Nat) : Event → Prop
  | .exited p _ => p = pid
  | .killed p _ _ => p = pid
  | _ => False

section Step

variable {C J : Type} (may : C → Call C J → Prop)

/-- A step of one process, or what a signal does to it. Any pid that is not in the table may be the next
child's. -/
inductive Step (t : Table C J) : Event → Table C J → Prop
  | fork {pid child : Nat} {P : Proc C J} {job : J} {next : Int → C} (hP : t pid = some P)
      (hrun : P.life = .running) (hcall : may P.code (.fork job next)) (hfree : t child = none) (h0 : child ≠ 0) :
      Step t (.forked pid (some child))
        (put (put t child ⟨pid, job, next 0, .running⟩) pid { P with code := next child })
  | forkFailed {pid : Nat} {P : Proc C J} {job : J} {next : Int → C} (hP : t pid = some P)
      (hrun : P.life = .running) (hcall : may P.code (.fork job next)) :
      Step t (.forked pid none) (put t pid { P with code := next (-1) })
  | waitpid {pid : Nat} {P : Proc C J} {which : Int} {next : Option Nat → C} {answer : Option Nat}
      {t' : Table C J} (hP : t pid = some P) (hrun : P.life = .running)
      (hcall : may P.code (.waitpid which next)) (hwait : WaitPid t pid which answer t') :
      Step t (.waited pid) (put t' pid { P with code := next answer })
  | execve {pid : Nat} {P : Proc C J} {found missing : C} (there : Bool) (hP : t pid = some P)
      (hrun : P.life = .running) (hcall : may P.code (.execve found missing)) :
      Step t (.executed pid there) (put t pid { P with code := if there then found else missing })
  | exit {pid code : Nat} {P : Proc C J} (hP : t pid = some P) (hrun : P.life = .running)
      (hcall : may P.code (.exit code)) : Step t (.exited pid code) (finish t pid (exitStatus code))
  | kill {pid signal : Nat} {P : Proc C J} (core : Bool) (hP : t pid = some P) (halive : P.Alive)
      (hsignal : IsSignal signal) :
      Step t (.killed pid signal core) (finish t pid (signalStatus signal core))
  | stop {pid signal : Nat} {P : Proc C J} (hP : t pid = some P) (hrun : P.life = .running)
      (hsignal : IsSignal signal) :
      Step t (.stopped pid signal) (put t pid { P with life := .stopped signal false })
  | resume {pid signal : Nat} {reported : Bool} {P : Proc C J} (hP : t pid = some P)
      (hstopped : P.life = .stopped signal reported) :
      Step t (.continued pid) (put t pid { P with life := .running })
  | inherit {pid status : Nat} {P : Proc C J} (hP : t pid = some P) (hparent : P.parent = 0)
      (h : P.life = .ended status) : Step t (.inherited pid) (reap t pid)

end Step

/-! ## Entries -/

section Entries

variable {C J : Type} {t t' : Table C J} {pid q status : Nat} {P Q : Proc C J} {which : Int}
  {answer : Option Nat}

@[simp] theorem put_self : put t pid P pid = some P := Function.update_self ..

@[simp] theorem put_ne (h : q ≠ pid) : put t pid P q = t q := Function.update_of_ne h ..

@[simp] theorem reap_self : reap t pid pid = none := Function.update_self ..

@[simp] theorem reap_ne (h : q ≠ pid) : reap t pid q = t q := Function.update_of_ne h ..

theorem put_eq_some : put t pid P q = some Q ↔ q = pid ∧ Q = P ∨ q ≠ pid ∧ t q = some Q := by
  by_cases h : q = pid
  · subst h
    simp [eq_comm]
  · simp [h]

theorem reap_eq_some : reap t pid q = some Q ↔ q ≠ pid ∧ t q = some Q := by
  by_cases h : q = pid
  · subst h
    simp
  · simp [h]

theorem finish_eq_some : finish t pid status q = some Q ↔ ∃ Q', t q = some Q' ∧ Q = afterEnd pid status q Q' := by
  rw [finish, Option.map_eq_some_iff]
  exact exists_congr fun Q' => and_congr_right fun _ => eq_comm

theorem Proc.Alive.of_running (h : P.life = .running) : P.Alive := fun status hs => by
  rw [h] at hs
  cases hs

@[simp] theorem afterEnd_job : (afterEnd pid status q Q).job = Q.job := by
  unfold afterEnd
  split
  · rfl
  · split <;> rfl

@[simp] theorem afterEnd_code : (afterEnd pid status q Q).code = Q.code := by
  unfold afterEnd
  split
  · rfl
  · split <;> rfl

/-- Whoever is still there has not ended by this. -/
theorem afterEnd_alive (h : (afterEnd pid status q Q).Alive) : q ≠ pid ∧ Q.Alive := by
  unfold afterEnd at h
  split at h
  · exact absurd rfl (h status)
  · next hq => split at h <;> exact ⟨hq, h⟩

theorem alive_afterEnd (hq : q ≠ pid) (h : Q.Alive) : (afterEnd pid status q Q).Alive := by
  unfold afterEnd
  rw [if_neg hq]
  split <;> exact h

/-- A parent is the one from before, or process 0. -/
theorem afterEnd_parent (h : (afterEnd pid status q Q).parent ≠ 0) :
    (afterEnd pid status q Q).parent = Q.parent ∧ (q ≠ pid → Q.parent ≠ pid) := by
  unfold afterEnd at h ⊢
  split
  · next hq => exact ⟨rfl, fun hne => absurd hq hne⟩
  · next hq =>
    rw [if_neg hq] at h
    split
    · next hparent => exact absurd (if_pos hparent ▸ rfl) h
    · next hparent => exact ⟨rfl, fun _ => hparent⟩

theorem afterEnd_parent_of_ne (h : Q.parent ≠ pid) : (afterEnd pid status q Q).parent = Q.parent := by
  unfold afterEnd
  rw [if_neg h]
  split <;> rfl

/-- The entries before and after an answer: the child that has ended is gone, and one that is stopped has
been reported. -/
theorem WaitPid.entry (h : WaitPid t pid which answer t') :
    (answer = none ∧ t' = t) ∨ ∃ q Q, t q = some Q ∧ Q.parent = pid ∧ Selected which q ∧
      ((∃ status, Q.life = .ended status ∧ answer = some status ∧ t' = reap t q) ∨
        ∃ signal, Q.life = .stopped signal false ∧ answer = some (stopStatus signal) ∧
          t' = put t q { Q with life := .stopped signal true }) := by
  cases h with
  | ended hQ hparent hwhich hlife => exact .inr ⟨_, _, hQ, hparent, hwhich, .inl ⟨_, hlife, rfl, rfl⟩⟩
  | stopped hQ hparent hwhich hlife => exact .inr ⟨_, _, hQ, hparent, hwhich, .inr ⟨_, hlife, rfl, rfl⟩⟩
  | noChild => exact .inl ⟨rfl, rfl⟩

end Entries

end ProcessTable
