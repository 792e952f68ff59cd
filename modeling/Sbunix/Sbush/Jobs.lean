/-
The shell's processes (bin/sbush/sbush.c): which commands it waits for, and which processes run its loop.

What a shell does between two calls of the kernel is left out: a shell is `ready` wherever it is between
two commands, be they typed or a script's. The processes of a pipeline other than the one the shell forks
are not in the table, also those that `runPiping` starts in the background: they end with `exit`, found or
missing. The one the shell forks is a `program` here, as is every binary that runs, were it another shell.
-/
import Mathlib.Algebra.Order.Group.Nat
import Sbunix.Lib.ProcessTable
import Sbunix.Lib.Run

namespace Sbunix.Sbush.Jobs

open ProcessTable Transition

/-! ## The statuses of signal.h -/

/-- `_WSTOPPED` -/
def wStopped : Nat := 0o177

/-- `_WSTATUS(x)` -/
def wStatus (x : Nat) : Nat := x &&& 0o177

/-- `WIFEXITED(x)` -/
def wIfExited (x : Nat) : Bool := wStatus x = 0

/-- `WIFSIGNALED(x)` -/
def wIfSignaled (x : Nat) : Bool := wStatus x ≠ wStopped ∧ wStatus x ≠ 0

/-! ## The shell's code -/

/-- How a process was started. -/
inductive Job
  | foreground | background
deriving DecidableEq, Repr

/-- Where a process is: between two commands, in the loop of `waitForProcessExecution`, in the child of
`executeBinaryInteractively` or of `executeBinaryInBackGround`, at `exit(0)`, or in something else. -/
inductive Code
  | ready
  | waiting (pid : Int) (waitStatus : Nat)
  | foreground
  | background
  | exiting
  | program
deriving DecidableEq, Repr

/-- Up to the first `waitpid`. -/
def waitForProcessExecution (pid : Int) : Code := .waiting pid 0

/-- A round of its loop; a call that fails stores no status. -/
def waitRound (pid : Int) (waitStatus : Nat) (answer : Option Nat) : Code :=
  let waitStatus := answer.getD waitStatus
  if ¬ wIfExited waitStatus ∧ ¬ wIfSignaled waitStatus then .waiting pid waitStatus else .ready

/-- From the result of `fork` on. -/
def executeBinaryInBackGround (pid : Int) : Code := if pid = 0 then .background else .ready

/-- From the result of `fork` on. -/
def executeBinaryInteractively (pid : Int) : Code :=
  if pid = 0 then .foreground else waitForProcessExecution pid

/-- The `switch` over the result of `fork` in `parseAndExecuteCommand`. -/
def executePipeline (cPid : Int) : Code := if cPid = 0 then .program else waitForProcessExecution cPid

/-- What is called next. A child of the background whose command is missing goes back to the loop of the
shell; `executeFile` executes the shell of another script in place of this one. -/
inductive Calls : Code → Call Code Job → Prop
  | interactive : Calls .ready (.fork .foreground executeBinaryInteractively)
  | inBackGround : Calls .ready (.fork .background executeBinaryInBackGround)
  | pipeline : Calls .ready (.fork .foreground executePipeline)
  | otherShell : Calls .ready (.execve .program .ready)
  | leave (code : Nat) : Calls .ready (.exit code)
  | wait (pid : Int) (waitStatus : Nat) : Calls (.waiting pid waitStatus) (.waitpid pid (waitRound pid waitStatus))
  | foreground : Calls .foreground (.execve .program .exiting)
  | background : Calls .background (.execve .program .ready)
  | exiting : Calls .exiting (.exit 0)
  | program (code : Nat) : Calls .program (.exit code)

abbrev Processes := Table Code Job

/-- One shell, and nothing else. -/
def oneShell (first : Nat) : Processes := put (fun _ => none) first ⟨0, .foreground, .ready, .running⟩

/-- The process runs the loop of the shell. -/
def Code.InLoop : Code → Prop
  | .ready => True
  | .waiting .. => True
  | _ => False

/-- The process waits for the child. -/
def Code.AwaitsPid (c : Code) (q : Nat) : Prop := ∃ waitStatus, c = .waiting q waitStatus

/-- What holds of the processes in every run: whoever has a foreground child waits for it, whoever waits
for a child has it, and statuses are read from children that are still there. -/
structure Tracked (t : Processes) : Prop where
  noZero : t 0 = none
  apart : ∀ q Q, t q = some Q → Q.parent ≠ q
  status : ∀ q Q status, t q = some Q → Q.life = .ended status → EndStatus status
  known : ∀ q Q, t q = some Q → Q.job = .foreground → Q.parent ≠ 0 →
    ∃ P, t Q.parent = some P ∧ P.Alive ∧ P.code.AwaitsPid q
  awaited : ∀ p P (c : Int) st, t p = some P → P.Alive → P.code = .waiting c st →
    c = -1 ∨ ∃ (q : Nat) (Q : Proc Code Job), c = q ∧ t q = some Q ∧ Q.parent = p ∧ Q.job = .foreground
  fresh : ∀ p P (c : Int) st, t p = some P → P.Alive → P.code = .waiting c st →
    st = 0 ∨ ∃ q Q, t q = some Q ∧ Q.parent = p

section Statuses

theorem wStatus_eq (x : Nat) : wStatus x = x % 128 := Nat.and_two_pow_sub_one_eq_mod x 7

theorem wIfExited_zero : wIfExited 0 = true := by decide

theorem wIfExited_exit (code : Nat) : wIfExited (exitStatus code) = true := by
  simp only [wIfExited, wStatus_eq, exitStatus, decide_eq_true_eq]
  omega

theorem wIfSignaled_signal {signal : Nat} (h : IsSignal signal) (core : Bool) :
    wIfSignaled (signalStatus signal core) = true := by
  obtain ⟨h0, h64⟩ := h
  have hstatus : wStatus (signalStatus signal core) = signal := by
    rw [wStatus_eq, signalStatus]
    split <;> omega
  simp only [wIfSignaled, hstatus, wStopped, decide_eq_true_eq]
  omega

theorem wStatus_stop (signal : Nat) : wStatus (stopStatus signal) = wStopped := by
  rw [wStatus_eq, stopStatus, wStopped]
  omega

variable {pid : Int} {waitStatus status : Nat}

/-- A child that has ended ends the loop, however it did. -/
theorem waitRound_ended (h : EndStatus status) : waitRound pid waitStatus (some status) = .ready := by
  unfold waitRound
  rw [Option.getD_some, if_neg]
  cases h with
  | exit code => simp [wIfExited_exit]
  | signal h core => simp [wIfSignaled_signal h]

/-- A child that is stopped does not. -/
theorem waitRound_stopped (signal : Nat) :
    waitRound pid waitStatus (some (stopStatus signal)) = .waiting pid (stopStatus signal) := by
  unfold waitRound
  rw [Option.getD_some, if_pos]
  simp [wIfExited, wIfSignaled, wStatus_stop, wStopped]

theorem waitRound_waiting {answer : Option Nat} {c : Int} (h : waitRound pid waitStatus answer = .waiting c status) :
    c = pid ∧ status = answer.getD waitStatus := by
  unfold waitRound at h
  dsimp only at h
  split at h
  · cases h
    exact ⟨rfl, rfl⟩
  · cases h

theorem waitRound_failed_first : waitRound pid 0 none = .ready := by
  simp [waitRound, wIfExited_zero]

end Statuses

/-! ## What one step keeps -/

/-- The process, changed in the table `t` by nothing that another one relies on. -/
structure Follows (t : Processes) (pid : Nat) (P P' : Proc Code Job) : Prop where
  job : P'.job = P.job
  parent : P'.parent = P.parent
  status : ∀ status, P'.life = .ended status → EndStatus status
  known : ∀ q, P.Alive → P.code.AwaitsPid q → P'.Alive ∧ P'.code.AwaitsPid q
  awaited : ∀ (c : Int) st, P'.Alive → P'.code = .waiting c st →
    c = -1 ∨ P.Alive ∧ ∃ st0, P.code = .waiting c st0
  fresh : ∀ (c : Int) st, P'.Alive → P'.code = .waiting c st → st = 0 ∨ ∃ q Q, t q = some Q ∧ Q.parent = pid

section Steps

variable {t t' : Processes} {pid q p child status signal : Nat} {P P' Q : Proc Code Job} {job : Job} {life : Life}
  {which : Int} {waitStatus : Nat} {answer : Option Nat} {e : Event}

theorem Tracked.put (h : Tracked t) (hP : t pid = some P) (hf : Follows t pid P P') :
    Tracked (put t pid P') where
  noZero := by
    have hne : 0 ≠ pid := by
      rintro rfl
      cases h.noZero.symm.trans hP
    rw [put_ne hne, h.noZero]
  apart := by
    intro q Q hQ
    rcases put_eq_some.1 hQ with ⟨rfl, rfl⟩ | ⟨-, hQ⟩
    · rw [hf.parent]
      exact h.apart q P hP
    · exact h.apart q Q hQ
  status := by
    intro q Q status hQ hlife
    rcases put_eq_some.1 hQ with ⟨-, rfl⟩ | ⟨-, hQ⟩
    · exact hf.status status hlife
    · exact h.status q Q status hQ hlife
  known := by
    intro q Q' hQ' hjob hparent
    obtain ⟨Q, hQ, hjobQ, hparentQ⟩ : ∃ Q, t q = some Q ∧ Q.job = Q'.job ∧ Q.parent = Q'.parent := by
      rcases put_eq_some.1 hQ' with ⟨rfl, rfl⟩ | ⟨-, hQ⟩
      · exact ⟨P, hP, hf.job.symm, hf.parent.symm⟩
      · exact ⟨Q', hQ, rfl, rfl⟩
    obtain ⟨R, hR, halive, hcode⟩ := h.known q Q hQ (hjobQ.trans hjob) (hparentQ ▸ hparent)
    rw [hparentQ] at hR
    by_cases hpid : Q'.parent = pid
    · rw [hpid] at hR ⊢
      cases hP.symm.trans hR
      exact ⟨P', put_self, hf.known q halive hcode⟩
    · exact ⟨R, (put_ne hpid).trans hR, halive, hcode⟩
  awaited := by
    intro p R c st hR halive hcode
    obtain ⟨R0, st0, hR0, halive0, hcode0⟩ | rfl : (∃ R0 st0, t p = some R0 ∧ R0.Alive ∧
        R0.code = .waiting c st0) ∨ c = -1 := by
      rcases put_eq_some.1 hR with ⟨rfl, rfl⟩ | ⟨-, hR⟩
      · rcases hf.awaited c st halive hcode with hc | ⟨halive0, st0, hcode0⟩
        · exact .inr hc
        · exact .inl ⟨P, st0, hP, halive0, hcode0⟩
      · exact .inl ⟨R, st, hR, halive, hcode⟩
    · rcases h.awaited p R0 c st0 hR0 halive0 hcode0 with hc | ⟨q, Q, hc, hQ, hparent, hjob⟩
      · exact .inl hc
      · refine .inr ⟨q, ?_⟩
        by_cases hq : q = pid
        · subst hq
          cases hP.symm.trans hQ
          exact ⟨P', hc, put_self, hf.parent.trans hparent, hf.job.trans hjob⟩
        · exact ⟨Q, hc, (put_ne hq).trans hQ, hparent, hjob⟩
    · exact .inl rfl
  fresh := by
    intro p R c st hR halive hcode
    obtain hst | ⟨q, Q, hQ, hparent⟩ : st = 0 ∨ ∃ q Q, t q = some Q ∧ Q.parent = p := by
      rcases put_eq_some.1 hR with ⟨rfl, rfl⟩ | ⟨-, hR⟩
      · exact hf.fresh c st halive hcode
      · exact h.fresh p R c st hR halive hcode
    · exact .inl hst
    · refine .inr ⟨q, ?_⟩
      by_cases hq : q = pid
      · subst hq
        cases hP.symm.trans hQ
        exact ⟨P', put_self, hf.parent.trans hparent⟩
      · exact ⟨Q, (put_ne hq).trans hQ, hparent⟩

/-- A process that does not wait goes on, and does not wait, or for any child. -/
theorem Tracked.recode {code : Code} (h : Tracked t) (hP : t pid = some P) (hrun : P.life = .running)
    (hnot : ∀ c st, P.code ≠ .waiting c st) (hcode : ∀ c st, code = .waiting c st → c = -1 ∧ st = 0) :
    Tracked (ProcessTable.put t pid { P with code := code }) :=
  h.put hP {
    job := rfl
    parent := rfl
    status := fun status hlife => by cases hrun.symm.trans hlife
    known := fun _ _ ⟨st, hq⟩ => absurd hq (hnot _ st)
    awaited := fun c st _ hc => .inl (hcode c st hc).1
    fresh := fun c st _ hc => .inl (hcode c st hc).2 }

/-- A process is stopped or goes on. -/
theorem Tracked.relife (h : Tracked t) (hP : t pid = some P) (halive : P.Alive)
    (hlife : ∀ status, life ≠ .ended status) : Tracked (ProcessTable.put t pid { P with life := life }) :=
  h.put hP {
    job := rfl
    parent := rfl
    status := fun status hl => absurd hl (hlife status)
    known := fun _ _ hq => ⟨hlife, hq⟩
    awaited := fun _ st _ hc => .inr ⟨halive, st, hc⟩
    fresh := fun c st _ hc => h.fresh pid P c st hP halive hc }

/-- A process forks; it waits for a child in the foreground and no other. -/
theorem Tracked.fork {next : Int → Code} (h : Tracked t) (hP : t pid = some P) (hrun : P.life = .running)
    (hnot : ∀ c st, P.code ≠ .waiting c st) (hfree : t child = none) (h0 : child ≠ 0)
    (hchild : ∀ c st, next 0 ≠ .waiting c st)
    (hnext : job = .foreground ∧ next child = .waiting child 0 ∨ job = .background ∧ next child = .ready) :
    Tracked (ProcessTable.put (ProcessTable.put t child ⟨pid, job, next 0, .running⟩) pid
      { P with code := next child }) := by
  have hne : pid ≠ child := by
    rintro rfl
    cases hfree.symm.trans hP
  have hpid0 : pid ≠ 0 := by
    rintro rfl
    cases h.noZero.symm.trans hP
  have hold : ∀ q Q, ProcessTable.put (ProcessTable.put t child ⟨pid, job, next 0, .running⟩) pid
      { P with code := next child } q = some Q ↔ q = pid ∧ Q = { P with code := next child } ∨
        q ≠ pid ∧ (q = child ∧ Q = ⟨pid, job, next 0, .running⟩ ∨ q ≠ child ∧ t q = some Q) := by
    intro q Q
    rw [put_eq_some, put_eq_some]
  -- who was there before
  have hkeeps : ∀ q Q, t q = some Q → ∃ Q', ProcessTable.put (ProcessTable.put t child
      ⟨pid, job, next 0, .running⟩) pid { P with code := next child } q = some Q' ∧ Q'.job = Q.job ∧
        Q'.parent = Q.parent := by
    intro q Q hQ
    by_cases hq : q = pid
    · subst hq
      cases hP.symm.trans hQ
      exact ⟨_, put_self, rfl, rfl⟩
    · have hqc : q ≠ child := by
        rintro rfl
        cases hfree.symm.trans hQ
      exact ⟨Q, (hold q Q).2 (.inr ⟨hq, .inr ⟨hqc, hQ⟩⟩), rfl, rfl⟩
  constructor
  case noZero => rw [put_ne hpid0.symm, put_ne h0.symm, h.noZero]
  case apart =>
    intro q Q hQ
    rcases (hold q Q).1 hQ with ⟨rfl, rfl⟩ | ⟨-, ⟨rfl, rfl⟩ | ⟨-, hQ⟩⟩
    · exact h.apart q P hP
    · exact hne
    · exact h.apart q Q hQ
  case status =>
    intro q Q status hQ hlife
    rcases (hold q Q).1 hQ with ⟨rfl, rfl⟩ | ⟨-, ⟨rfl, rfl⟩ | ⟨-, hQ⟩⟩
    · cases hrun.symm.trans hlife
    · cases hlife
    · exact h.status q Q status hQ hlife
  case known =>
    -- one that was known before has a parent that waits, which is not the one that forks
    have hbefore : ∀ q Q, t q = some Q → Q.job = .foreground → Q.parent ≠ 0 → ∃ R,
        ProcessTable.put (ProcessTable.put t child ⟨pid, job, next 0, .running⟩) pid
          { P with code := next child } Q.parent = some R ∧ R.Alive ∧ R.code.AwaitsPid q := by
      intro q Q hQ hjob hparent
      obtain ⟨R, hR, halive, st, hcode⟩ := h.known q Q hQ hjob hparent
      refine ⟨R, (hold _ R).2 (.inr ⟨?_, .inr ⟨?_, hR⟩⟩), halive, st, hcode⟩
      · intro heq
        rw [heq] at hR
        cases hP.symm.trans hR
        exact hnot q st hcode
      · intro heq
        rw [heq] at hR
        cases hfree.symm.trans hR
    intro q Q hQ hjob hparent
    rcases (hold q Q).1 hQ with ⟨rfl, rfl⟩ | ⟨-, ⟨rfl, rfl⟩ | ⟨-, hQ⟩⟩
    · exact hbefore q P hP hjob hparent
    · rcases hnext with ⟨-, hcode⟩ | ⟨hback, -⟩
      · exact ⟨_, put_self, .of_running hrun, 0, hcode⟩
      · cases hback.symm.trans hjob
    · exact hbefore q Q hQ hjob hparent
  case awaited =>
    intro p R c st hR halive hcode
    rcases (hold p R).1 hR with ⟨rfl, rfl⟩ | ⟨-, ⟨rfl, rfl⟩ | ⟨-, hR⟩⟩
    · rcases hnext with ⟨hfore, hwait⟩ | ⟨-, hready⟩
      · cases hwait.symm.trans hcode
        exact .inr ⟨child, _, rfl, (hold child _).2 (.inr ⟨hne.symm, .inl ⟨rfl, rfl⟩⟩), rfl, hfore⟩
      · cases hready.symm.trans hcode
    · exact absurd hcode (hchild c st)
    · rcases h.awaited p R c st hR halive hcode with hc | ⟨q, Q, hc, hQ, hparent, hjob⟩
      · exact .inl hc
      · obtain ⟨Q', hQ', hjob', hparent'⟩ := hkeeps q Q hQ
        exact .inr ⟨q, Q', hc, hQ', hparent'.trans hparent, hjob'.trans hjob⟩
  case fresh =>
    intro p R c st hR halive hcode
    rcases (hold p R).1 hR with ⟨rfl, rfl⟩ | ⟨-, ⟨rfl, rfl⟩ | ⟨-, hR⟩⟩
    · rcases hnext with ⟨-, hwait⟩ | ⟨-, hready⟩
      · cases hwait.symm.trans hcode
        exact .inl rfl
      · cases hready.symm.trans hcode
    · exact absurd hcode (hchild c st)
    · rcases h.fresh p R c st hR halive hcode with hst | ⟨q, Q, hQ, hparent⟩
      · exact .inl hst
      · obtain ⟨Q', hQ', -, hparent'⟩ := hkeeps q Q hQ
        exact .inr ⟨q, Q', hQ', hparent'.trans hparent⟩

/-- A process ends. Its children have another parent now, and nobody waits for them. -/
theorem Tracked.finish (h : Tracked t) (hend : EndStatus status) :
    Tracked (ProcessTable.finish t pid status) where
  noZero := by rw [ProcessTable.finish, h.noZero, Option.map_none]
  apart := by
    intro q Q' hQ'
    obtain ⟨Q, hQ, rfl⟩ := finish_eq_some.1 hQ'
    have hne := h.apart q Q hQ
    unfold afterEnd
    split
    · exact hne
    · split
      · rintro rfl
        cases h.noZero.symm.trans hQ
      · exact hne
  status := by
    intro q Q' status' hQ' hlife
    obtain ⟨Q, hQ, rfl⟩ := finish_eq_some.1 hQ'
    unfold afterEnd at hlife
    split at hlife
    · cases hlife
      exact hend
    · split at hlife <;> exact h.status q Q status' hQ hlife
  known := by
    intro q Q' hQ' hjob hparent
    obtain ⟨Q, hQ, rfl⟩ := finish_eq_some.1 hQ'
    obtain ⟨hsame, hother⟩ := afterEnd_parent hparent
    rw [hsame] at hparent ⊢
    rw [afterEnd_job] at hjob
    obtain ⟨R, hR, halive, hcode⟩ := h.known q Q hQ hjob hparent
    have hne : Q.parent ≠ pid := by
      by_cases hq : q = pid
      · exact hq ▸ h.apart q Q hQ
      · exact hother hq
    exact ⟨_, finish_eq_some.2 ⟨R, hR, rfl⟩, alive_afterEnd hne halive, by rwa [afterEnd_code]⟩
  awaited := by
    intro p R' c st hR' halive hcode
    obtain ⟨R, hR, rfl⟩ := finish_eq_some.1 hR'
    obtain ⟨hp, halive⟩ := afterEnd_alive halive
    rw [afterEnd_code] at hcode
    rcases h.awaited p R c st hR halive hcode with hc | ⟨q, Q, hc, hQ, hparent, hjob⟩
    · exact .inl hc
    · exact .inr ⟨q, _, hc, finish_eq_some.2 ⟨Q, hQ, rfl⟩,
        (afterEnd_parent_of_ne (hparent ▸ hp)).trans hparent, afterEnd_job.trans hjob⟩
  fresh := by
    intro p R' c st hR' halive hcode
    obtain ⟨R, hR, rfl⟩ := finish_eq_some.1 hR'
    obtain ⟨hp, halive⟩ := afterEnd_alive halive
    rw [afterEnd_code] at hcode
    rcases h.fresh p R c st hR halive hcode with hst | ⟨q, Q, hQ, hparent⟩
    · exact .inl hst
    · exact .inr ⟨q, _, finish_eq_some.2 ⟨Q, hQ, rfl⟩,
        (afterEnd_parent_of_ne (hparent ▸ hp)).trans hparent⟩

/-- A process that has ended is given back, and nobody waits for it. -/
theorem Tracked.reap (h : Tracked t) (hQ : t q = some Q) (hend : Q.life = .ended status)
    (hnot : ∀ R, t Q.parent = some R → R.Alive → ∀ c st, R.code ≠ .waiting c st) : Tracked (reap t q) where
  noZero := by
    rw [reap_ne (fun h0 => by cases h.noZero.symm.trans (h0 ▸ hQ)), h.noZero]
  apart := fun r R hR => h.apart r R (reap_eq_some.1 hR).2
  status := fun r R status hR hlife => h.status r R status (reap_eq_some.1 hR).2 hlife
  known := by
    intro r R hR hjob hparent
    obtain ⟨S, hS, halive, hcode⟩ := h.known r R (reap_eq_some.1 hR).2 hjob hparent
    refine ⟨S, reap_eq_some.2 ⟨?_, hS⟩, halive, hcode⟩
    intro heq
    rw [heq] at hS
    cases hQ.symm.trans hS
    exact halive status hend
  awaited := by
    intro p R c st hR halive hcode
    rcases h.awaited p R c st (reap_eq_some.1 hR).2 halive hcode with hc | ⟨r, S, hc, hS, hparent, hjob⟩
    · exact .inl hc
    · refine .inr ⟨r, S, hc, reap_eq_some.2 ⟨?_, hS⟩, hparent, hjob⟩
      rintro rfl
      cases hQ.symm.trans hS
      exact hnot R (hparent ▸ (reap_eq_some.1 hR).2) halive c st hcode
  fresh := by
    intro p R c st hR halive hcode
    rcases h.fresh p R c st (reap_eq_some.1 hR).2 halive hcode with hst | ⟨r, S, hS, hparent⟩
    · exact .inl hst
    · refine .inr ⟨r, S, reap_eq_some.2 ⟨?_, hS⟩, hparent⟩
      rintro rfl
      cases hQ.symm.trans hS
      exact hnot R (hparent ▸ (reap_eq_some.1 hR).2) halive c st hcode

/-- The parent hears of the end of a child, and waits no longer. -/
theorem Tracked.heard (h : Tracked t) (hP : t p = some P)
    (hwait : P.code = .waiting which waitStatus) (hQ : t q = some Q) (hparent : Q.parent = p)
    (hwhich : Selected which q) (hend : Q.life = .ended status) :
    Tracked (ProcessTable.put (ProcessTable.reap t q) p { P with code := .ready }) := by
  have hne : p ≠ q := fun heq => h.apart q Q hQ (hparent.trans heq)
  have hold : ∀ r R, ProcessTable.put (ProcessTable.reap t q) p { P with code := .ready } r = some R ↔
      r = p ∧ R = { P with code := .ready } ∨ r ≠ p ∧ r ≠ q ∧ t r = some R := by
    intro r R
    rw [put_eq_some, reap_eq_some]
  have hjust : ∀ r R, ProcessTable.put (ProcessTable.reap t q) p { P with code := .ready } r = some R →
      r ≠ q ∧ ∃ R0, t r = some R0 ∧ R0.job = R.job ∧ R0.parent = R.parent ∧ R0.life = R.life := by
    intro r R hR
    rcases (hold r R).1 hR with ⟨rfl, rfl⟩ | ⟨-, hrq, hR⟩
    · exact ⟨hne, P, hP, rfl, rfl, rfl⟩
    · exact ⟨hrq, R, hR, rfl, rfl, rfl⟩
  -- the children of other processes are all there
  have hchild : ∀ r R, t r = some R → R.parent ≠ p → ∃ R',
      ProcessTable.put (ProcessTable.reap t q) p { P with code := .ready } r = some R' ∧
        R'.parent = R.parent ∧ R'.job = R.job := by
    intro r R hR hrp
    by_cases hr : r = p
    · subst hr
      cases hP.symm.trans hR
      exact ⟨_, put_self, rfl, rfl⟩
    · have hrq : r ≠ q := by
        rintro rfl
        cases hQ.symm.trans hR
        exact hrp hparent
      exact ⟨R, (hold r R).2 (.inr ⟨hr, hrq, hR⟩), rfl, rfl⟩
  constructor
  case noZero =>
    have hp0 : 0 ≠ p := by
      rintro rfl
      cases h.noZero.symm.trans hP
    have hq0 : 0 ≠ q := by
      rintro rfl
      cases h.noZero.symm.trans hQ
    rw [put_ne hp0, reap_ne hq0, h.noZero]
  case apart =>
    intro r R hR
    obtain ⟨-, R0, hR0, -, hsame, -⟩ := hjust r R hR
    exact hsame ▸ h.apart r R0 hR0
  case status =>
    intro r R st hR hlife
    obtain ⟨-, R0, hR0, -, -, hsame⟩ := hjust r R hR
    exact h.status r R0 st hR0 (hsame.trans hlife)
  case known =>
    intro r R hR hjob hparent'
    obtain ⟨hrq, R0, hR0, hjob0, hparent0, -⟩ := hjust r R hR
    obtain ⟨S, hS, halive, st, hcode⟩ := h.known r R0 hR0 (hjob0.trans hjob) (hparent0 ▸ hparent')
    rw [hparent0] at hS
    refine ⟨S, (hold _ S).2 (.inr ⟨?_, ?_, hS⟩), halive, st, hcode⟩
    · -- the parent waited for this child, or for any
      intro heq
      rw [heq] at hS
      cases hP.symm.trans hS
      cases hwait.symm.trans hcode
      rcases hwhich with hany | hone
      · omega
      · exact hrq (Int.ofNat.inj hone)
    · intro heq
      rw [heq] at hS
      cases hQ.symm.trans hS
      exact halive status hend
  case awaited =>
    intro r R c st hR halive hcode
    rcases (hold r R).1 hR with ⟨rfl, rfl⟩ | ⟨hrp, -, hR⟩
    · cases hcode
    · rcases h.awaited r R c st hR halive hcode with hc | ⟨x, X, hc, hX, hparentX, hjobX⟩
      · exact .inl hc
      · obtain ⟨X', hX', hparent', hjob'⟩ := hchild x X hX (hparentX ▸ hrp)
        exact .inr ⟨x, X', hc, hX', hparent'.trans hparentX, hjob'.trans hjobX⟩
  case fresh =>
    intro r R c st hR halive hcode
    rcases (hold r R).1 hR with ⟨rfl, rfl⟩ | ⟨hrp, -, hR⟩
    · cases hcode
    · rcases h.fresh r R c st hR halive hcode with hst | ⟨x, X, hX, hparentX⟩
      · exact .inl hst
      · obtain ⟨X', hX', hparent', -⟩ := hchild x X hX (hparentX ▸ hrp)
        exact .inr ⟨x, X', hX', hparent'.trans hparentX⟩

/-- What a round of the loop makes of an answer: a child has ended, and is given back; or it has been
stopped, and the loop goes on; or there is no child at all, after a `fork` that failed. -/
theorem Tracked.round (h : Tracked t) (hP : t p = some P) (hrun : P.life = .running)
    (hwait : P.code = .waiting which waitStatus) (hanswer : WaitPid t p which answer t') :
    (∃ q Q status, t q = some Q ∧ Q.parent = p ∧ Selected which q ∧ Q.life = .ended status ∧
      t' = ProcessTable.reap t q ∧ waitRound which waitStatus answer = .ready) ∨
    (∃ q Q signal, t q = some Q ∧ Q.parent = p ∧ Q.life = .stopped signal false ∧
      t' = ProcessTable.put t q { Q with life := .stopped signal true } ∧
      waitRound which waitStatus answer = .waiting which (stopStatus signal)) ∨
    (which = -1 ∧ (∀ q Q, t q = some Q → Q.parent ≠ p) ∧ t' = t ∧
      waitRound which waitStatus answer = .ready) := by
  cases hanswer with
  | @ended q Q status hQ hparent hwhich hlife =>
    exact .inl ⟨q, Q, status, hQ, hparent, hwhich, hlife, rfl, waitRound_ended (h.status q Q status hQ hlife)⟩
  | @stopped q Q signal hQ hparent hwhich hlife =>
    exact .inr (.inl ⟨q, Q, signal, hQ, hparent, hlife, rfl, waitRound_stopped signal⟩)
  | noChild hno =>
    have halive : P.Alive := .of_running hrun
    rcases h.awaited p P which waitStatus hP halive hwait with rfl | ⟨q, Q, rfl, hQ, hparent, -⟩
    · have hnone : ∀ q Q, t q = some Q → Q.parent ≠ p := fun q Q hQ hparent => hno q Q hQ hparent (.inl rfl)
      rcases h.fresh p P (-1) waitStatus hP halive hwait with rfl | ⟨q, Q, hQ, hparent⟩
      · exact .inr (.inr ⟨rfl, hnone, rfl, waitRound_failed_first⟩)
      · exact absurd hparent (hnone q Q hQ)
    · exact absurd (.inr rfl) (hno q Q hQ hparent)

theorem Tracked.waited (h : Tracked t) (hP : t p = some P) (hrun : P.life = .running)
    (hwait : P.code = .waiting which waitStatus) (hanswer : WaitPid t p which answer t') :
    Tracked (ProcessTable.put t' p { P with code := waitRound which waitStatus answer }) := by
  rcases h.round hP hrun hwait hanswer with ⟨q, Q, status, hQ, hparent, hwhich, hlife, rfl, hcode⟩ |
    ⟨q, Q, signal, hQ, hparent, hlife, rfl, hcode⟩ | ⟨rfl, -, rfl, hcode⟩
  · rw [hcode]
    exact h.heard hP hwait hQ hparent hwhich hlife
  · have hne : p ≠ q := fun heq => h.apart q Q hQ (hparent.trans heq)
    have halive : Q.Alive := fun status hs => by cases hlife.symm.trans hs
    have h' : Tracked (ProcessTable.put t q { Q with life := .stopped signal true }) :=
      h.relife hQ halive fun _ hl => by cases hl
    rw [hcode]
    exact h'.put ((put_ne hne).trans hP) {
      job := rfl
      parent := rfl
      status := fun _ hl => by cases hrun.symm.trans hl
      known := fun x hx ⟨st, hc⟩ => ⟨hx, stopStatus signal, by cases hwait.symm.trans hc; rfl⟩
      awaited := fun c st hx hc => .inr ⟨hx, waitStatus, by cases hc; exact hwait⟩
      fresh := fun _ _ _ _ => .inr ⟨q, _, put_self, hparent⟩ }
  · rw [hcode]
    exact h.put hP {
      job := rfl
      parent := rfl
      status := fun _ hl => by cases hrun.symm.trans hl
      known := fun x _ ⟨st, hc⟩ => by
        cases hwait.symm.trans hc
      awaited := fun _ _ _ hc => by cases hc
      fresh := fun _ _ _ hc => by cases hc }

theorem Tracked.step (h : Tracked t) (hs : Step Calls t e t') : Tracked t' := by
  cases hs with
  | @fork pid child P job next hP hrun hcall hfree h0 =>
    cases hcode : P.code <;> rw [hcode] at hcall <;> cases hcall
    case ready.interactive =>
      exact h.fork hP hrun (by simp [hcode]) hfree h0 (by simp [executeBinaryInteractively])
        (.inl ⟨rfl, by simp [executeBinaryInteractively, h0, waitForProcessExecution]⟩)
    case ready.inBackGround =>
      exact h.fork hP hrun (by simp [hcode]) hfree h0 (by simp [executeBinaryInBackGround])
        (.inr ⟨rfl, by simp [executeBinaryInBackGround, h0]⟩)
    case ready.pipeline =>
      exact h.fork hP hrun (by simp [hcode]) hfree h0 (by simp [executePipeline])
        (.inl ⟨rfl, by simp [executePipeline, h0, waitForProcessExecution]⟩)
  | @forkFailed pid P job next hP hrun hcall =>
    cases hcode : P.code <;> rw [hcode] at hcall <;> cases hcall
    case ready.interactive =>
      exact h.recode hP hrun (by simp [hcode]) (by simp [executeBinaryInteractively, waitForProcessExecution])
    case ready.inBackGround =>
      exact h.recode hP hrun (by simp [hcode]) (by simp [executeBinaryInBackGround])
    case ready.pipeline =>
      exact h.recode hP hrun (by simp [hcode]) (by simp [executePipeline, waitForProcessExecution])
  | @waitpid pid P which next answer t1 hP hrun hcall hwait =>
    cases hcode : P.code <;> rw [hcode] at hcall <;> cases hcall
    exact h.waited hP hrun hcode hwait
  | @execve pid P found missing there hP hrun hcall =>
    cases hcode : P.code <;> rw [hcode] at hcall <;> cases hcall <;>
      exact h.recode hP hrun (by simp [hcode]) (by cases there <;> simp)
  | exit => exact h.finish (.exit _)
  | kill core _ _ hsignal => exact h.finish (.signal hsignal core)
  | stop hP hrun => exact h.relife hP (.of_running hrun) fun _ hl => by cases hl
  | resume hP hstopped =>
    exact h.relife hP (fun _ hl => by cases hstopped.symm.trans hl) fun _ hl => by cases hl
  | inherit hP hparent hend =>
    refine h.reap hP hend fun R hR => ?_
    rw [hparent] at hR
    cases h.noZero.symm.trans hR

end Steps

/-! ## Runs -/

/-- The wait of process `p` is over with this step. -/
def Returns (t : Processes) (p : Nat) (t' : Processes) : Prop :=
  Step Calls t (.waited p) t' ∧ ∃ P, t' p = some P ∧ P.code = .ready

/-- How the shell `p` stands to its children. -/
structure Waits (t : Processes) (p : Nat) (P : Proc Code Job) : Prop where
  ready : P.code = .ready → ∀ q Q, t q = some Q → Q.parent = p → Q.job = .background
  child : ∀ (q : Nat) st, P.code = .waiting q st →
    (∃ Q, t q = some Q ∧ Q.parent = p ∧ Q.job = .foreground ∧
      ((∃ t', Returns t p t') ↔ ∃ status, Q.life = .ended status)) ∧
    ∀ t', Returns t p t' → t' q = none
  any : ∀ st, P.code = .waiting (-1) st → ((∃ t', Returns t p t') ↔
    (∀ q Q, t q = some Q → Q.parent ≠ p) ∨
      ∃ q Q status, t q = some Q ∧ Q.parent = p ∧ Q.job = .background ∧ Q.life = .ended status)

section Runs

variable {t t' : Processes} {first p q status : Nat} {P Q : Proc Code Job} {which : Int} {waitStatus : Nat}
  {es es' : List Event} {e : Event}

theorem Tracked.oneShell (h0 : first ≠ 0) : Tracked (oneShell first) where
  noZero := put_ne h0.symm
  apart := by
    intro q Q hQ
    rcases put_eq_some.1 hQ with ⟨rfl, rfl⟩ | ⟨-, hQ⟩
    · exact h0.symm
    · cases hQ
  status := by
    intro q Q status hQ hlife
    rcases put_eq_some.1 hQ with ⟨-, rfl⟩ | ⟨-, hQ⟩
    · cases hlife
    · cases hQ
  known := by
    intro q Q hQ _ hparent
    rcases put_eq_some.1 hQ with ⟨-, rfl⟩ | ⟨-, hQ⟩
    · exact absurd rfl hparent
    · cases hQ
  awaited := by
    intro p P c st hP _ hcode
    rcases put_eq_some.1 hP with ⟨-, rfl⟩ | ⟨-, hP⟩
    · cases hcode
    · cases hP
  fresh := by
    intro p P c st hP _ hcode
    rcases put_eq_some.1 hP with ⟨-, rfl⟩ | ⟨-, hP⟩
    · cases hcode
    · cases hP

theorem tracked_run (h0 : first ≠ 0) (hrun : Run (Step Calls) (oneShell first) es t) : Tracked t :=
  hrun.invariant Tracked (.oneShell h0) fun _ _ _ h hs => h.step hs

/-- A child in the foreground is waited for. -/
theorem Tracked.ready_children (h : Tracked t) (hP : t p = some P) (hcode : ∀ q : Nat, ¬ P.code.AwaitsPid q)
    (hQ : t q = some Q) (hparent : Q.parent = p) : Q.job = .background := by
  cases hjob : Q.job with
  | background => rfl
  | foreground =>
    have hp0 : Q.parent ≠ 0 := by
      intro heq
      rw [hparent] at heq
      cases h.noZero.symm.trans (heq ▸ hP)
    obtain ⟨R, hR, -, hawaits⟩ := h.known q Q hQ hjob hp0
    rw [hparent] at hR
    cases hP.symm.trans hR
    exact absurd hawaits (hcode q)

theorem step_waited (hP : t p = some P) (hwait : P.code = .waiting which waitStatus)
    (hs : Step Calls t (.waited p) t') : ∃ answer t1, WaitPid t p which answer t1 ∧
      t' = put t1 p { P with code := waitRound which waitStatus answer } := by
  cases hs with
  | @waitpid _ P' which' next answer t1 hP' _ hcall hanswer =>
    cases hP.symm.trans hP'
    rw [hwait] at hcall
    cases hcall
    exact ⟨answer, t1, hanswer, rfl⟩

theorem returns_of_answer {answer : Option Nat} (hP : t p = some P) (hrun : P.life = .running)
    (hwait : P.code = .waiting which waitStatus) (hanswer : WaitPid t p which answer t')
    (hready : waitRound which waitStatus answer = .ready) : ∃ t', Returns t p t' := by
  have hcall : Calls P.code (.waitpid which (waitRound which waitStatus)) := hwait ▸ .wait which waitStatus
  exact ⟨_, .waitpid hP hrun hcall hanswer, _, put_self, hready⟩

/-- A wait that is over has heard of the end of a child, or there is none. -/
theorem Tracked.returns_cases (h : Tracked t) (hP : t p = some P) (hrun : P.life = .running)
    (hwait : P.code = .waiting which waitStatus) (hr : Returns t p t') :
    (∃ q Q status, t q = some Q ∧ Q.parent = p ∧ Selected which q ∧ Q.life = .ended status ∧ t' q = none) ∨
      which = -1 ∧ ∀ q Q, t q = some Q → Q.parent ≠ p := by
  obtain ⟨hs, P', hP', hready⟩ := hr
  obtain ⟨answer, t1, hanswer, rfl⟩ := step_waited hP hwait hs
  cases put_self.symm.trans hP'
  rcases h.round hP hrun hwait hanswer with ⟨q, Q, status, hQ, hparent, hwhich, hlife, rfl, -⟩ |
    ⟨_, _, _, -, -, -, -, hcode⟩ | ⟨rfl, hnone, -, -⟩
  · have hne : q ≠ p := fun heq => h.apart q Q hQ (hparent.trans heq.symm)
    exact .inl ⟨q, Q, status, hQ, hparent, hwhich, hlife, by rw [put_ne hne, reap_self]⟩
  · cases hcode.symm.trans hready
  · exact .inr ⟨rfl, hnone⟩

/-- A wait can be over exactly if a child it asks about has ended, or if there is none. -/
theorem Tracked.returns_iff (h : Tracked t) (hP : t p = some P) (hrun : P.life = .running)
    (hwait : P.code = .waiting which waitStatus) : (∃ t', Returns t p t') ↔
      (∃ q Q status, t q = some Q ∧ Q.parent = p ∧ Selected which q ∧ Q.life = .ended status) ∨
        which = -1 ∧ ∀ q Q, t q = some Q → Q.parent ≠ p := by
  constructor
  · rintro ⟨t', hr⟩
    refine (h.returns_cases hP hrun hwait hr).imp_left ?_
    rintro ⟨q, Q, status, hQ, hparent, hwhich, hlife, -⟩
    exact ⟨q, Q, status, hQ, hparent, hwhich, hlife⟩
  · rintro (⟨q, Q, status, hQ, hparent, hwhich, hlife⟩ | ⟨rfl, hnone⟩)
    · exact returns_of_answer hP hrun hwait (.ended hQ hparent hwhich hlife)
        (waitRound_ended (h.status q Q status hQ hlife))
    · rcases h.fresh p P (-1) waitStatus hP (.of_running hrun) hwait with rfl | ⟨q, Q, hQ, hparent⟩
      · exact returns_of_answer hP hrun hwait (.noChild fun q Q hQ hparent _ => hnone q Q hQ hparent)
          waitRound_failed_first
      · exact absurd hparent (hnone q Q hQ)

theorem selected_natCast {x : Nat} : Selected (q : Nat) x ↔ x = q := by
  unfold Selected
  omega

end Runs

/-- In every run of the processes a shell starts, whatever signals come: a shell between two commands has
no child but those it started in the background; while it waits for a command, this one is there, the
wait is over exactly from when it has ended (not when it is stopped), and takes it out of the table. After
a `fork` that failed it waits for whichever child in the background ends first, if it has any. -/
theorem foreground_waits {first p : Nat} {es : List Event} {t : Processes} {P : Proc Code Job} (h0 : first ≠ 0)
    (hrun : Run (Step Calls) (oneShell first) es t) (hP : t p = some P) (hlife : P.life = .running) :
    Waits t p P := by
  have h := tracked_run h0 hrun
  constructor
  case ready =>
    intro hcode q Q hQ hparent
    exact h.ready_children hP (fun x ⟨st, hx⟩ => by cases hcode.symm.trans hx) hQ hparent
  case child =>
    intro q st hcode
    obtain ⟨x, Q, hx, hQ, hparent, hjob⟩ :=
      (h.awaited p P q st hP (.of_running hlife) hcode).resolve_left (by omega)
    cases Int.ofNat.inj hx
    refine ⟨⟨Q, hQ, hparent, hjob, ?_⟩, fun t' hr => ?_⟩
    · rw [h.returns_iff hP hlife hcode]
      constructor
      · rintro (⟨x, X, status, hX, -, hwhich, hend⟩ | ⟨hany, -⟩)
        · cases selected_natCast.1 hwhich
          cases hQ.symm.trans hX
          exact ⟨status, hend⟩
        · omega
      · rintro ⟨status, hend⟩
        exact .inl ⟨q, Q, status, hQ, hparent, selected_natCast.2 rfl, hend⟩
    · rcases h.returns_cases hP hlife hcode hr with ⟨x, X, status, -, -, hwhich, -, hgone⟩ | ⟨hany, -⟩
      · cases selected_natCast.1 hwhich
        exact hgone
      · omega
  case any =>
    intro st hcode
    have hback : ∀ q Q, t q = some Q → Q.parent = p → Q.job = .background := fun q Q hQ hparent =>
      h.ready_children hP (fun x ⟨st', hx⟩ => by cases hcode.symm.trans hx) hQ hparent
    rw [h.returns_iff hP hlife hcode]
    constructor
    · rintro (⟨q, Q, status, hQ, hparent, -, hend⟩ | ⟨-, hnone⟩)
      · exact .inr ⟨q, Q, status, hQ, hparent, hback q Q hQ hparent, hend⟩
      · exact .inl hnone
    · rintro (hnone | ⟨q, Q, status, hQ, hparent, -, hend⟩)
      · exact .inr ⟨rfl, hnone⟩
      · exact .inl ⟨q, Q, status, hQ, hparent, .inl rfl, hend⟩

/-- A shell that has started a command and waits for it. -/
theorem foreground_waits_one : ∃ t P, Run (Step Calls) (oneShell 1) [.forked 1 (some 2)] t ∧ t 1 = some P ∧
    P.code = .waiting 2 0 ∧ Waits t 1 P := by
  have hs : Step Calls (oneShell 1) (.forked 1 (some 2)) _ :=
    .fork put_self rfl .interactive (by simp [oneShell]) (by decide)
  have hrun := Run.snoc .nil hs
  exact ⟨_, _, hrun, put_self, rfl, foreground_waits (by decide) hrun put_self rfl⟩

/-! ## Which processes run the loop, and which stay -/

section Shells

variable {t t' : Processes} {first p q x status status' : Nat} {P P' Q : Proc Code Job} {es es' : List Event}
  {e : Event}

/-- A process gets this number. -/
def starts (q : Nat) : Event → Bool
  | .forked _ (some child) => child = q
  | _ => false

/-- What has happened since a process last got this number. -/
def since (q : Nat) (es : List Event) : List Event :=
  es.foldl (fun later e => if starts q e then [] else later ++ [e]) []

theorem since_snoc (he : starts q e = false) : since q (es ++ [e]) = since q es ++ [e] := by
  rw [since, List.foldl_append]
  exact if_neg (Bool.eq_false_iff.1 he)

/-- The loop is run by the first process, and by children in the background whose command was missing. -/
structure Accounted (first : Nat) (es : List Event) (q : Nat) (Q : Proc Code Job) : Prop where
  loop : Q.code.InLoop → q = first ∧ (∀ e ∈ es, starts q e = false) ∨
    Q.job = .background ∧ (∃ e ∈ es, starts q e = true) ∧ .executed q false ∈ since q es
  background : Q.code = .background → Q.job = .background ∧ ∃ e ∈ es, starts q e = true

theorem Accounted.snoc (h : Accounted first es q Q) (he : starts q e = false) : Accounted first (es ++ [e]) q Q where
  loop hl := by
    rcases h.loop hl with ⟨hfirst, hnot⟩ | ⟨hjob, ⟨e0, he0, hstart⟩, hmissing⟩
    · refine .inl ⟨hfirst, fun e' he' => ?_⟩
      rcases List.mem_append.1 he' with he' | he'
      · exact hnot e' he'
      · cases List.mem_singleton.1 he'
        exact he
    · refine .inr ⟨hjob, ⟨e0, List.mem_append_left _ he0, hstart⟩, ?_⟩
      rw [since_snoc he]
      exact List.mem_append_left _ hmissing
  background hb := by
    obtain ⟨hjob, e0, he0, hstart⟩ := h.background hb
    exact ⟨hjob, e0, List.mem_append_left _ he0, hstart⟩

/-- The other processes keep their code, and how they were started. -/
theorem Accounted.same {Q' : Proc Code Job} (h : Accounted first es q Q) (hcode : Q'.code = Q.code)
    (hjob : Q'.job = Q.job) : Accounted first es q Q' := by
  refine ⟨fun hl => ?_, fun hb => ?_⟩
  · rw [hjob]
    exact h.loop (hcode ▸ hl)
  · rw [hjob]
    exact h.background (hcode ▸ hb)

/-- A process goes on from its code; only one of the background comes into the loop by this. -/
theorem Accounted.moves {code : Code} (h : Accounted first es q Q) (he : starts q e = false)
    (hloop : code.InLoop → Q.code.InLoop ∨ Q.code = .background ∧ e = .executed q false)
    (hback : code ≠ .background) : Accounted first (es ++ [e]) q { Q with code := code } := by
  refine ⟨fun hl => ?_, fun hb => absurd hb hback⟩
  rcases hloop hl with hl | ⟨hb, rfl⟩
  · exact (h.snoc he).loop hl
  · obtain ⟨hjob, e0, he0, hstart⟩ := h.background hb
    refine .inr ⟨hjob, ⟨e0, List.mem_append_left _ he0, hstart⟩, ?_⟩
    rw [since_snoc he]
    exact List.mem_append_right _ (List.mem_singleton_self _)

/-- A new child is in no loop. -/
theorem Accounted.child {job : Job} {code : Code} (hloop : ¬ code.InLoop)
    (hback : code = .background → job = .background) :
    Accounted first (es ++ [.forked p (some q)]) q ⟨p, job, code, .running⟩ := by
  refine ⟨fun hl => absurd hl hloop, fun hb => ⟨hback hb, _, List.mem_append_right _ (List.mem_singleton_self _), ?_⟩⟩
  simp [starts]

theorem accounted_step (h : ∀ q Q, t q = some Q → Accounted first es q Q) (hs : Step Calls t e t') :
    ∀ q Q, t' q = some Q → Accounted first (es ++ [e]) q Q := by
  intro q Q' hQ'
  cases hs with
  | @fork pid child P job next hP hrun hcall hfree h0 =>
    have hloop : P.code.InLoop ∧ next child ≠ .background ∧ ¬ (next 0).InLoop ∧
        (next 0 = .background → job = .background) := by
      cases hcode : P.code <;> rw [hcode] at hcall <;> cases hcall <;>
        simp [Code.InLoop, executeBinaryInteractively, executeBinaryInBackGround, executePipeline,
          waitForProcessExecution, h0]
    obtain ⟨hin, hnot, hchild, hback⟩ := hloop
    -- the child's number was free
    have hstart : ∀ R, t q = some R → starts q (.forked pid (some child)) = false := by
      intro R hR
      rw [starts, decide_eq_false_iff_not]
      rintro rfl
      cases hfree.symm.trans hR
    rcases put_eq_some.1 hQ' with ⟨rfl, rfl⟩ | ⟨-, hQ⟩
    · exact (h q P hP).moves (hstart P hP) (fun _ => .inl hin) hnot
    · rcases put_eq_some.1 hQ with ⟨rfl, rfl⟩ | ⟨-, hQ⟩
      · exact .child hchild hback
      · exact (h q Q' hQ).snoc (hstart Q' hQ)
  | @forkFailed pid P job next hP hrun hcall =>
    have hloop : P.code.InLoop ∧ next (-1) ≠ .background := by
      cases hcode : P.code <;> rw [hcode] at hcall <;> cases hcall <;>
        simp [Code.InLoop, executeBinaryInteractively, executeBinaryInBackGround, executePipeline,
          waitForProcessExecution]
    rcases put_eq_some.1 hQ' with ⟨rfl, rfl⟩ | ⟨-, hQ⟩
    · exact (h q P hP).moves rfl (fun _ => .inl hloop.1) hloop.2
    · exact (h q Q' hQ).snoc rfl
  | @waitpid pid P which next answer t1 hP hrun hcall hwait =>
    have hold : ∀ Q, t1 q = some Q → Accounted first (es ++ [.waited pid]) q Q := by
      intro Q hQ
      rcases hwait.entry with ⟨-, rfl⟩ | ⟨r, R, hR, -, -, ⟨_, -, -, rfl⟩ | ⟨_, -, -, rfl⟩⟩
      · exact (h q Q hQ).snoc rfl
      · exact (h q Q (reap_eq_some.1 hQ).2).snoc rfl
      · rcases put_eq_some.1 hQ with ⟨rfl, rfl⟩ | ⟨-, hQ⟩
        · exact .same (.snoc (h q R hR) rfl) rfl rfl
        · exact (h q Q hQ).snoc rfl
    rcases put_eq_some.1 hQ' with ⟨rfl, rfl⟩ | ⟨-, hQ⟩
    · have hloop : P.code.InLoop ∧ next answer ≠ .background := by
        cases hcode : P.code <;> rw [hcode] at hcall <;> cases hcall
        refine ⟨trivial, ?_⟩
        unfold waitRound
        dsimp only
        split <;> simp
      exact (h q P hP).moves rfl (fun _ => .inl hloop.1) hloop.2
    · exact hold Q' hQ
  | @execve pid P found missing there hP hrun hcall =>
    rcases put_eq_some.1 hQ' with ⟨rfl, rfl⟩ | ⟨-, hQ⟩
    · cases hcode : P.code <;> rw [hcode] at hcall <;> cases hcall <;>
        exact (h q P hP).moves rfl (by cases there <;> simp [Code.InLoop, hcode]) (by cases there <;> simp)
    · exact (h q Q' hQ).snoc rfl
  | exit =>
    obtain ⟨Q, hQ, rfl⟩ := finish_eq_some.1 hQ'
    exact ((h q Q hQ).same afterEnd_code afterEnd_job).snoc rfl
  | kill =>
    obtain ⟨Q, hQ, rfl⟩ := finish_eq_some.1 hQ'
    exact ((h q Q hQ).same afterEnd_code afterEnd_job).snoc rfl
  | stop hP =>
    rcases put_eq_some.1 hQ' with ⟨rfl, rfl⟩ | ⟨-, hQ⟩
    · exact .same (.snoc (h q _ hP) rfl) rfl rfl
    · exact (h q Q' hQ).snoc rfl
  | resume hP =>
    rcases put_eq_some.1 hQ' with ⟨rfl, rfl⟩ | ⟨-, hQ⟩
    · exact .same (.snoc (h q _ hP) rfl) rfl rfl
    · exact (h q Q' hQ).snoc rfl
  | inherit => exact (h q Q' (reap_eq_some.1 hQ').2).snoc rfl

theorem accounted_run (hrun : Run (Step Calls) (oneShell first) es t) :
    ∀ q Q, t q = some Q → Accounted first es q Q := by
  refine hrun.invariant_steps (fun es t => ∀ q Q, t q = some Q → Accounted first es q Q) ?_ ?_
  · intro q Q hQ
    rcases put_eq_some.1 hQ with ⟨rfl, rfl⟩ | ⟨-, hQ⟩
    · exact ⟨fun _ => .inl ⟨rfl, fun e he => absurd he List.not_mem_nil⟩, fun hb => by cases hb⟩
    · cases hQ
  · exact fun _ _ _ _ h hs => accounted_step h hs

/-- What keeps a child that has ended in the table: its parent is there, and does not wait for any. -/
structure Unheard (p q : Nat) (Q : Proc Code Job) (t : Processes) : Prop extends Tracked t where
  parent : ∃ P, t p = some P ∧ P.Alive ∧ ∀ st, P.code ≠ .waiting (-1) st
  child : t q = some Q

theorem Unheard.alive (h : Unheard p q Q t) (hend : Q.life = .ended status) (hP : t x = some P) (halive : P.Alive) :
    q ≠ x := by
  rintro rfl
  cases h.child.symm.trans hP
  exact halive status hend

/-- What is asked of the step of another process, or of the parent's own. -/
theorem Unheard.put (h : Unheard p q Q t) (htracked : Tracked (ProcessTable.put t x P')) (hqx : q ≠ x)
    (hparent : p = x → P'.Alive ∧ ∀ st, P'.code ≠ .waiting (-1) st) : Unheard p q Q (ProcessTable.put t x P') where
  toTracked := htracked
  parent := by
    by_cases hpx : p = x
    · subst hpx
      exact ⟨P', put_self, hparent rfl⟩
    · obtain ⟨P, hP, halive, hcode⟩ := h.parent
      exact ⟨P, (put_ne hpx).trans hP, halive, hcode⟩
  child := (put_ne hqx).trans h.child

theorem Unheard.finish (h : Unheard p q Q t) (hQp : Q.parent = p) (hend : Q.life = .ended status)
    (hP : t x = some P) (halive : P.Alive) (hx : p ≠ x) (htracked : Tracked (ProcessTable.finish t x status')) :
    Unheard p q Q (ProcessTable.finish t x status') where
  toTracked := htracked
  parent := by
    obtain ⟨P, hP, halive, hcode⟩ := h.parent
    exact ⟨_, finish_eq_some.2 ⟨P, hP, rfl⟩, alive_afterEnd hx halive, by rwa [afterEnd_code]⟩
  child := by
    have hqx := h.alive hend hP halive
    rw [finish_eq_some]
    refine ⟨Q, h.child, ?_⟩
    rw [afterEnd, if_neg hqx, if_neg (hQp ▸ hx)]

/-- What `waitpid` answers to a process leaves the child where it is: its parent waits for another one. -/
theorem Unheard.answered {which : Int} {next : Option Nat → Code} {answer : Option Nat} (h : Unheard p q Q t)
    (hQp : Q.parent = p) (hjob : Q.job = .background) (hend : Q.life = .ended status) (hP : t x = some P)
    (hcall : Calls P.code (.waitpid which next)) (hwait : WaitPid t x which answer t') :
    t' q = some Q ∧ ∃ P1, t' p = some P1 ∧ P1.Alive ∧ ∀ st, P1.code ≠ .waiting (-1) st := by
  obtain ⟨P0, hP0, halive0, hcode0⟩ := h.parent
  rcases hwait.entry with ⟨-, rfl⟩ | ⟨r, R, hR, hparent, hwhich, ⟨st, hended, -, rfl⟩ | ⟨signal, hstop, -, rfl⟩⟩
  · exact ⟨h.child, P0, hP0, halive0, hcode0⟩
  · have hqr : q ≠ r := by
      rintro rfl
      cases h.child.symm.trans hR
      cases hQp.symm.trans hparent
      cases hP0.symm.trans hP
      cases hcode : P.code <;> rw [hcode] at hcall <;> cases hcall
      rcases hwhich with rfl | rfl
      · exact hcode0 _ hcode
      · obtain ⟨y, Y, hy, hY, -, hfore⟩ := (h.awaited p P q _ hP0 halive0 hcode).resolve_left (by omega)
        cases Int.ofNat.inj hy
        cases h.child.symm.trans hY
        cases hjob.symm.trans hfore
    have hpr : p ≠ r := by
      rintro rfl
      cases hP0.symm.trans hR
      exact halive0 st hended
    exact ⟨(reap_ne hqr).trans h.child, P0, (reap_ne hpr).trans hP0, halive0, hcode0⟩
  · have hqr : q ≠ r := by
      rintro rfl
      cases h.child.symm.trans hR
      cases hend.symm.trans hstop
    refine ⟨(put_ne hqr).trans h.child, ?_⟩
    by_cases hpr : p = r
    · subst hpr
      cases hP0.symm.trans hR
      exact ⟨_, put_self, (fun _ hl => by cases hl), hcode0⟩
    · exact ⟨P0, (put_ne hpr).trans hP0, halive0, hcode0⟩

theorem Unheard.step (h : Unheard p q Q t) (hQp : Q.parent = p) (hjob : Q.job = .background)
    (hend : Q.life = .ended status) (hfork : e ≠ .forked p none) (hlives : ¬ e.Ends p) (hs : Step Calls t e t') :
    Unheard p q Q t' := by
  have htracked : Tracked t' := h.toTracked.step hs
  obtain ⟨P0, hP0, halive0, hcode0⟩ := h.parent
  cases hs with
  | @fork pid child P job next hP hrun hcall hfree h0 =>
    have hqc : q ≠ child := by
      rintro rfl
      cases hfree.symm.trans h.child
    have hnext : ∀ st, next child ≠ .waiting (-1) st := by
      cases hcode : P.code <;> rw [hcode] at hcall <;> cases hcall <;>
        simp [executeBinaryInteractively, executeBinaryInBackGround, executePipeline, waitForProcessExecution, h0]
    refine ⟨htracked, ?_, ?_⟩
    · by_cases hp : p = pid
      · subst hp
        exact ⟨_, put_self, .of_running hrun, hnext⟩
      · have hpc : p ≠ child := by
          rintro rfl
          cases hfree.symm.trans hP0
        exact ⟨P0, (put_ne hp).trans ((put_ne hpc).trans hP0), halive0, hcode0⟩
    · exact (put_ne (h.alive hend hP (.of_running hrun))).trans ((put_ne hqc).trans h.child)
  | @forkFailed pid P job next hP hrun hcall =>
    refine h.put htracked (h.alive hend hP (.of_running hrun)) ?_
    rintro rfl
    exact absurd rfl hfork
  | @waitpid pid P which next answer t1 hP hrun hcall hwait =>
    obtain ⟨hchild, P1, hP1, halive1, hcode1⟩ := h.answered hQp hjob hend hP hcall hwait
    refine ⟨htracked, ?_, (put_ne (h.alive hend hP (.of_running hrun))).trans hchild⟩
    by_cases hp : p = pid
    · subst hp
      cases hP0.symm.trans hP
      refine ⟨_, put_self, .of_running hrun, fun st hst => ?_⟩
      cases hcode : P0.code <;> rw [hcode] at hcall <;> cases hcall
      obtain ⟨rfl, -⟩ := waitRound_waiting hst
      exact hcode0 _ hcode
    · exact ⟨P1, (put_ne hp).trans hP1, halive1, hcode1⟩
  | @execve pid P found missing there hP hrun hcall =>
    refine h.put htracked (h.alive hend hP (.of_running hrun)) fun _ => ⟨.of_running hrun, ?_⟩
    cases hcode : P.code <;> rw [hcode] at hcall <;> cases hcall <;> cases there <;> simp
  | exit hP hrun => exact h.finish hQp hend hP (.of_running hrun) (fun hx => hlives hx.symm) htracked
  | kill core hP halive => exact h.finish hQp hend hP halive (fun hx => hlives hx.symm) htracked
  | stop hP hrun =>
    refine h.put htracked (h.alive hend hP (.of_running hrun)) ?_
    rintro rfl
    cases hP0.symm.trans hP
    exact ⟨(fun _ hl => by cases hl), hcode0⟩
  | resume hP hstopped =>
    refine h.put htracked (h.alive hend hP fun _ hl => by cases hstopped.symm.trans hl) ?_
    rintro rfl
    cases hP0.symm.trans hP
    exact ⟨(fun _ hl => by cases hl), hcode0⟩
  | @inherit pid st P hP hparent hended =>
    have hqx : q ≠ pid := by
      rintro rfl
      cases h.child.symm.trans hP
      rw [← hQp, hparent, h.noZero] at hP0
      cases hP0
    have hpx : p ≠ pid := by
      rintro rfl
      cases hP0.symm.trans hP
      exact halive0 st hended
    exact ⟨htracked, ⟨P0, (reap_ne hpx).trans hP0, halive0, hcode0⟩, (reap_ne hqx).trans h.child⟩

theorem unheard_run (h : Unheard p q Q t) (hQp : Q.parent = p) (hjob : Q.job = .background)
    (hend : Q.life = .ended status) (hrun : Run (Step Calls) t es t') (hfork : .forked p none ∉ es)
    (hlives : ∀ e ∈ es, ¬ e.Ends p) : Unheard p q Q t' := by
  induction hrun with
  | nil => exact h
  | snoc _ hs ih =>
    simp only [List.mem_append, List.mem_singleton, not_or] at hfork hlives
    exact (ih hfork.1 fun e he => hlives e (.inl he)).step hQp hjob hend (Ne.symm hfork.2) (hlives _ (.inr rfl)) hs

end Shells

/-- In every run only the first process and children whose command in the background was missing, since they
were started, run the shell's loop; and each such child, when its command is missing, comes to run it beside all
the others, which are as they were. -/
theorem shells_started {first : Nat} {es : List Event} {t : Processes}
    (hrun : Run (Step Calls) (oneShell first) es t) {q : Nat} {Q : Proc Code Job} (hQ : t q = some Q) :
    (Q.code.InLoop → q = first ∧ (∀ e ∈ es, starts q e = false) ∨
      Q.job = .background ∧ (∃ e ∈ es, starts q e = true) ∧ .executed q false ∈ since q es) ∧
    (Q.code = .background → Q.life = .running → (∃ t', Step Calls t (.executed q false) t') ∧
      ∀ t', Step Calls t (.executed q false) t' →
        (∃ Q', t' q = some Q' ∧ Q'.code.InLoop) ∧ ∀ r, r ≠ q → t' r = t r) := by
  refine ⟨(accounted_run hrun q Q hQ).loop, fun hcode hlife => ⟨?_, fun t' hstep => ?_⟩⟩
  · have hcall : Calls Q.code (.execve .program .ready) := hcode ▸ .background
    exact ⟨_, .execve false hQ hlife hcall⟩
  · cases hstep with
    | execve _ hP hlife' hcall =>
      cases hQ.symm.trans hP
      rw [hcode] at hcall
      cases hcall
      exact ⟨⟨_, put_self, trivial⟩, fun r hr => put_ne hr⟩

/-- The shell 1 and its child 2, which has just been started in the background. -/
def backgroundStarted : Processes :=
  put (put (oneShell 1) 2 ⟨1, .background, .background, .running⟩) 1 ⟨0, .foreground, .ready, .running⟩

theorem backgroundStarted_run : Run (Step Calls) (oneShell 1) [.forked 1 (some 2)] backgroundStarted := by
  have hshell : oneShell 1 1 = some ⟨0, .foreground, .ready, .running⟩ := rfl
  have hs : Step Calls (oneShell 1) (.forked 1 (some 2)) _ :=
    .fork hshell rfl .inBackGround rfl (by decide)
  exact .snoc .nil hs

/-- The command is missing. -/
theorem shells_started_missing : ∃ t Q, Run (Step Calls) (oneShell 1) [.forked 1 (some 2), .executed 2 false] t ∧
    t 2 = some Q ∧ Q.code.InLoop ∧ Q.job = .background := by
  have hchild : backgroundStarted 2 = some ⟨1, .background, .background, .running⟩ := rfl
  have hrun := backgroundStarted_run.snoc (.execve false hchild rfl .background)
  have hloop := (shells_started hrun put_self).1 trivial
  exact ⟨_, _, hrun, put_self, trivial, (hloop.resolve_left fun h => by cases h.1).1⟩

/-- A command in the background that has ended stays in the table as long as its shell lives and no `fork`
of the shell fails, whatever commands the shell runs and waits for meanwhile, also the one it waited for at the
end: only a shell that asks for any child hears of it. -/
theorem zombies_stay {first p q status : Nat} {es es' : List Event} {t t' : Processes} {P Q : Proc Code Job}
    (h0 : first ≠ 0) (hrun : Run (Step Calls) (oneShell first) es t) (hP : t p = some P) (halive : P.Alive)
    (hany : ∀ waitStatus, P.code ≠ .waiting (-1) waitStatus) (hQ : t q = some Q) (hQp : Q.parent = p)
    (hjob : Q.job = .background) (hend : Q.life = .ended status) (hrun' : Run (Step Calls) t es' t')
    (hfork : .forked p none ∉ es') (hlives : ∀ e ∈ es', ¬ e.Ends p) : t' q = some Q :=
  (unheard_run ⟨tracked_run h0 hrun, ⟨P, hP, halive, hany⟩, hQ⟩ hQp hjob hend hrun' hfork hlives).child

/-- The shell waits for another command, 3, while 2 still runs in the background. -/
def waitsBeside : Processes :=
  put (put (put backgroundStarted 2 ⟨1, .background, .program, .running⟩) 3 ⟨1, .foreground, .foreground, .running⟩) 1
    ⟨0, .foreground, .waiting 3 0, .running⟩

theorem waitsBeside_run : Run (Step Calls) (oneShell 1)
    [.forked 1 (some 2), .executed 2 true, .forked 1 (some 3)] waitsBeside := by
  have hchild : backgroundStarted 2 = some ⟨1, .background, .background, .running⟩ := rfl
  have hshell : put backgroundStarted 2 ⟨1, .background, .program, .running⟩ 1 =
      some ⟨0, .foreground, .ready, .running⟩ := rfl
  have hs : Step Calls (put backgroundStarted 2 ⟨1, .background, .program, .running⟩) (.forked 1 (some 3)) _ :=
    .fork hshell rfl .interactive rfl (by decide)
  exact (backgroundStarted_run.snoc (.execve true hchild rfl .background)).snoc hs

/-- It ends meanwhile. -/
theorem zombies_stay_one : ∃ t t' Q, Run (Step Calls) (oneShell 1)
      [.forked 1 (some 2), .executed 2 true, .forked 1 (some 3), .exited 2 0] t ∧ t 2 = some Q ∧ Q.life = .ended 0 ∧
    Run (Step Calls) t [.executed 3 true] t' ∧ t' 2 = some Q := by
  have hruns : waitsBeside 2 = some ⟨1, .background, .program, .running⟩ := rfl
  have hrun := waitsBeside_run.snoc (.exit hruns rfl (.program 0))
  have hshell : finish waitsBeside 2 (exitStatus 0) 1 = some ⟨0, .foreground, .waiting 3 0, .running⟩ := rfl
  have hended : finish waitsBeside 2 (exitStatus 0) 2 = some ⟨1, .background, .program, .ended 0⟩ := rfl
  have hother : finish waitsBeside 2 (exitStatus 0) 3 = some ⟨1, .foreground, .foreground, .running⟩ := rfl
  have hnext : Run (Step Calls) (finish waitsBeside 2 (exitStatus 0)) [.executed 3 true] _ :=
    .snoc .nil (.execve true hother rfl .foreground)
  exact ⟨_, _, _, hrun, hended, rfl, hnext, zombies_stay (by decide) hrun hshell (.of_running rfl)
    (fun _ h => by cases h) hended rfl rfl rfl hnext (by decide) (by simp [Event.Ends])⟩

end Sbunix.Sbush.Jobs
