/-
Which pipe ends the processes of a pipeline hold, in any interleaving.

The runner closes the write end of a pipe before it goes on, so only the stage in front of the pipe
keeps one. It closes no read end: from the third command on every stage inherits the read ends of
all earlier pipes but its own, and keeps them.
-/
import Sbunix.Sbush.Piping

namespace Sbunix.Sbush

open Processes Transition

section Ends

-- the runner's id, the number of commands and the commands, and the first stdin and stdout
variable (r n : Nat) (cArgs : Nat → CommandArgument) (e0 e1 : End)

/-- The `i`-th pipe of the pipeline. -/
def pipeOf (i : Nat) : PipeId := ⟨r, i⟩

/-- No pipe of the pipeline. -/
def NotOf (e : End) : Prop := ∀ i, e ≠ .read (pipeOf r i) ∧ e ≠ .write (pipeOf r i)

def stdinOf (k : Nat) : End := if k = 0 then e0 else .read (pipeOf r (k - 1))

def stdoutOf (k : Nat) : End := if k + 1 = n then e1 else .write (pipeOf r k)

/-- Only write ends of pipe `k`. -/
def WritesOnly (k : Nat) (t : Table) : Prop :=
  ∀ fd i, Slots.find t fd = some (.write (pipeOf r i)) → i = k

/-- The descriptors with which the command of stage `k` is executed. -/
structure Wired (k : Nat) (t : Table) : Prop where
  input : Slots.find t 0 = some (stdinOf r e0 k)
  output : Slots.find t 1 = some (stdoutOf r n e1 k)
  writes : WritesOnly r k t
  reads : ∀ fd i, Slots.find t fd = some (.read (pipeOf r i)) → i < k ∧ (i + 1 = k → fd = 0)
  kept : ∀ i, i + 1 < k → ∃ fd, Slots.find t fd = some (.read (pipeOf r i))

/-- What holds at every point of every process. -/
structure Obeys (pid : Nat) (p : PipeProg) (l : Role) (t : Table) : Prop where
  runner : ∀ i, l = .runner i → pid = r
  stage : ∀ k, l = .stage k → k < n
  outside : l = .outside → ∀ fd e, Slots.find t fd = some e → NotOf r e
  writes : ∀ fd i, Slots.find t fd = some (.write (pipeOf r i)) → l = .stage i ∨ l = .runner i
  exec : ∀ cArg failed, p = .exec cArg failed → ∃ k < n, l = .stage k ∧ cArg = cArgs k ∧
    Wired r n e0 e1 k t
  settled : ∀ k, l = .stage k → (MayExec (.stage k) p l ∧ ¬ Resting p) ∨
    ∀ fd i, Slots.find t fd = some (.read (pipeOf r i)) → i < k ∧ (i + 1 = k → p ≠ .foreign → fd = 0)

/-- The runner's descriptors when it comes to index `i` with `file_desc`. -/
structure RunnerTable (i fileDesc : Nat) (t : Table) : Prop where
  input : Slots.find t 0 = some e0
  output : Slots.find t 1 = some e1
  descriptor : Slots.find t fileDesc = some (stdinOf r e0 i)
  start : i = 0 → fileDesc = 0
  later : i ≠ 0 → 1 < fileDesc
  writes : ∀ fd j, Slots.find t fd ≠ some (.write (pipeOf r j))
  reads : ∀ fd j, Slots.find t fd = some (.read (pipeOf r j)) → j < i ∧ (j + 1 = i → fd = fileDesc)
  kept : ∀ j < i, ∃ fd, 1 < fd ∧ Slots.find t fd = some (.read (pipeOf r j))

end Ends

section Proofs

variable {r n : Nat} {cArgs : Nat → CommandArgument} {e0 e1 : End} {path : List UInt8}
  {runsFile : CommandArgument → Bool}
  {pid c i k fd : Nat} {t t' : Table} {l : Role} {p next : PipeProg}

theorem pipeOf_inj {i j : Nat} (h : pipeOf r i = pipeOf r j) : i = j := congrArg PipeId.count h

/-! ### Points of a stage -/

/-- A point of a process of stage `k`. -/
theorem Obeys.ofStage (hk : k < n) (hw : WritesOnly r k t)
    (hexec : ∀ cArg failed, p = .exec cArg failed → cArg = cArgs k ∧ Wired r n e0 e1 k t)
    (hsettled : (MayExec (.stage k) p (.stage k) ∧ ¬ Resting p) ∨
      ∀ fd i, Slots.find t fd = some (.read (pipeOf r i)) →
        i < k ∧ (i + 1 = k → p ≠ .foreign → fd = 0)) :
    Obeys r n cArgs e0 e1 pid p (.stage k) t where
  runner := fun i h => by cases h
  stage := fun j h => by cases h; exact hk
  outside := fun h => by cases h
  writes := fun fd i h => .inl (by rw [hw fd i h])
  exec := fun cArg failed h => ⟨k, hk, rfl, hexec cArg failed h⟩
  settled := fun j h => by cases h; exact hsettled

/-- A point of a stage's process at which it does not wait, before its binary is executed. -/
theorem Obeys.setup (hk : k < n) (hm : MayExec (.stage k) p (.stage k)) (hw : WritesOnly r k t)
    (hp : ∀ cArg failed, p ≠ .exec cArg failed) (hrest : ¬ Resting p) :
    Obeys r n cArgs e0 e1 pid p (.stage k) t :=
  .ofStage hk hw (fun cArg failed h => absurd h (hp cArg failed)) (.inl ⟨hm, hrest⟩)

/-- A point of a stage's process with its final descriptors. -/
theorem Wired.obeys (h : Wired r n e0 e1 k t) (hk : k < n)
    (hp : ∀ cArg failed, p = .exec cArg failed → cArg = cArgs k) :
    Obeys r n cArgs e0 e1 pid p (.stage k) t := by
  refine .ofStage hk h.writes (fun cArg failed he => ⟨hp cArg failed he, h⟩) (.inr fun fd i hf => ?_)
  have hreads := h.reads fd i hf
  exact ⟨hreads.1, fun he _ => hreads.2 he⟩

theorem obeys_ended (hk : k < n) : Obeys r n cArgs e0 e1 pid .ended (.stage k) [] :=
  .ofStage hk (fun fd i h => by cases h) (fun cArg failed h => by cases h)
    (.inr fun fd i h => by cases h)

theorem Wired.foreign (h : Wired r n e0 e1 k t) (hk : k < n) :
    Foreign (Obeys r n cArgs e0 e1) (.stage k) t := by
  intro pid
  refine ⟨obeys_ended hk, fun t' ht => ?_⟩
  -- an end of a pipe is one the process had before
  have hback : ∀ fd e, (∀ file, e ≠ .other file) → Slots.find t' fd = some e →
      ∃ fd', Slots.find t fd' = some e := by
    intro fd e hne hf
    rcases ht fd e hf with hfd | ⟨file, hfile⟩
    · exact hfd
    · exact absurd hfile (hne file)
  apply Obeys.ofStage hk
  · intro fd i hf
    obtain ⟨fd', hf'⟩ := hback fd _ (by simp) hf
    exact h.writes fd' i hf'
  · intro cArg failed he
    cases he
  · right
    intro fd i hf
    obtain ⟨fd', hf'⟩ := hback fd _ (by simp) hf
    exact ⟨(h.reads fd' i hf').1, fun _ hne => absurd rfl hne⟩

/-- What the process prints goes out on the descriptors it has. -/
theorem Wired.fputs {text : List UInt8} (h : Wired r n e0 e1 k t) (hk : k < n)
    (hnext : Always (Obeys r n cArgs e0 e1) next pid (.stage k) t c) :
    Always (Obeys r n cArgs e0 e1) (fputs text next) pid (.stage k) t c :=
  ⟨fun _ => h.obeys hk fun cArg failed hp => (by cases hp), obeys_ended hk, hnext⟩

theorem Wired.exit (h : Wired r n e0 e1 k t) (hk : k < n) (pid c : Nat) :
    Always (Obeys r n cArgs e0 e1) .exit pid (.stage k) t c :=
  ⟨h.obeys hk fun cArg failed hp => (by cases hp), obeys_ended hk⟩

theorem Wired.execvpe {text : List UInt8} (h : Wired r n e0 e1 k t) (hk : k < n) (pid c : Nat) :
    Always (Obeys r n cArgs e0 e1) (execvpe path (cArgs k) (Sbush.fputs text .exit)) pid (.stage k) t c := by
  refine h.fputs hk ⟨h.obeys hk fun cArg failed hp => (by cases hp; rfl), h.foreign hk, ?_⟩
  exact h.fputs hk (h.exit hk pid c)

theorem Wired.setExecutionArguments (h : Wired r n e0 e1 k t) (hk : k < n)
    (hnext : Always (Obeys r n cArgs e0 e1) next pid (.stage k) t c) :
    Always (Obeys r n cArgs e0 e1) (setExecutionArguments runsFile (cArgs k) next) pid (.stage k) t c := by
  have hat : ∀ p : PipeProg, (∀ cArg failed, p ≠ .exec cArg failed) →
      Obeys r n cArgs e0 e1 pid p (.stage k) t := fun p hp => h.obeys hk fun cArg failed he => absurd he (hp cArg failed)
  unfold Sbush.setExecutionArguments
  split
  · exact ⟨hat _ nofun, fun _ _ => hat _ nofun, fun _ => hat _ nofun, h.foreign hk, hnext⟩
  · exact hnext

theorem Wired.executeBinary (h : Wired r n e0 e1 k t) (hk : k < n) :
    Always (Obeys r n cArgs e0 e1) (executeBinary path runsFile (cArgs k) .exit) pid (.stage k) t c := by
  have hwait : ∀ child pid c, Always (Obeys r n cArgs e0 e1) (.wait child .exit) pid (.stage k) t c :=
    fun child pid c => ⟨h.obeys hk fun cArg failed hp => (by cases hp), h.exit hk pid c⟩
  have hfork : ∀ (p : Int → PipeProg) (text : List UInt8),
      p 0 = Sbush.execvpe path (cArgs k) (Sbush.fputs text .exit) →
      (∀ child : Nat, child ≠ 0 → p child = .exit ∨ p child = .wait child .exit) →
      Always (Obeys r n cArgs e0 e1) (.fork none p) pid (.stage k) t c := by
    intro p text h0 hparent
    refine ⟨h.obeys hk fun cArg failed hp => (by cases hp), fun child hchild => ⟨?_, ?_⟩⟩
    · rcases hparent child hchild with he | he
      · rw [he]
        exact h.exit hk pid c
      · rw [he]
        exact hwait child pid c
    · rw [h0]
      exact h.execvpe hk child 0
  unfold Sbush.executeBinary executeBinaryInBackGround executeBinaryInteractively
  split
  · refine h.setExecutionArguments hk (hfork _ unableToRunInBg (if_pos rfl) fun child hchild => ?_)
    exact .inl (if_neg (by omega))
  · refine h.setExecutionArguments hk (hfork _ commandNotFound (if_pos rfl) fun child hchild => ?_)
    exact .inr (if_neg (by omega))

/-- What `duplicateFileDescriptorsFromInputToOutput` leaves of a table. -/
def Moved (t : Table) (oldFd newFd : Nat) (e : End) (t' : Table) : Prop :=
  ∀ fd, Slots.find t' fd = if fd = newFd then some e else if fd = oldFd then none else Slots.find t fd

theorem WritesOnly.erase (h : WritesOnly r k t) (fd : Nat) : WritesOnly r k (Slots.erase t fd) := by
  intro fd' i hf
  rw [Slots.find_erase] at hf
  split at hf
  · cases hf
  · exact h fd' i hf

theorem WritesOnly.set {e : End} (h : WritesOnly r k t) (he : ∀ i, e = .write (pipeOf r i) → i = k)
    (fd : Nat) : WritesOnly r k (Slots.set t fd e) := by
  intro fd' i hf
  rw [Slots.find_set] at hf
  split at hf
  · exact he i (Option.some.inj hf)
  · exact h fd' i hf

theorem WritesOnly.moved {e : End} {oldFd newFd : Nat} (h : WritesOnly r k t)
    (hold : Slots.find t oldFd = some e) (hm : Moved t oldFd newFd e t') : WritesOnly r k t' := by
  intro fd i hf
  rw [hm fd] at hf
  split at hf
  · exact h oldFd i (hold.trans hf)
  · split at hf
    · cases hf
    · exact h fd i hf

theorem always_duplicate {e : End} {oldFd newFd : Nat} (hk : k < n)
    (hold : Slots.find t oldFd = some e) (hw : WritesOnly r k t)
    (hm : MayExec (.stage k) next (.stage k))
    (hnext : ∀ t', Moved t oldFd newFd e t' →
      Always (Obeys r n cArgs e0 e1) next pid (.stage k) t' c) :
    Always (Obeys r n cArgs e0 e1) (duplicateFileDescriptorsFromInputToOutput oldFd newFd next) pid
      (.stage k) t c := by
  have hmay := (mayExec_duplicate (a := oldFd) (b := newFd)).2 hm
  unfold duplicateFileDescriptorsFromInputToOutput at hmay ⊢
  split
  · next he =>
    apply hnext t
    intro fd
    subst he
    split
    · next hfd => rw [hfd, hold]
    · rfl
  · next hne =>
    rw [if_neg hne] at hmay
    refine ⟨.setup hk hmay hw (by simp) (fun h => by cases h), ?_⟩
    rw [hold]
    dsimp only
    have hnew : (newFd : Int) ≠ -1 := by omega
    rw [if_pos hnew]
    refine ⟨.setup hk hm (hw.set (fun i he => hw oldFd i (he ▸ hold)) newFd) (by simp)
      (fun h => by cases h), ?_⟩
    apply hnext
    intro fd
    rw [Slots.find_erase, Slots.find_set]
    by_cases h1 : fd = newFd
    · rw [if_pos h1, if_neg (by omega), if_pos h1.symm]
    · rw [if_neg h1]
      by_cases h2 : fd = oldFd
      · rw [if_pos h2, if_pos h2.symm]
      · rw [if_neg h2, if_neg (Ne.symm h2), if_neg (Ne.symm h1)]

/-- A stage is wired when its first two descriptors are, and the others are the runner's but for
`file_desc`. -/
theorem RunnerTable.wired (h : RunnerTable r e0 e1 i fd t) (he0 : NotOf r e0) (he1 : NotOf r e1)
    (h0 : Slots.find t' 0 = some (stdinOf r e0 i)) (h1 : Slots.find t' 1 = some (stdoutOf r n e1 i))
    (hrest : ∀ x, 1 < x → Slots.find t' x = if x = fd then none else Slots.find t x) :
    Wired r n e0 e1 i t' := by
  have hstdin : ∀ j, stdinOf r e0 i = .read (pipeOf r j) → j + 1 = i := by
    intro j hj
    unfold stdinOf at hj
    split at hj
    · exact absurd hj (he0 j).1
    · have := pipeOf_inj (End.read.inj hj)
      omega
  have hlow : ∀ x, ¬ 1 < x → x = 0 ∨ x = 1 := by omega
  constructor
  case input => exact h0
  case output => exact h1
  case writes =>
    intro x j hx
    by_cases hx1 : 1 < x
    · rw [hrest x hx1] at hx
      split at hx
      · cases hx
      · exact absurd hx (h.writes x j)
    · rcases hlow x hx1 with rfl | rfl
      · rw [h0, stdinOf] at hx
        split at hx
        · exact absurd (Option.some.inj hx) (he0 j).2
        · cases hx
      · rw [h1, stdoutOf] at hx
        split at hx
        · exact absurd (Option.some.inj hx) (he1 j).2
        · exact (pipeOf_inj (End.write.inj (Option.some.inj hx))).symm
  case reads =>
    intro x j hx
    by_cases hx1 : 1 < x
    · rw [hrest x hx1] at hx
      split at hx
      · cases hx
      · next hne =>
        have hr := h.reads x j hx
        exact ⟨hr.1, fun he => absurd (hr.2 he) hne⟩
    · rcases hlow x hx1 with rfl | rfl
      · rw [h0] at hx
        have := hstdin j (Option.some.inj hx)
        exact ⟨by omega, fun _ => rfl⟩
      · rw [h1, stdoutOf] at hx
        split at hx
        · exact absurd (Option.some.inj hx) (he1 j).1
        · cases hx
  case kept =>
    intro j hj
    obtain ⟨x, hx1, hx⟩ := h.kept j (by omega)
    refine ⟨x, ?_⟩
    rw [hrest x hx1, if_neg ?_]
    · exact hx
    · -- `file_desc` is the read end of the pipe right before
      rintro rfl
      have := hstdin j (Option.some.inj (h.descriptor.symm.trans hx))
      omega

/-! ### The runner -/

theorem Obeys.running {j : Nat} (hw : WritesOnly r j t) (hp : ∀ cArg failed, p ≠ .exec cArg failed) :
    Obeys r n cArgs e0 e1 r p (.runner j) t where
  runner := fun _ _ => rfl
  stage := fun k h => by cases h
  outside := fun h => by cases h
  writes := fun fd i h => .inr (by rw [hw fd i h])
  exec := fun cArg failed h => absurd h (hp cArg failed)
  settled := fun k h => by cases h

theorem RunnerTable.writesOnly (h : RunnerTable r e0 e1 i fd t) (k : Nat) : WritesOnly r k t :=
  fun fd j hf => absurd hf (h.writes fd j)

theorem RunnerTable.ne_one (h : RunnerTable r e0 e1 i fd t) : fd ≠ 1 := by
  by_cases hi : i = 0
  · rw [h.start hi]
    decide
  · exact Nat.ne_of_gt (h.later hi)

/-- A closed descriptor is none of those in use. -/
theorem RunnerTable.closed (h : RunnerTable r e0 e1 i fd t) {x : Nat} (hx : Slots.find t x = none) :
    1 < x ∧ x ≠ fd := by
  have h0 : x ≠ 0 := by
    rintro rfl
    cases hx.symm.trans h.input
  have h1 : x ≠ 1 := by
    rintro rfl
    cases hx.symm.trans h.output
  refine ⟨by omega, ?_⟩
  rintro rfl
  cases hx.symm.trans h.descriptor

section Forked

variable {fd0 fd1 : Nat}

/-- The table with the next pipe in it. -/
abbrev piped (r i : Nat) (t : Table) (fd0 fd1 : Nat) : Table :=
  Slots.set (Slots.set t fd0 (.read (pipeOf r i))) fd1 (.write (pipeOf r i))

theorem find_piped (x : Nat) : Slots.find (piped r i t fd0 fd1) x =
    if fd1 = x then some (.write (pipeOf r i)) else if fd0 = x then some (.read (pipeOf r i))
    else Slots.find t x := by
  rw [Slots.find_set, Slots.find_set]

theorem RunnerTable.writesOnly_piped (h : RunnerTable r e0 e1 i fd t) (fd0 fd1 : Nat) :
    WritesOnly r i (piped r i t fd0 fd1) :=
  ((h.writesOnly i).set (fun j he => by cases he) fd0).set
    (fun j he => (pipeOf_inj (End.write.inj he)).symm) fd1

theorem RunnerTable.stageProg (h : RunnerTable r e0 e1 i fd t) (he0 : NotOf r e0) (he1 : NotOf r e1)
    (hi : i + 1 < n) (h0 : Slots.find t fd0 = none) (h1 : Slots.find t fd1 = none) (hne : fd0 ≠ fd1) :
    Always (Obeys r n cArgs e0 e1) (stageProg path runsFile cArgs i fd fd0 fd1) pid (.stage i)
      (piped r i t fd0 fd1) c := by
  obtain ⟨hlow0, hfd0⟩ := h.closed h0
  obtain ⟨hlow1, hfd1⟩ := h.closed h1
  have hk : i < n := by omega
  have hexec : MayExec (.stage i) (executeBinary path runsFile (cArgs i) .exit) (.stage i) :=
    mayExec_executeBinary.2 rfl
  have hw := h.writesOnly_piped fd0 fd1
  refine ⟨.setup hk (mayExec_stageProg.2 rfl) hw (by simp) nofun, ?_⟩
  -- stdin
  have hold : Slots.find (Slots.erase (piped r i t fd0 fd1) fd0) fd = some (stdinOf r e0 i) := by
    rw [Slots.find_erase, if_neg hfd0, find_piped, if_neg hfd1, if_neg hfd0, h.descriptor]
  refine always_duplicate hk hold (hw.erase fd0) (mayExec_duplicate.2 hexec) fun t3 h3 => ?_
  -- stdout
  have hold' : Slots.find t3 fd1 = some (.write (pipeOf r i)) := by
    rw [h3, if_neg (by omega), if_neg hfd1, Slots.find_erase, if_neg hne, find_piped, if_pos rfl]
  refine always_duplicate hk hold' ((hw.erase fd0).moved hold h3) hexec fun t4 h4 => ?_
  refine (h.wired he0 he1 ?_ ?_ fun x hx => ?_).executeBinary hk
  · rw [h4, if_neg (by omega), if_neg (by omega), h3, if_pos rfl]
  · rw [h4, if_pos rfl, stdoutOf, if_neg (by omega)]
  · -- both new descriptors are closed again, and `file_desc` with them
    rw [h4, if_neg (by omega)]
    by_cases hx1 : x = fd1
    · rw [if_pos hx1, hx1, if_neg hfd1, h1]
    rw [if_neg hx1, h3, if_neg (by omega)]
    by_cases hxf : x = fd
    · rw [if_pos hxf, if_pos hxf]
    rw [if_neg hxf, if_neg hxf, Slots.find_erase]
    by_cases hx0 : x = fd0
    · rw [if_pos hx0.symm, hx0, h0]
    · rw [if_neg (Ne.symm hx0), find_piped, if_neg (Ne.symm hx1), if_neg (Ne.symm hx0)]

/-- The runner goes on without the write end, and with one more read end. -/
theorem RunnerTable.forked (h : RunnerTable r e0 e1 i fd t) (h0 : Slots.find t fd0 = none)
    (h1 : Slots.find t fd1 = none) (hne : fd0 ≠ fd1) :
    RunnerTable r e0 e1 (i + 1) fd0 (Slots.erase (piped r i t fd0 fd1) fd1) := by
  obtain ⟨hlow0, hfd0⟩ := h.closed h0
  obtain ⟨hlow1, hfd1⟩ := h.closed h1
  have hfind : ∀ x, Slots.find (Slots.erase (piped r i t fd0 fd1) fd1) x =
      if fd1 = x then none else if fd0 = x then some (.read (pipeOf r i)) else Slots.find t x := by
    intro x
    rw [Slots.find_erase]
    split
    · rfl
    · next hx => rw [find_piped, if_neg hx]
  constructor
  case input => rw [hfind, if_neg (by omega), if_neg (by omega), h.input]
  case output => rw [hfind, if_neg (by omega), if_neg (by omega), h.output]
  case descriptor => rw [hfind, if_neg (Ne.symm hne), if_pos rfl]; rfl
  case start => exact fun h => absurd h (by omega)
  case later => exact fun _ => hlow0
  case writes =>
    intro x j hx
    rw [hfind] at hx
    split at hx
    · cases hx
    · split at hx
      · cases hx
      · exact h.writes x j hx
  case reads =>
    intro x j hx
    rw [hfind] at hx
    split at hx
    · cases hx
    · split at hx
      · next hx0 =>
        have := pipeOf_inj (End.read.inj (Option.some.inj hx))
        exact ⟨by omega, fun _ => hx0.symm⟩
      · have := (h.reads x j hx).1
        exact ⟨by omega, fun _ => by omega⟩
  case kept =>
    intro j hj
    by_cases hji : j = i
    · exact ⟨fd0, hlow0, by rw [hfind, if_neg (Ne.symm hne), if_pos rfl, hji]⟩
    · obtain ⟨x, hx1, hx⟩ := h.kept j (by omega)
      have hx1' : fd1 ≠ x := by
        rintro rfl
        cases h1.symm.trans hx
      have hx0' : fd0 ≠ x := by
        rintro rfl
        cases h0.symm.trans hx
      exact ⟨x, hx1, by rw [hfind, if_neg hx1', if_neg hx0', hx]⟩

end Forked

/-- By induction on the commands that are left. -/
theorem RunnerTable.runPiping {d : Nat} (hd : n - i = d) (he0 : NotOf r e0) (he1 : NotOf r e1)
    (h : RunnerTable r e0 e1 i fd t) (j : Nat) :
    Always (Obeys r n cArgs e0 e1) (runPiping path runsFile cArgs n i fd) r (.runner j) t i := by
  have hrunning : ∀ (p : PipeProg) (j : Nat), (∀ cArg failed, p ≠ .exec cArg failed) →
      Obeys r n cArgs e0 e1 r p (.runner j) t := fun p j hp => .running (h.writesOnly j) hp
  induction d generalizing i fd t j with
  | zero =>
    rw [runPiping_returns (by omega)]
    exact ⟨hrunning _ j (by simp), .running (fun x k hx => by cases hx) (by simp)⟩
  | succ d ih =>
    rcases Nat.lt_or_ge (i + 1) n with hlt | hge
    · rw [runPiping_more hlt]
      refine ⟨hrunning _ j (by simp), hrunning _ i (by simp), fun fd0 fd1 h0 h1 hne => ?_⟩
      rw [afterPipe_zero]
      refine ⟨.running (h.writesOnly_piped fd0 fd1) (by simp), fun child hchild => ⟨?_, ?_⟩⟩
      · have hnext := h.forked h0 h1 hne
        rw [afterFork_parent hchild]
        refine ⟨.running (h.writesOnly_piped fd0 fd1) (by simp), ih (by omega) hnext i ?_⟩
        exact fun p j hp => .running (hnext.writesOnly j) hp
      · exact h.stageProg he0 he1 hlt h0 h1 hne
    · -- the last command
      have hk : i < n := by omega
      rw [runPiping_last (by omega)]
      refine ⟨hrunning _ j (by simp), ?_⟩
      refine always_duplicate hk h.descriptor (h.writesOnly i) (mayExec_executeBinary.2 rfl)
        fun t' ht' => ?_
      refine (h.wired he0 he1 ?_ ?_ fun x hx => ?_).executeBinary hk
      · rw [ht', if_pos rfl]
      · rw [ht', if_neg (by omega), if_neg (Ne.symm h.ne_one), h.output, stdoutOf, if_pos (by omega)]
      · rw [ht', if_neg (by omega)]

end Proofs

end Sbunix.Sbush
