/-
Pipelines from their start, in every interleaving of the processes: what the binaries find on their
first two descriptors, and who holds the ends of the pipes.
-/
import Sbunix.Sbush.PipeEnds

namespace Sbunix.Sbush

open Processes Transition

abbrev PipeSystem := System CommandArgument Role

/-! ## Where the ends should be -/

section Ends

variable (r n : Nat) (cArgs : Nat → CommandArgument) (e0 e1 : End)

/-- Every command about to be executed is that of its stage, with the read end of the pipe before
it (the first stdin) as descriptor 0 and the write end of the pipe behind it (the first stdout) as
descriptor 1. -/
def StagesWired (s : PipeSystem) : Prop :=
  ∀ P ∈ s, ∀ cArg failed, P.prog = .exec cArg failed → ∃ k < n, P.label = .stage k ∧
    cArg = cArgs k ∧ Slots.find P.table 0 = some (stdinOf r e0 k) ∧
    Slots.find P.table 1 = some (stdoutOf r n e1 k)

/-- The runner is past index `i`. -/
def Role.Past (i : Nat) : Role → Prop
  | .runner j => i < j
  | .stage k => i < k
  | .outside => False

/-- Once the runner is past index `i`, only processes of stage `i` hold a write end of pipe `i`. -/
def WriteEndsApart (s : PipeSystem) : Prop :=
  ∀ R i, s[r]? = some R → R.label.Past i → ∀ P ∈ s, ∀ fd,
    Slots.find P.table fd = some (.write (pipeOf r i)) → P.label = .stage i

/-- While the binary of stage `k` is about to be executed, no process of the stage has a read end
but that of pipe `k - 1`, as descriptor 0 (a binary already running may have moved it). -/
def OnlyOwnReadEnd (s : PipeSystem) : Prop :=
  ∀ P ∈ s, ∀ k, P.AtExec (.stage k) → ∀ Q ∈ s, Q.label = .stage k → ∀ fd i,
    Slots.find Q.table fd = some (.read (pipeOf r i)) → i + 1 = k ∧ (Q.prog ≠ .foreign → fd = 0)

/-- A read end of pipe `i` is with stage `i + 1`, but for the runner and the processes that have
their binary still to execute. -/
def ReadEndsWithConsumer (s : PipeSystem) : Prop :=
  ∀ P ∈ s, ∀ fd i, Slots.find P.table fd = some (.read (pipeOf r i)) →
    P.label = .stage (i + 1) ∨ (∃ j, P.label = .runner j) ∨ P.MayExec P.label

end Ends

/-! ## The start -/

/-- Process `r` is about to run `runPiping(c_Args, n, 0, 0)` with 0 and 1 open; it has made no pipe
yet, and the other processes run binaries of their own. -/
structure Started (path : List UInt8) (runsFile : CommandArgument → Bool) (cArgs : Nat → CommandArgument)
    (n r : Nat) (e0 e1 : End) (s : PipeSystem) : Prop where
  runner : ∃ t, s[r]? = some ⟨runPiping path runsFile cArgs n 0 0, .runner 0, t, 0⟩ ∧
    Slots.find t 0 = some e0 ∧ Slots.find t 1 = some e1
  fresh : ∀ (i : Nat) P, s[i]? = some P → ∀ fd e, Slots.find P.table fd = some e → NotOf r e
  others : ∀ (i : Nat) P, i ≠ r → s[i]? = some P → P.prog = .foreign ∧ P.label = .outside

section Runs

variable {path : List UInt8} {runsFile : CommandArgument → Bool} {cArgs : Nat → CommandArgument} {n r : Nat}
  {e0 e1 : End} {K : Kernel} {s0 s : PipeSystem} {es : List Nat}

theorem obeys_outside {pid : Nat} {p : PipeProg} {t : Table}
    (ht : ∀ fd e, Slots.find t fd = some e → NotOf r e) (hp : ∀ cArg failed, p ≠ .exec cArg failed) :
    Obeys r n cArgs e0 e1 pid p .outside t where
  runner := fun i h => by cases h
  stage := fun k h => by cases h
  outside := fun _ => ht
  writes := fun fd i hf => absurd rfl (ht fd _ hf i).2
  exec := fun cArg failed h => absurd h (hp cArg failed)
  settled := fun k h => by cases h

theorem Started.allAlways (h : Started path runsFile cArgs n r e0 e1 s0) :
    AllAlways (Obeys r n cArgs e0 e1) s0 := by
  obtain ⟨t, hr, hin, hout⟩ := h.runner
  have hfresh := h.fresh r _ hr
  intro i P hP
  by_cases hi : i = r
  · subst hi
    cases hP.symm.trans hr
    refine RunnerTable.runPiping rfl (hfresh 0 e0 hin) (hfresh 1 e1 hout) ?_ 0
    constructor
    case input => exact hin
    case output => exact hout
    case descriptor => exact hin
    case start => exact fun _ => rfl
    case later => exact fun h0 => absurd rfl h0
    case writes => exact fun fd j hf => (hfresh fd _ hf j).2 rfl
    case reads => exact fun fd j hf => absurd rfl (hfresh fd _ hf j).1
    case kept => exact fun j hj => absurd hj (Nat.not_lt_zero j)
  · obtain ⟨hprog, hlabel⟩ := h.others i P hi hP
    rw [Proc.Always, hprog, hlabel]
    intro pid
    refine ⟨obeys_outside (fun fd e hf => by cases hf) (by simp), fun t' ht' => ?_⟩
    refine obeys_outside (fun fd e hf => ?_) (by simp)
    rcases ht' fd e hf with ⟨fd', hf'⟩ | ⟨file, rfl⟩
    · exact h.fresh i P hP fd' e hf'
    · exact fun j => ⟨by simp, by simp⟩

theorem Started.exclusive (h : Started path runsFile cArgs n r e0 e1 s0) : Exclusive s0 := by
  obtain ⟨t, hr, -, -⟩ := h.runner
  have hforeign : ∀ (i : Nat) P m, s0[i]? = some P → P.MayExec m → i = r := by
    intro i P m hP hm
    by_contra hi
    rw [Proc.MayExec, (h.others i P hi hP).1] at hm
    exact hm
  constructor
  case parts =>
    intro i P hP
    by_cases hi : i = r
    · subst hi
      cases hP.symm.trans hr
      exact parts_runPiping rfl
    · rw [(h.others i P hi hP).1]
      trivial
  case apart =>
    intro i j P Q hP hQ m hmP hmQ
    exact (hforeign i P m hP hmP).trans (hforeign j Q m hQ hmQ).symm

/-- Every process reached obeys the assertion. -/
theorem Started.obeys (h : Started path runsFile cArgs n r e0 e1 s0) (hrun : Run (Step K) s0 es s)
    {i : Nat} {P : Proc CommandArgument Role} (hP : s[i]? = some P) :
    Obeys r n cArgs e0 e1 i P.prog P.label P.table :=
  (h.allAlways.run hrun i P hP).now

/-- Every stage comes to the point where its command is executed, in some run. -/
theorem Started.executes (h : Started path runsFile cArgs n r e0 e1 s0) {k : Nat} (hk : k < n) :
    ∃ es s, Run (Step K) s0 es s ∧ ∃ P ∈ s, P.AtExec (.stage k) := by
  obtain ⟨t, hr, -, -⟩ := h.runner
  exact (executes_runPiping rfl (Nat.zero_le k) hk).run s0 r t 0 hr

theorem Started.stagesWired (h : Started path runsFile cArgs n r e0 e1 s0) (hrun : Run (Step K) s0 es s) :
    StagesWired r n cArgs e0 e1 s := by
  intro P hP cArg failed hp
  obtain ⟨i, hi⟩ := List.mem_iff_getElem?.1 hP
  obtain ⟨k, hk, hl, hc, hw⟩ := (h.obeys hrun hi).exec cArg failed hp
  exact ⟨k, hk, hl, hc, hw.input, hw.output⟩

theorem Started.writeEndsApart (h : Started path runsFile cArgs n r e0 e1 s0)
    (hrun : Run (Step K) s0 es s) : WriteEndsApart r s := by
  intro R i hR hpast P hP fd hf
  obtain ⟨j, hj⟩ := List.mem_iff_getElem?.1 hP
  have hP' := h.obeys hrun hj
  rcases hP'.writes fd i hf with hl | hl
  · exact hl
  · -- only process `r` is ever a runner, and it is past `i`
    obtain rfl := hP'.runner i hl
    cases hj.symm.trans hR
    rw [hl] at hpast
    exact absurd hpast (Nat.lt_irrefl i)

theorem Started.readEndsWithConsumer (h : Started path runsFile cArgs 2 r e0 e1 s0)
    (hrun : Run (Step K) s0 es s) : ReadEndsWithConsumer r s := by
  intro P hP fd i hf
  obtain ⟨j, hj⟩ := List.mem_iff_getElem?.1 hP
  have hP' := h.obeys hrun hj
  cases hl : P.label with
  | runner j => exact .inr (.inl ⟨j, rfl⟩)
  | outside => exact absurd rfl (hP'.outside hl fd _ hf i).1
  | stage k =>
    rcases hP'.settled k hl with hm | hreads
    · exact .inr (.inr hm.1)
    · have hk := hP'.stage k hl
      have := (hreads fd i hf).1
      obtain rfl : k = i + 1 := by omega
      exact .inl rfl

theorem Started.onlyOwnReadEnd (h : Started path runsFile cArgs 2 r e0 e1 s0)
    (hrun : Run (Step K) s0 es s) : OnlyOwnReadEnd r s := by
  rintro P hP k ⟨hlP, cArg, failed, hexec⟩ Q hQ hlQ fd i hf
  obtain ⟨a, ha⟩ := List.mem_iff_getElem?.1 hP
  obtain ⟨b, hb⟩ := List.mem_iff_getElem?.1 hQ
  have hQ' := h.obeys hrun hb
  have hk := hQ'.stage k hlQ
  rcases hQ'.settled k hlQ with hm | hreads
  · -- no other process of the stage has a binary still to execute
    have hmP : P.MayExec (.stage k) := by
      rw [Proc.MayExec, hexec, hlP]
      exact .inl rfl
    obtain rfl := (h.exclusive.run hrun).apart a b P Q ha hb _ hmP hm.1
    cases ha.symm.trans hb
    obtain ⟨k', -, hk', -, hw⟩ := hQ'.exec cArg failed hexec
    cases hlQ.symm.trans hk'
    have hreads := hw.reads fd i hf
    exact ⟨by omega, fun _ => hreads.2 (by omega)⟩
  · have hreads := hreads fd i hf
    exact ⟨by omega, hreads.2 (by omega)⟩

/-- The third stage executes its command with the first pipe's read end still open. -/
theorem Started.not_onlyOwnReadEnd (h : Started path runsFile cArgs n r e0 e1 s0) (hn : 3 ≤ n) :
    ∃ es s, Run (Step K) s0 es s ∧ ¬ OnlyOwnReadEnd r s := by
  obtain ⟨es, s, hrun, P, hP, hat⟩ := h.executes (K := K) (show 2 < n by omega)
  refine ⟨es, s, hrun, fun hown => ?_⟩
  obtain ⟨hl, cArg, failed, hexec⟩ := id hat
  obtain ⟨i, hi⟩ := List.mem_iff_getElem?.1 hP
  obtain ⟨k, -, hk, -, hw⟩ := (h.obeys hrun hi).exec cArg failed hexec
  cases hl.symm.trans hk
  obtain ⟨fd, hfd⟩ := hw.kept 0 (by omega)
  exact absurd (hown P hP 2 hat P hP hl fd 0 hfd).1 (by decide)

/-- In every interleaving each binary is started with its own two pipe ends, and the write ends stay
with their stages; every stage does come to be executed. -/
theorem pipeline_ends (K : Kernel) (h : Started path runsFile cArgs n r e0 e1 s0) :
    (∀ es s, Run (Step K) s0 es s → StagesWired r n cArgs e0 e1 s ∧ WriteEndsApart r s) ∧
      ∀ k < n, ∃ es s, Run (Step K) s0 es s ∧ ∃ P ∈ s, P.AtExec (.stage k) :=
  ⟨fun _ _ hrun => ⟨h.stagesWired hrun, h.writeEndsApart hrun⟩, fun _ hk => h.executes hk⟩

/-- The read ends are where they belong in every interleaving exactly for pipelines of two. -/
theorem read_ends_iff (K : Kernel) (h : Started path runsFile cArgs n r e0 e1 s0) (hn : 2 ≤ n) :
    (∀ es s, Run (Step K) s0 es s → OnlyOwnReadEnd r s ∧ ReadEndsWithConsumer r s) ↔ n = 2 := by
  constructor
  · intro hall
    by_contra hne
    obtain ⟨es, s, hrun, hnot⟩ := h.not_onlyOwnReadEnd (K := K) (show 3 ≤ n by omega)
    exact hnot (hall es s hrun).1
  · rintro rfl es s hrun
    exact ⟨h.onlyOwnReadEnd hrun, h.readEndsWithConsumer hrun⟩

end Runs

/-- A command without words. -/
def noCommand : CommandArgument where
  trimmedInput := .null
  command := .null
  arguments _ := .null
  isBackground := 0
  argumentCount := 0

def noCommands (_ : Nat) : CommandArgument := noCommand

/-- `"/bin/"` -/
def binDirectory : List UInt8 := [47, 98, 105, 110, 47]

/-- The runner of a pipeline of `n` commands, alone, with descriptors 0 and 1 open. -/
def loneRunner (cArgs : Nat → CommandArgument) (n : Nat) : PipeSystem :=
  [⟨runPiping binDirectory (fun _ => false) cArgs n 0 0, .runner 0, [(0, .other 0), (1, .other 1)], 0⟩]

theorem started_loneRunner (cArgs : Nat → CommandArgument) (n : Nat) :
    Started binDirectory (fun _ => false) cArgs n 0 (.other 0) (.other 1) (loneRunner cArgs n) := by
  have hlone : ∀ (i : Nat) P, (loneRunner cArgs n)[i]? = some P → i = 0 := by
    intro i P hP
    have hlt : i < 1 := (List.getElem?_eq_some_iff.1 hP).1
    omega
  constructor
  case runner => exact ⟨_, rfl, rfl, rfl⟩
  case fresh =>
    intro i P hP fd e hf j
    obtain rfl := hlone i P hP
    cases hP
    rw [Slots.find, Slots.find, Slots.find] at hf
    split at hf
    · cases hf
      exact ⟨by simp, by simp⟩
    · split at hf
      · cases hf
        exact ⟨by simp, by simp⟩
      · cases hf
  case others => exact fun i P hi hP => absurd (hlone i P hP) hi

/-- A pipeline of three commands on the lowest descriptors. -/
theorem pipeline_ends_three :
    (∀ es s, Run (Step lowestKernel) (loneRunner noCommands 3) es s →
      StagesWired 0 3 noCommands (.other 0) (.other 1) s ∧ WriteEndsApart 0 s) ∧
    ∀ k < 3, ∃ es s, Run (Step lowestKernel) (loneRunner noCommands 3) es s ∧
      ∃ P ∈ s, P.AtExec (.stage k) :=
  pipeline_ends lowestKernel (started_loneRunner noCommands 3)

/-- Two commands and three. -/
theorem read_ends_two_three :
    (∀ es s, Run (Step lowestKernel) (loneRunner noCommands 2) es s →
      OnlyOwnReadEnd 0 s ∧ ReadEndsWithConsumer 0 s) ∧
    ¬ ∀ es s, Run (Step lowestKernel) (loneRunner noCommands 3) es s →
      OnlyOwnReadEnd 0 s ∧ ReadEndsWithConsumer 0 s :=
  ⟨(read_ends_iff lowestKernel (started_loneRunner noCommands 2) (Nat.le_refl 2)).2 rfl,
    fun h => absurd ((read_ends_iff lowestKernel (started_loneRunner noCommands 3) (by simp)).1 h) (by simp)⟩

/-- With three commands the third one is executed with the read end of the first pipe. -/
theorem third_keeps_read_end : ∃ es s, Run (Step lowestKernel) (loneRunner noCommands 3) es s ∧
    ¬ OnlyOwnReadEnd 0 s :=
  (started_loneRunner noCommands 3).not_onlyOwnReadEnd (Nat.le_refl 3)

end Sbunix.Sbush
