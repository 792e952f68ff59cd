/-
Pipelines whose processes wait for one another: what a stage writes, the next one has to read, and a full or
an empty pipe holds a process up. So does what the shell's own processes print, the first of it the PATH
before every `execve`.

The runner closes the write end of a pipe before it goes on, so an empty pipe comes to its end with the stage
in front of it. The read ends that the later stages keep are only those of pipes before them.
-/
import Sbunix.Lib.PipeFlow
import Sbunix.Sbush.PipelineRuns

namespace Sbunix.Sbush

open Processes Transition

namespace Role

/-- The process of `runPiping` makes the pipes; the stages do the work. -/
def standing : Role → Standing
  | runner _ => .founder
  | stage _ => .keeper
  | outside => .outside

def rank : Role → Nat
  | stage k => k
  | _ => 0

theorem standing_outside {l : Role} (h : l ≠ outside) : l.standing ≠ .outside := by
  cases l with
  | outside => exact absurd rfl h
  | _ => nofun

theorem eq_stage {l : Role} (h : l.standing = .keeper) : ∃ k, l = stage k := by
  cases l with
  | stage k => exact ⟨k, rfl⟩
  | _ => cases h

end Role

/-! ## The programs -/

section Programs

variable {path : List UInt8} {runsFile : CommandArgument → Bool} {cArg : CommandArgument}
  {cArgs : Nat → CommandArgument}
  {next : PipeProg} {ok : Int → Prop} {n i fd a b : Nat}

/-- The process waits for no child but the binary it has started. -/
theorem keeper_executeBinary : Keeper ok (executeBinary path runsFile cArg .exit) := by
  unfold executeBinary executeBinaryInBackGround executeBinaryInteractively setExecutionArguments
  split <;> split <;> simp +contextual [Keeper]

theorem keeper_duplicate (h : Keeper ok next) :
    Keeper ok (duplicateFileDescriptorsFromInputToOutput a b next) := by
  unfold duplicateFileDescriptorsFromInputToOutput
  split
  · exact h
  · have hb : (b : Int) ≠ -1 := by omega
    simpa [Keeper, hb] using h

theorem founder_runPiping {d : Nat} (hd : n - i = d) :
    Founder Role.standing (runPiping path runsFile cArgs n i fd) := by
  induction d generalizing i fd with
  | zero =>
    rw [runPiping_returns (by omega)]
    trivial
  | succ d ih =>
    rcases Nat.lt_or_ge (i + 1) n with hlt | hge
    · rw [runPiping_more hlt]
      refine .inl ⟨rfl, fun fd0 fd1 => ⟨⟨.stage i, rfl, rfl⟩, ?_, fun child hchild => ?_⟩⟩
      · exact keeper_duplicate (keeper_duplicate keeper_executeBinary)
      · rw [afterFork_parent hchild]
        exact ih (by omega)
    · rw [runPiping_last (by omega)]
      exact .inr ⟨rfl, keeper_duplicate keeper_executeBinary⟩

end Programs

/-! ## The runs -/

section Runs

variable {K : Kernel} {path : List UInt8} {runsFile : CommandArgument → Bool} {cArgs : Nat → CommandArgument}
  {n r room : Nat}
  {e0 e1 : End} {s0 s : PipeSystem}

/-- No descriptor is a pipe's. -/
def NoPipes (s : PipeSystem) : Prop := ∀ P ∈ s, ∀ fd e, Slots.find P.table fd = some e → ∃ file, e = .other file

theorem Started.orderly (h : Started path runsFile cArgs n r e0 e1 s0) (hnone : NoPipes s0) :
    Orderly Role.standing r s0 := by
  obtain ⟨t, hr, -, -⟩ := h.runner
  constructor
  case inOrder =>
    intro i P hP
    by_cases hi : i = r
    · subst hi
      cases hr.symm.trans hP
      exact .founder rfl rfl (founder_runPiping rfl)
    · obtain ⟨hprog, hlabel⟩ := h.others i P hi hP
      exact .outside (by rw [hlabel]; rfl) hprog
  case madeBy =>
    intro i P hP fd e hf
    obtain ⟨file, rfl⟩ := hnone P (List.mem_of_getElem? hP) fd e hf
    trivial

/-- A resting process of a stage has the pipe behind it to write to and those before it to read from. -/
theorem Obeys.ends {pid : Nat} {P : Proc CommandArgument Role} {q : PipeId} {k fd : Nat}
    (h : Obeys r n cArgs e0 e1 pid P.prog P.label P.table) (hl : P.label = .stage k) (hrest : Resting P.prog)
    (hq : q.creator = r) :
    (Slots.find P.table fd = some (.write q) → q = pipeOf r k) ∧
      (Slots.find P.table fd = some (.read q) → q.count < k) := by
  have hq' : q = pipeOf r q.count := by
    rw [pipeOf, ← hq]
  rw [hq']
  constructor
  · intro hf
    rcases h.writes fd _ hf with hi | hi
    · rw [Role.stage.inj (hl.symm.trans hi)]
    · cases hl.symm.trans hi
  · intro hf
    rcases h.settled k hl with hm | hreads
    · exact absurd hrest hm.2
    · exact (hreads fd _ hf).1

theorem forward_of_obeys (hord : Orderly Role.standing r s) (hobeys : AllAlways (Obeys r n cArgs e0 e1) s) :
    Forward Role.standing Role.rank n s := by
  have hat : ∀ P ∈ s, (∃ i, Obeys r n cArgs e0 e1 i P.prog P.label P.table) ∧ MadeBy r P.table := by
    intro P hP
    obtain ⟨i, hi⟩ := List.mem_iff_getElem?.1 hP
    exact ⟨⟨i, (hobeys i P hi).now⟩, hord.madeBy i P hi⟩
  constructor
  case bounded =>
    intro P hP
    obtain ⟨⟨i, ho⟩, -⟩ := hat P hP
    cases hl : P.label with
    | stage k => exact Nat.le_of_lt (ho.stage k hl)
    | _ => exact Nat.zero_le n
  case outside =>
    intro P hP hout fd q
    obtain ⟨⟨i, ho⟩, hmade⟩ := hat P hP
    have hl : P.label = .outside := by
      cases hl : P.label with
      | outside => rfl
      | _ =>
        rw [hl] at hout
        cases hout
    constructor
    · intro hf
      have hq : q.creator = r := hmade fd _ hf
      exact (ho.outside hl fd _ hf q.count).1 (by rw [pipeOf, ← hq])
    · intro hf
      have hq : q.creator = r := hmade fd _ hf
      exact (ho.outside hl fd _ hf q.count).2 (by rw [pipeOf, ← hq])
  case forward =>
    intro P hP Q hQ hlP hlQ hrestP hrestQ fd fd' q hw hr
    obtain ⟨⟨i, hoP⟩, hmade⟩ := hat P hP
    obtain ⟨⟨j, hoQ⟩, -⟩ := hat Q hQ
    obtain ⟨k, hk⟩ := Role.eq_stage hlP
    obtain ⟨k', hk'⟩ := Role.eq_stage hlQ
    have hq := (hoP.ends hk hrestP (hmade fd _ hw)).1 hw
    have hlt := (hoQ.ends hk' hrestQ (hmade fd _ hw)).2 hr
    rw [hk, hk']
    rwa [hq] at hlt
  case single =>
    intro P hP Q hQ hlP hlQ hrestP hrestQ hrank fd fd' q q' hw hw'
    obtain ⟨⟨i, hoP⟩, hmade⟩ := hat P hP
    obtain ⟨⟨j, hoQ⟩, hmade'⟩ := hat Q hQ
    obtain ⟨k, hk⟩ := Role.eq_stage hlP
    obtain ⟨k', hk'⟩ := Role.eq_stage hlQ
    rw [hk, hk'] at hrank
    have hkk : k = k' := hrank
    rw [(hoP.ends hk hrestP (hmade fd _ hw)).1 hw, (hoQ.ends hk' hrestQ (hmade' fd' _ hw')).1 hw', hkk]

/-- A pipeline never hangs: whatever its binaries read and write, and however much of what the shell's own
processes print does not fit into a pipe, all its processes can still come to their end, with no help from
outside. -/
theorem pipeline_can_end (K : Kernel) (x0 : Flow CommandArgument Role) {x : Flow CommandArgument Role}
    {es : List Nat} (h : Started path runsFile cArgs n r e0 e1 x0.system) (hnone : NoPipes x0.system)
    (hroom : 0 < room) (hrun : Run (Moves K room) x0 es x) :
    ∃ es' y, Run (Moves K room) x es' y ∧ (∀ P ∈ y.system, P.label ≠ .outside → P.prog = .ended) ∧
      ∀ (i : Nat) P, x.system[i]? = some P → P.label = .outside → y.system[i]? = some P := by
  have hord : ∀ {es y}, Run (Moves K room) x0 es y → Orderly Role.standing r y.system := fun hy =>
    run_invariant (Orderly Role.standing r) (h.orderly hnone) (fun _ _ _ h hs => h.step hs) hy
  have hobeys : ∀ {es y}, Run (Moves K room) x0 es y → AllAlways (Obeys r n cArgs e0 e1) y.system := fun hy =>
    run_invariant (AllAlways (Obeys r n cArgs e0 e1)) h.allAlways (fun _ _ _ h hs => h.step hs) hy
  obtain ⟨es', y, hrun', hover, hkept⟩ := can_end hroom (hord hrun) fun es' y hy =>
    forward_of_obeys (hord (hrun.trans hy)) (hobeys (hrun.trans hy))
  refine ⟨es', y, hrun', fun P hP hl => hover P hP (Role.standing_outside hl), fun i P hP hl => ?_⟩
  exact hkept i P hP (by rw [hl]; rfl)

/-- The pipeline of three commands, with one byte of room in each pipe. -/
theorem pipeline_can_end_three : ∃ es y,
    Run (Moves lowestKernel 1) ⟨loneRunner noCommands 3, fun _ => 0, fun _ => .read 0⟩ es y ∧
    (∀ P ∈ y.system, P.label ≠ .outside → P.prog = .ended) ∧
    ∀ (i : Nat) P, (loneRunner noCommands 3)[i]? = some P → P.label = .outside → y.system[i]? = some P := by
  refine pipeline_can_end lowestKernel ⟨loneRunner noCommands 3, fun _ => 0, fun _ => .read 0⟩
    (started_loneRunner noCommands 3) ?_ Nat.one_pos .nil
  intro P hP fd e hf
  rw [loneRunner, List.mem_singleton] at hP
  subst hP
  simp only [Slots.find] at hf
  split at hf
  · exact ⟨0, (Option.some.inj hf).symm⟩
  · split at hf
    · exact ⟨1, (Option.some.inj hf).symm⟩
    · cases hf

end Runs

end Sbunix.Sbush
