/-
Assertions about processes, by recursion on their programs: what holds at every point of a process's
future and of its children's, whatever the other processes do; under which labels a program may
still be executed; and under which it can be brought to be.
-/
import Sbunix.Lib.Processes

namespace Processes

open Transition

variable {C L : Type}

/-! ## At every point -/

section Always

variable (J : Nat → Prog C L → L → Table → Prop)

/-- The assertion holds of a binary, whatever it does with its descriptors, and of its children. -/
def Foreign (l : L) (t : Table) : Prop :=
  ∀ pid, J pid .ended l [] ∧ ∀ t', Rearranged t t' → J pid .foreign l t'

/-- The assertion holds at every point of the future of a process and of its children. -/
def Always : Prog C L → Nat → L → Table → Nat → Prop
  | .mark m next, pid, l, t, c => J pid (.mark m next) l t ∧ Always next pid m t c
  | .pipe next, pid, l, t, c => J pid (.pipe next) l t ∧
    ∀ r w, Slots.find t r = none → Slots.find t w = none → r ≠ w →
      Always (next 0 r w) pid l
        (Slots.set (Slots.set t r (.read ⟨pid, c⟩)) w (.write ⟨pid, c⟩)) (c + 1)
  | .fork m next, pid, l, t, c => J pid (.fork m next) l t ∧
    ∀ child : Nat, child ≠ 0 → Always (next child) pid l t c ∧ Always (next 0) child (m.getD l) t 0
  | .dup2 old new next, pid, l, t, c => J pid (.dup2 old new next) l t ∧
    match Slots.find t old with
    | some e => Always (next new) pid l (Slots.set t new e) c
    | none => Always (next (-1)) pid l t c
  | .close fd next, pid, l, t, c => J pid (.close fd next) l t ∧ Always next pid l (Slots.erase t fd) c
  | .write fd _ next, pid, l, t, c => (∀ text', J pid (.write fd text' next) l t) ∧
    J pid .ended l [] ∧ Always next pid l t c
  | .script next, pid, l, t, c => J pid (.script next) l t ∧
    (∀ fd text, J pid (.write fd text (.script next)) l t) ∧
    (∀ child, J pid (.wait child (.script next)) l t) ∧ Foreign J l t ∧ Always next pid l t c
  | .exec command failed, pid, l, t, c =>
    J pid (.exec command failed) l t ∧ Foreign J l t ∧ Always failed pid l t c
  | .wait child next, pid, l, t, c => J pid (.wait child next) l t ∧ Always next pid l t c
  | .exit, pid, l, t, _ => J pid .exit l t ∧ J pid .ended l []
  | .foreign, _, l, t, _ => Foreign J l t
  | .ended, pid, l, t, _ => J pid .ended l t

variable {J} {K : Kernel} {s s' : System C L} {pid c : Nat} {l : L} {t t' : Table} {p : Prog C L}
  {P P' Q : Proc C L} {child : Option (Proc C L)} {es : List Nat}

theorem Rearranged.refl (t : Table) : Rearranged t t := fun fd _ h => .inl ⟨fd, h⟩

theorem Rearranged.trans {t'' : Table} (h : Rearranged t t') (h' : Rearranged t' t'') :
    Rearranged t t'' := by
  intro fd e he
  rcases h' fd e he with ⟨fd', hfd'⟩ | hother
  · exact h fd' e hfd'
  · exact .inr hother

theorem Always.now (h : Always J p pid l t c) : J pid p l t := by
  cases p with
  | foreign => exact (h pid).2 t (.refl t)
  | ended => exact h
  | write fd text next => exact h.1 text
  | _ => exact h.1

/-- `Always` of a process. -/
abbrev Proc.Always (J : Nat → Prog C L → L → Table → Prop) (pid : Nat) (P : Proc C L) : Prop :=
  Processes.Always J P.prog pid P.label P.table P.made

theorem Does.always (hs : s ≠ []) (h : Does K s pid P P' child) (ha : P.Always J pid) :
    P'.Always J pid ∧ ∀ Q ∈ child, Q.Always J s.length := by
  have hlen : s.length ≠ 0 := mt List.length_eq_zero_iff.1 hs
  cases h with
  | mark => exact ⟨ha.2, by simp⟩
  | pipe => exact ⟨ha.2 _ _ (K.closed _).1 (K.closed _).2 (K.ne _), by simp⟩
  | fork =>
    have hchild := ha.2 s.length hlen
    exact ⟨hchild.1, by rintro Q ⟨⟩; exact hchild.2⟩
  | dup2 h =>
    have hnext := ha.2
    rw [h] at hnext
    exact ⟨hnext, by simp⟩
  | dup2Closed h =>
    have hnext := ha.2
    rw [h] at hnext
    exact ⟨hnext, by simp⟩
  | close => exact ⟨ha.2, by simp⟩
  | write => exact ⟨ha.2.2, by simp⟩
  | writePart n => exact ⟨ha, by simp⟩
  | writeKilled => exact ⟨ha.2.1, by simp⟩
  | scriptWrite fd text => exact ⟨⟨ha.2.1 fd, (ha.2.2.2.1 pid).1, ha⟩, by simp⟩
  | scriptCommand => exact ⟨⟨ha.2.2.1 _, ha⟩, by rintro Q ⟨⟩; exact ha.2.2.2.1⟩
  | scriptBackground => exact ⟨ha, by rintro Q ⟨⟩; exact ha.2.2.2.1⟩
  | scriptShell => exact ⟨ha.2.2.2.1, by simp⟩
  | scriptEnd => exact ⟨ha.2.2.2.2, by simp⟩
  | exec => exact ⟨ha.2.1, by simp⟩
  | execMissing => exact ⟨ha.2.2, by simp⟩
  | wait => exact ⟨ha.2, by simp⟩
  | exit => exact ⟨ha.2, by simp⟩
  | rearrange h => exact ⟨fun q => ⟨(ha q).1, fun t'' ht => (ha q).2 t'' (h.trans ht)⟩, by simp⟩
  | foreignFork => exact ⟨ha, by rintro Q ⟨⟩; exact ha⟩
  | foreignExit => exact ⟨(ha pid).1, by simp⟩

/-- The assertion holds at every point of the future of every process. -/
def AllAlways (J : Nat → Prog C L → L → Table → Prop) (s : System C L) : Prop :=
  ∀ (i : Nat) (P : Proc C L), s[i]? = some P → P.Always J i

theorem AllAlways.step (h : AllAlways J s) (hstep : Step K s pid s') : AllAlways J s' := by
  obtain ⟨P, P', child, hP, hdoes, rfl⟩ := hstep
  have hs : s ≠ [] := fun he => by simp [he] at hP
  obtain ⟨hP', hchild⟩ := hdoes.always hs (h pid P hP)
  intro i Q hQ
  rcases mem_step hP hQ with ⟨rfl, rfl⟩ | ⟨-, hold⟩ | ⟨rfl, hnew⟩
  · exact hP'
  · exact h i Q hold
  · exact hchild Q hnew

/-- The rule for runs: the assertion holds of every process in every state reached. -/
theorem AllAlways.run (h : AllAlways J s) (hrun : Run (Step K) s es s') : AllAlways J s' :=
  hrun.invariant (AllAlways J) h fun _ _ _ hall hstep => hall.step hstep

end Always

/-! ## What is still to be executed -/

section MayExec

/-- A process with this program and label may execute a command under the label `m`, or start a
child that does. -/
def MayExec (m : L) : Prog C L → L → Prop
  | .mark l' next, _ => MayExec m next l'
  | .pipe next, l => ∃ r w, MayExec m (next 0 r w) l
  | .fork l' next, l =>
    (∃ child : Nat, child ≠ 0 ∧ MayExec m (next child) l) ∨ MayExec m (next 0) (l'.getD l)
  | .dup2 _ new next, l => MayExec m (next new) l ∨ MayExec m (next (-1)) l
  | .close _ next, l => MayExec m next l
  | .write _ _ next, l => MayExec m next l
  | .script next, l => MayExec m next l
  | .exec _ failed, l => l = m ∨ MayExec m failed l
  | .wait _ next, l => MayExec m next l
  | .exit, _ => False
  | .foreign, _ => False
  | .ended, _ => False

/-- At every fork the parent and the child go on to execute under different labels. -/
def Parts : Prog C L → L → Prop
  | .mark l' next, _ => Parts next l'
  | .pipe next, l => ∀ r w, Parts (next 0 r w) l
  | .fork l' next, l => Parts (next 0) (l'.getD l) ∧ ∀ child : Nat, child ≠ 0 →
    Parts (next child) l ∧ ∀ m, MayExec m (next child) l → ¬ MayExec m (next 0) (l'.getD l)
  | .dup2 _ new next, l => Parts (next new) l ∧ Parts (next (-1)) l
  | .close _ next, l => Parts next l
  | .write _ _ next, l => Parts next l
  | .script next, l => Parts next l
  | .exec _ failed, l => Parts failed l
  | .wait _ next, l => Parts next l
  | .exit, _ => True
  | .foreign, _ => True
  | .ended, _ => True

/-- `MayExec` of a process. -/
abbrev Proc.MayExec (m : L) (P : Proc C L) : Prop := Processes.MayExec m P.prog P.label

variable {K : Kernel} {s s' : System C L} {pid i j : Nat} {m : L} {P P' Q : Proc C L}
  {child : Option (Proc C L)} {es : List Nat}

/-- What a process or its new child may execute, the process could execute before. -/
theorem Does.mayExec (hs : s ≠ []) (h : Does K s pid P P' child) :
    (P'.MayExec m → P.MayExec m) ∧ ∀ Q ∈ child, Q.MayExec m → P.MayExec m := by
  have hlen : s.length ≠ 0 := mt List.length_eq_zero_iff.1 hs
  cases h with
  | mark => exact ⟨id, by simp⟩
  | pipe => exact ⟨fun h => ⟨_, _, h⟩, by simp⟩
  | fork => exact ⟨fun h => .inl ⟨_, hlen, h⟩, by rintro Q ⟨⟩ h; exact .inr h⟩
  | dup2 _ => exact ⟨.inl, by simp⟩
  | dup2Closed _ => exact ⟨.inr, by simp⟩
  | close => exact ⟨id, by simp⟩
  | write => exact ⟨id, by simp⟩
  | writePart _ => exact ⟨id, by simp⟩
  | writeKilled => exact ⟨False.elim, by simp⟩
  | scriptWrite _ _ => exact ⟨id, by simp⟩
  | scriptCommand => exact ⟨id, by rintro Q ⟨⟩ ⟨⟩⟩
  | scriptBackground => exact ⟨id, by rintro Q ⟨⟩ ⟨⟩⟩
  | scriptShell => exact ⟨False.elim, by simp⟩
  | scriptEnd => exact ⟨id, by simp⟩
  | exec => exact ⟨False.elim, by simp⟩
  | execMissing => exact ⟨.inr, by simp⟩
  | wait _ _ => exact ⟨id, by simp⟩
  | exit => exact ⟨False.elim, by simp⟩
  | rearrange _ => exact ⟨False.elim, by simp⟩
  | foreignFork => exact ⟨id, by rintro Q ⟨⟩ ⟨⟩⟩
  | foreignExit => exact ⟨False.elim, by simp⟩

theorem Does.parts (hs : s ≠ []) (h : Does K s pid P P' child) (hp : Parts P.prog P.label) :
    Parts P'.prog P'.label ∧
      ∀ Q ∈ child, Parts Q.prog Q.label ∧ ∀ m, P'.MayExec m → ¬ Q.MayExec m := by
  have hlen : s.length ≠ 0 := mt List.length_eq_zero_iff.1 hs
  cases h with
  | mark => exact ⟨hp, by simp⟩
  | pipe => exact ⟨hp _ _, by simp⟩
  | fork => exact ⟨(hp.2 _ hlen).1, by rintro Q ⟨⟩; exact ⟨hp.1, (hp.2 _ hlen).2⟩⟩
  | dup2 _ => exact ⟨hp.1, by simp⟩
  | dup2Closed _ => exact ⟨hp.2, by simp⟩
  | close => exact ⟨hp, by simp⟩
  | write => exact ⟨hp, by simp⟩
  | writePart _ => exact ⟨hp, by simp⟩
  | writeKilled => exact ⟨trivial, by simp⟩
  | scriptWrite _ _ => exact ⟨hp, by simp⟩
  | scriptCommand => exact ⟨hp, by rintro Q ⟨⟩; exact ⟨trivial, fun m _ => id⟩⟩
  | scriptBackground => exact ⟨hp, by rintro Q ⟨⟩; exact ⟨trivial, fun m _ => id⟩⟩
  | scriptShell => exact ⟨trivial, by simp⟩
  | scriptEnd => exact ⟨hp, by simp⟩
  | exec => exact ⟨trivial, by simp⟩
  | execMissing => exact ⟨hp, by simp⟩
  | wait _ _ => exact ⟨hp, by simp⟩
  | exit => exact ⟨trivial, by simp⟩
  | rearrange _ => exact ⟨trivial, by simp⟩
  | foreignFork => exact ⟨trivial, by rintro Q ⟨⟩; exact ⟨trivial, fun m _ => id⟩⟩
  | foreignExit => exact ⟨trivial, by simp⟩

/-- No two processes may execute under one label. -/
structure Exclusive (s : System C L) : Prop where
  parts : ∀ (i : Nat) (P : Proc C L), s[i]? = some P → Parts P.prog P.label
  apart : ∀ (i j : Nat) (P Q : Proc C L), s[i]? = some P → s[j]? = some Q → ∀ m, P.MayExec m →
    Q.MayExec m → i = j

theorem Exclusive.step (h : Exclusive s) (hstep : Step K s pid s') : Exclusive s' := by
  obtain ⟨P, P', child, hP, hdoes, rfl⟩ := hstep
  have hs : s ≠ [] := fun he => by simp [he] at hP
  obtain ⟨hparts, hchild⟩ := hdoes.parts hs (h.parts pid P hP)
  constructor
  case parts =>
    intro i Q hQ
    rcases mem_step hP hQ with ⟨-, rfl⟩ | ⟨-, hold⟩ | ⟨-, hnew⟩
    · exact hparts
    · exact h.parts i Q hold
    · exact (hchild Q hnew).1
  case apart =>
    -- the process before the step could execute whatever it or its child can now
    intro i j Q R hQ hR m hmQ hmR
    rcases mem_step hP hQ with ⟨rfl, rfl⟩ | ⟨hi, hQ'⟩ | ⟨rfl, hQ'⟩ <;>
      rcases mem_step hP hR with ⟨rfl, rfl⟩ | ⟨hj, hR'⟩ | ⟨rfl, hR'⟩
    · rfl
    · exact h.apart _ _ P R hP hR' m ((hdoes.mayExec hs).1 hmQ) hmR
    · exact absurd hmR ((hchild R hR').2 m hmQ)
    · exact h.apart _ _ Q P hQ' hP m hmQ ((hdoes.mayExec hs).1 hmR)
    · exact h.apart _ _ Q R hQ' hR' m hmQ hmR
    · exact absurd (h.apart _ _ Q P hQ' hP m hmQ ((hdoes.mayExec hs).2 R hR' hmR)) hi
    · exact absurd hmQ ((hchild Q hQ').2 m hmR)
    · exact absurd (h.apart _ _ P R hP hR' m ((hdoes.mayExec hs).2 Q hQ' hmQ) hmR).symm hj
    · rfl

theorem Exclusive.run (h : Exclusive s) (hrun : Run (Step K) s es s') : Exclusive s' :=
  hrun.invariant Exclusive h fun _ _ _ hall hstep => hall.step hstep

end MayExec

section Executes

/-- Whatever the kernel answers, the process or one of its children can be brought to the point
where it executes a command under the label `m`. -/
def Executes (m : L) : Prog C L → L → Prop
  | .mark l' next, _ => Executes m next l'
  | .pipe next, l => ∀ r w, Executes m (next 0 r w) l
  | .fork l' next, l =>
    (∀ child : Nat, child ≠ 0 → Executes m (next child) l) ∨ Executes m (next 0) (l'.getD l)
  | .dup2 _ new next, l => Executes m (next new) l ∧ Executes m (next (-1)) l
  | .close _ next, l => Executes m next l
  | .write _ _ next, l => Executes m next l
  | .script next, l => Executes m next l
  | .exec _ _, l => l = m
  | .wait _ _, _ => False
  | .exit, _ => False
  | .foreign, _ => False
  | .ended, _ => False

/-- The process is about to execute a command under the label `m`. -/
def Proc.AtExec (m : L) (P : Proc C L) : Prop :=
  P.label = m ∧ ∃ command failed, P.prog = .exec command failed

variable {K : Kernel} {m : L}

theorem run_cons {s s1 : System C L} {pid : Nat} (h : Step K s pid s1)
    (h1 : ∃ es s', Run (Step K) s1 es s' ∧ ∃ Q ∈ s', Q.AtExec m) :
    ∃ es s', Run (Step K) s es s' ∧ ∃ Q ∈ s', Q.AtExec m := by
  obtain ⟨es, s', hrun, hQ⟩ := h1
  exact ⟨_, s', Run.trans (.snoc .nil h) hrun, hQ⟩

/-- By induction on the program, each call one step of the run. -/
theorem Executes.run : ∀ {p : Prog C L} {l : L}, Executes m p l → ∀ (s : System C L) (pid : Nat)
    (t : Table) (c : Nat), s[pid]? = some ⟨p, l, t, c⟩ →
    ∃ es s', Run (Step K) s es s' ∧ ∃ Q ∈ s', Q.AtExec m := by
  intro p
  induction p with
  | mark l' next ih =>
    intro l h s pid t c hP
    exact run_cons ⟨_, _, none, hP, .mark, rfl⟩ (ih h _ pid t c (step_self hP))
  | pipe next ih =>
    intro l h s pid t c hP
    exact run_cons ⟨_, _, none, hP, .pipe, rfl⟩ (ih _ _ _ (h _ _) _ pid _ _ (step_self hP))
  | fork l' next ih =>
    intro l h s pid t c hP
    have hlen : s.length ≠ 0 := by
      have := (List.getElem?_eq_some_iff.1 hP).1
      omega
    have hstep : Step K s pid _ := ⟨_, _, _, hP, .fork, rfl⟩
    -- the child is the last process of the list
    rcases h with hparent | hchild
    · exact run_cons hstep (ih _ (hparent _ hlen) _ pid t c (step_self hP))
    · exact run_cons hstep (ih _ hchild _ s.length t 0 step_child)
  | dup2 old new next ih =>
    intro l h s pid t c hP
    cases hold : Slots.find t old with
    | some e => exact run_cons ⟨_, _, none, hP, .dup2 hold, rfl⟩ (ih _ h.1 _ pid _ c (step_self hP))
    | none =>
      exact run_cons ⟨_, _, none, hP, .dup2Closed hold, rfl⟩ (ih _ h.2 _ pid t c (step_self hP))
  | close fd next ih =>
    intro l h s pid t c hP
    exact run_cons ⟨_, _, none, hP, .close, rfl⟩ (ih h _ pid _ c (step_self hP))
  | write fd text next ih =>
    intro l h s pid t c hP
    exact run_cons ⟨_, _, none, hP, .write, rfl⟩ (ih h _ pid t c (step_self hP))
  | script next ih =>
    intro l h s pid t c hP
    exact run_cons ⟨_, _, none, hP, .scriptEnd, rfl⟩ (ih h _ pid t c (step_self hP))
  | exec command failed _ =>
    intro l h s pid t c hP
    exact ⟨[], s, .nil, _, List.mem_of_getElem? hP, h, command, failed, rfl⟩
  | wait _ _ _ => exact fun h => h.elim
  | exit => exact fun h => h.elim
  | foreign => exact fun h => h.elim
  | ended => exact fun h => h.elim

end Executes

end Processes
