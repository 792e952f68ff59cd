/-
Pipes with what is in them: what the programs and the binaries of a system of processes do with their
descriptors, and which of their calls come back.

A read waits for bytes or for the last writer to go, a write for room or for the last reader to go. When the
pipes lead from lower ranks to higher ones and every rank writes to one pipe, the processes never all wait
for one another, and from every state they can come to their end.
-/
import Mathlib.Logic.Hydra
import Mathlib.Data.List.Perm.Basic
import Sbunix.Lib.Processes

namespace Processes

open Transition

variable {C L : Type}

/-! ## Reads and writes -/

/-- What a process does next: a read or a write on a descriptor, or anything that waits for no pipe. -/
inductive Use where
  | read (fd : Nat)
  | write (fd : Nat)
  | run
deriving DecidableEq, Repr

/-- A system with the bytes that are in each pipe and what each binary does next. -/
structure Flow (C L : Type) where
  system : System C L
  level : PipeId → Nat
  use : Nat → Use

/-- A program writes what it has to write; a write of no bytes does not wait. -/
def Flow.call (x : Flow C L) (pid : Nat) : Prog C L → Use
  | .foreign => x.use pid
  | .write fd (_ :: _) _ => .write fd
  | _ => .run

/-- Some process has the end open. -/
def Open (s : System C L) (e : End) : Prop := ∃ P ∈ s, ∃ fd, Slots.find P.table fd = some e

/-- The call of a process with these descriptors is on none of the pipes. -/
def Elsewhere (t : Table) : Use → Prop
  | .read fd => ∀ q, Slots.find t fd ≠ some (.read q)
  | .write fd => ∀ q, Slots.find t fd ≠ some (.write q)
  | .run => False

/-- The process has ended, and its descriptors are closed. -/
def Proc.finished (P : Proc C L) : Proc C L := ⟨.ended, P.label, [], P.made⟩

/-- What comes after the call. -/
def Prog.returned : Prog C L → Prog C L
  | .write _ _ next => next
  | p => p

/-- What comes after `n` bytes of the call. -/
def Prog.wrote (n : Nat) : Prog C L → Prog C L
  | .write fd text next => if n < text.length then .write fd (text.drop n) next else next
  | p => p

/-- There are `n` bytes to write; a binary has what it likes. -/
def Prog.Offers (n : Nat) : Prog C L → Prop
  | .write _ text _ => n ≤ text.length
  | _ => True

/-- Process `pid` goes on with a program, and with a use if it is a binary. -/
def Flow.goOn (x : Flow C L) (pid : Nat) (P : Proc C L) (p : Prog C L) (u : Use) : Flow C L :=
  { x with system := x.system.set pid { P with prog := p }, use := Function.update x.use pid u }

/-- `Moves K room x pid y`: process `pid` makes a step; `room` bytes go into a pipe. What a binary does
after that, it is free to choose. Files and terminals always answer. -/
inductive Moves (K : Kernel) (room : Nat) (x : Flow C L) (pid : Nat) : Flow C L → Prop
  | run {P : Proc C L} {s' : System C L} (hP : x.system[pid]? = some P) (hcall : x.call pid P.prog = .run)
      (h : Step K x.system pid s') (u : Use) :
      Moves K room x pid { x with system := s', use := Function.update x.use pid u }
  | file {P : Proc C L} (hP : x.system[pid]? = some P) (hcall : Elsewhere P.table (x.call pid P.prog))
      (u : Use) : Moves K room x pid (x.goOn pid P P.prog.returned u)
  | read {P : Proc C L} {fd n : Nat} {q : PipeId} (hP : x.system[pid]? = some P)
      (hcall : x.call pid P.prog = .read fd) (hfd : Slots.find P.table fd = some (.read q)) (hn : 0 < n)
      (hlevel : n ≤ x.level q) (u : Use) :
      Moves K room x pid { x.goOn pid P P.prog.returned u with
        level := Function.update x.level q (x.level q - n) }
  | endOfFile {P : Proc C L} {fd : Nat} {q : PipeId} (hP : x.system[pid]? = some P)
      (hcall : x.call pid P.prog = .read fd) (hfd : Slots.find P.table fd = some (.read q))
      (hlevel : x.level q = 0) (hwriter : ¬ Open x.system (.write q)) (u : Use) :
      Moves K room x pid (x.goOn pid P P.prog.returned u)
  | write {P : Proc C L} {fd n : Nat} {q : PipeId} (hP : x.system[pid]? = some P)
      (hcall : x.call pid P.prog = .write fd) (hfd : Slots.find P.table fd = some (.write q))
      (hreader : Open x.system (.read q)) (hn : 0 < n) (htext : P.prog.Offers n)
      (hroom : x.level q + n ≤ room) (u : Use) :
      Moves K room x pid { x.goOn pid P (P.prog.wrote n) u with
        level := Function.update x.level q (x.level q + n) }
  | brokenPipe {P : Proc C L} {fd : Nat} {q : PipeId} (hP : x.system[pid]? = some P)
      (hcall : x.call pid P.prog = .write fd) (hfd : Slots.find P.table fd = some (.write q))
      (hreader : ¬ Open x.system (.read q)) (u : Use) : Moves K room x pid (x.goOn pid P P.prog.returned u)
  | killed {P : Proc C L} {fd : Nat} {q : PipeId} (hP : x.system[pid]? = some P)
      (hcall : x.call pid P.prog = .write fd) (hfd : Slots.find P.table fd = some (.write q))
      (hreader : ¬ Open x.system (.read q)) : Moves K room x pid { x with system := x.system.set pid P.finished }

section Moves

variable {K : Kernel} {room pid : Nat} {x y : Flow C L} {P P' : Proc C L} {p : Prog C L} {es : List Nat}

/-- A step by which no child is started. -/
theorem step_alone (hP : x.system[pid]? = some P) (hdoes : Does K x.system pid P P' none) :
    Step K x.system pid (x.system.set pid P') := ⟨P, P', none, hP, hdoes, (List.append_nil _).symm⟩

/-- The process goes on where it is, or its program with what comes after a write, or after a part of it. -/
theorem goOn_step (u : Use) (hP : x.system[pid]? = some P)
    (hdoes : p = P.prog ∨ Does K x.system pid P { P with prog := p } none) :
    (x.goOn pid P p u).system = x.system ∨ Step K x.system pid (x.goOn pid P p u).system := by
  rcases hdoes with rfl | hdoes
  · obtain ⟨hlt, hget⟩ := List.getElem?_eq_some_iff.1 hP
    exact .inl (by rw [Flow.goOn, ← hget, List.set_getElem_self])
  · exact .inr (step_alone hP hdoes)

theorem does_returned (s : System C L) (pid : Nat) (P : Proc C L) : P.prog.returned = P.prog ∨
    Does K s pid P { P with prog := P.prog.returned } none := by
  obtain ⟨p, l, t, c⟩ := P
  cases p with
  | write fd text next => exact .inr .write
  | _ => exact .inl rfl

theorem does_wrote (s : System C L) (pid n : Nat) (P : Proc C L) : P.prog.wrote n = P.prog ∨
    Does K s pid P { P with prog := P.prog.wrote n } none := by
  obtain ⟨p, l, t, c⟩ := P
  cases p with
  | write fd text next =>
    right
    dsimp only [Prog.wrote]
    split
    · exact .writePart n
    · exact .write
  | _ => exact .inl rfl

theorem does_finished {s : System C L} {fd : Nat} (h : x.call pid P.prog = .write fd) :
    Does K s pid P P.finished none := by
  obtain ⟨p, l, t, c⟩ := P
  cases p with
  | write _ _ _ => exact .writeKilled
  | foreign => exact .foreignExit
  | _ => cases h

/-- The pipes aside, it is a step of the processes, or none. -/
theorem Moves.step (h : Moves K room x pid y) : y.system = x.system ∨ Step K x.system pid y.system := by
  cases h with
  | run _ _ h _ => exact .inr h
  | killed hP hcall _ _ => exact .inr (step_alone hP (does_finished hcall))
  | write hP _ _ _ _ _ _ u => exact goOn_step u hP (does_wrote _ _ _ _)
  | file hP _ u => exact goOn_step u hP (does_returned _ _ _)
  | read hP _ _ _ _ u => exact goOn_step u hP (does_returned _ _ _)
  | endOfFile hP _ _ _ _ u => exact goOn_step u hP (does_returned _ _ _)
  | brokenPipe hP _ _ _ u => exact goOn_step u hP (does_returned _ _ _)

/-- What every step of the processes keeps holds after every run. -/
theorem run_invariant (I : System C L → Prop) (h0 : I x.system)
    (hI : ∀ s pid s', I s → Step K s pid s' → I s') (h : Run (Moves K room) x es y) : I y.system :=
  h.invariant (fun x => I x.system) h0 fun x pid y hx hxy => by
    rcases hxy.step with he | hstep
    · exact he ▸ hx
    · exact hI _ _ _ hx hstep

/-- The process waits for the other end of a pipe. -/
inductive Blocked (room : Nat) (x : Flow C L) (pid : Nat) (P : Proc C L) : Prop
  | empty {fd : Nat} {q : PipeId} (hcall : x.call pid P.prog = .read fd)
      (hfd : Slots.find P.table fd = some (.read q)) (hlevel : x.level q = 0)
      (hwriter : Open x.system (.write q))
  | full {fd : Nat} {q : PipeId} (hcall : x.call pid P.prog = .write fd)
      (hfd : Slots.find P.table fd = some (.write q)) (hlevel : room ≤ x.level q)
      (hreader : Open x.system (.read q))

/-- A call on a descriptor comes back if the process does not wait, or a byte of it is written. -/
theorem comes_back_of_not_blocked (hP : x.system[pid]? = some P) (hcall : x.call pid P.prog ≠ .run)
    (h : ¬ Blocked room x pid P) : ∃ y p, Moves K room x pid y ∧ y.use pid = .run ∧
      y.system = x.system.set pid { P with prog := p } ∧ (p = P.prog.returned ∨ p = P.prog.wrote 1) := by
  have hback : ∀ p, (x.goOn pid P p .run).use pid = .run := fun p => Function.update_self ..
  cases huse : x.call pid P.prog with
  | run => exact absurd huse hcall
  | read fd =>
    by_cases hpipe : ∃ q, Slots.find P.table fd = some (.read q)
    · obtain ⟨q, hfd⟩ := hpipe
      by_cases hlevel : x.level q = 0
      · have hwriter : ¬ Open x.system (.write q) := fun hw => h (.empty huse hfd hlevel hw)
        exact ⟨_, _, .endOfFile hP huse hfd hlevel hwriter .run, hback _, rfl, .inl rfl⟩
      · exact ⟨_, _, .read hP huse hfd Nat.one_pos (Nat.pos_of_ne_zero hlevel) .run,
          hback P.prog.returned, rfl, .inl rfl⟩
    · have helse : Elsewhere P.table (x.call pid P.prog) := by
        rw [huse]
        exact fun q hfd => hpipe ⟨q, hfd⟩
      exact ⟨_, _, .file hP helse .run, hback _, rfl, .inl rfl⟩
  | write fd =>
    by_cases hpipe : ∃ q, Slots.find P.table fd = some (.write q)
    · obtain ⟨q, hfd⟩ := hpipe
      by_cases hreader : Open x.system (.read q)
      · have hroom : ¬ room ≤ x.level q := fun hfull => h (.full huse hfd hfull hreader)
        have htext : P.prog.Offers 1 := by
          cases hprog : P.prog with
          | write fd' text next =>
            rw [hprog] at huse
            cases text with
            | nil => cases huse
            | cons b text => exact Nat.succ_pos _
          | _ => trivial
        exact ⟨_, _, .write hP huse hfd hreader Nat.one_pos htext (by omega) .run,
          hback (P.prog.wrote 1), rfl, .inr rfl⟩
      · exact ⟨_, _, .brokenPipe hP huse hfd hreader .run, hback _, rfl, .inl rfl⟩
    · have helse : Elsewhere P.table (x.call pid P.prog) := by
        rw [huse]
        exact fun q hfd => hpipe ⟨q, hfd⟩
      exact ⟨_, _, .file hP helse .run, hback _, rfl, .inl rfl⟩

end Moves

/-! ## Founders and keepers -/

/-- What a process is by its label. -/
inductive Standing where
  | founder
  | keeper
  | outside
deriving DecidableEq, Repr

/-- The program makes no pipe and stays under its label, and waits for its own children only. `ok` are the
children it has. -/
def Keeper (ok : Int → Prop) : Prog C L → Prop
  | .mark _ _ => False
  | .pipe _ => False
  | .fork m next => m = none ∧ Keeper (fun _ => False) (next 0) ∧
    ∀ child : Nat, child ≠ 0 → Keeper (fun i => ok i ∨ i = child) (next child)
  | .dup2 _ new next => Keeper ok (next new) ∧ Keeper ok (next (-1))
  | .close _ next => Keeper ok next
  | .write _ _ next => Keeper ok next
  | .script next => Keeper ok next
  | .exec _ failed => Keeper ok failed
  | .wait pid next => ok pid ∧ Keeper ok next
  | .exit => True
  | .foreign => True
  | .ended => False

theorem Keeper.mono {ok ok' : Int → Prop} {p : Prog C L} (h : Keeper ok p) (hok : ∀ i, ok i → ok' i) :
    Keeper ok' p := by
  induction p generalizing ok ok' with
  | mark => exact h
  | pipe => exact h
  | fork m next ih =>
    exact ⟨h.1, h.2.1, fun child hchild => ih _ (h.2.2 child hchild) fun i hi => hi.imp_left (hok i)⟩
  | dup2 old new next ih => exact ⟨ih _ h.1 hok, ih _ h.2 hok⟩
  | close fd next ih => exact ih h hok
  | write fd text next ih => exact ih h hok
  | script next ih => exact ih h hok
  | exec command failed ih => exact ih h hok
  | wait pid next ih => exact ⟨hok pid h.1, ih h.2 hok⟩
  | exit => trivial
  | foreign => trivial
  | ended => exact h

section Standing

variable (standing : L → Standing)

/-- The program makes pipes and starts keepers, and waits for nothing before it is one. -/
def Founder : Prog C L → Prop
  | .mark m next => (standing m = .founder ∧ Founder next) ∨
    (standing m = .keeper ∧ Keeper (fun _ => False) next)
  | .pipe next => ∀ r w, Founder (next 0 r w)
  | .fork m next => (∃ l ∈ m, standing l = .keeper) ∧ Keeper (fun _ => False) (next 0) ∧
    ∀ child : Nat, child ≠ 0 → Founder (next child)
  | .dup2 _ new next => Founder (next new) ∧ Founder (next (-1))
  | .close _ next => Founder next
  | .exit => True
  | _ => False

/-- `i` is the id of a later process with the label. -/
def ChildOf (s : System C L) (pid : Nat) (l : L) (i : Int) : Prop :=
  ∃ child : Nat, i = child ∧ pid < child ∧ ∃ Q, s[child]? = some Q ∧ Q.label = l

/-- A process where it should be; `r` is the only founder. -/
inductive InOrder (r : Nat) (s : System C L) (i : Nat) (P : Proc C L) : Prop
  | ended (hprog : P.prog = .ended) (htable : P.table = [])
  | founder (hlabel : standing P.label = .founder) (hid : i = r) (hprog : Founder standing P.prog)
  | keeper (hlabel : standing P.label = .keeper) (hprog : Keeper (ChildOf s i P.label) P.prog)
  | outside (hlabel : standing P.label = .outside) (hprog : P.prog = .foreign)

/-- No pipe but one of process `r`. -/
def End.MadeBy (r : Nat) : End → Prop
  | .other _ => True
  | .read q => q.creator = r
  | .write q => q.creator = r

def MadeBy (r : Nat) (t : Table) : Prop := ∀ fd e, Slots.find t fd = some e → e.MadeBy r

/-- Every process is where it should be, and the pipes are all the founder's. -/
structure Orderly (r : Nat) (s : System C L) : Prop where
  inOrder : ∀ (i : Nat) P, s[i]? = some P → InOrder standing r s i P
  madeBy : ∀ (i : Nat) P, s[i]? = some P → MadeBy r P.table

end Standing

section Orderly

variable {K : Kernel} {standing : L → Standing} {r pid i : Nat} {s s' : System C L} {P P' Q : Proc C L}
  {child : Option (Proc C L)}

theorem InOrder.label_step (h : InOrder standing r s pid P) (hdoes : Does K s pid P P' child)
    (hkeeper : standing P.label = .keeper) : P'.label = P.label := by
  cases hdoes with
  | mark =>
    rcases h with hend | ⟨hl, -, -⟩ | ⟨-, hprog⟩ | ⟨hl, -⟩
    · cases hend
    · cases hkeeper.symm.trans hl
    · exact hprog.elim
    · cases hkeeper.symm.trans hl
  | _ => rfl

theorem ChildOf.step {l : L} (h : Orderly standing r s) (hP : s[pid]? = some P)
    (hdoes : Does K s pid P P' child) (hl : standing l = .keeper) {j : Int} (hj : ChildOf s i l j) :
    ChildOf (s.set pid P' ++ child.toList) i l j := by
  obtain ⟨c, rfl, hlt, Q, hQ, rfl⟩ := hj
  by_cases hc : c = pid
  · subst hc
    cases hP.symm.trans hQ
    exact ⟨c, rfl, hlt, P', step_self hP, (h.inOrder c P hP).label_step hdoes hl⟩
  · have hlen := (List.getElem?_eq_some_iff.1 hQ).1
    refine ⟨c, rfl, hlt, Q, ?_, rfl⟩
    rw [List.getElem?_append_left (by rwa [List.length_set]), List.getElem?_set_ne (Ne.symm hc), hQ]

theorem InOrder.step (h : Orderly standing r s) (hP : s[pid]? = some P) (hdoes : Does K s pid P P' child)
    (hQ : InOrder standing r s i Q) : InOrder standing r (s.set pid P' ++ child.toList) i Q := by
  rcases hQ with ⟨hprog, htable⟩ | ⟨hl, hid, hprog⟩ | ⟨hl, hprog⟩ | ⟨hl, hprog⟩
  · exact .ended hprog htable
  · exact .founder hl hid hprog
  · exact .keeper hl (hprog.mono fun j hj => hj.step h hP hdoes hl)
  · exact .outside hl hprog

theorem MadeBy.nil : MadeBy r [] := fun fd e hf => by cases hf

theorem MadeBy.set {t : Table} {e : End} (h : MadeBy r t) (he : e.MadeBy r) (fd : Nat) :
    MadeBy r (Slots.set t fd e) := by
  intro fd' e' hf
  rw [Slots.find_set] at hf
  split at hf
  · exact Option.some.inj hf ▸ he
  · exact h fd' e' hf

theorem MadeBy.erase {t : Table} (h : MadeBy r t) (fd : Nat) : MadeBy r (Slots.erase t fd) := by
  intro fd' e' hf
  rw [Slots.find_erase] at hf
  split at hf
  · cases hf
  · exact h fd' e' hf

theorem MadeBy.rearranged {t t' : Table} (h : MadeBy r t) (ht : Rearranged t t') : MadeBy r t' := by
  intro fd e hf
  rcases ht fd e hf with ⟨fd', hf'⟩ | ⟨file, rfl⟩
  · exact h fd' e hf'
  · trivial

/-- Only the founder makes pipes. -/
theorem Does.madeBy (hi : InOrder standing r s pid P) (hm : MadeBy r P.table) (hdoes : Does K s pid P P' child) :
    MadeBy r P'.table ∧ ∀ Q ∈ child, MadeBy r Q.table := by
  cases hdoes with
  | pipe =>
    have hid : pid = r := by
      rcases hi with hend | ⟨-, hid, -⟩ | ⟨-, hprog⟩ | ⟨-, hend⟩
      · cases hend
      · exact hid
      · exact hprog.elim
      · cases hend
    have hread : ∀ c, (End.read ⟨pid, c⟩).MadeBy r := fun _ => hid
    have hwrite : ∀ c, (End.write ⟨pid, c⟩).MadeBy r := fun _ => hid
    exact ⟨(hm.set (hread _) _).set (hwrite _) _, by simp⟩
  | dup2 h => exact ⟨hm.set (hm _ _ h) _, by simp⟩
  | close => exact ⟨hm.erase _, by simp⟩
  | fork => exact ⟨hm, by rintro Q ⟨⟩; exact hm⟩
  | writeKilled => exact ⟨.nil, by simp⟩
  | scriptCommand => exact ⟨hm, by rintro Q ⟨⟩; exact hm⟩
  | scriptBackground => exact ⟨hm, by rintro Q ⟨⟩; exact hm⟩
  | foreignFork => exact ⟨hm, by rintro Q ⟨⟩; exact hm⟩
  | exit => exact ⟨.nil, by simp⟩
  | foreignExit => exact ⟨.nil, by simp⟩
  | rearrange h => exact ⟨hm.rearranged h, by simp⟩
  | _ => exact ⟨hm, by simp⟩

theorem Founder.inOrder (hl : standing P.label = .founder) (hid : pid = r) (hprog : Founder standing P.prog)
    (hs : s ≠ []) (hdoes : Does K s pid P P' child) :
    InOrder standing r s' pid P' ∧ ∀ Q ∈ child, InOrder standing r s' s.length Q := by
  have hlen : s.length ≠ 0 := mt List.length_eq_zero_iff.1 hs
  cases hdoes with
  | mark =>
    rcases hprog with ⟨hm, hnext⟩ | ⟨hm, hnext⟩
    · exact ⟨.founder hm hid hnext, by simp⟩
    · exact ⟨.keeper hm (hnext.mono fun _ => False.elim), by simp⟩
  | pipe => exact ⟨.founder hl hid (hprog _ _), by simp⟩
  | fork =>
    obtain ⟨⟨m, rfl, hm⟩, hchild, hparent⟩ := hprog
    refine ⟨.founder hl hid (hparent _ hlen), ?_⟩
    rintro Q ⟨⟩
    exact .keeper hm (hchild.mono fun _ => False.elim)
  | dup2 _ => exact ⟨.founder hl hid hprog.1, by simp⟩
  | dup2Closed _ => exact ⟨.founder hl hid hprog.2, by simp⟩
  | close => exact ⟨.founder hl hid hprog, by simp⟩
  | exit => exact ⟨.ended rfl rfl, by simp⟩
  | _ => exact hprog.elim

theorem Keeper.inOrder (hl : standing P.label = .keeper) (hprog : Keeper (ChildOf s pid P.label) P.prog)
    (hs : s ≠ []) (hdoes : Does K s pid P P' child)
    (hok : ∀ j, ChildOf s pid P.label j → ChildOf s' pid P.label j)
    (hnew : ∀ Q ∈ child, Q.label = P.label → ChildOf s' pid P.label s.length) :
    InOrder standing r s' pid P' ∧ ∀ Q ∈ child, InOrder standing r s' s.length Q := by
  have hlen : s.length ≠ 0 := mt List.length_eq_zero_iff.1 hs
  have hbinary : ∀ {i : Nat} {t : Table} {c : Nat}, InOrder standing r s' i ⟨.foreign, P.label, t, c⟩ :=
    .keeper hl trivial
  cases hdoes with
  | mark => exact hprog.elim
  | pipe => exact hprog.elim
  | fork =>
    obtain ⟨rfl, hchild, hparent⟩ := hprog
    constructor
    · refine .keeper hl ((hparent _ hlen).mono fun j hj => ?_)
      rcases hj with hj | rfl
      · exact hok j hj
      · exact hnew _ rfl rfl
    · rintro Q ⟨⟩
      exact .keeper hl (hchild.mono fun _ => False.elim)
  | dup2 _ => exact ⟨.keeper hl (hprog.1.mono hok), by simp⟩
  | dup2Closed _ => exact ⟨.keeper hl (hprog.2.mono hok), by simp⟩
  | close => exact ⟨.keeper hl (Keeper.mono hprog hok), by simp⟩
  | write => exact ⟨.keeper hl (Keeper.mono hprog hok), by simp⟩
  | writePart _ => exact ⟨.keeper hl (Keeper.mono hprog hok), by simp⟩
  | writeKilled => exact ⟨.ended rfl rfl, by simp⟩
  | scriptWrite _ _ => exact ⟨.keeper hl (Keeper.mono hprog hok), by simp⟩
  | scriptCommand =>
    have hkeeps := Keeper.mono hprog hok
    exact ⟨.keeper hl ⟨hnew _ rfl rfl, hkeeps⟩, by rintro Q ⟨⟩; exact hbinary⟩
  | scriptBackground => exact ⟨.keeper hl (Keeper.mono hprog hok), by rintro Q ⟨⟩; exact hbinary⟩
  | scriptShell => exact ⟨hbinary, by simp⟩
  | scriptEnd => exact ⟨.keeper hl (Keeper.mono hprog hok), by simp⟩
  | exec => exact ⟨hbinary, by simp⟩
  | execMissing => exact ⟨.keeper hl (Keeper.mono hprog hok), by simp⟩
  | wait _ _ => exact ⟨.keeper hl (hprog.2.mono hok), by simp⟩
  | exit => exact ⟨.ended rfl rfl, by simp⟩
  | rearrange _ => exact ⟨hbinary, by simp⟩
  | foreignFork => exact ⟨hbinary, by rintro Q ⟨⟩; exact hbinary⟩
  | foreignExit => exact ⟨.ended rfl rfl, by simp⟩

theorem Does.inOrder (h : Orderly standing r s) (hP : s[pid]? = some P) (hdoes : Does K s pid P P' child) :
    InOrder standing r (s.set pid P' ++ child.toList) pid P' ∧
      ∀ Q ∈ child, InOrder standing r (s.set pid P' ++ child.toList) s.length Q := by
  have hs : s ≠ [] := fun he => by simp [he] at hP
  rcases h.inOrder pid P hP with ⟨hprog, -⟩ | ⟨hl, hid, hprog⟩ | ⟨hl, hprog⟩ | ⟨hl, hprog⟩
  · cases hdoes <;> cases hprog
  · exact Founder.inOrder hl hid hprog hs hdoes
  · refine Keeper.inOrder hl hprog hs hdoes (fun j hj => hj.step h hP hdoes hl) ?_
    rintro Q ⟨⟩ hQ
    exact ⟨s.length, rfl, (List.getElem?_eq_some_iff.1 hP).1, Q, step_child, hQ⟩
  · cases hdoes with
    | rearrange _ => exact ⟨.outside hl rfl, by simp⟩
    | foreignFork => exact ⟨.outside hl rfl, by rintro Q ⟨⟩; exact .outside hl rfl⟩
    | foreignExit => exact ⟨.ended rfl rfl, by simp⟩
    | _ => cases hprog

theorem Orderly.step (h : Orderly standing r s) (hstep : Step K s pid s') : Orderly standing r s' := by
  obtain ⟨P, P', child, hP, hdoes, rfl⟩ := hstep
  obtain ⟨hself, hchild⟩ := hdoes.inOrder h hP
  obtain ⟨hmade, hmade'⟩ := hdoes.madeBy (h.inOrder pid P hP) (h.madeBy pid P hP)
  constructor
  case inOrder =>
    intro i Q hQ
    rcases mem_step hP hQ with ⟨rfl, rfl⟩ | ⟨-, hold⟩ | ⟨rfl, hnew⟩
    · exact hself
    · exact (h.inOrder i Q hold).step h hP hdoes
    · exact hchild Q hnew
  case madeBy =>
    intro i Q hQ
    rcases mem_step hP hQ with ⟨rfl, rfl⟩ | ⟨-, hold⟩ | ⟨rfl, hnew⟩
    · exact hmade
    · exact h.madeBy i Q hold
    · exact hmade' Q hnew

end Orderly

/-! ## Some process can always go on -/

/-- The pipes lead from lower ranks to higher ones, one from each; no other process has an end of them. -/
structure Forward (standing : L → Standing) (rank : L → Nat) (bound : Nat) (s : System C L) : Prop where
  bounded : ∀ P ∈ s, rank P.label ≤ bound
  outside : ∀ P ∈ s, standing P.label = .outside → ∀ fd q,
    Slots.find P.table fd ≠ some (.read q) ∧ Slots.find P.table fd ≠ some (.write q)
  forward : ∀ P ∈ s, ∀ Q ∈ s, standing P.label = .keeper → standing Q.label = .keeper → Resting P.prog →
    Resting Q.prog → ∀ fd fd' q, Slots.find P.table fd = some (.write q) →
    Slots.find Q.table fd' = some (.read q) → rank P.label < rank Q.label
  single : ∀ P ∈ s, ∀ Q ∈ s, standing P.label = .keeper → standing Q.label = .keeper → Resting P.prog →
    Resting Q.prog → rank P.label = rank Q.label → ∀ fd fd' q q', Slots.find P.table fd = some (.write q) →
    Slots.find Q.table fd' = some (.write q') → q = q'

/-- A process inside that has not ended. -/
structure Live (standing : L → Standing) (s : System C L) (i : Nat) (P : Proc C L) : Prop where
  here : s[i]? = some P
  inside : standing P.label ≠ .outside
  going : P.prog ≠ .ended

/-- The process can go on: the child it waits for has ended, or its call does not wait. -/
inductive Free (room : Nat) (x : Flow C L) (i : Nat) (P : Proc C L) : Prop
  | wait {child : Nat} {next : Prog C L} {Q : Proc C L} (hprog : P.prog = .wait child next)
      (hQ : x.system[child]? = some Q) (hended : Q.prog = .ended)
  | call (hprog : P.prog = .foreign ∨ ∃ fd text next, P.prog = .write fd text next) (h : ¬ Blocked room x i P)

section Progress

variable {K : Kernel} {standing : L → Standing} {rank : L → Nat} {bound r room i : Nat} {x : Flow C L}
  {P : Proc C L}

theorem Resting.not_founder {p : Prog C L} (h : Resting p) : ¬ Founder standing p := by
  cases h <;> exact id

theorem Live.keeper (h : Live standing x.system i P) (hord : Orderly standing r x.system)
    (hrest : Resting P.prog) :
    standing P.label = .keeper ∧ Keeper (ChildOf x.system i P.label) P.prog := by
  rcases hord.inOrder i P h.here with ⟨hprog, -⟩ | ⟨-, -, hprog⟩ | ⟨hl, hprog⟩ | ⟨hl, -⟩
  · exact absurd hprog h.going
  · exact absurd hprog hrest.not_founder
  · exact ⟨hl, hprog⟩
  · exact absurd hl h.inside

/-- One who has an end of a pipe open is live. -/
theorem Orderly.live_of_open (hord : Orderly standing r x.system) (hfwd : Forward standing rank bound x.system)
    {e : End} {q : PipeId} (he : e = .read q ∨ e = .write q) (h : Open x.system e) :
    ∃ i P fd, Live standing x.system i P ∧ Slots.find P.table fd = some e := by
  obtain ⟨P, hP, fd, hfd⟩ := h
  obtain ⟨i, hi⟩ := List.mem_iff_getElem?.1 hP
  refine ⟨i, P, fd, ⟨hi, fun hout => ?_, fun hend => ?_⟩, hfd⟩
  · rcases he with rfl | rfl
    · exact (hfwd.outside P hP hout fd q).1 hfd
    · exact (hfwd.outside P hP hout fd q).2 hfd
  · rcases hord.inOrder i P hi with ⟨-, htable⟩ | ⟨-, -, hprog⟩ | ⟨-, hprog⟩ | ⟨-, hprog⟩
    · rw [htable] at hfd
      cases hfd
    · exact (hend ▸ hprog : Founder standing .ended)
    · exact (hend ▸ hprog : Keeper _ .ended)
    · cases hend.symm.trans hprog

section Stuck

-- no live process is free, and each of them rests
variable (hord : Orderly standing r x.system) (hfwd : Forward standing rank bound x.system) (hroom : 0 < room)
  (hrest : ∀ i P, Live standing x.system i P → Resting P.prog)
  (hstuck : ∀ i P, Live standing x.system i P → ¬ Free room x i P)

include hord hrest hstuck in
/-- Down the chain of the children that are waited for there is a process that waits for a pipe. -/
theorem exists_blocked (h : Live standing x.system i P) :
    ∃ j Q, Live standing x.system j Q ∧ Q.label = P.label ∧ Blocked room x j Q := by
  induction hd : x.system.length - i using Nat.strong_induction_on generalizing i P with
  | _ d ih =>
    obtain ⟨-, hprog⟩ := h.keeper hord (hrest i P h)
    generalize hp : P.prog = p at hprog
    rcases hp ▸ hrest i P h with ⟨pid, next⟩ | ⟨fd, text, next⟩ | _ | _
    · obtain ⟨⟨child, rfl, hlt, Q, hQ, hl⟩, -⟩ := hprog
      have hlen := (List.getElem?_eq_some_iff.1 hQ).1
      have hlive : Live standing x.system child Q :=
        ⟨hQ, hl ▸ h.inside, fun hend => hstuck i P h (.wait hp hQ hend)⟩
      obtain ⟨j, R, hR, hlR, hblocked⟩ := ih _ (by omega) hlive rfl
      exact ⟨j, R, hR, hlR.trans hl, hblocked⟩
    · exact ⟨i, P, h, rfl, by_contra fun hb => hstuck i P h (.call (.inr ⟨fd, text, next, hp⟩) hb)⟩
    · exact ⟨i, P, h, rfl, by_contra fun hb => hstuck i P h (.call (.inl hp) hb)⟩
    · exact absurd hp h.going

include hord hfwd hroom hrest hstuck in
/-- None of them waits for bytes: the one that writes them would wait for bytes too, of a lower rank. -/
theorem not_reading {fd : Nat} {q : PipeId} (h : Live standing x.system i P)
    (hfd : Slots.find P.table fd = some (.read q)) (hlevel : x.level q = 0)
    (hwriter : Open x.system (.write q)) : False := by
  induction hk : rank P.label using Nat.strong_induction_on generalizing i P fd q with
  | _ k ih =>
    obtain ⟨j, W, fd', hW, hfd'⟩ := hord.live_of_open hfwd (.inr rfl) hwriter
    obtain ⟨a, V, hV, hl, hblocked⟩ := exists_blocked hord hrest hstuck hW
    have hkeeper : ∀ {i P}, Live standing x.system i P → standing P.label = .keeper :=
      fun h => (h.keeper hord (hrest _ _ h)).1
    have hlt := hfwd.forward W (List.mem_of_getElem? hW.here) P (List.mem_of_getElem? h.here) (hkeeper hW)
      (hkeeper h) (hrest j W hW) (hrest i P h) fd' fd q hfd' hfd
    rcases hblocked with ⟨_, hread, hlevel', hwriter'⟩ | ⟨_, hwrite, hfull, _⟩
    · exact ih _ (by rw [hl]; omega) hV hread hlevel' hwriter' rfl
    · -- the one pipe its rank writes to is empty
      have hq := hfwd.single W (List.mem_of_getElem? hW.here) V (List.mem_of_getElem? hV.here) (hkeeper hW)
        (hkeeper hV) (hrest j W hW) (hrest a V hV) (by rw [hl]) fd' _ q _ hfd' hwrite
      subst hq
      omega

include hord hfwd hroom hrest hstuck in
/-- The last of them would wait for room in a pipe whose reader is of a higher rank. -/
theorem not_live {i : Nat} {P : Proc C L} : ¬ Live standing x.system i P := by
  intro h
  induction hk : bound - rank P.label using Nat.strong_induction_on generalizing i P with
  | _ k ih =>
    obtain ⟨a, V, hV, hl, hblocked⟩ := exists_blocked hord hrest hstuck h
    rcases hblocked with ⟨_, hread, hlevel, hwriter⟩ | ⟨_, hwrite, -, hreader⟩
    · exact not_reading hord hfwd hroom hrest hstuck hV hread hlevel hwriter
    · obtain ⟨j, R, fd', hR, hfd'⟩ := hord.live_of_open hfwd (.inl rfl) hreader
      have hlt := hfwd.forward V (List.mem_of_getElem? hV.here) R (List.mem_of_getElem? hR.here)
        (hV.keeper hord (hrest a V hV)).1 (hR.keeper hord (hrest j R hR)).1 (hrest a V hV) (hrest j R hR)
        _ fd' _ hwrite hfd'
      have := hfwd.bounded R (List.mem_of_getElem? hR.here)
      exact ih _ (by rw [hl] at hlt; omega) hR rfl

end Stuck

/-- While the live processes rest and one is left, one of them is free. -/
theorem exists_free (hord : Orderly standing r x.system) (hfwd : Forward standing rank bound x.system)
    (hroom : 0 < room) (hrest : ∀ i P, Live standing x.system i P → Resting P.prog)
    (h : Live standing x.system i P) : ∃ j Q, Live standing x.system j Q ∧ Free room x j Q := by
  by_contra hnone
  exact not_live hord hfwd hroom hrest (fun j Q hQ hfree => hnone ⟨j, Q, hQ, hfree⟩) h

end Progress

/-! ## They can come to their end -/

/-- The processes outside are as they were. -/
def OutsideKept (standing : L → Standing) (s s' : System C L) : Prop :=
  ∀ (i : Nat) P, s[i]? = some P → standing P.label = .outside → s'[i]? = some P

/-- The first program is what the second one can go on with, in its process or in a child. -/
inductive Behind : Prog C L → Prog C L → Prop
  | mark {m : L} {next : Prog C L} : Behind next (.mark m next)
  | pipe {next : Int → Nat → Nat → Prog C L} (i : Int) (r w : Nat) : Behind (next i r w) (.pipe next)
  | fork {m : Option L} {next : Int → Prog C L} (i : Int) : Behind (next i) (.fork m next)
  | dup2 {old new : Nat} {next : Int → Prog C L} (i : Int) : Behind (next i) (.dup2 old new next)
  | close {fd : Nat} {next : Prog C L} : Behind next (.close fd next)
  | write {fd : Nat} {text : List UInt8} {next : Prog C L} : Behind next (.write fd text next)
  | writePart {fd : Nat} {text text' : List UInt8} {next : Prog C L} (h : text'.length < text.length) :
    Behind (.write fd text' next) (.write fd text next)
  | script {next : Prog C L} : Behind next (.script next)
  | exec {command : C} {failed : Prog C L} : Behind .foreign (.exec command failed)
  | wait {pid : Int} {next : Prog C L} : Behind next (.wait pid next)
  | ending {p : Prog C L} (h : p ≠ .ended) : Behind .ended p

section Behind

variable {s s' : System C L} {pid : Nat} {P P' : Proc C L} {child : Option (Proc C L)}

theorem acc_ended : Acc (Behind (C := C) (L := L)) .ended := .intro _ fun p h => by
  cases h with
  | ending h => exact absurd rfl h

theorem acc_write {next : Prog C L} (h : Acc Behind next) (fd : Nat) (text : List UInt8) :
    Acc Behind (.write fd text next) := by
  induction hn : text.length using Nat.strong_induction_on generalizing text with
  | _ n ih =>
    refine .intro _ fun p hp => ?_
    cases hp with
    | write => exact h
    | writePart hlt => exact ih _ (hn ▸ hlt) _ rfl
    | ending _ => exact acc_ended

/-- No program goes on for ever. -/
theorem wellFounded_behind : WellFounded (Behind (C := C) (L := L)) := by
  have hforeign : Acc (Behind (C := C) (L := L)) .foreign := .intro _ fun p h => by
    cases h with
    | ending _ => exact acc_ended
  refine ⟨fun p => ?_⟩
  induction p with
  | write fd text next ih => exact acc_write ih fd text
  | ended => exact acc_ended
  | foreign => exact hforeign
  | mark m next ih =>
    refine .intro _ fun p h => ?_
    cases h with
    | mark => exact ih
    | ending _ => exact acc_ended
  | pipe next ih =>
    refine .intro _ fun p h => ?_
    cases h with
    | pipe i r w => exact ih i r w
    | ending _ => exact acc_ended
  | fork m next ih =>
    refine .intro _ fun p h => ?_
    cases h with
    | fork i => exact ih i
    | ending _ => exact acc_ended
  | dup2 old new next ih =>
    refine .intro _ fun p h => ?_
    cases h with
    | dup2 i => exact ih i
    | ending _ => exact acc_ended
  | close fd next ih =>
    refine .intro _ fun p h => ?_
    cases h with
    | close => exact ih
    | ending _ => exact acc_ended
  | script next ih =>
    refine .intro _ fun p h => ?_
    cases h with
    | script => exact ih
    | ending _ => exact acc_ended
  | exec command failed _ =>
    refine .intro _ fun p h => ?_
    cases h with
    | exec => exact hforeign
    | ending _ => exact acc_ended
  | wait pid next ih =>
    refine .intro _ fun p h => ?_
    cases h with
    | wait => exact ih
    | ending _ => exact acc_ended
  | exit =>
    refine .intro _ fun p h => ?_
    cases h with
    | ending _ => exact acc_ended

/-- The programs of all processes. -/
def progs (s : System C L) : Multiset (Prog C L) := ↑(s.map Proc.prog)

open scoped List in
/-- In the place of one program there are smaller ones. -/
theorem cutExpand_progs (hP : s[pid]? = some P) (hself : Behind P'.prog P.prog)
    (hchild : ∀ Q ∈ child, Behind Q.prog P.prog) :
    Relation.CutExpand Behind (progs (s.set pid P' ++ child.toList)) (progs s) := by
  obtain ⟨hlt, rfl⟩ := List.getElem?_eq_some_iff.1 hP
  refine ⟨↑((P' :: child.toList).map Proc.prog), s[pid].prog, fun p hp => ?_, ?_⟩
  · obtain ⟨Q, hQ, rfl⟩ := List.mem_map.1 (Multiset.mem_coe.1 hp)
    rcases List.mem_cons.1 hQ with rfl | hQ
    · exact hself
    · exact hchild Q (by simpa using hQ)
  · have hnew : List.Perm (s.set pid P') (P' :: s.eraseIdx pid) := List.set_perm_cons_eraseIdx hlt P'
    have hold : List.Perm s (s[pid] :: s.eraseIdx pid) := (List.getElem_cons_eraseIdx_perm hlt).symm
    have hall : List.Perm ((s.set pid P' ++ child.toList) ++ [s[pid]]) (s ++ P' :: child.toList) :=
      calc (s.set pid P' ++ child.toList) ++ [s[pid]]
        _ ~ s[pid] :: (s.set pid P' ++ child.toList) := List.perm_append_singleton _ _
        _ ~ s[pid] :: (P' :: s.eraseIdx pid ++ child.toList) := ((hnew.append_right _).cons _)
        _ ~ P' :: (s[pid] :: s.eraseIdx pid ++ child.toList) := .swap _ _ _
        _ ~ P' :: (s ++ child.toList) := ((hold.symm.append_right _).cons _)
        _ ~ s ++ P' :: child.toList := List.perm_middle.symm
    have hmap := hall.map Proc.prog
    have hright : (s ++ P' :: child.toList).map Proc.prog =
        s.map Proc.prog ++ (P' :: child.toList).map Proc.prog := List.map_append
    rw [List.map_append, hright] at hmap
    exact Multiset.coe_eq_coe.2 hmap

end Behind

section End

variable {K : Kernel} {standing : L → Standing} {rank : L → Nat} {bound r room i : Nat} {x y : Flow C L}
  {P P' : Proc C L} {child : Option (Proc C L)} {s s' s'' : System C L}

theorem OutsideKept.refl (s : System C L) : OutsideKept standing s s := fun _ _ h _ => h

theorem OutsideKept.trans (h : OutsideKept standing s s') (h' : OutsideKept standing s' s'') :
    OutsideKept standing s s'' := fun i P hP hl => h' i P (h i P hP hl) hl

theorem Live.outsideKept (h : Live standing s i P) (P' : Proc C L) (child : Option (Proc C L)) :
    OutsideKept standing s (s.set i P' ++ child.toList) := by
  intro j Q hQ hl
  have hne : i ≠ j := by
    rintro rfl
    cases h.here.symm.trans hQ
    exact h.inside hl
  have hlt := (List.getElem?_eq_some_iff.1 hQ).1
  rw [List.getElem?_append_left (by rwa [List.length_set]), List.getElem?_set_ne hne, hQ]

/-- Some steps by which the programs get smaller, and the processes outside do not move. -/
def Advances (K : Kernel) (standing : L → Standing) (room : Nat) (x : Flow C L) : Prop :=
  ∃ es y, Run (Moves K room) x es y ∧ Relation.CutExpand Behind (progs y.system) (progs x.system) ∧
    OutsideKept standing x.system y.system

/-- A step of the processes that waits for no pipe. -/
theorem Live.advances (h : Live standing x.system i P) (hcall : x.call i P.prog = .run)
    (hdoes : Does K x.system i P P' child) (hself : Behind P'.prog P.prog)
    (hchild : ∀ Q ∈ child, Behind Q.prog P.prog) : Advances K standing room x :=
  ⟨_, _, .snoc .nil (.run h.here hcall ⟨P, P', child, h.here, hdoes, rfl⟩ .run),
    cutExpand_progs h.here hself hchild, h.outsideKept P' child⟩

/-- One that rests nowhere makes its next call. -/
theorem Live.advances_of_not_resting (h : Live standing x.system i P) (hrest : ¬ Resting P.prog) :
    Advances K standing room x := by
  obtain ⟨p, l, t, c⟩ := P
  cases p with
  | mark m next => exact h.advances rfl .mark .mark (by simp)
  | pipe next => exact h.advances rfl .pipe (.pipe _ _ _) (by simp)
  | fork m next => exact h.advances rfl .fork (.fork _) (by rintro Q ⟨⟩; exact .fork 0)
  | dup2 old new next =>
    cases hold : Slots.find t old with
    | some e => exact h.advances rfl (.dup2 hold) (.dup2 _) (by simp)
    | none => exact h.advances rfl (.dup2Closed hold) (.dup2 _) (by simp)
  | close fd next => exact h.advances rfl .close .close (by simp)
  | script next => exact h.advances rfl .scriptEnd .script (by simp)
  | exec command failed => exact h.advances rfl .exec .exec (by simp)
  | exit => exact h.advances rfl .exit (.ending (by simp)) (by simp)
  | write fd text next => exact absurd (.write fd text next) hrest
  | wait pid next => exact absurd (.wait pid next) hrest
  | foreign => exact absurd .foreign hrest
  | ended => exact absurd .ended hrest

/-- A binary whose call comes back exits. -/
theorem Live.advances_of_binary (h : Live standing x.system i P) (hprog : P.prog = .foreign)
    (hfree : ¬ Blocked room x i P) : Advances K standing room x := by
  by_cases hcall : x.call i P.prog = .run
  · obtain ⟨p, l, t, c⟩ := P
    cases hprog
    exact h.advances hcall .foreignExit (.ending (by simp)) (by simp)
  · obtain ⟨y, p, hmoves, huse, hsystem, hp⟩ := comes_back_of_not_blocked (K := K) h.here hcall hfree
    obtain ⟨q, l, t, c⟩ := P
    cases hprog
    have hp' : p = .foreign := by rcases hp with rfl | rfl <;> rfl
    obtain ⟨hlt, hget⟩ := List.getElem?_eq_some_iff.1 h.here
    have hsame : y.system = x.system := by rw [hsystem, hp', ← hget, List.set_getElem_self]
    have hlive : Live standing y.system i ⟨.foreign, l, t, c⟩ := hsame ▸ h
    obtain ⟨es, z, hrun, hcut, hkept⟩ : Advances K standing room y :=
      hlive.advances huse .foreignExit (.ending (by simp)) (by simp)
    rw [hsame] at hcut hkept
    exact ⟨_, z, .trans (.snoc .nil hmoves) hrun, hcut, hkept⟩

/-- A program that has something to write writes a byte of it, or the write comes back. -/
theorem Live.advances_of_write {fd : Nat} {text : List UInt8} {next : Prog C L}
    (h : Live standing x.system i P) (hprog : P.prog = .write fd text next) (hfree : ¬ Blocked room x i P) :
    Advances K standing room x := by
  cases text with
  | nil =>
    obtain ⟨p, l, t, c⟩ := P
    cases hprog
    exact h.advances rfl .write .write (by simp)
  | cons b text =>
    have hcall : x.call i P.prog ≠ .run := by rw [hprog]; nofun
    obtain ⟨y, p, hmoves, -, hsystem, hp⟩ := comes_back_of_not_blocked (K := K) h.here hcall hfree
    have hbehind : Behind p P.prog := by
      rw [hprog] at hp ⊢
      rcases hp with rfl | rfl
      · exact .write
      · dsimp only [Prog.wrote]
        split
        · exact .writePart (by simp)
        · exact .write
    have hy : y.system = x.system.set i { P with prog := p } ++ (none : Option (Proc C L)).toList := by
      simpa using hsystem
    refine ⟨_, y, .snoc .nil hmoves, ?_, ?_⟩
    · rw [hy]
      exact cutExpand_progs h.here hbehind (by simp)
    · rw [hy]
      exact h.outsideKept _ _

theorem Free.advances (hfree : Free room x i P) (h : Live standing x.system i P) : Advances K standing room x := by
  rcases hfree with ⟨hprog, hQ, hended⟩ | ⟨hprog | ⟨fd, text, next, hprog⟩, hblocked⟩
  · obtain ⟨p, l, t, c⟩ := P
    cases hprog
    exact h.advances rfl (.wait hQ hended) .wait (by simp)
  · exact h.advances_of_binary hprog hblocked
  · exact h.advances_of_write hprog hblocked

/-- While a process inside is going on, one can make a step by which the programs get smaller. -/
theorem Live.exists_advance (hroom : 0 < room) (hord : Orderly standing r x.system)
    (hfwd : Forward standing rank bound x.system) (h : Live standing x.system i P) :
    Advances K standing room x := by
  by_cases hrest : ∀ i P, Live standing x.system i P → Resting P.prog
  · obtain ⟨j, Q, hQ, hfree⟩ := exists_free hord hfwd hroom hrest h
    exact hfree.advances hQ
  · obtain ⟨j, Q, hQ, hnot⟩ : ∃ j Q, Live standing x.system j Q ∧ ¬ Resting Q.prog := by
      by_contra hnone
      exact hrest fun j Q hQ => by_contra fun hnot => hnone ⟨j, Q, hQ, hnot⟩
    exact hQ.advances_of_not_resting hnot

/-- From every state in which the processes are in order they can come to their end, all of them, and the
processes outside have not moved. By induction on the programs that are left. -/
theorem can_end (hroom : 0 < room) (hord : Orderly standing r x.system)
    (hfwd : ∀ es y, Run (Moves K room) x es y → Forward standing rank bound y.system) :
    ∃ es y, Run (Moves K room) x es y ∧
      (∀ P ∈ y.system, standing P.label ≠ .outside → P.prog = .ended) ∧
      OutsideKept standing x.system y.system := by
  induction hm : progs x.system using wellFounded_behind.cutExpand.induction generalizing x with
  | _ m ih =>
    by_cases hlive : ∃ i P, Live standing x.system i P
    · obtain ⟨i, P, hP⟩ := hlive
      obtain ⟨es, y, hrun, hcut, hkept⟩ := hP.exists_advance (K := K) hroom hord (hfwd [] x .nil)
      have hord' := run_invariant (Orderly standing r) hord (fun _ _ _ h hs => h.step hs) hrun
      obtain ⟨es', z, hrun', hover, hkept'⟩ := ih _ (hm ▸ hcut) hord'
        (fun es' z hz => hfwd _ z (hrun.trans hz)) rfl
      exact ⟨_, z, hrun.trans hrun', hover, hkept.trans hkept'⟩
    · refine ⟨[], x, .nil, fun P hP hl => ?_, .refl _⟩
      obtain ⟨i, hi⟩ := List.mem_iff_getElem?.1 hP
      by_contra hgoing
      exact hlive ⟨i, P, hi, hl, hgoing⟩

end End

end Processes
