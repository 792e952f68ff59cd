/-
The assembly entry stubs of the interrupt gates (sys/idt.s, sys/pit.s, sys/ps2Controller.s): their
instructions, run on an arbitrary register file and stack, with the C helper they call as a
parameter. A helper that returns keeps to the System V convention; the body of the default stub's
helper (sys/idt.c) is an `iretq`, which takes the return address and four of the saved registers
for an interrupt frame.

The stubs pop in the order in which they pushed, so the register file comes back mirrored, and
`r8` and `r9` are not saved: what the interrupted code gets back is exactly characterised.
-/
import Sbunix.Lib.SaveStack

namespace Sbunix.Interrupt

open SaveStack

/-! ## The machine -/

/-- The general-purpose registers; `rsp` is the stack pointer of the frame. -/
inductive Reg
  | rax | rcx | rdx | rbx | rsi | rdi | rbp | r8 | r9 | r10 | r11 | r12 | r13 | r14 | r15
  deriving DecidableEq, Repr

abbrev Word := BitVec 64

abbrev Machine := Frame Reg Word

/-- The C functions the stubs call. -/
inductive Symbol
  | helperInterruptServiceRoutine | helperCalculateTimer | helperKeyboardHandler
  deriving DecidableEq, Repr

inductive Instr
  | push (r : Reg)
  | pop (r : Reg)
  | call (f : Symbol)
  | iretq
  | addqRsp (n : Word)
  deriving DecidableEq, Repr

def calleeSaved : List Reg := [.rbx, .rbp, .r12, .r13, .r14, .r15]

/-- What a caller's frame holds above the return address of a helper: the thirteen registers
saved by the stub and the five quadwords of the CPU's interrupt frame. -/
def callerWords : Nat := 18

/-- A C function called without arguments, from the caller's view: it returns with the stack
pointer it was called with, the callee-saved registers and the caller's frame as they were; every
other register and every other word of memory may have changed. -/
structure Helper where
  run : Machine → Machine
  sp : ∀ s, (run s).sp = s.sp
  saved : ∀ s, ∀ r ∈ calleeSaved, (run s).regs r = s.regs r
  frame : ∀ s, ∀ i < callerWords,
    (run s).stack (s.sp + BitVec.ofNat 64 (8 * i)) = s.stack (s.sp + BitVec.ofNat 64 (8 * i))

/-- A callee returns to the stub, or executes an `iretq` of its own before it would return. -/
inductive Callee
  | returns (h : Helper)
  | iretq

/-- The five quadwords that `iretq` pops. -/
structure IretFrame where
  rip : Word
  cs : Word
  rflags : Word
  rsp : Word
  ss : Word
  deriving DecidableEq, Repr

def iretFrame (s : Machine) : IretFrame :=
  ⟨s.word 0, s.word 1, s.word 2, s.word 3, s.word 4⟩

/-- The kernel as linked, with the address behind each stub's call, and the processor: the frames
that its `iretq` loads are those with selectors, flags and addresses it accepts. -/
structure Linkage where
  callee : Symbol → Callee
  behind : Symbol → Word
  loads : IretFrame → Bool

/-- Where a run of a stub stops. -/
inductive Outcome
  | iretq (s : Machine)
  | fault (s : Machine)
  | ranOff (s : Machine)

/-- Run instructions up to the stub's `iretq`. A returning call leaves the stack pointer where it
was: the return address it pushes is popped again by the callee's `ret`. A callee's `iretq` pops
that address as the instruction pointer, and with it the stack pointer. -/
def exec (k : Linkage) : List Instr → Machine → Outcome
  | [], s => .ranOff s
  | .push r :: code, s => exec k code (s.push r)
  | .pop r :: code, s => exec k code (s.pop r)
  | .call f :: code, s =>
    match k.callee f with
    | .returns h => exec k code (h.run s)
    | .iretq =>
      let s := s.pushWord (k.behind f)
      let frame := iretFrame s
      -- by `iretFrame_rip` it goes on with `code`
      if k.loads frame then exec k code (s.moveTo frame.rsp) else .fault s
  | .iretq :: _, s => .iretq s
  | .addqRsp n :: code, s => exec k code { s with sp := s.sp + n }

theorem iretFrame_rip (s : Machine) (a : Word) : (iretFrame (s.pushWord a)).rip = a :=
  Frame.word_pushWord_zero s a

/-! ## The stubs -/

/-- The body the three stubs share, up to the helper they call. -/
def interruptServiceRoutine (helper : Symbol) : List Instr :=
  [.push .rax, .push .rcx, .push .rdx, .push .rbx, .push .rsi, .push .rdi, .push .r10, .push .r11,
    .push .r12, .push .r13, .push .r14, .push .r15, .push .rbp,
    .call helper,
    .pop .rax, .pop .rcx, .pop .rdx, .pop .rbx, .pop .rsi, .pop .rdi, .pop .r10, .pop .r11,
    .pop .r12, .pop .r13, .pop .r14, .pop .r15, .pop .rbp,
    .iretq,
    .addqRsp 8]

def defaultInterruptServiceRoutine : List Instr :=
  interruptServiceRoutine .helperInterruptServiceRoutine

def pitInterruptServiceRoutine : List Instr :=
  interruptServiceRoutine .helperCalculateTimer

def keyboardInterruptServiceRoutine : List Instr :=
  interruptServiceRoutine .helperKeyboardHandler

/-- The three stubs: the helper's symbol determines the stub. -/
def stubOf : Symbol → List Instr
  | .helperInterruptServiceRoutine => defaultInterruptServiceRoutine
  | .helperCalculateTimer => pitInterruptServiceRoutine
  | .helperKeyboardHandler => keyboardInterruptServiceRoutine

/-- The kernel as linked: the body of `helperInterruptServiceRoutine` is one `iretq`
(sys/idt.c), the timer and keyboard helpers are ordinary functions. -/
def linked (timer keyboard : Helper) : Symbol → Callee
  | .helperInterruptServiceRoutine => .iretq
  | .helperCalculateTimer => .returns timer
  | .helperKeyboardHandler => .returns keyboard

/-- The registers a stub pushes, in the order of the pushes and of the pops. -/
def savedRegs : List Reg :=
  [.rax, .rcx, .rdx, .rbx, .rsi, .rdi, .r10, .r11, .r12, .r13, .r14, .r15, .rbp]

theorem stubOf_eq (f : Symbol) : stubOf f =
    savedRegs.map .push ++ .call f :: (savedRegs.map .pop ++ [.iretq, .addqRsp 8]) := by
  cases f <;> rfl

/-! ## Running a stub -/

theorem exec_pushes (k : Linkage) (rs : List Reg) (code : List Instr) (s : Machine) :
    exec k (rs.map .push ++ code) s = exec k code (s.pushAll rs) := by
  induction rs generalizing s with
  | nil => rfl
  | cons r rs ih => exact ih (s.push r)

theorem exec_pops (k : Linkage) (rs : List Reg) (code : List Instr) (s : Machine) :
    exec k (rs.map .pop ++ code) s = exec k code (s.popAll rs) := by
  induction rs generalizing s with
  | nil => rfl
  | cons r rs ih => exact ih (s.pop r)

/-- A stub whose helper returns reaches its own `iretq`. -/
theorem exec_stub_returns {k : Linkage} {f : Symbol} {h : Helper} (hf : k.callee f = .returns h) (s : Machine) :
    exec k (stubOf f) s = .iretq ((h.run (s.pushAll savedRegs)).popAll savedRegs) := by
  rw [stubOf_eq, exec_pushes, exec, hf]
  simp only
  rw [exec_pops, exec]

/-- The registers a stub has saved, as they lie on the stack. -/
theorem saved_words (s : Machine) :
    (s.pushAll savedRegs).words savedRegs.length = (savedRegs.map s.regs).reverse := by
  have hpush := Frame.words_pushAll savedRegs s 0 (by decide)
  rwa [Nat.add_zero, Frame.words_zero, List.append_nil] at hpush

theorem saved_word (s : Machine) {i : Nat} (hi : i < savedRegs.length) :
    ((savedRegs.map s.regs).reverse)[i]? = some ((s.pushAll savedRegs).word i) := by
  rw [← saved_words, Frame.getElem?_words _ _ _ hi]

/-- What an `iretq` in the callee finds. -/
theorem iretFrame_stub (s : Machine) (a : Word) : iretFrame ((s.pushAll savedRegs).pushWord a) =
    ⟨a, s.regs .rbp, s.regs .r15, s.regs .r14, s.regs .r13⟩ := by
  have hword : ∀ {i : Nat} {r : Reg}, i < 4 → savedRegs.reverse[i]? = some r →
      ((s.pushAll savedRegs).pushWord a).word (i + 1) = s.regs r := by
    intro i r hi hr
    have hsaved := saved_word s (Nat.lt_of_lt_of_le hi (by decide : 4 ≤ savedRegs.length))
    rw [← List.map_reverse, List.getElem?_map, hr, Option.map_some] at hsaved
    rw [Frame.word_pushWord_succ _ _ (by omega)]
    exact (Option.some.inj hsaved).symm
  rw [iretFrame, IretFrame.mk.injEq]
  exact ⟨Frame.word_pushWord_zero _ a, hword (by decide) rfl, hword (by decide) rfl, hword (by decide) rfl,
    hword (by decide) rfl⟩

/-- A stub whose callee executes `iretq` goes on behind its call with the stack pointer that was in
`r14`, if the processor takes `rbp`, `r13` and `r15` for selectors and flags. -/
theorem exec_stub_iretq {k : Linkage} {f : Symbol} (hf : k.callee f = .iretq) (s : Machine) :
    exec k (stubOf f) s =
      if k.loads ⟨k.behind f, s.regs .rbp, s.regs .r15, s.regs .r14, s.regs .r13⟩ then
        .iretq ((((s.pushAll savedRegs).pushWord (k.behind f)).moveTo (s.regs .r14)).popAll savedRegs)
      else .fault ((s.pushAll savedRegs).pushWord (k.behind f)) := by
  rw [stubOf_eq, exec_pushes, exec, hf]
  dsimp only
  rw [iretFrame_stub, exec_pops, exec]

/-- Whatever the helper does, the stack pointer is back at the interrupt frame. -/
theorem stub_sp (h : Helper) (s : Machine) :
    ((h.run (s.pushAll savedRegs)).popAll savedRegs).sp = s.sp := by
  rw [Frame.popAll_sp, h.sp, Frame.pushAll_sp]
  bv_omega

/-- The words a stub pops are the registers it pushed, last pushed first. -/
theorem stub_words (h : Helper) (s : Machine) :
    (h.run (s.pushAll savedRegs)).words savedRegs.length = (savedRegs.map s.regs).reverse := by
  have hframe : (h.run (s.pushAll savedRegs)).words savedRegs.length =
      (s.pushAll savedRegs).words savedRegs.length :=
    Frame.words_congr _ _ _ (h.sp _) fun i hi => by
      have := h.frame (s.pushAll savedRegs) i (Nat.lt_of_lt_of_le hi (by decide))
      rwa [h.sp]
  rw [hframe, saved_words]

theorem stub_regs (h : Helper) (s : Machine) :
    ((h.run (s.pushAll savedRegs)).popAll savedRegs).regs =
      Frame.assign (h.run (s.pushAll savedRegs)).regs savedRegs (savedRegs.map s.regs).reverse := by
  rw [Frame.popAll_regs, stub_words]

/-! ## What the interrupted code gets back -/

/-- The run reaches the stub's own `iretq` at the interrupt frame with every register unchanged. -/
def Restores (k : Linkage) (f : Symbol) (s : Machine) : Prop :=
  ∃ s', exec k (stubOf f) s = .iretq s' ∧ s'.sp = s.sp ∧ ∀ r, s'.regs r = s.regs r

/-- The saved registers hold values that read the same in both directions. -/
def Mirrored (g : Reg → Word) : Prop :=
  g .rax = g .rbp ∧ g .rcx = g .r15 ∧ g .rdx = g .r14 ∧ g .rbx = g .r13 ∧ g .rsi = g .r12 ∧
    g .rdi = g .r11

theorem mirrored_iff (g : Reg → Word) :
    (savedRegs.map g).reverse = savedRegs.map g ↔ Mirrored g := by
  simp only [savedRegs, Mirrored, List.map_cons, List.map_nil, List.reverse_cons, List.reverse_nil,
    List.nil_append, List.cons_append, List.cons.injEq, and_true]
  constructor
  · rintro ⟨h1, h2, h3, h4, h5, h6, -⟩
    exact ⟨h1.symm, h2.symm, h3.symm, h4.symm, h5.symm, h6.symm⟩
  · rintro ⟨h1, h2, h3, h4, h5, h6⟩
    exact ⟨h1.symm, h2.symm, h3.symm, h4.symm, h5.symm, h6.symm, trivial, h6, h5, h4, h3, h2, h1⟩

/-- A register a stub does not save is the helper's to change. -/
theorem stub_unsaved (h : Helper) (s : Machine) {r : Reg} (hr : r ∉ savedRegs) :
    ((h.run (s.pushAll savedRegs)).popAll savedRegs).regs r = (h.run (s.pushAll savedRegs)).regs r := by
  rw [stub_regs, Frame.assign_of_notMem _ _ _ hr]

theorem saved_or_scratch (r : Reg) : r ∈ savedRegs ∨ r = .r8 ∨ r = .r9 := by
  cases r <;> decide

section Restores

variable {k : Linkage} {f : Symbol} {h : Helper} {s : Machine}

/-- What is loaded restores the saved registers exactly if they are mirrored. -/
theorem assign_saved_iff (g : Reg → Word) :
    (∀ q ∈ savedRegs, Frame.assign g savedRegs (savedRegs.map s.regs).reverse q = s.regs q) ↔ Mirrored s.regs :=
  (Frame.restore_iff s.regs g savedRegs savedRegs (by decide) rfl).trans (mirrored_iff _)

theorem restores_of_returns (hf : k.callee f = .returns h) : Restores k f s ↔ Mirrored s.regs ∧
    (h.run (s.pushAll savedRegs)).regs .r8 = s.regs .r8 ∧
    (h.run (s.pushAll savedRegs)).regs .r9 = s.regs .r9 := by
  constructor
  · rintro ⟨s', he, -, hr⟩
    rw [exec_stub_returns hf] at he
    cases he
    refine ⟨(assign_saved_iff (h.run (s.pushAll savedRegs)).regs).1 fun q _ => ?_, ?_, ?_⟩
    · rw [← stub_regs]; exact hr q
    · rw [← stub_unsaved h s (by decide : Reg.r8 ∉ savedRegs)]; exact hr .r8
    · rw [← stub_unsaved h s (by decide : Reg.r9 ∉ savedRegs)]; exact hr .r9
  · rintro ⟨hm, h8, h9⟩
    refine ⟨_, exec_stub_returns hf s, stub_sp h s, fun r => ?_⟩
    rcases saved_or_scratch r with hr | rfl | rfl
    · rw [stub_regs]; exact (assign_saved_iff _).2 hm r hr
    · rw [stub_unsaved h s (by decide), h8]
    · rw [stub_unsaved h s (by decide), h9]

/-- What the stub pops if `r14` was the address of the saved registers. -/
theorem iretq_regs (hsp : s.regs .r14 = s.sp - 104) (a : Word) :
    ((((s.pushAll savedRegs).pushWord a).moveTo (s.regs .r14)).popAll savedRegs).regs =
      Frame.assign s.regs savedRegs (savedRegs.map s.regs).reverse := by
  have hr14 : s.regs .r14 = (s.pushAll savedRegs).sp := by
    rw [Frame.pushAll_sp, hsp]
    rfl
  rw [Frame.popAll_regs, hr14, Frame.words_pushWord _ _ _ (by decide), saved_words, Frame.regs_moveTo_pushWord,
    Frame.pushAll_regs]

theorem restores_of_iretq (hf : k.callee f = .iretq) : Restores k f s ↔
    k.loads ⟨k.behind f, s.regs .rbp, s.regs .r15, s.regs .r14, s.regs .r13⟩ = true ∧
      s.regs .r14 = s.sp - 104 ∧ Mirrored s.regs := by
  unfold Restores
  rw [exec_stub_iretq hf]
  constructor
  · rintro ⟨s', he, hsp, hr⟩
    split at he
    · next hloads =>
      cases he
      have hr14 : s.regs .r14 = s.sp - 104 := by
        rw [Frame.popAll_sp] at hsp
        change s.regs .r14 + BitVec.ofNat 64 (8 * 13) = s.sp at hsp
        bv_omega
      refine ⟨hloads, hr14, (assign_saved_iff s.regs).1 fun q _ => ?_⟩
      rw [← iretq_regs hr14]
      exact hr q
    · cases he
  · rintro ⟨hloads, hr14, hm⟩
    rw [if_pos hloads]
    refine ⟨_, rfl, ?_, fun r => ?_⟩
    · rw [Frame.popAll_sp]
      change s.regs .r14 + BitVec.ofNat 64 (8 * 13) = s.sp
      bv_omega
    · rw [iretq_regs hr14]
      rcases saved_or_scratch r with hr | rfl | rfl
      · exact (assign_saved_iff _).2 hm r hr
      · rw [Frame.assign_of_notMem _ _ _ (by decide)]
      · rw [Frame.assign_of_notMem _ _ _ (by decide)]

end Restores

/-- A stub gives the interrupted code its registers back exactly when the register file is its own
mirror image along the list of saved registers, and either its helper returns and happens to leave
`r8` and `r9` as they were, or the callee executes an `iretq` that the processor can load and
that leads back to the saved registers. -/
theorem stub_restores_iff (k : Linkage) (f : Symbol) (s : Machine) :
    Restores k f s ↔ Mirrored s.regs ∧
      ((∃ h, k.callee f = .returns h ∧ (h.run (s.pushAll savedRegs)).regs .r8 = s.regs .r8 ∧
          (h.run (s.pushAll savedRegs)).regs .r9 = s.regs .r9) ∨
        k.callee f = .iretq ∧ s.regs .r14 = s.sp - 104 ∧
          k.loads ⟨k.behind f, s.regs .rbp, s.regs .r15, s.regs .r14, s.regs .r13⟩ = true) := by
  cases hf : k.callee f with
  | returns h =>
    rw [restores_of_returns hf]
    constructor
    · rintro ⟨hm, hscratch⟩
      exact ⟨hm, .inl ⟨h, rfl, hscratch⟩⟩
    · rintro ⟨hm, ⟨h', hh, hscratch⟩ | ⟨hh, -⟩⟩
      · cases hh
        exact ⟨hm, hscratch⟩
      · cases hh
  | iretq =>
    rw [restores_of_iretq hf]
    constructor
    · rintro ⟨hloads, hr14, hm⟩
      exact ⟨hm, .inr ⟨rfl, hr14, hloads⟩⟩
    · rintro ⟨hm, ⟨h', hh, -⟩ | ⟨-, hr14, hloads⟩⟩
      · cases hh
      · exact ⟨hloads, hr14, hm⟩

/-- A helper that changes nothing. -/
def Helper.idle : Helper := ⟨id, fun _ => rfl, fun _ _ _ => rfl, fun _ _ _ => rfl⟩

/-- With `rax = 1`, every other register zero and a helper that changes nothing, the timer stub
returns with `rax = 0` and `rbp = 1`. -/
theorem pit_stub_swaps : ¬ Restores ⟨linked .idle .idle, fun _ => 0, fun _ => false⟩ .helperCalculateTimer
    { regs := fun r => if r = .rax then 1 else 0, sp := 0x8000, stack := fun _ => 0 } := by
  intro h
  have hm := ((restores_of_returns rfl).1 h).1.1
  revert hm
  decide

/-- The default stub, linked with its own helper, gives the registers back only by accident: they
must be mirrored and be an interrupt frame in which the stack pointer is that of the saved
registers. -/
theorem default_stub_restores_iff (timer keyboard : Helper) (behind : Symbol → Word) (loads : IretFrame → Bool)
    (s : Machine) : Restores ⟨linked timer keyboard, behind, loads⟩ .helperInterruptServiceRoutine s ↔
      loads ⟨behind .helperInterruptServiceRoutine, s.regs .rbp, s.regs .r15, s.regs .r14, s.regs .r13⟩ = true ∧
        s.regs .r14 = s.sp - 104 ∧ Mirrored s.regs :=
  restores_of_iretq rfl

end Sbunix.Interrupt
