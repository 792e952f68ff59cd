/-
Interrupts from the devices to the handlers: the timer and the keyboard raise their lines whenever they
like, the processor accepts an interrupt between two instructions and looks its gate up, and a handler
(sys/pit.c, sys/ps2Controller.c) reads its device, does its work, ends the interrupt and returns. A gate
closes the processor to interrupts, so handlers follow one another, but the devices go on meanwhile.
-/
import Sbunix.Console.StatusRow
import Sbunix.Interrupt.Pic
import Sbunix.Interrupt.Pit

namespace Sbunix.Interrupt

open InterruptController Noninterference Transition
open Console (StatusRow Interruption interrupt)

/-! ## The system -/

/-- Where the entry stubs stand. -/
structure Routines where
  pit : BitVec 64
  keyboard : BitVec 64
  defaultRoutine : BitVec 64
  distinct : pit ≠ keyboard
  pit_ne : pit ≠ 0
  keyboard_ne : keyboard ≠ 0
  default_ne : defaultRoutine ≠ 0

/-- A handler has been entered, has read its device, or has ended the interrupt and is about to return. -/
inductive Handler
  | idle
  | entered (routine : BitVec 64)
  | working (interruption : Interruption)
  | returning

/-- The keyboard controller answers port 0x60 with the first of its codes; `enabled` is the flag that
`sti` sets. -/
structure System where
  pics : Pair
  idt : Idt
  enabled : Bool
  handler : Handler
  codes : List (BitVec 8)
  row : StatusRow

/-- A tick may find the request of the one before it still waiting. -/
inductive Event
  | sti
  | tick (waiting : Bool)
  | key (code : BitVec 8)
  | accept
  | fetch
  | finish
  | iretq

/-- The keyboard controller asks for an interrupt when there is a code to be read that was not there
before: the first one, or the next one after a read. The default routine has no step, since it does not
return. -/
inductive SystemStep (r : Routines) (s : System) : Event → System → Prop
  | sti : s.handler = .idle → SystemStep r s .sti { s with enabled := true }
  | tick : SystemStep r s (.tick (isSet s.pics.master.requested picIrqTimer))
      { s with pics := s.pics.raise (.master picIrqTimer) }
  | key (code : BitVec 8) : SystemStep r s (.key code)
      { s with
        codes := s.codes ++ [code]
        pics := if s.codes = [] then s.pics.raise (.master picIrqKeyboard) else s.pics }
  | accept {q : Source} {vector : BitVec 8} {p : Pair} : s.enabled = true → s.handler = .idle →
      s.pics.accept = some (q, vector, p) →
      SystemStep r s .accept
        { s with
          pics := p
          enabled := false
          handler := .entered (getIrFromIdt s.idt (vector.setWidth 16)) }
  | fetchTimer : s.handler = .entered r.pit →
      SystemStep r s .fetch { s with handler := .working .timer }
  | fetchKeyboard {code : BitVec 8} {codes : List (BitVec 8)} : s.handler = .entered r.keyboard →
      s.codes = code :: codes →
      SystemStep r s .fetch
        { s with
          codes := codes
          pics := if codes = [] then s.pics else s.pics.raise (.master picIrqKeyboard)
          handler := .working (.keyboard code) }
  | finish {interruption : Interruption} {p : Pair} : s.handler = .working interruption →
      outportb 0x20 0x20 s.pics = some p →
      SystemStep r s .finish
        { s with pics := p, row := interrupt s.row interruption, handler := .returning }
  | iretq : s.handler = .returning →
      SystemStep r s .iretq { s with enabled := true, handler := .idle }

def Event.code : Event → Option (BitVec 8)
  | .key code => some code
  | _ => none

/-- A tick that is a request of its own. -/
def Event.newTick : Event → Bool
  | .tick waiting => !waiting
  | _ => false

/-- What the handler has read and not yet shown. -/
def Handler.taken : Handler → List Interruption
  | .working interruption => [interruption]
  | _ => []

/-- The line that is in service while the handler runs. -/
def Handler.line (r : Routines) : Handler → Option Line
  | .idle => none
  | .entered routine => some (if routine = r.pit then picIrqTimer else picIrqKeyboard)
  | .working .timer => some picIrqTimer
  | .working (.keyboard _) => some picIrqKeyboard
  | .returning => none

/-- The timer's handler has been entered. -/
def Handler.timerEntered (r : Routines) : Handler → Nat
  | .entered routine => if routine = r.pit then 1 else 0
  | _ => 0

/-- Ticks whose interrupt has not been counted yet. -/
def timersDue (r : Routines) (s : System) : Nat :=
  (isSet s.pics.master.requested picIrqTimer).toNat + s.handler.timerEntered r

/-- The kernel has set its two handlers and both controllers, and waits for its first interrupt. -/
structure Booted (r : Routines) (s : System) : Prop where
  programmed : Programmed 0x20 0x28 s.pics
  pit : getIrFromIdt s.idt 32 = r.pit
  keyboard : getIrFromIdt s.idt 33 = r.keyboard
  masterRequested : s.pics.master.requested = 0
  slaveRequested : s.pics.slave.requested = 0
  masterInService : s.pics.master.inService = 0
  slaveInService : s.pics.slave.inService = 0
  handler : s.handler = .idle
  enabled : s.enabled = false

/-! ## The invariant -/

/-- What does not depend on the codes: the tables, the lines in service, and that handlers do not
interrupt each other. -/
structure Sound (r : Routines) (masked : BitVec 8) (s : System) : Prop where
  programmed : Programmed 0x20 0x28 s.pics
  pit : getIrFromIdt s.idt 32 = r.pit
  keyboard : getIrFromIdt s.idt 33 = r.keyboard
  masked : s.pics.master.masked = masked
  requested : ∀ n, isSet s.pics.master.requested n = true → n = picIrqTimer ∨ n = picIrqKeyboard
  slaveRequested : s.pics.slave.requested = 0
  inService : ∀ n, isSet s.pics.master.inService n = true ↔ s.handler.line r = some n
  disabled : s.handler.line r ≠ none → s.enabled = false
  routine : ∀ routine, s.handler = .entered routine → routine = r.pit ∨ routine = r.keyboard

section Delivery

variable {r : Routines} {masked : BitVec 8} {s t : System} {q : Source} {vector : BitVec 8} {p : Pair}
  {event : Event}

theorem Sound.slave_output (h : Sound r masked s) : s.pics.slave.output = none := by
  cases hout : s.pics.slave.output with
  | none => rfl
  | some n =>
    have hreq := (output_eq_some_iff.1 hout).1.1
    rw [h.slaveRequested, isSet_zero] at hreq
    cases hreq

/-- Only the timer's and the keyboard's line ask, and their gates lead to their stubs. -/
theorem Sound.accept (h : Sound r masked s) (ha : s.pics.accept = some (q, vector, p)) :
    ∃ n, (n = picIrqTimer ∧ getIrFromIdt s.idt (vector.setWidth 16) = r.pit ∨
        n = picIrqKeyboard ∧ getIrFromIdt s.idt (vector.setWidth 16) = r.keyboard) ∧
      isSet s.pics.master.requested n = true ∧ q = .master n ∧
      p = { s.pics with master := s.pics.master.acknowledge n } := by
  obtain ⟨-, hvector⟩ := h.programmed.accept ha
  obtain ⟨n, hn, hout, rfl, -, rfl⟩ | ⟨k, -, hslave, -⟩ := accept_cases ha
  · have hrequested : isSet s.pics.master.requested n = true := by
      have hreq := (output_eq_some_iff.1 hout).1.1
      unfold Pair.upper at hreq
      rw [h.slave_output] at hreq
      dsimp only at hreq
      rw [Option.isSome_none, if_neg Bool.false_ne_true, isSet_clearBit, Bool.and_eq_true] at hreq
      exact hreq.1
    refine ⟨n, ?_, hrequested, rfl, rfl⟩
    rcases h.requested n hrequested with rfl | rfl
    · refine .inl ⟨rfl, ?_⟩
      rw [hvector]
      exact h.pit
    · refine .inr ⟨rfl, ?_⟩
      rw [hvector]
      exact h.keyboard
  · rw [h.slave_output] at hslave
    cases hslave

theorem Sound.inService_none (h : Sound r masked s) (hline : s.handler.line r = none) (n : Line) :
    isSet s.pics.master.inService n = false := by
  rw [← Bool.not_eq_true, h.inService, hline]
  simp

theorem line_entered {routine : BitVec 64} {n : Line}
    (h : n = picIrqTimer ∧ routine = r.pit ∨ n = picIrqKeyboard ∧ routine = r.keyboard) :
    (Handler.entered routine).line r = some n := by
  rcases h with ⟨rfl, rfl⟩ | ⟨rfl, rfl⟩
  · exact congrArg some (if_pos rfl)
  · exact congrArg some (if_neg (Ne.symm r.distinct))

theorem finish_eq (p : Pair) : outportb 0x20 0x20 p = some { p with master := p.master.endOfInterrupt } := rfl

/-- The line is in service from now on. -/
theorem Sound.accepted (h : Sound r masked s) (hidle : s.handler = .idle)
    (ha : s.pics.accept = some (q, vector, p)) :
    Sound r masked { s with
      pics := p
      enabled := false
      handler := .entered (getIrFromIdt s.idt (vector.setWidth 16)) } := by
  have hprogrammed := (h.programmed.accept ha).1
  obtain ⟨n, hroutine, -, -, rfl⟩ := h.accept ha
  have hline := line_entered hroutine
  have hnone := h.inService_none (by rw [hidle]; rfl)
  constructor
  case programmed => exact hprogrammed
  case pit => exact h.pit
  case keyboard => exact h.keyboard
  case masked => exact h.masked
  case requested =>
    intro m hm
    have hclear : isSet (s.pics.master.acknowledge n).requested m =
        (isSet s.pics.master.requested m && !decide (n = m)) := isSet_clearBit
    rw [hclear, Bool.and_eq_true] at hm
    exact h.requested m hm.1
  case slaveRequested => exact h.slaveRequested
  case inService =>
    intro m
    dsimp only
    rw [h.programmed.master.acknowledge_inService, isSet_setBit, hnone, Bool.false_or, decide_eq_true_eq,
      hline, Option.some.injEq]
  case disabled => exact fun _ => rfl
  case routine =>
    intro routine he
    cases he
    exact hroutine.imp And.right And.right

/-- No line is in service any more. -/
theorem Sound.finished {interruption : Interruption} (h : Sound r masked s)
    (hworking : s.handler = .working interruption) :
    Sound r masked { s with
      pics := { s.pics with master := s.pics.master.endOfInterrupt }
      row := interrupt s.row interruption
      handler := .returning } := by
  obtain ⟨n, hline⟩ : ∃ n, s.handler.line r = some n := by
    rw [hworking]
    cases interruption with
    | timer => exact ⟨_, rfl⟩
    | keyboard key => exact ⟨_, rfl⟩
  have hzero := endOfInterrupt_single (c := s.pics.master) (n := n) fun m => by
    rw [h.inService, hline, Option.some.injEq]
  constructor
  case programmed => exact ⟨h.programmed.master.endOfInterrupt, h.programmed.slave⟩
  case pit => exact h.pit
  case keyboard => exact h.keyboard
  case masked => exact (endOfInterrupt_masked _).trans h.masked
  case requested =>
    intro m hm
    dsimp only at hm
    rw [endOfInterrupt_requested] at hm
    exact h.requested m hm
  case slaveRequested => exact h.slaveRequested
  case inService =>
    intro m
    dsimp only
    rw [hzero, isSet_zero]
    exact iff_of_false Bool.false_ne_true (by simp [Handler.line])
  case disabled => exact fun hne => absurd rfl hne
  case routine => exact fun _ he => by cases he

theorem sound_step (h : Sound r masked s) (hstep : SystemStep r s event t) : Sound r masked t := by
  have hraise : ∀ n, n = picIrqTimer ∨ n = picIrqKeyboard → ∀ m,
      isSet (s.pics.raise (.master n)).master.requested m = true → m = picIrqTimer ∨ m = picIrqKeyboard := by
    intro n hn m hm
    have hset : isSet (s.pics.raise (.master n)).master.requested m =
        (isSet s.pics.master.requested m || decide (n = m)) := isSet_setBit
    rw [hset, Bool.or_eq_true, decide_eq_true_eq] at hm
    rcases hm with hm | rfl
    · exact h.requested m hm
    · exact hn
  cases hstep with
  | sti hidle =>
    refine { h with disabled := fun hline => ?_ }
    rw [hidle] at hline
    exact absurd rfl hline
  | tick =>
    exact { h with
      programmed := h.programmed.raise (.master picIrqTimer)
      requested := hraise _ (.inl rfl) }
  | key code =>
    by_cases hempty : s.codes = []
    · rw [if_pos hempty]
      exact { h with
        programmed := h.programmed.raise (.master picIrqKeyboard)
        requested := hraise _ (.inr rfl) }
    · rw [if_neg hempty]
      exact { h with }
  | accept _ hidle ha => exact h.accepted hidle ha
  | fetchTimer hentered =>
    have hline : s.handler.line r = some picIrqTimer := by
      rw [hentered]
      exact line_entered (.inl ⟨rfl, rfl⟩)
    refine { h with inService := ?_, disabled := ?_, routine := fun _ he => by cases he }
    · intro n
      rw [h.inService, hline]
      rfl
    · exact fun _ => h.disabled (by rw [hline]; simp)
  | @fetchKeyboard code codes hentered _ =>
    have hline : s.handler.line r = some picIrqKeyboard := by
      rw [hentered]
      exact line_entered (.inr ⟨rfl, rfl⟩)
    have hsame : ∀ n, isSet s.pics.master.inService n = true ↔
        (Handler.working (.keyboard code)).line r = some n := by
      intro n
      rw [h.inService, hline]
      rfl
    have hdisabled : s.enabled = false := h.disabled (by rw [hline]; simp)
    by_cases hempty : codes = []
    · rw [if_pos hempty]
      exact { h with inService := hsame, disabled := fun _ => hdisabled, routine := fun _ he => by cases he }
    · rw [if_neg hempty]
      exact { h with
        programmed := h.programmed.raise (.master picIrqKeyboard)
        requested := hraise _ (.inr rfl)
        inService := hsame
        disabled := fun _ => hdisabled
        routine := fun _ he => by cases he }
  | finish hworking hport =>
    rw [finish_eq] at hport
    cases hport
    exact h.finished hworking
  | iretq hreturning =>
    refine { h with inService := ?_, disabled := ?_, routine := fun _ he => by cases he }
    · intro n
      rw [h.inService, hreturning]
      rfl
    · exact fun hne => absurd rfl hne

theorem Booted.sound (h : Booted r s) : Sound r s.pics.master.masked s where
  programmed := h.programmed
  pit := h.pit
  keyboard := h.keyboard
  masked := rfl
  requested n hn := by
    rw [h.masterRequested, isSet_zero] at hn
    cases hn
  slaveRequested := h.slaveRequested
  inService n := by
    rw [h.masterInService, isSet_zero, h.handler]
    simp [Handler.line]
  disabled _ := h.enabled
  routine routine he := by
    rw [h.handler] at he
    cases he

/-! ### What has been handled -/

/-- `fetched` is what the handlers have read so far, in their order; all of it but what the one that runs
has taken is shown, and the rest is on its way. -/
structure History (r : Routines) (s0 : System) (events : List Event) (s : System)
    (fetched : List Interruption) : Prop where
  row : ∃ handled, fetched = handled ++ s.handler.taken ∧
    s.row = Noninterference.run interrupt s0.row handled
  codes : fetched.filterMap Interruption.scanCode ++ s.codes = s0.codes ++ events.filterMap Event.code
  timers : fetched.countP Interruption.isTimer + timersDue r s = events.countP Event.newTick

section History

variable {s0 : System} {events : List Event} {fetched : List Interruption}

theorem codes_snoc (events : List Event) (event : Event) : (events ++ [event]).filterMap Event.code =
    events.filterMap Event.code ++ event.code.toList := by
  rw [List.filterMap_append]
  cases event <;> rfl

theorem newTicks_snoc (events : List Event) (event : Event) : (events ++ [event]).countP Event.newTick =
    events.countP Event.newTick + event.newTick.toNat := by
  rw [List.countP_append, List.countP_singleton]
  cases event.newTick <;> rfl

theorem raise_requested (n m : Line) (p : Pair) : isSet (p.raise (.master n)).master.requested m =
    (isSet p.master.requested m || decide (n = m)) := isSet_setBit

/-- The keyboard's request does not touch the timer's. -/
theorem raise_keyboard (p : Pair) : isSet (p.raise (.master picIrqKeyboard)).master.requested picIrqTimer =
    isSet p.master.requested picIrqTimer := by
  rw [raise_requested, decide_eq_false (by decide), Bool.or_false]

/-- A step with which no code comes or goes. -/
theorem History.same_codes (h : History r s0 events s fetched) (hcodes : t.codes = s.codes)
    (hcode : event.code = none) : fetched.filterMap Interruption.scanCode ++ t.codes =
      s0.codes ++ (events ++ [event]).filterMap Event.code := by
  rw [codes_snoc, hcode, hcodes, h.codes]
  exact congrArg _ (List.append_nil _).symm

/-- A step that reads no device and sends no code. -/
theorem History.unread (h : History r s0 events s fetched) (htaken : t.handler.taken = s.handler.taken)
    (hrow : t.row = s.row) (hcodes : t.codes = s.codes) (hcode : event.code = none)
    (hdue : timersDue r t = timersDue r s + event.newTick.toNat) :
    History r s0 (events ++ [event]) t fetched where
  row := by
    rw [htaken, hrow]
    exact h.row
  codes := h.same_codes hcodes hcode
  timers := by rw [newTicks_snoc, ← h.timers, hdue, Nat.add_assoc]

/-- The timer's request becomes its handler's. -/
theorem Sound.timersDue_accept (h : Sound r masked s) (hidle : s.handler = .idle)
    (ha : s.pics.accept = some (q, vector, p)) :
    timersDue r { s with
      pics := p
      enabled := false
      handler := .entered (getIrFromIdt s.idt (vector.setWidth 16)) } = timersDue r s := by
  obtain ⟨n, hroutine, hrequested, -, rfl⟩ := h.accept ha
  have hclear : isSet (s.pics.master.acknowledge n).requested picIrqTimer =
      (isSet s.pics.master.requested picIrqTimer && !decide (n = picIrqTimer)) := isSet_clearBit
  unfold timersDue
  dsimp only
  rw [hclear, hidle]
  rcases hroutine with ⟨rfl, hpit⟩ | ⟨rfl, hkeyboard⟩
  · rw [hpit, hrequested]
    simp [Handler.timerEntered]
  · rw [hkeyboard]
    simp [Handler.timerEntered, Ne.symm r.distinct, picIrqTimer, picIrqKeyboard]

theorem history_step (hs : Sound r masked s) (h : History r s0 events s fetched)
    (hstep : SystemStep r s event t) : ∃ fetched', History r s0 (events ++ [event]) t fetched' := by
  cases hstep with
  | sti hidle => exact ⟨fetched, h.unread rfl rfl rfl rfl rfl⟩
  | tick =>
    refine ⟨fetched, h.unread rfl rfl rfl rfl ?_⟩
    unfold timersDue Event.newTick
    dsimp only
    rw [raise_requested, decide_eq_true rfl, Bool.or_true]
    cases isSet s.pics.master.requested picIrqTimer with
    | true => rfl
    | false =>
      rw [Nat.add_right_comm]
      rfl
  | key code =>
    refine ⟨fetched, h.row, ?_, ?_⟩
    · rw [codes_snoc, ← List.append_assoc, ← List.append_assoc, h.codes]
      rfl
    · rw [newTicks_snoc, ← h.timers]
      unfold timersDue
      dsimp only
      by_cases hempty : s.codes = []
      · rw [if_pos hempty, raise_keyboard]
        rfl
      · rw [if_neg hempty]
        rfl
  | accept _ hidle ha =>
    refine ⟨fetched, h.unread ?_ rfl rfl rfl (hs.timersDue_accept hidle ha)⟩
    rw [hidle]
    rfl
  | fetchTimer hentered =>
    refine ⟨fetched ++ [.timer], ?_, ?_, ?_⟩
    · obtain ⟨handled, hfetched, hrow⟩ := h.row
      rw [hentered] at hfetched
      exact ⟨fetched, rfl, hrow.trans (congrArg _ (hfetched.trans (List.append_nil _)).symm)⟩
    · have hnone : [Interruption.timer].filterMap Interruption.scanCode = [] := rfl
      rw [List.filterMap_append, hnone, List.append_nil]
      exact h.same_codes rfl rfl
    · rw [newTicks_snoc, ← h.timers, List.countP_append]
      unfold timersDue
      rw [hentered]
      simp [Handler.timerEntered, Interruption.isTimer, Event.newTick]
      omega
  | @fetchKeyboard code codes hentered hread =>
    refine ⟨fetched ++ [.keyboard code], ?_, ?_, ?_⟩
    · obtain ⟨handled, hfetched, hrow⟩ := h.row
      rw [hentered] at hfetched
      exact ⟨fetched, rfl, hrow.trans (congrArg _ (hfetched.trans (List.append_nil _)).symm)⟩
    · have hcode : [Interruption.keyboard code].filterMap Interruption.scanCode = [code] := rfl
      have hcodes : fetched.filterMap Interruption.scanCode ++ s.codes =
          s0.codes ++ (events ++ [Event.fetch]).filterMap Event.code := h.same_codes rfl rfl
      rw [hread] at hcodes
      rw [List.filterMap_append, hcode, List.append_assoc]
      exact hcodes
    · rw [newTicks_snoc, ← h.timers, List.countP_append]
      unfold timersDue
      dsimp only
      have hsame : isSet (if codes = [] then s.pics else s.pics.raise (.master picIrqKeyboard)).master.requested
          picIrqTimer = isSet s.pics.master.requested picIrqTimer := by
        by_cases hempty : codes = []
        · rw [if_pos hempty]
        · rw [if_neg hempty, raise_keyboard]
      rw [hsame, hentered]
      simp [Handler.timerEntered, Interruption.isTimer, Event.newTick, Ne.symm r.distinct]
  | @finish interruption _ hworking hport =>
    rw [finish_eq] at hport
    cases hport
    refine ⟨fetched, ?_, ?_, ?_⟩
    · obtain ⟨handled, hfetched, hrow⟩ := h.row
      rw [hworking] at hfetched
      refine ⟨fetched, (List.append_nil _).symm, ?_⟩
      rw [hfetched, run_append, ← hrow]
      rfl
    · exact h.same_codes rfl rfl
    · rw [newTicks_snoc, ← h.timers]
      unfold timersDue
      dsimp only
      rw [endOfInterrupt_requested, hworking]
      rfl
  | iretq hreturning =>
    refine ⟨fetched, h.unread ?_ rfl rfl rfl ?_⟩
    · rw [hreturning]
      rfl
    · unfold timersDue
      rw [hreturning]
      rfl

end History

/-! ### Runs -/

variable {s0 : System} {events : List Event}

theorem system_run (h0 : Booted r s0) (h : Run (SystemStep r) s0 events s) :
    Sound r s0.pics.master.masked s ∧ ∃ fetched, History r s0 events s fetched := by
  refine h.invariant_steps (fun events s => Sound r s0.pics.master.masked s ∧
    ∃ fetched, History r s0 events s fetched) ⟨h0.sound, [], ?_, ?_, ?_⟩ ?_
  · rw [h0.handler]
    exact ⟨[], rfl, rfl⟩
  · exact (List.append_nil _).symm
  · unfold timersDue
    rw [h0.masterRequested, isSet_zero, h0.handler]
    rfl
  · rintro events s event t ⟨hs, fetched, hfetched⟩ hstep
    exact ⟨sound_step hs hstep, history_step hs hfetched hstep⟩

end Delivery

/-! ## What is delivered -/

/-- However ticks and codes come in between, the handlers read the codes in the order in which the
keyboard sent them, each of them once, and count every tick that did not find the one before it still
waiting; the status row is what these handlers make of it, one after the other. -/
theorem interrupts_in_order {r : Routines} {s0 s : System} {events : List Event} (h0 : Booted r s0)
    (h : Run (SystemStep r) s0 events s) : ∃ fetched handled,
      fetched = handled ++ s.handler.taken ∧ s.row = Noninterference.run interrupt s0.row handled ∧
      fetched.filterMap Interruption.scanCode ++ s.codes = s0.codes ++ events.filterMap Event.code ∧
      fetched.countP Interruption.isTimer + timersDue r s = events.countP Event.newTick := by
  obtain ⟨-, fetched, hfetched⟩ := system_run h0 h
  obtain ⟨handled, heq, hrow⟩ := hfetched.row
  exact ⟨fetched, handled, heq, hrow, hfetched.codes, hfetched.timers⟩

def someRoutines : Routines :=
  ⟨0x201000, 0x202000, 0x203000, by decide, by decide, by decide, by decide⟩

/-- With nothing masked and any codes waiting. -/
theorem exists_booted (r : Routines) (codes : List (BitVec 8)) :
    ∃ s0, Booted r s0 ∧ s0.codes = codes ∧ s0.pics.master.masked = 0 := by
  obtain ⟨idt, -, hidt⟩ := initIdt_routes 0x20A000 r.default_ne noIdt
  obtain ⟨-, idt', -, -, hroutes⟩ := handlers_set hidt r.pit_ne r.keyboard_ne rateOf298
  obtain ⟨hpit, hkeyboard⟩ := handlers_get hroutes
  refine ⟨⟨⟨programmed 0x20 0x04 quietChip, programmed 0x28 0x02 quietChip⟩, idt', false, .idle, codes,
    Console.booted ⟨fun _ => 0, 0, 0, []⟩⟩, ?_, rfl, rfl⟩
  exact ⟨⟨⟨rfl, rfl, rfl, rfl⟩, ⟨rfl, rfl, rfl, rfl⟩⟩, hpit, hkeyboard, rfl, rfl, rfl, rfl, rfl, rfl⟩

/-- `sti`, a tick and a key. -/
theorem tick_and_key {r : Routines} {s0 : System} (h0 : Booted r s0) (code : BitVec 8) :
    ∃ s, Run (SystemStep r) s0 [.sti, .tick false, .key code] s := by
  have hsti := Run.nil.snoc (SystemStep.sti (r := r) h0.handler)
  have htick := SystemStep.tick (r := r) (s := { s0 with enabled := true })
  rw [h0.masterRequested, isSet_zero] at htick
  exact ⟨_, (hsti.snoc htick).snoc (.key code)⟩

theorem in_order_tick_and_key : ∃ (s0 s : System) (fetched : List Interruption),
    Run (SystemStep someRoutines) s0 [.sti, .tick false, .key 0x1E] s ∧
    fetched.filterMap Interruption.scanCode ++ s.codes = [0x1E] ∧
    fetched.countP Interruption.isTimer + timersDue someRoutines s = 1 := by
  obtain ⟨s0, h0, hcodes, -⟩ := exists_booted someRoutines []
  obtain ⟨s, hrun⟩ := tick_and_key h0 0x1E
  obtain ⟨fetched, handled, -, -, hread, hcounted⟩ := interrupts_in_order h0 hrun
  rw [hcodes] at hread
  exact ⟨s0, s, fetched, hrun, hread, hcounted⟩

end Sbunix.Interrupt
