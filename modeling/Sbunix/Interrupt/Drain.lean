/-
What becomes of the interrupts when the devices are quiet (sys/pic.c, sys/pit.c, sys/ps2Controller.c): the
processor handles all that was sent, unless a code was there before the controllers were programmed.
-/
import Sbunix.Interrupt.Delivery

namespace Sbunix.Interrupt

open InterruptController Transition
open Console (Interruption interrupt)

/-- What the processor does, not the devices. -/
def Event.processor : Event → Bool
  | .accept | .fetch | .finish | .iretq => true
  | _ => false

/-- The processor is open to interrupts, or will be when the handler returns. -/
def System.On (s : System) : Prop := s.enabled = true ∨ s.handler ≠ .idle

/-- The steps the processor has to take for what the devices have sent: four for an interrupt. -/
def work (r : Routines) (s : System) : Nat :=
  4 * (isSet s.pics.master.requested picIrqTimer).toNat +
    match s.handler with
    | .idle => 4 * s.codes.length
    | .entered routine => if routine = r.pit then 4 * s.codes.length + 3 else 4 * s.codes.length - 1
    | .working _ => 4 * s.codes.length + 2
    | .returning => 4 * s.codes.length + 1

section Drain

variable {r : Routines} {masked : BitVec 8} {s t s0 : System} {events : List Event} {event : Event}

/-! ### Codes that wait -/

/-- The keyboard's line asks exactly while there are codes that no handler has been entered for. -/
def KeyboardAsks (r : Routines) (s : System) : Prop :=
  (isSet s.pics.master.requested picIrqKeyboard = true ↔ s.codes ≠ [] ∧ s.handler ≠ .entered r.keyboard) ∧
    (s.handler = .entered r.keyboard → s.codes ≠ [])

theorem keyboardAsks_step (hs : Sound r masked s) (h : KeyboardAsks r s) (hstep : SystemStep r s event t) :
    KeyboardAsks r t := by
  obtain ⟨hasks, hentered⟩ := h
  cases hstep with
  | sti hidle => exact ⟨hasks, hentered⟩
  | tick =>
    refine ⟨?_, hentered⟩
    dsimp only
    rw [raise_requested, decide_eq_false (by decide), Bool.or_false]
    exact hasks
  | key code =>
    have hne : s.codes ++ [code] ≠ [] := List.append_ne_nil_of_right_ne_nil _ (List.cons_ne_nil code [])
    refine ⟨?_, fun _ => hne⟩
    by_cases hempty : s.codes = []
    · dsimp only
      rw [if_pos hempty, raise_requested, decide_eq_true rfl, Bool.or_true]
      exact iff_of_true rfl ⟨hne, fun he => hentered he hempty⟩
    · dsimp only
      rw [if_neg hempty, hasks]
      exact and_congr_left fun _ => iff_of_true hempty hne
  | accept _ hidle ha =>
    obtain ⟨n, hroutine, hrequested, -, rfl⟩ := hs.accept ha
    have hclear : isSet (s.pics.master.acknowledge n).requested picIrqKeyboard =
        (isSet s.pics.master.requested picIrqKeyboard && !decide (n = picIrqKeyboard)) := isSet_clearBit
    unfold KeyboardAsks
    dsimp only
    rw [hclear]
    rcases hroutine with ⟨rfl, hpit⟩ | ⟨rfl, hkeyboard⟩
    · rw [hpit, decide_eq_false (by decide), Bool.not_false, Bool.and_true, hasks, hidle]
      have hne : Handler.entered r.pit ≠ .entered r.keyboard := fun he => r.distinct (Handler.entered.inj he)
      exact ⟨and_congr_right fun _ => iff_of_true (by simp) hne, fun he => absurd he hne⟩
    · rw [hkeyboard, decide_eq_true rfl, Bool.not_true, Bool.and_false]
      exact ⟨iff_of_false Bool.false_ne_true fun he => he.2 rfl, fun _ => (hasks.1 hrequested).1⟩
  | fetchTimer hpit =>
    refine ⟨?_, fun he => by cases he⟩
    rw [hpit] at hasks
    refine hasks.trans (and_congr_right fun _ => iff_of_true ?_ (by simp))
    exact fun he => r.distinct (Handler.entered.inj he)
  | @fetchKeyboard code codes hkeyboard hread =>
    have hasked : isSet s.pics.master.requested picIrqKeyboard = false := by
      rw [← Bool.not_eq_true, hasks]
      exact fun he => he.2 hkeyboard
    refine ⟨?_, fun he => by cases he⟩
    by_cases hempty : codes = []
    · dsimp only
      rw [if_pos hempty, hasked]
      exact iff_of_false Bool.false_ne_true fun he => he.1 hempty
    · dsimp only
      rw [if_neg hempty, raise_requested, decide_eq_true rfl, Bool.or_true]
      exact iff_of_true rfl ⟨hempty, by simp⟩
  | finish hworking hport =>
    rw [finish_eq] at hport
    cases hport
    refine ⟨?_, fun he => by cases he⟩
    dsimp only
    rw [endOfInterrupt_requested, hasks, hworking]
    exact and_congr_right fun _ => iff_of_true (by simp) (by simp)
  | iretq hreturning =>
    refine ⟨?_, fun he => by cases he⟩
    dsimp only
    rw [hasks, hreturning]
    exact and_congr_right fun _ => iff_of_true (by simp) (by simp)

theorem keyboardAsks_run (h0 : Booted r s0) (hcodes : s0.codes = []) (h : Run (SystemStep r) s0 events s) :
    KeyboardAsks r s := by
  have hall : Sound r s0.pics.master.masked s ∧ KeyboardAsks r s := by
    refine h.invariant (fun s => Sound r s0.pics.master.masked s ∧ KeyboardAsks r s) ⟨h0.sound, ?_, ?_⟩ ?_
    · rw [h0.masterRequested, isSet_zero, hcodes]
      exact iff_of_false Bool.false_ne_true fun he => he.1 rfl
    · rw [h0.handler]
      exact fun he => by cases he
    · rintro s event t ⟨hs, hk⟩ hstep
      exact ⟨sound_step hs hstep, keyboardAsks_step hs hk hstep⟩
  exact hall.2

/-! ### The processor's steps -/

/-- An unmasked request is accepted by an idle processor, the timer's first. -/
theorem Sound.accepts (h : Sound r masked s) (hidle : s.handler = .idle) {n : Line}
    (hn : n = picIrqTimer ∨ n = picIrqKeyboard) (hrequested : isSet s.pics.master.requested n = true)
    (hmasked : isSet masked n = false) (hfirst : ∀ m < n, isSet s.pics.master.requested m = false) :
    ∃ vector p, s.pics.accept = some (.master n, vector, p) := by
  have hcascade : n ≠ cascadeLine := by
    rcases hn with rfl | rfl
    · decide
    · decide
  have hupper : ∀ m, isSet s.pics.upper.requested m =
      (isSet s.pics.master.requested m && !decide (cascadeLine = m)) := by
    intro m
    unfold Pair.upper
    rw [h.slave_output]
    dsimp only
    rw [Option.isSome_none, if_neg Bool.false_ne_true, isSet_clearBit]
  have hnone := h.inService_none (by rw [hidle]; rfl)
  have hout : s.pics.upper.output = some n := by
    rw [output_eq_some_iff, hupper, hrequested, decide_eq_false (Ne.symm hcascade)]
    refine ⟨⟨rfl, ?_⟩, fun m hm hreq => ?_, fun m _ => hnone m⟩
    · have hsame : s.pics.upper.masked = masked := h.masked
      rw [hsame]
      exact hmasked
    · rw [hupper, hfirst m hm, Bool.false_and] at hreq
      cases hreq
  unfold Pair.accept
  rw [hout]
  dsimp only
  rw [if_neg hcascade]
  exact ⟨_, _, rfl⟩

/-- An idle processor with something to do accepts an interrupt. -/
theorem work_idle (hs : Sound r masked s) (hk : KeyboardAsks r s) (henabled : s.enabled = true)
    (hidle : s.handler = .idle) (htimer : isSet masked picIrqTimer = false)
    (hkeyboard : isSet masked picIrqKeyboard = false) (hwork : work r s ≠ 0) :
    ∃ t, SystemStep r s .accept t ∧ work r t + 1 = work r s := by
  have hclear : ∀ n, isSet (s.pics.master.acknowledge n).requested picIrqTimer =
      (isSet s.pics.master.requested picIrqTimer && !decide (n = picIrqTimer)) := fun _ => isSet_clearBit
  cases hrequested : isSet s.pics.master.requested picIrqTimer with
  | true =>
    obtain ⟨vector, p, ha⟩ := hs.accepts hidle (.inl rfl) hrequested htimer fun m hm =>
      absurd hm (Nat.not_lt_zero m)
    obtain ⟨n, hroutine, -, hq, rfl⟩ := hs.accept ha
    cases hq
    have hpit : getIrFromIdt s.idt (vector.setWidth 16) = r.pit := by
      rcases hroutine with ⟨-, hpit⟩ | ⟨hne, -⟩
      · exact hpit
      · exact absurd hne (by decide)
    refine ⟨_, .accept henabled hidle ha, ?_⟩
    unfold work
    dsimp only
    rw [hclear, hrequested, decide_eq_true rfl, hpit, hidle]
    dsimp only
    rw [if_pos rfl]
    simp only [Bool.not_true, Bool.and_false, Bool.toNat_false, Bool.toNat_true]
    omega
  | false =>
    have hcodes : s.codes ≠ [] := by
      intro hempty
      refine hwork ?_
      unfold work
      rw [hrequested, hidle, hempty]
      rfl
    have hasks : isSet s.pics.master.requested picIrqKeyboard = true := hk.1.2 ⟨hcodes, by rw [hidle]; simp⟩
    obtain ⟨vector, p, ha⟩ := hs.accepts hidle (.inr rfl) hasks hkeyboard fun m hm => by
      have hm0 : m = picIrqTimer := Fin.ext (Nat.lt_one_iff.1 hm)
      rw [hm0]
      exact hrequested
    obtain ⟨n, hroutine, -, hq, rfl⟩ := hs.accept ha
    cases hq
    have hentered : getIrFromIdt s.idt (vector.setWidth 16) = r.keyboard := by
      rcases hroutine with ⟨hne, -⟩ | ⟨-, hentered⟩
      · exact absurd hne (by decide)
      · exact hentered
    refine ⟨_, .accept henabled hidle ha, ?_⟩
    have hpos := List.length_pos_iff.2 hcodes
    unfold work
    dsimp only
    rw [hclear, hrequested, hentered, hidle]
    dsimp only
    rw [if_neg (Ne.symm r.distinct)]
    simp only [Bool.false_and, Bool.toNat_false]
    omega

theorem work_step (hs : Sound r masked s) (hk : KeyboardAsks r s) (hon : s.On)
    (htimer : isSet masked picIrqTimer = false) (hkeyboard : isSet masked picIrqKeyboard = false)
    (hwork : work r s ≠ 0) :
    ∃ event t, event.processor = true ∧ SystemStep r s event t ∧ work r t + 1 = work r s := by
  cases hhandler : s.handler with
  | idle =>
    have henabled : s.enabled = true := hon.resolve_right fun hne => hne hhandler
    obtain ⟨t, hstep, hless⟩ := work_idle hs hk henabled hhandler htimer hkeyboard hwork
    exact ⟨.accept, t, rfl, hstep, hless⟩
  | entered routine =>
    rcases hs.routine routine hhandler with rfl | rfl
    · refine ⟨.fetch, _, rfl, .fetchTimer hhandler, ?_⟩
      unfold work
      rw [hhandler]
      dsimp only
      rw [if_pos rfl]
      omega
    · cases hcodes : s.codes with
      | nil => exact absurd hcodes (hk.2 hhandler)
      | cons code codes =>
        refine ⟨.fetch, _, rfl, .fetchKeyboard hhandler hcodes, ?_⟩
        have hsame : isSet (if codes = [] then s.pics else
            s.pics.raise (.master picIrqKeyboard)).master.requested picIrqTimer =
              isSet s.pics.master.requested picIrqTimer := by
          by_cases hempty : codes = []
          · rw [if_pos hempty]
          · rw [if_neg hempty, raise_keyboard]
        unfold work
        rw [hhandler, hcodes]
        dsimp only
        rw [hsame, if_neg (Ne.symm r.distinct), List.length_cons]
        omega
  | working interruption =>
    refine ⟨.finish, _, rfl, .finish hhandler (finish_eq _), ?_⟩
    unfold work
    rw [hhandler]
    dsimp only
    rw [endOfInterrupt_requested]
    omega
  | returning =>
    refine ⟨.iretq, _, rfl, .iretq hhandler, ?_⟩
    unfold work
    rw [hhandler]
    dsimp only
    omega

theorem on_step (h : s.On) (hstep : SystemStep r s event t) : t.On := by
  cases hstep with
  | sti => exact .inl rfl
  | tick => exact h
  | key code => exact h
  | accept => exact .inr (by simp)
  | fetchTimer => exact .inr (by simp)
  | fetchKeyboard => exact .inr (by simp)
  | finish => exact .inr (by simp)
  | iretq => exact .inl rfl

theorem on_run (h : Run (SystemStep r) s0 events s) : .sti ∈ events → s.On := by
  refine h.invariant_steps (fun events s => .sti ∈ events → s.On) (fun hmem => by cases hmem) ?_
  intro events s event t hon hstep hmem
  rcases List.mem_append.1 hmem with hmem | hmem
  · exact on_step (hon hmem) hstep
  · cases List.mem_singleton.1 hmem
    cases hstep
    exact .inl rfl

/-- The devices being quiet, the processor does its work. -/
theorem work_run (htimer : isSet masked picIrqTimer = false) (hkeyboard : isSet masked picIrqKeyboard = false) :
    ∀ (n : Nat) {s : System}, Sound r masked s → KeyboardAsks r s → s.On → work r s = n →
      ∃ more t, Run (SystemStep r) s more t ∧ (∀ event ∈ more, event.processor = true) ∧
        more.length = n ∧ KeyboardAsks r t ∧ t.On ∧ work r t = 0
  | 0, s, _, hk, hon, hwork => ⟨[], s, .nil, fun _ hmem => absurd hmem List.not_mem_nil, rfl, hk, hon, hwork⟩
  | n + 1, s, hs, hk, hon, hwork => by
    obtain ⟨event, t, hprocessor, hstep, hless⟩ :=
      work_step hs hk hon htimer hkeyboard (by rw [hwork]; exact Nat.succ_ne_zero n)
    obtain ⟨more, u, hrun, hall, hlen, hku, honu, hdone⟩ := work_run htimer hkeyboard n (sound_step hs hstep)
      (keyboardAsks_step hs hk hstep) (on_step hon hstep) (Nat.succ.inj (hless.trans hwork))
    refine ⟨event :: more, u, (Run.nil.snoc hstep).trans hrun, ?_, congrArg Nat.succ hlen, hku, honu, hdone⟩
    intro e hmem
    rcases List.mem_cons.1 hmem with rfl | hmem
    · exact hprocessor
    · exact hall e hmem

/-- The step that is the processor's to take. -/
def System.processorStep (r : Routines) (s : System) : Option System :=
  match s.handler with
  | .idle => s.pics.accept.map fun (_, vector, p) =>
    { s with
      pics := p
      enabled := false
      handler := .entered (getIrFromIdt s.idt (vector.setWidth 16)) }
  | .entered routine =>
    if routine = r.pit then some { s with handler := .working .timer }
    else match s.codes with
      | [] => none
      | code :: codes => some { s with
        codes := codes
        pics := if codes = [] then s.pics else s.pics.raise (.master picIrqKeyboard)
        handler := .working (.keyboard code) }
  | .working interruption => (outportb 0x20 0x20 s.pics).map fun p =>
    { s with pics := p, row := interrupt s.row interruption, handler := .returning }
  | .returning => some { s with enabled := true, handler := .idle }

/-- There is no other. -/
theorem processorStep_eq {s t : System} {e : Event} (he : e.processor = true) (h : SystemStep r s e t) :
    s.processorStep r = some t := by
  unfold System.processorStep
  cases h with
  | sti => cases he
  | tick => cases he
  | key => cases he
  | accept _ hidle haccept => rw [hidle, haccept]; rfl
  | fetchTimer hentered => rw [hentered]; exact if_pos rfl
  | fetchKeyboard hentered hcodes => rw [hentered, hcodes]; exact if_neg (Ne.symm r.distinct)
  | finish hworking hout => rw [hworking, hout]; rfl
  | iretq hreturning => rw [hreturning]

/-- Without work there is nothing left of what the devices have sent. -/
theorem work_done (hs : Sound r masked s) (hk : KeyboardAsks r s) (hwork : work r s = 0) :
    s.handler = .idle ∧ s.codes = [] ∧ timersDue r s = 0 := by
  unfold work at hwork
  obtain ⟨htimer, hrest⟩ := Nat.add_eq_zero_iff.1 hwork
  cases hhandler : s.handler with
  | idle =>
    rw [hhandler] at hrest
    dsimp only at hrest
    refine ⟨rfl, List.length_eq_zero_iff.1 (by omega), ?_⟩
    unfold timersDue
    rw [hhandler]
    exact Nat.add_eq_zero_iff.2 ⟨by omega, rfl⟩
  | entered routine =>
    rw [hhandler] at hrest
    dsimp only at hrest
    rcases hs.routine routine hhandler with rfl | rfl
    · rw [if_pos rfl] at hrest
      omega
    · have hpos := List.length_pos_iff.2 (hk.2 hhandler)
      rw [if_neg (Ne.symm r.distinct)] at hrest
      omega
  | working interruption =>
    rw [hhandler] at hrest
    dsimp only at hrest
    omega
  | returning =>
    rw [hhandler] at hrest
    dsimp only at hrest
    omega

/-- The processor sends nothing. -/
theorem processor_quiet : ∀ {more : List Event}, (∀ event ∈ more, event.processor = true) →
    more.filterMap Event.code = [] ∧ more.countP Event.newTick = 0
  | [], _ => ⟨rfl, rfl⟩
  | event :: more, h => by
    obtain ⟨hcode, htick⟩ : event.code = none ∧ event.newTick = false := by
      have hprocessor := h event List.mem_cons_self
      cases event <;> first | exact ⟨rfl, rfl⟩ | cases hprocessor
    obtain ⟨hcodes, hticks⟩ := processor_quiet fun e hmem => h e (List.mem_cons_of_mem event hmem)
    rw [List.filterMap_cons_none hcode, List.countP_cons_of_neg (by rw [htick]; decide)]
    exact ⟨hcodes, hticks⟩

/-! ### A code that was there before -/

/-- The keyboard has sent its request before `init_pic`, and waits for its code to be read. -/
structure Blocked (r : Routines) (s0 : System) (events : List Event) (s : System) : Prop where
  quiet : isSet s.pics.master.requested picIrqKeyboard = false
  notEntered : s.handler ≠ .entered r.keyboard
  codes : s.codes = s0.codes ++ events.filterMap Event.code

theorem blocked_step (hs : Sound r masked s) (h0 : s0.codes ≠ []) (h : Blocked r s0 events s)
    (hstep : SystemStep r s event t) : Blocked r s0 (events ++ [event]) t := by
  have hcodes := h.codes
  have hnone : event.code = none → s.codes = s0.codes ++ (events ++ [event]).filterMap Event.code := by
    intro hcode
    rw [codes_snoc, hcode, hcodes]
    exact congrArg _ (List.append_nil _).symm
  cases hstep with
  | sti => exact ⟨h.quiet, h.notEntered, hnone rfl⟩
  | tick =>
    refine ⟨?_, h.notEntered, hnone rfl⟩
    dsimp only
    rw [raise_requested, h.quiet]
    rfl
  | key code =>
    have hne : s.codes ≠ [] := by
      rw [hcodes]
      exact List.append_ne_nil_of_left_ne_nil h0 _
    refine ⟨?_, h.notEntered, ?_⟩
    · dsimp only
      rw [if_neg hne]
      exact h.quiet
    · dsimp only
      rw [codes_snoc, hcodes, List.append_assoc]
      rfl
  | accept _ hidle ha =>
    obtain ⟨n, hroutine, hrequested, -, rfl⟩ := hs.accept ha
    rcases hroutine with ⟨rfl, hpit⟩ | ⟨rfl, -⟩
    · refine ⟨?_, ?_, hnone rfl⟩
      · have hclear : isSet (s.pics.master.acknowledge picIrqTimer).requested picIrqKeyboard =
            (isSet s.pics.master.requested picIrqKeyboard && !decide (picIrqTimer = picIrqKeyboard)) :=
          isSet_clearBit
        dsimp only
        rw [hclear, h.quiet]
        rfl
      · rw [hpit]
        exact fun he => r.distinct (Handler.entered.inj he)
    · rw [h.quiet] at hrequested
      cases hrequested
  | fetchTimer => exact ⟨h.quiet, by simp, hnone rfl⟩
  | fetchKeyboard hkeyboard => exact absurd hkeyboard h.notEntered
  | finish _ hport =>
    rw [finish_eq] at hport
    cases hport
    refine ⟨?_, by simp, hnone rfl⟩
    dsimp only
    rw [endOfInterrupt_requested]
    exact h.quiet
  | iretq => exact ⟨h.quiet, by simp, hnone rfl⟩

theorem blocked_run (h0 : Booted r s0) (hcodes : s0.codes ≠ []) (h : Run (SystemStep r) s0 events s) :
    Blocked r s0 events s := by
  have hall : Sound r s0.pics.master.masked s ∧ Blocked r s0 events s := by
    refine h.invariant_steps (fun events s => Sound r s0.pics.master.masked s ∧ Blocked r s0 events s)
      ⟨h0.sound, ?_, ?_, (List.append_nil _).symm⟩ ?_
    · rw [h0.masterRequested, isSet_zero]
    · rw [h0.handler]
      simp
    · rintro events s event t ⟨hs, hb⟩ hstep
      exact ⟨sound_step hs hstep, blocked_step hs hcodes hb hstep⟩
  exact hall.2

end Drain

/-- With both lines unmasked and no code waiting at the start nothing is left behind: after `sti`, when
the devices are quiet, the processor needs four steps for each interrupt to show every code that was sent
and to count every tick, and that is where so many steps of it lead. -/
theorem interrupts_drain {r : Routines} {s0 s : System} {events : List Event} (h0 : Booted r s0)
    (hcodes : s0.codes = []) (htimer : isSet s0.pics.master.masked picIrqTimer = false)
    (hkeyboard : isSet s0.pics.master.masked picIrqKeyboard = false)
    (h : Run (SystemStep r) s0 events s) (hsti : .sti ∈ events) :
    ∃ more t handled, Run (SystemStep r) s more t ∧ (∀ event ∈ more, event.processor = true) ∧
      more.length = work r s ∧
      (∀ steps u, Run (SystemStep r) s steps u → (∀ event ∈ steps, event.processor = true) →
        steps.length = work r s → u = t) ∧
      t.handler = .idle ∧
      t.row = Noninterference.run interrupt s0.row handled ∧
      handled.filterMap Interruption.scanCode = events.filterMap Event.code ∧
      handled.countP Interruption.isTimer = events.countP Event.newTick := by
  obtain ⟨hs, -⟩ := system_run h0 h
  obtain ⟨more, t, hrun, hprocessor, hlen, hk, -, hwork⟩ := work_run htimer hkeyboard (work r s) hs
    (keyboardAsks_run h0 hcodes h) (on_run h hsti) rfl
  obtain ⟨hst, fetched, ⟨handled, heq, hrow⟩, hread, hcounted⟩ := system_run h0 (h.trans hrun)
  obtain ⟨hidle, hempty, hdue⟩ := work_done hst hk hwork
  obtain ⟨hnocodes, hnoticks⟩ := processor_quiet hprocessor
  have hall : fetched = handled := by
    rw [heq, hidle]
    exact List.append_nil _
  rw [hall, hempty, List.append_nil, hcodes, List.filterMap_append, hnocodes, List.append_nil] at hread
  rw [hall, hdue, List.countP_append, hnoticks] at hcounted
  refine ⟨more, t, handled, hrun, hprocessor, hlen, fun steps u hsteps hall hlen' => ?_, hidle, hrow, hread, hcounted⟩
  refine Run.determined (p := fun event => event.processor = true) (fun s e t e' t' he he' hstep hstep' => ?_)
    hsteps hrun hall hprocessor (hlen'.trans hlen.symm)
  exact Option.some.inj ((processorStep_eq he hstep).symm.trans (processorStep_eq he' hstep'))

theorem drain_tick_and_key : ∃ (s0 s t : System) (handled : List Interruption),
    Run (SystemStep someRoutines) s0 [.sti, .tick false, .key 0x1E] s ∧ t.handler = .idle ∧
    t.row = Noninterference.run interrupt s0.row handled ∧
    handled.filterMap Interruption.scanCode = [0x1E] ∧ handled.countP Interruption.isTimer = 1 := by
  obtain ⟨s0, h0, hcodes, hmasked⟩ := exists_booted someRoutines []
  obtain ⟨s, hrun⟩ := tick_and_key h0 0x1E
  obtain ⟨-, t, handled, -, -, -, -, hidle, hrow, hread, hcounted⟩ := interrupts_drain h0 hcodes
    (by rw [hmasked, isSet_zero]) (by rw [hmasked, isSet_zero]) hrun List.mem_cons_self
  exact ⟨s0, s, t, handled, hrun, hidle, hrow, hread, hcounted⟩

/-- `init_pic` takes back the request of a code that is waiting, and nobody reads the port: from then on
no code is read, whatever is typed. -/
theorem waiting_code_blocks {r : Routines} {s0 s : System} {events : List Event} (h0 : Booted r s0)
    (hcodes : s0.codes ≠ []) (h : Run (SystemStep r) s0 events s) :
    s.codes = s0.codes ++ events.filterMap Event.code ∧
      ∃ handled, s.row = Noninterference.run interrupt s0.row handled ∧
        ∀ interruption ∈ handled, interruption = .timer := by
  have hblocked := (blocked_run h0 hcodes h).codes
  obtain ⟨-, fetched, ⟨handled, heq, hrow⟩, hread, -⟩ := system_run h0 h
  rw [← hblocked, List.append_left_eq_self, List.filterMap_eq_nil_iff] at hread
  refine ⟨hblocked, handled, hrow, fun interruption hmem => ?_⟩
  have hnone := hread interruption (by rw [heq]; exact List.mem_append_left _ hmem)
  cases interruption with
  | timer => rfl
  | keyboard key => cases hnone

/-- A key was released while the kernel was loaded. -/
theorem waiting_code_example : ∃ s0 s : System, s0.codes = [0x9C] ∧
    Run (SystemStep someRoutines) s0 [.sti, .tick false, .key 0x1E] s ∧ s.codes = [0x9C, 0x1E] := by
  obtain ⟨s0, h0, hcodes, -⟩ := exists_booted someRoutines [0x9C]
  obtain ⟨s, hrun⟩ := tick_and_key h0 0x1E
  obtain ⟨hwaiting, -⟩ := waiting_code_blocks h0 (by rw [hcodes]; simp) hrun
  rw [hcodes] at hwaiting
  exact ⟨s0, s, hcodes, hrun, hwaiting⟩

end Sbunix.Interrupt
