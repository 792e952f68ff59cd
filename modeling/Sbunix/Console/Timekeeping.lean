/-
How well the clock on the status row keeps time (sys/pit.c, sys/kprintf.c). The timer interrupts once in
298 cycles of its input, the clock is advanced every 35 interrupts and shown divided by 100: a second of
it has 1043000 cycles, where the input has 1193181.
-/
import Sbunix.Console.Clock
import Sbunix.Interrupt.Drain

namespace Sbunix.Console

open Noninterference Numeral Transition
open Interrupt (System SystemStep Booted Routines Event PitChannel timersDue rateOf298 picIrqTimer picIrqKeyboard)
open InterruptController (isSet)

/-! ## Time -/

/-- `MAX_FREQUENCY`, in cycles of the timer's input a second. -/
def maxFrequency : Nat := 1193181

/-- A rate generator makes a tick whenever it has counted its reload value down; 0 stands for 2^16. -/
def ticks (c : PitChannel) (cycles : Nat) : Nat :=
  cycles / if c.reload = 0 then 2 ^ 16 else c.reload.toNat

/-- The status row shows this number of seconds. -/
def ShowsSeconds (n : Nat) (row : StatusRow) : Prop :=
  ∃ t : BitVec 32, t.toNat = n ∧ ShowsTime t row.screen.video

/-! ## What is on the row -/

section Row

variable {s : StatusRow} {t : BitVec 32} {n a m : Nat} {video : Video}

/-- The argument of the `printTime` that came last. -/
def shownTime (s : StatusRow) : BitVec 32 := (s.timeInSec / 100).setWidth 32

/-- Its digits and the `s` are on the row. -/
def Printed (s : StatusRow) : Prop :=
  ∀ i (h : i < (decimalCells (shownTime s).toNat ++ [second]).length),
    s.screen.video (timeAddress + 2 * i) = (decimalCells (shownTime s).toNat ++ [second])[i] ∧
      s.screen.video (timeAddress + 2 * i + 1) = lightGrey

theorem printed_timer (h : Printed s ∨ s.PrintsNext) : Printed (helperCalculateTimer s) := by
  unfold helperCalculateTimer
  dsimp only
  by_cases hnext : (s.pitCount + 1) % 35 = 0
  · rw [if_pos hnext]
    intro i hi
    dsimp only
    rw [printTime_eq]
    exact putCells_inside _ i hi
  · rw [if_neg hnext]
    rcases h with h | h
    · exact h
    · exact absurd h hnext

/-- The keys are elsewhere. -/
theorem printed_keyboard (key : BitVec 8) (h : Printed s) : Printed (helperKeyboardHandler key s) := by
  have htime : shownTime (helperKeyboardHandler key s) = shownTime s := by
    unfold shownTime
    rw [(keyboard_time key s).2]
  have hkept : ∀ k, timeAddress ≤ k → (helperKeyboardHandler key s).screen.video k = s.screen.video k := by
    intro k hk
    refine keyboard_changes key s k ?_
    unfold timeAddress maxScreenWidth at hk
    unfold ctrlCells keyCells ctrlKeypressAddress keypressAddress maxScreenWidth
    rw [Set.mem_union, Set.mem_Ico, Set.mem_Ico]
    omega
  unfold Printed
  rw [htime]
  intro i hi
  rw [hkept _ (by omega), hkept _ (by omega)]
  exact h i hi

/-- From the 35th timer interrupt on. -/
theorem printed_run (events : List Interruption) (h : ClockAt 0 s)
    (hcount : 35 ≤ events.countP Interruption.isTimer) : Printed (run interrupt s events) := by
  induction events using List.reverseRecOn with
  | nil => exact absurd hcount (by simp)
  | append_singleton events e ih =>
    have hclock := clockAt_run events h
    rw [Nat.zero_add] at hclock
    rw [run_append]
    cases e with
    | keyboard key =>
      simp only [List.countP_append, List.countP_singleton, Interruption.isTimer] at hcount
      exact printed_keyboard key (ih hcount)
    | timer =>
      simp only [List.countP_append, List.countP_singleton, Interruption.isTimer, if_true] at hcount
      refine printed_timer ?_
      by_cases hbefore : 35 ≤ events.countP Interruption.isTimer
      · exact .inl (ih hbefore)
      · have hcounted : (run interrupt s events).pitCount = 34 := by
          apply BitVec.eq_of_toNat_eq
          rw [hclock.count, show events.countP Interruption.isTimer = 34 by omega]
          rfl
        refine .inr ?_
        unfold StatusRow.PrintsNext
        rw [hcounted]
        rfl

/-! ### Reading it -/

theorem charsAt_prefix (video : Video) (a : Nat) (h : n ≤ m) : charsAt video a n <+: charsAt video a m := by
  unfold charsAt
  exact List.IsPrefix.map _ (List.prefix_iff_eq_take.2 (by simp [List.take_range, h]))

/-- A text ends at the first character that is not in it. -/
theorem eq_of_prefix_end {text text' : List (BitVec 8)} {ch : BitVec 8} (h : text ++ [ch] <+: text' ++ [ch])
    (hch : ch ∉ text') : text = text' := by
  rcases List.prefix_concat_iff.1 h with heq | hshort
  · exact (List.append_left_inj [ch]).1 heq
  · exact absurd (hshort.subset (by simp)) hch

theorem second_not_mem_decimalCells (num : Nat) : second ∉ decimalCells num := by
  unfold decimalCells
  rw [List.mem_reverse, List.mem_map]
  rintro ⟨d, hd, hglyph⟩
  have hdigit := decimal.digit_glyph d (Nat.digits_lt_base (by omega) hd)
  rw [show decimal.glyph d = second from hglyph] at hdigit
  cases hdigit

theorem second_not_mem_numeral (n : Nat) : second ∉ decimal.numeral n := by
  by_cases hn : n = 0
  · subst hn
    decide
  · rw [← decimalCells_eq hn]
    exact second_not_mem_decimalCells n

theorem numeral_inj (h : decimal.numeral n = decimal.numeral m) : n = m := by
  have hn := decimal.value_numeral n
  rw [h, decimal.value_numeral] at hn
  exact (Option.some.inj hn).symm

/-- A row shows the time that was printed last and no other one; of 0 there is no digit. -/
theorem showsTime_iff (h : Printed s) : ShowsTime t s.screen.video ↔ t = shownTime s ∧ t ≠ 0 := by
  constructor
  · intro hshow
    have hprinted : charsAt s.screen.video timeAddress ((decimalCells (shownTime s).toNat).length + 1) =
        decimalCells (shownTime s).toNat ++ [second] :=
      charsAt_eq (by simp) fun i hi => (h i hi).1
    have hsame : decimalCells (shownTime s).toNat = decimal.numeral t.toNat := by
      rcases Nat.le_total ((decimalCells (shownTime s).toNat).length + 1)
        ((decimal.numeral t.toNat).length + 1) with hle | hle
      · have hshort := charsAt_prefix s.screen.video timeAddress hle
        rw [hprinted, hshow.text] at hshort
        exact eq_of_prefix_end hshort (second_not_mem_numeral _)
      · have hshort := charsAt_prefix s.screen.video timeAddress hle
        rw [hprinted, hshow.text] at hshort
        exact (eq_of_prefix_end hshort (second_not_mem_decimalCells _)).symm
    have hne : (shownTime s).toNat ≠ 0 := by
      intro hzero
      rw [hzero] at hsame
      exact decimal.numeral_ne_nil _ hsame.symm
    rw [decimalCells_eq hne] at hsame
    have ht : t = shownTime s := BitVec.eq_of_toNat_eq (numeral_inj hsame).symm
    refine ⟨ht, fun hzero => hne ?_⟩
    rw [← ht, hzero]
    rfl
  · rintro ⟨rfl, hne⟩
    have hcells := decimalCells_eq fun h0 => hne (BitVec.eq_of_toNat_eq h0)
    unfold Printed at h
    rw [hcells] at h
    constructor
    · exact charsAt_eq (by simp) fun i hi => (h i hi).1
    · intro i hi
      exact (h i (by simpa using hi)).2

end Row

/-! ## Seconds -/

theorem advances_ge (n : Nat) : n / 35 ≤ advances n ∧ advances n ≤ n / 35 + n / 2 ^ 32 := by
  unfold advances
  omega

/-- What is shown of the ticks that so many cycles make. -/
theorem shown_right_iff {c : Nat} (hc : 10430 ≤ c) :
    (1 + advances (c / 298)) % 2 ^ 64 / 100 % 2 ^ 32 = c / maxFrequency ∧ c / maxFrequency ≠ 0 ↔
      ∃ k, 1 ≤ k ∧ k ≤ 6 ∧ k * maxFrequency ≤ c ∧ c < 1043000 * (k + 1) - 10430 := by
  have hq : maxFrequency = 1193181 := rfl
  rw [hq]
  obtain ⟨hge, hle⟩ := advances_ge (c / 298)
  have hcycles : c / 298 / 35 = c / 10430 := by omega
  rw [hcycles] at hge hle
  constructor
  · rintro ⟨hright, hne⟩
    have hsmall : c / 1193181 < 2 ^ 32 := by
      rw [← hright]
      exact Nat.mod_lt _ (by omega)
    have hbound : 1 + advances (c / 298) < 2 ^ 64 := by omega
    rw [Nat.mod_eq_of_lt hbound] at hright
    -- what is shown is ahead of the time, by less than its 32 bits
    have hahead : c / 1193181 ≤ (1 + advances (c / 298)) / 100 := by omega
    have hless : (1 + advances (c / 298)) / 100 < c / 1193181 + 2 ^ 32 := by omega
    have hshown : (1 + advances (c / 298)) / 100 = c / 1193181 := by omega
    refine ⟨c / 1193181, by omega, by omega, by omega, by omega⟩
  · rintro ⟨k, h1, h6, hlow, hhigh⟩
    have hexact : advances (c / 298) = c / 10430 := by
      unfold advances
      omega
    have hbound : 1 + c / 10430 < 2 ^ 64 := by omega
    have hsecond : c / 1193181 = k := by omega
    have hshown : (1 + c / 10430) / 100 = k := by omega
    rw [hexact, Nat.mod_eq_of_lt hbound, hshown, hsecond]
    omega

section Seconds

variable {r : Routines} {s0 s : System} {events : List Event}

theorem toNat_shownTime (row : StatusRow) : (shownTime row).toNat = row.timeInSec.toNat / 100 % 2 ^ 32 := by
  unfold shownTime
  rw [BitVec.toNat_setWidth, BitVec.toNat_udiv]
  rfl

theorem showsSeconds_iff {row : StatusRow} {n : Nat} (h : Printed row) :
    ShowsSeconds n row ↔ row.timeInSec.toNat / 100 % 2 ^ 32 = n ∧ n ≠ 0 := by
  rw [← toNat_shownTime]
  constructor
  · rintro ⟨t, rfl, hshow⟩
    obtain ⟨rfl, hne⟩ := (showsTime_iff h).1 hshow
    exact ⟨rfl, fun h0 => hne (BitVec.eq_of_toNat_eq h0)⟩
  · rintro ⟨rfl, hne⟩
    exact ⟨_, rfl, (showsTime_iff h).2 ⟨rfl, fun h0 => hne (by rw [h0]; rfl)⟩⟩

/-- Every tick has been counted. -/
structure Counted (r : Routines) (s : System) : Prop where
  idle : s.handler = .idle
  due : timersDue r s = 0

theorem Counted.clock (h : Counted r s) (h0 : Booted r s0) (hclock : ClockAt 0 s0.row)
    (hrun : Run (SystemStep r) s0 events s) : ClockAt (events.countP Event.newTick) s.row ∧
      (35 ≤ events.countP Event.newTick → Printed s.row) := by
  obtain ⟨-, fetched, ⟨handled, hfetched, hrow⟩, -, hcounted⟩ := Interrupt.system_run h0 hrun
  have hall : fetched = handled := by
    rw [hfetched, h.idle]
    exact List.append_nil _
  rw [h.due, Nat.add_zero, hall] at hcounted
  rw [hrow, ← hcounted]
  refine ⟨?_, printed_run handled hclock⟩
  have hticks := clockAt_run handled hclock
  rwa [Nat.zero_add] at hticks

end Seconds

/-- As long as no tick is lost, whatever is typed: once the clock has been printed, the row shows how many
seconds have passed in the first part of each of the seconds 1 to 6, and at no other time. -/
theorem clock_keeps_time_iff {r : Routines} {s0 s : System} {events : List Event} (h0 : Booted r s0)
    (hclock : ClockAt 0 s0.row) (hrun : Run (SystemStep r) s0 events s) (hcounted : Counted r s)
    {c : Nat} (hc : 10430 ≤ c) (hticks : events.countP Event.newTick = ticks rateOf298 c) :
    ShowsSeconds (c / maxFrequency) s.row ↔
      ∃ k, 1 ≤ k ∧ k ≤ 6 ∧ k * maxFrequency ≤ c ∧ c < 1043000 * (k + 1) - 10430 := by
  obtain ⟨hrow, hprinted⟩ := hcounted.clock h0 hclock hrun
  have hn : ticks rateOf298 c = c / 298 := rfl
  rw [hticks, hn] at hrow hprinted
  rw [showsSeconds_iff (hprinted (by omega)), hrow.time]
  exact shown_right_iff hc

/-- A tick, and the processor's work until it is done. -/
theorem exists_ticks {r : Routines} {s0 : System} (h0 : Booted r s0) (hcodes : s0.codes = [])
    (hmasked : s0.pics.master.masked = 0) : ∀ n, ∃ events s, Run (SystemStep r) s0 events s ∧
      .sti ∈ events ∧ events.countP Event.newTick = n ∧ Counted r s
  | 0 => by
    have hdue : timersDue r s0 = 0 := by
      unfold timersDue
      rw [h0.masterRequested, InterruptController.isSet_zero, h0.handler]
      rfl
    exact ⟨[.sti], _, Run.nil.snoc (.sti h0.handler), by simp, rfl, h0.handler, hdue⟩
  | n + 1 => by
    obtain ⟨events, s, hrun, hsti, hcount, hidle, hdue⟩ := exists_ticks h0 hcodes hmasked n
    have hfree : isSet s.pics.master.requested picIrqTimer = false := by
      unfold timersDue at hdue
      simpa using (Nat.add_eq_zero_iff.1 hdue).1
    have htick : SystemStep r s (.tick false) _ := hfree ▸ SystemStep.tick
    have hrun1 := hrun.snoc htick
    have hsti1 : .sti ∈ events ++ [.tick false] := List.mem_append_left _ hsti
    obtain ⟨hsound, -⟩ := Interrupt.system_run h0 hrun1
    rw [hmasked] at hsound
    obtain ⟨more, t, hmore, hprocessor, -, hk, -, hwork⟩ := Interrupt.work_run
      (InterruptController.isSet_zero) (InterruptController.isSet_zero) _ hsound
      (Interrupt.keyboardAsks_run h0 hcodes hrun1) (Interrupt.on_run hrun1 hsti1) rfl
    obtain ⟨hsound', -⟩ := Interrupt.system_run h0 (hrun1.trans hmore)
    obtain ⟨hidle', -, hdue'⟩ := Interrupt.work_done hsound' hk hwork
    refine ⟨_, t, hrun1.trans hmore, List.mem_append_left _ hsti1, ?_, hidle', hdue'⟩
    rw [List.countP_append, List.countP_append, hcount, (Interrupt.processor_quiet hprocessor).2]
    rfl

/-- Right after the first second, wrong after the seventh. -/
theorem clock_keeps_time_examples : ∃ s0 s s' : System, ∃ events events',
    Run (SystemStep Interrupt.someRoutines) s0 events s ∧ ShowsSeconds 1 s.row ∧
    Run (SystemStep Interrupt.someRoutines) s0 events' s' ∧ ¬ ShowsSeconds 7 s'.row := by
  obtain ⟨s0, h, hcodes, hmasked⟩ := Interrupt.exists_booted Interrupt.someRoutines []
  have h0 : Booted Interrupt.someRoutines { s0 with row := booted ⟨fun _ => 0, 0, 0, []⟩ } :=
    ⟨h.programmed, h.pit, h.keyboard, h.masterRequested, h.slaveRequested, h.masterInService,
      h.slaveInService, h.handler, h.enabled⟩
  have hclock := clockAt_booted ⟨fun _ => 0, 0, 0, []⟩
  obtain ⟨events, s, hrun, -, hticks, hcounted⟩ := exists_ticks h0 hcodes hmasked (ticks rateOf298 1193181)
  obtain ⟨events', s', hrun', -, hticks', hcounted'⟩ :=
    exists_ticks h0 hcodes hmasked (ticks rateOf298 (7 * 1193181))
  refine ⟨_, s, s', events, events', hrun, ?_, hrun', ?_⟩
  · exact (clock_keeps_time_iff h0 hclock hrun hcounted (by omega) hticks).2
      ⟨1, by omega, by omega, by unfold maxFrequency; omega, by omega⟩
  · intro hshows
    obtain ⟨k, -, hk, -, hlt⟩ :=
      (clock_keeps_time_iff h0 hclock hrun' hcounted' (by omega) hticks').1 hshows
    omega

end Sbunix.Console
