/-
The clock of the timer interrupt (`helper_calculate_timer` of sys/pit.c) and the time on the status row
(`printTime` of sys/kprintf.c). The interrupts are counted in 32 bits, and 2^32 is no multiple of 35:
each time the counter wraps the clock gains on the interrupts. Of the time 0 only the `s` is printed.
-/
import Sbunix.Console.Numbers
import Sbunix.Console.StatusRow

namespace Sbunix.Console

open Noninterference

/-! ## The clock -/

/-- How often the clock has been advanced after `n` timer interrupts: once when the counter wraps, and
122713351 times before it wraps the next time. -/
def advances (n : Nat) : Nat := n / 2 ^ 32 * 122713352 + n % 2 ^ 32 / 35

/-- What pit.c keeps after `n` timer interrupts. -/
structure ClockAt (n : Nat) (s : StatusRow) : Prop where
  count : s.pitCount.toNat = n % 2 ^ 32
  time : s.timeInSec.toNat = (1 + advances n) % 2 ^ 64

section Clock

variable {s : StatusRow} {n : Nat}

theorem advances_succ (n : Nat) :
    advances (n + 1) = advances n + if (n + 1) % 2 ^ 32 % 35 = 0 then 1 else 0 := by
  unfold advances
  split <;> omega

theorem clockAt_timer (h : ClockAt n s) : ClockAt (n + 1) (helperCalculateTimer s) := by
  have hcount : (s.pitCount + 1).toNat = (n + 1) % 2 ^ 32 := by
    rw [BitVec.toNat_add, h.count, show (1 : BitVec 32).toNat = 1 from rfl, Nat.mod_add_mod]
  have hzero : (s.pitCount + 1) % 35 = 0 ↔ (n + 1) % 2 ^ 32 % 35 = 0 := by
    rw [← BitVec.toNat_inj, BitVec.toNat_umod, hcount]
    rfl
  have hsucc := advances_succ n
  unfold helperCalculateTimer
  dsimp only
  by_cases htick : (n + 1) % 2 ^ 32 % 35 = 0
  · rw [if_pos htick] at hsucc
    rw [if_pos (hzero.2 htick)]
    refine ⟨hcount, ?_⟩
    show (s.timeInSec + 1).toNat = _
    rw [BitVec.toNat_add, h.time, hsucc, show (1 : BitVec 64).toNat = 1 from rfl, Nat.mod_add_mod,
      Nat.add_assoc]
  · rw [if_neg htick] at hsucc
    rw [if_neg (hzero.not.2 htick)]
    refine ⟨hcount, ?_⟩
    show s.timeInSec.toNat = _
    rw [hsucc, h.time, Nat.add_zero]

theorem clockAt_keyboard (key : BitVec 8) (h : ClockAt n s) : ClockAt n (helperKeyboardHandler key s) := by
  obtain ⟨hcount, htime⟩ := keyboard_time key s
  constructor
  · rw [hcount]
    exact h.count
  · rw [htime]
    exact h.time

theorem clockAt_run : ∀ (events : List Interruption) {n : Nat} {s : StatusRow}, ClockAt n s →
    ClockAt (n + events.countP Interruption.isTimer) (run interrupt s events)
  | [], _, _, h => h
  | .timer :: events, n, s, h => by
    rw [run_cons, List.countP_cons_of_pos rfl, Nat.add_comm _ 1, ← Nat.add_assoc]
    exact clockAt_run events (clockAt_timer h)
  | .keyboard key :: events, n, s, h => by
    rw [run_cons, List.countP_cons_of_neg Bool.false_ne_true]
    exact clockAt_run events (clockAt_keyboard key h)

theorem clockAt_booted (screen : Screen) : ClockAt 0 (booted screen) := ⟨rfl, rfl⟩

/-- The clock is fast after the counter has wrapped, but for 11 interrupts of each 35 in the second
period. -/
theorem advances_eq_iff (n : Nat) :
    (1 + advances n) % 2 ^ 64 = 1 + n / 35 ↔ n < 2 ^ 32 ∨ n < 2 ^ 33 ∧ 24 ≤ (n - 2 ^ 32) % 35 := by
  have hle : advances n ≤ n / 35 + n / 2 ^ 32 := by
    unfold advances
    omega
  by_cases hlt : 1 + advances n < 2 ^ 64
  · rw [Nat.mod_eq_of_lt hlt]
    unfold advances
    omega
  · -- the clock itself would have to gain 2^64 on the interrupts
    refine iff_of_false (fun he => ?_) (by omega)
    have hmod := Nat.mod_lt (1 + advances n) (show 0 < 2 ^ 64 by decide)
    omega

end Clock

/-- `time_in_sec` is 1 and one more for each 35 timer interrupts until the counter wraps, and through the
second period after the 24th interrupt of each 35; never again after that. -/
theorem clock_right_iff (screen : Screen) (events : List Interruption) :
    let n := events.countP Interruption.isTimer
    (run interrupt (booted screen) events).timeInSec.toNat = 1 + n / 35 ↔
      n < 2 ^ 32 ∨ n < 2 ^ 33 ∧ 24 ≤ (n - 2 ^ 32) % 35 := by
  intro n
  have h := (clockAt_run events (clockAt_booted screen)).time
  rw [Nat.zero_add] at h
  rw [h]
  exact advances_eq_iff n

/-- The interrupt that wraps the counter advances the clock, 11 interrupts after the one before. -/
theorem clock_gains_at_wrap : (run interrupt (booted ⟨fun _ => 0, 0, 0, []⟩)
    (List.replicate (2 ^ 32) .timer)).timeInSec.toNat ≠ 1 + 2 ^ 32 / 35 := by
  have hcount : (List.replicate (2 ^ 32) Interruption.timer).countP Interruption.isTimer = 2 ^ 32 := by
    rw [List.countP_replicate]
    exact if_pos rfl
  have h := (clockAt_run (List.replicate (2 ^ 32) .timer) (clockAt_booted ⟨fun _ => 0, 0, 0, []⟩)).time
  rw [hcount, Nat.zero_add] at h
  rw [h]
  exact (advances_eq_iff (2 ^ 32)).not.2 (by omega)

/-! ## The time on the status row -/

/-- The interrupt that comes next prints the time. -/
def StatusRow.PrintsNext (s : StatusRow) : Prop := (s.pitCount + 1) % 35 = 0

/-- The argument of `printTime`. -/
def StatusRow.nextTime (s : StatusRow) : BitVec 32 := ((s.timeInSec + 1) / 100).setWidth 32

/-- `'s'` -/
def second : BitVec 8 := 115

/-- From `TIME_ADDRESS` on stand the numeral of `t` and an `s`. -/
structure ShowsTime (t : BitVec 32) (video : Video) : Prop where
  text : charsAt video timeAddress ((decimal.numeral t.toNat).length + 1) = decimal.numeral t.toNat ++ [second]
  attributes : ∀ i < (decimal.numeral t.toNat).length + 1, video (timeAddress + 2 * i + 1) = lightGrey

section Time

variable {s : StatusRow} {t : BitVec 32}

theorem printTime_eq (t : BitVec 32) (s : Screen) :
    printTime t s = (putCells (decimalCells t.toNat ++ [second]) timeAddress s).2 := by
  rw [putCells_append]
  rfl

/-- Of 0 no digit is printed, so that the `s` stands where the digit belongs. -/
theorem not_showsTime_zero (s : Screen) : ¬ ShowsTime 0 (printTime 0 s).video := by
  intro h
  have hfirst : (printTime 0 s).video timeAddress = second := by
    rw [printTime_eq]
    exact (putCells_inside [second] 0 (by decide)).1
  have htext : (printTime 0 s).video timeAddress = zeroHex := (List.cons.inj h.text).1
  rw [hfirst] at htext
  cases htext

theorem showsTime_of_ne (s : Screen) (ht : t ≠ 0) : ShowsTime t (printTime t s).video := by
  have hne : t.toNat ≠ 0 := fun h => ht (BitVec.eq_of_toNat_eq h)
  have hlen : (decimal.numeral t.toNat).length + 1 = (decimal.numeral t.toNat ++ [second]).length := by
    rw [List.length_append, List.length_singleton]
  rw [printTime_eq, decimalCells_eq hne]
  constructor
  · exact charsAt_eq hlen fun i hi => (putCells_inside _ i hi).1
  · intro i hi
    exact (putCells_inside _ i (hlen ▸ hi)).2

theorem nextTime_eq_zero_iff : s.nextTime = 0 ↔ (s.timeInSec + 1).toNat % (100 * 2 ^ 32) < 100 := by
  unfold StatusRow.nextTime
  rw [← BitVec.toNat_inj, BitVec.toNat_setWidth, BitVec.toNat_udiv]
  show (s.timeInSec + 1).toNat / 100 % 2 ^ 32 = 0 ↔ _
  omega

/-- The time printed is right exactly if it is not 0. -/
theorem showsTime_timer (h : s.PrintsNext) : ShowsTime s.nextTime (helperCalculateTimer s).screen.video ↔
    100 ≤ (s.timeInSec + 1).toNat % (100 * 2 ^ 32) := by
  have hscreen : (helperCalculateTimer s).screen = printTime s.nextTime s.screen := by
    unfold helperCalculateTimer
    dsimp only
    rw [if_pos (show (s.pitCount + 1) % 35 = 0 from h)]
    rfl
  rw [hscreen, ← Nat.not_lt, ← nextTime_eq_zero_iff]
  constructor
  · intro hshow hzero
    rw [hzero] at hshow
    exact not_showsTime_zero _ hshow
  · exact showsTime_of_ne s.screen

end Time

/-- In every run of interrupts, whenever a time is printed it stands on the row exactly if the clock is then at
100 or more, counted modulo the largest time that `printTime` takes. -/
theorem time_shown_iff (screen : Screen) (events : List Interruption)
    (h : (run interrupt (booted screen) events).PrintsNext) :
    ShowsTime (run interrupt (booted screen) events).nextTime
        (run interrupt (booted screen) (events ++ [.timer])).screen.video ↔
      100 ≤ ((run interrupt (booted screen) events).timeInSec + 1).toNat % (100 * 2 ^ 32) := by
  rw [run_append]
  exact showsTime_timer h

/-- With each interrupt of a run of timer interrupts the counter is known. -/
theorem clock_timers (screen : Screen) {n : Nat} (hn : n < 2 ^ 32) :
    (run interrupt (booted screen) (List.replicate n .timer)).pitCount = BitVec.ofNat 32 n ∧
      (run interrupt (booted screen) (List.replicate n .timer)).timeInSec = BitVec.ofNat 64 (1 + n / 35) := by
  have hcount : (List.replicate n Interruption.timer).countP Interruption.isTimer = n := by
    rw [List.countP_replicate]
    exact if_pos rfl
  have hclock := clockAt_run (List.replicate n .timer) (clockAt_booted screen)
  rw [hcount, Nat.zero_add] at hclock
  have hadvances : advances n = n / 35 := by
    unfold advances
    omega
  refine ⟨BitVec.eq_of_toNat_eq ?_, BitVec.eq_of_toNat_eq ?_⟩
  · rw [hclock.count, BitVec.toNat_ofNat]
  · rw [hclock.time, BitVec.toNat_ofNat, hadvances]

/-- Of the first timer interrupts each 35th prints. -/
theorem printsNext_timers (screen : Screen) {n : Nat} (hn : n + 1 < 2 ^ 32) :
    (run interrupt (booted screen) (List.replicate n .timer)).PrintsNext ↔ (n + 1) % 35 = 0 := by
  have hcount := (clock_timers screen (show n < 2 ^ 32 by omega)).1
  have hsucc : (BitVec.ofNat 32 n + 1).toNat = n + 1 := by
    rw [BitVec.toNat_add, BitVec.toNat_ofNat]
    show (n % 2 ^ 32 + 1) % 2 ^ 32 = n + 1
    omega
  unfold StatusRow.PrintsNext
  rw [hcount, ← BitVec.toNat_inj, BitVec.toNat_umod, hsucc]
  rfl

/-- The 99th time printed is 1. -/
theorem one_shown_after_timers :
    let s := run interrupt (booted ⟨fun _ => 0, 0, 0, []⟩) (List.replicate 3464 .timer)
    s.nextTime = 1 ∧ ShowsTime s.nextTime
      (run interrupt (booted ⟨fun _ => 0, 0, 0, []⟩) (List.replicate 3464 .timer ++ [.timer])).screen.video := by
  have htime := (clock_timers ⟨fun _ => 0, 0, 0, []⟩ (show 3464 < 2 ^ 32 by decide)).2
  have hprints := (printsNext_timers ⟨fun _ => 0, 0, 0, []⟩ (show 3464 + 1 < 2 ^ 32 by decide)).2 rfl
  refine ⟨?_, (time_shown_iff ⟨fun _ => 0, 0, 0, []⟩ (List.replicate 3464 .timer) hprints).2 ?_⟩
  · unfold StatusRow.nextTime
    rw [htime]
    rfl
  · rw [htime]
    decide

/-- The first 98 times printed are an `s` with no digit, the first of all after 35 interrupts. -/
theorem first_time_without_digit :
    let s := run interrupt (booted ⟨fun _ => 0, 0, 0, []⟩) (List.replicate 34 .timer)
    s.PrintsNext ∧ ¬ ShowsTime s.nextTime (interrupt s .timer).screen.video := by
  have htime := (clock_timers ⟨fun _ => 0, 0, 0, []⟩ (show 34 < 2 ^ 32 by decide)).2
  have hprints := (printsNext_timers ⟨fun _ => 0, 0, 0, []⟩ (show 34 + 1 < 2 ^ 32 by decide)).2 rfl
  refine ⟨hprints, (showsTime_timer hprints).not.2 ?_⟩
  rw [htime]
  decide

end Sbunix.Console
