/-
The scan of a format by `kprintf`: how far it reads and which arguments it takes. A `'%'` takes the next
byte with it, also when that is the NUL, and the scan goes on behind it.
-/
import Mathlib.Algebra.Group.Nat.Even
import Mathlib.Data.List.DropRight
import Sbunix.Console.Text

namespace Sbunix.Console

open Fallible

/-! ## What a format asks for -/

inductive Kind where
  | str
  | int
  | addr
deriving DecidableEq, Repr

def Arg.kind : Arg → Kind
  | .str _ => .str
  | .int _ => .int
  | .addr _ => .addr

/-- The argument of `%s`, `%d`, `%x`, `%c` or `%p`. -/
def wanted (letter : BitVec 8) : Option Kind :=
  if letter = 115 then some .str
  else if letter = 100 then some .int
  else if letter = 120 then some .int
  else if letter = 99 then some .int
  else if letter = 112 then some .addr
  else none

/-- From left to right, a `'%'` with the character behind it. -/
def wants : List (BitVec 8) → List Kind
  | [] => []
  | ch :: text =>
    if ch = percent then
      match text with
      | [] => []
      | letter :: text => (wanted letter).toList ++ wants text
    else wants text

/-- The `'%'`s at the end. -/
def trailingPercents (text : List (BitVec 8)) : Nat := (text.rtakeWhile (· = percent)).length

/-- With the arguments it asks for, and any number behind them, a format is scanned to its NUL and no
further: whatever stands there, the arguments taken and the screen are the same. -/
def ScanRight (text : List (BitVec 8)) : Prop :=
  ∀ (args more : List Arg) (s : Screen), args.map Arg.kind = wants text →
    ∃ t, ∀ behind, kprintfLoop (text ++ 0 :: behind) (args ++ more) s = .ok (more, t)

section Trailing

variable {text : List (BitVec 8)} {ch letter : BitVec 8}

theorem rtakeWhile_cons {α : Type} (p : α → Bool) (x : α) (l : List α) : (x :: l).rtakeWhile p =
    if (l.rtakeWhile p).length = l.length ∧ p x = true then x :: l else l.rtakeWhile p := by
  unfold List.rtakeWhile
  rw [List.reverse_cons, List.takeWhile_append, List.length_reverse, List.length_reverse]
  by_cases hl : (l.reverse.takeWhile p).length = l.length
  · rw [if_pos hl]
    by_cases hx : p x = true
    · rw [if_pos ⟨hl, hx⟩, List.takeWhile_cons_of_pos hx, List.takeWhile_nil, List.reverse_append,
        List.reverse_reverse]
      rfl
    · rw [if_neg fun h => hx h.2, List.takeWhile_cons_of_neg hx, List.append_nil]
      have hsame : l.reverse.takeWhile p = l.reverse :=
        (List.takeWhile_prefix p).eq_of_length (hl.trans List.length_reverse.symm)
      rw [hsame]
  · rw [if_neg hl, if_neg fun h => hl h.1]

theorem trailingPercents_le (text : List (BitVec 8)) : trailingPercents text ≤ text.length :=
  (List.rtakeWhile_suffix _ _).length_le

theorem trailingPercents_cons (ch : BitVec 8) (text : List (BitVec 8)) : trailingPercents (ch :: text) =
    if trailingPercents text = text.length ∧ ch = percent then text.length + 1
    else trailingPercents text := by
  unfold trailingPercents
  rw [rtakeWhile_cons, apply_ite List.length]
  simp only [decide_eq_true_eq]
  rfl

theorem trailingPercents_of_ne (h : ch ≠ percent) : trailingPercents (ch :: text) = trailingPercents text := by
  rw [trailingPercents_cons, if_neg fun h' => h h'.2]

/-- A `'%'` and what it takes with it leave the parity as it is. -/
theorem even_trailingPercents (letter : BitVec 8) (text : List (BitVec 8)) :
    Even (trailingPercents (percent :: letter :: text)) ↔ Even (trailingPercents text) := by
  have hle := trailingPercents_le text
  rw [trailingPercents_cons, trailingPercents_cons letter, List.length_cons]
  by_cases h : trailingPercents text = text.length ∧ letter = percent
  · rw [if_pos h, if_pos ⟨rfl, rfl⟩, h.1, Nat.even_add_one, Nat.even_add_one, not_not]
  · rw [if_neg h, if_neg fun h' => by omega]

end Trailing

section Scan

variable {ks : List Kind} {args : List Arg}

theorem args_cons {k : Kind} (h : args.map Arg.kind = k :: ks) :
    ∃ arg rest, args = arg :: rest ∧ arg.kind = k ∧ rest.map Arg.kind = ks := by
  obtain ⟨arg, rest, rfl, hk, hr⟩ := List.map_eq_cons_iff.1 h
  exact ⟨arg, rest, rfl, hk, hr⟩

theorem kind_int {arg : Arg} (h : arg.kind = .int) : ∃ argVal, arg = .int argVal := by
  cases arg with
  | int argVal => exact ⟨argVal, rfl⟩
  | str => cases h
  | addr => cases h

theorem wants_directive (letter : BitVec 8) (text : List (BitVec 8)) :
    wants (percent :: letter :: text) = (wanted letter).toList ++ wants text := by
  conv_lhs => unfold wants
  rw [if_pos rfl]

theorem wants_char {ch : BitVec 8} (hp : ch ≠ percent) (text : List (BitVec 8)) :
    wants (ch :: text) = wants text := by
  conv_lhs => unfold wants
  rw [if_neg hp]

/-- A directive takes the argument it asks for, and an unknown letter none. -/
theorem directive_takes {letter : BitVec 8} (more : List Arg) (s : Screen)
    (h : args.map Arg.kind = (wanted letter).toList ++ ks) :
    ∃ rest t, rest.map Arg.kind = ks ∧ directive letter (args ++ more) s = .ok (rest ++ more, t) := by
  by_cases hs : letter = 115
  · subst hs
    obtain ⟨arg, rest, rfl, hk, hr⟩ := args_cons h
    cases arg with
    | str str => exact ⟨rest, _, hr, rfl⟩
    | int => cases hk
    | addr => cases hk
  by_cases hd : letter = 100
  · subst hd
    obtain ⟨arg, rest, rfl, hk, hr⟩ := args_cons h
    obtain ⟨argVal, rfl⟩ := kind_int hk
    exact ⟨rest, _, hr, rfl⟩
  by_cases hx : letter = 120
  · subst hx
    obtain ⟨arg, rest, rfl, hk, hr⟩ := args_cons h
    obtain ⟨argVal, rfl⟩ := kind_int hk
    exact ⟨rest, _, hr, rfl⟩
  by_cases hc : letter = 99
  · subst hc
    obtain ⟨arg, rest, rfl, hk, hr⟩ := args_cons h
    obtain ⟨argVal, rfl⟩ := kind_int hk
    exact ⟨rest, _, hr, rfl⟩
  by_cases hp : letter = 112
  · subst hp
    obtain ⟨arg, rest, rfl, hk, hr⟩ := args_cons h
    cases arg with
    | addr addr => exact ⟨rest, _, hr, rfl⟩
    | str => cases hk
    | int => cases hk
  · unfold wanted at h
    rw [if_neg hs, if_neg hd, if_neg hx, if_neg hc, if_neg hp] at h
    refine ⟨args, s, h, ?_⟩
    unfold directive
    dsimp only
    rw [if_neg hs, if_neg hd, if_neg hx, if_neg hc, if_neg hp]

theorem kprintfLoop_char {ch : BitVec 8} {fmt : List (BitVec 8)} (h0 : ch ≠ 0) (hp : ch ≠ percent)
    (s : Screen) : kprintfLoop (ch :: fmt) args s = kprintfLoop fmt args (perform s (charItem ch)) := by
  conv_lhs => unfold kprintfLoop
  rw [if_neg h0, if_neg hp]
  dsimp only
  rw [handleEverythingElse_eq]

theorem kprintfLoop_directive (letter : BitVec 8) (fmt : List (BitVec 8)) (args : List Arg) (s : Screen) :
    kprintfLoop (percent :: letter :: fmt) args s =
      directive letter args s >>= fun x => kprintfLoop fmt x.1 x.2 := by
  conv_lhs => unfold kprintfLoop
  rw [if_neg (by decide), if_pos rfl]

/-- If the `'%'`s pair up, by recursion on the format. -/
theorem scan_even : ∀ {text : List (BitVec 8)} {args : List Arg} (more : List Arg) (s : Screen), 0 ∉ text →
    Even (trailingPercents text) → args.map Arg.kind = wants text →
    ∃ t, ∀ behind, kprintfLoop (text ++ 0 :: behind) (args ++ more) s = .ok (more, t)
  | [], args, more, s, _, _, h => by
    obtain rfl : args = [] := List.map_eq_nil_iff.1 h
    refine ⟨s, fun behind => ?_⟩
    rw [List.nil_append, List.nil_append]
    unfold kprintfLoop
    rw [if_pos rfl]
  | ch :: text, args, more, s, h0, he, h => by
    rw [List.mem_cons, not_or] at h0
    by_cases hp : ch = percent
    · subst hp
      cases text with
      | nil => exact absurd he (by decide)
      | cons letter text =>
        rw [wants_directive] at h
        obtain ⟨rest, u, hrest, hu⟩ := directive_takes more s h
        rw [List.mem_cons, not_or] at h0
        obtain ⟨t, ht⟩ := scan_even more u h0.2.2 ((even_trailingPercents letter text).1 he) hrest
        refine ⟨t, fun behind => ?_⟩
        rw [List.cons_append, List.cons_append, kprintfLoop_directive, hu]
        exact ht behind
    · rw [trailingPercents_of_ne hp] at he
      rw [wants_char hp] at h
      obtain ⟨t, ht⟩ := scan_even more (perform s (charItem ch)) h0.2 he h
      refine ⟨t, fun behind => ?_⟩
      rw [List.cons_append, kprintfLoop_char (Ne.symm h0.1) hp]
      exact ht behind

/-- If one of them is left, it takes the NUL with it. -/
theorem scan_odd : ∀ {text : List (BitVec 8)} {args : List Arg} (s : Screen), 0 ∉ text →
    ¬ Even (trailingPercents text) → args.map Arg.kind = wants text →
    kprintfLoop (text ++ [0]) args s = .error .pastFormat
  | [], _, _, _, he, _ => absurd (by decide) he
  | ch :: text, args, s, h0, he, h => by
    rw [List.mem_cons, not_or] at h0
    by_cases hp : ch = percent
    · subst hp
      cases text with
      | nil => rfl
      | cons letter text =>
        rw [wants_directive] at h
        obtain ⟨rest, u, hrest, hu⟩ := directive_takes [] s h
        rw [List.mem_cons, not_or] at h0
        rw [List.append_nil, List.append_nil] at hu
        rw [List.cons_append, List.cons_append, kprintfLoop_directive, hu]
        exact scan_odd u h0.2.2 (mt (even_trailingPercents letter text).2 he) hrest
    · rw [trailingPercents_of_ne hp] at he
      rw [wants_char hp] at h
      rw [List.cons_append, kprintfLoop_char (Ne.symm h0.1) hp]
      exact scan_odd _ h0.2 he h

/-- There are arguments for every format. -/
theorem exists_args (ks : List Kind) : ∃ args : List Arg, args.map Arg.kind = ks := by
  induction ks with
  | nil => exact ⟨[], rfl⟩
  | cons k ks ih =>
    obtain ⟨args, h⟩ := ih
    cases k with
    | str => exact ⟨.str [] :: args, congrArg _ h⟩
    | int => exact ⟨.int 0 :: args, congrArg _ h⟩
    | addr => exact ⟨.addr 0 :: args, congrArg _ h⟩

theorem not_scanRight {text : List (BitVec 8)} (h0 : 0 ∉ text) (he : ¬ Even (trailingPercents text)) :
    ¬ ScanRight text := by
  intro hscan
  obtain ⟨args, h⟩ := exists_args (wants text)
  obtain ⟨t, ht⟩ := hscan args [] (started fun _ => 0) h
  have hodd := scan_odd (started fun _ => 0) h0 he h
  rw [← List.append_nil args, ht []] at hodd
  cases hodd

end Scan

/-- A format is scanned as it should be exactly if it ends in an even number of `'%'`s. -/
theorem scan_right_iff {text : List (BitVec 8)} (h0 : 0 ∉ text) :
    ScanRight text ↔ Even (trailingPercents text) := by
  constructor
  · exact fun h => by_contra fun he => not_scanRight h0 he h
  · exact fun he args more s h => scan_even more s h0 he h

/-- `"%s%%"` -/
theorem scan_right_percents : ScanRight [percent, 115, percent, percent] :=
  (scan_right_iff (by decide)).2 (by decide)

/-- `"50%"` -/
theorem lone_percent_overruns : ¬ ScanRight [53, 48, percent] := not_scanRight (by decide) (by decide)

end Sbunix.Console
