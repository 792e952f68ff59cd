/-
The limit on the arguments (bin/sbush/parser.c): the loop of `parseInput` round by round, the slots of
`arguments` it stores to, and what the callers do with the NULL it returns.

The test is made before a slot is taken and lets the count reach one more than there are slots.
-/
import Sbunix.Lib.Run
import Sbunix.Sbush.ParseInput
import Sbunix.Sbush.Shell

namespace Sbunix.Sbush

open BlockMemory Fallible Libc Transition

/-! ## Rounds -/

/-- A round of the loop, on the character `ch`. -/
def Round (U : Unspecified) (separator : UInt8) (x : Mem × Scan) (ch : UInt8) (y : Mem × Scan) : Prop :=
  ∃ m, load U x.1 x.2.input = .ok (ch, m) ∧ ch ≠ 0 ∧ parseChar U separator m x.2 ch = .ok (some y.2, y.1)

/-- The loop of `parseInput(input, ' ')` comes to `x`. -/
def LoopAt (U : Unspecified) (m : Mem) (input : Ptr) (x : Mem × Scan) : Prop :=
  ∃ c m1 chs, trim U input m = .ok (c, m1) ∧ Run (Round U space) (m1, .start c) chs x

section Slots

variable {U : Unspecified} {separator ch : UInt8} {m m' : Mem} {s s' : Scan} {x y : Mem × Scan}

/-- A step of the scan stores to no slot, or to the next one. -/
def TakesSlot (U : Unspecified) (s s' : Scan) : Prop :=
  (s'.count = s.count ∧ s'.cArg = s.cArg) ∨
    (s'.count = s.count + 1 ∧ ∃ p, s'.cArg = s.cArg.setArgument U s.count p)

theorem parseChar_at_separator (ch : UInt8) : parseChar U ch m s ch =
    if maxArguments < s.count then .ok (none, m)
    else nextArgument U m { s with commandFlag := false } >>= fun r =>
      .ok (some { r.1 with input := r.1.input.add 1 }, r.2) := by
  unfold parseChar
  rcases hflag : s.commandFlag with _ | _
  · have hs : { s with commandFlag := false } = s := by rw [← hflag]
    simp [hflag, hs, pure_eq_ok, ok_bind]
  · simp [hflag, pure_eq_ok, ok_bind]

theorem putCommand_kept (h : putCommand m s ch = .ok (s', m')) :
    s'.count = s.count ∧ s'.cArg = s.cArg ∧ s'.commandFlag = s.commandFlag := by
  obtain ⟨m1, -, h⟩ := bind_eq_ok h
  cases h
  exact ⟨rfl, rfl, rfl⟩

theorem putArgument_kept (h : putArgument m s ch = .ok (s', m')) :
    s'.count = s.count ∧ s'.cArg = s.cArg := by
  obtain ⟨m1, -, h⟩ := bind_eq_ok h
  cases h
  exact ⟨rfl, rfl⟩

theorem parseChar_elsewhere (h : ch ≠ separator) : parseChar U separator m s ch =
    (if s.commandFlag then putCommand m s ch else putArgument m s ch) >>= fun r =>
      .ok (some { r.1 with input := r.1.input.add 1 }, r.2) := by
  unfold parseChar
  rcases hflag : s.commandFlag with _ | _
  · simp [hflag, h, pure_eq_ok, ok_bind]
  · rcases hput : putCommand m s ch with f | ⟨s1, m1⟩
    · simp [h, error_bind]
    · have hkept := (putCommand_kept hput).2.2
      rw [hflag] at hkept
      simp [h, hkept, pure_eq_ok, ok_bind]

theorem nextArgument_slot (h : nextArgument U m s = .ok (s', m')) : TakesSlot U s s' := by
  unfold nextArgument at h
  split at h
  · cases h
    exact .inr ⟨rfl, _, rfl⟩
  · obtain ⟨⟨len, m1⟩, -, h⟩ := bind_eq_ok h
    dsimp only at h
    split at h
    · cases h
      exact .inr ⟨rfl, _, rfl⟩
    · cases h
      exact .inl ⟨rfl, rfl⟩

theorem parseChar_slot (h : parseChar U separator m s ch = .ok (some s', m')) : TakesSlot U s s' := by
  by_cases hsep : ch = separator
  · subst hsep
    rw [parseChar_at_separator] at h
    split at h
    · cases h
    · obtain ⟨⟨s1, m1⟩, hnext, h⟩ := bind_eq_ok h
      have hslot : TakesSlot U { s with commandFlag := false } s1 := nextArgument_slot hnext
      cases h
      exact hslot
  · rw [parseChar_elsewhere hsep] at h
    obtain ⟨⟨s1, m1⟩, hput, h⟩ := bind_eq_ok h
    have hkept : s1.count = s.count ∧ s1.cArg = s.cArg := by
      split at hput
      · obtain ⟨hcount, hcArg, -⟩ := putCommand_kept hput
        exact ⟨hcount, hcArg⟩
      · exact putArgument_kept hput
    cases h
    exact .inl hkept

theorem Round.slot (h : Round U separator x ch y) : TakesSlot U x.2 y.2 := by
  obtain ⟨m, -, -, he⟩ := h
  exact parseChar_slot he

end Slots

/-! ## The loop and the scan -/

/-- A command with no more arguments than there are slots. -/
def Outcome.Within : Outcome → Prop
  | .parsed _ args => args.length ≤ maxArguments
  | _ => False

section Limit

variable {U : Unspecified} {separator ch : UInt8} {m0 m : Mem} {n : Nat} {bg : Int} {text chs : List UInt8}
  {s : Scan} {x y : Mem × Scan} {r : Reading} {garbage : Nat → Bool}

theorem length_args_afterSeparator (garbage : Nat → Bool) (r : Reading) :
    r.args.length ≤ (afterSeparator garbage r).args.length := by
  rcases r with w | ⟨w, done, current⟩
  · exact Nat.zero_le _
  · rw [afterSeparator]
    split
    · simp [Reading.args]
    · simp [Reading.args]

/-- Arguments that are begun stay. -/
theorem length_args_le : ∀ (text : List UInt8) (r : Reading) {word : List UInt8} {args : List (List UInt8)},
    scan separator garbage r text = .parsed word args → r.args.length ≤ args.length
  | [], r, word, args, h => by
    cases h
    exact Nat.le_refl _
  | ch :: text, r, word, args, h => by
    by_cases hsep : ch = separator
    · rw [hsep, scan_separator] at h
      split at h
      · cases h
      · exact Nat.le_trans (length_args_afterSeparator garbage r) (length_args_le text _ h)
    · rcases r with w | ⟨w, done, current⟩
      · exact Nat.zero_le _
      · rw [scan_argument _ _ hsep] at h
        split at h
        · have := length_args_le text _ h
          simpa [Reading.args] using this
        · cases h

/-- What the loop has read, round by round. -/
theorem run_reading (h0 : 0 ∉ text) (hl : text.length < inputLength) (hb : Buffers U m0 n text [] [] m)
    (hs : Locals n bg (.command []) 0 s) (hrun : Run (Round U separator) (m, s) chs x) :
    ∃ r suf, text = chs ++ suf ∧ Buffers U m0 n text r.word r.args x.1 ∧ Locals n bg r chs.length x.2 ∧
      scan separator (garbageFrom U n) (.command []) text = scan separator (garbageFrom U n) r suf := by
  refine hrun.invariant_steps (fun chs x => ∃ r suf, text = chs ++ suf ∧
    Buffers U m0 n text r.word r.args x.1 ∧ Locals n bg r chs.length x.2 ∧
      scan separator (garbageFrom U n) (.command []) text = scan separator (garbageFrom U n) r suf)
    ⟨.command [], text, rfl, hb, hs, rfl⟩ ?_
  rintro chs x ch y ⟨r, suf, htext, hb, hs, hscan⟩ ⟨m1, hload, hch, hparse⟩
  rw [hs.input] at hload
  rcases suf with _ | ⟨c, suf⟩
  · -- the text is read, and its terminator ends the loop
    rw [List.append_nil] at htext
    rw [← htext, load_end hb h0 hl] at hload
    cases hload
    exact absurd rfl hch
  · rw [load_text hb h0 hl chs suf c htext] at hload
    cases hload
    rcases parseChar_scan separator hch hb hs (by rw [htext]; simp) with
      ⟨r', s', m', he, hb', hs', hnext⟩ | ⟨-, he, -⟩ | ⟨he, -⟩
    · cases he.symm.trans hparse
      refine ⟨r', suf, by rw [htext]; simp, hb', ?_, hscan.trans (hnext suf)⟩
      simpa using hs'
    · cases he.symm.trans hparse
    · cases he.symm.trans hparse

/-- If the scan goes beyond the limit, a round stores behind the last slot. By induction on the text that is
left, with room for the arguments read so far. -/
theorem exists_store (h0 : 0 ∉ text) (hl : text.length < inputLength) (suf : List UInt8) :
    ∀ (pre : List UInt8) (r : Reading) (m : Mem) (s : Scan), text = pre ++ suf →
      Buffers U m0 n text r.word r.args m → Locals n bg r pre.length s → r.args.length ≤ maxArguments →
      scan separator (garbageFrom U n) r suf ≠ .outside → ¬ (scan separator (garbageFrom U n) r suf).Within →
      ∃ chs x ch y, Run (Round U separator) (m, s) chs x ∧ Round U separator x ch y ∧
        x.2.count = maxArguments ∧ y.2.count = maxArguments + 1 := by
  induction suf with
  | nil => exact fun _ _ _ _ _ _ _ hargs _ hno => absurd hargs hno
  | cons c suf ih =>
    intro pre r m s htext hb hs hargs hin hno
    have hc : c ≠ 0 := fun h => h0 (by rw [htext, h]; simp)
    have hload := load_text hb h0 hl pre suf c htext
    rcases parseChar_scan separator hc hb hs (by rw [htext]; simp) with
      ⟨r', s', m', he, hb', hs', hnext⟩ | ⟨hmany, -⟩ | ⟨-, hout⟩
    · rw [hnext] at hin hno
      have hround : Round U separator (m, s) c (m', s') := ⟨m, by rw [hs.input]; exact hload, hc, he⟩
      by_cases hargs' : r'.args.length ≤ maxArguments
      · obtain ⟨chs, x, ch, y, hrun, hlast⟩ := ih (pre ++ [c]) r' m' s' (by rw [htext]; simp) hb'
          (by simpa using hs') hargs' hin hno
        exact ⟨[c] ++ chs, x, ch, y, Run.trans (.snoc .nil hround) hrun, hlast⟩
      · -- this round takes slot 20
        refine ⟨[], _, c, _, .nil, hround, ?_⟩
        have hcount := hs.count
        have hcount' := hs'.count
        rcases hround.slot with ⟨hsame, -⟩ | ⟨hnew, -⟩
        · dsimp only at hsame ⊢
          omega
        · dsimp only at hnew ⊢
          omega
    · omega
    · exact absurd (hout suf) hin

end Limit

/-! ## Lines -/

/-- A line's arguments are counted right: NULL is for more than 20 of them, only the slots there are get
stored to, the integers behind them keep their values, and no caller dereferences the NULL. A round that
raises the count stores to the slot with the old count (`Round.slot`). -/
structure LimitsArguments (U : Unspecified) (m : Mem) (b o : Nat) (line : List UInt8) : Prop where
  answer : ∃ r m', parseInput U space m (.ofBlock b o) = .ok (r, m') ∧
    (r = none ↔ maxArguments < (nonempty (laterWords space (trimmed line))).length)
  slots : ∀ x ch y, LoopAt U m (.ofBlock b o) x → Round U space x ch y → y.2.count ≠ x.2.count →
    x.2.count < maxArguments
  integers : ∀ x ch y, LoopAt U m (.ofBlock b o) x → Round U space x ch y →
    y.2.cArg.isBackground = x.2.cArg.isBackground ∧ y.2.cArg.argumentCount = x.2.cArg.argumentCount
  single : ∀ m', parseInput U space m (.ofBlock b o) = .ok (none, m') → ∀ other sh, sh.mem = m →
    executeSingle U other (.ofBlock b o) sh ≠ .error .null
  validation : ∀ m', parseInput U space m (.ofBlock b o) = .ok (none, m') → ∀ mem mem' before after,
    isValidateParsedPipeInput U mem before = .ok (true, mem') →
      isValidateParsedPipeInput U mem (before ++ none :: after) ≠ .error .null
  freeing : ∀ m', parseInput U space m (.ofBlock b o) = .ok (none, m') → ∀ mem,
    freeAllParsedCommandArguments U [none] mem ≠ .error .null

section Lines

variable {U : Unspecified} {m : Mem} {b o : Nat} {line : List UInt8} {garbage : Nat → Bool} {x y : Mem × Scan}
  {ch : UInt8}

theorem Outcome.Within.parsed {outcome : Outcome} (h : outcome.Within) :
    ∃ word args, outcome = .parsed word args ∧ args.length ≤ maxArguments := by
  rcases outcome with _ | _ | ⟨word, args⟩
  · exact h.elim
  · exact h.elim
  · exact ⟨word, args, rfl, h⟩

/-- Few words that fit, each with a buffer of its own or the one before it. -/
theorem within_iff : (scanLine space garbage line).Within ↔
    (leading line).length + (trimmed line).length + 2 ≤ inputLength ∧
    (firstWord space (trimmed line)).length < commandLength ∧
    (∀ w ∈ laterWords space (trimmed line), w.length < argumentLength) ∧
    (placed garbage (laterWords space (trimmed line))).length ≤ maxArguments := by
  have hpre : ∀ pre post, laterWords space (trimmed line) = pre ++ post →
      (placed garbage pre).length ≤ (placed garbage (laterWords space (trimmed line))).length := by
    intro pre post heq
    rw [heq, placed, placed, List.foldl_append]
    exact length_foldl_place_le garbage post _
  constructor
  · intro h
    obtain ⟨word, args, hscan, hlen⟩ := h.parsed
    obtain ⟨-, rfl⟩ := scanLine_parsed hscan
    obtain ⟨hfit, hcommand, hwords⟩ := not_outside_iff.1 (show scanLine space garbage line ≠ .outside by
      rw [hscan]
      exact Outcome.noConfusion)
    refine ⟨hfit, hcommand, fun w hw => ?_, hlen⟩
    obtain ⟨pre, post, heq⟩ := List.append_of_mem hw
    exact hwords pre w post heq (Nat.le_trans (hpre pre _ heq) hlen)
  · rintro ⟨hfit, hcommand, hwords, hlen⟩
    rw [scanLine_eq, if_pos ⟨hfit, hcommand⟩, scanWords_parsed _ [] fun pre w post heq =>
      ⟨Nat.le_trans (hpre pre _ heq) hlen, hwords w (by simp [heq])⟩]
    exact hlen

/-- What the loop has read when it comes to `x`. -/
theorem LoopAt.reading (h : m.StringAt b o line)
    (hfit : (leading line).length + (trimmed line).length + 2 ≤ inputLength)
    (hx : LoopAt U m (.ofBlock b o) x) : ∃ r suf, x.2.count = r.args.length ∧
      scanLine space (garbageFrom U m.next) line = scan space (garbageFrom U m.next) r suf := by
  obtain ⟨c, m1, chs, htrim, hrun⟩ := hx
  obtain ⟨c', m1', htrim', hb, hs⟩ := trim_started U h hfit
  cases htrim.symm.trans htrim'
  obtain ⟨r, suf, -, -, hs, hscan⟩ := run_reading (trimmed_noNul h.noNul) (by omega) hb hs hrun
  exact ⟨r, suf, hs.count, by rw [scanLine, if_pos hfit, hscan]⟩

theorem LoopAt.round (hx : LoopAt U m (.ofBlock b o) x) (h : Round U space x ch y) :
    LoopAt U m (.ofBlock b o) y := by
  obtain ⟨c, m1, chs, htrim, hrun⟩ := hx
  exact ⟨c, m1, _, htrim, hrun.snoc h⟩

theorem TakesSlot.integers {s s' : Scan} (h : TakesSlot U s s') (hcount : s'.count ≠ s.count → s.count < maxArguments) :
    s'.cArg.isBackground = s.cArg.isBackground ∧ s'.cArg.argumentCount = s.cArg.argumentCount := by
  rcases h with ⟨-, he⟩ | ⟨hnew, p, he⟩
  · rw [he]
    exact ⟨rfl, rfl⟩
  · rw [he, CommandArgument.setArgument, if_pos (hcount (by omega))]
    exact ⟨rfl, rfl⟩

/-- NULL, or a count beyond the slots, comes of a store behind them. -/
theorem LimitsArguments.within (h : m.StringAt b o line) (hl : LimitsArguments U m b o line) :
    (scanLine space (garbageFrom U m.next) line).Within := by
  by_contra hno
  obtain ⟨r, m', he, -⟩ := hl.answer
  have hin : scanLine space (garbageFrom U m.next) line ≠ .outside := by
    intro hout
    have hm := parseInput_meets U space h
    rw [hout] at hm
    cases hm.symm.trans he
  have hfit := (not_outside_iff.1 hin).1
  obtain ⟨c, m1, htrim, hb, hs⟩ := trim_started U h hfit
  rw [scanLine, if_pos hfit] at hin hno
  obtain ⟨chs, x, ch, y, hrun, hround, hx, hy⟩ := exists_store (trimmed_noNul h.noNul) (by omega)
    (trimmed line) [] (.command []) m1 (.start c) rfl hb hs (Nat.zero_le _) hin hno
  have := hl.slots x ch y ⟨c, m1, chs, htrim, hrun⟩ hround (by omega)
  omega

theorem limitsArguments_of_within (h : m.StringAt b o line)
    (hw : (scanLine space (garbageFrom U m.next) line).Within) : LimitsArguments U m b o line := by
  have hfit := (within_iff.1 hw).1
  obtain ⟨word, args, hscan, hlen⟩ := hw.parsed
  obtain ⟨-, hargs⟩ := scanLine_parsed hscan
  have hm := parseInput_meets U space h
  rw [hscan] at hm
  obtain ⟨c, m', he, -⟩ := hm
  have hsome : ∀ mem, parseInput U space m (.ofBlock b o) ≠ .ok (none, mem) := fun mem hnone => by
    cases he.symm.trans hnone
  have hslots : ∀ x ch y, LoopAt U m (.ofBlock b o) x → Round U space x ch y → y.2.count ≠ x.2.count →
      x.2.count < maxArguments := by
    intro x ch y hx hround hne
    obtain ⟨r, suf, hcount, hscan'⟩ := (hx.round hround).reading h hfit
    have := length_args_le suf r (hscan'.symm.trans hscan)
    rcases hround.slot with ⟨hsame, -⟩ | ⟨hnew, -⟩
    · exact absurd hsame hne
    · omega
  constructor
  case answer =>
    refine ⟨some c, m', he, iff_of_false nofun ?_⟩
    rw [← nonempty_placed (garbageFrom U m.next), ← hargs]
    have := List.length_filter_le (· ≠ []) args
    unfold nonempty
    omega
  case slots => exact hslots
  case integers => exact fun x ch y hx hround => hround.slot.integers (hslots x ch y hx hround)
  case single => exact fun mem hnone => absurd hnone (hsome mem)
  case validation => exact fun mem hnone => absurd hnone (hsome mem)
  case freeing => exact fun mem hnone => absurd hnone (hsome mem)

/-- The NULL for too many arguments is dereferenced on both ways. -/
theorem null_dereferenced {m' : Mem} {other : Nat → CommandArgument → Shell → Except Fault Shell} {sh : Shell}
    (he : parseInput U space sh.mem (.ofBlock b o) = .ok (none, m')) :
    executeSingle U other (.ofBlock b o) sh = .error .null ∧
      ∀ mem cArgs, isValidateParsedPipeInput U mem (none :: cArgs) = .error .null := by
  constructor
  · rw [executeSingle, he]
    rfl
  · exact fun _ _ => rfl

end Lines

/-- The arguments of a line are counted right exactly if the line fits the buffers and takes no more than
20 of those for arguments. -/
theorem limitsArguments_iff {U : Unspecified} {m : Mem} {b o : Nat} {line : List UInt8} (h : m.StringAt b o line) :
    LimitsArguments U m b o line ↔
      (leading line).length + (trimmed line).length + 2 ≤ inputLength ∧
      (firstWord space (trimmed line)).length < commandLength ∧
      (∀ w ∈ laterWords space (trimmed line), w.length < argumentLength) ∧
      (placed (garbageFrom U m.next) (laterWords space (trimmed line))).length ≤ maxArguments := by
  rw [← within_iff]
  exact ⟨fun hl => hl.within h, limitsArguments_of_within h⟩

/-- A command with so many arguments `a`. -/
def manyArguments (n : Nat) : List UInt8 := 99 :: (List.replicate n [space, 97]).flatten

/-- Twenty of them. -/
theorem limitsArguments_twenty : LimitsArguments (filled 0) (lineMem (manyArguments 20)) 0 0 (manyArguments 20) :=
  (limitsArguments_iff (lineMem_string (by decide))).2 (by decide)

/-- With twenty-one the answer is not NULL, and the last one is stored over the integers. -/
theorem twenty_one_accepted :
    ¬ LimitsArguments (filled 0) (lineMem (manyArguments 21)) 0 0 (manyArguments 21) := by
  intro hl
  have hw := hl.within (lineMem_string (by decide))
  have hlen := (within_iff.1 hw).2.2.2
  exact absurd hlen (by decide)

end Sbunix.Sbush
