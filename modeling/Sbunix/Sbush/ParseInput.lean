/-
What `parseInput` does on every line: when it stays inside the line and its own buffers, and when
its result is the command and the non-empty words of the line.
-/
import Sbunix.Sbush.Words

namespace Sbunix.Sbush

open BlockMemory Libc

/-! ## Results in memory -/

section Results

variable {U : Unspecified} {m0 m : Mem} {n : Nat} {bg : Int} {text word : List UInt8}
  {args : List (List UInt8)} {c : CommandArgument}

theorem Parsed.command_string (h : Parsed U m0 n bg text word args c m) :
    m.String c.command word := by
  refine ⟨n + 1, 0, h.fields.command, ?_⟩
  unfold Mem.StringAt
  rw [List.drop_zero, h.buffers.command]
  exact isString_written_zeros h.buffers.wordNoNul (by decide)

theorem Parsed.argument_string (h : Parsed U m0 n bg text word args c m) {i : Nat}
    (hi : i < args.length) (hmax : i < maxArguments) (hne : args[i] ≠ []) :
    m.String (c.arguments i) args[i] := by
  obtain ⟨l, -, -, hbytes⟩ := h.buffers.arguments i args[i] (List.getElem?_eq_getElem hi)
  refine ⟨n + 3 + i, 0, h.fields.arguments i hi hmax, ?_⟩
  unfold Mem.StringAt
  rw [List.drop_zero, hbytes]
  exact isString_written (h.buffers.argsNoNul _ (List.getElem_mem hi)) hne

end Results

/-! ## Staying inside the buffers -/

/-- The call answers, and every block from before it keeps its bytes and is read inside its
bounds only; a store outside a buffer would have been a fault. -/
def StaysInside (U : Unspecified) (m : Mem) (b : Nat) : Prop :=
  ∃ r m', parseInput U space m (.ofBlock b 0) = .ok (r, m') ∧ Frame (· < m.next) m m'

section StaysInside

variable {U : Unspecified} {m m' : Mem} {b : Nat} {line : List UInt8}

theorem line_string (hl : m.bytes b = line ++ [0]) (h0 : 0 ∉ line) : m.StringAt b 0 line := by
  unfold Mem.StringAt
  rw [List.drop_zero, hl]
  exact isString_append h0 []

theorem lineMem_string (h0 : 0 ∉ line) : (lineMem line).StringAt 0 0 line := line_string rfl h0

/-- The read before the line is outside the line's block. -/
theorem frame_afterReads (hb : b < m.next) (h : Frame (· < m.next) (afterReads m b 0 line) m') :
    Frame (· < m.next) m m' ↔ ¬ Unstopped line := by
  unfold afterReads at h
  by_cases hu : Unstopped line
  · rw [if_pos hu] at h
    refine iff_of_false (fun hf => ?_) (not_not.2 hu)
    have hs := h.stray b hb
    rw [hf.stray b hb, Mem.strayOf_noted_outside (by simp [Mem.Inside])] at hs
    simp at hs
  · rw [if_neg hu] at h
    exact iff_of_true h hu

theorem frame_of_reads {o : Nat} (hf : Frame (· < m.next) (afterReads m b o line) m') :
    Frame (fun c => c < m.next ∧ c ≠ b) m m' := by
  refine Frame.trans ?_ (hf.mono fun c hc => hc.1)
  unfold afterReads
  split
  · exact .noted fun h => h.2 rfl
  · exact .refl _ _

theorem parseInput_frame {o : Nat} {r : Option CommandArgument} (h : m.StringAt b o line)
    (he : parseInput U space m (.ofBlock b o) = .ok (r, m')) :
    Frame (fun c => c < m.next ∧ c ≠ b) m m' ∧ m'.bytes b = m.bytes b := by
  have hm := parseInput_meets U space h
  rw [he] at hm
  have hf : Frame (· < m.next) (afterReads m b o line) m' := by
    rcases hscan : scanLine space (garbageFrom U m.next) line with _ | _ | ⟨word, args⟩
    · rw [hscan] at hm
      cases hm
    · rw [hscan] at hm
      obtain ⟨m1, he1, hf⟩ := hm
      cases he1
      exact hf
    · rw [hscan] at hm
      obtain ⟨c, m1, he1, hp⟩ := hm
      cases he1
      exact hp.buffers.frame
  refine ⟨frame_of_reads hf, ?_⟩
  rw [hf.bytes b h.lt_next, afterReads]
  split <;> simp

/-- Only reads of the older blocks are noted. -/
theorem Parsed.keeps {n o k : Nat} {bg : Int} {text word : List UInt8} {args : List (List UInt8)}
    {c : CommandArgument} (h : Parsed U (afterReads m b o line) n bg text word args c m') (hk : k < n) :
    Keeps k m m' := by
  refine Keeps.trans ?_ (.of_frame h.buffers.frame hk)
  unfold afterReads
  split
  · exact .noted
  · exact .refl _ _

/-- What was parsed, if the call answers with a command. -/
theorem parsed_of_ok {o : Nat} {c : CommandArgument} (h : m.StringAt b o line)
    (he : parseInput U space m (.ofBlock b o) = .ok (some c, m')) : ∃ word args,
    scanLine space (garbageFrom U m.next) line = .parsed word args ∧
      Parsed U (afterReads m b o line) m.next (if hasAmpersand line then 1 else 0) (trimmed line) word args c m' := by
  have hm := parseInput_meets U space h
  rw [he] at hm
  cases hscan : scanLine space (garbageFrom U m.next) line with
  | outside =>
    rw [hscan] at hm
    cases hm
  | tooMany =>
    rw [hscan] at hm
    obtain ⟨m'', he', -⟩ := hm
    cases he'
  | parsed word args =>
    rw [hscan] at hm
    obtain ⟨c', m'', he', hp⟩ := hm
    cases he'
    exact ⟨word, args, rfl, hp⟩

/-- What the parser found in a text. -/
theorem scanLine_parsed {garbage : Nat → Bool} {word : List UInt8} {args : List (List UInt8)}
    (h : scanLine space garbage line = .parsed word args) :
    word = firstWord space (trimmed line) ∧
      args = placed garbage (laterWords space (trimmed line)) := by
  rw [scanLine_eq] at h
  split at h
  · exact eq_of_scanWords_parsed _ _ h
  · cases h

theorem not_outside_iff {garbage : Nat → Bool} : scanLine space garbage line ≠ .outside ↔
    (leading line).length + (trimmed line).length + 2 ≤ inputLength ∧
    (firstWord space (trimmed line)).length < commandLength ∧
    ∀ pre w post, laterWords space (trimmed line) = pre ++ w :: post →
      (placed garbage pre).length ≤ maxArguments → w.length < argumentLength := by
  rw [scanLine_eq, ← and_assoc]
  by_cases hfit : (leading line).length + (trimmed line).length + 2 ≤ inputLength ∧
      (firstWord space (trimmed line)).length < commandLength
  · rw [if_pos hfit, scanWords_ne_outside_iff]
    exact (and_iff_right hfit).symm
  · rw [if_neg hfit]
    exact iff_of_false (by simp) fun h => hfit h.1

/-- `parseInput` stays inside the line and its buffers exactly when something stops
`right_index`, the copy and the leading spaces fit the 500 bytes, and the command and every word
reached before the arguments are too many fit their 20 bytes. -/
theorem staysInside_iff (hl : m.bytes b = line ++ [0]) (h0 : 0 ∉ line) : StaysInside U m b ↔
    ¬ Unstopped line ∧ (leading line).length + (trimmed line).length + 2 ≤ inputLength ∧
    (firstWord space (trimmed line)).length < commandLength ∧
    ∀ pre w post, laterWords space (trimmed line) = pre ++ w :: post →
      (placed (garbageFrom U m.next) pre).length ≤ maxArguments → w.length < argumentLength := by
  have hs := line_string hl h0
  have hm := parseInput_meets U space hs
  rw [← not_outside_iff]
  cases hscan : scanLine space (garbageFrom U m.next) line with
  | outside =>
    rw [hscan] at hm
    refine iff_of_false ?_ (by simp)
    rintro ⟨r, m', he, -⟩
    cases hm.symm.trans he
  | tooMany =>
    rw [hscan] at hm
    obtain ⟨m', he, hf⟩ := hm
    rw [← frame_afterReads hs.lt_next hf]
    constructor
    · rintro ⟨r, m'', he', hf'⟩
      cases he.symm.trans he'
      exact ⟨hf', by simp⟩
    · exact fun h => ⟨none, m', he, h.1⟩
  | parsed word args =>
    rw [hscan] at hm
    obtain ⟨c, m', he, hp⟩ := hm
    rw [← frame_afterReads hs.lt_next hp.buffers.frame]
    constructor
    · rintro ⟨r, m'', he', hf'⟩
      cases he.symm.trans he'
      exact ⟨hf', by simp⟩
    · exact fun h => ⟨some c, m', he, h.1⟩

end StaysInside

theorem staysInside_ls : StaysInside (filled 64) (lineMem [108, 115]) 0 := by
  have hw : laterWords space (trimmed [108, 115]) = [] := by decide
  refine (staysInside_iff rfl (by decide)).2 ⟨by decide, by decide, by decide, fun pre w post h => ?_⟩
  rw [hw] at h
  simp at h

/-- The terminator of a command of 20 characters falls behind its buffer. -/
theorem long_command_overruns :
    ¬ StaysInside (filled 0) (lineMem (List.replicate 20 97)) 0 := by
  rintro ⟨r, m', he, -⟩
  have hm := parseInput_meets (filled 0) space
    (show (lineMem (List.replicate 20 97)).StringAt 0 0 (List.replicate 20 97) from lineMem_string (by decide))
  rw [show scanLine space (garbageFrom (filled 0) (lineMem (List.replicate 20 97)).next)
    (List.replicate 20 97) = .outside by decide] at hm
  cases hm.symm.trans he

/-! ## The words of a line -/

/-- The line's words fit the buffers, and there are not too many of them. -/
structure FitsBuffers (line : List UInt8) : Prop where
  command : (firstWord space (trimmed line)).length < commandLength
  words : ∀ w ∈ laterWords space (trimmed line), w.length < argumentLength
  count : (nonempty (laterWords space (trimmed line))).length ≤ maxArguments
  length : (trimmed line).length + 2 ≤ inputLength

instance (line : List UInt8) : Decidable (FitsBuffers line) :=
  decidable_of_iff
    ((firstWord space (trimmed line)).length < commandLength ∧
      (∀ w ∈ laterWords space (trimmed line), w.length < argumentLength) ∧
      (nonempty (laterWords space (trimmed line))).length ≤ maxArguments ∧
      (trimmed line).length + 2 ≤ inputLength)
    ⟨fun ⟨a, b, c, d⟩ => ⟨a, b, c, d⟩, fun ⟨a, b, c, d⟩ => ⟨a, b, c, d⟩⟩

/-- The result is the command and the non-empty words behind it, each a string of its own. -/
def ParsesRight (U : Unspecified) (m : Mem) (b o : Nat) (line : List UInt8) : Prop :=
  let command := firstWord space (trimmed line)
  let arguments := nonempty (laterWords space (trimmed line))
  ∃ c m', parseInput U space m (.ofBlock b o) = .ok (some c, m') ∧
    m'.String c.command command ∧ c.argumentCount = arguments.length ∧
    ∀ i (h : i < arguments.length), m'.String (c.arguments i) arguments[i]

section Words

variable {U : Unspecified} {m : Mem} {b o : Nat} {line text : List UInt8} {separator : UInt8}

theorem text_of_laterWords_nil (h : laterWords separator text = []) :
    text = firstWord separator text := by
  have hi : [separator].intercalate (text.splitOn separator) = text := List.intercalate_splitOn separator
  rw [splitOn_eq_cons, h] at hi
  simpa using hi.symm

/-- The last word is empty only behind a separator. -/
theorem getLast_of_laterWords : ∀ text : List UInt8,
    (laterWords separator text).getLast? = some [] → text.getLast? = some separator
  | [], h => by simp [laterWords] at h
  | ch :: text, h => by
    by_cases hs : ch = separator
    · rw [hs, laterWords_separator] at h
      cases hw : laterWords separator text with
      | nil =>
        rw [hw, List.getLast?_singleton, Option.some.injEq] at h
        rw [text_of_laterWords_nil hw, h, hs]
        rfl
      | cons w ws =>
        rw [hw, List.getLast?_cons_cons, ← hw] at h
        have ih := getLast_of_laterWords text h
        rw [List.getLast?_cons, ih]
        rfl
    · rw [laterWords_cons hs] at h
      have ih := getLast_of_laterWords text h
      rw [List.getLast?_cons, ih]
      rfl

theorem trimmed_last : (laterWords space (trimmed line)).getLast? ≠ some [] := by
  intro h
  have hlast := getLast_of_laterWords _ h
  have hne : trimmed line ≠ [] := by
    intro he
    rw [he] at hlast
    cases hlast
  rw [List.getLast?_eq_getLast_of_ne_nil hne, Option.some.injEq] at hlast
  have hj := trimmed_getLast hne
  rw [hlast] at hj
  exact hj (by decide)

/-- With every empty buffer reused, the arguments never are too many on the way. -/
theorem scanWords_of_reuses {garbage : Nat → Bool} {command : List UInt8}
    {words : List (List UInt8)} (hw : ∀ w ∈ words, w.length < argumentLength)
    (hc : (nonempty words).length ≤ maxArguments) (hlast : words.getLast? ≠ some [])
    (h : ReusesEmpty garbage words) :
    scanWords garbage command words [] = .parsed command (nonempty words) := by
  rw [scanWords_parsed words [] fun pre w post heq => ⟨?_, hw w (by simp [heq])⟩]
  · rw [← placed, placed_of_reuses h, if_neg hlast, List.append_nil]
  · -- a non-empty word is still to come
    have hpre : ReusesEmpty garbage pre := fun p q hq => h p (q ++ w :: post) (by simp [heq, hq])
    have hpost : (nonempty (w :: post)).length ≠ 0 := by
      rw [Ne, List.length_eq_zero_iff]
      intro hnil
      apply hlast
      have hl : words.getLast? = some ((w :: post).getLast (by simp)) := by
        rw [heq, List.getLast?_append_of_ne_nil _ (by simp), List.getLast?_eq_getLast_of_ne_nil]
      rw [hl]
      have := List.filter_eq_nil_iff.1 hnil _ (List.getLast_mem (by simp : w :: post ≠ []))
      simpa using this
    rw [heq, nonempty_append, List.length_append] at hc
    rw [← placed, placed_of_reuses hpre, List.length_append]
    split <;> simp <;> omega

/-- The result when every empty buffer is reused. -/
theorem parseInput_parsed (h : m.StringAt b o line) (hf : FitsBuffers line)
    (hl : (leading line).length + (trimmed line).length + 2 ≤ inputLength)
    (hr : ReusesEmpty (garbageFrom U m.next) (laterWords space (trimmed line))) :
    ∃ c m', parseInput U space m (.ofBlock b o) = .ok (some c, m') ∧
      Parsed U (afterReads m b o line) m.next (if hasAmpersand line then 1 else 0) (trimmed line)
        (firstWord space (trimmed line)) (nonempty (laterWords space (trimmed line))) c m' := by
  have hscan : scanLine space (garbageFrom U m.next) line =
      .parsed (firstWord space (trimmed line)) (nonempty (laterWords space (trimmed line))) := by
    rw [scanLine_eq, if_pos ⟨hl, hf.command⟩,
      scanWords_of_reuses hf.words hf.count trimmed_last hr]
  have hm := parseInput_meets U space h
  rwa [hscan] at hm

/-- In memory of NULs a line that fits is parsed. -/
theorem parseInput_zeros (h : m.StringAt b o line) (hf : FitsBuffers line ∧
    (leading line).length + (trimmed line).length + 2 ≤ inputLength) :
    ∃ c m', parseInput (filled 0) space m (.ofBlock b o) = .ok (some c, m') ∧
      Parsed (filled 0) (afterReads m b o line) m.next (if hasAmpersand line then 1 else 0) (trimmed line)
        (firstWord space (trimmed line)) (nonempty (laterWords space (trimmed line))) c m' :=
  parseInput_parsed h hf.1 hf.2 fun _ _ _ => rfl

/-- What the number of arguments says about the scan. -/
theorem reuses_of_parsed {garbage : Nat → Bool} {word : List UInt8} {args : List (List UInt8)}
    (h : scanLine space garbage line = .parsed word args)
    (hc : args.length = (nonempty (laterWords space (trimmed line))).length) :
    (leading line).length + (trimmed line).length + 2 ≤ inputLength ∧
      ReusesEmpty garbage (laterWords space (trimmed line)) := by
  rw [scanLine_eq] at h
  split at h
  · next hfit =>
    obtain ⟨-, he⟩ := eq_of_scanWords_parsed _ _ h
    rw [← placed] at he
    refine ⟨hfit.1, reuses_of_placed trimmed_last ?_⟩
    rw [← he]
    have hn := nonempty_placed garbage (laterWords space (trimmed line))
    rw [← he] at hn
    rw [← hn] at hc ⊢
    exact ((List.filter_sublist).eq_of_length hc.symm).symm
  · cases h

theorem ne_nil_of_nonempty {words : List (List UInt8)} {i : Nat}
    (h : i < (nonempty words).length) : (nonempty words)[i] ≠ [] := by
  have := List.mem_filter.1 (List.getElem_mem h)
  simpa using this.2

/-- On lines that fit the buffers, the result is right exactly when the leading spaces leave room
for the terminator and every empty word finds a buffer that began with NUL. -/
theorem parsesRight_iff (h : m.StringAt b o line) (hf : FitsBuffers line) :
    ParsesRight U m b o line ↔
      (leading line).length + (trimmed line).length + 2 ≤ inputLength ∧
        ReusesEmpty (garbageFrom U m.next) (laterWords space (trimmed line)) := by
  constructor
  · rintro ⟨c, m', he, -, hcount, -⟩
    obtain ⟨word, args, hscan, hp⟩ := parsed_of_ok h he
    apply reuses_of_parsed hscan
    have := hp.argumentCount.symm.trans hcount
    exact_mod_cast this
  · rintro ⟨hl, hr⟩
    obtain ⟨c, m', he, hp⟩ := parseInput_parsed h hf hl hr
    exact ⟨c, m', he, hp.command_string, hp.argumentCount, fun i hi =>
      hp.argument_string hi (Nat.lt_of_lt_of_le hi hf.count) (ne_nil_of_nonempty hi)⟩

end Words

/-- `ls  x` in memory that holds NULs. -/
theorem parsesRight_ls :
    ParsesRight (filled 0) (lineMem [108, 115, 32, 32, 120]) 0 0 [108, 115, 32, 32, 120] := by
  exact (parsesRight_iff (lineMem_string (by decide)) (by decide)).2 ⟨by decide, fun _ _ _ => rfl⟩

/-- The two spaces of `a  b` make an argument of the 64s in the first fresh buffer. -/
theorem garbage_argument : FitsBuffers [97, 32, 32, 98] ∧
    ¬ ParsesRight (filled 64) (lineMem [97, 32, 32, 98]) 0 0 [97, 32, 32, 98] := by
  refine ⟨by decide, ?_⟩
  rintro ⟨c, m', he, -, hcount, -⟩
  have hm := parseInput_meets (filled 64) space
    (show (lineMem [97, 32, 32, 98]).StringAt 0 0 [97, 32, 32, 98] from lineMem_string (by decide))
  rw [show scanLine space (garbageFrom (filled 64) (lineMem [97, 32, 32, 98]).next)
    [97, 32, 32, 98] = .parsed [97] [[], [98]] by decide] at hm
  obtain ⟨c', m'', he', hp⟩ := hm
  cases he'.symm.trans he
  rw [hp.argumentCount] at hcount
  exact absurd hcount (by decide)

end Sbunix.Sbush
