/-
Lines with a `'|'`: `parsePipeCommand` cuts the line in place and parses its fields in order, and
the pipeline is started when every field has a command.

Two scanners have to agree on the fields: `countNumberOfPipes` runs to the NUL, `strchr` stops at
a newline. They do on the lines `fgets` delivers, whose newline is the last character.
-/
import Sbunix.Sbush.ParseInput
import Sbunix.Sbush.Shell
import Mathlib.Data.List.Forall2

namespace Sbunix.Sbush

open BlockMemory Fallible Libc

/-! ## Fields -/

def fields (line : List UInt8) : List (List UInt8) := line.splitOn pipeChar

/-- No character other than spaces, newlines and `'&'`. -/
def Blank (field : List UInt8) : Prop := ∀ ch ∈ field, isJunk ch = true

instance (field : List UInt8) : Decidable (Blank field) :=
  inferInstanceAs (Decidable (∀ ch ∈ field, _))

/-- A line with a `'|'` as `fgets` delivers it, whose fields fit the parser's buffers. -/
structure PipeLine (line : List UInt8) : Prop where
  noNul : 0 ∉ line
  piped : pipeChar ∈ line
  newlineLast : NewlineLast line
  fits : ∀ field ∈ fields line, FitsBuffers field ∧ field.length + 2 ≤ inputLength

section Fields

variable {separator : UInt8} {text field rest line : List UInt8}

theorem length_laterWords : ∀ text : List UInt8,
    (laterWords separator text).length = text.count separator
  | [] => rfl
  | ch :: text => by
    by_cases hs : ch = separator
    · rw [hs, laterWords_separator, List.length_cons, length_laterWords text, List.count_cons_self]
    · rw [laterWords_cons hs, length_laterWords text, List.count_cons_of_ne hs]

theorem length_fields (line : List UInt8) : (fields line).length = line.count pipeChar + 1 := by
  rw [fields, splitOn_eq_cons, List.length_cons, length_laterWords]

theorem not_mem_firstWord : ∀ text : List UInt8, separator ∉ firstWord separator text
  | [] => by simp [firstWord]
  | ch :: text => by
    by_cases hs : ch = separator
    · rw [hs, firstWord_separator]
      simp
    · rw [firstWord_cons hs, List.mem_cons, not_or]
      exact ⟨Ne.symm hs, not_mem_firstWord text⟩

theorem not_mem_laterWords : ∀ text : List UInt8,
    ∀ w ∈ laterWords separator text, separator ∉ w
  | [], w, h => by simp [laterWords] at h
  | ch :: text, w, h => by
    by_cases hs : ch = separator
    · rw [hs, laterWords_separator, List.mem_cons] at h
      rcases h with h | h
      · exact h ▸ not_mem_firstWord text
      · exact not_mem_laterWords text w h
    · rw [laterWords_cons hs] at h
      exact not_mem_laterWords text w h

theorem not_mem_field (h : field ∈ fields line) : pipeChar ∉ field := by
  rw [fields, splitOn_eq_cons, List.mem_cons] at h
  rcases h with h | h
  · exact h ▸ not_mem_firstWord line
  · exact not_mem_laterWords line field h

theorem intercalate_fields (line : List UInt8) : [pipeChar].intercalate (fields line) = line :=
  List.intercalate_splitOn pipeChar

theorem countPipes_eq : ∀ (line : List UInt8) (n : Nat), 0 ∉ line →
    countPipes (line ++ [0]) n = .ok (n + line.count pipeChar)
  | [], n, _ => by simp [countPipes]
  | ch :: line, n, h => by
    rw [List.mem_cons, not_or] at h
    rw [List.cons_append, countPipes, if_pos (Ne.symm h.1), countPipes_eq line _ h.2]
    by_cases hc : ch = pipeChar
    · rw [if_pos hc, hc, List.count_cons_self]
      congr 1
      omega
    · rw [if_neg hc, List.count_cons_of_ne hc]

theorem NewlineLast.not_mem (h : NewlineLast (field ++ pipeChar :: rest)) : newline ∉ field := by
  intro hm
  obtain ⟨a, b, rfl⟩ := List.append_of_mem hm
  have := h a (b ++ pipeChar :: rest) (by simp)
  simp at this

theorem NewlineLast.tail (h : NewlineLast (field ++ pipeChar :: rest)) : NewlineLast rest := by
  rintro pre post rfl
  exact h (field ++ pipeChar :: pre) post (by simp)

/-- The command of a field is empty exactly when the field is blank. -/
theorem firstWord_eq_nil_iff : firstWord space (trimmed field) = [] ↔ Blank field := by
  have hblank : trimmed field = [] ↔ Blank field := by
    rw [trimmed, List.rdropWhile_eq_nil_iff]
    constructor
    · intro h ch hch
      rw [← leading_append field, List.mem_append] at hch
      rcases hch with hch | hch
      · have : ch = space := by simpa using List.mem_takeWhile_imp hch
        rw [this]
        decide
      · exact h ch hch
    · exact fun h ch hch => h ch (List.dropWhile_sublist _ |>.subset hch)
  rw [← hblank]
  constructor
  · intro h
    cases ht : trimmed field with
    | nil => rfl
    | cons ch text =>
      -- the first character is not a space, so it belongs to the first word
      have hch : ch ≠ space := by
        rintro rfl
        have hpre : trimmed field <+: unindented field := List.rdropWhile_prefix _ _
        obtain ⟨r, hr⟩ := hpre
        rw [ht] at hr
        have := List.head?_dropWhile_not (fun x : UInt8 => decide (x = space)) field
        rw [← unindented, ← hr] at this
        simp at this
      rw [ht, firstWord_cons hch] at h
      cases h
  · intro h
    rw [h]
    rfl

end Fields

/-! ## parsePipeCommand -/

/-- `r` is what `parseInput` answers on a field, called with a pointer to the field's place in the
line (the one `strchr` searched from), and what that call left in memory is still there in `m`. -/
def ResultOf (U : Unspecified) (b : Nat) (line : List UInt8) (m : Mem) (field : List UInt8)
    (r : Option CommandArgument) : Prop :=
  ∃ pre post m1 m2, line = pre ++ field ++ post ∧ m1.StringAt b pre.length field ∧
    parseInput U space m1 (.ofBlock b pre.length) = .ok (r, m2) ∧
    ∀ k < m2.next, k ≠ b → m.bytes k = m2.bytes k

/-- What is known of an entry of `c_Args` in the memory `m`. -/
structure Entry (U : Unspecified) (b : Nat) (line : List UInt8) (m : Mem) (field : List UInt8)
    (r : Option CommandArgument) : Prop where
  result : ResultOf U b line m field r
  command : ∀ c, r = some c → m.String c.command (firstWord space (trimmed field))
  few : (laterWords space (trimmed field)).length ≤ maxArguments + 1 → r ≠ none
  many : (∀ k i, U.fresh k i ≠ 0) → maxArguments + 1 < (laterWords space (trimmed field)).length →
    r = none

section Parse

variable {U : Unspecified} {m m' : Mem} {b o : Nat} {line field rest : List UInt8}

/-- `parseInput` on a field that fits: NULL can only come of too many words. -/
theorem parseInput_field (h : m.StringAt b o field) (hf : FitsBuffers field)
    (hl : field.length + 2 ≤ inputLength) :
    ∃ r m', parseInput U space m (.ofBlock b o) = .ok (r, m') ∧
      (∀ c, r = some c → ∃ k < m'.next, m.next ≤ k ∧ c.command = .ofBlock k 0 ∧
        m'.StringAt k 0 (firstWord space (trimmed field))) ∧
      ((laterWords space (trimmed field)).length ≤ maxArguments + 1 → r ≠ none) ∧
      ((∀ k i, U.fresh k i ≠ 0) → maxArguments + 1 < (laterWords space (trimmed field)).length →
        r = none) := by
  have hm := parseInput_meets U space h
  have hfit : (leading field).length + (trimmed field).length + 2 ≤ inputLength := by
    have := leading_trimmed_le field
    omega
  have hscan := scanLine_eq space (garbageFrom U m.next) field
  rw [if_pos ⟨hfit, hf.command⟩] at hscan
  cases ho : scanLine space (garbageFrom U m.next) field with
  | outside =>
    have hne := (scanWords_ne_outside_iff (garbageFrom U m.next)
      (firstWord space (trimmed field)) (laterWords space (trimmed field)) []).2
      fun pre w post heq _ => hf.words w (by simp [heq])
    exact absurd (hscan.symm.trans ho) hne
  | tooMany =>
    rw [ho] at hm
    obtain ⟨m', he, -⟩ := hm
    refine ⟨none, m', he, by simp, fun hfew => ?_, fun _ _ => rfl⟩
    rw [hscan, scanWords_few hf.words (by simpa using hfew)] at ho
    cases ho
  | parsed word args =>
    rw [ho] at hm
    obtain ⟨c, m', he, hp⟩ := hm
    refine ⟨some c, m', he, ?_, fun _ => by simp, fun hg hmany => ?_⟩
    · rintro _ ⟨⟩
      have hword := (eq_of_scanWords_parsed _ _ (hscan.symm.trans ho)).1
      obtain ⟨k, o', hk, hs⟩ := hp.command_string
      rw [hp.fields.command, Ptr.ofBlock.injEq] at hk
      obtain ⟨rfl, ho'⟩ := hk
      obtain rfl : o' = 0 := by omega
      rw [← hword]
      exact ⟨m.next + 1, hs.lt_next, by omega, hp.fields.command, hs⟩
    · have hall : ∀ k, garbageFrom U m.next k = true := fun k => by simp [garbageFrom, hg]
      rw [hscan, scanWords_many hall hf.words [] (by simpa using hmany)] at ho
      · cases ho
      · intro hnil
        rw [hnil] at hmany
        simp at hmany

theorem Entry.of_result {r : Option CommandArgument} (h : ResultOf U b line m field r) (hf : FitsBuffers field)
    (hl : field.length + 2 ≤ inputLength) : Entry U b line m field r := by
  obtain ⟨pre, post, m1, m2, hline, hs, he, hkept⟩ := id h
  obtain ⟨r', m', he', hcommand, hfew, hmany⟩ := parseInput_field (U := U) hs hf hl
  cases he.symm.trans he'
  refine ⟨h, fun c hc => ?_, hfew, hmany⟩
  obtain ⟨k, hk, hle, hkp, hstr⟩ := hcommand c hc
  have hb := hs.lt_next
  exact ⟨k, 0, hkp, Mem.stringAt_of_bytes (hkept k hk (by omega)) hstr⟩

/-- The search for the next `'|'`. -/
theorem strchr_pipe {P : List UInt8} (hb : m.bytes b = P ++ (field ++ pipeChar :: rest) ++ [0])
    (h0 : 0 ∉ field ++ pipeChar :: rest) (hp : pipeChar ∉ field) (hn : newline ∉ field) :
    strchr m (.ofBlock b P.length) pipeChar = .ok (.ofBlock b (P.length + field.length : Nat)) := by
  have hs : m.StringAt b P.length (field ++ pipeChar :: rest) := by
    unfold Mem.StringAt
    rw [hb, List.append_assoc, List.drop_left]
    exact isString_append h0 []
  have hmem : pipeChar ∈ (field ++ pipeChar :: rest).takeWhile (· ≠ newline) := by
    rw [List.takeWhile_append_of_pos (by
      intro ch hch
      simpa using fun h : ch = newline => hn (h ▸ hch)),
      List.takeWhile_cons_of_pos (by decide)]
    simp
  rw [strchr_string hs, if_pos hmem, List.idxOf_append_of_notMem hp, List.idxOf_cons_self]
  push_cast
  rfl

theorem strchr_absent {c : UInt8} (hs : m.StringAt b o field) (hc : c ∉ field) :
    strchr m (.ofBlock b o) c = .ok .null := by
  rw [strchr_string hs, if_neg fun h => hc (List.takeWhile_subset _ h)]

/-- One round of the loop from what its calls answer. -/
theorem parseFields_round {rounds : Nat} {m1 m2 m3 : Mem} {prev next prev' : Ptr}
    {r : Option CommandArgument} {cArgs : List (Option CommandArgument)}
    (hnext : strchr m prev pipeChar = .ok next) (hcut : cutAt m next = .ok m1)
    (hparse : parseInput U space m1 prev = .ok (r, m2)) (hprev : nextField m2 prev next = .ok prev')
    (hrest : parseFields U rounds m2 prev' = .ok (cArgs, m3)) :
    parseFields U (rounds + 1) m prev = .ok (r :: cArgs, m3) := by
  rw [parseFields, hnext]
  simp only [ok_bind, hcut, hparse, hprev, hrest]
  rfl

/-- The `'|'` behind a field becomes its terminator. -/
theorem cutAt_pipe {P field suffix : List UInt8}
    (hb : m.bytes b = P ++ (field ++ pipeChar :: suffix) ++ [0]) (h0 : 0 ∉ field) :
    ∃ m1, cutAt m (.ofBlock b (P.length + field.length : Nat)) = .ok m1 ∧
      Frame (fun c => c < m.next ∧ c ≠ b) m m1 ∧ m1.next = m.next ∧
      m1.bytes b = P ++ (field ++ 0 :: suffix) ++ [0] ∧ m1.StringAt b P.length field := by
  have hblk : b < m.next := Mem.lt_next_of_bytes_ne (by rw [hb]; simp)
  have hi : m.Inside b (P.length + field.length : Nat) := by
    constructor
    · omega
    · rw [hb]
      simp
      omega
  have hcut : (m.bytes b).set (P.length + field.length) 0 = P ++ (field ++ 0 :: suffix) ++ [0] := by
    rw [hb, List.set_append_left _ _ (by simp), List.set_append_right _ _ (by omega),
      List.set_append_right _ _ (by omega)]
    simp
  have hb1 : (m.setBytes b (P ++ (field ++ 0 :: suffix) ++ [0])).bytes b =
      P ++ (field ++ 0 :: suffix) ++ [0] := Mem.bytes_setBytes_self hblk
  refine ⟨m.setBytes b (P ++ (field ++ 0 :: suffix) ++ [0]), ?_, .setBytes (by simp) _, by simp, hb1, ?_⟩
  · rw [cutAt, if_pos (by simp), store_inside hi, Int.toNat_natCast, hcut]
  · unfold Mem.StringAt
    rw [hb1, List.append_assoc, List.drop_left, List.append_assoc]
    exact isString_append h0 _

/-- On fields that fit, every round answers. By induction on the fields that are left; `P` is the part of the
line's block behind `prev`, the part of the line with its `'|'`s overwritten. -/
theorem parseFields_answers : ∀ (fs : List (List UInt8)) (field : List UInt8) (m : Mem) (P : List UInt8),
    m.bytes b = P ++ [pipeChar].intercalate (field :: fs) ++ [0] →
    0 ∉ [pipeChar].intercalate (field :: fs) → NewlineLast ([pipeChar].intercalate (field :: fs)) →
    (∀ f ∈ field :: fs, pipeChar ∉ f ∧ FitsBuffers f ∧ f.length + 2 ≤ inputLength) →
    ∃ cArgs m', parseFields U (field :: fs).length m (.ofBlock b P.length) = .ok (cArgs, m')
  | [], field, m, P, hb, h0, hn, hfs => by
    rw [List.intercalate_singleton] at hb h0
    obtain ⟨hp, hf, hl⟩ := hfs field (by simp)
    have hs : m.StringAt b P.length field := by
      unfold Mem.StringAt
      rw [hb, List.append_assoc, List.drop_left]
      exact isString_append h0 []
    obtain ⟨r, m', he, -⟩ := parseInput_field (U := U) hs hf hl
    have hs' : m'.StringAt b P.length field := Mem.stringAt_of_bytes (parseInput_frame hs he).2 hs
    -- behind the last field `strchr(prev, '\0')` is NULL, and `prev` is never used again
    have hprev : nextField m' (.ofBlock b P.length) .null = .ok .wild := by
      rw [nextField, if_neg (by simp), strchr_absent hs' h0]
      rfl
    exact ⟨[r], m', parseFields_round (strchr_absent hs hp) rfl he hprev rfl⟩
  | g :: fs, field, m, P, hb, h0, hn, hfs => by
    rw [List.intercalate_cons_cons] at hb h0 hn
    simp only [List.append_assoc, List.singleton_append] at h0 hn
    rw [show P ++ (field ++ [pipeChar] ++ [pipeChar].intercalate (g :: fs)) ++ [0] =
      P ++ (field ++ pipeChar :: [pipeChar].intercalate (g :: fs)) ++ [0] by simp] at hb
    obtain ⟨hp, hf, hl⟩ := hfs field (by simp)
    have hfind := strchr_pipe hb h0 hp hn.not_mem
    set suffix := [pipeChar].intercalate (g :: fs) with hsuffix
    -- the field is cut off, parsed, and the rest of the line is left as it was
    obtain ⟨m1, hcut, -, -, hb1, hs⟩ := cutAt_pipe hb fun h => h0 (List.mem_append_left _ h)
    obtain ⟨r, m2, he, -⟩ := parseInput_field (U := U) hs hf hl
    have hlen : (P ++ field ++ [0]).length = P.length + field.length + 1 := by
      rw [List.length_append, List.length_append, List.length_singleton]
    obtain ⟨cArgs, m3, he3⟩ := parseFields_answers fs g m2 (P ++ field ++ [0])
      (by rw [(parseInput_frame hs he).2, hb1]; simp [hsuffix]) (fun h => h0 (by simp [hsuffix, h])) hn.tail
      (fun f hfm => hfs f (List.mem_cons_of_mem _ hfm))
    refine ⟨r :: cArgs, m3, parseFields_round hfind hcut he ?_ he3⟩
    rw [nextField, if_pos (by simp), hlen, Ptr.add]
    push_cast
    rfl

/-- What the calls of a round answered. -/
theorem parseFields_round_ok {rounds : Nat} {m1 m3 : Mem} {prev next : Ptr} {cArgs : List (Option CommandArgument)}
    (hnext : strchr m prev pipeChar = .ok next) (hcut : cutAt m next = .ok m1)
    (h : parseFields U (rounds + 1) m prev = .ok (cArgs, m3)) :
    ∃ r m2 prev' rest, parseInput U space m1 prev = .ok (r, m2) ∧ nextField m2 prev next = .ok prev' ∧
      parseFields U rounds m2 prev' = .ok (rest, m3) ∧ cArgs = r :: rest := by
  rw [parseFields, hnext] at h
  simp only [ok_bind, hcut] at h
  obtain ⟨⟨r, m2⟩, hparse, h⟩ := bind_eq_ok h
  obtain ⟨prev', hprev, h⟩ := bind_eq_ok h
  obtain ⟨⟨rest, m4⟩, hrest, h⟩ := bind_eq_ok h
  cases h
  exact ⟨r, m2, prev', rest, hparse, hprev, hrest, rfl⟩

/-- Whatever the fields are, an answer is what `parseInput` answered on each of them. -/
theorem parseFields_results (line : List UInt8) : ∀ (fs : List (List UInt8)) (field : List UInt8)
    (m : Mem) (P pre : List UInt8) (cArgs : List (Option CommandArgument)),
    line = pre ++ [pipeChar].intercalate (field :: fs) → P.length = pre.length →
    m.bytes b = P ++ [pipeChar].intercalate (field :: fs) ++ [0] →
    0 ∉ [pipeChar].intercalate (field :: fs) → NewlineLast ([pipeChar].intercalate (field :: fs)) →
    (∀ f ∈ field :: fs, pipeChar ∉ f) →
    parseFields U (field :: fs).length m (.ofBlock b P.length) = .ok (cArgs, m') →
    Frame (fun c => c < m.next ∧ c ≠ b) m m' ∧ List.Forall₂ (ResultOf U b line m') (field :: fs) cArgs
  | [], field, m, P, pre, cArgs, hline, hP, hb, h0, hn, hfs, he => by
    rw [List.intercalate_singleton] at hline hb h0
    have hs : m.StringAt b P.length field := by
      unfold Mem.StringAt
      rw [hb, List.append_assoc, List.drop_left]
      exact isString_append h0 []
    obtain ⟨r, m2, prev', rest, hparse, -, hrest, rfl⟩ :=
      parseFields_round_ok (strchr_absent hs (hfs field (by simp))) rfl he
    cases hrest
    exact ⟨(parseInput_frame hs hparse).1,
      .cons ⟨pre, [], m, m', by simpa using hline, hP ▸ hs, hP ▸ hparse, fun _ _ _ => rfl⟩ .nil⟩
  | g :: fs, field, m, P, pre, cArgs, hline, hP, hb, h0, hn, hfs, he => by
    rw [List.intercalate_cons_cons] at hline hb h0 hn
    simp only [List.append_assoc, List.singleton_append] at hline h0 hn
    rw [show P ++ (field ++ [pipeChar] ++ [pipeChar].intercalate (g :: fs)) ++ [0] =
      P ++ (field ++ pipeChar :: [pipeChar].intercalate (g :: fs)) ++ [0] by simp] at hb
    have hfind := strchr_pipe hb h0 (hfs field (by simp)) hn.not_mem
    set suffix := [pipeChar].intercalate (g :: fs) with hsuffix
    obtain ⟨m1, hcut, hf1, hn1, hb1, hs⟩ := cutAt_pipe hb fun h => h0 (List.mem_append_left _ h)
    obtain ⟨r, m2, prev', rest, hparse, hprev, hrest, rfl⟩ := parseFields_round_ok hfind hcut he
    obtain ⟨hf2, hsame⟩ := parseInput_frame hs hparse
    have hlen : (P ++ field ++ [0]).length = P.length + field.length + 1 := by
      rw [List.length_append, List.length_append, List.length_singleton]
    rw [nextField, if_pos (by simp), Ptr.add] at hprev
    cases hprev
    obtain ⟨hf3, hall⟩ := parseFields_results line fs g m2 (P ++ field ++ [0]) (pre ++ field ++ [pipeChar]) rest
      (by rw [hline]; simp [hsuffix]) (by simp; omega) (by rw [hsame, hb1]; simp [hsuffix])
      (fun h => h0 (by simp [hsuffix, h])) hn.tail (fun f hf => hfs f (List.mem_cons_of_mem _ hf))
      (by rw [hlen]; exact_mod_cast hrest)
    rw [hn1] at hf2
    have hle := hf2.next_le
    rw [hn1] at hle
    refine ⟨(hf1.trans hf2).trans (hf3.mono fun c hc => ⟨Nat.lt_of_lt_of_le hc.1 hle, hc.2⟩), .cons ?_ hall⟩
    exact ⟨pre, pipeChar :: suffix, m1, m2, by rw [hline]; simp, hP ▸ hs, hP ▸ hparse,
      fun k hk hkb => hf3.bytes k ⟨hk, hkb⟩⟩

/-- Every entry of `c_Args`, on whatever line. -/
theorem parsePipeCommand_results {cArgs : List (Option CommandArgument)} (hb : m.bytes b = line ++ [0])
    (h0 : 0 ∉ line) (hn : NewlineLast line)
    (he : parsePipeCommand U m (line.count pipeChar) (.ofBlock b 0) = .ok (cArgs, m')) :
    List.Forall₂ (ResultOf U b line m') (fields line) cArgs := by
  obtain ⟨field, fs, hfs⟩ := List.exists_cons_of_ne_nil (List.splitOn_ne_nil pipeChar line)
  have hline := intercalate_fields line
  rw [parsePipeCommand, ← length_fields] at he
  rw [fields, hfs] at hline he ⊢
  refine (parseFields_results (U := U) line fs field m [] [] cArgs hline.symm rfl (by rw [hline]; exact hb)
    (by rw [hline]; exact h0) (by rw [hline]; exact hn) (fun f hf => ?_) he).2
  rw [← hfs] at hf
  exact not_mem_field hf

/-- On a line whose fields fit, every entry of `c_Args` is what its field gives. -/
theorem parsePipeCommand_eq (h : PipeLine line) (hb : m.bytes b = line ++ [0]) :
    ∃ cArgs m', parsePipeCommand U m (line.count pipeChar) (.ofBlock b 0) = .ok (cArgs, m') ∧
      List.Forall₂ (Entry U b line m') (fields line) cArgs := by
  obtain ⟨field, fs, hfs⟩ := List.exists_cons_of_ne_nil (List.splitOn_ne_nil pipeChar line)
  have hline := intercalate_fields line
  rw [fields, hfs] at hline
  obtain ⟨cArgs, m', he⟩ := parseFields_answers (U := U) fs field m [] (by rw [hline]; exact hb)
    (by rw [hline]; exact h.noNul) (by rw [hline]; exact h.newlineLast)
    (fun f hf => by
      rw [← hfs] at hf
      exact ⟨not_mem_field hf, h.fits f hf⟩)
  have hparse : parsePipeCommand U m (line.count pipeChar) (.ofBlock b 0) = .ok (cArgs, m') := by
    rw [parsePipeCommand, ← length_fields, fields, hfs]
    exact he
  refine ⟨cArgs, m', hparse, ?_⟩
  have hall := parsePipeCommand_results hb h.noNul h.newlineLast hparse
  have hfit := (List.forall₂_and_left _ _).2 ⟨h.fits, hall⟩
  exact hfit.imp fun _ _ hx => Entry.of_result hx.2 hx.1.1 hx.1.2

/-- The check reads the commands only, and passes none of the NULL entries. -/
theorem isValidate_ok {v : Bool} : ∀ {cArgs : List (Option CommandArgument)},
    (∀ c, some c ∈ cArgs → ∃ s, m.String c.command s) →
    isValidateParsedPipeInput U m cArgs = .ok (v, m') → m' = m ∧ (v = true → none ∉ cArgs)
  | [], _, h => by
    cases h
    exact ⟨rfl, fun _ => List.not_mem_nil⟩
  | none :: cArgs, _, h => by cases h
  | some c :: cArgs, hs, h => by
    obtain ⟨s, k, o, hk, hstr⟩ := hs c (.head _)
    rw [isValidateParsedPipeInput, hk, strlen_string hstr] at h
    simp only [ok_bind] at h
    split at h
    · cases h
      exact ⟨rfl, fun hv => by cases hv⟩
    · obtain ⟨hm, hnone⟩ := isValidate_ok (fun c hc => hs c (List.mem_cons_of_mem _ hc)) h
      refine ⟨hm, fun hv hmem => ?_⟩
      rcases List.mem_cons.1 hmem with hno | hmem
      · cases hno
      · exact hnone hv hmem

/-- The check succeeds exactly when no entry is NULL and no command is empty. -/
theorem isValidate_iff {fs : List (List UInt8)} {cArgs : List (Option CommandArgument)}
    (h : List.Forall₂ (Entry U b line m) fs cArgs) :
    (∃ m', isValidateParsedPipeInput U m cArgs = .ok (true, m')) ↔
      (∀ r ∈ cArgs, r ≠ none) ∧ ∀ f ∈ fs, ¬ Blank f := by
  induction h with
  | nil => exact iff_of_true ⟨m, rfl⟩ (by simp)
  | @cons f r fs cArgs he _ ih =>
    cases r with
    | none =>
      refine iff_of_false ?_ (by simp)
      rintro ⟨m', h⟩
      cases h
    | some c =>
      obtain ⟨k, o, hk, hs⟩ := he.command c rfl
      rw [isValidateParsedPipeInput, hk, strlen_string hs]
      simp only [ok_bind]
      by_cases hb : Blank f
      · rw [if_pos (by rw [firstWord_eq_nil_iff.2 hb]; rfl)]
        refine iff_of_false ?_ fun hall => hall.2 f (by simp) hb
        rintro ⟨m', h⟩
        cases h
      · rw [if_neg (by rw [List.length_eq_zero_iff, firstWord_eq_nil_iff]; exact hb), ih]
        simp [hb]

end Parse

/-! ## Pipelines parsed right -/

/-- `parsePipeCommand` fills every entry with the result on its field. -/
def FillsFields (U : Unspecified) (m : Mem) (b : Nat) (line : List UInt8) : Prop :=
  ∃ n cArgs m', countNumberOfPipes m (.ofBlock b 0) = .ok n ∧
    parsePipeCommand U m n (.ofBlock b 0) = .ok (cArgs, m') ∧
    List.Forall₂ (ResultOf U b line m') (fields line) cArgs

/-- `parseAndExecuteCommand` takes the branch for a `'|'` and comes to start the pipeline. -/
def Starts (U : Unspecified) (m : Mem) (b : Nat) : Prop :=
  ∃ p cArgs m', strchr m (.ofBlock b 0) pipeChar = .ok p ∧ p ≠ .null ∧
    parsePipeline U m (.ofBlock b 0) = .ok (true, cArgs, m')

structure PipesRight (U : Unspecified) (m : Mem) (b : Nat) (line : List UInt8) : Prop where
  fills : FillsFields U m b line
  starts : Starts U m b ↔ ∀ field ∈ fields line, ¬ Blank field

section PipesRight

variable {U : Unspecified} {m : Mem} {b : Nat} {line : List UInt8}

theorem strchr_line (h : PipeLine line) (hb : m.bytes b = line ++ [0]) :
    ∃ p, strchr m (.ofBlock b 0) pipeChar = .ok p ∧ p ≠ .null := by
  have hs := line_string hb h.noNul
  have hmem : pipeChar ∈ line.takeWhile (· ≠ newline) := by
    obtain ⟨pre, post, rfl, hpre⟩ := List.eq_append_cons_of_mem h.piped
    have hn := h.newlineLast.not_mem
    rw [List.takeWhile_append_of_pos (by
      intro ch hch
      simpa using fun he : ch = newline => hn (he ▸ hch)),
      List.takeWhile_cons_of_pos (by decide)]
    simp
  refine ⟨.ofBlock b (0 + line.idxOf pipeChar), ?_, by simp⟩
  have := strchr_string (c := pipeChar) hs
  rw [if_pos hmem] at this
  simpa using this

theorem countNumberOfPipes_line (hb : m.bytes b = line ++ [0]) (h0 : 0 ∉ line) :
    countNumberOfPipes m (.ofBlock b 0) = .ok (line.count pipeChar) := by
  rw [countNumberOfPipes, show m.rest b 0 = line ++ [0] by simp [Mem.rest, hb], countPipes_eq line 0 h0,
    Nat.zero_add]

/-- On whatever line, an answer is the verdict on the results of its fields. -/
theorem parsePipeline_ok {v : Bool} {cArgs : List (Option CommandArgument)} {m' : Mem}
    (hb : m.bytes b = line ++ [0]) (h0 : 0 ∉ line) (hn : NewlineLast line)
    (h : parsePipeline U m (.ofBlock b 0) = .ok (v, cArgs, m')) :
    ∃ m1, List.Forall₂ (ResultOf U b line m1) (fields line) cArgs ∧
      isValidateParsedPipeInput U m1 cArgs = .ok (v, m') := by
  rw [parsePipeline, countNumberOfPipes_line hb h0, ok_bind] at h
  obtain ⟨⟨cArgs', m1⟩, hparse, h⟩ := bind_eq_ok h
  obtain ⟨⟨v', m2⟩, hvalid, h⟩ := bind_eq_ok h
  cases h
  exact ⟨m1, parsePipeCommand_results hb h0 hn hparse, hvalid⟩

/-- What the code does on a line: the entries are right, and the pipeline starts unless an entry
is NULL or a field blank. -/
theorem pipeline_entries (h : PipeLine line) (hb : m.bytes b = line ++ [0]) :
    FillsFields U m b line ∧ ∃ m' cArgs, List.Forall₂ (Entry U b line m') (fields line) cArgs ∧
      (Starts U m b ↔ (∀ r ∈ cArgs, r ≠ none) ∧ ∀ field ∈ fields line, ¬ Blank field) := by
  obtain ⟨cArgs, m', he, hall⟩ := parsePipeCommand_eq (U := U) h hb
  have hcount := countNumberOfPipes_line hb h.noNul
  refine ⟨⟨_, cArgs, m', hcount, he, hall.imp fun _ _ h => h.result⟩, m', cArgs, hall, ?_⟩
  rw [← isValidate_iff hall]
  have hparse : parsePipeline U m (.ofBlock b 0) =
      isValidateParsedPipeInput U m' cArgs >>= fun r => .ok (r.1, cArgs, r.2) := by
    rw [parsePipeline, hcount]
    simp only [ok_bind, he]
    rfl
  constructor
  · rintro ⟨p, cs, m'', -, -, hs⟩
    rw [hparse] at hs
    obtain ⟨⟨v, m1⟩, hv, hr⟩ := bind_eq_ok hs
    cases hr
    exact ⟨m1, hv⟩
  · rintro ⟨m1, hv⟩
    obtain ⟨p, hp, hne⟩ := strchr_line h hb
    exact ⟨p, cArgs, m1, hp, hne, by rw [hparse, hv]; rfl⟩

theorem exists_entry {α β : Type} {R : α → β → Prop} {l : List α} {l' : List β}
    (h : List.Forall₂ R l l') {a : α} (ha : a ∈ l) : ∃ x ∈ l', R a x := by
  induction h with
  | nil => simp at ha
  | @cons x y l l' hxy _ ih =>
    rcases List.mem_cons.1 ha with rfl | ha
    · exact ⟨y, by simp, hxy⟩
    · obtain ⟨z, hz, hr⟩ := ih ha
      exact ⟨z, by simp [hz], hr⟩

theorem exists_field {α β : Type} {R : α → β → Prop} {l : List α} {l' : List β}
    (h : List.Forall₂ R l l') {x : β} (hx : x ∈ l') : ∃ a ∈ l, R a x :=
  exists_entry (l := l') (R := fun y a => R a y) (List.Forall₂.flip h) hx

/-- A line is parsed right, whatever fresh memory contains, exactly when a field is blank or no
field has more than 21 separators between its words. -/
theorem pipes_right_iff (h : PipeLine line) :
    (∀ U m b, m.bytes b = line ++ [0] → PipesRight U m b line) ↔
      (∃ field ∈ fields line, Blank field) ∨
        ∀ field ∈ fields line, (laterWords space (trimmed field)).length ≤ maxArguments + 1 := by
  constructor
  · intro hall
    by_contra hcond
    rw [not_or] at hcond
    obtain ⟨hblank, hmany⟩ := hcond
    push Not at hblank hmany
    obtain ⟨field, hfield, hlen⟩ := hmany
    have hright := hall (filled 64) (lineMem line) 0 rfl
    obtain ⟨-, m', cArgs, hentries, hstarts⟩ := pipeline_entries (U := filled 64) h
      (show (lineMem line).bytes 0 = line ++ [0] from rfl)
    obtain ⟨r, hr, he⟩ := exists_entry hentries hfield
    exact (hstarts.1 (hright.starts.2 hblank)).1 r hr (he.many (by simp [filled]) hlen)
  · intro hcond U m b hb
    obtain ⟨hfills, m', cArgs, hentries, hstarts⟩ := pipeline_entries (U := U) h hb
    refine ⟨hfills, hstarts.trans ⟨fun hs => hs.2, fun hnb => ⟨fun r hr => ?_, hnb⟩⟩⟩
    rcases hcond with ⟨field, hfield, hb'⟩ | hfew
    · exact absurd hb' (hnb field hfield)
    · obtain ⟨field, hfield, he⟩ := exists_field hentries hr
      exact he.few (hfew field hfield)

end PipesRight

/-- A line without a newline, whose fields fit. -/
theorem pipeLine_of {line : List UInt8} (h : 0 ∉ line ∧ pipeChar ∈ line ∧ newline ∉ line ∧
    ∀ field ∈ fields line, FitsBuffers field ∧ field.length + 2 ≤ inputLength) : PipeLine line := by
  obtain ⟨h0, hpiped, hn, hfits⟩ := h
  exact ⟨h0, hpiped, fun pre post he => absurd (by rw [he]; simp) hn, hfits⟩

/-- `a|x`, which has no two spaces in a row. -/
theorem pipes_right_ax : PipesRight (filled 64) (lineMem [97, 124, 120]) 0 [97, 124, 120] := by
  have h : PipeLine [97, 124, 120] := pipeLine_of (by decide)
  exact (pipes_right_iff h).2 (.inr (by decide)) (filled 64) (lineMem _) 0 rfl

/-- Twelve words two spaces apart and a second command. -/
def spacedLine : List UInt8 :=
  [97, 32, 32, 98, 32, 32, 99, 32, 32, 100, 32, 32, 101, 32, 32, 102, 32, 32, 103, 32, 32, 104,
    32, 32, 105, 32, 32, 106, 32, 32, 107, 32, 32, 108, 124, 120]

/-- Its first field comes out as NULL, which `isValidateParsedPipeInput` dereferences. -/
theorem null_entry : PipeLine spacedLine ∧
    ¬ PipesRight (filled 64) (lineMem spacedLine) 0 spacedLine := by
  have hfields : fields spacedLine = [spacedLine.take 34, [120]] := by decide
  have h : PipeLine spacedLine := pipeLine_of (by decide)
  refine ⟨h, fun hright => ?_⟩
  obtain ⟨-, m', cArgs, hentries, hstarts⟩ := pipeline_entries (U := filled 64) h
    (show (lineMem spacedLine).bytes 0 = spacedLine ++ [0] from rfl)
  obtain ⟨r, hr, he⟩ := exists_entry hentries
    (show spacedLine.take 34 ∈ fields spacedLine by rw [hfields]; simp)
  refine (hstarts.1 (hright.starts.2 fun field hf => ?_)).1 r hr (he.many (by simp [filled]) (by decide))
  rw [hfields, List.mem_pair] at hf
  rcases hf with rfl | rfl
  · exact fun hb => absurd (hb 97 (.head _)) (by decide)
  · exact fun hb => absurd (hb 120 (.head _)) (by decide)

end Sbunix.Sbush
