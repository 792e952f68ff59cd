/-
The scan of a trimmed line word by word: the command is the text before the first separator, and
each later word takes the buffer begun last if that one is still empty and began with NUL, and a
new buffer otherwise. Empty words between two separators therefore disappear exactly when the
buffer begun for them is an empty string as it comes from the allocator.
-/
import Sbunix.Sbush.Scan

namespace Sbunix.Sbush

open BlockMemory Libc

/-! ## Words and buffers -/

def firstWord (separator : UInt8) (text : List UInt8) : List UInt8 :=
  (text.splitOn separator).headD []

def laterWords (separator : UInt8) (text : List UInt8) : List (List UInt8) :=
  (text.splitOn separator).tail

def nonempty (words : List (List UInt8)) : List (List UInt8) := words.filter (· ≠ [])

/-- The arguments with one more word placed. -/
def place (garbage : Nat → Bool) (args : List (List UInt8)) (word : List UInt8) :
    List (List UInt8) :=
  if args.getLast? = some [] ∧ garbage (args.length - 1) = false then args.dropLast ++ [word]
  else args ++ [word]

/-- The arguments that a list of words leaves. -/
def placed (garbage : Nat → Bool) (words : List (List UInt8)) : List (List UInt8) :=
  words.foldl (place garbage) []

def scanWords (garbage : Nat → Bool) (command : List UInt8) :
    List (List UInt8) → List (List UInt8) → Outcome
  | [], args => .parsed command args
  | word :: words, args =>
    if args.length > maxArguments then .tooMany
    else if word.length < argumentLength then
      scanWords garbage command words (place garbage args word)
    else .outside

section Scan

variable {separator : UInt8} {garbage : Nat → Bool} {text word current : List UInt8}
  {done : List (List UInt8)}

theorem place_snoc : place garbage (done ++ [current]) word =
    if current = [] ∧ garbage done.length = false then done ++ [word]
    else done ++ [current] ++ [word] := by
  simp [place]

theorem splitOn_eq_cons (separator : UInt8) (text : List UInt8) :
    text.splitOn separator = firstWord separator text :: laterWords separator text := by
  obtain ⟨w, ws, h⟩ := List.exists_cons_of_ne_nil (List.splitOn_ne_nil separator text)
  rw [firstWord, laterWords, h]
  rfl

theorem firstWord_separator : firstWord separator (separator :: text) = [] := by
  simp [firstWord, List.splitOn_cons_eq_if_modifyHead]

theorem laterWords_separator : laterWords separator (separator :: text) =
    firstWord separator text :: laterWords separator text := by
  rw [laterWords, List.splitOn_cons_eq_if_modifyHead, if_pos (by simp), List.tail_cons,
    splitOn_eq_cons]

theorem firstWord_cons {ch : UInt8} (h : ch ≠ separator) :
    firstWord separator (ch :: text) = ch :: firstWord separator text := by
  rw [firstWord, List.splitOn_cons_eq_if_modifyHead, if_neg (by simpa using h), splitOn_eq_cons]
  rfl

theorem laterWords_cons {ch : UInt8} (h : ch ≠ separator) :
    laterWords separator (ch :: text) = laterWords separator text := by
  rw [laterWords, List.splitOn_cons_eq_if_modifyHead, if_neg (by simpa using h), splitOn_eq_cons]
  rfl

/-- Inside an argument, by induction on the text. -/
theorem scan_arguments : ∀ (text current : List UInt8) (done : List (List UInt8)),
    current.length < argumentLength →
    scan separator garbage (.arguments word done current) text =
      if (current ++ firstWord separator text).length < argumentLength then
        scanWords garbage word (laterWords separator text)
          (done ++ [current ++ firstWord separator text])
      else .outside
  | [], current, done, hc => by
    simp [scan, firstWord, laterWords, scanWords, hc, Reading.word, Reading.args]
  | ch :: text, current, done, hc => by
    by_cases hs : ch = separator
    · rw [hs, scan_separator, firstWord_separator, laterWords_separator, List.append_nil, if_pos hc,
        scanWords, place_snoc, Reading.args]
      by_cases hmax : (done ++ [current]).length > maxArguments
      · rw [if_pos hmax, if_pos hmax]
      · rw [if_neg hmax, if_neg hmax, afterSeparator]
        by_cases hre : current = [] ∧ garbage done.length = false
        · rw [if_pos hre, if_pos hre, scan_arguments text [] done (by decide)]
          rfl
        · rw [if_neg hre, if_neg hre, scan_arguments text [] (done ++ [current]) (by decide)]
          rfl
    · rw [scan_argument _ _ hs, firstWord_cons hs, laterWords_cons hs]
      by_cases hfit : current.length + 1 < argumentLength
      · rw [if_pos hfit, scan_arguments text (current ++ [ch]) done (by simpa using hfit)]
        simp
      · rw [if_neg hfit, if_neg (by simp; omega)]

theorem scan_commandWord : ∀ (text w : List UInt8), w.length < commandLength →
    scan separator garbage (.command w) text =
      if (w ++ firstWord separator text).length < commandLength then
        scanWords garbage (w ++ firstWord separator text) (laterWords separator text) []
      else .outside
  | [], w, hw => by
    simp [scan, firstWord, laterWords, scanWords, hw, Reading.word, Reading.args]
  | ch :: text, w, hw => by
    by_cases hs : ch = separator
    · rw [hs, scan_separator, firstWord_separator, laterWords_separator, List.append_nil, if_pos hw,
        scanWords, Reading.args, if_neg (by simp), if_neg (by simp), afterSeparator,
        scan_arguments text [] [] (by decide)]
      rfl
    · rw [scan_command _ _ hs, firstWord_cons hs, laterWords_cons hs]
      by_cases hfit : w.length + 1 < commandLength
      · rw [if_pos hfit, scan_commandWord text (w ++ [ch]) (by simpa using hfit)]
        simp
      · rw [if_neg hfit, if_neg (by simp; omega)]

/-- The scan of a line, word by word. -/
theorem scanLine_eq (separator : UInt8) (garbage : Nat → Bool) (line : List UInt8) :
    scanLine separator garbage line =
    if (leading line).length + (trimmed line).length + 2 ≤ inputLength ∧
        (firstWord separator (trimmed line)).length < commandLength then
      scanWords garbage (firstWord separator (trimmed line)) (laterWords separator (trimmed line)) []
    else .outside := by
  rw [scanLine, scan_commandWord _ _ (by decide), List.nil_append]
  by_cases h1 : (leading line).length + (trimmed line).length + 2 ≤ inputLength <;>
    by_cases h2 : (firstWord separator (trimmed line)).length < commandLength <;> simp [h1, h2]

end Scan

/-! ## When a store falls outside -/

section Outside

variable {garbage : Nat → Bool} {command : List UInt8}

theorem length_place_le (args : List (List UInt8)) (w : List UInt8) :
    args.length ≤ (place garbage args w).length := by
  unfold place
  split
  · simp
    omega
  · simp

theorem length_foldl_place_le (garbage : Nat → Bool) (words : List (List UInt8)) : ∀ args : List (List UInt8),
    args.length ≤ (words.foldl (place garbage) args).length := by
  induction words with
  | nil => exact fun _ => Nat.le_refl _
  | cons w words ih => exact fun args => Nat.le_trans (length_place_le args w) (ih _)

/-- A word is stored outside its buffer when it is too long and is reached before there are too
many arguments. -/
theorem scanWords_ne_outside_iff (garbage : Nat → Bool) (command : List UInt8)
    (words : List (List UInt8)) : ∀ args : List (List UInt8),
    scanWords garbage command words args ≠ .outside ↔
      ∀ pre w post, words = pre ++ w :: post →
        (pre.foldl (place garbage) args).length ≤ maxArguments → w.length < argumentLength := by
  induction words with
  | nil => simp [scanWords]
  | cons w words ih =>
    intro args
    rw [scanWords]
    by_cases hmax : args.length > maxArguments
    · rw [if_pos hmax]
      refine iff_of_true (by simp) fun pre x post _ hle => ?_
      have := length_foldl_place_le garbage pre args
      omega
    · rw [if_neg hmax]
      by_cases hw : w.length < argumentLength
      · rw [if_pos hw, ih]
        constructor
        · rintro h (_ | ⟨y, pre⟩) x post heq hle
          · rw [List.nil_append, List.cons.injEq] at heq
            exact heq.1 ▸ hw
          · rw [List.cons_append, List.cons.injEq] at heq
            obtain ⟨rfl, heq⟩ := heq
            exact h pre x post heq hle
        · intro h pre x post heq hle
          exact h (w :: pre) x post (by rw [heq]; rfl) hle
      · rw [if_neg hw]
        refine iff_of_false (by simp) fun h => hw (h [] w words rfl ?_)
        exact Nat.le_of_not_lt hmax

theorem scanWords_parsed (words : List (List UInt8)) : ∀ args : List (List UInt8),
    (∀ pre w post, words = pre ++ w :: post →
      (pre.foldl (place garbage) args).length ≤ maxArguments ∧ w.length < argumentLength) →
    scanWords garbage command words args = .parsed command (words.foldl (place garbage) args) := by
  induction words with
  | nil => exact fun _ _ => rfl
  | cons w words ih =>
    intro args h
    obtain ⟨hmax, hw⟩ := h [] w words rfl
    rw [List.foldl_nil] at hmax
    rw [scanWords, if_neg (Nat.not_lt.2 hmax), if_pos hw, List.foldl_cons]
    exact ih _ fun pre x post heq => h (w :: pre) x post (by rw [heq]; rfl)

theorem length_place_le_succ (garbage : Nat → Bool) (args : List (List UInt8)) (w : List UInt8) :
    (place garbage args w).length ≤ args.length + 1 := by
  unfold place
  split <;> simp

theorem length_foldl_place_le_add (garbage : Nat → Bool) (words : List (List UInt8)) :
    ∀ args : List (List UInt8),
      (words.foldl (place garbage) args).length ≤ args.length + words.length := by
  induction words with
  | nil => exact fun _ => Nat.le_refl _
  | cons w words ih =>
    intro args
    have h1 := ih (place garbage args w)
    have h2 := length_place_le_succ garbage args w
    rw [List.foldl_cons, List.length_cons]
    omega

theorem scanWords_few {words args : List (List UInt8)}
    (hw : ∀ w ∈ words, w.length < argumentLength)
    (hl : args.length + words.length ≤ maxArguments + 1) :
    scanWords garbage command words args = .parsed command (words.foldl (place garbage) args) := by
  refine scanWords_parsed words args fun pre w post heq => ⟨?_, hw w (by simp [heq])⟩
  have := length_foldl_place_le_add garbage pre args
  have hlen := congrArg List.length heq
  rw [List.length_append, List.length_cons] at hlen
  omega

/-- If no fresh buffer begins with NUL, every word takes one of its own. -/
theorem scanWords_many (hg : ∀ k, garbage k = true) {words : List (List UInt8)}
    (hw : ∀ w ∈ words, w.length < argumentLength) : ∀ args : List (List UInt8),
    maxArguments + 1 < args.length + words.length →
      words ≠ [] → scanWords garbage command words args = .tooMany := by
  induction words with
  | nil => exact fun _ _ h => absurd rfl h
  | cons w words ih =>
    intro args hl _
    rw [scanWords]
    by_cases hmax : args.length > maxArguments
    · exact if_pos hmax
    · rw [if_neg hmax, if_pos (hw w (by simp)), place, if_neg (by simp [hg])]
      rw [List.length_cons] at hl
      refine ih (fun x hx => hw x (by simp [hx])) _ ?_ ?_
      · rw [List.length_append, List.length_singleton]
        omega
      · rintro rfl
        rw [List.length_nil] at hl
        omega

theorem eq_of_scanWords_parsed (words : List (List UInt8)) {command' : List UInt8}
    {args' : List (List UInt8)} : ∀ args : List (List UInt8),
    scanWords garbage command words args = .parsed command' args' →
      command' = command ∧ args' = words.foldl (place garbage) args := by
  induction words with
  | nil =>
    intro args h
    rw [scanWords, Outcome.parsed.injEq] at h
    exact ⟨h.1.symm, h.2.symm⟩
  | cons w words ih =>
    intro args h
    rw [scanWords] at h
    split at h
    · cases h
    · split at h
      · exact ih _ h
      · cases h

end Outside

/-! ## Empty words -/

/-- Wherever a word is empty, the buffer that is waiting for a word then began with NUL. -/
def ReusesEmpty (garbage : Nat → Bool) (words : List (List UInt8)) : Prop :=
  ∀ pre post, words = pre ++ [] :: post → garbage (nonempty pre).length = false

section Empty

variable {garbage : Nat → Bool} {words args : List (List UInt8)} {word : List UInt8}

theorem nonempty_append (l l' : List (List UInt8)) :
    nonempty (l ++ l') = nonempty l ++ nonempty l' := List.filter_append _ _

theorem nonempty_eq_self (h : ∀ w ∈ words, w ≠ []) : nonempty words = words :=
  List.filter_eq_self.2 fun w hw => by simpa using h w hw

theorem nonempty_nil_singleton : nonempty [[]] = [] := rfl

theorem nonempty_place : nonempty (place garbage args word) = nonempty args ++ nonempty [word] := by
  rw [place]
  split
  · next h =>
    rw [nonempty_append]
    conv_rhs => rw [← List.dropLast_append_getLast? _ h.1, nonempty_append, nonempty_nil_singleton]
    rw [List.append_nil]
  · exact nonempty_append _ _

theorem nonempty_placed (garbage : Nat → Bool) (words : List (List UInt8)) :
    nonempty (placed garbage words) = nonempty words := by
  induction words using List.reverseRecOn with
  | nil => rfl
  | append_singleton words word ih =>
    rw [placed, List.foldl_append, List.foldl_cons, List.foldl_nil, nonempty_place]
    rw [placed] at ih
    rw [ih, nonempty_append]

theorem placed_snoc : placed garbage (words ++ [word]) = place garbage (placed garbage words) word := by
  rw [placed, List.foldl_append]
  rfl

/-- By induction on the words read: at most the buffer begun last is empty. -/
theorem placed_of_reuses (h : ReusesEmpty garbage words) :
    placed garbage words = nonempty words ++ (if words.getLast? = some [] then [[]] else []) := by
  induction words using List.reverseRecOn with
  | nil => rfl
  | append_singleton words word ih =>
    have hpre : ReusesEmpty garbage words := fun pre post heq => h pre (post ++ [word]) (by simp [heq])
    rw [placed_snoc, ih hpre, nonempty_append, List.getLast?_concat]
    have hword : nonempty [word] ++ (if some word = some [] then [[]] else []) = [word] := by
      by_cases hw : word = [] <;> simp [nonempty, hw]
    rw [List.append_assoc, hword]
    by_cases hlast : words.getLast? = some []
    · rw [if_pos hlast, place_snoc, if_pos]
      obtain ⟨pre, rfl⟩ : ∃ pre, words = pre ++ [[]] :=
        ⟨words.dropLast, (List.dropLast_append_getLast? _ hlast).symm⟩
      rw [nonempty_append, nonempty_nil_singleton, List.append_nil]
      exact ⟨rfl, h pre [word] (by simp)⟩
    · rw [if_neg hlast, List.append_nil, place, if_neg]
      rintro ⟨he, -⟩
      have := List.mem_of_getLast? he
      simp [nonempty] at this

/-- Fresh memory makes no difference to words none of which is empty. -/
theorem scanWords_congr {garbage' : Nat → Bool} {command : List UInt8} (h : [] ∉ words) :
    ∀ args : List (List UInt8), args.getLast? ≠ some [] →
      scanWords garbage command words args = scanWords garbage' command words args := by
  induction words with
  | nil => exact fun _ _ => rfl
  | cons word words ih =>
    intro args hlast
    rw [List.mem_cons, not_or] at h
    have hplace : ∀ g, place g args word = args ++ [word] := fun g => if_neg fun hr => hlast hr.1
    rw [scanWords, scanWords, hplace, hplace, ih h.2 _ (by simpa using Ne.symm h.1)]

theorem placed_of_noEmpty (h : [] ∉ words) : placed garbage words = nonempty words := by
  have hreuses : ReusesEmpty garbage words := by
    rintro pre post rfl
    simp at h
  rw [placed_of_reuses hreuses, if_neg fun hlast => h (List.mem_of_getLast? hlast), List.append_nil]

/-- An empty argument that is not the last one stays. -/
theorem empty_stays (h : [] ∈ args.dropLast) : [] ∈ (place garbage args word).dropLast := by
  rw [place]
  split
  · rwa [List.dropLast_concat]
  · rw [List.dropLast_concat]
    exact List.dropLast_subset _ h

theorem empty_stays_foldl (words : List (List UInt8)) : ∀ args : List (List UInt8),
    [] ∈ args.dropLast → [] ∈ (words.foldl (place garbage) args).dropLast := by
  induction words with
  | nil => exact fun _ h => h
  | cons w words ih => exact fun args h => ih _ (empty_stays h)

/-- If no empty argument remains, every empty word found its buffer reusable. -/
theorem reuses_of_placed (hlast : words.getLast? ≠ some [])
    (h : placed garbage words = nonempty words) : ReusesEmpty garbage words := by
  rintro pre post rfl
  have hno : [] ∉ (placed garbage (pre ++ [] :: post)).dropLast := by
    intro hmem
    have := List.dropLast_subset _ hmem
    rw [h] at this
    simp [nonempty] at this
  have hsplit : placed garbage (pre ++ [] :: post) =
      post.foldl (place garbage) (placed garbage (pre ++ [[]])) := by
    rw [placed, placed, ← List.foldl_append]
    simp
  obtain ⟨x, hx⟩ : ∃ x, placed garbage (pre ++ [[]]) = x ++ [[]] := by
    rw [placed_snoc, place]
    split <;> exact ⟨_, rfl⟩
  rw [hsplit, hx] at hno
  have hxs : ∀ w ∈ x, w ≠ [] := by
    rintro w hw rfl
    exact hno (empty_stays_foldl post _ (by simpa using hw))
  have hcount : nonempty pre = x := by
    have := nonempty_placed garbage (pre ++ [[]])
    rwa [hx, nonempty_append, nonempty_append, nonempty_nil_singleton, List.append_nil,
      List.append_nil, nonempty_eq_self hxs, eq_comm] at this
  cases post with
  | nil => simp at hlast
  | cons w post =>
    rw [hcount]
    by_contra hg
    refine hno (empty_stays_foldl post _ ?_)
    rw [place_snoc, if_neg fun hr => hg hr.2]
    simp

end Empty

end Sbunix.Sbush
