/-
What `fgets` and `gets` make of a `read` that delivers nothing: whether they stop there, and whether
only bytes that were delivered come into the buffer.
-/
import Sbunix.Libc.Gets
import Sbunix.Libc.StdioRuns

namespace Sbunix.Libc

open BlockMemory Fallible

/-! ## Outcomes -/

def ReadOutcome.IsByte (outcome : ReadOutcome) : Prop := ∃ ch, outcome = .byte ch

/-- The bytes among some outcomes. -/
def delivered (outcomes : List ReadOutcome) : List UInt8 :=
  outcomes.filterMap fun outcome => match outcome with
    | .byte ch => some ch
    | _ => none

/-- `'\n'` and 0xFF are the characters behind which a line does not go on. -/
def inLine : ReadOutcome → Bool
  | .byte ch => ch ≠ newline && ch ≠ eofChar
  | _ => false

/-- The first of `n` outcomes behind which the line does not go on. -/
def lineEnd (n : Nat) (outcomes : List ReadOutcome) : Option ReadOutcome :=
  ((outcomes.take n).dropWhile inLine).head?

/-- The first `n` outcomes of a stream. -/
def firsts (n : Nat) (stream : Stream) : List ReadOutcome := (List.range n).map stream

/-- `' '` or `'\t'` -/
def isBlank : ReadOutcome → Bool
  | .byte ch => blank ch
  | _ => false

/-! ## A faithful result -/

/-- `fgets` asks for `k` outcomes and no more, all but the last of them bytes, and what it stores before
the NUL are bytes among them, whatever the `char` held that a `read` left as it was. -/
def FgetsFaithful (m : Mem) (b o : Nat) (size : Int) (stream : Stream) : Prop :=
  ∀ unset, ∃ k r text,
    (∀ stream', firsts k stream' = firsts k stream → fgets unset m (.ofBlock b o) size stream' =
      .ok (r, m.setBytes b (overwrite (m.bytes b) o (text ++ [0])), fun n => stream' (k + n))) ∧
    (∀ outcome ∈ (firsts k stream).dropLast, outcome.IsByte) ∧ text.Sublist (delivered (firsts k stream))

/-- `gets` has returned, and of the outcomes it took all but the last are bytes, or it waits, and all of
them are; what it stored are bytes among them. -/
def GetsFaithful (m : Mem) (b o : Nat) (outcomes : List ReadOutcome) : Prop :=
  ∀ unset, ∃ text,
    (∃ r taken rest, outcomes = taken ++ rest ∧ gets unset m (.ofBlock b o) outcomes =
        .ok (.returned r (m.setBytes b (overwrite (m.bytes b) o (text ++ [0]))) rest) ∧
      (∀ outcome ∈ taken.dropLast, outcome.IsByte) ∧ text.Sublist (delivered taken)) ∨
    (gets unset m (.ofBlock b o) outcomes =
        .ok (.reading (m.setBytes b (overwrite (m.bytes b) o text))) ∧
      (∀ outcome ∈ outcomes, outcome.IsByte) ∧ text.Sublist (delivered outcomes))

/-- Where `gets` is right: the first outcome behind the blanks is a byte, and, if it is not a newline, the
line it begins is not ended by the end of the file before the buffer is full. -/
def GetsSafe (outcomes : List ReadOutcome) : Prop :=
  ∀ first rest, outcomes.dropWhile isBlank = first :: rest → first.IsByte ∧
    (first ≠ .byte newline → lineEnd (lineLength - 1) rest ≠ some .endOfFile)

section Outcomes

variable {n : Nat} {outcome : ReadOutcome} {outcomes : List ReadOutcome}

theorem lineEnd_inLine (h : inLine outcome = true) :
    lineEnd (n + 1) (outcome :: outcomes) = lineEnd n outcomes := by
  unfold lineEnd
  rw [List.take_succ_cons, List.dropWhile_cons_of_pos h]

theorem lineEnd_here (h : ¬ inLine outcome = true) : lineEnd (n + 1) (outcome :: outcomes) = some outcome := by
  unfold lineEnd
  rw [List.take_succ_cons, List.dropWhile_cons_of_neg h]
  rfl

theorem mem_of_lineEnd {x : ReadOutcome} (h : lineEnd n outcomes = some x) : x ∈ outcomes :=
  List.mem_of_mem_take ((List.dropWhile_suffix inLine).mem (List.mem_of_head? h))

theorem inLine_byte {ch : UInt8} : inLine (.byte ch) = true ↔ ch ≠ newline ∧ ch ≠ eofChar := by
  unfold inLine
  rw [Bool.and_eq_true, decide_eq_true_eq, decide_eq_true_eq]

/-- What goes on is a byte. -/
theorem inLine_cases (h : inLine outcome = true) : ∃ ch, outcome = .byte ch ∧ ch ≠ newline ∧ ch ≠ eofChar := by
  cases outcome with
  | byte ch => exact ⟨ch, rfl, inLine_byte.1 h⟩
  | endOfFile => cases h
  | error => cases h

theorem delivered_sublist (outcome : ReadOutcome) (outcomes : List ReadOutcome) :
    (delivered outcomes).Sublist (delivered (outcome :: outcomes)) := by
  cases outcome with
  | byte ch => exact List.sublist_cons_self ch _
  | endOfFile => exact .refl _
  | error => exact .refl _

theorem delivered_sublist_append : ∀ l outcomes : List ReadOutcome,
    (delivered outcomes).Sublist (delivered (l ++ outcomes))
  | [], _ => .refl _
  | x :: l, outcomes => (delivered_sublist_append l outcomes).trans (delivered_sublist x (l ++ outcomes))

theorem dropLast_bytes (h : outcome.IsByte) (hb : ∀ x ∈ outcomes.dropLast, x.IsByte) :
    ∀ x ∈ (outcome :: outcomes).dropLast, x.IsByte := by
  cases outcomes with
  | nil => simp
  | cons y outcomes =>
    rw [List.dropLast_cons_cons]
    exact List.forall_mem_cons.2 ⟨h, hb⟩

theorem mem_dropLast_append {x : ReadOutcome} (l : List ReadOutcome) (h : x ∈ outcomes.dropLast) :
    x ∈ (l ++ outcomes).dropLast := by
  have hne : outcomes ≠ [] := by
    rintro rfl
    cases h
  rw [List.dropLast_append_of_ne_nil hne]
  exact List.mem_append_right _ h

theorem isBlank_byte (h : isBlank outcome = true) : ∃ ch, outcome = .byte ch ∧ blank ch = true := by
  cases outcome with
  | byte ch => exact ⟨ch, rfl, h⟩
  | endOfFile => cases h
  | error => cases h

theorem not_isBlank {rest : List ReadOutcome} (h : outcomes.dropWhile isBlank = outcome :: rest) :
    ¬ isBlank outcome = true := by
  have hnot := List.head?_dropWhile_not isBlank outcomes
  rw [h] at hnot
  exact Bool.eq_false_iff.1 hnot

theorem takeWhile_isBlank (outcomes : List ReadOutcome) : ∀ x ∈ outcomes.takeWhile isBlank, x.IsByte := by
  intro x hx
  obtain ⟨ch, rfl, -⟩ := isBlank_byte (List.mem_takeWhile_imp hx)
  exact ⟨ch, rfl⟩

end Outcomes

/-! ## gets -/

section Gets

variable {unset : Nat → UInt8} {m : Mem} {b o count : Nat} {outcome : ReadOutcome}
  {outcomes rest : List ReadOutcome}

theorem skipLoop_dropWhile (unset : Nat → UInt8) : ∀ outcomes : List ReadOutcome,
    skipLoop unset outcomes = skipLoop unset (outcomes.dropWhile isBlank)
  | [] => rfl
  | outcome :: outcomes => by
    by_cases h : isBlank outcome = true
    · rw [List.dropWhile_cons_of_pos h, ← skipLoop_dropWhile unset outcomes]
      obtain ⟨ch, rfl, hch⟩ := isBlank_byte h
      exact if_pos (blank_iff.1 hch)
    · rw [List.dropWhile_cons_of_neg h]

theorem goesOn_byte {ch : UInt8} (hn : ch ≠ newline) (he : ch ≠ eofChar) (hcount : count ≤ lineLength) :
    GoesOn count (charToInt ch) :=
  ⟨mt charToInt_eq_iff.1 hn, mt charToInt_eq_EOF.1 he, hcount⟩

/-- What a call takes is what it leaves out, and a call that has returned has taken something. -/
theorem copied_taken (unset : Nat → UInt8) : ∀ (outcomes : List ReadOutcome) (count : Nat) (rd : Int),
    ∃ taken, outcomes = taken ++ (copied unset outcomes count rd).2.getD [] ∧
      ((copied unset outcomes count rd).2 ≠ none → taken ≠ [])
  | [], _, _ => ⟨[], rfl, fun h => absurd rfl h⟩
  | outcome :: outcomes, count, rd => by
    by_cases hgo : GoesOn (count + 1) (getchar (unset outcomes.length) outcome)
    · obtain ⟨taken, htaken, -⟩ :=
        copied_taken unset outcomes (count + 1) (getchar (unset outcomes.length) outcome)
      rw [copied_next unset hgo]
      exact ⟨outcome :: taken, congrArg (outcome :: ·) htaken, fun _ => List.cons_ne_nil _ _⟩
    · rw [copied_last hgo]
      exact ⟨[outcome], rfl, fun _ => List.cons_ne_nil _ _⟩

/-- Of the outcomes, the loop took `taken` and stored `text` behind its first character, and it came by no
outcome that is no byte. -/
structure RightCopy (rd : Int) (outcomes taken : List ReadOutcome) (text : List UInt8)
    (x : List UInt8 × Option (List ReadOutcome)) : Prop where
  stored : x.1 = intToChar rd :: text
  split : outcomes = taken ++ x.2.getD []
  sub : text.Sublist (delivered taken)
  bytes : ∀ outcome ∈ taken.dropLast, outcome.IsByte
  waiting : x.2 = none → ∀ outcome ∈ taken, outcome.IsByte

theorem rightCopy_last (rd : Int) (outcome : ReadOutcome) (outcomes : List ReadOutcome) :
    RightCopy rd (outcome :: outcomes) [outcome] [] ([intToChar rd], some outcomes) :=
  ⟨rfl, rfl, List.nil_sublist _, by simp, fun h => by cases h⟩

theorem RightCopy.byte {ch : UInt8} {taken : List ReadOutcome} {text : List UInt8}
    {x : List UInt8 × Option (List ReadOutcome)} (h : RightCopy (charToInt ch) outcomes taken text x)
    (rd : Int) : RightCopy rd (.byte ch :: outcomes) (.byte ch :: taken) (ch :: text) (intToChar rd :: x.1, x.2)
    where
  stored := by rw [h.stored, intToChar_charToInt]
  split := congrArg _ h.split
  sub := h.sub.cons_cons ch
  bytes := dropLast_bytes ⟨ch, rfl⟩ h.bytes
  waiting hnone := List.forall_mem_cons.2 ⟨⟨ch, rfl⟩, h.waiting hnone⟩

/-- If the end of the file does not come first. -/
theorem copied_right (unset : Nat → UInt8) : ∀ (outcomes : List ReadOutcome) {count : Nat} (rd : Int),
    lineEnd (lineLength - count) outcomes ≠ some .endOfFile →
    ∃ taken text, RightCopy rd outcomes taken text (copied unset outcomes count rd)
  | [], _, _, _ => ⟨[], [], rfl, rfl, .refl _, by simp, by simp⟩
  | outcome :: outcomes, count, rd, h => by
    by_cases hgo : GoesOn (count + 1) (getchar (unset outcomes.length) outcome)
    · rw [copied_next unset hgo]
      have hcount := hgo.2.2
      rw [show lineLength - count = lineLength - (count + 1) + 1 by omega] at h
      by_cases hin : inLine outcome = true
      · rw [lineEnd_inLine hin] at h
        obtain ⟨ch, rfl, -, -⟩ := inLine_cases hin
        obtain ⟨taken, text, hright⟩ := copied_right unset outcomes (charToInt ch) h
        exact ⟨_, _, hright.byte rd⟩
      · -- behind a newline, 0xFF or an error the loop ends
        rw [lineEnd_here hin] at h
        refine absurd hgo fun hgo => ?_
        cases outcome with
        | byte ch =>
          refine hin (inLine_byte.2 ⟨?_, ?_⟩)
          · exact fun hn => hgo.1 (congrArg charToInt hn)
          · exact fun he => hgo.2.1 (charToInt_eq_EOF.2 he)
        | endOfFile => exact h rfl
        | error => exact hgo.2.1 rfl
    · rw [copied_last hgo]
      exact ⟨_, _, rightCopy_last rd outcome outcomes⟩

/-- If it does, the loop can take it for a character and go on. -/
theorem copied_overlooks : ∀ (outcomes : List ReadOutcome) {count : Nat} (rd : Int),
    lineEnd (lineLength - count) outcomes = some .endOfFile →
    ∃ taken, outcomes = taken ++ (copied (fun _ => 97) outcomes count rd).2.getD [] ∧
      ReadOutcome.endOfFile ∈ taken ∧
      ((copied (fun _ => 97) outcomes count rd).2 ≠ none → ReadOutcome.endOfFile ∈ taken.dropLast)
  | [], _, _, h => by
    unfold lineEnd at h
    rw [List.take_nil] at h
    cases h
  | outcome :: outcomes, count, rd, h => by
    have hcount : count + 1 ≤ lineLength := by
      by_contra hcount
      rw [show lineLength - count = 0 by omega] at h
      cases h
    rw [show lineLength - count = lineLength - (count + 1) + 1 by omega] at h
    by_cases hin : inLine outcome = true
    · rw [lineEnd_inLine hin] at h
      obtain ⟨ch, rfl, hn, he⟩ := inLine_cases hin
      have hgo : GoesOn (count + 1) (getchar 97 (.byte ch)) := goesOn_byte hn he hcount
      obtain ⟨taken, htaken, hmem, hend⟩ := copied_overlooks outcomes (charToInt ch) h
      rw [copied_next (fun _ => 97) hgo]
      exact ⟨.byte ch :: taken, congrArg _ htaken, List.mem_cons_of_mem _ hmem,
        fun hsome => mem_dropLast_append [.byte ch] (hend hsome)⟩
    · rw [lineEnd_here hin] at h
      obtain rfl := Option.some.inj h
      have hgo : GoesOn (count + 1) (getchar 97 .endOfFile) := goesOn_byte (by decide) (by decide) hcount
      obtain ⟨taken, htaken, hne⟩ := copied_taken (fun _ => 97) outcomes (count + 1) (getchar 97 .endOfFile)
      rw [copied_next (fun _ => 97) hgo]
      refine ⟨.endOfFile :: taken, congrArg _ htaken, List.mem_cons_self, fun hsome => ?_⟩
      obtain ⟨x, taken', rfl⟩ := List.exists_cons_of_ne_nil (hne hsome)
      exact List.mem_cons_self

/-- A call that takes an outcome that is no byte and goes on is not right. -/
theorem not_faithful {x : ReadOutcome} {text : List UInt8} {left : Option (List ReadOutcome)}
    (taken : List ReadOutcome) (hgets : gets (fun _ => 97) m (.ofBlock b o) outcomes = .ok (finish m b o text left))
    (htaken : outcomes = taken ++ left.getD []) (hx : ¬ x.IsByte) (hmem : x ∈ taken)
    (hend : left ≠ none → x ∈ taken.dropLast) : ¬ GetsFaithful m b o outcomes := by
  intro hf
  obtain ⟨text', ⟨r, taken', rest', hsplit, he, hbytes, -⟩ | ⟨he, hbytes, -⟩⟩ := hf fun _ => 97
  · rw [hgets] at he
    cases left with
    | none => cases he
    | some rest =>
      rw [finish, Except.ok.injEq, Progress.returned.injEq] at he
      rw [htaken, Option.getD_some, he.2.2] at hsplit
      rw [← List.append_cancel_right hsplit] at hbytes
      exact hx (hbytes x (hend (Option.some_ne_none _)))
  · exact hx (hbytes x (htaken ▸ List.mem_append_left _ hmem))

theorem getsFaithful_of_safe (hb : b < m.next) (hl : o + lineLength < (m.bytes b).length)
    (h : GetsSafe outcomes) : GetsFaithful m b o outcomes := by
  intro unset
  have hskip := skipLoop_dropWhile unset outcomes
  have hblanks := takeWhile_isBlank outcomes
  have hsplit := List.takeWhile_append_dropWhile (p := isBlank) (l := outcomes)
  cases hdrop : outcomes.dropWhile isBlank with
  | nil =>
    rw [hdrop] at hskip hsplit
    rw [List.append_nil] at hsplit
    refine ⟨[], .inr ⟨?_, hsplit ▸ hblanks, List.nil_sublist _⟩⟩
    unfold gets
    rw [hskip, overwrite_nil, setBytes_bytes hb]
    rfl
  | cons first rest =>
    obtain ⟨⟨ch, rfl⟩, hend⟩ := h first rest hdrop
    rw [hdrop] at hskip hsplit
    rw [skipLoop_byte (not_isBlank hdrop)] at hskip
    by_cases hn : ch = newline
    · subst hn
      refine ⟨[], .inl ⟨_, outcomes.takeWhile isBlank ++ [.byte newline], rest, ?_,
        gets_newline hskip (by omega), ?_, List.nil_sublist _⟩⟩
      · rw [List.append_assoc]
        exact hsplit.symm
      · rw [List.dropLast_concat]
        exact hblanks
    · have hgets := gets_copies hskip (mt charToInt_eq_iff.1 hn) hb hl
      obtain ⟨taken, text, hright⟩ := copied_right unset rest (charToInt ch)
        (hend fun he => hn (ReadOutcome.byte.inj he))
      have hsub := (hright.sub.cons_cons ch).trans (delivered_sublist_append (outcomes.takeWhile isBlank)
        (.byte ch :: taken))
      have htaken := congrArg (fun l => outcomes.takeWhile isBlank ++ .byte ch :: l) hright.split
      rw [hsplit] at htaken
      rw [hright.stored, intToChar_charToInt] at hgets
      refine ⟨ch :: text, ?_⟩
      cases hleft : (copied unset rest 1 (charToInt ch)).2 with
      | none =>
        rw [hleft] at hgets htaken
        rw [Option.getD_none, List.append_nil] at htaken
        refine .inr ⟨hgets, ?_, by rwa [htaken]⟩
        rw [htaken]
        exact List.forall_mem_append.2 ⟨hblanks, List.forall_mem_cons.2 ⟨⟨ch, rfl⟩, hright.waiting hleft⟩⟩
      | some rest' =>
        rw [hleft] at hgets htaken
        refine .inl ⟨_, _, rest', ?_, hgets, ?_, hsub⟩
        · rw [List.append_assoc]
          exact htaken
        · rw [List.dropLast_append_of_ne_nil (List.cons_ne_nil _ _)]
          exact List.forall_mem_append.2 ⟨hblanks, dropLast_bytes ⟨ch, rfl⟩ hright.bytes⟩

/-- If the `char` that nothing was read into looks like a letter, what comes behind is read, too. -/
theorem safe_of_getsFaithful (hb : b < m.next) (hl : o + lineLength < (m.bytes b).length)
    (h : GetsFaithful m b o outcomes) : GetsSafe outcomes := by
  intro first rest hdrop
  have hskip := skipLoop_dropWhile (fun _ => 97) outcomes
  have hsplit := List.takeWhile_append_dropWhile (p := isBlank) (l := outcomes)
  rw [hdrop] at hskip hsplit
  -- an outcome that is no byte, taken for the first character
  have hfirst : ∀ rd, skipLoop (fun _ => 97) (first :: rest) = some (rd, rest) → rd ≠ charToInt newline →
      first.IsByte := by
    intro rd hrd hn
    by_contra hnot
    rw [hrd] at hskip
    obtain ⟨taken, htaken, hne⟩ := copied_taken (fun _ => 97) rest 1 rd
    refine not_faithful (outcomes.takeWhile isBlank ++ first :: taken) (gets_copies hskip hn hb hl) ?_ hnot
      (List.mem_append_right _ List.mem_cons_self) (fun hsome => mem_dropLast_append _ ?_) h
    · rw [List.append_assoc, List.cons_append, ← htaken, hsplit]
    · obtain ⟨x, taken', rfl⟩ := List.exists_cons_of_ne_nil (hne hsome)
      exact List.mem_cons_self
  cases first with
  | byte ch =>
    refine ⟨⟨ch, rfl⟩, fun hn hend => ?_⟩
    rw [skipLoop_byte (not_isBlank hdrop)] at hskip
    have hgets := gets_copies hskip (mt charToInt_eq_iff.1 fun he => hn (congrArg _ he)) hb hl
    obtain ⟨taken, htaken, hmem, hlast⟩ := copied_overlooks rest (charToInt ch) hend
    refine not_faithful (outcomes.takeWhile isBlank ++ .byte ch :: taken) hgets ?_
      (fun hbyte => by obtain ⟨c, hc⟩ := hbyte; cases hc)
      (List.mem_append_right _ (List.mem_cons_of_mem _ hmem))
      (fun hsome => mem_dropLast_append _ (mem_dropLast_append [.byte ch] (hlast hsome))) h
    rw [List.append_assoc, List.cons_append, ← htaken, hsplit]
  | endOfFile => exact absurd (hfirst (charToInt 97) rfl (by decide)) fun ⟨ch, hch⟩ => by cases hch
  | error => exact absurd (hfirst (-1) rfl (by decide)) fun ⟨ch, hch⟩ => by cases hch

end Gets

/-! ## fgets -/

/-- What `fgetc` returns. -/
def fgetcValue (unset : UInt8) : ReadOutcome → Int
  | .byte ch => charToInt ch
  | .endOfFile => EOF
  | .error => charToInt unset

/-- The bytes `n` rounds of `fgets` store. -/
def fgetsText (unset : Nat → UInt8) : Nat → Stream → List UInt8
  | 0, _ => []
  | n + 1, stream =>
    let c := fgetcValue (unset n) (stream 0)
    if c = EOF then []
    else if c = charToInt newline then [intToChar c]
    else intToChar c :: fgetsText unset n fun i => stream (i + 1)

/-- How many outcomes they ask for. -/
def fgetsReads (unset : Nat → UInt8) : Nat → Stream → Nat
  | 0, _ => 0
  | n + 1, stream =>
    let c := fgetcValue (unset n) (stream 0)
    if c = EOF then 1
    else if c = charToInt newline then 1
    else fgetsReads unset n (fun i => stream (i + 1)) + 1

section Fgets

variable {unset : Nat → UInt8} {m : Mem} {b o k n : Nat} {u : UInt8} {stream : Stream}
  {outcomes : List ReadOutcome}

theorem firsts_succ (n : Nat) (stream : Stream) :
    firsts (n + 1) stream = stream 0 :: firsts n fun i => stream (i + 1) := by
  unfold firsts
  rw [List.range_succ_eq_map, List.map_cons, List.map_map]
  rfl

theorem length_firsts (n : Nat) (stream : Stream) : (firsts n stream).length = n := by
  unfold firsts
  rw [List.length_map, List.length_range]

theorem fgetc_eq (unset : UInt8) (stream : Stream) :
    fgetc unset stream = (fgetcValue unset (stream 0), fun i => stream (i + 1)) := by
  unfold fgetc read fgetcValue
  cases stream 0 <;> rfl

theorem length_fgetsText_le (unset : Nat → UInt8) : ∀ (n : Nat) (stream : Stream),
    (fgetsText unset n stream).length ≤ n
  | 0, _ => Nat.le_refl _
  | n + 1, stream => by
    rw [fgetsText]
    split_ifs
    · exact Nat.zero_le _
    · exact Nat.succ_le_succ (Nat.zero_le n)
    · exact Nat.succ_le_succ (length_fgetsText_le unset n _)

/-- The loop on any outcomes: what it stores and leaves depends on those it asks for. -/
theorem fgetsLoop_reads (unset : Nat → UInt8) : ∀ (n : Nat) (stream : Stream) {m : Mem} {o : Nat} (c : Int),
    b < m.next → o + n ≤ (m.bytes b).length → ∃ c', ∀ stream' : Stream,
      firsts (fgetsReads unset n stream) stream' = firsts (fgetsReads unset n stream) stream →
      fgetsLoop unset n m (.ofBlock b o) c stream' =
        .ok (.ofBlock b (o + (fgetsText unset n stream).length : Nat), c',
          m.setBytes b (overwrite (m.bytes b) o (fgetsText unset n stream)),
          fun i => stream' (fgetsReads unset n stream + i))
  | 0, stream, m, o, c, hb, _ => by
    refine ⟨c, fun stream' _ => ?_⟩
    rw [fgetsText, overwrite_nil, setBytes_bytes hb, fgetsReads]
    simp only [Nat.zero_add]
    rfl
  | n + 1, stream, m, o, c, hb, hl => by
    have hlt : o < (m.bytes b).length := by omega
    -- a stream that begins with the same outcomes has the same first one
    have hfgetc : ∀ {stream' : Stream} {j : Nat}, firsts (j + 1) stream' = firsts (j + 1) stream →
        fgetc (unset n) stream' = (fgetcValue (unset n) (stream 0), fun i => stream' (i + 1)) := by
      intro stream' j hs
      rw [firsts_succ, firsts_succ] at hs
      rw [fgetc_eq, (List.cons.inj hs).1]
    have hskip : ∀ (stream' : Stream) (j : Nat),
        (fun i => stream' (j + 1 + i)) = fun i => (fun i => stream' (i + 1)) (j + i) := by
      intro stream' j
      funext i
      rw [Nat.add_assoc, Nat.add_comm 1, ← Nat.add_assoc]
    rw [fgetsText, fgetsReads]
    by_cases he : fgetcValue (unset n) (stream 0) = EOF
    · refine ⟨fgetcValue (unset n) (stream 0), fun stream' hs => ?_⟩
      rw [if_pos he] at hs
      rw [if_pos he, if_pos he, fgetsLoop_end (hfgetc (j := 0) hs) he hb]
      simp only [Nat.add_comm 1]
      rfl
    · rw [if_neg he, if_neg he]
      by_cases hn : fgetcValue (unset n) (stream 0) = charToInt newline
      · refine ⟨fgetcValue (unset n) (stream 0), fun stream' hs => ?_⟩
        rw [if_pos hn] at hs
        rw [if_pos hn, if_pos hn, fgetsLoop_newline (hfgetc (j := 0) hs) he hn hlt]
        simp only [Nat.add_comm 1]
        rfl
      · rw [if_neg hn, if_neg hn]
        obtain ⟨hb', hl'⟩ := room_after_store (intToChar (fgetcValue (unset n) (stream 0))) hb hl
        obtain ⟨c', hloop⟩ := fgetsLoop_reads unset n (fun i => stream (i + 1))
          (fgetcValue (unset n) (stream 0)) hb' hl'
        refine ⟨c', fun stream' hs => ?_⟩
        rw [hskip]
        refine fgetsLoop_store (hfgetc hs) he hn hb hlt ?_
        rintro m' rfl
        rw [firsts_succ, firsts_succ] at hs
        exact hloop (fun i => stream' (i + 1)) (List.cons.inj hs).2

/-- The whole function: the string is stored, and the outcomes behind those it asked for are left. -/
theorem fgets_reads (unset : Nat → UInt8) (size : Int) (stream : Stream) (hb : b < m.next)
    (hl : o + (size - 1).toNat < (m.bytes b).length) :
    let n := (size - 1).toNat
    ∃ r, ∀ stream' : Stream,
      firsts (fgetsReads unset n stream) stream' = firsts (fgetsReads unset n stream) stream →
      fgets unset m (.ofBlock b o) size stream' =
        .ok (r, m.setBytes b (overwrite (m.bytes b) o (fgetsText unset n stream ++ [0])),
          fun i => stream' (fgetsReads unset n stream + i)) := by
  intro n
  have hlen := length_fgetsText_le unset n stream
  have hfit : o + n < (m.bytes b).length := hl
  obtain ⟨c', hloop⟩ := fgetsLoop_reads unset n stream 0 hb (Nat.le_of_lt hfit)
  refine ⟨if fgetsText unset n stream = [] ∨ c' = EOF then .null else .ofBlock b o, fun stream' hs => ?_⟩
  exact fgets_of_loop hb (by omega) (hloop stream' hs)

/-- If no error comes first, the line consists of bytes delivered, and only the last outcome asked for may
be none. -/
theorem fgetsText_right (unset : Nat → UInt8) : ∀ (n : Nat) (stream : Stream),
    lineEnd n (firsts n stream) ≠ some .error →
    (fgetsText unset n stream).Sublist (delivered (firsts (fgetsReads unset n stream) stream)) ∧
      ∀ x ∈ (firsts (fgetsReads unset n stream) stream).dropLast, x.IsByte
  | 0, _, _ => ⟨List.nil_sublist _, by simp [fgetsReads, firsts]⟩
  | n + 1, stream, h => by
    rw [firsts_succ] at h
    rw [fgetsText, fgetsReads]
    by_cases hin : inLine (stream 0) = true
    · rw [lineEnd_inLine hin] at h
      obtain ⟨hsub, hbytes⟩ := fgetsText_right unset n (fun i => stream (i + 1)) h
      obtain ⟨ch, hch, hn, he⟩ := inLine_cases hin
      have hvalue : fgetcValue (unset n) (stream 0) = charToInt ch := by rw [hch]; rfl
      rw [hvalue, if_neg (mt charToInt_eq_EOF.1 he), if_neg (mt charToInt_eq_iff.1 hn),
        if_neg (mt charToInt_eq_EOF.1 he), if_neg (mt charToInt_eq_iff.1 hn), firsts_succ, hch,
        intToChar_charToInt]
      exact ⟨hsub.cons_cons ch, dropLast_bytes ⟨ch, rfl⟩ hbytes⟩
    · rw [lineEnd_here hin] at h
      cases hfirst : stream 0 with
      | byte ch =>
        rw [hfirst, inLine_byte, not_and_or, not_not, not_not] at hin
        have hvalue : fgetcValue (unset n) (.byte ch) = charToInt ch := rfl
        rw [hvalue]
        by_cases he : ch = eofChar
        · rw [if_pos (charToInt_eq_EOF.2 he), if_pos (charToInt_eq_EOF.2 he)]
          exact ⟨List.nil_sublist _, by simp [firsts]⟩
        · have hn := hin.resolve_right he
          rw [if_neg (mt charToInt_eq_EOF.1 he), if_pos (charToInt_eq_iff.2 hn),
            if_neg (mt charToInt_eq_EOF.1 he), if_pos (charToInt_eq_iff.2 hn), firsts_succ, hfirst,
            intToChar_charToInt]
          exact ⟨(List.nil_sublist _).cons_cons ch, by simp [firsts]⟩
      | endOfFile => exact ⟨List.nil_sublist _, by simp [firsts, fgetcValue]⟩
      | error => exact absurd (congrArg some hfirst) h

theorem fgetsReads_pos (unset : Nat → UInt8) (stream : Stream) (hn : 0 < n) : 0 < fgetsReads unset n stream := by
  obtain ⟨n, rfl⟩ : ∃ k, n = k + 1 := ⟨n - 1, by omega⟩
  rw [fgetsReads]
  split_ifs <;> omega

/-- If it does, what the `char` held is stored, as the last byte or with the next outcome asked for. -/
theorem fgetsText_overlooks (hn : u ≠ newline) (he : u ≠ eofChar) : ∀ (n : Nat) (stream : Stream),
    lineEnd n (firsts n stream) = some .error →
    .error ∈ (firsts (fgetsReads (fun _ => u) n stream) stream).dropLast ∨
      (fgetsReads (fun _ => u) n stream = n ∧ ReadOutcome.error ∈ firsts n stream ∧
        ∃ text, fgetsText (fun _ => u) n stream = text ++ [u] ∧ text.length + 1 = n)
  | 0, _, h => by cases h
  | n + 1, stream, h => by
    rw [firsts_succ] at h ⊢
    rw [fgetsText, fgetsReads]
    by_cases hin : inLine (stream 0) = true
    · rw [lineEnd_inLine hin] at h
      obtain ⟨ch, hch, hn', he'⟩ := inLine_cases hin
      have hvalue : fgetcValue u (stream 0) = charToInt ch := by rw [hch]; rfl
      rw [hvalue, if_neg (mt charToInt_eq_EOF.1 he'), if_neg (mt charToInt_eq_iff.1 hn'),
        if_neg (mt charToInt_eq_EOF.1 he'), if_neg (mt charToInt_eq_iff.1 hn'), firsts_succ]
      rcases fgetsText_overlooks hn he n (fun i => stream (i + 1)) h with h | ⟨hreads, hmem, text, htext, hlen⟩
      · exact .inl (mem_dropLast_append [stream 0] h)
      · refine .inr ⟨congrArg (· + 1) hreads, List.mem_cons_of_mem _ hmem, intToChar (charToInt ch) :: text, ?_, ?_⟩
        · rw [htext]
          rfl
        · rw [List.length_cons, hlen]
    · rw [lineEnd_here hin] at h
      have hfirst : stream 0 = .error := Option.some.inj h
      have hvalue : fgetcValue u (stream 0) = charToInt u := by rw [hfirst]; rfl
      rw [hvalue, if_neg (mt charToInt_eq_EOF.1 he), if_neg (mt charToInt_eq_iff.1 hn),
        if_neg (mt charToInt_eq_EOF.1 he), if_neg (mt charToInt_eq_iff.1 hn), intToChar_charToInt, hfirst]
      cases n with
      | zero => exact .inr ⟨rfl, List.mem_cons_self, [], rfl, rfl⟩
      | succ n =>
        obtain ⟨k, hk⟩ := Nat.exists_eq_succ_of_ne_zero
          (Nat.ne_of_gt (fgetsReads_pos (fun _ => u) (fun i => stream (i + 1)) (Nat.succ_pos n)))
        rw [hk, firsts_succ, firsts_succ, hfirst]
        exact .inl List.mem_cons_self

/-- A call that leaves `k` outcomes out, whatever comes behind them, does not leave out more. -/
theorem reads_le {f : Stream → Except Fault (Ptr × Mem × Stream)} {r r' : Ptr} {m' m'' : Mem} {l : Nat}
    (hk : ∀ stream', firsts k stream' = firsts k stream → f stream' = .ok (r, m', fun i => stream' (k + i)))
    (hl : ∀ stream', firsts l stream' = firsts l stream → f stream' = .ok (r', m'', fun i => stream' (l + i))) :
    l ≤ k := by
  by_contra hlt
  -- behind `l` outcomes comes another one than outcome `k`
  obtain ⟨x, hx⟩ : ∃ x, x ≠ stream k := by
    cases hk : stream k with
    | endOfFile => exact ⟨.error, by simp⟩
    | byte ch => exact ⟨.error, by simp⟩
    | error => exact ⟨.endOfFile, by simp⟩
  have hagree : ∀ j ≤ l, firsts j (fun i => if i < l then stream i else x) = firsts j stream := by
    intro j hj
    refine List.map_congr_left fun i hi => if_pos ?_
    exact Nat.lt_of_lt_of_le (List.mem_range.1 hi) hj
  have hsame := (hk _ (hagree k (by omega))).symm.trans (hl _ (hagree l (Nat.le_refl l)))
  simp only [Except.ok.injEq, Prod.mk.injEq] at hsame
  have hleft := congrFun hsame.2.2 0
  rw [Nat.add_zero, Nat.add_zero, if_pos (by omega), if_neg (Nat.lt_irrefl l)] at hleft
  exact hx hleft.symm

theorem length_delivered_lt (h : ReadOutcome.error ∈ outcomes) :
    (delivered outcomes).length < outcomes.length := by
  obtain ⟨l, l', rfl⟩ := List.append_of_mem h
  have hle : (delivered l).length ≤ l.length := List.length_filterMap_le _ _
  have hle' : (delivered l').length ≤ l'.length := List.length_filterMap_le _ _
  have hsplit : delivered (l ++ .error :: l') = delivered l ++ delivered l' := List.filterMap_append
  rw [hsplit, List.length_append, List.length_append, List.length_cons]
  omega

theorem fgetsFaithful_of_noError {size : Int} (h : ReadBuffer b o size m)
    (herr : lineEnd (size - 1).toNat (firsts (size - 1).toNat stream) ≠ some .error) :
    FgetsFaithful m b o size stream := by
  intro unset
  obtain ⟨r, hreads⟩ := fgets_reads unset size stream h.block h.fits
  obtain ⟨hsub, hbytes⟩ := fgetsText_right unset _ stream herr
  exact ⟨_, r, _, hreads, hbytes, hsub⟩

/-- A file is read without errors. -/
theorem ofBytes_noError (n : Nat) (bytes : List UInt8) :
    lineEnd n (firsts n (ofBytes bytes)) ≠ some .error := by
  intro herr
  obtain ⟨i, -, hi⟩ := List.mem_map.1 (mem_of_lineEnd herr)
  unfold ofBytes at hi
  split at hi <;> cases hi

/-- What the `char` held can be neither the NUL nor what stood in the buffer. -/
theorem exists_visible (old : Option UInt8) : ∃ u : UInt8, u ≠ newline ∧ u ≠ eofChar ∧ u ≠ 0 ∧ some u ≠ old := by
  by_cases hold : old = some 1
  · exact ⟨2, by decide, by decide, by decide, by rw [hold]; decide⟩
  · exact ⟨1, by decide, by decide, by decide, Ne.symm hold⟩

theorem not_fgetsFaithful {size : Int} (h : ReadBuffer b o size m)
    (herr : lineEnd (size - 1).toNat (firsts (size - 1).toNat stream) = some .error) :
    ¬ FgetsFaithful m b o size stream := by
  intro hf
  obtain ⟨u, hn, he, h0, hold⟩ := exists_visible (m.bytes b)[o + ((size - 1).toNat - 1)]?
  obtain ⟨k, r, text, hcall, hbytes, hsub⟩ := hf fun _ => u
  obtain ⟨r', hreads⟩ := fgets_reads (fun _ => u) size stream h.block h.fits
  obtain rfl := Nat.le_antisymm (reads_le hreads hcall) (reads_le hcall hreads)
  have hfits := h.fits
  rcases fgetsText_overlooks hn he _ stream herr with hmem | ⟨hk, hmem, pre, hpre, hlen⟩
  · obtain ⟨ch, hch⟩ := hbytes _ hmem
    cases hch
  · -- the last byte stored was not delivered
    rw [hk] at hsub
    have hshort := Nat.lt_of_le_of_lt hsub.length_le (length_delivered_lt hmem)
    rw [length_firsts] at hshort
    have hsame := (hcall stream rfl).symm.trans (hreads stream rfl)
    rw [hpre, Except.ok.injEq, Prod.mk.injEq, Prod.mk.injEq] at hsame
    have hstored := congrArg (fun m' : Mem => (m'.bytes b)[o + pre.length]?) hsame.2.1
    have hlast : (pre ++ [u] ++ [0])[pre.length]? = some u := by simp
    have hin : pre.length < (pre ++ [u] ++ [0]).length := by simp
    rw [Mem.bytes_setBytes_self h.block, Mem.bytes_setBytes_self h.block, getElem?_overwrite (by omega),
      getElem?_overwrite (by omega), hlast, if_pos hin] at hstored
    by_cases hend : text.length = pre.length
    · rw [← hend, if_pos (by simp), List.getElem?_concat_length] at hstored
      exact h0 (Option.some.inj hstored).symm
    · rw [if_neg (by rw [List.length_append, List.length_singleton]; omega),
        show pre.length = (size - 1).toNat - 1 by omega] at hstored
      exact hold hstored.symm

end Fgets

/-- `fgets` is right unless a failed `read` comes before its line is at an end, and `gets` unless no byte comes
first, or the end of the file before its line is at an end. -/
theorem read_failures_iff {m : Mem} {b o : Nat} {size : Int} (hf : ReadBuffer b o size m)
    (hg : o + lineLength < (m.bytes b).length) (stream : Stream) (outcomes : List ReadOutcome) :
    (FgetsFaithful m b o size stream ↔
        lineEnd (size - 1).toNat (firsts (size - 1).toNat stream) ≠ some .error) ∧
      (GetsFaithful m b o outcomes ↔ GetsSafe outcomes) := by
  refine ⟨⟨?_, fgetsFaithful_of_noError hf⟩, ⟨safe_of_getsFaithful hf.block hg, getsFaithful_of_safe hf.block hg⟩⟩
  exact fun hfaithful herr => not_fgetsFaithful hf herr hfaithful

theorem longMem_buffer : ReadBuffer 0 0 1000 longMem where
  block := Nat.zero_lt_one
  fits := Nat.lt_trans (by decide) longMem_room

/-- Bytes of a line, and then none for ever. -/
theorem read_failures_line : FgetsFaithful longMem 0 0 1000 (ofBytes [97, newline]) ∧
    GetsFaithful longMem 0 0 [.byte 97, .byte newline] := by
  have hiff := read_failures_iff longMem_buffer longMem_room (ofBytes [97, newline]) [.byte 97, .byte newline]
  refine ⟨hiff.1.2 (ofBytes_noError _ _), hiff.2.2 ?_⟩
  intro first rest h
  cases h
  exact ⟨⟨97, rfl⟩, fun _ => by rw [show lineLength - 1 = 1022 + 1 from rfl, lineEnd_here (by decide)]; simp⟩

/-- An error for `fgets`, and the end of the file for `gets`. -/
theorem read_failures_overlooked : ¬ FgetsFaithful longMem 0 0 1000 (fun _ => .error) ∧
    ¬ GetsFaithful longMem 0 0 [.endOfFile] := by
  constructor
  · refine not_fgetsFaithful longMem_buffer ?_
    rw [show ((1000 : Int) - 1).toNat = 998 + 1 from rfl, firsts_succ, lineEnd_here (by decide)]
  · intro h
    obtain ⟨⟨ch, hch⟩, -⟩ := safe_of_getsFaithful Nat.zero_lt_one longMem_room h .endOfFile [] rfl
    cases hch

end Sbunix.Libc
