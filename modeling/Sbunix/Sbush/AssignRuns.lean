/-
Lines of assignments, one after the other: which value `getenv` finds after each of them.

No later line touches the buffers of the words of an earlier one. Within a line the release clears
the front of the command's buffer as far as the longest key among its words, which takes the first
character of the command's own value when that key is longer than the command's by two or more.
-/
import Mathlib.Data.List.Dedup
import Mathlib.Data.List.Perm.Subperm
import Sbunix.Lib.Run
import Sbunix.Sbush.AssignLine

namespace Sbunix.Sbush

open BlockMemory Fallible Libc Transition

/-- What a line assigns, in the order of its words. -/
def assignments (line : List UInt8) : List (List UInt8 × List UInt8) :=
  (assigned line).map fun word => (keyOf word, valueOf word)

/-- What the lines assigned so far. -/
def history (lines : List (List UInt8)) : List (List UInt8 × List UInt8) :=
  lines.flatMap assignments

/-- The line's release spares the command's value, or nobody looks for it. -/
def SparesCommand (line : List UInt8) : Prop :=
  commandWord line = exportWord ∨ valueOf (commandWord line) = [] ∨
    (∃ word ∈ argWords line, keyOf word = keyOf (commandWord line)) ∨
    ∀ word ∈ argWords line, (keyOf word).length ≤ (keyOf (commandWord line)).length + 1

/-! ## The values of a line -/

/-- The pointer finds the value in a block that is kept. -/
def Stored (b p : Nat) (m : Mem) (value : List UInt8) (q : Ptr) : Prop :=
  ∃ c o : Nat, q = .ofBlock c o ∧ Kept b p c ∧ m.StringAt c o value

section Values

variable {m m' : Mem} {b p n T : Nat} {key value line r : List UInt8} {words : List (List UInt8)}
  {slots : List (List UInt8 × Ptr)} {sh sh' : Shell} {q : Ptr}

theorem Stored.frame (hf : Frame (fun c => c < m.next ∧ Kept b p c) m m') (h : Stored b p m value q) :
    Stored b p m' value q := by
  obtain ⟨c, o, hq, hc, hs⟩ := h
  exact ⟨c, o, hq, hc, hs.frame hf ⟨hs.lt_next, hc⟩⟩

theorem drop_cleared {l : List UInt8} {k : Nat} (h : T ≤ k) : (cleared T l).drop k = l.drop k := by
  rw [cleared, List.drop_append, List.length_replicate, List.drop_drop, Nat.add_sub_cancel' h,
    List.drop_eq_nil_of_le (by simpa using h), List.nil_append]

/-- Behind the key and its NUL an empty value stays what it is, cleared or not. -/
theorem isString_cleared_nil :
    IsString ((cleared T (key ++ 0 :: 0 :: r)).drop (key.length + 1)) [] := by
  rcases Nat.lt_or_ge (key.length + 1) T with h | h
  · obtain ⟨d, rfl⟩ : ∃ d, T = key.length + 1 + (d + 1) := ⟨T - (key.length + 2), by omega⟩
    rw [cleared, List.drop_append_of_le_length (by rw [List.length_replicate]; omega), List.drop_replicate,
      Nat.add_sub_cancel_left, List.replicate_succ]
    exact isString_append (s := []) List.not_mem_nil _
  · rw [drop_cleared h, ← List.drop_drop, List.drop_left]
    exact isString_append (s := []) List.not_mem_nil _

theorem isString_cleared (h0 : 0 ∉ value) (h : T ≤ key.length + 1) :
    IsString ((cleared T (key ++ 0 :: (value ++ 0 :: r))).drop (key.length + 1)) value := by
  rw [drop_cleared h, ← List.drop_drop, List.drop_left]
  exact isString_append h0 _

theorem targets_related (hb : b < n) (hp : p < n) : ∀ (words : List (List UInt8)) (i : Nat),
    CutAt m n i words → List.Forall₂ (fun x y => x.1 = y.1 ∧ Stored b p m x.2 y.2)
      (words.map fun word => (keyOf word, valueOf word)) (targets n i words)
  | [], _, _ => .nil
  | word :: words, i, ⟨⟨_, hv⟩, hrest⟩ =>
    .cons ⟨rfl, n + i, _, rfl, ⟨by omega, by omega⟩, hv⟩ (targets_related hb hp words (i + 1) hrest)

theorem AssignLine.noNul_value (hl : AssignLine line) : 0 ∉ valueOf (commandWord line) := by
  intro h0
  have hw : 0 ∈ commandWord line := (List.dropWhile_sublist _).subset (List.mem_of_mem_tail h0)
  exact trimmed_noNul hl.noNul (mem_of_firstWord _ hw)

/-- The command's own value, if nothing else in the line is assigned to its key. -/
theorem LineDone.commandValue (h : LineDone b p line slots sh sh') (hl : AssignLine line)
    (hb : b < sh.mem.next) (hp : p < sh.mem.next)
    (hne : commandWord line ≠ exportWord) (hs : SparesCommand line)
    (hlast : ∀ word ∈ argWords line, keyOf word ≠ keyOf (commandWord line)) :
    Stored b p sh'.mem (valueOf (commandWord line))
      (.ofBlock (sh.mem.next + 1) ((keyOf (commandWord line)).length + 1 : Nat)) := by
  obtain ⟨r, hr⟩ := h.command hne
  refine ⟨sh.mem.next + 1, (keyOf (commandWord line)).length + 1, rfl, ⟨by omega, by omega⟩, ?_⟩
  unfold Mem.StringAt
  rw [hr]
  -- the value is empty, or as long as no key reaches behind the command's own
  rcases hs with he | hnil | ⟨word, hm, he⟩ | hshort
  · exact absurd he hne
  · rw [hnil]
    exact isString_cleared_nil
  · exact absurd he (hlast word hm)
  · apply isString_cleared hl.noNul_value
    · rw [Nat.max_le, longestKey_le]
      exact ⟨hshort, Nat.le_succ _⟩

/-- What the line leaves a key with is stored where its slot points. -/
theorem LineDone.stores (h : LineDone b p line slots sh sh') (hl : AssignLine line)
    (hb : b < sh.mem.next) (hp : p < sh.mem.next) (hs : SparesCommand line)
    (hv : Slots.lastValue (assignments line) key = some value) :
    ∃ q, Slots.lastValue (lineTargets sh.mem.next line) key = some q ∧ Stored b p sh'.mem value q := by
  have hargs := targets_related (b := b) (p := p) (n := sh.mem.next + 3) (by omega) (by omega) _ 0
    h.arguments
  unfold assignments assigned at hv
  unfold lineTargets
  split at hv
  · next he =>
    rw [if_pos he]
    exact Slots.lastValue_related (R := Stored b p sh'.mem) hargs hv
  · next hne =>
    rw [if_neg hne, Slots.lastValue]
    rw [List.map_cons, Slots.lastValue] at hv
    -- an argument's assignment to the key comes after the command's
    rcases Option.or_eq_some_iff.1 hv with hrest | ⟨hnone, hcommand⟩
    · obtain ⟨q, hq, hstored⟩ := Slots.lastValue_related (R := Stored b p sh'.mem) hargs hrest
      exact ⟨q, by rw [hq]; rfl, hstored⟩
    · split at hcommand
      · next hk =>
        subst hk
        cases hcommand
        rw [Slots.lastValue_eq_none_iff] at hnone
        refine ⟨_, ?_, h.commandValue hl hb hp hne hs fun word hm he => hnone ?_⟩
        · rw [Slots.keys_related (R := Stored b p sh'.mem) hargs, ← Slots.lastValue_eq_none_iff] at hnone
          rw [hnone, if_pos rfl]
          rfl
        · rw [Slots.keys, List.map_map, List.mem_map]
          exact ⟨word, hm, he⟩
      · cases hcommand

end Values

/-! ## Runs -/

section Runs

variable (U : Unspecified) (other : Nat → CommandArgument → Shell → Except Fault Shell)

/-- `fgets` fills the line buffer in block `b`, and the line is executed from there. -/
def LineStep (b : Nat) (sh : Shell) (line : List UInt8) (sh' : Shell) : Prop :=
  ∃ l, IsString l line ∧ l.length = (sh.mem.bytes b).length ∧
    parseAndExecuteCommand U other (.ofBlock b 0) { sh with mem := sh.mem.setBytes b l } = .ok sh'

/-- The parser reads the line right, and its release spares the command's value and finds nothing in the
allocator's header. -/
structure Harmless (n : Nat) (line : List UInt8) : Prop where
  clean : ParsesClean U n line
  spares : SparesCommand line
  header : SparesHeader line

/-- The steps of lines that do no harm to their own values. -/
abbrev HarmlessStep (b : Nat) : Shell → List UInt8 → Shell → Prop :=
  Restrict (LineStep U other b) fun sh line _ => Harmless U sh.mem.next line

/-- How many different keys the lines assign to. -/
def keyCount (lines : List (List UInt8)) : Nat := (Slots.keys (history lines)).dedup.length

/-- `getenv` answers, for every key the lines assigned to, with the last value assigned. -/
def HasLastValues (lines : List (List UInt8)) (sh : Shell) : Prop :=
  ∀ key value, Slots.lastValue (history lines) key = some value →
    ∀ src : Source, src.IsString sh.mem key →
      ∃ q, getenv sh.mem src sh.environ = .ok q ∧ sh.mem.String q value

/-- After the lines: the environment's keys are the first ones and those of the lines, and what
the lines assigned last is stored. -/
structure Reached (b p : Nat) (slots0 : List (List UInt8 × Ptr)) (lines : List (List UInt8))
    (slots : List (List UInt8 × Ptr)) (sh : Shell) : Prop extends ShellAt b p slots sh where
  nodup : (Slots.keys slots).Nodup
  keys : ∀ key ∈ Slots.keys slots, key ∈ Slots.keys slots0 ∨ key ∈ Slots.keys (history lines)
  stores : ∀ key value, Slots.lastValue (history lines) key = some value →
    ∃ q, Slots.find slots key = some q ∧ Stored b p sh.mem value q

/-- The environment has the first keys and those the lines assigned to, each in one slot. -/
structure KeysOf (slots0 : List (List UInt8 × Ptr)) (lines : List (List UInt8))
    (slots : List (List UInt8 × Ptr)) : Prop where
  nodup : (Slots.keys slots).Nodup
  keys : ∀ key ∈ Slots.keys slots, key ∈ Slots.keys slots0 ∨ key ∈ Slots.keys (history lines)

variable {U other} {b p n : Nat} {line : List UInt8} {lines : List (List UInt8)} {sh sh' sh0 : Shell}
  {slots slots0 : List (List UInt8 × Ptr)}

theorem ShellAt.fgets {l : List UInt8} (h : ShellAt b p slots sh) (hl : IsString l line) :
    Ready b 0 p line slots { sh with mem := sh.mem.setBytes b l } := by
  have hf : Frame (Kept b p) sh.mem (sh.mem.setBytes b l) := .setBytes (fun hk => hk.1 rfl) l
  exact ⟨h.kept hf (Mem.bytes_setBytes_ne h.apart.symm), Mem.stringAt_of_bytes (Mem.bytes_setBytes_self h.buffer) hl⟩

theorem exists_buffer {size : Nat} (h0 : 0 ∉ line) (hlen : line.length < size) :
    ∃ l, IsString l line ∧ l.length = size := by
  refine ⟨line ++ 0 :: List.replicate (size - (line.length + 1)) 0, isString_append h0 _, ?_⟩
  rw [List.length_append, List.length_cons, List.length_replicate]
  omega

/-- A line without a `'|'` is a single command. -/
theorem AssignLine.single_eq {o : Nat} (hl : AssignLine line) (hs : sh.mem.StringAt b o line) :
    parseAndExecuteCommand U other (.ofBlock b o) sh = executeSingle U other (.ofBlock b o) sh := by
  have hnot : ¬ pipeChar ∈ line.takeWhile (· ≠ newline) := fun h =>
    hl.single (List.takeWhile_subset _ h)
  have hc := strchr_string (c := pipeChar) hs
  rw [if_neg hnot] at hc
  rw [parseAndExecuteCommand, hc, ok_bind, if_neg (by simp)]

theorem history_snoc : history (lines ++ [line]) = history lines ++ assignments line := by
  rw [history, List.flatMap_append, List.flatMap_singleton, ← history]

theorem keys_append (h h' : List (List UInt8 × List UInt8)) :
    Slots.keys (h ++ h') = Slots.keys h ++ Slots.keys h' := List.map_append

theorem keyCount_le : keyCount lines ≤ keyCount (lines ++ [line]) := by
  unfold keyCount
  rw [history_snoc, keys_append]
  refine (List.subperm_of_subset (List.nodup_dedup _) fun key hk => ?_).length_le
  rw [List.mem_dedup] at hk ⊢
  exact List.mem_append_left _ hk

theorem keys_targets : ∀ (words : List (List UInt8)) (i : Nat),
    Slots.keys (targets n i words) = words.map keyOf
  | [], _ => rfl
  | word :: words, i => by
    rw [targets, Slots.keys, List.map_cons, List.map_cons, ← Slots.keys, keys_targets words]

theorem keys_lineTargets : Slots.keys (lineTargets n line) = Slots.keys (assignments line) := by
  have hkeys : Slots.keys (assignments line) = (assigned line).map keyOf := by
    rw [assignments, Slots.keys, List.map_map]
    rfl
  rw [hkeys, lineTargets, assigned]
  split
  · exact keys_targets _ _
  · rw [Slots.keys, List.map_cons, List.map_cons, ← Slots.keys, keys_targets]

theorem KeysOf.lineDone (h : KeysOf slots0 lines slots) :
    KeysOf slots0 (lines ++ [line]) (Slots.setAll slots (lineTargets n line)) where
  nodup := Slots.nodup_setAll _ _ h.nodup
  keys := by
    intro key hk
    rw [history_snoc, keys_append, List.mem_append]
    rw [Slots.mem_keys_setAll, keys_lineTargets] at hk
    rcases hk with hk | hk
    · exact .inr (.inr hk)
    · exact (h.keys key hk).imp_right .inl

/-- The line finds slots enough: no key has two slots. -/
theorem KeysOf.room (h : KeysOf slots0 lines slots) (hone : slots0.length ≤ 1)
    (hk : keyCount (lines ++ [line]) < environDataSize) :
    (Slots.setAll slots (lineTargets n line)).length ≤ environDataSize := by
  have hafter : KeysOf slots0 (lines ++ [line]) (Slots.setAll slots (lineTargets n line)) := h.lineDone
  have hsub : Slots.keys (Slots.setAll slots (lineTargets n line)) ⊆
      Slots.keys slots0 ++ (Slots.keys (history (lines ++ [line]))).dedup := by
    intro key hm
    rw [List.mem_append, List.mem_dedup]
    exact hafter.keys key hm
  have hle := (List.subperm_of_subset hafter.nodup hsub).length_le
  rw [List.length_append, Slots.keys, Slots.keys, List.length_map, List.length_map] at hle
  unfold keyCount at hk
  omega

theorem KeysOf.of_start (hone : slots0.length ≤ 1) : KeysOf slots0 [] slots0 where
  nodup := by
    match slots0, hone with
    | [], _ => exact List.nodup_nil
    | [x], _ => exact List.nodup_singleton _
  keys := fun _ hk => .inl hk

theorem Reached.keysOf (h : Reached b p slots0 lines slots sh) : KeysOf slots0 lines slots := ⟨h.nodup, h.keys⟩

theorem LineDone.shellAt (hd : LineDone b p line slots sh sh') (h : ShellAt b p slots sh) :
    ShellAt b p (Slots.setAll slots (lineTargets sh.mem.next line)) sh' where
  buffer := Nat.lt_of_lt_of_le h.buffer hd.frame.next_le
  apart := h.apart
  prompt := hd.same.ps1.trans h.prompt
  promptLength := hd.promptLength
  environ := hd.environ

/-- After a harmless line, every key has its last value: the line's own, or the one from before,
whose buffer the line does not touch. -/
theorem Reached.lineDone {sh1 : Shell} (h : Reached b p slots0 lines slots sh)
    (h1 : ShellAt b p slots sh1) (hf : Frame (Kept b p) sh.mem sh1.mem)
    (hn : sh1.mem.next = sh.mem.next) (hl : AssignLine line) (hs : SparesCommand line)
    (hd : LineDone b p line slots sh1 sh') :
    Reached b p slots0 (lines ++ [line]) (Slots.setAll slots (lineTargets sh1.mem.next line)) sh' := by
  constructor
  case toShellAt => exact hd.shellAt h1
  case nodup => exact h.keysOf.lineDone.nodup
  case keys => exact h.keysOf.lineDone.keys
  case stores =>
    intro key value hv
    rw [history_snoc, Slots.lastValue_append] at hv
    rw [Slots.find_setAll]
    -- the value is the line's, or one from before
    rcases Option.or_eq_some_iff.1 hv with hlast | ⟨hnone, hbefore⟩
    · obtain ⟨q, hq, hstored⟩ := hd.stores hl h1.buffer h1.lt_next hs hlast
      exact ⟨q, by rw [hq]; rfl, hstored⟩
    · obtain ⟨q, hq, hstored⟩ := h.stores key value hbefore
      have hnone' : Slots.lastValue (lineTargets sh1.mem.next line) key = none := by
        rw [Slots.lastValue_eq_none_iff] at hnone ⊢
        rwa [keys_lineTargets]
      refine ⟨q, by rw [hnone', hq]; rfl, Stored.frame ?_ hstored⟩
      exact (hf.mono fun c hc => hc.2).trans (hd.frame.mono fun c hc => ⟨by omega, hc.2⟩)

variable (other) in
/-- The next harmless line is executed, and leads to such a state again. -/
theorem Reached.step (h : Reached b p slots0 lines slots sh) (hone : slots0.length ≤ 1)
    (hl : AssignLine line) (hh : Harmless U sh.mem.next line)
    (hk : keyCount (lines ++ [line]) < environDataSize) (hpage : PageAligned U (sh.mem.next + 1))
    {l : List UInt8} (hs : IsString l line) :
    ∃ sh' slots', parseAndExecuteCommand U other (.ofBlock b 0)
        { sh with mem := sh.mem.setBytes b l } = .ok sh' ∧
      Reached b p slots0 (lines ++ [line]) slots' sh' ∧ sh.mem.next ≤ sh'.mem.next := by
  have hready := h.fgets hs
  have hn : (sh.mem.setBytes b l).next = sh.mem.next := Mem.next_setBytes
  obtain ⟨sh', he, hd, -⟩ := executeSingle_eq (U := U) other hready hl (hn ▸ hh.clean)
    (h.keysOf.room hone hk) hh.header (hn ▸ hpage)
  have hr := h.lineDone hready.toShellAt (.setBytes (fun hb => hb.1 rfl) l) hn hl hh.spares hd
  exact ⟨sh', _, (hl.single_eq hready.line).trans he, hr, hn ▸ hd.frame.next_le⟩

theorem Reached.of_start (h : ShellAt b p slots0 sh0) (hone : slots0.length ≤ 1) :
    Reached b p slots0 [] slots0 sh0 where
  toShellAt := h
  nodup := (KeysOf.of_start hone).nodup
  keys := (KeysOf.of_start hone).keys
  stores := fun key value hv => by cases hv

theorem Reached.of_run (h0 : ShellAt b p slots0 sh0) (hone : slots0.length ≤ 1)
    (hrun : Run (HarmlessStep U other b) sh0 lines sh) (hl : ∀ line ∈ lines, AssignLine line)
    (hk : keyCount lines < environDataSize) (hpage : PageAligned U (sh0.mem.next + 1)) :
    (∃ slots, Reached b p slots0 lines slots sh) ∧ PageAligned U (sh.mem.next + 1) := by
  refine hrun.invariant_steps (fun lines sh => (∀ line ∈ lines, AssignLine line) →
    keyCount lines < environDataSize → (∃ slots, Reached b p slots0 lines slots sh) ∧
      PageAligned U (sh.mem.next + 1)) ?_ ?_ hl hk
  · exact fun _ _ => ⟨⟨slots0, .of_start h0 hone⟩, hpage⟩
  · rintro lines sh line sh' ih ⟨⟨l, hs, -, he⟩, hh⟩ hl hk
    obtain ⟨⟨slots, h⟩, hpage⟩ := ih (fun x hx => hl x (List.mem_append_left _ hx))
      (Nat.lt_of_le_of_lt keyCount_le hk)
    obtain ⟨sh'', slots', he', h', hle⟩ := h.step (U := U) other hone (hl line (by simp)) hh hk hpage hs
    cases he.symm.trans he'
    exact ⟨⟨slots', h'⟩, fun k hk => hpage k (by omega)⟩

theorem Reached.hasLastValues (h : Reached b p slots0 lines slots sh) : HasLastValues lines sh := by
  intro key value hv src hsrc
  obtain ⟨q, hq, c, o, hc, -, hs⟩ := h.stores key value hv
  refine ⟨q, ?_, c, o, hc, hs⟩
  rw [getenv_eq hsrc h.environ, hq]
  rfl

end Runs

/-- From a shell with at most one entry in its environment, every run of harmless lines over fewer
than 20 keys leaves each key with its last value, and the next such line can be executed. Blocks are
mapped as whole pages. -/
theorem last_values (U : Unspecified)
    (other : Nat → CommandArgument → Shell → Except Fault Shell) {b p : Nat}
    {slots0 : List (List UInt8 × Ptr)} {lines : List (List UInt8)} {sh0 sh : Shell}
    (h0 : ShellAt b p slots0 sh0) (hone : slots0.length ≤ 1)
    (hrun : Run (HarmlessStep U other b) sh0 lines sh) (hl : ∀ line ∈ lines, AssignLine line)
    (hk : keyCount lines < environDataSize) (hpage : PageAligned U (sh0.mem.next + 1)) :
    HasLastValues lines sh ∧ ∀ line, AssignLine line → Harmless U sh.mem.next line →
      keyCount (lines ++ [line]) < environDataSize → line.length < (sh.mem.bytes b).length →
      ∃ sh', LineStep U other b sh line sh' := by
  obtain ⟨⟨slots, h⟩, hpage'⟩ := Reached.of_run h0 hone hrun hl hk hpage
  refine ⟨h.hasLastValues, fun line hline hh hk' hlen => ?_⟩
  obtain ⟨l, hs, hl'⟩ := exists_buffer hline.noNul hlen
  obtain ⟨sh', -, he, -⟩ := h.step (U := U) other hone hline hh hk' hpage' hs
  exact ⟨sh', l, hs, hl', he⟩

/-- A shell with an empty environment. -/
def freshShell : Shell where
  mem := { blocks := [List.replicate 64 0, List.replicate maxPS1Length 0], released := [], stray := [] }
  environ := []
  ps1 := .ofBlock 1 0
  pipelines := []

theorem freshShell_at : ShellAt 0 1 [] freshShell where
  buffer := by decide
  apart := by decide
  prompt := rfl
  promptLength := by decide
  environ := .nil

/-- `A=1 B=2` -/
def shortKeys : List UInt8 := [65, 61, 49, 32, 66, 61, 50] ++ [newline]

/-- `A=1 LONGKEY=2` -/
def longKey : List UInt8 := [65, 61, 49, 32, 76, 79, 78, 71, 75, 69, 89, 61, 50] ++ [newline]

theorem assignLine_shortKeys : AssignLine shortKeys := assignLine_snoc (by decide)

theorem assignLine_longKey : AssignLine longKey := assignLine_snoc (by decide)

theorem last_values_short : ∃ sh, HasLastValues [shortKeys] sh ∧
    Run (HarmlessStep (filled 0) (fun _ _ sh => .ok sh) 0) freshShell [shortKeys] sh := by
  have hclean : ParsesClean (filled 0) freshShell.mem.next shortKeys := parsesClean_zeros (by decide)
  have hh : Harmless (filled 0) freshShell.mem.next shortKeys :=
    ⟨hclean, .inr (.inr (.inr (by decide))), by decide⟩
  obtain ⟨sh, hstep⟩ := (last_values (filled 0) (fun _ _ sh => .ok sh) freshShell_at (by decide)
    .nil (by simp) (by decide) (pageAligned_filled 0 _)).2 shortKeys assignLine_shortKeys hh (by decide) (by decide)
  have hrun := Run.snoc (.nil : Run (HarmlessStep (filled 0) (fun _ _ sh => .ok sh) 0) freshShell [] _)
    ⟨hstep, hh⟩
  exact ⟨sh, (last_values _ _ freshShell_at (by decide) hrun (by simp [assignLine_shortKeys]) (by decide)
    (pageAligned_filled 0 _)).1, hrun⟩

/-- The release of `A=1` clears seven bytes for the key `LONGKEY`, the value of `A` among them. -/
theorem long_key_clears : AssignLine longKey ∧ keyCount [longKey] < environDataSize ∧
    ∃ sh, Run (LineStep (filled 0) (fun _ _ sh => .ok sh) 0) freshShell [longKey] sh ∧
      ¬ HasLastValues [longKey] sh := by
  refine ⟨assignLine_longKey, by decide, ?_⟩
  have hs : IsString (longKey ++ List.replicate 50 0) longKey :=
    isString_append assignLine_longKey.noNul (List.replicate 49 0)
  have hready := freshShell_at.fgets hs
  obtain ⟨sh, he, hd, -⟩ := executeSingle_eq (U := filled 0) (fun _ _ sh => .ok sh) hready
    assignLine_longKey (parsesClean_zeros (by decide)) (by decide) (by decide) (pageAligned_filled 0 _)
  have hstep : LineStep (filled 0) (fun _ _ sh => .ok sh) 0 freshShell longKey sh :=
    ⟨_, hs, by decide, (assignLine_longKey.single_eq hready.line).trans he⟩
  refine ⟨sh, .snoc .nil hstep, fun hlast => ?_⟩
  have hkey : Source.IsString sh.mem (.literal [65]) [65] := ⟨by decide, rfl⟩
  have hslot : Slots.find (Slots.setAll [] (lineTargets 2 longKey)) [65] = some (.ofBlock 3 2) := by
    decide
  have hlong : max (longestKey (argWords longKey)) (keyOf (commandWord longKey)).length = 7 := by
    decide
  obtain ⟨q, hq, hstring⟩ := hlast [65] [49] (by decide) _ hkey
  have hfound : getenv sh.mem (.literal [65]) sh.environ = .ok (.ofBlock 3 2) :=
    (getenv_eq hkey hd.environ).trans (congrArg (fun x => Except.ok (Option.getD x .null)) hslot)
  obtain rfl : .ofBlock 3 2 = q := Except.ok.inj (hfound.symm.trans hq)
  obtain ⟨r, hr⟩ := hd.command (by decide)
  rw [hlong] at hr
  -- the byte behind the cut `'='` is one of the seven
  obtain ⟨t, ht⟩ := (stringAt_of (k := 3) (i := 2) rfl hstring).isPrefix
  rw [show sh.mem.bytes 3 = _ from hr, cleared] at ht
  cases ht

end Sbunix.Sbush
