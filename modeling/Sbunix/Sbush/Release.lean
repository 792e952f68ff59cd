/-
What `freeCommandArgument` does with the blocks of a command, access by access. Each buffer is
released once, but the structure that holds the pointers never is, and the loop over the arguments
clears the command's buffer again after its release.
-/
import Sbunix.Sbush.AssignLine

namespace Sbunix.Sbush

open BlockMemory Fallible Libc

/-! ## Events -/

/-- What is done with a block. -/
inductive HeapEvent where
  | read (block : Nat)
  | write (block : Nat)
  | release (block : Nat)
deriving DecidableEq, Repr

def HeapEvent.block : HeapEvent → Nat
  | .read b => b
  | .write b => b
  | .release b => b

/-- Nothing is done with a block after its release. -/
def NoUseAfterRelease (events : List HeapEvent) : Prop :=
  events.Pairwise fun e later => ∀ b, e = .release b → later.block ≠ b

/-- `event` at a pointer's block. -/
def eventAt (event : Nat → HeapEvent) : Ptr → List HeapEvent
  | .ofBlock b _ => [event b]
  | _ => []

/-- `memset(p, '\0', len)` touches nothing if `len` is 0. -/
def clearEvents (p : Ptr) (len : Nat) : List HeapEvent := if len = 0 then [] else eventAt .write p

section Free

variable (U : Unspecified) (cmdArg : CommandArgument)

/-- The loop over the arguments, with what it does to the heap. -/
def traceArguments : Nat → Nat → Mem → Except Fault (List HeapEvent × Mem)
  | 0, _, m => .ok ([], m)
  | n + 1, i, m => do
    let (len, m) ← strlen U m (cmdArg.arguments i)
    let m ← memset m cmdArg.command 0 len
    let m ← freeMapped U m (cmdArg.arguments i)
    let (events, m) ← traceArguments n (i + 1) m
    return (eventAt .read (cmdArg.arguments i) ++ (clearEvents cmdArg.command len ++
      (eventAt .release (cmdArg.arguments i) ++ events)), m)

def traceCommand (m : Mem) : Except Fault (List HeapEvent × Mem) := do
  if cmdArg.command = .null then
    return ([], m)
  let (len, m) ← strlen U m cmdArg.command
  let m ← memset m cmdArg.command 0 len
  let m ← freeMapped U m cmdArg.command
  return (eventAt .read cmdArg.command ++ (clearEvents cmdArg.command len ++
    eventAt .release cmdArg.command), m)

/-- `freeCommandArgument`, with what it does to the heap. -/
def traceCommandArgument (m : Mem) : Except Fault (List HeapEvent × Mem) := do
  let m ← freeMapped U m cmdArg.trimmedInput
  let (events, m) ← traceCommand U cmdArg m
  let (later, m) ← traceArguments U cmdArg cmdArg.argumentCount.toNat 0 m
  return (eventAt .release cmdArg.trimmedInput ++ (events ++ later), m)

/-- The blocks from `n` on, up to block `next`, are released once each, and no block is touched after
its release; a store outside the block being cleared would be a fault. -/
def FreesRight (n next : Nat) (m : Mem) : Prop :=
  ∃ events m', traceCommandArgument U cmdArg m = .ok (events, m') ∧
    (∀ b, n ≤ b → b < next → events.count (.release b) = 1) ∧ NoUseAfterRelease events

end Free

/-! ## The trace is that of the code -/

section Trace

variable {U : Unspecified} {c : CommandArgument} {m : Mem}

theorem traceArguments_mem (n i : Nat) (m : Mem) :
    (traceArguments U c n i m).map Prod.snd = freeArguments U c n i m := by
  induction n generalizing i m with
  | zero => rfl
  | succ n ih =>
    rw [traceArguments, freeArguments, map_bind]
    apply bind_congr
    rintro ⟨len, m1⟩
    rw [map_bind]
    apply bind_congr
    intro m2
    rw [map_bind]
    apply bind_congr
    intro m3
    rw [map_bind, ← ih (i + 1) m3]
    cases traceArguments U c n (i + 1) m3 <;> rfl

theorem traceCommand_mem (m : Mem) : (traceCommand U c m).map Prod.snd = freeCommand U c m := by
  unfold traceCommand freeCommand
  split
  · rfl
  · rw [map_bind]
    apply bind_congr
    rintro ⟨len, m1⟩
    rw [map_bind]
    apply bind_congr
    intro m2
    rw [map_bind]
    cases freeMapped U m2 c.command <;> rfl

/-- Without the events it is `freeCommandArgument`. -/
theorem traceCommandArgument_mem (m : Mem) :
    (traceCommandArgument U c m).map Prod.snd = freeCommandArgument U c m := by
  unfold traceCommandArgument freeCommandArgument
  rw [map_bind]
  apply bind_congr
  intro m1
  rw [map_bind, ← traceCommand_mem]
  cases traceCommand U c m1 with
  | error f => rfl
  | ok x =>
    rw [ok_bind, map_bind]
    show _ = freeArguments U c c.argumentCount.toNat 0 x.2
    rw [← traceArguments_mem]
    cases traceArguments U c c.argumentCount.toNat 0 x.2 <;> rfl

end Trace

/-! ## Releases -/

section Releases

variable {U : Unspecified} {c : CommandArgument} {m m' m0 : Mem} {n b k base : Nat} {bg : Int}
  {text word : List UInt8} {args : List (List UInt8)} {events : List HeapEvent}

theorem count_release_read {p : Ptr} : (eventAt .read p).count (.release b) = 0 := by
  cases p <;> simp [eventAt]

theorem count_release_clear {p : Ptr} {len : Nat} : (clearEvents p len).count (.release b) = 0 := by
  unfold clearEvents
  split
  · rfl
  · cases p <;> simp [eventAt]

theorem count_release_ofBlock {o : Int} :
    (eventAt .release (.ofBlock k o)).count (.release b) = if k = b then 1 else 0 := by
  simp [eventAt, List.count_singleton]

/-- The arguments' buffers, once each. -/
theorem count_release_arguments : ∀ (l i : Nat) {m m' : Mem} {events : List HeapEvent},
    (∀ j, i ≤ j → j < i + l → c.arguments j = .ofBlock (base + j) 0 ∨ c.arguments j = .wild) →
    traceArguments U c l i m = .ok (events, m') →
    events.count (.release b) = if base + i ≤ b ∧ b < base + i + l then 1 else 0
  | 0, i, m, m', events, _, h => by
    cases h
    rw [if_neg (by omega)]
    rfl
  | l + 1, i, m, m', events, hptr, h => by
    rw [traceArguments] at h
    obtain ⟨⟨len, m1⟩, hlen, h⟩ := bind_eq_ok h
    obtain ⟨m2, -, h⟩ := bind_eq_ok h
    obtain ⟨m3, -, h⟩ := bind_eq_ok h
    obtain ⟨⟨later, m4⟩, h3, h⟩ := bind_eq_ok h
    cases h
    -- a pointer that is none is not gone through
    have hblock : c.arguments i = .ofBlock (base + i) 0 := by
      refine (hptr i (Nat.le_refl _) (by omega)).resolve_right fun hwild => ?_
      rw [hwild] at hlen
      cases hlen
    have ih := count_release_arguments l (i + 1) (fun j hj hlt => hptr j (by omega) (by omega)) h3
    rw [List.count_append, List.count_append, List.count_append, count_release_read, count_release_clear,
      hblock, count_release_ofBlock, ih]
    by_cases hb : base + i = b
    · rw [if_pos hb, if_neg (by omega), if_pos (by omega)]
    · rw [if_neg hb]
      simp only [Nat.zero_add]
      exact if_congr (by omega) rfl rfl

/-- Of the blocks of a parse that began at block `n`, all but the first, which is the structure, are
released once. -/
theorem count_release (hf : Fields n bg args c) (hc : c.argumentCount = args.length)
    (h : traceCommandArgument U c m = .ok (events, m')) :
    events.count (.release b) = if n < b ∧ b < n + 3 + args.length then 1 else 0 := by
  unfold traceCommandArgument at h
  obtain ⟨m0, -, h⟩ := bind_eq_ok h
  obtain ⟨⟨first, m1⟩, h1, h⟩ := bind_eq_ok h
  obtain ⟨⟨later, m2⟩, h2, h⟩ := bind_eq_ok h
  cases h
  rw [hc, Int.toNat_natCast] at h2
  have hptr : ∀ j, 0 ≤ j → j < 0 + args.length →
      c.arguments j = .ofBlock (n + 3 + j) 0 ∨ c.arguments j = .wild := by
    intro j _ hlt
    rcases Nat.lt_or_ge j maxArguments with hj | hj
    · exact .inl (hf.arguments j (by omega) hj)
    · exact hf.pastEnd j (by omega) hj
  have hlater := count_release_arguments (b := b) args.length 0 hptr h2
  unfold traceCommand at h1
  rw [hf.command, if_neg (by simp)] at h1
  obtain ⟨⟨len, m3⟩, -, h1⟩ := bind_eq_ok h1
  obtain ⟨m4, -, h1⟩ := bind_eq_ok h1
  obtain ⟨m5, -, h1⟩ := bind_eq_ok h1
  cases h1
  rw [hf.trimmedInput, List.count_append, List.count_append, List.count_append, List.count_append,
    count_release_read, count_release_clear, count_release_ofBlock, count_release_ofBlock, hlater]
  by_cases h1 : n + 1 = b
  · rw [if_pos h1, if_neg (by omega), if_neg (by omega), if_pos (by omega)]
  · by_cases h2 : n + 2 = b
    · rw [if_pos h2, if_neg h1, if_neg (by omega), if_pos (by omega)]
    · rw [if_neg h1, if_neg h2]
      simp only [Nat.zero_add]
      exact if_congr (by omega) rfl rfl

end Releases

/-! ## Uses after release -/

/-- What the loop does for the arguments from index `i` on, `l` of them, in the blocks from `base` on. -/
def argumentEvents (k base i l : Nat) : List HeapEvent :=
  (List.range' i l).flatMap fun j => [.read (base + j), .write k, .release (base + j)]

section Uses

variable {U : Unspecified} {c : CommandArgument} {m m' m0 : Mem} {n k base : Nat} {bg : Int}
  {text word : List UInt8} {args : List (List UInt8)} {events : List HeapEvent}

/-- By induction on the arguments that are left. -/
theorem traceArguments_eq (hc : c.command = .ofBlock k 0) (hkb : k < base) :
    ∀ (words : List (List UInt8)) (i : Nat) (m : Mem), ArgsAt m c base i words →
    (m.bytes k).length = commandLength → (∀ w ∈ words, w ≠ [] ∧ w.length < argumentLength) →
    Quiet (k + 1) m → PageAligned U base →
    ∃ m', traceArguments U c words.length i m = .ok (argumentEvents k base i words.length, m')
  | [], i, m, _, _, _, _, _ => ⟨m, rfl⟩
  | w :: words, i, m, ⟨⟨hp, hs⟩, hrest⟩, hlen, hw, hq, hpage => by
    obtain ⟨hne, hfit⟩ := hw w List.mem_cons_self
    have hkn : k < m.next := Nat.lt_trans (Nat.lt_of_lt_of_le hkb (Nat.le_add_right _ _)) hs.lt_next
    have hle : w.length ≤ (m.bytes k).length := by
      rw [hlen]
      exact Nat.le_of_lt hfit
    obtain ⟨m1, hm1⟩ : ∃ m1, m1 = m.setBytes k (cleared w.length (m.bytes k)) := ⟨_, rfl⟩
    have hset : memset m (.ofBlock k 0) 0 w.length = .ok m1 := by
      rw [hm1]
      refine memset_cleared hkn hle ?_
      unfold argumentLength at hfit
      omega
    have q1 : Quiet (k + 1) m1 := hm1 ▸ hq.setBytes (Nat.lt_succ_self k) _
    have hfree : freeMapped U m1 (.ofBlock (base + i) 0) = .ok (release m1 (.ofBlock (base + i) 0)) :=
      q1.free (hpage _ (Nat.le_add_right _ _))
    have hf : Frame (· ≠ k) m (release m1 (.ofBlock (base + i) 0)) :=
      (hm1 ▸ Frame.setBytes (fun h => h rfl) _ : Frame (· ≠ k) m m1).trans (.release _)
    have hb : ((release m1 (.ofBlock (base + i) 0)).bytes k).length = commandLength := by
      rw [bytes_release, hm1, Mem.bytes_setBytes_self hkn, length_cleared hle, hlen]
    obtain ⟨m', he⟩ := traceArguments_eq hc hkb words (i + 1) _
      (hrest.frame hf fun b hb _ => by omega) hb (fun x hx => hw x (List.mem_cons_of_mem _ hx)) (q1.release _) hpage
    refine ⟨m', ?_⟩
    rw [List.length_cons, traceArguments, hp, strlen_start hs, ok_bind]
    dsimp only
    rw [hc, hset, ok_bind, hfree, ok_bind, he]
    have hpos : w.length ≠ 0 := mt List.length_eq_zero_iff.1 hne
    rw [clearEvents, if_neg hpos]
    rfl

/-- The whole trace of a command whose arguments are non-empty, if each `free` returns. -/
theorem trace_parsed (h : Parsed U m0 n bg text word args c m) (hmax : args.length ≤ maxArguments)
    (hne : ∀ x ∈ args, x ≠ []) (hq : Quiet (n + 2) m) (hpage : PageAligned U (n + 1)) :
    ∃ m', traceCommandArgument U c m = .ok ([.release (n + 2), .read (n + 1)] ++
      (clearEvents (.ofBlock (n + 1) 0) word.length ++ (.release (n + 1) ::
        argumentEvents (n + 1) (n + 3) 0 args.length)), m') := by
  have hfirst : freeMapped U m (.ofBlock (n + 2) 0) = .ok (release m (.ofBlock (n + 2) 0)) :=
    hq.free (hpage _ (by omega))
  have hcommand : (release m (.ofBlock (n + 2) 0)).StringAt (n + 1) 0 word := by
    rw [Mem.StringAt, bytes_release]
    exact stringAt_of (i := 0) h.fields.command h.command_string
  have hlen : ((release m (.ofBlock (n + 2) 0)).bytes (n + 1)).length = commandLength := by
    rw [bytes_release, h.buffers.command, length_written] <;> rw [List.length_replicate]
    exact h.buffers.wordFits
  have hle : word.length ≤ ((release m (.ofBlock (n + 2) 0)).bytes (n + 1)).length := by
    rw [hlen]
    exact Nat.le_of_lt h.buffers.wordFits
  obtain ⟨m1, hm1⟩ : ∃ m1, m1 = (release m (.ofBlock (n + 2) 0)).setBytes (n + 1)
      (cleared word.length ((release m (.ofBlock (n + 2) 0)).bytes (n + 1))) := ⟨_, rfl⟩
  have hset : memset (release m (.ofBlock (n + 2) 0)) (.ofBlock (n + 1) 0) 0 word.length = .ok m1 := by
    have hfit := h.buffers.wordFits
    rw [hm1]
    refine memset_cleared hcommand.lt_next hle ?_
    unfold commandLength at hfit
    omega
  have q1 : Quiet (n + 2) m1 := hm1 ▸ (hq.release _).setBytes (Nat.lt_succ_self _) _
  have hsecond : freeMapped U m1 (.ofBlock (n + 1) 0) = .ok (release m1 (.ofBlock (n + 1) 0)) :=
    q1.free (hpage _ (Nat.le_refl _))
  have h1 : Frame (· ≠ n + 1) (release m (.ofBlock (n + 2) 0)) m1 := hm1 ▸ .setBytes (by simp) _
  have hf : Frame (· ≠ n + 1) m (release m1 (.ofBlock (n + 1) 0)) :=
    (Frame.release _).trans (h1.trans (.release _))
  have hb : ((release m1 (.ofBlock (n + 1) 0)).bytes (n + 1)).length = commandLength := by
    rw [bytes_release, hm1, Mem.bytes_setBytes_self hcommand.lt_next, length_cleared hle, hlen]
  obtain ⟨m', he⟩ := traceArguments_eq (U := U) h.fields.command (show n + 1 < n + 3 by omega) args 0 _
    ((h.argsAt hmax hne).frame hf fun b hb _ => by omega) hb (fun x hx => ⟨hne x hx, h.buffers.argsFit x hx⟩)
    (q1.release _) fun b hb => hpage b (by omega)
  refine ⟨m', ?_⟩
  unfold traceCommandArgument traceCommand
  rw [h.fields.trimmedInput, hfirst, ok_bind, h.fields.command, if_neg (by simp), strlen_start hcommand, ok_bind]
  dsimp only
  rw [hset, ok_bind, hsecond, ok_bind, pure_eq_ok, ok_bind]
  dsimp only
  rw [h.argumentCount, Int.toNat_natCast, he]
  simp [eventAt, pure_eq_ok, ok_bind]

/-- The command's buffer is cleared after its release if there is an argument. -/
theorem no_use_after_release_iff (h : Parsed U m0 n bg text word args c m) (hmax : args.length ≤ maxArguments)
    (hne : ∀ x ∈ args, x ≠ []) (hq : Quiet (n + 2) m) (hpage : PageAligned U (n + 1))
    (ht : traceCommandArgument U c m = .ok (events, m')) : NoUseAfterRelease events ↔ args = [] := by
  obtain ⟨m'', he⟩ := trace_parsed h hmax hne hq hpage
  obtain ⟨rfl, -⟩ := Prod.mk.inj (Except.ok.inj (he.symm.trans ht))
  constructor
  · intro hno
    by_contra hargs
    obtain ⟨l, hl⟩ := Nat.exists_eq_succ_of_ne_zero (mt List.length_eq_zero_iff.1 hargs)
    have hwrite : .write (n + 1) ∈ argumentEvents (n + 1) (n + 3) 0 args.length := by
      rw [hl, argumentEvents, List.range'_succ]
      simp
    have hlater := (List.pairwise_append.1 (List.pairwise_append.1 hno).2.1).2.1
    exact (List.pairwise_cons.1 hlater).1 _ hwrite (n + 1) rfl rfl
  · rintro rfl
    unfold clearEvents
    split <;> simp [NoUseAfterRelease, argumentEvents, eventAt, HeapEvent.block]

end Uses

/-- For every line that is parsed, whatever is done to memory before the release, the command is not
freed right: the structure stays. -/
theorem free_never_right {U : Unspecified} {m m1 : Mem} {b o : Nat} {line : List UInt8}
    {c : CommandArgument} (h : m.StringAt b o line)
    (hparse : parseInput U space m (.ofBlock b o) = .ok (some c, m1)) (m2 : Mem) :
    ¬ FreesRight U c m.next m1.next m2 := by
  rintro ⟨events, m', htrace, honce, -⟩
  obtain ⟨word, args, -, hp⟩ := parsed_of_ok h hparse
  have hnext := hp.buffers.next
  have hcount := honce m.next (Nat.le_refl _) (by omega)
  rw [count_release hp.fields hp.argumentCount htrace, if_neg (by omega)] at hcount
  cases hcount

/-- `ls x` -/
def lsLine : List UInt8 := [108, 115, 32, 120]

theorem lsLine_parsed : ∃ c m1, parseInput (filled 0) space (lineMem lsLine) (.ofBlock 0 0) =
    .ok (some c, m1) ∧ Parsed (filled 0) (lineMem lsLine) 1 0 lsLine [108, 115] [[120]] c m1 := by
  have hline : (lineMem lsLine).StringAt 0 0 lsLine := lineMem_string (by decide)
  exact parseInput_zeros hline (by decide)

theorem ls_not_freed : ∃ c m1, parseInput (filled 0) space (lineMem lsLine) (.ofBlock 0 0) =
    .ok (some c, m1) ∧ ¬ FreesRight (filled 0) c 1 m1.next m1 := by
  obtain ⟨c, m1, he, -⟩ := lsLine_parsed
  have hline : (lineMem lsLine).StringAt 0 0 lsLine := lineMem_string (by decide)
  exact ⟨c, m1, he, free_never_right hline he m1⟩

/-- The command's buffer, released, is cleared once more for the argument, and the structure stays. -/
theorem ls_used_after_release : ∃ c m1 events m2,
    parseInput (filled 0) space (lineMem lsLine) (.ofBlock 0 0) = .ok (some c, m1) ∧
    traceCommandArgument (filled 0) c m1 = .ok (events, m2) ∧ ¬ NoUseAfterRelease events ∧
    ¬ FreesRight (filled 0) c 1 m1.next m1 := by
  obtain ⟨c, m1, he, hp⟩ := lsLine_parsed
  have hne : ∀ x ∈ [[(120 : UInt8)]], x ≠ [] := by simp
  have hmax : [[(120 : UInt8)]].length ≤ maxArguments := by decide
  have hq : Quiet 3 m1 := hp.quiet (by decide) (by decide) hne (by decide)
  have hpage := pageAligned_filled 0 2
  obtain ⟨m2, ht⟩ := trace_parsed hp hmax hne hq hpage
  have hno := mt (no_use_after_release_iff hp hmax hne hq hpage ht).1 (List.cons_ne_nil _ _)
  refine ⟨c, m1, _, m2, he, ht, hno, ?_⟩
  rintro ⟨events, m', ht', -, hno'⟩
  obtain ⟨rfl, -⟩ := Prod.mk.inj (Except.ok.inj (ht.symm.trans ht'))
  exact hno hno'

end Sbunix.Sbush
