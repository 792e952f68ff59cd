/-
The scan of `parseInput` on texts instead of memory: what has been read of the command and of the
arguments so far, one character at a time. The only thing it needs to know of fresh memory is
whether the next argument's buffer begins with a NUL (`garbage`), because an empty buffer that does
not is taken for an argument.

`parseInput_meets` is the simulation: on every line the code's result is the one of `scanLine`.
-/
import Sbunix.Sbush.Trim

namespace Sbunix.Sbush

open BlockMemory Fallible Libc

/-! ## The abstract scan -/

/-- What the scan ends with: a store behind a buffer, NULL, or a command and its arguments. -/
inductive Outcome where
  | outside
  | tooMany
  | parsed (command : List UInt8) (arguments : List (List UInt8))
deriving DecidableEq

/-- What is read so far: in the command, or in the argument `current` after those `done`. -/
inductive Reading where
  | command (word : List UInt8)
  | arguments (word : List UInt8) (done : List (List UInt8)) (current : List UInt8)

namespace Reading

def word : Reading → List UInt8
  | command w => w
  | arguments w _ _ => w

def args : Reading → List (List UInt8)
  | command _ => []
  | arguments _ done current => done ++ [current]

end Reading

section Scan

variable (separator : UInt8) (garbage : Nat → Bool)

/-- After a separator: the buffer of an empty argument is used again only if it began with NUL. -/
def afterSeparator : Reading → Reading
  | .command w => .arguments w [] []
  | .arguments w done current =>
    if current = [] ∧ garbage done.length = false then .arguments w done []
    else .arguments w (done ++ [current]) []

def scan : Reading → List UInt8 → Outcome
  | r, [] => .parsed r.word r.args
  | r, ch :: text =>
    if ch = separator then
      if r.args.length > maxArguments then .tooMany else scan (afterSeparator garbage r) text
    else
      match r with
      | .command w =>
        if w.length + 1 < commandLength then scan (.command (w ++ [ch])) text else .outside
      | .arguments w done current =>
        if current.length + 1 < argumentLength then
          scan (.arguments w done (current ++ [ch])) text
        else .outside

theorem scan_separator (r : Reading) (text : List UInt8) :
    scan separator garbage r (separator :: text) =
      if r.args.length > maxArguments then .tooMany
      else scan separator garbage (afterSeparator garbage r) text := by
  rw [scan.eq_def]
  exact if_pos rfl

theorem scan_command {ch : UInt8} (h : ch ≠ separator) (w text : List UInt8) :
    scan separator garbage (.command w) (ch :: text) =
      if w.length + 1 < commandLength then scan separator garbage (.command (w ++ [ch])) text
      else .outside := by
  rw [scan.eq_def]
  exact if_neg h

theorem scan_argument {ch : UInt8} (h : ch ≠ separator) (w current text : List UInt8)
    (done : List (List UInt8)) :
    scan separator garbage (.arguments w done current) (ch :: text) =
      if current.length + 1 < argumentLength then
        scan separator garbage (.arguments w done (current ++ [ch])) text
      else .outside := by
  rw [scan.eq_def]
  exact if_neg h

/-- The whole line; `trim` stores its terminator two behind `right_index`. -/
def scanLine (line : List UInt8) : Outcome :=
  if (leading line).length + (trimmed line).length + 2 ≤ inputLength then
    scan separator garbage (.command []) (trimmed line)
  else .outside

end Scan

/-! ## Buffers -/

/-- A buffer with the characters `cs` and a NUL stored over what it held. -/
def written (fresh cs : List UInt8) : List UInt8 :=
  if cs = [] then fresh else cs ++ 0 :: fresh.drop (cs.length + 1)

section Buffers

variable {m : Mem} {b : Nat} {fresh cs : List UInt8} {ch : UInt8}

theorem written_nil : written fresh [] = fresh := if_pos rfl

theorem length_written (h : cs.length < fresh.length) :
    (written fresh cs).length = fresh.length := by
  unfold written
  split
  · rfl
  · simp
    omega

theorem written_snoc (h : cs.length + 1 < fresh.length) :
    ((written fresh cs).set cs.length ch).set (cs.length + 1) 0 = written fresh (cs ++ [ch]) := by
  have hr : written fresh (cs ++ [ch]) = cs ++ ch :: 0 :: fresh.drop (cs.length + 2) := by
    simp [written]
  rw [hr]
  by_cases hc : cs = []
  · subst hc
    rw [written_nil]
    match fresh, h with
    | x :: y :: l, _ => simp
    | [_], h => simp at h
  · rw [written, if_neg hc, List.set_append_right _ _ (Nat.le_refl _), Nat.sub_self,
      List.set_cons_zero, List.set_append_right _ _ (by omega), Nat.add_sub_cancel_left,
      List.set_cons_succ, List.drop_eq_getElem_cons (by omega : cs.length + 1 < fresh.length),
      List.set_cons_zero]

/-- The NUL behind the characters, and what was behind it. -/
theorem getD_written {i : Nat} (hc : cs ≠ []) (hi : cs.length ≤ i) :
    (written fresh cs).getD i 0 = if i = cs.length then 0 else fresh.getD i 0 := by
  obtain ⟨j, rfl⟩ := Nat.exists_eq_add_of_le hi
  rw [written, if_neg hc, List.getD_append_right _ _ _ _ hi, Nat.add_sub_cancel_left]
  cases j with
  | zero => rw [List.getD_cons_zero, if_pos (Nat.add_zero _)]
  | succ j =>
    rw [List.getD_cons_succ, if_neg (by omega), List.getD_eq_getElem?_getD, List.getElem?_drop,
      ← List.getD_eq_getElem?_getD, Nat.add_right_comm, Nat.add_assoc]

theorem getD_written_fresh {i : Nat} (hi : cs.length < i) : (written fresh cs).getD i 0 = fresh.getD i 0 := by
  by_cases hc : cs = []
  · rw [hc, written_nil]
  · rw [getD_written hc (Nat.le_of_lt hi), if_neg (Nat.ne_of_gt hi)]

theorem isString_written (h : 0 ∉ cs) (hc : cs ≠ []) : IsString (written fresh cs) cs := by
  rw [written, if_neg hc]
  exact isString_append h _

theorem isString_written_zeros {n : Nat} (h : 0 ∉ cs) (hn : 0 < n) :
    IsString (written (List.replicate n 0) cs) cs := by
  by_cases hc : cs = []
  · subst hc
    rw [written_nil, show n = n - 1 + 1 by omega, List.replicate_succ]
    exact isString_append h _
  · exact isString_written h hc

theorem written_zeros {n : Nat} (h : cs.length < n) :
    written (List.replicate n 0) cs = cs ++ List.replicate (n - cs.length) 0 := by
  unfold written
  split
  · next hc => rw [hc, List.nil_append, List.length_nil, Nat.sub_zero]
  · rw [List.drop_replicate, show n - cs.length = n - (cs.length + 1) + 1 by omega, List.replicate_succ]

theorem putChar_fits (hb : m.bytes b = written fresh cs) (h : cs.length + 1 < fresh.length) :
    putChar m (.ofBlock b cs.length) ch = .ok (m.setBytes b (written fresh (cs ++ [ch]))) := by
  have hlen : (written fresh cs).length = fresh.length := length_written (by omega)
  have hi : m.Inside b cs.length := ⟨by omega, by rw [hb, hlen]; omega⟩
  have hn := hi.lt_next
  rw [putChar, store_inside hi, ok_bind, Ptr.add, store_inside, setBytes_setBytes,
    Mem.bytes_setBytes_self hn, hb, Int.toNat_natCast,
    show ((cs.length : Int) + 1).toNat = cs.length + 1 by omega, written_snoc h]
  constructor
  · omega
  · rw [Mem.bytes_setBytes_self hn, List.length_set, hb, hlen]
    omega

theorem putChar_full (hb : m.bytes b = written fresh cs) (h : cs.length + 1 = fresh.length) :
    putChar m (.ofBlock b cs.length) ch = .error .outside := by
  have hlen : (written fresh cs).length = fresh.length := length_written (by omega)
  have hi : m.Inside b cs.length := ⟨by omega, by rw [hb, hlen]; omega⟩
  rw [putChar, store_inside hi, ok_bind, Ptr.add, store_outside]
  intro ho
  have := ho.2
  rw [Mem.bytes_setBytes_self hi.lt_next, List.length_set, hb, hlen] at this
  omega

end Buffers

/-! ## The memory during the scan -/

/-- The fresh buffer of argument `k` does not begin with NUL. -/
def garbageFrom (U : Unspecified) (n : Nat) (k : Nat) : Bool := U.fresh (n + 3 + k) 0 ≠ 0

/-- An argument's buffer with the characters `x`, and its first byte as it was allocated if there are none. -/
def ArgumentBuffer (U : Unspecified) (b : Nat) (x : List UInt8) (m : Mem) : Prop :=
  ∃ l, l.length = argumentLength ∧ l[0]? = some (U.fresh b 0) ∧ m.bytes b = written l x

/-- The buffers of a call that began at block `n` in the memory `m0`: the structure, the command,
the trimmed line, and the arguments in their order. The last of them holds the header at ROOT. -/
structure Buffers (U : Unspecified) (m0 : Mem) (n : Nat) (text word : List UInt8)
    (args : List (List UInt8)) (m : Mem) : Prop where
  frame : Frame (· < n) m0 m
  next : m.next = n + 3 + args.length
  wordFits : word.length < commandLength
  wordNoNul : 0 ∉ word
  command : m.bytes (n + 1) = written (List.replicate commandLength 0) word
  trimmedInput : m.bytes (n + 2) = text ++ List.replicate (inputLength - text.length) 0
  argsFit : ∀ x ∈ args, x.length < argumentLength
  argsNoNul : ∀ x ∈ args, 0 ∉ x
  arguments : ∀ i x, args[i]? = some x → ArgumentBuffer U (n + 3 + i) x m
  root : RootIn (n + 2 + args.length) m
  nextEmpty : text.length ≤ 16 → rootNext m = 0

/-- The fields of the `commandArgument` that point to the buffers; the slot past the end is lost when the
count is stored. -/
structure Fields (n : Nat) (bg : Int) (args : List (List UInt8)) (c : CommandArgument) : Prop where
  trimmedInput : c.trimmedInput = .ofBlock (n + 2) 0
  command : c.command = .ofBlock (n + 1) 0
  arguments : ∀ i < args.length, i < maxArguments → c.arguments i = .ofBlock (n + 3 + i) 0
  pastEnd : ∀ i < args.length, maxArguments ≤ i →
    c.arguments i = .ofBlock (n + 3 + i) 0 ∨ c.arguments i = .wild
  isBackground : args.length ≤ maxArguments → c.isBackground = bg

/-- The pointer `argument`. -/
def argumentPtr (n : Nat) : Reading → Ptr
  | .command _ => .null
  | .arguments _ done current => .ofBlock (n + 3 + done.length) current.length

def Reading.inCommand : Reading → Bool
  | .command _ => true
  | .arguments .. => false

/-- The local variables when `r` is read and `k` characters of the trimmed line are behind. -/
structure Locals (n : Nat) (bg : Int) (r : Reading) (k : Nat) (s : Scan) : Prop where
  fields : Fields n bg r.args s.cArg
  input : s.input = .ofBlock (n + 2) k
  command : s.command = .ofBlock (n + 1) r.word.length
  argument : s.argument = argumentPtr n r
  count : s.count = r.args.length
  commandFlag : s.commandFlag = r.inCommand
  behind : ∀ x ∈ r.args, x.length < k

section Simulation

variable {U : Unspecified} {m0 m : Mem} {n k : Nat} {bg : Int} {text word current : List UInt8}
  {args done : List (List UInt8)} {ch : UInt8} {s : Scan} {r : Reading}

theorem Buffers.text_string (h : Buffers U m0 n text word args m) (h0 : 0 ∉ text)
    (hl : text.length < inputLength) : m.StringAt (n + 2) 0 text := by
  unfold Mem.StringAt
  rw [List.drop_zero, h.trimmedInput,
    show inputLength - text.length = inputLength - text.length - 1 + 1 by omega, List.replicate_succ]
  exact isString_append h0 _

theorem ArgumentBuffer.of_bytes {b : Nat} {x : List UInt8} {m' : Mem} (h : ArgumentBuffer U b x m)
    (hb : m'.bytes b = m.bytes b) : ArgumentBuffer U b x m' := by
  obtain ⟨l, hlen, hfirst, he⟩ := h
  exact ⟨l, hlen, hfirst, hb.trans he⟩

/-- A store into a buffer that does not hold the header at ROOT. -/
theorem Buffers.nextEmpty_setBytes_ne {b : Nat} {l : List UInt8} (h : Buffers U m0 n text word args m)
    (hb : b ≠ n + 2 + args.length) (ht : text.length ≤ 16) : rootNext (m.setBytes b l) = 0 := by
  obtain ⟨r, hr, hblock, -⟩ := h.root
  refine (rootNext_congr (Mem.rootByte_setBytes_ne fun r' hr' => ?_)).trans (h.nextEmpty ht)
  cases hr.symm.trans hr'
  rw [hblock]
  exact Ne.symm hb

/-- A character of the command. -/
theorem putCommand_fits (h0 : ch ≠ 0) (hb : Buffers U m0 n text word args m)
    (hs : s.command = .ofBlock (n + 1) word.length) (h : word.length + 1 < commandLength) :
    ∃ m', putCommand m s ch = .ok ({ s with command := .ofBlock (n + 1) (word ++ [ch]).length }, m') ∧
      Buffers U m0 n text (word ++ [ch]) args m' := by
  have hn : n + 1 < m.next := by rw [hb.next]; omega
  refine ⟨m.setBytes (n + 1) (written (List.replicate commandLength 0) (word ++ [ch])), ?_, ?_⟩
  · rw [putCommand, hs, putChar_fits hb.command (by simpa using h), ok_bind, Ptr.add]
    simp [pure_eq_ok]
  · exact {
      frame := hb.frame.trans (.setBytes (by simp) _)
      next := by simpa using hb.next
      wordFits := by simpa using h
      wordNoNul := by simpa [Ne.symm h0] using hb.wordNoNul
      command := Mem.bytes_setBytes_self hn
      trimmedInput := by rw [Mem.bytes_setBytes_ne (by omega), hb.trimmedInput]
      argsFit := hb.argsFit
      argsNoNul := hb.argsNoNul
      arguments := fun i x hx => (hb.arguments i x hx).of_bytes (Mem.bytes_setBytes_ne (by omega))
      root := hb.root.of_root rfl
      nextEmpty := fun ht => hb.nextEmpty_setBytes_ne (by omega) ht }

theorem putCommand_full (hb : Buffers U m0 n text word args m)
    (hs : s.command = .ofBlock (n + 1) word.length) (h : ¬ word.length + 1 < commandLength) :
    putCommand m s ch = .error .outside := by
  have := hb.wordFits
  rw [putCommand, hs, putChar_full hb.command (by simp; omega)]
  rfl

/-- A character of the argument begun last. In a short text it stands in front of the field `next`. -/
theorem putArgument_fits (h0 : ch ≠ 0) (hb : Buffers U m0 n text word (done ++ [current]) m)
    (hs : s.argument = .ofBlock (n + 3 + done.length) current.length)
    (h : current.length + 1 < argumentLength) (hshort : text.length ≤ 16 → current.length < 16) :
    ∃ m', putArgument m s ch = .ok ({ s with
        argument := .ofBlock (n + 3 + done.length) (current ++ [ch]).length }, m') ∧
      Buffers U m0 n text word (done ++ [current ++ [ch]]) m' := by
  have hn : n + 3 + done.length < m.next := by rw [hb.next]; simp
  obtain ⟨l, hlen, hfirst, hlast⟩ := hb.arguments done.length current (by simp)
  have hbytes : (m.setBytes (n + 3 + done.length) (written l (current ++ [ch]))).bytes (n + 3 + done.length) =
    written l (current ++ [ch]) := Mem.bytes_setBytes_self hn
  refine ⟨m.setBytes (n + 3 + done.length) (written l (current ++ [ch])), ?_, ?_⟩
  · rw [putArgument, hs, putChar_fits hlast (by rw [hlen]; exact h), ok_bind, Ptr.add]
    simp [pure_eq_ok]
  · refine {
      frame := hb.frame.trans (.setBytes (by simp; omega) _)
      next := by simpa using hb.next
      wordFits := hb.wordFits
      wordNoNul := hb.wordNoNul
      command := by rw [Mem.bytes_setBytes_ne (by omega), hb.command]
      trimmedInput := by rw [Mem.bytes_setBytes_ne (by omega), hb.trimmedInput]
      argsFit := fun x hx => ?_
      argsNoNul := fun x hx => ?_
      arguments := fun i x hx => ?_
      root := ?_
      nextEmpty := fun ht => ?_ }
    · rcases List.mem_append.1 hx with hx | hx
      · exact hb.argsFit x (List.mem_append_left _ hx)
      · rw [List.mem_singleton.1 hx]
        simpa using h
    · rcases List.mem_append.1 hx with hx | hx
      · exact hb.argsNoNul x (List.mem_append_left _ hx)
      · rw [List.mem_singleton.1 hx]
        simpa [Ne.symm h0] using hb.argsNoNul current (by simp)
    · rcases Nat.lt_or_ge i done.length with hi | hi
      · rw [List.getElem?_append_left hi] at hx
        exact (hb.arguments i x (by rw [List.getElem?_append_left hi, hx])).of_bytes
          (Mem.bytes_setBytes_ne (by omega))
      · rw [List.getElem?_append_right hi] at hx
        obtain ⟨h1, hx⟩ := List.getElem?_eq_some_iff.1 hx
        rw [List.length_singleton] at h1
        have : i = done.length := by omega
        subst this
        rw [List.getElem_singleton] at hx
        exact ⟨l, hlen, hfirst, hx ▸ hbytes⟩
    · have hroot := hb.root
      rw [List.length_append, List.length_singleton] at hroot ⊢
      exact hroot.of_root rfl
    · have hfit : (current ++ [ch]).length < l.length := by
        rw [hlen, List.length_append, List.length_singleton]
        exact h
      have hold : current.length < l.length := by
        rw [List.length_append, List.length_singleton] at hfit
        omega
      refine rootNext_setBytes (hb.nextEmpty ht) hn ?_ fun i h16 _ => ?_
      · rw [hlast, length_written hfit, length_written hold]
      · -- the NUL behind the character, or what was there before
        have hlt := hshort ht
        rw [getD_written (by simp) (by simp; omega), hlast]
        split
        · exact .inl rfl
        · next hne =>
          rw [List.length_append, List.length_singleton] at hne
          rw [getD_written_fresh (by omega)]
          exact .inr rfl

theorem putArgument_full (hb : Buffers U m0 n text word (done ++ [current]) m)
    (hs : s.argument = .ofBlock (n + 3 + done.length) current.length)
    (h : ¬ current.length + 1 < argumentLength) : putArgument m s ch = .error .outside := by
  have hfit := hb.argsFit current (by simp)
  obtain ⟨l, hlen, -, hlast⟩ := hb.arguments done.length current (by simp)
  rw [putArgument, hs, putChar_full hlast (by rw [hlen]; omega)]
  rfl

/-- A fresh buffer for an argument that is still empty. -/
theorem allocArgument_eq (hb : Buffers U m0 n text word args m) (hf : Fields n bg args s.cArg)
    (hc : s.count = args.length) (hl : args.length ≤ maxArguments) :
    ∃ c' m', allocArgument U m s = ({ s with
        cArg := c'
        argument := .ofBlock (n + 3 + args.length) 0
        count := (args ++ [[]]).length }, m') ∧
      Buffers U m0 n text word (args ++ [[]]) m' ∧ Fields n bg (args ++ [[]]) c' := by
  refine ⟨s.cArg.setArgument U args.length (.ofBlock m.next 0), (mallocBlock U m argumentLength).2, ?_, ?_, ?_⟩
  · rw [allocArgument, hc]
    simp [malloc_fst, hb.next]
  · have hne : ∀ b < n + 3 + args.length, (mallocBlock U m argumentLength).2.bytes b = m.bytes b :=
      fun b hlt => bytes_malloc_ne (by rw [hb.next]; omega)
    refine {
      frame := hb.frame.trans (frame_malloc (by rw [hb.next]; omega))
      next := by rw [next_malloc, hb.next]; simp; omega
      wordFits := hb.wordFits
      wordNoNul := hb.wordNoNul
      command := by rw [hne _ (by omega), hb.command]
      trimmedInput := by rw [hne _ (by omega), hb.trimmedInput]
      argsFit := fun x hx => ?_
      argsNoNul := fun x hx => ?_
      arguments := fun i x hx => ?_
      root := ?_
      nextEmpty := fun ht => rootNext_malloc.trans (hb.nextEmpty ht) }
    · rcases List.mem_append.1 hx with hx | hx
      · exact hb.argsFit x hx
      · rw [List.mem_singleton.1 hx]
        decide
    · rcases List.mem_append.1 hx with hx | hx
      · exact hb.argsNoNul x hx
      · rw [List.mem_singleton.1 hx]
        simp
    · rcases Nat.lt_or_ge i args.length with hi | hi
      · rw [List.getElem?_append_left hi] at hx
        exact (hb.arguments i x hx).of_bytes (hne _ (by omega))
      · rw [List.getElem?_append_right hi] at hx
        obtain ⟨h1, hx⟩ := List.getElem?_eq_some_iff.1 hx
        rw [List.length_singleton] at h1
        have : i = args.length := by omega
        subst this
        simp only [Nat.sub_self, List.getElem_cons_zero] at hx
        rw [← hx, ← hb.next]
        exact ⟨_, length_newBytes, getElem?_newBytes (by decide) (.inl (by decide)), by
          rw [bytes_malloc_self, written_nil]⟩
    · rw [List.length_append, List.length_singleton, show n + 2 + (args.length + 1) = m.next by
        rw [hb.next]; omega]
      exact RootIn.malloc hb.root.isSome
  · unfold CommandArgument.setArgument
    constructor
    · split <;> exact hf.trimmedInput
    · split <;> exact hf.command
    · intro i hi hmax
      rw [List.length_append, List.length_singleton] at hi
      have hslot : Function.update s.cArg.arguments args.length (.ofBlock m.next 0) i =
          .ofBlock (n + 3 + i) 0 := by
        by_cases he : i = args.length
        · rw [he, Function.update_self, hb.next]
        · rw [Function.update_of_ne he, hf.arguments i (by omega) hmax]
      split <;> exact hslot
    · intro i hi hmax
      rw [List.length_append, List.length_singleton] at hi
      obtain rfl : i = args.length := by omega
      have hslot := Function.update_self (f := s.cArg.arguments) args.length (Ptr.ofBlock m.next 0)
      rw [hb.next] at hslot
      rw [if_neg (by omega), hb.next]
      exact .inl hslot
    · intro hle
      rw [List.length_append, List.length_singleton] at hle
      rw [if_pos (by omega)]
      exact hf.isBackground hl

/-- Notes of reads do not matter to the buffers. -/
theorem Buffers.of_same {m' : Mem} (hb : Buffers U m0 n text word args m)
    (hf : Frame (· < n) m m') (hs : ∀ c, m'.bytes c = m.bytes c) (hn : m'.next = m.next)
    (hr : m'.root = m.root) : Buffers U m0 n text word args m' where
  frame := hb.frame.trans hf
  next := by rw [hn, hb.next]
  wordFits := hb.wordFits
  wordNoNul := hb.wordNoNul
  command := by rw [hs, hb.command]
  trimmedInput := by rw [hs, hb.trimmedInput]
  argsFit := hb.argsFit
  argsNoNul := hb.argsNoNul
  arguments i x hx := (hb.arguments i x hx).of_bytes (hs _)
  root := hb.root.of_root hr
  nextEmpty ht := (rootNext_congr (Mem.rootByte_congr hr fun _ _ => hs _)).trans (hb.nextEmpty ht)

/-- The string in the last argument's buffer is empty exactly when nothing was written to it and
it began with NUL. -/
theorem strlen_argument (hb : Buffers U m0 n text word (done ++ [current]) m) :
    ∃ len m', strlen U m (.ofBlock (n + 3 + done.length) 0) = .ok (len, m') ∧
      (len = 0 ↔ current = [] ∧ garbageFrom U n done.length = false) ∧
      Buffers U m0 n text word (done ++ [current]) m' := by
  obtain ⟨fresh, -, hfresh, hlast⟩ := hb.arguments done.length current (by simp)
  have h0 := hb.argsNoNul current (by simp)
  have hfirst : ∃ c l, (m.bytes (n + 3 + done.length)).drop 0 = c :: l ∧
      (c = 0 ↔ current = [] ∧ garbageFrom U n done.length = false) := by
    rw [List.drop_zero, hlast]
    cases current with
    | nil =>
      cases fresh with
      | nil => cases hfresh
      | cons c fresh =>
        cases hfresh
        exact ⟨_, fresh, written_nil, by simp [garbageFrom]⟩
    | cons c l =>
      rw [List.mem_cons, not_or] at h0
      exact ⟨c, _, rfl, by simp [Ne.symm h0.1]⟩
  obtain ⟨c, l, hcl, hc⟩ := hfirst
  obtain ⟨len, m', he, hlen, hf, hbytes, hn⟩ := strlen_first (U := U) hcl
  refine ⟨len, m', he, hlen.trans hc, hb.of_same (hf.mono fun b hlt => by omega) (fun c => ?_) hn
    (strlen_root he)⟩
  by_cases hcb : c = n + 3 + done.length
  · rw [hcb, hbytes]
  · exact hf.bytes c hcb

theorem nextArgument_eq (hb : Buffers U m0 n text r.word r.args m) (hf : Fields n bg r.args s.cArg)
    (ha : s.argument = argumentPtr n r) (hc : s.count = r.args.length)
    (hl : r.args.length ≤ maxArguments) :
    ∃ c' m', nextArgument U m s = .ok ({ s with
        cArg := c'
        argument := argumentPtr n (afterSeparator (garbageFrom U n) r)
        count := (afterSeparator (garbageFrom U n) r).args.length }, m') ∧
      Buffers U m0 n text r.word (afterSeparator (garbageFrom U n) r).args m' ∧
      Fields n bg (afterSeparator (garbageFrom U n) r).args c' := by
  cases r with
  | command w =>
    obtain ⟨c', m', he, hb', hf'⟩ := allocArgument_eq hb hf hc hl
    refine ⟨c', m', ?_, hb', hf'⟩
    rw [nextArgument, if_pos (by rw [ha]; rfl), he]
    rfl
  | arguments w done current =>
    obtain ⟨len, m1, hstr, hlen, hb1⟩ := strlen_argument hb
    have hslot : s.cArg.arguments (s.count - 1) = .ofBlock (n + 3 + done.length) 0 := by
      rw [Reading.args, List.length_append, List.length_singleton] at hl hc
      rw [hc, Nat.add_sub_cancel]
      exact hf.arguments done.length (by simp [Reading.args]) hl
    rw [nextArgument, if_neg (by rw [ha]; simp [argumentPtr]), hslot]
    simp only [hstr, ok_bind]
    by_cases hz : current = [] ∧ garbageFrom U n done.length = false
    · refine ⟨s.cArg, m1, ?_, ?_, ?_⟩
      · rw [if_neg (by simpa using hlen.2 hz), afterSeparator, if_pos hz, ← hz.1]
        cases s
        simp only [Reading.args] at ha hc
        rw [pure_eq_ok, ha, hc]
        simp [argumentPtr, Reading.args]
      · rw [afterSeparator, if_pos hz]
        rw [hz.1] at hb1
        exact hb1
      · rw [afterSeparator, if_pos hz]
        rw [hz.1] at hf
        exact hf
    · obtain ⟨c', m', he, hb', hf'⟩ := allocArgument_eq hb1 hf hc hl
      refine ⟨c', m', ?_, ?_, ?_⟩
      · rw [if_pos (mt hlen.1 hz), he, afterSeparator, if_neg hz]
        simp [pure_eq_ok, argumentPtr, Reading.args]
      · rw [afterSeparator, if_neg hz]
        exact hb'
      · rw [afterSeparator, if_neg hz]
        exact hf'

theorem word_afterSeparator (garbage : Nat → Bool) (r : Reading) :
    (afterSeparator garbage r).word = r.word := by
  cases r with
  | command w => rfl
  | arguments w done current =>
    rw [afterSeparator]
    split <;> rfl

theorem inCommand_afterSeparator (garbage : Nat → Bool) (r : Reading) :
    (afterSeparator garbage r).inCommand = false := by
  cases r with
  | command w => rfl
  | arguments w done current =>
    rw [afterSeparator]
    split <;> rfl

theorem behind_afterSeparator {garbage : Nat → Bool} (h : ∀ x ∈ r.args, x.length < k) {x : List UInt8}
    (hx : x ∈ (afterSeparator garbage r).args) : x.length < k + 1 := by
  have hempty : ∀ y ∈ [([] : List UInt8)], y.length < k + 1 := fun y hy => by
    rw [List.mem_singleton.1 hy]
    exact Nat.succ_pos k
  cases r with
  | command w => exact hempty x hx
  | arguments w done current =>
    have hold : ∀ y ∈ done ++ [current], y.length < k + 1 := fun y hy => Nat.lt_succ_of_lt (h y hy)
    rw [afterSeparator] at hx
    split at hx
    · rcases List.mem_append.1 hx with hx | hx
      · exact hold x (List.mem_append_left _ hx)
      · exact hempty x hx
    · rcases List.mem_append.1 hx with hx | hx
      · exact hold x hx
      · exact hempty x hx

/-! ## One round -/

theorem parseChar_separator (ch : UInt8) (hb : Buffers U m0 n text r.word r.args m) (hs : Locals n bg r k s)
    (hl : r.args.length ≤ maxArguments) :
    ∃ s' m', parseChar U ch m s ch = .ok (some s', m') ∧
      Buffers U m0 n text r.word (afterSeparator (garbageFrom U n) r).args m' ∧
      Locals n bg (afterSeparator (garbageFrom U n) r) (k + 1) s' := by
  obtain ⟨c', m', he, hb', hf'⟩ := nextArgument_eq (s := { s with commandFlag := false })
    hb hs.fields hs.argument hs.count hl
  refine ⟨{ s with
    cArg := c'
    input := s.input.add 1
    argument := argumentPtr n (afterSeparator (garbageFrom U n) r)
    count := (afterSeparator (garbageFrom U n) r).args.length
    commandFlag := false }, m', ?_, hb', ?_⟩
  · have hc : ¬ s.count > maxArguments := by rw [hs.count]; omega
    unfold parseChar
    cases hflag : s.commandFlag with
    | true => simp [hflag, hc, he, ok_bind, pure_eq_ok]
    | false =>
      rw [← hflag] at he
      simp [hflag, hc, he, ok_bind, pure_eq_ok]
  · exact {
      fields := hf'
      input := by rw [hs.input, Ptr.add]; push_cast; rfl
      command := by rw [hs.command, word_afterSeparator]
      argument := rfl
      count := rfl
      commandFlag := (inCommand_afterSeparator _ _).symm
      behind := fun x hx => behind_afterSeparator hs.behind hx }

theorem parseChar_tooMany (hs : Locals n bg r k s) (hl : r.args.length > maxArguments) :
    parseChar U ch m s ch = .ok (none, m) := by
  have hc : s.count > maxArguments := by rw [hs.count]; omega
  unfold parseChar
  cases hflag : s.commandFlag <;> simp [hc, hflag, ok_bind, pure_eq_ok]

theorem parseChar_command {separator : UInt8} (hc : ch ≠ separator) (h0 : ch ≠ 0)
    (hb : Buffers U m0 n text word [] m) (hs : Locals n bg (.command word) k s) :
    if word.length + 1 < commandLength then
      ∃ s' m', parseChar U separator m s ch = .ok (some s', m') ∧
        Buffers U m0 n text (word ++ [ch]) [] m' ∧ Locals n bg (.command (word ++ [ch])) (k + 1) s'
    else parseChar U separator m s ch = .error .outside := by
  have hflag : s.commandFlag = true := hs.commandFlag
  split
  · next hfit =>
    obtain ⟨m', he, hb'⟩ := putCommand_fits (s := s) h0 hb hs.command hfit
    refine ⟨{ s with
      command := .ofBlock (n + 1) (word ++ [ch]).length
      input := s.input.add 1 }, m', ?_, hb', ?_⟩
    · unfold parseChar
      simp [hflag, hc, he, ok_bind, pure_eq_ok]
    · exact {
        fields := hs.fields
        input := by rw [hs.input, Ptr.add]; push_cast; rfl
        command := rfl
        argument := hs.argument
        count := hs.count
        commandFlag := hs.commandFlag
        behind := by simp [Reading.args] }
  · next hfull =>
    have he : putCommand m s ch = .error .outside := putCommand_full hb hs.command hfull
    unfold parseChar
    simp [hflag, hc, he, error_bind]

theorem parseChar_argument {separator : UInt8} (hc : ch ≠ separator) (h0 : ch ≠ 0)
    (hb : Buffers U m0 n text word (done ++ [current]) m)
    (hs : Locals n bg (.arguments word done current) k s) (hk : k < text.length) :
    if current.length + 1 < argumentLength then
      ∃ s' m', parseChar U separator m s ch = .ok (some s', m') ∧
        Buffers U m0 n text word (done ++ [current ++ [ch]]) m' ∧
        Locals n bg (.arguments word done (current ++ [ch])) (k + 1) s'
    else parseChar U separator m s ch = .error .outside := by
  have hflag : s.commandFlag = false := hs.commandFlag
  split
  · next hfit =>
    have hbehind := hs.behind current (by simp [Reading.args])
    obtain ⟨m', he, hb'⟩ := putArgument_fits (s := s) h0 hb hs.argument hfit (by omega)
    refine ⟨{ s with
      argument := .ofBlock (n + 3 + done.length) (current ++ [ch]).length
      input := s.input.add 1 }, m', ?_, hb', ?_⟩
    · unfold parseChar
      simp [hflag, hc, he, ok_bind, pure_eq_ok]
    · exact {
        fields := {
          trimmedInput := hs.fields.trimmedInput
          command := hs.fields.command
          arguments := fun i hi => hs.fields.arguments i (by simpa [Reading.args] using hi)
          pastEnd := fun i hi => hs.fields.pastEnd i (by simpa [Reading.args] using hi)
          isBackground := fun hle => hs.fields.isBackground (by simpa [Reading.args] using hle) }
        input := by rw [hs.input, Ptr.add]; push_cast; rfl
        command := hs.command
        argument := rfl
        count := by rw [hs.count]; simp [Reading.args]
        commandFlag := hs.commandFlag
        behind := fun x hx => by
          rcases List.mem_append.1 hx with hx | hx
          · exact Nat.lt_succ_of_lt (hs.behind x (List.mem_append_left _ hx))
          · rw [List.mem_singleton.1 hx, List.length_append, List.length_singleton]
            exact Nat.succ_lt_succ hbehind }
  · next hfull =>
    have he : putArgument m s ch = .error .outside := putArgument_full hb hs.argument hfull
    unfold parseChar
    simp [hflag, hc, he, ok_bind, pure_eq_ok, error_bind]

/-- What a round can do to a character: go on, return NULL, or store outside a buffer, as the scan does. -/
theorem parseChar_scan (separator : UInt8) (h0 : ch ≠ 0) (hb : Buffers U m0 n text r.word r.args m)
    (hs : Locals n bg r k s) (hk : k < text.length) :
    (∃ r' s' m', parseChar U separator m s ch = .ok (some s', m') ∧ Buffers U m0 n text r'.word r'.args m' ∧
      Locals n bg r' (k + 1) s' ∧
      ∀ suf, scan separator (garbageFrom U n) r (ch :: suf) = scan separator (garbageFrom U n) r' suf) ∨
    (maxArguments < r.args.length ∧ parseChar U separator m s ch = .ok (none, m) ∧
      ∀ suf, scan separator (garbageFrom U n) r (ch :: suf) = .tooMany) ∨
    (parseChar U separator m s ch = .error .outside ∧
      ∀ suf, scan separator (garbageFrom U n) r (ch :: suf) = .outside) := by
  by_cases hsep : ch = separator
  · subst hsep
    by_cases hmax : r.args.length > maxArguments
    · exact .inr (.inl ⟨hmax, parseChar_tooMany hs hmax, fun suf => by rw [scan_separator, if_pos hmax]⟩)
    · obtain ⟨s', m', he, hb', hs'⟩ := parseChar_separator ch hb hs (by omega)
      refine .inl ⟨_, s', m', he, ?_, hs', fun suf => by rw [scan_separator, if_neg hmax]⟩
      rw [word_afterSeparator]
      exact hb'
  · cases r with
    | command w =>
      have hstep := parseChar_command hsep h0 (show Buffers U m0 n text w [] m from hb) hs
      by_cases hfit : w.length + 1 < commandLength
      · rw [if_pos hfit] at hstep
        obtain ⟨s', m', he, hb', hs'⟩ := hstep
        exact .inl ⟨.command (w ++ [ch]), s', m', he, hb', hs', fun suf => by
          rw [scan_command _ _ hsep, if_pos hfit]⟩
      · rw [if_neg hfit] at hstep
        exact .inr (.inr ⟨hstep, fun suf => by rw [scan_command _ _ hsep, if_neg hfit]⟩)
    | arguments w done current =>
      have hstep := parseChar_argument hsep h0 (show Buffers U m0 n text w (done ++ [current]) m from hb) hs
        hk
      by_cases hfit : current.length + 1 < argumentLength
      · rw [if_pos hfit] at hstep
        obtain ⟨s', m', he, hb', hs'⟩ := hstep
        exact .inl ⟨.arguments w done (current ++ [ch]), s', m', he, hb', hs', fun suf => by
          rw [scan_argument _ _ hsep, if_pos hfit]⟩
      · rw [if_neg hfit] at hstep
        exact .inr (.inr ⟨hstep, fun suf => by rw [scan_argument _ _ hsep, if_neg hfit]⟩)

/-! ## The loop -/

/-- The count takes the place of a half of the pointer past the end, if there is one. -/
theorem Fields.setCount {c : CommandArgument} (h : Fields n bg args c) (U : Unspecified) :
    Fields n bg args (c.setCount U args.length) where
  trimmedInput := h.trimmedInput
  command := h.command
  arguments i hi hmax := (Function.update_of_ne (Nat.ne_of_lt hmax) _ _).trans (h.arguments i hi hmax)
  pastEnd i hi hmax := by
    have hcount : ¬ ((args.length : Int) = 0) := by omega
    by_cases he : i = maxArguments
    · have hslot : (c.setCount U args.length).arguments i =
          joinHalves U (c.arguments i) c.isBackground args.length := by
        rw [he]
        simp only [CommandArgument.setCount, Function.update_self]
      rw [hslot, joinHalves]
      split
      · exact h.pastEnd i hi hmax
      · rw [if_neg fun hz => hcount hz.2]
        exact .inr rfl
    · have hslot : (c.setCount U args.length).arguments i = c.arguments i := Function.update_of_ne he _ _
      rw [hslot]
      exact h.pastEnd i hi hmax
  isBackground := h.isBackground

/-- The `commandArgument` returned for a command and its arguments. -/
structure Parsed (U : Unspecified) (m0 : Mem) (n : Nat) (bg : Int) (text word : List UInt8)
    (args : List (List UInt8)) (c : CommandArgument) (m : Mem) : Prop where
  buffers : Buffers U m0 n text word args m
  fields : Fields n bg args c
  argumentCount : c.argumentCount = args.length

/-- A result of the code is the one an outcome of the scan describes. -/
def Meets (U : Unspecified) (m0 : Mem) (n : Nat) (bg : Int) (text : List UInt8) :
    Outcome → Except Fault (Option CommandArgument × Mem) → Prop
  | .outside, x => x = .error .outside
  | .tooMany, x => ∃ m, x = .ok (none, m) ∧ Frame (· < n) m0 m
  | .parsed word args, x => ∃ c m, x = .ok (some c, m) ∧ Parsed U m0 n bg text word args c m

theorem load_text (hb : Buffers U m0 n text word args m) (h0 : 0 ∉ text)
    (hl : text.length < inputLength) (pre suf : List UInt8) (ch : UInt8)
    (ht : text = pre ++ ch :: suf) : load U m (.ofBlock (n + 2) pre.length) = .ok (ch, m) := by
  simpa [Ptr.add] using load_char (hb.text_string h0 hl) pre suf ch ht

theorem load_end (hb : Buffers U m0 n text word args m) (h0 : 0 ∉ text)
    (hl : text.length < inputLength) : load U m (.ofBlock (n + 2) text.length) = .ok (0, m) := by
  simpa [Ptr.add] using load_nul (hb.text_string h0 hl)

/-- By induction on the characters still to be read. -/
theorem parseLoop_meets {separator : UInt8} (h0 : 0 ∉ text) (hl : text.length < inputLength)
    (suf : List UInt8) : ∀ (pre : List UInt8) (r : Reading) (m : Mem) (s : Scan) (fuel : Nat),
      text = pre ++ suf → suf.length < fuel → Buffers U m0 n text r.word r.args m →
      Locals n bg r pre.length s →
      Meets U m0 n bg text (scan separator (garbageFrom U n) r suf)
        (parseLoop U separator fuel m s) := by
  induction suf with
  | nil =>
    intro pre r m s fuel ht hfuel hb hs
    obtain ⟨fuel, rfl⟩ : ∃ f, fuel = f + 1 := ⟨fuel - 1, by simp at hfuel; omega⟩
    rw [List.append_nil] at ht
    rw [scan, parseLoop, hs.input, ← ht, load_end hb h0 hl]
    exact ⟨_, m, rfl, hb, hs.count ▸ hs.fields.setCount U, congrArg Int.ofNat hs.count⟩
  | cons ch suf ih =>
    intro pre r m s fuel ht hfuel hb hs
    obtain ⟨fuel, rfl⟩ : ∃ f, fuel = f + 1 := ⟨fuel - 1, by simp at hfuel; omega⟩
    rw [List.length_cons] at hfuel
    have hch : ch ≠ 0 := fun h => h0 (by rw [ht, h]; simp)
    have ht' : text = (pre ++ [ch]) ++ suf := by rw [ht]; simp
    have hk : pre.length < text.length := by rw [ht]; simp
    rw [parseLoop, hs.input, load_text hb h0 hl pre suf ch ht]
    simp only [ok_bind, if_neg hch]
    rcases parseChar_scan separator hch hb hs hk with ⟨r', s', m', he, hb', hs', hscan⟩ | ⟨-, he, hscan⟩ | ⟨he, hscan⟩
    · rw [he, hscan]
      exact ih (pre ++ [ch]) r' m' s' fuel ht' (by omega) hb' (by simpa using hs')
    · rw [he, hscan]
      exact ⟨m, rfl, hb.frame⟩
    · rw [he, hscan]
      rfl

/-- The read before the line that `trim` makes when nothing stops `right_index`. -/
def afterReads (m : Mem) (b o : Nat) (line : List UInt8) : Mem :=
  if Unstopped line then m.noted b (o - 1) else m

/-- The local variables of `parseInput` before the loop. -/
def Scan.start (cArg : CommandArgument) : Scan where
  cArg := cArg
  input := cArg.trimmedInput
  command := cArg.command
  argument := .null
  count := 0
  commandFlag := true

/-- A line that fits its copy comes to the loop with its buffers. -/
theorem trim_started (U : Unspecified) {b o : Nat} {line : List UInt8} (h : m.StringAt b o line)
    (hfit : (leading line).length + (trimmed line).length + 2 ≤ inputLength) :
    ∃ c m', trim U (.ofBlock b o) m = .ok (c, m') ∧
      Buffers U (afterReads m b o line) m.next (trimmed line) [] [] m' ∧
      Locals m.next (if hasAmpersand line then 1 else 0) (.command []) 0 (.start c) := by
  obtain ⟨c, m', he, ht⟩ := trim_fits (U := U) h hfit
  refine ⟨c, m', he, ?_, ?_⟩
  · exact {
      frame := ht.frame
      next := ht.next
      wordFits := by decide
      wordNoNul := by simp
      command := ht.commandBytes
      trimmedInput := ht.inputBytes
      argsFit := by simp
      argsNoNul := by simp
      arguments := by simp
      root := ht.root
      nextEmpty := fun hshort => ht.nextEmpty hshort }
  · exact {
      fields := ⟨ht.trimmedInput, ht.command, by simp [Reading.args], by simp [Reading.args], fun _ => ht.isBackground⟩
      input := ht.trimmedInput
      command := ht.command
      argument := rfl
      count := rfl
      commandFlag := rfl
      behind := by simp [Reading.args] }

/-- The simulation: on every line, `parseInput` answers what the scan of the line says. -/
theorem parseInput_meets (U : Unspecified) (separator : UInt8) {b o : Nat} {line : List UInt8}
    (h : m.StringAt b o line) :
    Meets U (afterReads m b o line) m.next (if hasAmpersand line then 1 else 0) (trimmed line)
      (scanLine separator (garbageFrom U m.next) line)
      (parseInput U separator m (.ofBlock b o)) := by
  unfold scanLine
  by_cases hfit : (leading line).length + (trimmed line).length + 2 ≤ inputLength
  · rw [if_pos hfit]
    obtain ⟨c, m', he, hb, hs⟩ := trim_started U h hfit
    rw [parseInput, he]
    exact parseLoop_meets (trimmed_noNul h.noNul) (by omega) (trimmed line) [] (.command []) m' _ _
      rfl (by omega) hb hs
  · rw [if_neg hfit, parseInput, trim_overflows h hfit]
    rfl

end Simulation

end Sbunix.Sbush
