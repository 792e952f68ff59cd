/-
The shell at its prompt (bin/sbush/sbush.c, main): the command that is made of the environment's first
string, and the loop that reads a line into the buffer and executes it.

The loop has one way out, the line `exit`. Nothing in it looks at why `fgets` answered NULL, and at the
end of the input that is its answer in every round to come. What a command reads of the input itself is
gone for the shell.
-/
import Sbunix.Sbush.Prompt
import Sbunix.Sbush.ScriptRuns

namespace Sbunix.Sbush

open BlockMemory Fallible Libc Transition

/-! ## main -/

/-- `BUFFER_SIZE` -/
def bufferSize : Nat := 1000

def exitWord : List UInt8 := [101, 120, 105, 116]

/-- `"exit\n"` -/
def exitLine : List UInt8 := exitWord ++ [newline]

/-- What a round makes of what `fgets` answered. -/
inductive Request where
  | nothing
  | exit
  | command
deriving DecidableEq

/-- `main` returns, is at fault itself, is stuck in a command that does not return, or has had all the
rounds it was given. -/
inductive Session where
  | returned (status : Int) (sh : Shell)
  | fault (f : Fault)
  | stuck (f : Fault)
  | looping

/-- The rest of a stream once `n` answers of it are gone. -/
def skip (n : Nat) (stream : Stream) : Stream := fun k => stream (n + k)

section Main

variable (U : Unspecified) (unset : Nat → UInt8)
  (other : Nat → CommandArgument → Shell → Except Fault Shell)

/-- `fputs` takes the length of its text. -/
def customFputs (m : Mem) (chr : Ptr) : Except Fault Mem := do
  if chr ≠ .null then
    let (_, m) ← strlen U m chr
    return m
  return m

/-- The two tests on `input`. -/
def requestOf (m : Mem) (input : Ptr) : Except Fault (Request × Mem) := do
  if input = .null then
    return (.nothing, m)
  let (ch, m) ← load U m input
  if ch = newline then
    return (.nothing, m)
  if (← strcmp m (.pointer input) (.literal exitLine)) = 0 then
    return (.exit, m)
  return (.command, m)

/-- `custom_fputs(PS1, stdout); memset(buffer, '\0', BUFFER_SIZE); input = fgets(buffer, BUFFER_SIZE, stdin);` -/
def readRequest (buffer : Ptr) (sh : Shell) (stdin : Stream) :
    Except Fault (Request × Ptr × Mem × Stream) := do
  let m ← customFputs U sh.mem sh.ps1
  let m ← memset m buffer 0 bufferSize
  let (input, m, stdin) ← fgets unset m buffer bufferSize stdin
  let (request, m) ← requestOf U m input
  return (request, input, m, stdin)

/-- `while (TRUE)`, for so many rounds; the next command reads `taken 0` bytes of the input itself. -/
def interactiveLoop (buffer : Ptr) : Nat → (Nat → Nat) → Stream → Shell → Session
  | 0, _, _, _ => .looping
  | rounds + 1, taken, stdin, sh =>
    match readRequest U unset buffer sh stdin with
    | .error f => .fault f
    | .ok (.nothing, _, m, stdin) => interactiveLoop buffer rounds taken stdin { sh with mem := m }
    | .ok (.exit, _, m, _) => .returned 1 { sh with mem := m }
    | .ok (.command, input, m, stdin) =>
      match parseAndExecuteCommand U other input { sh with mem := m } with
      | .error f => .stuck f
      | .ok sh => interactiveLoop buffer rounds (fun k => taken (k + 1)) (skip (taken 0) stdin) sh

/-- The command made of the string at `envp`; of its arguments only the second is set. -/
def startCommand (envp : Ptr) (m : Mem) : Except Fault (CommandArgument × Mem) := do
  let (_, m) := mallocBlock U m sizeofCommandArgument
  let (len, m) ← strlen U m envp
  let (command, m) := mallocBlock U m (len + 1)
  let (len, m) ← strlen U m envp
  let m ← memset m command 0 (len + 1)
  let (len, m) ← strlen U m envp
  let (_, m) ← memcpy U m command envp len
  return ({
    trimmedInput := .null
    command
    arguments := fun i => if i = 1 then .null else .wild
    isBackground := 0
    argumentCount := 0 }, m)

/-- `envp` is its first entry, and `script` what the file `argv[1]` holds. -/
def main (argc : Int) (envp : Ptr) (script : List UInt8) (taken : Nat → Nat) (stdin : Stream) (sh : Shell)
    (rounds : Nat) : Session :=
  let (buffer, m) := alloc U sh.mem bufferSize
  match startCommand U envp m with
  | .error f => .fault f
  | .ok (cArg, m) =>
    match executeCommand U other (some cArg) { sh with mem := m } with
    | .error f => .stuck f
    | .ok sh =>
      if argc = 1 then
        interactiveLoop U unset other buffer rounds (fun k => taken (k + 1)) (skip (taken 0) stdin) sh
      else if argc > 1 then
        match (executeFile U unset other script sh).2 with
        | .returned sh => .returned 0 sh
        | .fault f => .fault f
        | .stuck f => .stuck f
      else .returned 0 sh

end Main

/-! ## The input -/

/-- What a round finds in the bytes still to be read. -/
def requestIn (bytes : List UInt8) : Request :=
  if meetsEnd 999 bytes = true ∨ bytes.head? = some newline then .nothing
  else if exitLine <+: bytes then .exit
  else .command

section Input

variable {taken : Nat → Nat} {bytes l last : List UInt8} {ls : List (List UInt8)}

theorem skip_ofBytes (n : Nat) (bytes : List UInt8) : skip n (ofBytes bytes) = ofBytes (bytes.drop n) := by
  funext k
  unfold skip ofBytes
  rw [List.getElem?_drop]

/-- Up to the first newline. -/
theorem line_eq_exitWord {rest : List UInt8} (hn : newline ∉ l) (h : exitLine <+: l ++ newline :: rest) :
    l = exitWord := by
  obtain ⟨t, ht⟩ := h
  have hline : ∀ {w : List UInt8}, newline ∉ w → ∀ r, (w ++ newline :: r).takeWhile (· ≠ newline) = w := by
    intro w hw r
    have hkept : ∀ ch ∈ w, decide (ch ≠ newline) = true := by
      intro ch hch
      refine decide_eq_true ?_
      rintro rfl
      exact hw hch
    rw [List.takeWhile_append_of_pos hkept, List.takeWhile_cons_of_neg (by simp), List.append_nil]
  have hexit : newline ∉ exitWord := by decide
  unfold exitLine at ht
  rw [List.append_assoc, List.singleton_append] at ht
  rw [← hline hn rest, ← ht, hline hexit t]

/-- The text that is compared with `exit`: what was read, up to a NUL. -/
def textIn (bytes : List UInt8) : List UInt8 := (chunk 999 bytes).takeWhile (· ≠ 0)

theorem textIn_eq_exitLine : textIn bytes = exitLine ↔ exitLine <+: bytes := by
  constructor
  · intro h
    rw [← h]
    exact (List.takeWhile_prefix _).trans (chunk_isPrefix 999 bytes)
  · rintro ⟨rest, rfl⟩
    have hn : newline ∉ exitWord := by decide
    have he : eofChar ∉ exitWord := by decide
    obtain ⟨hchunk, -, -⟩ := chunk_line rest hn he (show exitWord.length < 999 by decide)
    unfold textIn exitLine
    rw [List.append_assoc, List.singleton_append, hchunk]
    rfl

/-- What is read begins with the first byte to come. -/
theorem chunk_cons (h : meetsEnd 999 bytes = false) :
    ∃ ch text rest, chunk 999 bytes = ch :: text ∧ bytes = ch :: rest := by
  obtain ⟨r, hr⟩ := chunk_isPrefix 999 bytes
  rcases hchunk : chunk 999 bytes with _ | ⟨ch, text⟩
  · exact absurd hchunk (chunk_ne_nil (Nat.succ_ne_zero 998) h)
  · rw [hchunk] at hr
    exact ⟨ch, text, text ++ r, rfl, hr.symm⟩

end Input

/-! ## One round -/

section Round

variable {U : Unspecified} {unset : Nat → UInt8} {m : Mem} {b : Nat} {bytes : List UInt8} {sh sh' : Shell}
  {other : Nat → CommandArgument → Shell → Except Fault Shell}

/-- The shell with its buffer in block `b`, and `PS1` in another one. -/
structure AtPrompt (b : Nat) (sh : Shell) : Prop extends LineReady b sh where
  length : (sh.mem.bytes b).length = bufferSize
  array : ∃ p o, sh.ps1 = .ofBlock p o

/-- The block is there as it was, and its length. -/
theorem AtPrompt.moved {m' : Mem} (h : AtPrompt b sh) (hnext : sh.mem.next ≤ m'.next)
    (hlen : (m'.bytes b).length = bufferSize) : AtPrompt b { sh with mem := m' } where
  block := Nat.lt_of_lt_of_le h.block hnext
  ps1 := h.ps1
  length := hlen
  array := h.array

theorem AtPrompt.setBytes (h : AtPrompt b sh) {l : List UInt8} (hl : l.length = bufferSize) :
    AtPrompt b { sh with mem := sh.mem.setBytes b l } :=
  h.moved (Nat.le_of_eq Mem.next_setBytes.symm) (by rw [Mem.bytes_setBytes_self h.block]; exact hl)

/-- No block is new, and none has changed but the buffer; behind that of the prompt something may have
been read. -/
structure BufferOnly (b p : Nat) (m m' : Mem) : Prop where
  next : m'.next = m.next
  frame : Frame (Kept b p) m m'
  prompt : p ≠ b → m'.bytes p = m.bytes p

theorem BufferOnly.trans {p : Nat} {m' m'' : Mem} (h : BufferOnly b p m m') (h' : BufferOnly b p m' m'') :
    BufferOnly b p m m'' where
  next := h'.next.trans h.next
  frame := h.frame.trans h'.frame
  prompt := fun hp => (h'.prompt hp).trans (h.prompt hp)

theorem BufferOnly.setBytes {p : Nat} (l : List UInt8) : BufferOnly b p m (m.setBytes b l) where
  next := Mem.next_setBytes
  frame := .setBytes (fun hk => hk.1 rfl) l
  prompt := fun hp => Mem.bytes_setBytes_ne hp

theorem strlen_only {p : Nat} {o : Int} {len : Nat} {m' : Mem} (h : strlen U m (.ofBlock p o) = .ok (len, m')) :
    BufferOnly b p m m' := by
  unfold strlen at h
  dsimp only at h
  split at h
  · cases h
    exact ⟨rfl, .refl _ _, fun _ => rfl⟩
  · cases h
    exact ⟨Mem.next_noted, .noted (fun hk => hk.2 rfl), fun _ => Mem.bytes_noted⟩

theorem strlen_ofBlock (U : Unspecified) (m : Mem) (p : Nat) (o : Int) :
    ∃ len m', strlen U m (.ofBlock p o) = .ok (len, m') := by
  unfold strlen
  dsimp only
  split
  · exact ⟨_, _, rfl⟩
  · exact ⟨_, _, rfl⟩

theorem customFputs_prompt (h : AtPrompt b sh) :
    ∃ m', customFputs U sh.mem sh.ps1 = .ok m' ∧ AtPrompt b { sh with mem := m' } ∧
      ∀ p o, sh.ps1 = .ofBlock p o → BufferOnly b p sh.mem m' := by
  obtain ⟨p, o, hp⟩ := h.array
  obtain ⟨len, m', hlen⟩ := strlen_ofBlock U sh.mem p o
  have hkeeps : Keeps b sh.mem m' := strlen_keeps hlen
  refine ⟨m', ?_, h.moved hkeeps.next_le (by rw [hkeeps.bytes]; exact h.length), fun p' o' hp' => ?_⟩
  · unfold customFputs
    rw [hp, if_pos (by simp), hlen]
    rfl
  · cases hp.symm.trans hp'
    exact strlen_only hlen

/-- The request of a round is the one that its input holds. -/
theorem requestOf_bytes (hend : meetsEnd 999 bytes = false) {r : List UInt8}
    (hbytes : m.bytes b = chunk 999 bytes ++ 0 :: r) :
    requestOf U m (.ofBlock b 0) = .ok (requestIn bytes, m) := by
  obtain ⟨ch, text, rest, hchunk, hcons⟩ := chunk_cons hend
  have hfirst : (m.bytes b)[0]? = some ch := by
    rw [hbytes, hchunk]
    rfl
  have hload := load_getElem (U := U) hfirst
  have hs : Source.IsString m (.pointer (.ofBlock b 0)) (textIn bytes) := by
    refine ⟨b, 0, rfl, Mem.stringAt_of_bytes hbytes ?_⟩
    rw [List.drop_zero]
    exact isString_takeWhile _ _
  have hexit : Source.IsString m (.literal exitLine) exitLine := ⟨by decide, rfl⟩
  obtain ⟨d, hd, hiff⟩ := strcmp_string hs hexit
  rw [textIn_eq_exitLine] at hiff
  unfold requestOf requestIn
  rw [if_neg (by simp), show load U m (.ofBlock b 0) = _ from hload, ok_bind, hend, hcons]
  dsimp only
  by_cases hn : ch = newline
  · rw [if_pos hn, if_pos (.inr (congrArg some hn))]
    rfl
  · rw [if_neg hn, if_neg (by simpa using hn), hd, ok_bind, ← hcons]
    by_cases hexits : exitLine <+: bytes
    · rw [if_pos (hiff.2 hexits), if_pos hexits]
      rfl
    · rw [if_neg (mt hiff.1 hexits), if_neg hexits]
      rfl

theorem memset_buffer (h : AtPrompt b sh) : ∃ m', memset sh.mem (.ofBlock b 0) 0 bufferSize = .ok m' ∧
    AtPrompt b { sh with mem := m' } ∧ ∀ p, BufferOnly b p sh.mem m' := by
  have hlen : (sh.mem.bytes b).length = bufferSize := h.length
  refine ⟨_, memset_eq (o := 0) (by decide) h.block (by rw [hlen, Nat.zero_add]), h.setBytes ?_,
    fun _ => .setBytes _⟩
  rw [length_overwrite (by rw [List.length_replicate, hlen, Nat.zero_add]), hlen]

/-- The answer is NULL exactly if the end is met. -/
theorem fgets_buffer (unset : Nat → UInt8) (h : AtPrompt b sh) (bytes : List UInt8) :
    ∃ m', fgets unset sh.mem (.ofBlock b 0) bufferSize (ofBytes bytes) =
        .ok (if meetsEnd 999 bytes = true then .null else .ofBlock b 0, m', ofBytes (unread 999 bytes)) ∧
      AtPrompt b { sh with mem := m' } ∧ (∃ r, m'.bytes b = chunk 999 bytes ++ 0 :: r) ∧
      ∀ p, BufferOnly b p sh.mem m' := by
  have hlen : (sh.mem.bytes b).length = bufferSize := h.length
  have hsize : (bufferSize - 1 : Int).toNat = 999 := rfl
  have hfgets := fgets_bytes (o := 0) unset bufferSize bytes h.block (by rw [hsize, hlen]; decide)
  -- what was read, and the NUL behind it, have room
  have hfit : 0 + (chunk 999 bytes ++ [0]).length ≤ (sh.mem.bytes b).length := by
    rw [hlen, Nat.zero_add, List.length_append, List.length_singleton]
    exact Nat.succ_le_succ (length_chunk_le 999 bytes)
  dsimp only at hfgets
  rw [hsize] at hfgets
  refine ⟨_, ?_, h.setBytes ((length_overwrite hfit).trans hlen), ?_, fun _ => .setBytes _⟩
  · rw [← if_congr (chunk_nil_or_meetsEnd (Nat.succ_ne_zero 998)) rfl rfl]
    exact hfgets
  · rw [Mem.bytes_setBytes_self h.block]
    refine ⟨(sh.mem.bytes b).drop (0 + (chunk 999 bytes ++ [0]).length), ?_⟩
    rw [overwrite, List.take_zero, List.nil_append, List.append_assoc, List.singleton_append]

/-- A round on a file: what it makes of the bytes to come, and how many of these it leaves. -/
theorem readRequest_bytes (unset : Nat → UInt8) (h : AtPrompt b sh) (bytes : List UInt8) :
    ∃ input m', readRequest U unset (.ofBlock b 0) sh (ofBytes bytes) =
        .ok (requestIn bytes, input, m', ofBytes (unread 999 bytes)) ∧
      AtPrompt b { sh with mem := m' } ∧
      (requestIn bytes = .command → input = .ofBlock b 0 ∧ m'.StringAt b 0 (textIn bytes)) ∧
      ∀ p o, sh.ps1 = .ofBlock p o → BufferOnly b p sh.mem m' := by
  obtain ⟨m1, hputs, h1, honly1⟩ := customFputs_prompt (U := U) h
  obtain ⟨m2, hset, h2, honly2⟩ := memset_buffer h1
  obtain ⟨m3, hfgets, h3, ⟨r, hbytes⟩, honly3⟩ := fgets_buffer unset h2 bytes
  refine ⟨if meetsEnd 999 bytes = true then .null else .ofBlock b 0, m3, ?_, h3, fun hcommand => ?_,
    fun p o hp => ((honly1 p o hp).trans (honly2 p)).trans (honly3 p)⟩
  · dsimp only at hset hfgets
    unfold readRequest
    rw [hputs, ok_bind, hset, ok_bind, hfgets, ok_bind]
    dsimp only
    by_cases hend : meetsEnd 999 bytes = true
    · have hnothing : requestIn bytes = .nothing := if_pos (.inl hend)
      rw [if_pos hend, hnothing]
      rfl
    · rw [if_neg hend, requestOf_bytes (Bool.not_eq_true _ ▸ hend) hbytes]
      rfl
  · have hend : ¬ meetsEnd 999 bytes = true := by
      intro hend
      have hnothing : requestIn bytes = .nothing := if_pos (.inl hend)
      rw [hnothing] at hcommand
      cases hcommand
    rw [if_neg hend]
    refine ⟨rfl, Mem.stringAt_of_bytes hbytes ?_⟩
    rw [List.drop_zero]
    exact isString_takeWhile _ _

/-- A command that returns leaves the buffer to be read into. -/
theorem AtPrompt.executed {line : List UInt8} (hother : KeepsLines other) (h : AtPrompt b sh)
    (hs : sh.mem.StringAt b 0 line) (hrun : parseAndExecuteCommand U other (.ofBlock b 0) sh = .ok sh') :
    AtPrompt b sh' := by
  obtain ⟨hr, hps1, hcut⟩ := parseAndExecuteCommand_cuts hother h.toLineReady hs hrun
  refine ⟨hr, hcut.length.trans h.length, ?_⟩
  rw [hps1]
  exact h.array

end Round

/-! ## The loop -/

section Loop

variable {U : Unspecified} {unset : Nat → UInt8} {b : Nat} {sh sh' : Shell}
  {other : Nat → CommandArgument → Shell → Except Fault Shell}

end Loop

/-! ## The start -/

section Start

variable {U : Unspecified} {m m' : Mem} {b : Nat} {envp : Ptr} {cArg : CommandArgument} {sh sh' : Shell}
  {other : Nat → CommandArgument → Shell → Except Fault Shell}

/-- The first string of the environment, or none. -/
def EntryAt (m : Mem) (envp : Ptr) : Prop := envp = .null ∨ ∃ s, m.String envp s

/-- Its length is counted, and it is copied into a block with room for it, wherever the memory has grown. -/
theorem EntryAt.reads (U : Unspecified) (h : EntryAt m envp) : ∃ n, ∀ m', Frame (· < m.next) m m' →
    strlen U m' envp = .ok (n, m') ∧ ∀ d, m.next ≤ d → d < m'.next → n ≤ (m'.bytes d).length →
      ∃ r m'', memcpy U m' (.ofBlock d 0) envp n = .ok (r, m'') := by
  rcases h with rfl | ⟨s, b, o, rfl, hs⟩
  · exact ⟨0, fun m' _ => ⟨rfl, fun d _ _ _ => ⟨_, m', rfl⟩⟩⟩
  · refine ⟨s.length, fun m' hf => ?_⟩
    have hs' : m'.StringAt b o s := hs.frame hf hs.lt_next
    refine ⟨strlen_string hs', fun d hle hlt hlen => ?_⟩
    exact memcpy_room (e := 0) (Nat.ne_of_gt (Nat.lt_of_lt_of_le hs.lt_next hle)) hlt
      ((List.prefix_append s [0]).trans hs'.isPrefix) (by rwa [Nat.zero_add])

theorem EntryAt.frame (h : EntryAt m envp) (hf : Frame (· < m.next) m m') : EntryAt m' envp := by
  rcases h with rfl | ⟨s, b, o, rfl, hs⟩
  · exact .inl rfl
  · exact .inr ⟨s, b, o, rfl, hs.frame hf hs.lt_next⟩

variable (unset : Nat → UInt8) (script : List UInt8)

end Start

/-! ## Sessions that return -/

/-- `main` returns after finitely many rounds of its loop. -/
def Returns (session : Nat → Session) : Prop := ∃ rounds status sh, session rounds = .returned status sh

/-- Where the loop stands before a round: what the commands to come read, the input and the shell. -/
structure Prompt where
  taken : Nat → Nat
  stdin : Stream
  shell : Shell

section Commands

variable (U : Unspecified) (unset : Nat → UInt8)
  (other : Nat → CommandArgument → Shell → Except Fault Shell)

/-- A round that does not end the loop. -/
inductive RoundStep (buffer : Ptr) : Prompt → Request → Prompt → Prop where
  | nothing {taken : Nat → Nat} {stdin stdin' : Stream} {sh : Shell} {input : Ptr} {m : Mem}
      (h : readRequest U unset buffer sh stdin = .ok (.nothing, input, m, stdin')) :
      RoundStep buffer ⟨taken, stdin, sh⟩ .nothing ⟨taken, stdin', { sh with mem := m }⟩
  | command {taken : Nat → Nat} {stdin stdin' : Stream} {sh sh' : Shell} {input : Ptr} {m : Mem}
      (h : readRequest U unset buffer sh stdin = .ok (.command, input, m, stdin'))
      (hrun : parseAndExecuteCommand U other input { sh with mem := m } = .ok sh') :
      RoundStep buffer ⟨taken, stdin, sh⟩ .command ⟨fun k => taken (k + 1), skip (taken 0) stdin', sh'⟩

variable {U unset other} {buffer : Ptr} {q q' : Prompt} {es : List Request} {request : Request}

/-- The loop from there, for so many rounds. -/
abbrev Prompt.loop (U : Unspecified) (unset : Nat → UInt8)
    (other : Nat → CommandArgument → Shell → Except Fault Shell) (buffer : Ptr) (q : Prompt) (rounds : Nat) :
    Session :=
  interactiveLoop U unset other buffer rounds q.taken q.stdin q.shell

theorem RoundStep.loop (h : RoundStep U unset other buffer q request q') (rounds : Nat) :
    q.loop U unset other buffer (rounds + 1) = q'.loop U unset other buffer rounds := by
  cases h with
  | nothing h => rw [Prompt.loop, interactiveLoop, h]
  | command h hrun =>
    rw [Prompt.loop, interactiveLoop, h]
    dsimp only
    rw [hrun]

end Commands

/-- `PATH=/` -/
def pathEntry : List UInt8 := pathWord ++ [equalsChar, 47]

/-- A shell at its start, with one string in its environment and the first prompt. -/
def loginShell : Shell where
  mem := {
    blocks := [pathEntry ++ [0], initialPS1 ++ List.replicate (maxPS1Length - initialPS1.length) 0]
    released := []
    stray := [] }
  environ := []
  ps1 := .ofBlock 1 0
  pipelines := []

end Sbunix.Sbush
