/-
A whole session in the built-in language, from the start of the shell to its `exit`: the environment's first
string and the lines that are typed, empty ones between them. What comes out on the terminal, prompts
included, is what the interpreter of BuiltIns.lean says.
-/
import Sbunix.Sbush.BuiltIns
import Sbunix.Sbush.Interactive

namespace Sbunix.Sbush

open BlockMemory Fallible Libc Execution

/-! ## The transcript -/

/-- `"Exiting as requested"` and the newline behind it. -/
def exitMessage : List UInt8 := [69, 120, 105, 116, 105, 110, 103, 32, 97, 115, 32, 114, 101, 113, 117, 101, 115,
  116, 101, 100] ++ [newline]

section Transcript

variable (chdir : List UInt8 → List UInt8 → Option (List UInt8)) (U : Unspecified) (unset : Nat → UInt8)
  (other : Nat → CommandArgument → Shell → Except Fault Shell)

/-- What the loop of `main` prints until it returns, in so many rounds, while its commands read nothing of
the input. -/
def interactiveText (buffer : Ptr) : Nat → Stream → Shell → Option (List UInt8)
  | 0, _, _ => none
  | rounds + 1, stdin, sh =>
    match readRequest U unset buffer sh stdin with
    | .error _ => none
    | .ok (.nothing, _, m, stdin) =>
      (interactiveText buffer rounds stdin { sh with mem := m }).map (promptOf sh ++ ·)
    | .ok (.exit, _, _, _) => some (promptOf sh ++ exitMessage)
    | .ok (.command, input, m, stdin) =>
      match lineText chdir U input { sh with mem := m }, parseAndExecuteCommand U other input { sh with mem := m } with
      | .ok text, .ok sh' => (interactiveText buffer rounds stdin sh').map (promptOf sh ++ text ++ ·)
      | _, _ => none

/-- What `main` prints when it is interactive. -/
def mainText (envp : Ptr) (stdin : Stream) (sh : Shell) (rounds : Nat) : Option (List UInt8) :=
  let (buffer, m) := alloc U sh.mem bufferSize
  match startCommand U envp m with
  | .error _ => none
  | .ok (cArg, m) =>
    match getBuiltInCode m cArg >>= fun code => commandText chdir code cArg { sh with mem := m },
        executeCommand U other (some cArg) { sh with mem := m } with
    | .ok text, .ok sh => (interactiveText chdir U unset other buffer rounds stdin sh).map (text ++ ·)
    | _, _ => none

end Transcript

section Meaning

variable (chdir : List UInt8 → List UInt8 → Option (List UInt8))

/-- What the interpreter prints for the lines and the `exit` behind them, with a prompt in front of each. -/
def State.session (s : State) : List (List UInt8) → List UInt8
  | [] => s.prompt ++ exitMessage
  | l :: ls => s.prompt ++
    if l = [] then s.session ls
    else (s.execute chdir (l ++ [newline])).1 ++ (s.execute chdir (l ++ [newline])).2.session ls

/-- The state it comes to. -/
def State.after (s : State) : List (List UInt8) → State
  | [] => s
  | l :: ls => if l = [] then s.after ls else (s.execute chdir (l ++ [newline])).2.after ls

/-- The state at the first prompt: no variable but that of the string. -/
def State.start (word prompt directory : List UInt8) : State :=
  State.assigns ⟨fun _ => none, prompt, directory⟩ (word ++ [newline])

end Meaning

/-- The shell is in the state: `getenv` knows the variables that have a value, and no others. -/
structure State.Agrees (s : State) (sh : Shell) : Prop where
  values : ∀ key (src : Source), src.IsString sh.mem key → ∃ q, getenv sh.mem src sh.environ = .ok q ∧
    match s.values key with
    | some value => sh.mem.String q value
    | none => q = .null
  prompt : promptOf sh = s.prompt
  directory : sh.directory = s.directory

/-! ## A round -/

/-- What is typed for the lines. -/
def typedText (ls : List (List UInt8)) : List UInt8 := ls.flatMap (· ++ [newline])

/-- A line that `fgets` reads whole. -/
structure FitsLine (l : List UInt8) : Prop where
  length : l.length < 999
  noNewline : newline ∉ l
  noEof : eofChar ∉ l

section Round

variable {U : Unspecified} {b p : Nat} {m : Mem} {sh : Shell} {l rest : List UInt8}
  {done : List (List UInt8)} {slots slots0 : List (List UInt8 × Ptr)}

theorem Reached.bufferOnly (h : Reached b p slots0 done slots sh) (honly : BufferOnly b p sh.mem m) :
    Reached b p slots0 done slots { sh with mem := m } :=
  h.moved (h.toShellAt.kept honly.frame (honly.prompt h.apart.symm)) (honly.frame.mono fun _ hc => hc.2)

theorem requestIn_empty : requestIn (newline :: rest) = .nothing := if_pos (.inr rfl)

theorem requestIn_exit : requestIn (exitLine ++ rest) = .exit := by
  have hfirst : ¬ (meetsEnd 999 (exitLine ++ rest) = true ∨ (exitLine ++ rest).head? = some newline) := by
    have hend := (chunk_line (n := 999) rest (show newline ∉ exitWord by decide) (by decide) (by decide)).2.1
    rw [exitLine, List.append_assoc, List.singleton_append, hend]
    rintro (h | h)
    · cases h
    · exact absurd h (by simp [exitWord, newline])
  unfold requestIn
  rw [if_neg hfirst, if_pos (List.prefix_append _ _)]

/-- A line that fits is a command unless it is empty or `exit`. -/
theorem requestIn_command (h : FitsLine l) (hne : l ≠ []) (hexit : l ≠ exitWord) :
    requestIn (l ++ newline :: rest) = .command := by
  obtain ⟨-, hend, -⟩ := chunk_line rest h.noNewline h.noEof h.length
  have hfirst : ¬ (meetsEnd 999 (l ++ newline :: rest) = true ∨
      (l ++ newline :: rest).head? = some newline) := by
    rw [hend]
    rintro (hend | hhead)
    · cases hend
    · obtain ⟨ch, l, rfl⟩ := List.exists_cons_of_ne_nil hne
      exact h.noNewline (Option.some.inj hhead ▸ List.mem_cons_self)
  unfold requestIn
  rw [if_neg hfirst, if_neg fun hbegins => hexit (line_eq_exitWord h.noNewline hbegins)]

theorem textIn_line (h : FitsLine l) (h0 : 0 ∉ l) : textIn (l ++ newline :: rest) = l ++ [newline] := by
  obtain ⟨hchunk, -, -⟩ := chunk_line rest h.noNewline h.noEof h.length
  have hkept : ∀ ch ∈ l ++ [newline], decide (ch ≠ 0) = true := by
    intro ch hch
    rcases List.mem_append.1 hch with hch | hch
    · exact decide_eq_true fun he => h0 (he ▸ hch)
    · rw [List.mem_singleton.1 hch]
      decide
  unfold textIn
  rw [hchunk, List.takeWhile_eq_self_iff]
  exact hkept

theorem InSession.bufferOnly {s : State} (h : InSession b p done slots s sh) (honly : BufferOnly b p sh.mem m) :
    InSession b p done slots s { sh with mem := m } where
  toReached := h.toReached.bufferOnly honly
  values := h.values
  shows := Mem.stringAt_of_bytes (honly.prompt h.apart.symm) h.shows
  place := h.place

theorem InSession.promptOf {s : State} (h : InSession b p done slots s sh) : promptOf sh = s.prompt := by
  rw [Sbush.promptOf, h.prompt]
  exact textAt_string h.shows

/-- A line that the shell reads and executes as it is meant: it assigns, or it is one of the other
built-ins. -/
structure Understood (U : Unspecified) (l : List UInt8) : Prop extends FitsLine l where
  means : l ≠ [] → SafeAssign U l ∨ BuiltInLine U (l ++ [newline])

theorem Understood.noNul (h : Understood U l) (hne : l ≠ []) : 0 ∉ l := by
  rcases h.means hne with hl | hl
  · exact fun h0 => hl.assigns.noNul (List.mem_append_left _ h0)
  · exact fun h0 => hl.noNul (List.mem_append_left _ h0)

theorem Understood.ne_exit (h : Understood U l) (hne : l ≠ []) : l ≠ exitWord := by
  rintro rfl
  rcases h.means hne with hl | hl
  · exact absurd (hl.assigns.assigns exitWord (by decide)) (by decide)
  · exact absurd hl.builtIn (by decide)

/-- The lines that assign. -/
def assigning (ls : List (List UInt8)) : List (List UInt8) :=
  ls.filter fun l => l ≠ [] ∧ commandWord (l ++ [newline]) ∉ [cd, pwd, echo]

/-- The next line is executed as the interpreter does. -/
theorem InSession.round {s : State} {chdir : List UInt8 → List UInt8 → Option (List UInt8)}
    {other : Nat → CommandArgument → Shell → Except Fault Shell} (h : InSession b p done slots s sh)
    (hb : BuiltIns chdir other) (hl : Understood U l) (hne : l ≠ []) (hs : sh.mem.StringAt b 0 (l ++ [newline]))
    (hk : keyCount (done ++ withNewlines (assigning [l])) < environDataSize)
    (hpage : PageAligned U (sh.mem.next + 1)) :
    ∃ sh' slots', parseAndExecuteCommand U other (.ofBlock b 0) sh = .ok sh' ∧
      lineText chdir U (.ofBlock b 0) sh = .ok (s.execute chdir (l ++ [newline])).1 ∧
      InSession b p (done ++ withNewlines (assigning [l])) slots' (s.execute chdir (l ++ [newline])).2 sh' ∧
      sh.mem.next ≤ sh'.mem.next := by
  rcases hl.means hne with hassign | hbuiltIn
  · have hcommand : commandWord (l ++ [newline]) ∉ [cd, pwd, echo] := by
      intro hmem
      have hexport : commandWord (l ++ [newline]) ≠ exportWord := by
        intro he
        rw [he] at hmem
        exact absurd hmem (by decide)
      have hequals := (hassign.assigns.command hexport).equals
      rw [List.mem_cons, List.mem_pair] at hmem
      rcases hmem with he | he | he
      all_goals
        rw [he] at hequals
        exact absurd hequals (by decide)
    have hone : withNewlines (assigning [l]) = [l ++ [newline]] := by
      rw [assigning, List.filter_cons, if_pos (decide_eq_true ⟨hne, hcommand⟩)]
      rfl
    rw [hone] at hk ⊢
    exact h.assign chdir other hs hassign.assigns (hassign.harmless _) hk hpage
  · have hnone : done ++ withNewlines (assigning [l]) = done := by
      rw [assigning, List.filter_cons, if_neg fun hd => (of_decide_eq_true hd).2 hbuiltIn.builtIn]
      exact List.append_nil _
    rw [hnone]
    obtain ⟨sh', hrun, htext, h'⟩ := h.builtIn chdir hb hs hbuiltIn hpage
    exact ⟨sh', slots, hrun, htext, h'⟩

end Round

/-! ## The loop -/

section Loop

variable {U : Unspecified} (unset : Nat → UInt8) {chdir : List UInt8 → List UInt8 → Option (List UInt8)}
  {other : Nat → CommandArgument → Shell → Except Fault Shell} {b p : Nat} (rest : List UInt8)

theorem assigning_cons (l : List UInt8) (ls : List (List UInt8)) :
    withNewlines (assigning (l :: ls)) = withNewlines (assigning [l]) ++ withNewlines (assigning ls) := by
  rw [assigning, show l :: ls = [l] ++ ls from rfl, List.filter_append, withNewlines, List.map_append]
  rfl

/-- By induction on the lines still to be typed; those that assign go to the ones done. -/
theorem interactiveLoop_session (hother : KeepsLines other) (hb : BuiltIns chdir other) :
    ∀ (typed : List (List UInt8)) {sh : Shell} {s : State} {done : List (List UInt8)}
      {slots : List (List UInt8 × Ptr)}, (∀ l ∈ typed, Understood U l) →
    keyCount (done ++ withNewlines (assigning typed)) < environDataSize →
    InSession b p done slots s sh → AtPrompt b sh → PageAligned U (sh.mem.next + 1) →
    ∃ sh' done' slots', (∀ k, interactiveLoop U unset other (.ofBlock b 0) (k + typed.length + 1) (fun _ => 0)
        (ofBytes (typedText typed ++ (exitLine ++ rest))) sh = .returned 1 sh' ∧
      interactiveText chdir U unset other (.ofBlock b 0) (k + typed.length + 1)
        (ofBytes (typedText typed ++ (exitLine ++ rest))) sh = some (s.session chdir typed)) ∧
      InSession b p done' slots' (s.after chdir typed) sh'
  | [], sh, s, done, slots, _, _, h, hp, _ => by
    obtain ⟨input, m, hread, -, -, honly⟩ := readRequest_bytes (U := U) unset hp (exitLine ++ rest)
    rw [requestIn_exit] at hread
    refine ⟨{ sh with mem := m }, done, slots, fun k => ?_, h.bufferOnly (honly p 0 h.prompt)⟩
    rw [typedText, List.flatMap_nil, List.nil_append, interactiveLoop, interactiveText, hread]
    exact ⟨rfl, by rw [State.session, ← h.promptOf]⟩
  | l :: typed, sh, s, done, slots, hls, hk, h, hp, hpage => by
    have hl := hls l List.mem_cons_self
    have hls' : ∀ x ∈ typed, Understood U x := fun x hx => hls x (List.mem_cons_of_mem _ hx)
    have htext : typedText (l :: typed) ++ (exitLine ++ rest) =
        l ++ newline :: (typedText typed ++ (exitLine ++ rest)) := by
      rw [typedText, List.flatMap_cons, ← typedText, List.append_assoc, List.append_assoc,
        List.singleton_append]
    obtain ⟨-, -, hunread⟩ := chunk_line (typedText typed ++ (exitLine ++ rest)) hl.noNewline hl.noEof hl.length
    obtain ⟨input, m, hread, hp', hcommand, honly⟩ := readRequest_bytes (U := U) unset hp
      (l ++ newline :: (typedText typed ++ (exitLine ++ rest)))
    have h' := h.bufferOnly (honly p 0 h.prompt)
    have hpage' : PageAligned U (m.next + 1) := (honly p 0 h.prompt).next ▸ hpage
    rw [hunread] at hread
    rw [assigning_cons] at hk
    by_cases hnil : l = []
    · -- an empty line is read, and no more
      subst hnil
      rw [List.nil_append, requestIn_empty] at hread
      obtain ⟨sh', done', slots', hrun, hsession⟩ := interactiveLoop_session hother hb typed hls' hk h' hp'
        hpage'
      refine ⟨sh', done', slots', fun k => ?_, by rwa [State.after, if_pos rfl]⟩
      rw [htext, List.nil_append, List.length_cons, ← Nat.add_assoc, interactiveLoop, interactiveText, hread]
      refine ⟨(hrun k).1, ?_⟩
      dsimp only
      rw [(hrun k).2, State.session, if_pos rfl, h.promptOf]
      rfl
    · have hreq : requestIn (l ++ newline :: (typedText typed ++ (exitLine ++ rest))) = .command :=
        requestIn_command hl.toFitsLine hnil (hl.ne_exit hnil)
      obtain ⟨rfl, hs⟩ := hcommand hreq
      rw [textIn_line hl.toFitsLine (hl.noNul hnil)] at hs
      rw [hreq] at hread
      rw [← List.append_assoc] at hk
      obtain ⟨sh1, slots1, hexec, hprints, h1, hle⟩ := h'.round hb hl hnil hs
        (Nat.lt_of_le_of_lt keyCount_append_le hk) hpage'
      obtain ⟨sh', done', slots', hrun, hsession⟩ := interactiveLoop_session hother hb typed hls' hk h1
        (hp'.executed hother hs hexec) fun k hk => hpage' k (Nat.le_trans (Nat.succ_le_succ hle) hk)
      refine ⟨sh', done', slots', fun k => ?_, by rwa [State.after, if_neg hnil]⟩
      rw [htext, List.length_cons, ← Nat.add_assoc, interactiveLoop, interactiveText, hread]
      dsimp only
      rw [hexec, hprints, skip_ofBytes, List.drop_zero]
      refine ⟨(hrun k).1, ?_⟩
      dsimp only
      rw [(hrun k).2, State.session, if_neg hnil, h.promptOf, ← List.append_assoc]
      rfl

end Loop

/-! ## The start -/

section Start

variable {U : Unspecified} {m : Mem} {e : Nat} {o : Nat} {word : List UInt8} {sh : Shell} {p : Nat}

/-- The command is a copy of the string, in the second of two new blocks. -/
theorem startCommand_string (U : Unspecified) (hs : m.StringAt e o word) (hlen : word.length + 1 < 2 ^ 31) :
    ∃ cArg m', startCommand U (.ofBlock e o) m = .ok (cArg, m') ∧ cArg.command = .ofBlock (m.next + 1) 0 ∧
      cArg.argumentCount = 0 ∧ m'.StringAt (m.next + 1) 0 word ∧ Frame (· < m.next) m m' ∧
      m'.next = m.next + 2 := by
  have hf1 : Frame (· < m.next) m (mallocBlock U m sizeofCommandArgument).2 := frame_malloc (Nat.lt_irrefl _)
  have hn1 : (mallocBlock U m sizeofCommandArgument).2.next = m.next + 1 := next_malloc
  generalize hm1 : (mallocBlock U m sizeofCommandArgument).2 = m1 at hf1 hn1
  have hs1 : m1.StringAt e o word := hs.frame hf1 hs.lt_next
  obtain ⟨m2, hset, hf2, hn2, hbytes2, -⟩ := memset_malloc (U := U) (m := m1) hlen
  have hs2 : (mallocBlock U m1 (word.length + 1)).2.StringAt e o word :=
    hs1.frame (frame_malloc (K := (· < m1.next)) (Nat.lt_irrefl _)) hs1.lt_next
  have hs3 : m2.StringAt e o word := hs1.frame hf2 hs1.lt_next
  have hcopy := memcpy_eq (U := U) (d := m1.next) (e := 0) (by omega) (Nat.ne_of_gt hs1.lt_next)
    (by omega) ((List.prefix_append word [0]).trans hs3.isPrefix) (by rw [hbytes2, List.length_replicate]; omega)
  have hbytes : overwrite (m2.bytes m1.next) 0 word = word ++ [0] := by
    rw [hbytes2, overwrite, List.take_zero, List.nil_append, Nat.zero_add, List.drop_replicate,
      Nat.add_sub_cancel_left]
    rfl
  rw [hbytes] at hcopy
  refine ⟨⟨.null, .ofBlock m1.next 0, fun i => if i = 1 then .null else .wild, 0, 0⟩,
    m2.setBytes m1.next (word ++ [0]), ?_, congrArg (Ptr.ofBlock · 0) hn1, rfl, ?_, ?_, ?_⟩
  rotate_left
  · rw [← hn1]
    refine Mem.stringAt_of_bytes (Mem.bytes_setBytes_self (by omega)) ?_
    exact isString_append hs.noNul []
  · exact (hf1.trans (hf2.mono fun c hc => by omega)).trans (.setBytes (by omega) _)
  · rw [Mem.next_setBytes]
    omega
  · unfold startCommand
    dsimp only
    rw [hm1, strlen_string hs1, ok_bind]
    dsimp only
    rw [strlen_string hs2, ok_bind]
    dsimp only
    rw [malloc_fst, hset, ok_bind, strlen_string hs3, ok_bind]
    dsimp only
    rw [show memcpy U m2 (.ofBlock m1.next 0) (.ofBlock e o) word.length = _ from hcopy, ok_bind]
    rfl

/-- The string is an assignment, which a line with it alone would be too. -/
structure FirstEntry (word : List UInt8) : Prop where
  assigns : Assigns word
  noNul : 0 ∉ word
  command : commandWord (word ++ [newline]) = word
  alone : argWords (word ++ [newline]) = []

theorem FirstEntry.assignments (h : FirstEntry word) :
    assignments (word ++ [newline]) = [(keyOf word, valueOf word)] := by
  have hne : word ≠ exportWord := fun he => absurd (he ▸ h.assigns.equals) (by decide)
  rw [Sbush.assignments, assigned, h.command, if_neg hne, h.alone]
  rfl

theorem FirstEntry.history (h : FirstEntry word) : history [word ++ [newline]] = [(keyOf word, valueOf word)] := by
  rw [Sbush.history, List.flatMap_singleton, h.assignments]

/-- The environment's string is assigned: its copy in block `k` is cut, and holds the only value. -/
structure FirstDone (b p k : Nat) (word : List UInt8) (sh sh' : Shell) : Prop where
  prompt : sh'.ps1 = .ofBlock p 0
  directory : sh'.directory = sh.directory
  frame : Frame (fun c => c < sh.mem.next ∧ c ≠ k ∧ c ≠ p) sh.mem sh'.mem
  shown : sh'.mem.bytes p = shown (keyOf word) (valueOf word) (sh.mem.bytes p)
  value : sh'.mem.StringAt k ((keyOf word).length + 1) (valueOf word)
  environ : Holds (Kept b p) sh'.mem sh'.environ [(keyOf word, .ofBlock k ((keyOf word).length + 1))]

theorem FirstEntry.fits (hword : FirstEntry word) : (valueOf word).length < maxPS1Length := by
  have hlen := hword.assigns.fits
  have hle := length_valueOf_le word
  unfold argumentLength at hlen
  unfold maxPS1Length
  omega

variable (U) (other : Nat → CommandArgument → Shell → Except Fault Shell)

/-- The first command is an assignment. -/
theorem FirstEntry.executed (hword : FirstEntry word) (sh : Shell) {cArg : CommandArgument} {b k : Nat}
    (hs : sh.mem.StringAt k 0 word) (hcommand : cArg.command = .ofBlock k 0) (hcount : cArg.argumentCount = 0)
    (hps1 : sh.ps1 = .ofBlock p 0) (hlen : (sh.mem.bytes p).length = maxPS1Length)
    (henv : Holds (fun c => Kept b p c ∧ c ≠ k) sh.mem sh.environ []) (hb : b < sh.mem.next)
    (hp : p < sh.mem.next) (hkp : k ≠ p) :
    ∃ sh', executeCommand U other (some cArg) sh = .ok sh' ∧ FirstDone b p k word sh sh' := by
  have hcode : getBuiltInCode sh.mem cArg = .ok builtInWithoutExport :=
    getBuiltInCode_assigns hword.assigns hs hcommand
  have hk := hs.lt_next
  -- the assignment cuts the command, and makes the only entry
  obtain ⟨sh2, he2, hsame, hf2, hcut, hH2, -⟩ := assign_eq (U := U) (p := p) sh hword.assigns hs
    (Q := fun c => Kept b p c ∧ c ≠ k) (fun c hc => ⟨⟨by omega, by omega⟩, by omega⟩) (fun hk => hk.2 rfl) henv
    (.inr (by decide))
  have hkey : sh2.mem.StringAt k 0 (keyOf word) :=
    Mem.stringAt_of_bytes hcut (cut_key hword.assigns.equals hs)
  have hvalue : sh2.mem.StringAt k ((keyOf word).length + 1) (valueOf word) :=
    Mem.stringAt_of_bytes hcut (cut_value hword.assigns.equals hs)
  have hp2 : sh2.mem.bytes p = sh.mem.bytes p := hf2.bytes p ⟨hp, hkp.symm⟩
  have hlen2 : (sh2.mem.bytes p).length = maxPS1Length := by rw [hp2, hlen]
  have hps2 : sh2.ps1 = .ofBlock p 0 := hsame.ps1.trans hps1
  obtain ⟨m3, he3, hf3, -, hshown, -⟩ := setPS1_eq (U := U) (c := cArg) hkey hcommand hvalue hkp hps2 hlen2
    (Nat.le_of_lt hword.fits)
  have hexec : executeCommand U other (some cArg) sh = .ok { sh2 with mem := m3 } := by
    rw [executeCommand_assigns hword.assigns hcommand hs he2 he3, executeBuiltInExport, hcount]
    rfl
  refine ⟨{ sh2 with mem := m3 }, hexec, hps2, executeCommand_directory hcode (.inr rfl) hexec, ?_, ?_, ?_, ?_⟩
  · exact (hf2.mono fun c hc => ⟨hc.1, hc.2.1⟩).trans (hf3.mono fun c hc => hc.2.2)
  · rw [← hp2]
    exact hshown
  · exact hvalue.frame hf3 hkp
  · exact hH2.frame hf3 (fun _ hc _ => hc.1.2) fun _ hc _ => hc.1

/-- The session begins with the string as its only line. -/
theorem FirstDone.inSession {b k : Nat} {prompt : List UInt8} {sh' : Shell} (h : FirstDone b p k word sh sh')
    (hword : FirstEntry word) (hb : b < sh.mem.next) (hbp : b ≠ p) (hk : Kept b p k)
    (hlen : (sh.mem.bytes p).length = maxPS1Length) (hprompt : sh.mem.StringAt p 0 prompt) :
    InSession b p [word ++ [newline]] [(keyOf word, .ofBlock k ((keyOf word).length + 1))]
      (.start word prompt sh.directory) sh' := by
  constructor
  case toReached =>
    constructor
    case toShellAt =>
      constructor
      case buffer => exact Nat.lt_of_lt_of_le hb h.frame.next_le
      case apart => exact hbp
      case prompt => exact h.prompt
      case promptLength => rw [h.shown, length_shown hlen (Nat.le_of_lt hword.fits)]
      case environ => exact h.environ
    case nodup => exact List.nodup_singleton _
    case keys =>
      intro key hkey
      rw [hword.history]
      exact .inr hkey
    case stores =>
      intro key value hv
      rw [hword.history] at hv
      have heq : keyOf word = key ∧ valueOf word = value := by
        simpa [Slots.lastValue] using hv
      obtain ⟨rfl, rfl⟩ := heq
      exact ⟨_, if_pos rfl, k, (keyOf word).length + 1, rfl, hk, h.value⟩
  case values =>
    funext key
    rw [hword.history, ← hword.assignments]
    exact Option.or_none
  case shows =>
    refine Mem.stringAt_of_bytes h.shown ?_
    rw [List.drop_zero, State.start, State.assigns, promptAfter, hword.command]
    refine isString_shown hprompt (fun h0 => ?_) hword.fits
    exact hword.noNul ((List.dropWhile_sublist _).subset (List.mem_of_mem_tail h0))
  case place => exact h.directory

variable (chdir : List UInt8 → List UInt8 → Option (List UInt8)) (unset : Nat → UInt8)

/-- `main` goes on at the prompt, and has printed nothing. -/
theorem main_prompts (script : List UInt8) {envp : Ptr} {cArg : CommandArgument} {sh' : Shell}
    (hstart : startCommand U envp (alloc U sh.mem bufferSize).2 = .ok (cArg, m))
    (hcode : getBuiltInCode m cArg = .ok builtInWithoutExport)
    (hrun : executeCommand U other (some cArg) { sh with mem := m } = .ok sh') :
    (∀ taken stdin rounds, main U unset other 1 envp script taken stdin sh rounds =
      interactiveLoop U unset other (.ofBlock sh.mem.next 0) rounds (fun k => taken (k + 1))
        (skip (taken 0) stdin) sh') ∧
    ∀ stdin rounds, mainText chdir U unset other envp stdin sh rounds =
      interactiveText chdir U unset other (.ofBlock sh.mem.next 0) rounds stdin sh' := by
  constructor
  · intro taken stdin rounds
    unfold main
    dsimp only
    rw [hstart]
    dsimp only
    rw [hrun]
    rfl
  · intro stdin rounds
    unfold mainText
    dsimp only
    rw [hstart]
    dsimp only
    rw [hcode, hrun]
    exact congrFun Option.map_id _

/-- The session comes to the prompt, with the string assigned and nothing printed. -/
theorem main_session (script : List UInt8) {prompt : List UInt8} (hsh : ShellStart p [] sh)
    (hprompt : sh.mem.StringAt p 0 prompt) (hs : sh.mem.StringAt e o word) (hword : FirstEntry word) :
    ∃ sh' slots, AtPrompt sh.mem.next sh' ∧
      InSession sh.mem.next p [word ++ [newline]] slots (.start word prompt sh.directory) sh' ∧
      sh.mem.next + 1 ≤ sh'.mem.next ∧
      (∀ taken stdin rounds, main U unset other 1 (.ofBlock e o) script taken stdin sh rounds =
        interactiveLoop U unset other (.ofBlock sh.mem.next 0) rounds (fun k => taken (k + 1))
          (skip (taken 0) stdin) sh') ∧
      ∀ stdin rounds, mainText chdir U unset other (.ofBlock e o) stdin sh rounds =
        interactiveText chdir U unset other (.ofBlock sh.mem.next 0) rounds stdin sh' := by
  have hp := hsh.block
  have hlen := hword.assigns.fits
  unfold argumentLength at hlen
  have hf0 : Frame (· < sh.mem.next) sh.mem (alloc U sh.mem bufferSize).2 := .alloc (Nat.lt_irrefl _)
  have hn0 : (alloc U sh.mem bufferSize).2.next = sh.mem.next + 1 := next_alloc
  obtain ⟨cArg, m1, hstart, hcommand, hcount, hs1, hf1, hn1⟩ :=
    startCommand_string U (hs.frame hf0 hs.lt_next) (by omega)
  have hf01 : Frame (· < sh.mem.next) sh.mem m1 := hf0.trans (hf1.mono fun c hc => by omega)
  have hp1 : m1.bytes p = sh.mem.bytes p := hf01.bytes p hp
  have hlen1 : (m1.bytes p).length = maxPS1Length := by rw [hp1, hsh.promptLength]
  have hbuffer : (m1.bytes sh.mem.next).length = bufferSize := by
    rw [hf1.bytes _ (by omega), bytes_alloc_self, length_freshBlock]
  rw [hn0] at hcommand hs1
  have hcode : getBuiltInCode m1 cArg = .ok builtInWithoutExport :=
    getBuiltInCode_assigns hword.assigns hs1 hcommand
  obtain ⟨sh', hrun, hdone⟩ := hword.executed U other { sh with mem := m1 } (b := sh.mem.next) hs1 hcommand
    hcount hsh.prompt hlen1
    (hsh.environ.frame hf01 (fun _ _ hc => hc) fun c hc hlt => ⟨⟨by omega, hc⟩, by omega⟩)
    (show sh.mem.next < m1.next by omega) (show p < m1.next by omega) (by omega)
  have hnext : m1.next ≤ sh'.mem.next := hdone.frame.next_le
  refine ⟨sh', _, ?_, hdone.inSession hword (show sh.mem.next < m1.next by omega) (by omega) ⟨by omega, by omega⟩
    hlen1 (Mem.stringAt_of_bytes hp1 hprompt), by omega, main_prompts U other chdir unset script hstart hcode hrun⟩
  constructor
  case toLineReady =>
    refine ⟨by omega, fun o' ho' => ?_⟩
    cases hdone.prompt.symm.trans ho'
    omega
  case length =>
    rw [hdone.frame.bytes _ ⟨show sh.mem.next < m1.next by omega, by omega, by omega⟩]
    exact hbuffer
  case array => exact ⟨p, 0, hdone.prompt⟩

end Start

theorem InSession.agrees {b p : Nat} {lines : List (List UInt8)} {slots : List (List UInt8 × Ptr)} {s : State}
    {sh : Shell} (h : InSession b p lines slots s sh) : s.Agrees sh where
  values := by
    intro key src hsrc
    refine ⟨_, getenv_eq hsrc h.environ, ?_⟩
    rw [h.values]
    cases hv : Slots.lastValue (history lines) key with
    | some value =>
      obtain ⟨q, hq, c, o, hc, -, hs⟩ := h.stores key value hv
      rw [hq]
      exact ⟨c, o, hc, hs⟩
    | none =>
      rw [h.find_none hv]
      rfl
  prompt := h.promptOf
  directory := h.place

/-- A session in the built-in language: from its start the shell comes to the end in a round for each line,
prints what the interpreter prints, and is then in the interpreter's state. What is behind the `exit` has no
effect. -/
theorem session_interprets (U : Unspecified) (unset : Nat → UInt8)
    {chdir : List UInt8 → List UInt8 → Option (List UInt8)}
    {other : Nat → CommandArgument → Shell → Except Fault Shell} (hother : KeepsLines other)
    (hb : BuiltIns chdir other) (script rest : List UInt8) {sh : Shell} {p e o : Nat} {word prompt : List UInt8}
    (hsh : ShellStart p [] sh) (hprompt : sh.mem.StringAt p 0 prompt) (hs : sh.mem.StringAt e o word)
    (hword : FirstEntry word) {typed : List (List UInt8)} (htyped : ∀ l ∈ typed, Understood U l)
    (hk : keyCount ([word ++ [newline]] ++ withNewlines (assigning typed)) < environDataSize)
    (hpage : PageAligned U (sh.mem.next + 2)) :
    ∃ sh', (∀ rounds, typed.length < rounds →
        main U unset other 1 (.ofBlock e o) script (fun _ => 0)
          (ofBytes (typedText typed ++ (exitLine ++ rest))) sh rounds = .returned 1 sh' ∧
        mainText chdir U unset other (.ofBlock e o) (ofBytes (typedText typed ++ (exitLine ++ rest))) sh rounds =
          some ((State.start word prompt sh.directory).session chdir typed)) ∧
      ((State.start word prompt sh.directory).after chdir typed).Agrees sh' := by
  obtain ⟨sh1, slots, hp, h1, hle, hmain, htext⟩ :=
    main_session U other chdir unset script hsh hprompt hs hword
  obtain ⟨sh', done', slots', hloop, h'⟩ := interactiveLoop_session unset rest hother hb typed htyped hk h1 hp
    fun k hk => hpage k (by omega)
  refine ⟨sh', fun rounds hrounds => ?_, h'.agrees⟩
  obtain ⟨k, rfl⟩ : ∃ k, rounds = k + typed.length + 1 := ⟨rounds - typed.length - 1, by omega⟩
  rw [hmain, htext, skip_ofBytes, List.drop_zero]
  exact hloop k

/-- The built-ins, and nothing else. -/
def builtInsOnly (chdir : List UInt8 → List UInt8 → Option (List UInt8)) (code : Nat) (cArg : CommandArgument)
    (sh : Shell) : Except Fault Shell :=
  if code = builtInCd then executeBuiltInCd chdir cArg sh
  else if code = builtInPwd then executeBuiltInPwd cArg sh
  else if code = builtInEcho then executeBuiltInEcho cArg sh
  else .ok sh

theorem builtIns_builtInsOnly (chdir : List UInt8 → List UInt8 → Option (List UInt8)) :
    BuiltIns chdir (builtInsOnly chdir) where
  cd _ _ := rfl
  pwd _ _ := rfl
  echo _ _ := rfl

theorem spares_changeDirectory {b : Nat} {sh : Shell} (chdir : List UInt8 → List UInt8 → Option (List UInt8))
    (path : List UInt8) : Spares b sh (changeDirectory chdir path sh) := by
  unfold changeDirectory
  split
  · exact ⟨.refl _ _, rfl⟩
  · exact .refl b sh

theorem echoLoop_same {c : CommandArgument} : ∀ (n i : Nat) {sh sh' : Shell}, echoLoop c n i sh = .ok sh' →
    sh' = sh
  | 0, _, sh, sh', h => by
    cases h
    rfl
  | n + 1, i, sh, sh', h => by
    rw [echoLoop] at h
    obtain ⟨cDollar, -, h⟩ := bind_eq_ok h
    split at h
    · obtain ⟨q, -, h⟩ := bind_eq_ok h
      exact echoLoop_same n (i + 1) h
    · exact echoLoop_same n (i + 1) h

theorem keepsLines_builtInsOnly (chdir : List UInt8 → List UInt8 → Option (List UInt8)) :
    KeepsLines (builtInsOnly chdir) := by
  intro b code cArg sh sh' h _ _
  unfold builtInsOnly at h
  split at h
  · unfold executeBuiltInCd at h
    split at h
    · cases h
      exact .refl b sh
    · split at h
      · split at h
        · cases h
        · cases h
        · cases h
          exact spares_changeDirectory chdir _
      · cases h
        exact spares_changeDirectory chdir _
  · split at h
    · cases h
      exact .refl b sh
    · split at h
      · rw [echoLoop_same _ _ h]
        exact .refl b sh
      · cases h
        exact .refl b sh

theorem start_login : ShellStart 1 [] loginShell where
  block := by decide
  prompt := rfl
  promptLength := by decide
  environ := .nil

theorem firstEntry_path : FirstEntry pathEntry where
  assigns := ⟨by decide, by decide, by decide⟩
  noNul := by decide
  command := by decide
  alone := by decide

/-- A file system with the directory `/a`. -/
def onlyA (_ path : List UInt8) : Option (List UInt8) := if path = [47, 97] then some path else none

/-- `cd /a` -/
def cdA : List UInt8 := cd ++ [space, 47, 97]

/-- `echo A $A` -/
def echoA : List UInt8 := echo ++ [space, 65, space, dollarChar, 65]

/-- A variable and the directory change, and are shown; `cd a` fails. -/
def visit : List (List UInt8) := [assignOne, [], cdA, cd ++ [space, 97], echoA, pwd]

example : (State.start pathEntry initialPS1 root).session onlyA visit =
    initialPS1 ++ initialPS1 ++ initialPS1 ++ initialPS1 ++ (cdFailure ++ [newline]) ++ initialPS1 ++ [49, newline] ++
      initialPS1 ++ [47, 97, newline] ++ initialPS1 ++ exitMessage := by decide

theorem understood_builtIn {l : List UInt8} (h : newline ∉ l ∧ 0 ∉ l ++ [newline] ∧ eofChar ∉ l ∧
    pipeChar ∉ l ++ [newline] ∧ FitsBuffers (l ++ [newline]) ∧ commandWord (l ++ [newline]) ∈ [cd, pwd, echo])
    (hlength : l.length < 999)
    (hroom : (leading (l ++ [newline])).length + (trimmed (l ++ [newline])).length + 2 ≤ inputLength)
    (hshort : (trimmed (l ++ [newline])).length ≤ 16) : Understood (filled 0) l := by
  obtain ⟨hn, h0, heof, hsingle, hfits, hbuiltIn⟩ := h
  exact ⟨⟨hlength, hn, heof⟩, fun _ =>
    .inr ⟨h0, newlineLast_snoc hn, hsingle, hfits, fun _ => parsesClean_zeros hroom, hshort, hbuiltIn⟩⟩

theorem session_interprets_visit : ∃ sh', (∀ rounds, visit.length < rounds →
      main (filled 0) (fun _ => 0) (builtInsOnly onlyA) 1 (.ofBlock 0 0) [] (fun _ => 0)
        (ofBytes (typedText visit ++ (exitLine ++ []))) loginShell rounds = .returned 1 sh' ∧
      mainText onlyA (filled 0) (fun _ => 0) (builtInsOnly onlyA) (.ofBlock 0 0)
        (ofBytes (typedText visit ++ (exitLine ++ []))) loginShell rounds =
        some ((State.start pathEntry initialPS1 loginShell.directory).session onlyA visit)) ∧
    ((State.start pathEntry initialPS1 loginShell.directory).after onlyA visit).Agrees sh' := by
  have hprompt : loginShell.mem.StringAt 1 0 initialPS1 := isString_append (by decide) _
  have hentry : loginShell.mem.StringAt 0 0 pathEntry := isString_append (by decide) []
  have hvisit : ∀ l ∈ visit, Understood (filled 0) l := by
    intro l hl
    simp only [visit, List.mem_cons, List.not_mem_nil, or_false] at hl
    rcases hl with rfl | rfl | rfl | rfl | rfl | rfl
    · exact ⟨⟨by decide, by decide, by decide⟩, fun _ =>
        .inl (safeAssign_zeros assignLine_assignOne (by decide) (by decide) (by decide))⟩
    · exact ⟨⟨by decide, by decide, by decide⟩, fun h => absurd rfl h⟩
    all_goals exact understood_builtIn (by decide) (by decide) (by decide) (by decide)
  exact session_interprets (filled 0) (fun _ => 0) (keepsLines_builtInsOnly onlyA) (builtIns_builtInsOnly onlyA)
    [] [] start_login hprompt hentry firstEntry_path hvisit (by decide) (pageAligned_filled 0 _)

end Sbunix.Sbush
