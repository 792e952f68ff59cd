/-
What is done with a command (bin/sbush/sbush.c): `executeCommand` runs a built-in or hands the command to
`executeBinary`, `runPiping` hands the command of every stage to `executeBinary`. Both take what
`parseInput` made of the same text.
-/
import Sbunix.Sbush.External
import Sbunix.Sbush.Pipes
import Sbunix.Sbush.PipelineRuns

namespace Sbunix.Sbush

open BlockMemory Fallible Libc Processes Transition

/-! ## Actions -/

/-- A built-in by its code, or a binary by its name with the number and the texts of its arguments. -/
inductive Action where
  | builtIn (code : Nat)
  | binary (command : List UInt8) (argumentCount : Int) (arguments : List (List UInt8))
deriving DecidableEq, Repr

/-- `executeBinary` on a parsed command. What lies behind the array `arguments` is no argument's. -/
def binaryOf (m : Mem) (cArg : CommandArgument) : Action :=
  .binary (textAt m cArg.command) cArg.argumentCount
    ((List.range (min cArg.argumentCount.toNat maxArguments)).map fun i => textAt m (cArg.arguments i))

/-- What `executeCommand` does; a NULL command is dereferenced. -/
def commandAction (m : Mem) : Option CommandArgument → Except Fault Action
  | none => .error .null
  | some cArg => do
    let builtInCode ← getBuiltInCode m cArg
    if builtInCode ≠ 0 then
      return .builtIn builtInCode
    return binaryOf m cArg

/-- The same for a line of its own. -/
def lineAction (U : Unspecified) (m : Mem) (input : Ptr) : Except Fault Action := do
  let (cArg, m) ← parseInput U space m input
  commandAction m cArg

/-- What `executeCommand` is called for: the `switch` over the codes of the built-ins. -/
def executeBuiltIn (U : Unspecified) (other : Nat → CommandArgument → Shell → Except Fault Shell)
    (builtInCode : Nat) (cArg : CommandArgument) (sh : Shell) : Except Fault Shell :=
  if builtInCode = builtInExport then executeBuiltInExport U cArg sh
  else if builtInCode = builtInWithoutExport then executeBuiltInWithoutExport U cArg sh
  else other builtInCode cArg sh

/-- The slots of `c_Args`; a pipeline that was found valid has no NULL one. -/
def stageArg (cArgs : List (Option CommandArgument)) (k : Nat) : CommandArgument :=
  (cArgs[k]?.join).getD noCommand

/-- What a process of stage `k` comes to execute in some interleaving of the processes from `s0`, which
have the memory `m` of the shell that forked them. -/
def StageAction (K : Kernel) (s0 : PipeSystem) (m : Mem) (k : Nat) (action : Action) : Prop :=
  ∃ es s, Run (Step K) s0 es s ∧ ∃ P ∈ s, P.label = .stage k ∧
    ∃ cArg failed, P.prog = .exec cArg failed ∧ action = binaryOf m cArg

section Actions

variable {U : Unspecified} {m : Mem} {cArg : CommandArgument} {sh : Shell}
  {other : Nat → CommandArgument → Shell → Except Fault Shell}

/-- `executeCommand` does run the built-in, or comes to `executeBinary`. -/
theorem executeCommand_action {c : Option CommandArgument} {action : Action}
    (h : commandAction sh.mem c = .ok action) : ∃ cArg, c = some cArg ∧
      match action with
      | .builtIn code => code ≠ 0 ∧ executeCommand U other c sh = executeBuiltIn U other code cArg sh
      | .binary .. => action = binaryOf sh.mem cArg ∧ executeCommand U other c sh = other 0 cArg sh := by
  rcases c with _ | cArg
  · cases h
  obtain ⟨code, hcode, h⟩ := bind_eq_ok h
  refine ⟨cArg, rfl, ?_⟩
  by_cases h0 : code = 0
  · rw [if_neg (not_not.2 h0)] at h
    cases h
    exact ⟨rfl, Execution.executeCommand_external (h0 ▸ hcode)⟩
  · rw [if_pos h0] at h
    cases h
    refine ⟨h0, ?_⟩
    show (getBuiltInCode sh.mem cArg >>= _) = _
    rw [hcode]
    rfl

/-- A line without a `'|'` is executed for its action. -/
theorem parseAndExecuteCommand_action {b : Nat} {line : List UInt8} {action : Action}
    (hs : sh.mem.StringAt b 0 line) (hp : pipeChar ∉ line)
    (h : lineAction U sh.mem (.ofBlock b 0) = .ok action) : ∃ cArg m,
      commandAction m (some cArg) = .ok action ∧ parseAndExecuteCommand U other (.ofBlock b 0) sh =
        (do
          let sh ← executeCommand U other (some cArg) { sh with mem := m }
          let m ← freeCommandArgument U cArg sh.mem
          return { sh with mem := m }) := by
  obtain ⟨⟨c, m⟩, hparse, h⟩ := bind_eq_ok h
  rcases c with _ | cArg
  · cases h
  refine ⟨cArg, m, h, ?_⟩
  have hno : strchr sh.mem (.ofBlock b 0) pipeChar = .ok .null := strchr_absent hs hp
  rw [parseAndExecuteCommand, hno, ok_bind, if_neg (not_not.2 rfl), executeSingle, hparse]
  rfl

theorem textAt_of_string {p : Ptr} {s : List UInt8} (h : m.String p s) : textAt m p = s := by
  obtain ⟨k, o, rfl, hs⟩ := h
  show (m.rest k o).takeWhile _ = s
  rw [rest_eq]
  exact IsString.takeWhile hs

theorem binaryOf_eq {command : List UInt8} {arguments : List (List UInt8)}
    (hcommand : m.String cArg.command command) (hcount : cArg.argumentCount = arguments.length)
    (harguments : ∀ i (h : i < arguments.length), i < maxArguments → m.String (cArg.arguments i) arguments[i]) :
    binaryOf m cArg = .binary command arguments.length (arguments.take maxArguments) := by
  unfold binaryOf
  rw [textAt_of_string hcommand, hcount, Int.toNat_natCast]
  congr 1
  apply List.ext_getElem
  · rw [List.length_map, List.length_range, List.length_take, Nat.min_comm]
  · intro i hi hi'
    rw [List.length_take] at hi'
    rw [List.getElem_map, List.getElem_range, List.getElem_take]
    exact textAt_of_string (harguments i (by omega) (by omega))

variable {K : Kernel} {path : List UInt8} {runsFile : CommandArgument → Bool} {cArgs : Nat → CommandArgument} {n r k : Nat}
  {e0 e1 : End} {s0 : PipeSystem} {action : Action}

/-- `runPiping` makes no difference between commands. -/
theorem stageAction_iff (h : Started path runsFile cArgs n r e0 e1 s0) (hk : k < n) :
    StageAction K s0 m k action ↔ action = binaryOf m (cArgs k) := by
  have hexec : ∀ {es s P} {cArg : CommandArgument} {failed}, Run (Step K) s0 es s → P ∈ s → P.label = .stage k →
      P.prog = .exec cArg failed → cArg = cArgs k := by
    intro es s P cArg failed hrun hP hl hp
    obtain ⟨k', -, hl', hc, -⟩ := h.stagesWired hrun P hP cArg failed hp
    cases hl.symm.trans hl'
    exact hc
  constructor
  · rintro ⟨es, s, hrun, P, hP, hl, cArg, failed, hp, rfl⟩
    rw [hexec hrun hP hl hp]
  · rintro rfl
    obtain ⟨es, s, hrun, P, hP, hl, cArg, failed, hp⟩ := h.executes (K := K) hk
    exact ⟨es, s, hrun, P, hP, hl, cArg, failed, hp, by rw [hexec hrun hP hl hp]⟩

end Actions

/-! ## A stage's text as a line -/

/-- A line with a `'|'` as `fgets` delivers it, parsed into `cArgs` and found valid. -/
structure ValidPipeline (U : Unspecified) (m : Mem) (b : Nat) (line : List UInt8)
    (cArgs : List (Option CommandArgument)) (m' : Mem) : Prop where
  bytes : m.bytes b = line ++ [0]
  noNul : 0 ∉ line
  piped : pipeChar ∈ line
  newlineLast : NewlineLast line
  valid : parsePipeline U m (.ofBlock b 0) = .ok (true, cArgs, m')

/-- Whatever memory the text of stage `k` is then given in, as a line with or without its newline, the
stage's action is the line's. -/
def TreatedAlike (K : Kernel) (s0 : PipeSystem) (m : Mem) (k : Nat) (field : List UInt8) : Prop :=
  ∀ U mem b line, (line = field ∨ line = field ++ [newline]) → mem.StringAt b 0 line →
    ∀ action, StageAction K s0 m k action ↔ lineAction U mem (.ofBlock b 0) = .ok action

section Lines

variable {U : Unspecified} {m m' mem : Mem} {b k : Nat} {line field word : List UInt8}
  {args : List (List UInt8)} {c cArg : CommandArgument} {cArgs : List (Option CommandArgument)}

theorem leading_newline (field : List UInt8) : leading (field ++ [newline]) = leading field := by
  unfold leading
  rw [List.takeWhile_append]
  split
  · rw [List.takeWhile_cons_of_neg (by decide), List.append_nil]
    next h => exact ((List.takeWhile_prefix _).eq_of_length h).symm
  · rfl

theorem trimmed_newline (field : List UInt8) : trimmed (field ++ [newline]) = trimmed field := by
  have hjunk : isJunk newline = true := by decide
  unfold trimmed unindented
  rw [List.dropWhile_append]
  split
  · next h =>
    rw [List.isEmpty_iff.1 h, List.dropWhile_cons_of_neg (by decide)]
    exact List.rdropWhile_concat_pos isJunk [] newline hjunk
  · exact List.rdropWhile_concat_pos isJunk _ newline hjunk

theorem scanLine_newline (separator : UInt8) (garbage : Nat → Bool) (field : List UInt8) :
    scanLine separator garbage (field ++ [newline]) = scanLine separator garbage field := by
  rw [scanLine_eq, scanLine_eq, leading_newline, trimmed_newline]

theorem scanLine_ownLine {separator : UInt8} {garbage : Nat → Bool}
    (hown : line = field ∨ line = field ++ [newline]) :
    scanLine separator garbage line = scanLine separator garbage field := by
  rcases hown with rfl | rfl
  · rfl
  · exact scanLine_newline separator garbage field

theorem scanLine_congr {garbage garbage' : Nat → Bool} (h : [] ∉ laterWords space (trimmed field)) :
    scanLine space garbage field = scanLine space garbage' field := by
  rw [scanLine_eq, scanLine_eq, scanWords_congr h [] (by simp)]

/-- What `parseInput` made of a field is still in memory. -/
theorem ResultOf.parsed (h : ResultOf U b line m field (some c)) : ∃ n word args,
    scanLine space (garbageFrom U n) field = .parsed word args ∧ m.String c.command word ∧
      c.argumentCount = args.length ∧
      ∀ i (hi : i < args.length), i < maxArguments → args[i] ≠ [] → m.String (c.arguments i) args[i] := by
  obtain ⟨pre, post, m1, m2, -, hs, he, hkept⟩ := h
  obtain ⟨word, args, hscan, hp⟩ := parsed_of_ok hs he
  have hlt := hs.lt_next
  have hstring : ∀ {q k} {s : List UInt8}, m2.String q s → q = .ofBlock k 0 → b < k → m.String q s := by
    intro q k s hstr hq hbk
    have hs2 := stringAt_of hq hstr
    exact ⟨k, 0, hq, Mem.stringAt_of_bytes (hkept k hs2.lt_next (by omega)) hs2⟩
  refine ⟨m1.next, word, args, hscan, ?_, hp.argumentCount, fun i hi hmax hne => ?_⟩
  · exact hstring hp.command_string hp.fields.command (by omega)
  · exact hstring (hp.argument_string hi hmax hne) (hp.fields.arguments i hi hmax) (by omega)

/-- Every stage of a pipeline that was found valid has its command parsed from its field. -/
theorem ValidPipeline.stage (h : ValidPipeline U m b line cArgs m') (hk : (fields line)[k]? = some field) :
    k < cArgs.length ∧ ResultOf U b line m' field (some (stageArg cArgs k)) := by
  obtain ⟨m1, hall, hvalid⟩ := parsePipeline_ok h.bytes h.noNul h.newlineLast h.valid
  obtain ⟨rfl, hnone⟩ := isValidate_ok (fun c hc => by
    obtain ⟨field, -, hr⟩ := exists_field hall hc
    obtain ⟨n, word, args, -, hstr, -⟩ := hr.parsed
    exact ⟨word, hstr⟩) hvalid
  have hk' : k < (fields line).length := (List.getElem?_eq_some_iff.1 hk).1
  have hlt : k < cArgs.length := hall.length_eq ▸ hk'
  have hr : ResultOf U b line m' field cArgs[k] := (List.getElem?_eq_some_iff.1 hk).2 ▸ hall.get hk' hlt
  refine ⟨hlt, ?_⟩
  rcases hc : cArgs[k] with _ | c
  · exact absurd (hc ▸ List.getElem_mem hlt) (hnone rfl)
  · have hget : stageArg cArgs k = c := by
      rw [stageArg, List.getElem?_eq_getElem hlt, hc]
      rfl
    rwa [hget, ← hc]

/-- The fields of a line have a newline at their end only. -/
theorem ResultOf.newlineLast {r : Option CommandArgument} (h : ResultOf U b line m field r)
    (hn : NewlineLast line) : NewlineLast field := by
  obtain ⟨pre, post, -, -, rfl, -⟩ := h
  rintro a d rfl
  have := hn (pre ++ a) (d ++ post) (by simp)
  exact (List.append_eq_nil_iff.1 this).1

/-- A text whose words are not empty and name a binary, on a line of its own. -/
theorem lineAction_binary {n : Nat} (hown : line = field ∨ line = field ++ [newline])
    (hs : mem.StringAt b 0 line) (hn : NewlineLast field)
    (hscan : scanLine space (garbageFrom U n) field = .parsed word args)
    (hword : ¬ BuiltInWord word) (hwords : [] ∉ laterWords space (trimmed field)) (V : Unspecified) :
    lineAction V mem (.ofBlock b 0) = .ok (.binary word args.length (args.take maxArguments)) := by
  have hscan' : scanLine space (garbageFrom V mem.next) line = .parsed word args := by
    rw [scanLine_ownLine hown, scanLine_congr hwords, hscan]
  obtain ⟨rfl, rfl⟩ := scanLine_parsed hscan
  have hm := parseInput_meets V space hs
  rw [hscan'] at hm
  obtain ⟨c, m', he, hp⟩ := hm
  rw [Nat.cast_zero] at he
  have hcommand := stringAt_of (i := 0) hp.fields.command hp.command_string
  have hcode := (getBuiltInCode_zero_iff hcommand hp.fields.command
    fun hmem => hn.trimmed (mem_of_firstWord _ hmem)).2 hword
  rw [placed_of_noEmpty hwords] at hp ⊢
  rw [lineAction, he]
  show (getBuiltInCode m' c >>= _) = _
  rw [hcode, ← binaryOf_eq hp.command_string hp.argumentCount fun i hi hmax =>
    hp.argument_string hi hmax (ne_nil_of_nonempty hi)]
  rfl

/-- What a line's action says about the line. -/
theorem lineAction_ok {command : List UInt8} {count : Int} {arguments : List (List UInt8)}
    (hs : m.StringAt b 0 field) (hn : NewlineLast field)
    (h : lineAction U m (.ofBlock b 0) = .ok (.binary command count arguments)) :
    ¬ BuiltInWord (firstWord space (trimmed field)) ∧
      count = (placed (garbageFrom U m.next) (laterWords space (trimmed field))).length := by
  obtain ⟨⟨r, m'⟩, he, h⟩ := bind_eq_ok h
  rcases r with _ | c
  · cases h
  obtain ⟨word, args, hscan, hp⟩ := parsed_of_ok hs he
  obtain ⟨rfl, rfl⟩ := scanLine_parsed hscan
  obtain ⟨code, hcode, h⟩ := bind_eq_ok h
  by_cases h0 : code = 0
  · rw [if_neg (not_not.2 h0)] at h
    cases h
    have hcommand := stringAt_of (i := 0) hp.fields.command hp.command_string
    exact ⟨(getBuiltInCode_zero_iff hcommand hp.fields.command
      fun hmem => hn.trimmed (mem_of_firstWord _ hmem)).1 (h0 ▸ hcode), hp.argumentCount⟩
  · rw [if_pos h0] at h
    cases h

/-- If NULs and other bytes in fresh memory make no difference, no word is empty. -/
theorem noEmpty_of_placed {words : List (List UInt8)} {n n' : Nat} (hlast : words.getLast? ≠ some [])
    (h : (placed (garbageFrom (filled 0) n) words).length = (placed (garbageFrom (filled 64) n') words).length) :
    [] ∉ words := by
  have hreuses : ReusesEmpty (garbageFrom (filled 0) n) words := fun pre post _ => rfl
  rw [placed_of_reuses hreuses, if_neg hlast, List.append_nil] at h
  have hnone := nonempty_placed (garbageFrom (filled 64) n') words
  have hall : placed (garbageFrom (filled 64) n') words = nonempty words := by
    rw [← hnone] at h ⊢
    exact ((List.filter_sublist).eq_of_length h).symm
  intro hmem
  obtain ⟨pre, post, rfl⟩ := List.append_of_mem hmem
  exact Bool.noConfusion (reuses_of_placed hlast hall pre post rfl)

end Lines

section Stages

variable {U : Unspecified} {m m' : Mem} {b r k : Nat} {line field : List UInt8}
  {cArgs : List (Option CommandArgument)} {path : List UInt8} {runsFile : CommandArgument → Bool} {e0 e1 : End} {s0 : PipeSystem}

theorem ResultOf.noNul {r : Option CommandArgument} (h : ResultOf U b line m field r) : 0 ∉ field := by
  obtain ⟨pre, post, m1, m2, -, hs, -⟩ := h
  exact hs.noNul

/-- A stage's action is one that its line can have only if the line is no built-in's and fresh memory
makes no difference to it. -/
theorem words_of_treatedAlike {K : Kernel} {cArg : CommandArgument} (h0 : 0 ∉ field) (hn : NewlineLast field)
    (hstage : StageAction K s0 m k (binaryOf m cArg)) (h : TreatedAlike K s0 m k field) :
    ¬ BuiltInWord (firstWord space (trimmed field)) ∧ [] ∉ laterWords space (trimmed field) := by
  have hline : ∀ v, lineAction (filled v) (lineMem field) (.ofBlock 0 0) = .ok (binaryOf m cArg) := fun v =>
    (h (filled v) (lineMem field) 0 field (.inl rfl) (lineMem_string h0) _).1 hstage
  obtain ⟨hword, hzero⟩ := lineAction_ok (lineMem_string h0) hn (hline 0)
  obtain ⟨-, hother⟩ := lineAction_ok (lineMem_string h0) hn (hline 64)
  exact ⟨hword, noEmpty_of_placed trimmed_last (Int.ofNat_inj.1 (hzero.symm.trans hother))⟩

/-- In a pipeline that was found valid, a stage is treated like its text on a line of its own exactly if
its command is no built-in and no assignment, and no two separators follow each other between its words. -/
theorem stage_treatedAlike_iff (K : Kernel) (h : ValidPipeline U m b line cArgs m')
    (hstart : Started path runsFile (stageArg cArgs) cArgs.length r e0 e1 s0)
    (hk : (fields line)[k]? = some field) : TreatedAlike K s0 m' k field ↔
      ¬ BuiltInWord (firstWord space (trimmed field)) ∧ [] ∉ laterWords space (trimmed field) := by
  obtain ⟨hlt, hresult⟩ := h.stage hk
  have hn := hresult.newlineLast h.newlineLast
  constructor
  · exact words_of_treatedAlike hresult.noNul hn ((stageAction_iff hstart hlt).2 rfl)
  · rintro ⟨hword, hwords⟩ V mem b' own hown hs action
    obtain ⟨n, word, args, hscan, hcommand, hcount, harguments⟩ := hresult.parsed
    obtain ⟨rfl, hargs⟩ := scanLine_parsed hscan
    rw [placed_of_noEmpty hwords] at hargs
    subst hargs
    rw [stageAction_iff hstart hlt, lineAction_binary hown hs hn hscan hword hwords V, Except.ok.injEq,
      binaryOf_eq hcommand hcount fun i hi hmax => harguments i hi hmax (ne_nil_of_nonempty hi)]
    exact eq_comm

/-- Lines whose fields all have a command and few words are found valid. -/
theorem validPipeline_of (h : PipeLine line)
    (hcommand : ∀ field ∈ fields line, firstWord space (trimmed field) ≠ [])
    (hfew : ∀ field ∈ fields line, (laterWords space (trimmed field)).length ≤ maxArguments + 1) :
    ∃ cArgs m', ValidPipeline U (lineMem line) 0 line cArgs m' := by
  have hb : (lineMem line).bytes 0 = line ++ [0] := rfl
  obtain ⟨-, m1, cArgs, hentries, hstarts⟩ := pipeline_entries (U := U) h hb
  obtain ⟨p, cArgs', m', -, -, hvalid⟩ := hstarts.2 ⟨fun r hr => by
    obtain ⟨field, hfield, he⟩ := exists_field hentries hr
    exact he.few (hfew field hfield), fun field hfield => mt firstWord_eq_nil_iff.2 (hcommand field hfield)⟩
  exact ⟨cArgs', m', hb, h.noNul, h.piped, h.newlineLast, hvalid⟩

end Stages

/-- The pipeline `a|x`. -/
theorem treatedAlike_ax : ∃ cArgs m', ValidPipeline (filled 0) (lineMem [97, 124, 120]) 0 [97, 124, 120] cArgs m' ∧
    TreatedAlike lowestKernel (loneRunner (stageArg cArgs) cArgs.length) m' 1 [120] := by
  obtain ⟨cArgs, m', h⟩ := validPipeline_of (U := filled 0) (show PipeLine [97, 124, 120] from
    pipeLine_of (by decide)) (by decide) (by decide)
  exact ⟨cArgs, m', h, (stage_treatedAlike_iff lowestKernel h (started_loneRunner _ _) rfl).2 (by decide)⟩

/-- `cd|x` -/
def cdPipeline : List UInt8 := cd ++ [pipeChar, 120]

/-- The pipeline looks for a binary `cd`, the line changes the directory. -/
theorem cd_stage_execs : ∃ cArgs m', ValidPipeline (filled 0) (lineMem cdPipeline) 0 cdPipeline cArgs m' ∧
    ¬ TreatedAlike lowestKernel (loneRunner (stageArg cArgs) cArgs.length) m' 0 cd := by
  obtain ⟨cArgs, m', h⟩ := validPipeline_of (U := filled 0) (show PipeLine cdPipeline from
    pipeLine_of (by decide)) (by decide) (by decide)
  obtain ⟨hlt, hresult⟩ := h.stage (show (fields cdPipeline)[0]? = some cd by decide)
  refine ⟨cArgs, m', h, fun halike => ?_⟩
  have hn := hresult.newlineLast h.newlineLast
  have hstage := (stageAction_iff (K := lowestKernel) (m := m') (started_loneRunner (stageArg cArgs) _) hlt).2 rfl
  exact (words_of_treatedAlike hresult.noNul hn hstage halike).1 (by decide)

end Sbunix.Sbush
