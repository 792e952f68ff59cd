/-
Handing a command to `execvpe` (bin/sbush/sbush.c): the vectors that `setExecutionArguments` fills in
arrays of its callers, and the path it puts before the command, in the buffer that the parser made for
the command alone.

The loop over the arguments makes one round too many, and the terminator comes behind it.
-/
import Sbunix.Sbush.Script

namespace Sbunix.Sbush.Execution

open BlockMemory Fallible Libc

/-! ## Vectors -/

/-- An array of pointers of a function: how many slots it has, what is in them, and which were stored,
the last one first. Nothing stops a store behind the last slot. -/
structure PtrArray where
  size : Nat
  slots : Nat → Ptr
  stored : List Nat

/-- `char *array[size];` -/
def PtrArray.reserve (size : Nat) : PtrArray := ⟨size, fun _ => .wild, []⟩

def PtrArray.store (array : PtrArray) (i : Nat) (p : Ptr) : PtrArray :=
  { array with slots := Function.update array.slots i p, stored := i :: array.stored }

/-- The vectors for `execvpe`, and which slots of `arguments` were copied. -/
structure Vectors where
  envp : PtrArray
  argv : PtrArray
  copied : List Nat

/-- What `execvpe` is called with in the child, and whether the shell waits for the child. -/
structure Execvpe where
  file : Ptr
  vectors : Vectors
  mem : Mem
  waited : Bool

/-! ## The functions -/

/-- `"rootfs/bin/sbush"` -/
def sbushFile : List UInt8 := sbushLine.drop shebang.length

/-- `"rootfs/bin/cat"` -/
def catFile : List UInt8 := [114, 111, 111, 116, 102, 115, 47, 98, 105, 110, 47, 99, 97, 116]

def sizeofBuf : Nat := 100

section Execute

variable (U : Unspecified)

/-- `argv[index + 1] = arguments[index];` from slot `index` on, for so many rounds. -/
def copyArguments (cArg : CommandArgument) : Nat → Nat → Vectors → Nat × Vectors
  | 0, index, v => (index, v)
  | rounds + 1, index, v =>
    copyArguments cArg rounds (index + 1)
      { v with argv := v.argv.store (index + 1) (cArg.arguments index), copied := index :: v.copied }

/-- `envp` and `argv`, up to the terminator of `argv`. -/
def fillVectors (path : Ptr) (cArg : CommandArgument) (v : Vectors) : Vectors :=
  let v := { v with envp := (v.envp.store 0 path).store 1 .null, argv := v.argv.store 0 cArg.command }
  let (index, v) := copyArguments cArg (cArg.argumentCount + 1).toNat 0 v
  { v with argv := v.argv.store (index + 1) .null }

/-- `char buf[100]; memset(buf, '\0', 100); memcpy(buf, command, strlen(command));` -/
def saveCommand (command : Ptr) (m : Mem) : Except Fault (Ptr × Mem) := do
  let (buf, m) := alloc U m sizeofBuf
  let m ← memset m buf 0 sizeofBuf
  let (len, m) ← strlen U m command
  let (_, m) ← memcpy U m buf command len
  return (buf, m)

/-- `memcpy(command, path, strlen(path));` -/
def storePath (command path : Ptr) (m : Mem) : Except Fault Mem := do
  let (len, m) ← strlen U m path
  let (_, m) ← memcpy U m command path len
  return m

/-- `memcpy(command + strlen(path), buf, strlen(buf));` -/
def restoreCommand (command path buf : Ptr) (m : Mem) : Except Fault Mem := do
  let (len, m) ← strlen U m path
  let (bufLen, m) ← strlen U m buf
  let (_, m) ← memcpy U m (command.add len) buf bufLen
  return m

/-- `*(command + strlen(command)) = '\0';` -/
def terminate (command : Ptr) (m : Mem) : Except Fault Mem := do
  let (len, m) ← strlen U m command
  store m (command.add len) 0

def putPath (command path : Ptr) (m : Mem) : Except Fault Mem := do
  let (buf, m) ← saveCommand U command m
  let m ← storePath U command path m
  let m ← restoreCommand U command path buf m
  terminate U command m

variable (executeFile : Ptr → Shell → Except Fault (List Call × Shell))

/-- What `executeFile` calls is handed on. -/
def setExecutionArguments (v : Vectors) (cArg : CommandArgument) (sh : Shell) :
    Except Fault (Vectors × List Call × Shell) := do
  let path ← getenv sh.mem (.literal pathWord) sh.environ
  let v := fillVectors path cArg v
  let isSbush ← strcmp sh.mem (.pointer cArg.command) (.literal sbushFile)
  let isCat ← strcmp sh.mem (.pointer cArg.command) (.literal catFile)
  if isSbush ≠ 0 ∧ isCat ≠ 0 then
    let m ← putPath U cArg.command path sh.mem
    return (v, [], { sh with mem := m })
  else
    let (calls, sh) ← executeFile (cArg.arguments 0) sh
    return (v, calls, sh)

/-- The arrays of the callers. -/
def reserveVectors (cArg : CommandArgument) : Vectors where
  envp := .reserve 2
  argv := .reserve (cArg.argumentCount + 2).toNat
  copied := []

def executeBinaryInBackGround (cArg : CommandArgument) (sh : Shell) :
    Except Fault (Execvpe × List Call × Shell) := do
  let (vectors, calls, sh) ← setExecutionArguments U executeFile (reserveVectors cArg) cArg sh
  return ({ file := cArg.command, vectors, mem := sh.mem, waited := false }, calls, sh)

def executeBinaryInteractively (cArg : CommandArgument) (sh : Shell) :
    Except Fault (Execvpe × List Call × Shell) := do
  let (vectors, calls, sh) ← setExecutionArguments U executeFile (reserveVectors cArg) cArg sh
  return ({ file := vectors.argv.slots 0, vectors, mem := sh.mem, waited := true }, calls, sh)

def executeBinary (cArg : CommandArgument) (sh : Shell) : Except Fault (Execvpe × List Call × Shell) :=
  if cArg.isBackground ≠ 0 then executeBinaryInBackGround U executeFile cArg sh
  else executeBinaryInteractively U executeFile cArg sh

end Execute

/-! ## The argument vector -/

/-- The vector is the command, its arguments and NULL, and both arrays are used in their bounds. -/
structure ArgvRight (cArg : CommandArgument) (call : Execvpe) : Prop where
  argv : ∀ i : Nat, (i : Int) < cArg.argumentCount + 2 → call.vectors.argv.slots i =
    if i = 0 then cArg.command else if (i : Int) ≤ cArg.argumentCount then cArg.arguments (i - 1) else .null
  stored : ∀ i ∈ call.vectors.argv.stored, (i : Int) < cArg.argumentCount + 2
  copied : ∀ i ∈ call.vectors.copied, (i : Int) < cArg.argumentCount

/-- The call of `execvpe` is reached, with the right vector. -/
def PassesArgv (cArg : CommandArgument) (result : Except Fault (Execvpe × List Call × Shell)) : Prop :=
  ∃ call calls sh, result = .ok (call, calls, sh) ∧ ArgvRight cArg call

section Argv

variable {U : Unspecified} {executeFile : Ptr → Shell → Except Fault (List Call × Shell)}
  {cArg : CommandArgument} {sh sh' : Shell} {calls : List Call} {call : Execvpe} {v v' : Vectors}

/-- By induction on the rounds. -/
theorem copyArguments_eq : ∀ (rounds index : Nat) (v : Vectors),
    (copyArguments cArg rounds index v).1 = index + rounds ∧
    (∀ i, (copyArguments cArg rounds index v).2.argv.slots i =
      if index < i ∧ i ≤ index + rounds then cArg.arguments (i - 1) else v.argv.slots i) ∧
    (∀ i, i ∈ (copyArguments cArg rounds index v).2.argv.stored ↔
      (index < i ∧ i ≤ index + rounds) ∨ i ∈ v.argv.stored) ∧
    (∀ i, i ∈ (copyArguments cArg rounds index v).2.copied ↔
      (index ≤ i ∧ i < index + rounds) ∨ i ∈ v.copied)
  | 0, index, v => by
    refine ⟨rfl, fun i => ?_, fun i => ?_, fun i => ?_⟩
    · exact (if_neg (by omega)).symm
    · exact (or_iff_right (by omega)).symm
    · exact (or_iff_right (by omega)).symm
  | rounds + 1, index, v => by
    obtain ⟨h1, h2, h3, h4⟩ := copyArguments_eq rounds (index + 1)
      { v with argv := v.argv.store (index + 1) (cArg.arguments index), copied := index :: v.copied }
    rw [copyArguments]
    refine ⟨h1.trans (by omega), fun i => ?_, fun i => ?_, fun i => ?_⟩
    · rw [h2]
      dsimp only [PtrArray.store]
      rw [Function.update_apply]
      by_cases hi : i = index + 1
      · rw [if_neg (by omega), if_pos hi, if_pos (by omega), hi, Nat.add_sub_cancel]
      · rw [if_neg hi]
        exact if_congr (by omega) rfl rfl
    · rw [h3]
      dsimp only [PtrArray.store]
      rw [List.mem_cons, ← or_assoc]
      exact or_congr_left (by omega)
    · rw [h4]
      dsimp only
      rw [List.mem_cons, ← or_assoc]
      exact or_congr_left (by omega)

/-- Behind the arguments comes the slot after the last one, and NULL in the slot after that. -/
theorem fillVectors_eq {n : Nat} (hn : (cArg.argumentCount + 1).toNat = n) (path : Ptr) (v : Vectors) :
    (∀ i, (fillVectors path cArg v).argv.slots i = if i = n + 1 then .null else if i = 0 then cArg.command
      else if i ≤ n then cArg.arguments (i - 1) else v.argv.slots i) ∧
    (∀ i, i ∈ (fillVectors path cArg v).argv.stored ↔ i ≤ n + 1 ∨ i ∈ v.argv.stored) ∧
    (∀ i, i ∈ (fillVectors path cArg v).copied ↔ i < n ∨ i ∈ v.copied) := by
  obtain ⟨v1, hv1⟩ : ∃ v1 : Vectors, v1 =
    { v with envp := (v.envp.store 0 path).store 1 .null, argv := v.argv.store 0 cArg.command } := ⟨_, rfl⟩
  obtain ⟨h1, h2, h3, h4⟩ := @copyArguments_eq cArg n 0 v1
  unfold fillVectors
  dsimp only
  rw [← hv1, hn, h1, Nat.zero_add]
  dsimp only [PtrArray.store]
  refine ⟨fun i => ?_, fun i => ?_, fun i => ?_⟩
  · rw [Function.update_apply, h2, hv1]
    dsimp only [PtrArray.store]
    rw [Function.update_apply]
    split_ifs <;> first | rfl | omega
  · rw [List.mem_cons, h3, hv1]
    dsimp only [PtrArray.store]
    rw [List.mem_cons, ← or_assoc, ← or_assoc]
    exact or_congr_left (by omega)
  · rw [h4, hv1]
    dsimp only
    exact or_congr_left (by omega)

theorem setExecutionArguments_vectors (h : setExecutionArguments U executeFile v cArg sh = .ok (v', calls, sh')) :
    ∃ path, v' = fillVectors path cArg v := by
  unfold setExecutionArguments at h
  obtain ⟨path, -, h⟩ := bind_eq_ok h
  obtain ⟨isSbush, -, h⟩ := bind_eq_ok h
  obtain ⟨isCat, -, h⟩ := bind_eq_ok h
  refine ⟨path, ?_⟩
  split at h
  · obtain ⟨m, -, h⟩ := bind_eq_ok h
    cases h
    rfl
  · obtain ⟨⟨calls', sh1⟩, -, h⟩ := bind_eq_ok h
    cases h
    rfl

/-- NULL is stored behind the last slot, for every number of arguments. -/
theorem not_argvRight (h : setExecutionArguments U executeFile (reserveVectors cArg) cArg sh =
    .ok (call.vectors, calls, sh')) : ¬ ArgvRight cArg call := by
  intro hright
  obtain ⟨path, hv⟩ := setExecutionArguments_vectors h
  obtain ⟨-, hstored, -⟩ := @fillVectors_eq cArg _ rfl path (reserveVectors cArg)
  rw [← hv] at hstored
  have hlast := hright.stored _ ((hstored ((cArg.argumentCount + 1).toNat + 1)).2 (.inl (Nat.le_refl _)))
  omega

theorem not_passesArgv_background : ¬ PassesArgv cArg (executeBinaryInBackGround U executeFile cArg sh) := by
  rintro ⟨call, calls, sh', h, hright⟩
  obtain ⟨⟨v', calls', sh1⟩, h1, h⟩ := bind_eq_ok h
  cases h
  exact not_argvRight h1 hright

theorem not_passesArgv_interactive : ¬ PassesArgv cArg (executeBinaryInteractively U executeFile cArg sh) := by
  rintro ⟨call, calls, sh', h, hright⟩
  obtain ⟨⟨v', calls', sh1⟩, h1, h⟩ := bind_eq_ok h
  cases h
  exact not_argvRight h1 hright

/-- Neither caller passes the right vector, whatever the command is and whatever `executeFile` does. -/
theorem argv_never_right (U : Unspecified) (executeFile : Ptr → Shell → Except Fault (List Call × Shell))
    (cArg : CommandArgument) (sh : Shell) :
    ¬ PassesArgv cArg (executeBinaryInBackGround U executeFile cArg sh) ∧
      ¬ PassesArgv cArg (executeBinaryInteractively U executeFile cArg sh) :=
  ⟨not_passesArgv_background, not_passesArgv_interactive⟩

/-- `ls`, without arguments: two slots are reserved, and NULL is stored in the third. -/
theorem ls_argv_overruns : ∃ cArg m, parseInput (filled 0) space (lineMem [108, 115]) (.ofBlock 0 0) =
    .ok (some cArg, m) ∧ cArg.argumentCount = 0 ∧ ∀ executeFile sh,
      ¬ PassesArgv cArg (executeBinaryInteractively (filled 0) executeFile cArg sh) := by
  have hline : (lineMem [108, 115]).StringAt 0 0 [108, 115] := lineMem_string (by decide)
  obtain ⟨c, m, he, hp⟩ := parseInput_zeros hline (by decide)
  exact ⟨c, m, he, hp.argumentCount, fun _ _ => not_passesArgv_interactive⟩

end Argv

/-! ## The path -/

/-- What `getenv` answers for a variable with this value, or for one that is not set. -/
def ValueAt (m : Mem) (p : Ptr) (value : List UInt8) : Prop := (p = .null ∧ value = []) ∨ m.String p value

/-- The call of `execvpe` is reached, its file is `file`, and of the blocks from before only the
command's has been stored to. -/
def PassesFile (cArg : CommandArgument) (sh : Shell) (file : List UInt8)
    (result : Except Fault (Execvpe × List Call × Shell)) : Prop :=
  ∃ call calls sh', result = .ok (call, calls, sh') ∧ call.mem.String call.file file ∧
    ∀ k < sh.mem.next, Outside k cArg.command → Keeps k sh.mem sh'.mem

section Path

variable {U : Unspecified} {m m' : Mem} {b k n : Nat} {p : Ptr} {l s word value : List UInt8}

theorem ValueAt.noNul (h : ValueAt m p value) : 0 ∉ value := by
  rcases h with ⟨-, rfl⟩ | ⟨b, o, -, h⟩
  · exact List.not_mem_nil
  · exact h.noNul

theorem ValueAt.keeps (h : ValueAt m p value) (hk : ∀ b < m.next, ¬ Outside b p → Keeps b m m') :
    ValueAt m' p value := by
  rcases h with h | ⟨b, o, rfl, h⟩
  · exact .inl h
  · refine .inr ⟨b, o, rfl, Mem.stringAt_of_bytes (hk b h.lt_next fun hout => hout _ rfl).bytes h⟩

theorem strlen_value (h : ValueAt m p value) : strlen U m p = .ok (value.length, m) := by
  rcases h with ⟨rfl, rfl⟩ | ⟨b, o, rfl, h⟩
  · rfl
  · exact strlen_string h

/-- Nothing is copied from NULL. -/
theorem memcpy_value {e : Nat} (h : ValueAt m p value) (hk : k < m.next) (hout : Outside k p)
    (hl : value.length < 2 ^ 31) (hfit : e + value.length ≤ (m.bytes k).length) :
    ∃ r, memcpy U m (.ofBlock k e) p value.length =
      .ok (r, m.setBytes k (overwrite (m.bytes k) e value)) := by
  rcases h with ⟨rfl, rfl⟩ | ⟨b, o, rfl, h⟩
  · rw [overwrite_nil, setBytes_bytes hk]
    exact ⟨_, rfl⟩
  · have hne : k ≠ b := fun he => hout o (by rw [he])
    exact ⟨_, memcpy_eq hl hne hk ((List.prefix_append value [0]).trans h.isPrefix) hfit⟩

/-- A string and the zeros behind it, overwritten by a longer one. -/
theorem overwrite_padded (word s : List UInt8) (h : word.length ≤ s.length) (hn : s.length ≤ n) :
    overwrite (word ++ List.replicate (n - word.length) 0) 0 s = s ++ List.replicate (n - s.length) 0 := by
  rw [overwrite, List.take_zero, List.nil_append, Nat.zero_add, List.drop_append,
    List.drop_eq_nil_of_le h, List.nil_append, List.drop_replicate]
  congr 2
  omega

theorem isString_padded (h : 0 ∉ s) (hn : s.length < n) :
    IsString (s ++ List.replicate (n - s.length) 0) s := by
  rw [show n - s.length = n - s.length - 1 + 1 by omega, List.replicate_succ]
  exact isString_append h _

/-- The path, the command, and what is left of the zeros. -/
theorem overwrite_twice (h : value.length + word.length ≤ n) :
    overwrite (overwrite (word ++ List.replicate (n - word.length) 0) 0 value) value.length word =
      value ++ word ++ List.replicate (n - (value ++ word).length) 0 := by
  have happend : overwrite (overwrite (word ++ List.replicate (n - word.length) 0) 0 value)
      (0 + value.length) word = overwrite (word ++ List.replicate (n - word.length) 0) 0 (value ++ word) := by
    apply overwrite_append
    rw [List.length_append, List.length_replicate]
    omega
  rw [Nat.zero_add] at happend
  rw [happend, overwrite_padded] <;> rw [List.length_append] <;> omega

theorem saveCommand_eq (hs : m.StringAt k 0 word) (hfit : word.length < sizeofBuf) :
    ∃ m', saveCommand U (.ofBlock k 0) m = .ok (.ofBlock m.next 0, m') ∧ Frame (· < m.next) m m' ∧
      m'.next = m.next + 1 ∧ m'.StringAt m.next 0 word := by
  obtain ⟨m1, e1, f1, n1, b1, -⟩ := memset_new (Frame.alloc (U := U) (n := sizeofBuf) (Nat.lt_irrefl m.next)) next_alloc
    (by rw [bytes_alloc_self, length_freshBlock]) (by decide)
  have hk := hs.lt_next
  have hsmall : sizeofBuf < 2 ^ 31 := by decide
  have hs1 := hs.frame f1 hk
  have hcopy := memcpy_eq (U := U) (d := m.next) (e := 0) (w := word) (by omega) (Ne.symm (Nat.ne_of_lt hk))
    (by omega) ((List.prefix_append word [0]).trans hs1.isPrefix) (by rw [b1, List.length_replicate]; omega)
  have hsaved : overwrite (m1.bytes m.next) 0 word = word ++ List.replicate (sizeofBuf - word.length) 0 := by
    rw [b1]
    exact overwrite_padded [] word (Nat.zero_le _) (Nat.le_of_lt hfit)
  rw [hsaved] at hcopy
  refine ⟨_, ?_, f1.trans (.setBytes (b := m.next) (by simp) (word ++ List.replicate (sizeofBuf - word.length) 0)), ?_, ?_⟩
  · unfold saveCommand
    rw [show alloc U m sizeofBuf = (.ofBlock m.next 0, (alloc U m sizeofBuf).2) from rfl]
    dsimp only
    rw [e1, ok_bind, strlen_start hs1, ok_bind]
    dsimp only
    rw [show memcpy U m1 (.ofBlock m.next 0) (.ofBlock k 0) word.length = _ from hcopy]
    rfl
  · rw [Mem.next_setBytes, n1]
  · exact Mem.stringAt_of_bytes (Mem.bytes_setBytes_self (by omega)) (isString_padded hs.noNul hfit)

theorem storePath_eq (h : ValueAt m p value) (hk : k < m.next) (hout : Outside k p)
    (hl : value.length < 2 ^ 31) (hfit : value.length ≤ (m.bytes k).length) :
    ∃ m', storePath U (.ofBlock k 0) p m = .ok m' ∧ Frame (· ≠ k) m m' ∧ k < m'.next ∧
      m'.bytes k = overwrite (m.bytes k) 0 value ∧ ValueAt m' p value := by
  obtain ⟨r, hcopy⟩ := memcpy_value (U := U) (e := 0) h hk hout hl (by omega)
  have hf : Frame (· ≠ k) m (m.setBytes k (overwrite (m.bytes k) 0 value)) := .setBytes (fun h => h rfl) _
  refine ⟨_, ?_, hf, by rwa [Mem.next_setBytes], Mem.bytes_setBytes_self hk, ?_⟩
  · unfold storePath
    rw [strlen_value h, ok_bind]
    dsimp only
    rw [show memcpy U m (.ofBlock k 0) p value.length = _ from hcopy]
    rfl
  · exact h.keeps fun c _ hc => .of_frame hf fun he => hc (he ▸ hout)

theorem restoreCommand_eq (h : ValueAt m p value) (hs : m.StringAt b 0 word) (hk : k < m.next) (hb : k ≠ b)
    (hl : word.length < 2 ^ 31) (hfit : value.length + word.length ≤ (m.bytes k).length) :
    restoreCommand U (.ofBlock k 0) p (.ofBlock b 0) m =
      .ok (m.setBytes k (overwrite (m.bytes k) value.length word)) := by
  have hcopy := memcpy_eq (U := U) (d := k) (e := value.length) (w := word) hl hb hk
    ((List.prefix_append word [0]).trans hs.isPrefix) hfit
  unfold restoreCommand
  rw [strlen_value h, ok_bind]
  dsimp only
  rw [strlen_start hs, ok_bind]
  dsimp only
  rw [show (Ptr.ofBlock k 0).add value.length = .ofBlock k value.length by simp [Ptr.add],
    show memcpy U m (.ofBlock k value.length) (.ofBlock b 0) word.length = _ from hcopy]
  rfl

theorem terminate_eq (hs : m.StringAt k 0 s) : terminate U (.ofBlock k 0) m = .ok m := by
  have hin := hs.inside (i := s.length) (by omega) (Int.le_refl _)
  obtain ⟨r, hr⟩ := hs.eq_append
  rw [List.drop_zero] at hr
  unfold terminate
  rw [strlen_start hs, ok_bind]
  show store m (.ofBlock k (0 + s.length)) 0 = _
  rw [store_inside (by simpa using hin), hr, show ((0 : Int) + s.length).toNat = s.length by omega,
    List.set_append_right _ _ (Nat.le_refl _), Nat.sub_self, List.set_cons_zero, ← hr, setBytes_bytes hs.lt_next]

/-- The buffer holds the command and zeros; what is stored there leaves a zero at the end. -/
theorem putPath_eq (hb : m.bytes k = word ++ List.replicate (commandLength - word.length) 0)
    (hk : k < m.next) (h0 : 0 ∉ word) (hp : ValueAt m p value) (hout : Outside k p)
    (hfit : value.length + word.length < commandLength) :
    ∃ m', putPath U (.ofBlock k 0) p m = .ok m' ∧ Frame (fun c => c < m.next ∧ c ≠ k) m m' ∧
      m'.StringAt k 0 (value ++ word) := by
  have hsmall : commandLength < 2 ^ 31 := by decide
  have hbuf : word.length < sizeofBuf := by unfold commandLength at hfit; unfold sizeofBuf; omega
  have hlen : (m.bytes k).length = commandLength := by
    rw [hb, List.length_append, List.length_replicate]
    omega
  have hword : m.StringAt k 0 word := Mem.stringAt_of_bytes hb (isString_padded h0 (by omega))
  obtain ⟨m1, e1, f1, n1, hs1⟩ := saveCommand_eq (U := U) hword hbuf
  have hk1 : k < m1.next := by omega
  have b1 : m1.bytes k = m.bytes k := f1.bytes k hk
  have hp1 : ValueAt m1 p value := hp.keeps fun c hc _ => .of_frame f1 hc
  obtain ⟨m2, e2, f2, hk2, b2, hp2⟩ := storePath_eq (U := U) hp1 hk1 hout (by omega) (by rw [b1]; omega)
  rw [b1] at b2
  have e3 := restoreCommand_eq (U := U) hp2 (hs1.frame f2 (by omega)) hk2 (Nat.ne_of_lt hk) (by omega)
    (by rw [b2, length_overwrite] <;> omega)
  rw [b2, hb, overwrite_twice (by omega)] at e3
  have hnul : 0 ∉ value ++ word := by
    rw [List.mem_append, not_or]
    exact ⟨hp.noNul, h0⟩
  have hs3 := Mem.stringAt_of_bytes (o := 0) (Mem.bytes_setBytes_self hk2)
    (isString_padded hnul (n := commandLength) (by rw [List.length_append]; omega))
  refine ⟨_, ?_, ?_, hs3⟩
  · unfold putPath
    rw [e1, ok_bind]
    dsimp only
    rw [e2, ok_bind, e3, ok_bind, terminate_eq hs3]
  · exact ((f1.mono fun c hc => hc.1).trans (f2.mono fun c hc => hc.2)).trans (.setBytes (fun h => h.2 rfl) _)

variable {executeFile : Ptr → Shell → Except Fault (List Call × Shell)} {cArg : CommandArgument} {sh : Shell}
  {result : Except Fault (Execvpe × List Call × Shell)}

theorem putPath_lengths (h : putPath U (.ofBlock k 0) p m = .ok m') : SameLengths m m' := by
  unfold putPath saveCommand storePath restoreCommand terminate at h
  obtain ⟨⟨buf, m1⟩, h1, h⟩ := bind_eq_ok h
  obtain ⟨ma, ha, h1⟩ := bind_eq_ok h1
  obtain ⟨⟨len, mb⟩, hb, h1⟩ := bind_eq_ok h1
  obtain ⟨⟨r, mc⟩, hc, h1⟩ := bind_eq_ok h1
  cases h1
  obtain ⟨m2, h2, h⟩ := bind_eq_ok h
  obtain ⟨⟨len2, md⟩, hd, h2⟩ := bind_eq_ok h2
  obtain ⟨⟨r2, me⟩, he, h2⟩ := bind_eq_ok h2
  cases h2
  obtain ⟨m3, h3, h⟩ := bind_eq_ok h
  obtain ⟨⟨len3, mf⟩, hf, h3⟩ := bind_eq_ok h3
  obtain ⟨⟨len4, mg⟩, hg, h3⟩ := bind_eq_ok h3
  obtain ⟨⟨r3, mh⟩, hh, h3⟩ := bind_eq_ok h3
  cases h3
  obtain ⟨⟨len5, mi⟩, hi, h⟩ := bind_eq_ok h
  have hsave := ((SameLengths.alloc.trans (memset_lengths ha)).trans (strlen_lengths hb)).trans (memcpy_lengths hc)
  have hpath := (strlen_lengths hd).trans (memcpy_lengths he)
  have hback := ((strlen_lengths hf).trans (strlen_lengths hg)).trans (memcpy_lengths hh)
  exact ((hsave.trans hpath).trans hback).trans ((strlen_lengths hi).trans (.store h))

theorem storePath_fits (h : storePath U (.ofBlock k 0) p m = .ok m') (hp : ValueAt m p value)
    (hl : value.length < 2 ^ 31) : value.length ≤ (m.bytes k).length := by
  unfold storePath at h
  rw [strlen_value hp, ok_bind] at h
  obtain ⟨⟨r, m1⟩, hcopy, -⟩ := bind_eq_ok h
  rcases hp with ⟨-, rfl⟩ | ⟨b, o, rfl, -⟩
  · exact Nat.zero_le _
  · have := memcpy_fits (e := 0) hcopy (by simp) hl
    omega

theorem restoreCommand_fits (h : restoreCommand U (.ofBlock k 0) p (.ofBlock b 0) m = .ok m') (hp : ValueAt m p value)
    (hs : m.StringAt b 0 word) (hl : word.length < 2 ^ 31) :
    word.length = 0 ∨ value.length + word.length ≤ (m.bytes k).length := by
  unfold restoreCommand at h
  rw [strlen_value hp, ok_bind] at h
  dsimp only at h
  rw [strlen_start hs, ok_bind] at h
  obtain ⟨⟨r, m1⟩, hcopy, -⟩ := bind_eq_ok h
  rw [show (Ptr.ofBlock k 0).add value.length = .ofBlock k value.length by simp [Ptr.add]] at hcopy
  exact memcpy_fits hcopy (by simp) hl

/-- Without a NUL in the buffer the terminator is stored behind it. -/
theorem nul_of_terminate (h : terminate U (.ofBlock k 0) m = .ok m') : 0 ∈ m.bytes k := by
  unfold terminate at h
  obtain ⟨⟨len, m1⟩, hlen, h⟩ := bind_eq_ok h
  by_contra hno
  have hbytes : m1.bytes k = m.bytes k := (strlen_keeps (b := k) hlen).bytes
  rw [strlen] at hlen
  split at hlen
  · next hloop =>
    have hmem := mem_of_strlenLoop hloop
    rw [show m.rest k 0 = (m.bytes k).drop 0 from rest_eq, List.drop_zero] at hmem
    exact hno hmem
  · cases hlen
    have hout : ¬ (m.noted k (m.bytes k).length).Inside k (0 + ((m.rest k 0).length + U.overrun k : Nat)) := by
      rintro ⟨-, hlt⟩
      rw [hbytes, show m.rest k 0 = (m.bytes k).drop 0 from rest_eq, List.drop_zero] at hlt
      omega
    have hstore : store (m.noted k (m.bytes k).length)
        ((Ptr.ofBlock k 0).add ((m.rest k 0).length + U.overrun k : Nat)) 0 = .error .outside := store_outside hout
    cases hstore.symm.trans h

/-- The path is only put before a command that leaves room for it and for the terminator. -/
theorem putPath_fits (h : putPath U (.ofBlock k 0) p m = .ok m')
    (hb : m.bytes k = word ++ List.replicate (commandLength - word.length) 0) (hk : k < m.next)
    (hw : word.length < commandLength) (h0 : 0 ∉ word) (hp : ValueAt m p value) (hout : Outside k p)
    (hl : value.length < 2 ^ 31) : value.length + word.length < commandLength := by
  have hsmall : commandLength < 2 ^ 31 := by decide
  have hbuf : word.length < sizeofBuf := Nat.lt_trans hw (by decide)
  have hlen : (m.bytes k).length = commandLength := by
    rw [hb, List.length_append, List.length_replicate]
    omega
  have hword : m.StringAt k 0 word := Mem.stringAt_of_bytes hb (isString_padded h0 hw)
  obtain ⟨m1, e1, f1, n1, hs1⟩ := saveCommand_eq (U := U) hword hbuf
  have hk1 : k < m1.next := by omega
  have b1 : m1.bytes k = m.bytes k := f1.bytes k hk
  have hp1 : ValueAt m1 p value := hp.keeps fun c hc _ => .of_frame f1 hc
  unfold putPath at h
  rw [e1, ok_bind] at h
  obtain ⟨m2, h2, h⟩ := bind_eq_ok h
  obtain ⟨m3, h3, h⟩ := bind_eq_ok h
  have hfit := storePath_fits h2 hp1 hl
  rw [b1, hlen] at hfit
  obtain ⟨m2', e2, f2, hk2, b2, hp2⟩ := storePath_eq (U := U) hp1 hk1 hout hl (by rw [b1]; omega)
  obtain rfl := Except.ok.inj (e2.symm.trans h2)
  rw [b1] at b2
  have hlen2 : (m2'.bytes k).length = commandLength := by
    rw [b2, length_overwrite] <;> omega
  have hs2 := hs1.frame f2 (show m.next ≠ k by omega)
  have hroom := restoreCommand_fits h3 hp2 hs2 (by omega)
  rw [hlen2] at hroom
  by_contra hlong
  rw [restoreCommand_eq hp2 hs2 hk2 (Nat.ne_of_lt hk) (by omega) (by omega)] at h3
  obtain rfl := Except.ok.inj h3
  -- the two fill the buffer
  have hnul := nul_of_terminate h
  rw [Mem.bytes_setBytes_self hk2, b2, hb, overwrite_twice (by omega), List.length_append,
    show commandLength - (value.length + word.length) = 0 by omega, List.replicate_zero, List.append_nil,
    List.mem_append] at hnul
  exact hnul.elim hp.noNul h0

/-- A parsed command in block `k`, which holds `word`, and the value `p` of `PATH`. -/
structure PathReady (k : Nat) (p : Ptr) (word value : List UInt8) (cArg : CommandArgument) (sh : Shell) :
    Prop where
  command : cArg.command = .ofBlock k 0
  bytes : sh.mem.bytes k = word ++ List.replicate (commandLength - word.length) 0
  block : k < sh.mem.next
  fits : word.length < commandLength
  noNul : 0 ∉ word
  path : getenv sh.mem (.literal pathWord) sh.environ = .ok p
  value : ValueAt sh.mem p value
  apart : Outside k p

theorem PathReady.string (h : PathReady k p word value cArg sh) : sh.mem.StringAt k 0 word :=
  Mem.stringAt_of_bytes h.bytes (isString_padded h.noNul h.fits)

/-- After the parsing of a line. -/
theorem pathReady_parsed {m : Mem} {b o : Nat} {line : List UInt8} {slots : List (List UInt8 × Ptr)}
    (hline : sh.mem.StringAt b o line) (hparse : parseInput U space sh.mem (.ofBlock b o) = .ok (some cArg, m))
    (hword : m.String cArg.command word) (henv : Holds (fun _ => True) sh.mem sh.environ slots)
    (hvalue : ValueAt sh.mem ((Slots.find slots pathWord).getD .null) value) :
    PathReady (sh.mem.next + 1) ((Slots.find slots pathWord).getD .null) word value cArg { sh with mem := m } := by
  obtain ⟨word', args, -, hp⟩ := parsed_of_ok hline hparse
  have hc := hp.fields.command
  have hs : m.StringAt (sh.mem.next + 1) 0 word := stringAt_of (i := 0) hc hword
  obtain rfl : word' = word :=
    IsString.unique (stringAt_of (i := 0) hc hp.command_string : m.StringAt (sh.mem.next + 1) 0 word') hs
  have hsrc : Source.IsString m (.literal pathWord) pathWord := ⟨by decide, rfl⟩
  have hb := hp.buffers.command
  rw [written_zeros hp.buffers.wordFits] at hb
  constructor
  case command => exact hc
  case bytes => exact hb
  case block =>
    have hnext := hp.buffers.next
    show sh.mem.next + 1 < m.next
    omega
  case fits => exact hp.buffers.wordFits
  case noNul => exact hp.buffers.wordNoNul
  case path => exact getenv_eq hsrc (henv.keeps fun c hcn => hp.keeps hcn)
  case value => exact hvalue.keeps fun c hcn _ => hp.keeps hcn
  case apart =>
    intro i he
    rcases hvalue with ⟨hnull, -⟩ | ⟨b', o', hb', hs'⟩
    · rw [he] at hnull
      cases hnull
    · have hlt := hs'.lt_next
      cases he.symm.trans hb'
      omega

/-- A command that is not one of the two reaches `execvpe` once the path is there. -/
theorem setExecutionArguments_binary (v : Vectors) (h : PathReady k p word value cArg sh)
    (hsbush : word ≠ sbushFile) (hcat : word ≠ catFile) :
    setExecutionArguments U executeFile v cArg sh = (putPath U (.ofBlock k 0) p sh.mem).map fun m =>
      (fillVectors p cArg v, [], { sh with mem := m }) := by
  have hsrc : Source.IsString sh.mem (.pointer cArg.command) word := ⟨k, 0, h.command, h.string⟩
  obtain ⟨d1, h1, hd1⟩ := strcmp_string hsrc (y := .literal sbushFile) ⟨by decide, rfl⟩
  obtain ⟨d2, h2, hd2⟩ := strcmp_string hsrc (y := .literal catFile) ⟨by decide, rfl⟩
  have hne : d1 ≠ 0 ∧ d2 ≠ 0 := ⟨mt hd1.1 hsbush, mt hd2.1 hcat⟩
  unfold setExecutionArguments
  rw [h.path, ok_bind, h1, ok_bind, h2, ok_bind]
  dsimp only
  rw [if_pos hne, h.command]
  cases putPath U (.ofBlock k 0) p sh.mem <;> rfl

/-- One of the two runs its first argument, whether it is a script or not. -/
theorem setExecutionArguments_script {v v' : Vectors} {calls : List Call} {sh' : Shell}
    (h : PathReady k p word value cArg sh) (hword : word = sbushFile ∨ word = catFile)
    (he : setExecutionArguments U executeFile v cArg sh = .ok (v', calls, sh')) :
    executeFile (cArg.arguments 0) sh = .ok (calls, sh') := by
  have hsrc : Source.IsString sh.mem (.pointer cArg.command) word := ⟨k, 0, h.command, h.string⟩
  obtain ⟨d1, h1, hd1⟩ := strcmp_string hsrc (y := .literal sbushFile) ⟨by decide, rfl⟩
  obtain ⟨d2, h2, hd2⟩ := strcmp_string hsrc (y := .literal catFile) ⟨by decide, rfl⟩
  have heq : ¬ (d1 ≠ 0 ∧ d2 ≠ 0) := fun hne => hword.elim (fun hw => hne.1 (hd1.2 hw)) fun hw => hne.2 (hd2.2 hw)
  unfold setExecutionArguments at he
  rw [h.path, ok_bind, h1, ok_bind, h2, ok_bind] at he
  dsimp only at he
  rw [if_neg heq] at he
  obtain ⟨⟨calls', sh1⟩, hfile, he⟩ := bind_eq_ok he
  cases he
  exact hfile

/-- `result` is a call with the command's buffer as its file, made once the path is there. -/
def CallsWithPath (U : Unspecified) (k : Nat) (p : Ptr) (sh : Shell)
    (result : Except Fault (Execvpe × List Call × Shell)) : Prop :=
  ∃ v waited, result = (putPath U (.ofBlock k 0) p sh.mem).map fun m =>
    (⟨.ofBlock k 0, v, m, waited⟩, [], { sh with mem := m })

theorem background_calls (h : PathReady k p word value cArg sh) (hsbush : word ≠ sbushFile) (hcat : word ≠ catFile) :
    CallsWithPath U k p sh (executeBinaryInBackGround U executeFile cArg sh) := by
  refine ⟨fillVectors p cArg (reserveVectors cArg), false, ?_⟩
  rw [executeBinaryInBackGround, setExecutionArguments_binary (reserveVectors cArg) h hsbush hcat, h.command]
  cases putPath U (.ofBlock k 0) p sh.mem <;> rfl

theorem interactive_calls (h : PathReady k p word value cArg sh) (hsbush : word ≠ sbushFile) (hcat : word ≠ catFile) :
    CallsWithPath U k p sh (executeBinaryInteractively U executeFile cArg sh) := by
  refine ⟨fillVectors p cArg (reserveVectors cArg), true, ?_⟩
  have hfirst := (@fillVectors_eq cArg _ rfl p (reserveVectors cArg)).1 0
  rw [if_neg (by omega), if_pos rfl, h.command] at hfirst
  rw [executeBinaryInteractively, setExecutionArguments_binary (reserveVectors cArg) h hsbush hcat, ← hfirst]
  cases putPath U _ p sh.mem <;> rfl

theorem executeBinary_calls (h : PathReady k p word value cArg sh) (hsbush : word ≠ sbushFile) (hcat : word ≠ catFile) :
    CallsWithPath U k p sh (executeBinary U executeFile cArg sh) := by
  unfold executeBinary
  split
  · exact background_calls h hsbush hcat
  · exact interactive_calls h hsbush hcat

theorem passesFile_iff (h : PathReady k p word value cArg sh) (hcalls : CallsWithPath U k p sh result) :
    PassesFile cArg sh (value ++ word) result ↔ value.length + word.length < commandLength := by
  obtain ⟨v, waited, hresult⟩ := hcalls
  constructor
  · rintro ⟨c, calls, sh', he, hs, -⟩
    rw [hresult] at he
    cases hput : putPath U (.ofBlock k 0) p sh.mem with
    | error f =>
      rw [hput] at he
      cases he
    | ok m =>
      rw [hput] at he
      cases he
      -- the buffer is as long as it was, and has room for the terminator
      have hbound := (stringAt_of (i := 0) rfl hs).bound
      have hfits := h.fits
      rw [(putPath_lengths hput).length k h.block, h.bytes] at hbound
      simp only [List.length_append, List.length_replicate] at hbound
      omega
  · intro hfit
    obtain ⟨m, hput, hf, hs⟩ := putPath_eq (U := U) h.bytes h.block h.noNul h.value h.apart hfit
    refine ⟨⟨.ofBlock k 0, v, m, waited⟩, [], { sh with mem := m }, ?_, ⟨k, 0, rfl, hs⟩, fun j hj hjout => ?_⟩
    · rw [hresult, hput]
      rfl
    · exact .of_frame hf ⟨hj, fun he => hjout 0 (by rw [h.command, he])⟩

end Path

/-- Both callers pass the path and the command, and store nowhere else, exactly if the two are shorter
than the buffer of the command. -/
theorem exec_file_iff (U : Unspecified) (executeFile : Ptr → Shell → Except Fault (List Call × Shell))
    {sh : Shell} {m : Mem} {b o : Nat} {line word value : List UInt8} {slots : List (List UInt8 × Ptr)}
    {cArg : CommandArgument} (hline : sh.mem.StringAt b o line)
    (hparse : parseInput U space sh.mem (.ofBlock b o) = .ok (some cArg, m))
    (hword : m.String cArg.command word) (hsbush : word ≠ sbushFile) (hcat : word ≠ catFile)
    (henv : Holds (fun _ => True) sh.mem sh.environ slots)
    (hvalue : ValueAt sh.mem ((Slots.find slots pathWord).getD .null) value) :
    PassesFile cArg { sh with mem := m } (value ++ word)
        (executeBinaryInBackGround U executeFile cArg { sh with mem := m }) ∧
      PassesFile cArg { sh with mem := m } (value ++ word)
        (executeBinaryInteractively U executeFile cArg { sh with mem := m }) ↔
    value.length + word.length < commandLength := by
  have h := pathReady_parsed hline hparse hword henv hvalue
  rw [passesFile_iff h (background_calls h hsbush hcat), passesFile_iff h (interactive_calls h hsbush hcat), and_self]

/-- `rootfs/bin/` -/
def binPath : List UInt8 := [114, 111, 111, 116, 102, 115, 47, 98, 105, 110, 47]

/-- A shell with a line to parse, and `PATH` set to `rootfs/bin/`. -/
def pathShell (line : List UInt8) : Shell where
  mem :=
    { blocks := [line ++ [0], pathWord ++ [0], binPath ++ [0], List.replicate maxPS1Length 0]
      released := []
      stray := [] }
  environ := [⟨.ofBlock 1 0, .ofBlock 2 0⟩]
  ps1 := .ofBlock 3 0
  pipelines := []

theorem pathShell_value (line : List UInt8) :
    Holds (fun _ => True) (pathShell line).mem (pathShell line).environ [(pathWord, .ofBlock 2 0)] ∧
    ValueAt (pathShell line).mem (.ofBlock 2 0) binPath := by
  have hkey : (pathShell line).mem.StringAt 1 0 pathWord :=
    Mem.stringAt_of_bytes rfl (isString_append (s := pathWord) (by decide) [])
  have hvalue : (pathShell line).mem.StringAt 2 0 binPath :=
    Mem.stringAt_of_bytes rfl (isString_append (s := binPath) (by decide) [])
  refine ⟨?_, .inr ⟨2, 0, rfl, hvalue⟩⟩
  exact List.Forall₂.cons ⟨⟨1, 0, rfl, trivial, hkey⟩, rfl⟩ List.Forall₂.nil

/-- The line is a command without arguments. -/
theorem pathShell_parsed (line : List UInt8) (h : 0 ∉ line ∧ FitsBuffers line ∧
    (leading line).length + (trimmed line).length + 2 ≤ inputLength) :
    (pathShell line).mem.StringAt 0 0 line ∧
    ∃ c m, parseInput (filled 0) space (pathShell line).mem (.ofBlock 0 0) = .ok (some c, m) ∧
      m.String c.command (firstWord space (trimmed line)) := by
  have hs : (pathShell line).mem.StringAt 0 0 line := Mem.stringAt_of_bytes rfl (isString_append h.1 [])
  obtain ⟨c, m, he, hp⟩ := parseInput_zeros hs h.2
  exact ⟨hs, c, m, he, hp.command_string⟩

/-- `ls` -/
theorem exec_file_ls : ∃ c m, parseInput (filled 0) space (pathShell [108, 115]).mem (.ofBlock 0 0) =
      .ok (some c, m) ∧
    PassesFile c { pathShell [108, 115] with mem := m } (binPath ++ [108, 115])
        (executeBinaryInBackGround (filled 0) (fun _ sh => .ok ([], sh)) c { pathShell [108, 115] with mem := m }) ∧
      PassesFile c { pathShell [108, 115] with mem := m } (binPath ++ [108, 115])
        (executeBinaryInteractively (filled 0) (fun _ sh => .ok ([], sh)) c { pathShell [108, 115] with mem := m }) := by
  obtain ⟨hs, c, m, he, hword⟩ := pathShell_parsed [108, 115] (by decide)
  obtain ⟨henv, hvalue⟩ := pathShell_value [108, 115]
  exact ⟨c, m, he, (exec_file_iff (filled 0) (fun _ sh => .ok ([], sh)) hs he hword (by decide) (by decide) henv
    hvalue).2 (by decide)⟩

def converter : List UInt8 := [99, 111, 110, 118, 101, 114, 116, 101, 114]

/-- The path and `converter` fill the 20 bytes, and the terminator falls behind them. -/
theorem long_name_overruns : ∃ c m, parseInput (filled 0) space (pathShell converter).mem (.ofBlock 0 0) =
      .ok (some c, m) ∧ ∀ executeFile,
    ¬ PassesFile c { pathShell converter with mem := m } (binPath ++ converter)
        (executeBinaryInBackGround (filled 0) executeFile c { pathShell converter with mem := m }) ∧
      ¬ PassesFile c { pathShell converter with mem := m } (binPath ++ converter)
        (executeBinaryInteractively (filled 0) executeFile c { pathShell converter with mem := m }) := by
  obtain ⟨hs, c, m, he, hword⟩ := pathShell_parsed converter (by decide)
  obtain ⟨henv, hvalue⟩ := pathShell_value converter
  have hlong : ¬ binPath.length + converter.length < commandLength := by decide
  have h := pathReady_parsed hs he (show m.String c.command converter from hword) henv hvalue
  refine ⟨c, m, he, fun executeFile => ⟨fun hp => hlong ?_, fun hp => hlong ?_⟩⟩
  · exact (passesFile_iff h (background_calls h (by decide) (by decide))).1 hp
  · exact (passesFile_iff h (interactive_calls h (by decide) (by decide))).1 hp

end Sbunix.Sbush.Execution
