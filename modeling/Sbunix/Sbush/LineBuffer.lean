/-
What a command leaves of the line it was read into. A line with a `'|'` is cut in place: each `'|'`
up to the last field becomes a NUL, so that a line that begins with one is empty afterwards. All the
rest of the shell stores into buffers of its own.
-/
import Sbunix.Sbush.ParseInput
import Sbunix.Sbush.Shell

namespace Sbunix.Sbush

open BlockMemory Fallible Libc

/-- The buffers of a command are in other blocks. -/
structure CommandOutside (b : Nat) (cArg : CommandArgument) : Prop where
  command : Outside b cArg.command
  arguments : ∀ i < cArg.argumentCount.toNat, Outside b (cArg.arguments i)

/-- A step of the shell that leaves block `b` alone. -/
structure Spares (b : Nat) (sh sh' : Shell) : Prop where
  mem : Keeps b sh.mem sh'.mem
  ps1 : sh'.ps1 = sh.ps1

/-- The block is allocated, and `PS1` is another one. -/
structure LineReady (b : Nat) (sh : Shell) : Prop where
  block : b < sh.mem.next
  ps1 : Outside b sh.ps1

/-- The commands that are not modelled store into no block but those of their own command, and leave
`PS1` where it is. -/
def KeepsLines (other : Nat → CommandArgument → Shell → Except Fault Shell) : Prop :=
  ∀ b code cArg sh sh', other code cArg sh = .ok sh' → LineReady b sh → CommandOutside b cArg →
    Spares b sh sh'

/-- `l'` is `l` with some of its `'|'`s overwritten by NULs. -/
structure CutFrom (l l' : List UInt8) : Prop where
  length : l'.length = l.length
  byte : ∀ i : Nat, l'[i]? = l[i]? ∨ l[i]? = some pipeChar ∧ l'[i]? = some 0

namespace Spares

variable {b : Nat} {sh sh' sh'' : Shell}

theorem refl (b : Nat) (sh : Shell) : Spares b sh sh := ⟨.refl _ _, rfl⟩

theorem trans (h : Spares b sh sh') (h' : Spares b sh' sh'') : Spares b sh sh'' :=
  ⟨h.mem.trans h'.mem, h'.ps1.trans h.ps1⟩

theorem ready (h : Spares b sh sh') (hr : LineReady b sh) : LineReady b sh' :=
  ⟨Nat.lt_of_lt_of_le hr.block h.mem.next_le, h.ps1 ▸ hr.ps1⟩

end Spares

namespace CutFrom

variable {l l' l'' : List UInt8} {ch : UInt8} {i : Nat}

theorem refl (l : List UInt8) : CutFrom l l := ⟨rfl, fun _ => .inl rfl⟩

theorem trans (h : CutFrom l l') (h' : CutFrom l' l'') : CutFrom l l'' where
  length := h'.length.trans h.length
  byte i := by
    rcases h.byte i with h1 | ⟨h1, h1'⟩ <;> rcases h'.byte i with h2 | ⟨h2, h2'⟩
    · exact .inl (h2.trans h1)
    · exact .inr ⟨h1.symm.trans h2, h2'⟩
    · exact .inr ⟨h1, h2.trans h1'⟩
    · cases h1'.symm.trans h2

theorem nul (h : CutFrom l l') (h0 : 0 ∈ l) : 0 ∈ l' := by
  obtain ⟨i, hi⟩ := List.mem_iff_getElem?.1 h0
  rcases h.byte i with hsame | ⟨-, hcut⟩
  · exact List.mem_of_getElem? (hsame.trans hi)
  · exact List.mem_of_getElem? hcut

theorem set (h : l[i]? = some pipeChar) : CutFrom l (l.set i 0) where
  length := List.length_set
  byte j := by
    by_cases hj : i = j
    · subst hj
      exact .inr ⟨h, List.getElem?_set_self (List.getElem?_eq_some_iff.1 h).1⟩
    · exact .inl (List.getElem?_set_ne hj)

/-- Other bytes stay. -/
theorem same (h : CutFrom l l') (hi : l[i]? = some ch) (hc : ch ≠ pipeChar) : l'[i]? = some ch := by
  rcases h.byte i with h1 | ⟨h1, -⟩
  · exact h1.trans hi
  · exact absurd (Option.some.inj (hi.symm.trans h1)) hc

end CutFrom

/-! ## A single command -/

section Single

variable {U : Unspecified} {m m' : Mem} {b o : Nat} {line : List UInt8} {cArg : CommandArgument}
  {sh sh' : Shell} {p : Ptr} {r : Option CommandArgument}

/-- `parseInput` only reads its line; what it returns is in blocks of its own. -/
theorem parseInput_outside (h : parseInput U space m (.ofBlock b o) = .ok (r, m'))
    (hs : m.StringAt b o line) : Keeps b m m' ∧ ∀ cArg, r = some cArg → CommandOutside b cArg := by
  have hb : b < m.next := hs.lt_next
  obtain ⟨hf, hbytes⟩ := parseInput_frame hs h
  refine ⟨⟨hf.next_le, hbytes⟩, ?_⟩
  rintro cArg rfl
  obtain ⟨word, args, -, hp⟩ := parsed_of_ok hs h
  constructor
  · rw [hp.fields.command]
    intro k hk
    cases hk
    omega
  · intro i hi
    rw [hp.argumentCount, Int.toNat_natCast] at hi
    intro k hk
    have hblock : cArg.arguments i = .ofBlock (m.next + 3 + i) 0 ∨ cArg.arguments i = .wild := by
      rcases Nat.lt_or_ge i maxArguments with hmax | hmax
      · exact .inl (hp.fields.arguments i hi hmax)
      · exact hp.fields.pastEnd i hi hmax
    rcases hblock with he | he
    · cases he.symm.trans hk
      omega
    · cases he.symm.trans hk

theorem freeArguments_keeps : ∀ (n i : Nat) {m m' : Mem}, freeArguments U cArg n i m = .ok m' →
    Outside b cArg.command → Keeps b m m'
  | 0, _, _, _, h, _ => by cases h; exact .refl _ _
  | n + 1, i, m, m', h, hc => by
    rw [freeArguments] at h
    obtain ⟨⟨len, m1⟩, h1, h⟩ := bind_eq_ok h
    obtain ⟨m2, h2, h⟩ := bind_eq_ok h
    obtain ⟨m3, h3, h⟩ := bind_eq_ok h
    exact (((strlen_keeps h1).trans (memset_keeps h2 hc)).trans (freeMapped_keeps h3)).trans
      (freeArguments_keeps n _ h hc)

theorem freeCommand_keeps (h : freeCommand U cArg m = .ok m') (hc : Outside b cArg.command) :
    Keeps b m m' := by
  unfold freeCommand at h
  split at h
  · cases h; exact .refl _ _
  · obtain ⟨⟨len, m1⟩, h1, h⟩ := bind_eq_ok h
    obtain ⟨m2, h2, h⟩ := bind_eq_ok h
    exact ((strlen_keeps h1).trans (memset_keeps h2 hc)).trans (freeMapped_keeps h)

theorem freeCommandArgument_keeps (h : freeCommandArgument U cArg m = .ok m')
    (hc : Outside b cArg.command) : Keeps b m m' := by
  unfold freeCommandArgument at h
  obtain ⟨m1, h1, h⟩ := bind_eq_ok h
  obtain ⟨m2, h2, h⟩ := bind_eq_ok h
  exact ((freeMapped_keeps h1).trans (freeCommand_keeps h2 hc)).trans (freeArguments_keeps _ _ h hc)

theorem assign_spares {cEqual : Ptr} (h : assign U sh p = .ok (sh', cEqual)) (hr : LineReady b sh)
    (hp : Outside b p) : Spares b sh sh' ∧ Outside b cEqual := by
  unfold assign at h
  obtain ⟨q, h1, h⟩ := bind_eq_ok h
  have hq : Outside b q := strchr_outside h1 hp
  split at h
  · cases h
    exact ⟨.refl _ _, fun o ho => by cases ho⟩
  · obtain ⟨m1, h2, h⟩ := bind_eq_ok h
    obtain ⟨⟨d, environ, m2⟩, h3, h⟩ := bind_eq_ok h
    cases h
    have k1 : Keeps b sh.mem m1 := .store h2 hq
    exact ⟨⟨k1.trans (setenv_keeps h3 (Nat.lt_of_lt_of_le hr.block k1.next_le)), rfl⟩, hq⟩

theorem exportLoop_spares : ∀ (n i : Nat) {sh sh' : Shell}, exportLoop U cArg n i sh = .ok sh' →
    LineReady b sh → (∀ j, i ≤ j → j < i + n → Outside b (cArg.arguments j)) → Spares b sh sh'
  | 0, _, _, _, h, _, _ => by cases h; exact .refl _ _
  | n + 1, i, sh, sh', h, hr, hargs => by
    rw [exportLoop] at h
    obtain ⟨⟨sh1, q⟩, h1, h⟩ := bind_eq_ok h
    obtain ⟨s1, -⟩ := assign_spares h1 hr (hargs i (Nat.le_refl i) (by omega))
    exact s1.trans (exportLoop_spares n (i + 1) h (s1.ready hr) fun j hj hlt =>
      hargs j (by omega) (by omega))

theorem executeBuiltInExport_spares (h : executeBuiltInExport U cArg sh = .ok sh')
    (hr : LineReady b sh) (hc : CommandOutside b cArg) : Spares b sh sh' :=
  exportLoop_spares _ 0 h hr fun j _ hj => hc.arguments j (by omega)

theorem setPS1_spares {value : Ptr} (h : setPS1 U cArg value sh = .ok sh') (hr : LineReady b sh) :
    Spares b sh sh' := by
  unfold setPS1 at h
  obtain ⟨d, -, h⟩ := bind_eq_ok h
  split at h
  · obtain ⟨m1, h1, h⟩ := bind_eq_ok h
    obtain ⟨⟨len, m2⟩, h2, h⟩ := bind_eq_ok h
    obtain ⟨⟨q, m3⟩, h3, h⟩ := bind_eq_ok h
    cases h
    exact ⟨((memset_keeps h1 hr.ps1).trans (strlen_keeps h2)).trans (memcpy_keeps h3 hr.ps1), rfl⟩
  · cases h; exact .refl _ _

theorem executeBuiltInWithoutExport_spares (h : executeBuiltInWithoutExport U cArg sh = .ok sh')
    (hr : LineReady b sh) (hc : CommandOutside b cArg) : Spares b sh sh' := by
  unfold executeBuiltInWithoutExport at h
  obtain ⟨⟨sh1, q⟩, h1, h⟩ := bind_eq_ok h
  dsimp only at h
  obtain ⟨s1, -⟩ := assign_spares h1 hr hc.command
  split at h
  · obtain ⟨sh2, h2, h⟩ := bind_eq_ok h
    have s2 := s1.trans (setPS1_spares h2 (s1.ready hr))
    exact s2.trans (executeBuiltInExport_spares h (s2.ready hr) hc)
  · exact s1.trans (executeBuiltInExport_spares h (s1.ready hr) hc)

variable {other : Nat → CommandArgument → Shell → Except Fault Shell}

theorem executeCommand_spares (hother : KeepsLines other)
    (h : executeCommand U other (some cArg) sh = .ok sh') (hr : LineReady b sh)
    (hc : CommandOutside b cArg) : Spares b sh sh' := by
  unfold executeCommand at h
  obtain ⟨code, -, h⟩ := bind_eq_ok h
  split at h
  · exact executeBuiltInExport_spares h hr hc
  · split at h
    · exact executeBuiltInWithoutExport_spares h hr hc
    · exact hother b _ _ _ _ h hr hc

theorem executeSingle_spares (hother : KeepsLines other)
    (h : executeSingle U other (.ofBlock b o) sh = .ok sh') (hr : LineReady b sh)
    (hs : sh.mem.StringAt b o line) : Spares b sh sh' := by
  unfold executeSingle at h
  obtain ⟨⟨r, m1⟩, h1, h⟩ := bind_eq_ok h
  obtain ⟨sh2, h2, h⟩ := bind_eq_ok h
  cases r with
  | none => cases h2
  | some cArg =>
    obtain ⟨m3, h3, h⟩ := bind_eq_ok h
    cases h
    obtain ⟨k1, hout⟩ := parseInput_outside h1 hs
    have hc := hout cArg rfl
    have s1 : Spares b sh { sh with mem := m1 } := ⟨k1, rfl⟩
    have s2 := s1.trans (executeCommand_spares hother h2 (s1.ready hr) hc)
    exact ⟨s2.mem.trans (freeCommandArgument_keeps h3 hc.command), s2.ps1⟩

end Single

/-! ## A pipeline -/

section Pipeline

variable {U : Unspecified} {m m' : Mem} {b o : Nat} {line pre post : List UInt8} {sh sh' : Shell}
  {cArgs : List (Option CommandArgument)}

/-- A string cut at a `'|'` is two strings. -/
theorem cut_string (hs : m.StringAt b o (pre ++ pipeChar :: post)) :
    ∃ m1, cutAt m (.ofBlock b (o + pre.length : Nat)) = .ok m1 ∧ m1.next = m.next ∧
      CutFrom (m.bytes b) (m1.bytes b) ∧ (m1.bytes b)[o + pre.length]? = some 0 ∧
      m1.StringAt b o pre ∧ m1.StringAt b (o + pre.length + 1) post := by
  obtain ⟨r, hr⟩ := hs.eq_append
  have hnul := hs.noNul
  rw [List.mem_append, List.mem_cons, not_or, not_or] at hnul
  have hbar : (m.bytes b)[o + pre.length]? = some pipeChar := by
    rw [← List.getElem?_drop, hr]
    simp
  have hlt := (List.getElem?_eq_some_iff.1 hbar).1
  have hi : m.Inside b (o + pre.length : Nat) := ⟨by omega, by omega⟩
  have hbytes := Mem.bytes_setBytes_self (l := (m.bytes b).set (o + pre.length) 0) hs.lt_next
  have hdrop : ((m.bytes b).set (o + pre.length) 0).drop o = pre ++ 0 :: (post ++ 0 :: r) := by
    rw [List.drop_set, if_neg (by omega), hr, Nat.add_sub_cancel_left, List.append_assoc,
      List.set_append_right _ _ (Nat.le_refl _), Nat.sub_self]
    rfl
  refine ⟨m.setBytes b ((m.bytes b).set (o + pre.length) 0), ?_, Mem.next_setBytes, ?_, ?_, ?_, ?_⟩
  · rw [cutAt, if_pos (by simp), store_inside hi, Int.toNat_natCast]
  · rw [hbytes]
    exact .set hbar
  · rw [hbytes]
    exact List.getElem?_set_self hlt
  · apply Mem.stringAt_of_bytes hbytes
    rw [hdrop]
    exact isString_append hnul.1 _
  · apply Mem.stringAt_of_bytes hbytes
    rw [Nat.add_assoc, ← List.drop_drop, hdrop, ← List.drop_drop, List.drop_left]
    exact isString_append hnul.2.2 _

/-- Behind the last field there is nothing to parse. -/
theorem parseFields_wild : ∀ (rounds : Nat), parseFields U rounds m .wild = .ok (cArgs, m') →
    cArgs = [] ∧ m' = m
  | 0, h => by cases h; exact ⟨rfl, rfl⟩
  | _ + 1, h => by cases h

theorem outside_cons {r : Option CommandArgument} (h : ∀ cArg, r = some cArg → CommandOutside b cArg)
    (h' : ∀ cArg, some cArg ∈ cArgs → CommandOutside b cArg) :
    ∀ cArg, some cArg ∈ r :: cArgs → CommandOutside b cArg := by
  intro cArg hmem
  rcases List.mem_cons.1 hmem with rfl | hmem
  · exact h cArg rfl
  · exact h' cArg hmem

/-- A line that begins with a `'|'` has one before its newline. -/
theorem mem_of_head (h : line.head? = some pipeChar) : pipeChar ∈ line.takeWhile (· ≠ newline) := by
  rcases line with _ | ⟨ch, line⟩
  · cases h
  · rw [List.head?_cons, Option.some.injEq] at h
    rw [h, List.takeWhile_cons_of_pos (by decide)]
    exact List.mem_cons_self

/-- The first field of such a line is empty. -/
theorem nil_of_head (h : (pre ++ pipeChar :: post).head? = some pipeChar) (hpre : pipeChar ∉ pre) : pre = [] := by
  rcases pre with _ | ⟨ch, pre⟩
  · rfl
  · rw [List.cons_append, List.head?_cons, Option.some.injEq] at h
    exact absurd (h ▸ List.mem_cons_self) hpre

/-- By induction on the rounds; what is left of the line at `prev` is a string. -/
theorem parseFields_cuts : ∀ (rounds : Nat) {m : Mem} {o : Nat} {line : List UInt8}
    {cArgs : List (Option CommandArgument)}, parseFields U rounds m (.ofBlock b o) = .ok (cArgs, m') →
    m.StringAt b o line → m.next ≤ m'.next ∧ CutFrom (m.bytes b) (m'.bytes b) ∧
      (∀ cArg, some cArg ∈ cArgs → CommandOutside b cArg) ∧
      (rounds ≠ 0 → line.head? = some pipeChar → (m'.bytes b)[o]? = some 0)
  | 0, m, o, line, cArgs, h, _ => by
    cases h
    exact ⟨Nat.le_refl _, .refl _, fun _ hc => absurd hc List.not_mem_nil, fun hne => absurd rfl hne⟩
  | rounds + 1, m, o, line, cArgs, h, hs => by
    rw [parseFields] at h
    obtain ⟨next, h1, h⟩ := bind_eq_ok h
    obtain ⟨m1, h2, h⟩ := bind_eq_ok h
    obtain ⟨⟨r, m2⟩, h3, h⟩ := bind_eq_ok h
    obtain ⟨prev, h4, h⟩ := bind_eq_ok h
    obtain ⟨⟨cArgs', m3⟩, h5, h⟩ := bind_eq_ok h
    cases h
    rw [strchr_string hs] at h1
    by_cases hmem : pipeChar ∈ line.takeWhile (· ≠ newline)
    · rw [if_pos hmem] at h1
      obtain ⟨pre, post, rfl, hpre⟩ := List.eq_append_cons_of_mem (List.takeWhile_subset _ hmem)
      rw [List.idxOf_append_of_notMem hpre, List.idxOf_cons_self, Nat.add_zero] at h1
      cases h1
      obtain ⟨m1', hcut, hn, hc, hzero, hfield, hrest⟩ := cut_string hs
      cases hcut.symm.trans h2
      obtain ⟨k2, hout⟩ := parseInput_outside h3 hfield
      -- the next field begins behind the NUL
      rw [nextField, if_pos (by simp)] at h4
      cases h4
      have hrest' : m2.StringAt b (o + pre.length + 1) post := Mem.stringAt_of_bytes k2.bytes hrest
      obtain ⟨hle, hc', hout', -⟩ := parseFields_cuts rounds h5 hrest'
      rw [k2.bytes] at hc'
      refine ⟨Nat.le_trans (hn ▸ k2.next_le) hle, hc.trans hc', outside_cons hout hout', fun _ hhead => ?_⟩
      obtain rfl := nil_of_head hhead hpre
      exact hc'.same hzero (by decide)
    · rw [if_neg hmem] at h1
      cases h1
      cases h2
      obtain ⟨k2, hout⟩ := parseInput_outside h3 hs
      have hs2 : m2.StringAt b o line := Mem.stringAt_of_bytes k2.bytes hs
      -- the search for the NUL finds nothing
      have hprev : prev = .wild := by
        rw [nextField, if_neg (by simp), strchr_string hs2,
          if_neg fun h0 => hs2.noNul (List.takeWhile_subset _ h0)] at h4
        cases h4
        rfl
      subst hprev
      obtain ⟨rfl, rfl⟩ := parseFields_wild rounds h5
      exact ⟨k2.next_le, k2.bytes ▸ .refl _, outside_cons hout fun _ hmem' => absurd hmem' List.not_mem_nil,
        fun _ hhead => absurd (mem_of_head hhead) hmem⟩

theorem isValidate_keeps : ∀ (cArgs : List (Option CommandArgument)) {m m' : Mem} {valid : Bool},
    isValidateParsedPipeInput U m cArgs = .ok (valid, m') → Keeps b m m'
  | [], _, _, _, h => by cases h; exact .refl _ _
  | none :: _, _, _, _, h => by cases h
  | some cArg :: cArgs, m, m', valid, h => by
    rw [isValidateParsedPipeInput] at h
    obtain ⟨⟨len, m1⟩, h1, h⟩ := bind_eq_ok h
    dsimp only at h
    split at h
    · cases h
      exact strlen_keeps h1
    · exact (strlen_keeps h1).trans (isValidate_keeps cArgs h)

theorem freeAll_keeps : ∀ (cArgs : List (Option CommandArgument)) {m m' : Mem},
    freeAllParsedCommandArguments U cArgs m = .ok m' →
    (∀ cArg, some cArg ∈ cArgs → CommandOutside b cArg) → Keeps b m m'
  | [], _, _, h, _ => by cases h; exact .refl _ _
  | none :: cArgs, _, _, h, hout =>
    freeAll_keeps cArgs h fun cArg hc => hout cArg (List.mem_cons_of_mem _ hc)
  | some cArg :: cArgs, m, m', h, hout => by
    rw [freeAllParsedCommandArguments] at h
    obtain ⟨m1, h1, h⟩ := bind_eq_ok h
    exact (freeCommandArgument_keeps h1 (hout cArg List.mem_cons_self).command).trans
      (freeAll_keeps cArgs h fun cArg hc => hout cArg (List.mem_cons_of_mem _ hc))

/-- A pipeline cuts its line. -/
theorem executePipeline_cuts (h : executePipeline U (.ofBlock b o) sh = .ok sh')
    (hs : sh.mem.StringAt b o line) : sh.mem.next ≤ sh'.mem.next ∧ sh'.ps1 = sh.ps1 ∧
      CutFrom (sh.mem.bytes b) (sh'.mem.bytes b) ∧
      (line.head? = some pipeChar → (sh'.mem.bytes b)[o]? = some 0) := by
  unfold executePipeline at h
  obtain ⟨⟨valid, cArgs, m1⟩, h1, h⟩ := bind_eq_ok h
  obtain ⟨m2, h2, h⟩ := bind_eq_ok h
  cases h
  unfold parsePipeline at h1
  obtain ⟨n, -, h1⟩ := bind_eq_ok h1
  obtain ⟨⟨cArgs', m3⟩, h3, h1⟩ := bind_eq_ok h1
  obtain ⟨⟨valid', m4⟩, h4, h1⟩ := bind_eq_ok h1
  cases h1
  obtain ⟨hle, hc, hout, hfirst⟩ := parseFields_cuts _ h3 hs
  have k : Keeps b m3 m2 := (isValidate_keeps cArgs h4).trans (freeAll_keeps cArgs h2 hout)
  refine ⟨Nat.le_trans hle k.next_le, rfl, ?_, fun hhead => ?_⟩
  · rw [k.bytes]
    exact hc
  · rw [k.bytes]
    exact hfirst (Nat.succ_ne_zero n) hhead

end Pipeline

section Line

variable {U : Unspecified} {b : Nat} {line : List UInt8} {sh sh' : Shell}
  {other : Nat → CommandArgument → Shell → Except Fault Shell}

/-- A line that was executed is cut at most. -/
theorem parseAndExecuteCommand_cuts (hother : KeepsLines other) (hr : LineReady b sh)
    (hs : sh.mem.StringAt b 0 line) (h : parseAndExecuteCommand U other (.ofBlock b 0) sh = .ok sh') :
    LineReady b sh' ∧ sh'.ps1 = sh.ps1 ∧ CutFrom (sh.mem.bytes b) (sh'.mem.bytes b) := by
  unfold parseAndExecuteCommand at h
  obtain ⟨q, -, h⟩ := bind_eq_ok h
  split at h
  · obtain ⟨hle, hps1, hcut, -⟩ := executePipeline_cuts h hs
    exact ⟨⟨Nat.lt_of_lt_of_le hr.block hle, hps1 ▸ hr.ps1⟩, hps1, hcut⟩
  · have s := executeSingle_spares hother h hr hs
    exact ⟨s.ready hr, s.ps1, s.mem.bytes ▸ .refl _⟩

/-- What is left of it: its first character, or a NUL for a `'|'`, and its end. -/
theorem parseAndExecuteCommand_line {ch : UInt8} (hother : KeepsLines other) (hr : LineReady b sh)
    (hs : sh.mem.StringAt b 0 (ch :: line))
    (h : parseAndExecuteCommand U other (.ofBlock b 0) sh = .ok sh') : LineReady b sh' ∧
      (sh'.mem.bytes b).length = (sh.mem.bytes b).length ∧ 0 ∈ sh'.mem.bytes b ∧
      (sh'.mem.bytes b)[0]? = some (if ch = pipeChar then 0 else ch) := by
  obtain ⟨hr', -, hcut⟩ := parseAndExecuteCommand_cuts hother hr hs h
  refine ⟨hr', hcut.length, hcut.nul hs.nul_mem, ?_⟩
  split
  · next hch =>
    -- such a line is a pipeline
    have hhead : (ch :: line).head? = some pipeChar := congrArg some hch
    have hq := strchr_string (c := pipeChar) hs
    rw [if_pos (mem_of_head hhead)] at hq
    unfold parseAndExecuteCommand at h
    obtain ⟨q, h1, h⟩ := bind_eq_ok h
    cases hq.symm.trans h1
    rw [if_pos (by simp)] at h
    obtain ⟨-, -, -, hzero⟩ := executePipeline_cuts h hs
    exact hzero hhead
  · next hch =>
    obtain ⟨r, hr⟩ := hs.eq_append
    rw [List.drop_zero] at hr
    exact hcut.same (by rw [hr]; rfl) hch

end Line

end Sbunix.Sbush
