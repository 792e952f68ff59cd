/-
What the assignment built-ins and `freeCommandArgument` do to memory and to the environment. An
assigned value is a pointer into the buffer of its own word, behind the NUL stored over the `'='`;
the release of the command clears the front of the command's buffer once for the command and once
for every argument, as far as the argument's key is long.
-/
import Sbunix.Sbush.ParseInput
import Sbunix.Sbush.Shell

namespace Sbunix.Sbush

open BlockMemory Fallible Libc

/-! ## Words that assign -/

def keyOf (word : List UInt8) : List UInt8 := word.takeWhile (· ≠ equalsChar)

def valueOf (word : List UInt8) : List UInt8 := (word.dropWhile (· ≠ equalsChar)).tail

section Cut

variable {l word : List UInt8}

theorem eq_key_value (h : equalsChar ∈ word) : word = keyOf word ++ equalsChar :: valueOf word := by
  have hne : word.dropWhile (· ≠ equalsChar) ≠ [] := by
    rw [Ne, List.dropWhile_eq_nil_iff]
    exact fun hall => by simpa using hall equalsChar h
  have hhead : (word.dropWhile (· ≠ equalsChar)).head hne = equalsChar := by
    simpa using List.head_dropWhile_not (· ≠ equalsChar) hne
  have hsplit : word.dropWhile (· ≠ equalsChar) = equalsChar :: valueOf word := by
    rw [← List.cons_head_tail hne, hhead, valueOf]
  calc word = keyOf word ++ word.dropWhile (· ≠ equalsChar) := List.takeWhile_append_dropWhile.symm
    _ = _ := by rw [hsplit]

theorem equals_not_mem_key (word : List UInt8) : equalsChar ∉ keyOf word := fun h => by
  simpa using List.mem_takeWhile_imp h

theorem length_keyOf_le (word : List UInt8) : (keyOf word).length ≤ word.length :=
  (List.takeWhile_prefix _).length_le

theorem length_keyOf_lt (h : equalsChar ∈ word) : (keyOf word).length < word.length := by
  conv_rhs => rw [eq_key_value h]
  simp

theorem idxOf_equals (h : equalsChar ∈ word) : word.idxOf equalsChar = (keyOf word).length := by
  conv_lhs => rw [eq_key_value h]
  rw [List.idxOf_append_of_notMem (equals_not_mem_key word), List.idxOf_cons_self, Nat.add_zero]

/-- With a NUL over its `'='`, a buffer holds the key, and behind it the value. -/
theorem cut_eq (he : equalsChar ∈ word) (hl : IsString l word) :
    ∃ r, l.set (keyOf word).length 0 = keyOf word ++ 0 :: (valueOf word ++ 0 :: r) := by
  obtain ⟨r, hr⟩ := hl.eq_append
  have hl' : l = keyOf word ++ equalsChar :: (valueOf word ++ 0 :: r) := by
    rw [hr, ← List.cons_append, ← List.append_assoc, ← eq_key_value he]
  refine ⟨r, ?_⟩
  rw [hl', List.set_append_right _ _ (Nat.le_refl _), Nat.sub_self, List.set_cons_zero]

theorem cut_key (he : equalsChar ∈ word) (hl : IsString l word) :
    IsString (l.set (keyOf word).length 0) (keyOf word) := by
  obtain ⟨r, hr⟩ := cut_eq he hl
  rw [hr]
  exact isString_append (fun h => hl.noNul (List.takeWhile_subset _ h)) _

theorem cut_value (he : equalsChar ∈ word) (hl : IsString l word) :
    IsString ((l.set (keyOf word).length 0).drop ((keyOf word).length + 1)) (valueOf word) := by
  obtain ⟨r, hr⟩ := cut_eq he hl
  rw [hr, ← List.drop_drop, List.drop_left, List.drop_succ_cons, List.drop_zero]
  refine isString_append (fun h => hl.noNul ?_) r
  rw [eq_key_value he]
  simp [h]

end Cut

/-! ## assign -/

/-- A word of the line that assigns. -/
structure Assigns (word : List UInt8) : Prop where
  equals : equalsChar ∈ word
  noNewline : newline ∉ word
  fits : word.length < argumentLength

section Assign

variable {U : Unspecified} {Q : Nat → Prop} {sh : Shell} {m : Mem} {k p base : Nat} {word : List UInt8}
  {slots : List (List UInt8 × Ptr)} {words : List (List UInt8)} {c : CommandArgument}

/-- The shell keeps everything but its memory and its environment. -/
structure SameShell (sh sh' : Shell) : Prop where
  ps1 : sh'.ps1 = sh.ps1
  pipelines : sh'.pipelines = sh.pipelines

theorem SameShell.trans {sh' sh'' : Shell} (h : SameShell sh sh') (h' : SameShell sh' sh'') :
    SameShell sh sh'' := ⟨h'.ps1.trans h.ps1, h'.pipelines.trans h.pipelines⟩

theorem Assigns.equals_mem (hw : Assigns word) : equalsChar ∈ word.takeWhile (· ≠ newline) := by
  rw [List.takeWhile_eq_self_iff.2 fun ch hch => by
    simpa using fun h : ch = newline => hw.noNewline (h ▸ hch)]
  exact hw.equals

theorem strchr_equals (hw : Assigns word) (hs : m.StringAt k 0 word) :
    strchr m (.ofBlock k 0) equalsChar = .ok (.ofBlock k (keyOf word).length) := by
  have := strchr_string (c := equalsChar) hs
  rw [if_pos hw.equals_mem, idxOf_equals hw.equals] at this
  simpa using this

variable (sh) in
theorem assign_eq (hw : Assigns word) (hs : sh.mem.StringAt k 0 word)
    (hQ : ∀ b, sh.mem.next ≤ b → Q b) (hk : ¬ Q k) (h : Holds Q sh.mem sh.environ slots)
    (hroom : keyOf word ∈ Slots.keys slots ∨ slots.length < environDataSize) :
    ∃ sh', assign U sh (.ofBlock k 0) = .ok (sh', .ofBlock k (keyOf word).length) ∧
      SameShell sh sh' ∧ Frame (fun b => b < sh.mem.next ∧ b ≠ k) sh.mem sh'.mem ∧
      sh'.mem.bytes k = (sh.mem.bytes k).set (keyOf word).length 0 ∧
      Holds Q sh'.mem sh'.environ
        (Slots.set slots (keyOf word) (.ofBlock k ((keyOf word).length + 1))) ∧
      (ShortKey (keyOf word) → Quiet p sh.mem → p ≤ sh.mem.next → Quiet p sh'.mem) := by
  have hblk := hs.lt_next
  have hbound := hs.bound
  have hlt := length_keyOf_lt hw.equals
  have hi : sh.mem.Inside k (keyOf word).length := ⟨by omega, by omega⟩
  obtain ⟨m1, hm1⟩ : ∃ m1, m1 = sh.mem.setBytes k ((sh.mem.bytes k).set (keyOf word).length 0) :=
    ⟨_, rfl⟩
  have hb1 : m1.bytes k = (sh.mem.bytes k).set (keyOf word).length 0 := by
    rw [hm1, Mem.bytes_setBytes_self hblk]
  have hn1 : m1.next = sh.mem.next := by rw [hm1, Mem.next_setBytes]
  have f1 : Frame (· ≠ k) sh.mem m1 := hm1 ▸ .setBytes (by simp) _
  have hkey : m1.StringAt k 0 (keyOf word) :=
    Mem.stringAt_of_bytes hb1 (cut_key hw.equals hs)
  have h1 : Holds Q m1 sh.environ slots :=
    h.frame f1 (fun b hb _ => fun he => hk (he ▸ hb)) fun b hb _ => hb
  have hfits := hw.fits
  obtain ⟨environ', m', he, hf, hH, hquiet⟩ := setLoop_eq (U := U) (k := p)
    (.ofBlock k ((keyOf word).length + 1)) hkey
    (by unfold argumentLength at hfits; omega) (fun b hb => hQ b (by omega)) h1 0
    (by simpa using hroom)
  rw [hn1] at hf
  refine ⟨{ sh with mem := m', environ := environ' }, ?_, ⟨rfl, rfl⟩, ?_, ?_, hH, fun hshort hq hlt => ?_⟩
  · rw [assign, strchr_equals hw hs, ok_bind, if_neg (by simp), store_inside hi, ok_bind,
      Int.toNat_natCast, ← hm1, setenv, if_neg (by decide), if_pos rfl, Ptr.add]
    rw [show ((0 : Nat) : Int) = 0 from rfl] at he
    rw [he]
    rfl
  · exact (f1.mono fun b hb => hb.2).trans (hf.mono fun b hb => hb.1)
  · rw [hf.bytes k hblk, hb1]
  · -- the NUL is not the key's first character
    have hcut : store sh.mem (.ofBlock k (keyOf word).length) 0 = .ok m1 := by
      rw [store_inside hi, Int.toNat_natCast, hm1]
    exact hquiet hshort (hq.store (List.length_pos_iff.2 hshort.ne_nil) hcut) (hn1 ▸ hlt)

/-- Where the assignments of a list of words point, the `i`-th in block `base + i`. -/
def targets (base : Nat) : Nat → List (List UInt8) → List (List UInt8 × Ptr)
  | _, [] => []
  | i, word :: words =>
    (keyOf word, .ofBlock (base + i) ((keyOf word).length + 1)) :: targets base (i + 1) words

/-- The arguments from index `i` on are the words, each in its own block. -/
def ArgsAt (m : Mem) (c : CommandArgument) (base : Nat) : Nat → List (List UInt8) → Prop
  | _, [] => True
  | i, word :: words =>
    (c.arguments i = .ofBlock (base + i) 0 ∧ m.StringAt (base + i) 0 word) ∧
      ArgsAt m c base (i + 1) words

/-- The buffers of the words after their assignments: key and value, a string each. -/
def CutAt (m : Mem) (base : Nat) : Nat → List (List UInt8) → Prop
  | _, [] => True
  | i, word :: words =>
    (m.StringAt (base + i) 0 (keyOf word) ∧
      m.StringAt (base + i) ((keyOf word).length + 1) (valueOf word)) ∧ CutAt m base (i + 1) words

theorem ArgsAt.frame {m' : Mem} {K : Nat → Prop} (hf : Frame K m m') :
    ∀ {words : List (List UInt8)} {i : Nat}, (∀ b, base + i ≤ b → b < m.next → K b) →
      ArgsAt m c base i words → ArgsAt m' c base i words
  | [], _, _, _ => trivial
  | word :: words, i, hK, ⟨⟨hc, hs⟩, hrest⟩ =>
    ⟨⟨hc, hs.frame hf (hK _ (Nat.le_refl _) hs.lt_next)⟩,
      ArgsAt.frame hf (fun b hb hlt => hK b (by omega) hlt) hrest⟩

theorem CutAt.frame {m' : Mem} {K : Nat → Prop} (hf : Frame K m m') :
    ∀ {words : List (List UInt8)} {i : Nat}, (∀ b, base + i ≤ b → b < m.next → K b) →
      CutAt m base i words → CutAt m' base i words
  | [], _, _, _ => trivial
  | word :: words, i, hK, ⟨⟨hk, hv⟩, hrest⟩ =>
    ⟨⟨hk.frame hf (hK _ (Nat.le_refl _) hk.lt_next), hv.frame hf (hK _ (Nat.le_refl _) hv.lt_next)⟩,
      CutAt.frame hf (fun b hb hlt => hK b (by omega) hlt) hrest⟩

/-- The loop over the arguments, by induction on the words that are left. -/
theorem exportLoop_eq : ∀ (words : List (List UInt8)) (i : Nat) (sh : Shell)
    (slots : List (List UInt8 × Ptr)), (∀ w ∈ words, Assigns w) → ArgsAt sh.mem c base i words →
    (∀ b, sh.mem.next ≤ b → Q b) → (∀ j < words.length, ¬ Q (base + (i + j))) →
    Holds Q sh.mem sh.environ slots →
    (Slots.setAll slots (targets base i words)).length ≤ environDataSize →
    ∃ sh', exportLoop U c words.length i sh = .ok sh' ∧ SameShell sh sh' ∧
      Frame (fun b => b < sh.mem.next ∧ (b < base + i ∨ base + i + words.length ≤ b)) sh.mem sh'.mem ∧
      CutAt sh'.mem base i words ∧
      Holds Q sh'.mem sh'.environ (Slots.setAll slots (targets base i words)) ∧
      ((∀ w ∈ words, ShortKey (keyOf w)) → Quiet p sh.mem → p ≤ sh.mem.next → Quiet p sh'.mem)
  | [], i, sh, slots, _, _, _, _, h, _ =>
    ⟨sh, rfl, ⟨rfl, rfl⟩, .refl _ _, trivial, h, fun _ hq _ => hq⟩
  | word :: words, i, sh, slots, hw, ⟨⟨hc, hs⟩, hargs⟩, hQ, hnQ, h, hroom => by
    have hw0 := hw word (by simp)
    obtain ⟨sh1, he1, hsame1, hf1, hb1, hH1, hquiet1⟩ := assign_eq (U := U) (p := p) sh hw0 hs hQ
      (by simpa using hnQ 0 (by simp)) h (Slots.room_of_setAll hroom)
    have hle := hf1.next_le
    obtain ⟨sh', he, hsame, hf, hcut, hH, hquiet⟩ := exportLoop_eq words (i + 1) sh1 _
      (fun w hm => hw w (List.mem_cons_of_mem _ hm))
      (hargs.frame hf1 fun b hb hlt => ⟨hlt, by omega⟩)
      (fun b hb => hQ b (by omega))
      (fun j hj => by
        have := hnQ (j + 1) (by simp; omega)
        rwa [show i + (j + 1) = i + 1 + j by omega] at this) hH1 hroom
    refine ⟨sh', ?_, hsame1.trans hsame, ?_, ⟨⟨?_, ?_⟩, hcut⟩, hH, fun hshort hq hlt => ?_⟩
    · rw [List.length_cons, exportLoop, hc, he1]
      exact he
    · rw [List.length_cons]
      exact (hf1.mono fun b hb => ⟨hb.1, by omega⟩).trans
        (hf.mono fun b hb => ⟨by omega, by omega⟩)
    · refine Mem.StringAt.frame hf ⟨Nat.lt_of_lt_of_le hs.lt_next hle, by omega⟩ ?_
      exact Mem.stringAt_of_bytes hb1 (cut_key hw0.equals hs)
    · refine Mem.StringAt.frame hf ⟨Nat.lt_of_lt_of_le hs.lt_next hle, by omega⟩ ?_
      exact Mem.stringAt_of_bytes hb1 (cut_value hw0.equals hs)
    · exact hquiet (fun w hm => hshort w (List.mem_cons_of_mem _ hm))
        (hquiet1 (hshort word List.mem_cons_self) hq hlt) (by omega)

/-! ## Built-in codes and PS1 -/

theorem getBuiltInCode_eq (hs : m.StringAt k 0 word) (hc : c.command = .ofBlock k 0) :
    getBuiltInCode m c =
      if cd = word then .ok builtInCd
      else if pwd = word then .ok builtInPwd
      else if exportWord = word then .ok builtInExport
      else if echo = word then .ok builtInEcho
      else if equalsChar ∈ word.takeWhile (· ≠ newline) then .ok builtInWithoutExport
      else .ok 0 := by
  have hsrc : Source.IsString m (.pointer c.command) word := ⟨k, 0, hc, hs⟩
  unfold getBuiltInCode
  rw [strcmp_literal (by decide) hsrc, strcmp_literal (by decide) hsrc, strcmp_literal (by decide) hsrc,
    strcmp_literal (by decide) hsrc, hc, show strchr m (.ofBlock k 0) equalsChar = _ from strchr_string hs,
    ok_bind]
  by_cases hequals : equalsChar ∈ word.takeWhile (· ≠ newline)
  · rw [if_pos hequals, if_pos hequals]
    rfl
  · rw [if_neg hequals, if_neg hequals]
    rfl

/-- A word that `executeCommand` does not take for a binary. -/
def BuiltInWord (word : List UInt8) : Prop := word ∈ [cd, pwd, exportWord, echo] ∨ equalsChar ∈ word

instance (word : List UInt8) : Decidable (BuiltInWord word) :=
  inferInstanceAs (Decidable (word ∈ [cd, pwd, exportWord, echo] ∨ equalsChar ∈ word))

/-- Built-ins are told by the command word alone. -/
theorem getBuiltInCode_zero_iff (hs : m.StringAt k 0 word) (hc : c.command = .ofBlock k 0)
    (hn : newline ∉ word) : getBuiltInCode m c = .ok 0 ↔ ¬ BuiltInWord word := by
  have hmem : word ∈ [cd, pwd, exportWord, echo] ↔ cd = word ∨ pwd = word ∨ exportWord = word ∨ echo = word := by
    simp [eq_comm]
  rw [getBuiltInCode_eq hs hc, List.takeWhile_eq_self_iff.2 fun ch hch => by
    simpa using fun he : ch = newline => hn (he ▸ hch), BuiltInWord, hmem]
  split_ifs with h1 h2 h3 h4 h5
  · exact iff_of_false nofun (not_not.2 (.inl (.inl h1)))
  · exact iff_of_false nofun (not_not.2 (.inl (.inr (.inl h2))))
  · exact iff_of_false nofun (not_not.2 (.inl (.inr (.inr (.inl h3)))))
  · exact iff_of_false nofun (not_not.2 (.inl (.inr (.inr (.inr h4)))))
  · exact iff_of_false nofun (not_not.2 (.inr h5))
  · refine iff_of_true rfl ?_
    rintro ((h | h | h | h) | h)
    · exact h1 h
    · exact h2 h
    · exact h3 h
    · exact h4 h
    · exact h5 h

theorem getBuiltInCode_export (hs : m.StringAt k 0 exportWord) (hc : c.command = .ofBlock k 0) :
    getBuiltInCode m c = .ok builtInExport := by
  rw [getBuiltInCode_eq hs hc]
  rfl

/-- A command with a `'='` is none of the built-ins that are compared by name. -/
theorem getBuiltInCode_assigns (hw : Assigns word) (hs : m.StringAt k 0 word)
    (hc : c.command = .ofBlock k 0) : getBuiltInCode m c = .ok builtInWithoutExport := by
  have hne : ∀ l : List UInt8, equalsChar ∉ l → ¬ l = word := fun l hl he => hl (he ▸ hw.equals)
  rw [getBuiltInCode_eq hs hc, if_neg (hne cd (by decide)), if_neg (hne pwd (by decide)),
    if_neg (hne exportWord (by decide)), if_neg (hne echo (by decide)), if_pos hw.equals_mem]

/-- The array `PS1` after the command's assignment. -/
def shown (key value l : List UInt8) : List UInt8 :=
  if key = ps1Word then value ++ List.replicate (maxPS1Length - value.length) 0 else l

theorem length_shown {key value l : List UInt8} (hl : l.length = maxPS1Length) (hv : value.length ≤ maxPS1Length) :
    (shown key value l).length = maxPS1Length := by
  unfold shown
  split
  · rw [List.length_append, List.length_replicate, Nat.add_sub_cancel' hv]
  · exact hl

/-- `PS1` is the only block that changes with the prompt. -/
theorem setPS1_eq {p o : Nat} {value key : List UInt8} (hkey : sh.mem.StringAt k 0 key)
    (hc : c.command = .ofBlock k 0) (hv : sh.mem.StringAt k o value) (hkp : k ≠ p)
    (hp : sh.ps1 = .ofBlock p 0) (hlen : (sh.mem.bytes p).length = maxPS1Length)
    (hfit : value.length ≤ maxPS1Length) :
    ∃ m', setPS1 U c (.ofBlock k o) sh = .ok { sh with mem := m' } ∧
      Frame (· ≠ p) sh.mem m' ∧ m'.next = sh.mem.next ∧ m'.bytes p = shown key value (sh.mem.bytes p) ∧
      m'.root = sh.mem.root := by
  obtain ⟨d, hd, hiff⟩ := strcmp_string (show Source.IsString sh.mem (.pointer c.command) key from
    ⟨k, 0, hc, hkey⟩) (y := .literal ps1Word) ⟨by decide, rfl⟩
  rw [setPS1, hd, ok_bind]
  -- only the key `PS1` touches the prompt
  by_cases h0 : d = 0
  · have hpn : p < sh.mem.next := Mem.lt_next_of_bytes_ne fun he => by
      rw [he] at hlen
      cases hlen
    obtain ⟨m1, hm1⟩ : ∃ m1, m1 = sh.mem.setBytes p
        (overwrite (sh.mem.bytes p) 0 (List.replicate maxPS1Length 0)) := ⟨_, rfl⟩
    have e1 : memset sh.mem (.ofBlock p 0) 0 maxPS1Length = .ok m1 := by
      have := memset_eq (o := 0) (n := maxPS1Length) (c := 0) (by decide) hpn (by omega)
      rw [hm1]
      exact this
    have f1 : Frame (· ≠ p) sh.mem m1 := hm1 ▸ .setBytes (by simp) _
    have n1 : m1.next = sh.mem.next := by rw [hm1, Mem.next_setBytes]
    have b1 : m1.bytes p = List.replicate maxPS1Length 0 := by
      rw [hm1, Mem.bytes_setBytes_self hpn, overwrite, List.take_zero, List.nil_append, Nat.zero_add,
        List.length_replicate, ← hlen, List.drop_length, List.append_nil]
    have l1 : (m1.bytes p).length = maxPS1Length := by rw [b1, List.length_replicate]
    have hv1 := hv.frame f1 hkp
    have hcopy := memcpy_eq (U := U) (d := p) (e := 0) (by unfold maxPS1Length at hfit; omega)
      hkp.symm (by omega) ((List.prefix_append value [0]).trans hv1.isPrefix) (by omega)
    rw [Nat.cast_zero] at hcopy
    refine ⟨m1.setBytes p (overwrite (m1.bytes p) 0 value), ?_, f1.trans (.setBytes (by simp) _),
      by rw [Mem.next_setBytes, n1], ?_, by rw [Mem.root_setBytes, hm1, Mem.root_setBytes]⟩
    · rw [if_pos h0, hp, e1, ok_bind, strlen_string hv1, ok_bind]
      dsimp only
      rw [hcopy]
      rfl
    · rw [Mem.bytes_setBytes_self (by omega), shown, if_pos (hiff.1 h0), b1, overwrite, List.take_zero,
        List.nil_append, Nat.zero_add, List.drop_replicate]
  · exact ⟨sh.mem, by rw [if_neg h0]; rfl, .refl _ _, rfl, by rw [shown, if_neg (mt hiff.2 h0)], rfl⟩

end Assign

/-! ## freeCommandArgument -/

/-- The first `n` bytes cleared. -/
def cleared (n : Nat) (l : List UInt8) : List UInt8 := List.replicate n 0 ++ l.drop n

/-- How far the texts of the arguments clear the command's buffer. -/
def longest (texts : List (List UInt8)) : Nat := texts.foldr (fun text n => max text.length n) 0

/-- How far the arguments' keys clear the command's buffer. -/
def longestKey (words : List (List UInt8)) : Nat :=
  words.foldr (fun word n => max (keyOf word).length n) 0

section Free

variable {U : Unspecified} {m : Mem} {k base : Nat} {c : CommandArgument} {s l : List UInt8}

theorem cleared_cleared (n n' : Nat) (l : List UInt8) :
    cleared n (cleared n' l) = cleared (max n n') l := by
  unfold cleared
  rcases Nat.le_total n n' with h | h
  · rw [Nat.max_eq_right h, List.drop_append_of_le_length (by simpa using h), List.drop_replicate,
      ← List.append_assoc, List.replicate_append_replicate, Nat.add_sub_cancel' h]
  · rw [Nat.max_eq_left h, List.drop_append, List.drop_eq_nil_of_le (by simpa using h),
      List.length_replicate, List.drop_drop, Nat.add_sub_cancel' h, List.nil_append]

theorem length_cleared {n : Nat} (h : n ≤ l.length) : (cleared n l).length = l.length := by
  simp [cleared]
  omega

theorem longest_le {texts : List (List UInt8)} {n : Nat} : longest texts ≤ n ↔ ∀ t ∈ texts, t.length ≤ n := by
  induction texts with
  | nil => simp [longest]
  | cons t texts ih =>
    rw [longest, List.foldr_cons, Nat.max_le, ← longest, ih]
    simp

theorem longest_keys (words : List (List UInt8)) : longest (words.map keyOf) = longestKey words := List.foldr_map

theorem longestKey_le {words : List (List UInt8)} {n : Nat} :
    longestKey words ≤ n ↔ ∀ w ∈ words, (keyOf w).length ≤ n := by
  rw [← longest_keys, longest_le, List.forall_mem_map]

/-- An argument that was cut at its `'='` is its key. -/
theorem CutAt.argsAt : ∀ (words : List (List UInt8)) (i : Nat), CutAt m base i words →
    (∀ j, i ≤ j → j < i + words.length → c.arguments j = .ofBlock (base + j) 0) →
    ArgsAt m c base i (words.map keyOf)
  | [], _, _, _ => trivial
  | word :: words, i, ⟨⟨hkey, _⟩, hrest⟩, hptr => by
    rw [List.length_cons] at hptr
    exact ⟨⟨hptr i (Nat.le_refl _) (by omega), hkey⟩,
      CutAt.argsAt words (i + 1) hrest fun j hj hlt => hptr j (by omega) (by omega)⟩

theorem memset_cleared {n : Nat} (hk : k < m.next) (h : n ≤ (m.bytes k).length) (hn : n < 2 ^ 31) :
    memset m (.ofBlock k 0) 0 n = .ok (m.setBytes k (cleared n (m.bytes k))) := by
  have := memset_eq (m := m) (o := 0) (n := n) (c := 0) hn hk (by omega)
  rw [overwrite, List.take_zero, List.nil_append, Nat.zero_add, List.length_replicate] at this
  exact this

/-- Every argument clears the command's buffer once more. -/
theorem freeArguments_eq (hc : c.command = .ofBlock k 0) : ∀ (texts : List (List UInt8)) (i : Nat)
    (m : Mem), ArgsAt m c base i texts → k < base → k < m.next → longest texts ≤ (m.bytes k).length →
    (m.bytes k).length < 2 ^ 31 → Quiet (k + 1) m → PageAligned U base →
    ∃ m', freeArguments U c texts.length i m = .ok m' ∧ Frame (· ≠ k) m m' ∧ m'.next = m.next ∧
      m'.bytes k = cleared (longest texts) (m.bytes k)
  | [], i, m, _, _, _, _, _, _, _ => ⟨m, rfl, .refl _ _, rfl, by simp [longest, cleared]⟩
  | text :: texts, i, m, ⟨⟨hptr, hs⟩, hrest⟩, hkb, hkn, hlen, h31, hq, hpage => by
    have hmax : longest (text :: texts) = max text.length (longest texts) := rfl
    rw [hmax, Nat.max_le] at hlen
    obtain ⟨m1, hm1⟩ : ∃ m1, m1 = m.setBytes k (cleared text.length (m.bytes k)) := ⟨_, rfl⟩
    have f1 : Frame (· ≠ k) m (release m1 (.ofBlock (base + i) 0)) :=
      (hm1 ▸ Frame.setBytes (by simp) _ : Frame (· ≠ k) m m1).trans (.release _)
    have b1 : (release m1 (.ofBlock (base + i) 0)).bytes k = cleared text.length (m.bytes k) := by
      rw [bytes_release, hm1, Mem.bytes_setBytes_self hkn]
    have n1 : (release m1 (.ofBlock (base + i) 0)).next = m.next := by
      rw [next_release, hm1, Mem.next_setBytes]
    have l1 := length_cleared hlen.1
    have q1 : Quiet (k + 1) m1 := hm1 ▸ hq.setBytes (Nat.lt_succ_self k) _
    have hfree : freeMapped U m1 (.ofBlock (base + i) 0) = .ok (release m1 (.ofBlock (base + i) 0)) :=
      q1.free (hpage _ (Nat.le_add_right _ _))
    obtain ⟨m', he, hf, hn, hb⟩ := freeArguments_eq hc texts (i + 1) _ (hrest.frame f1 fun b hb _ => by omega)
      hkb (by omega) (by rw [b1, l1]; exact hlen.2) (by rw [b1, l1]; exact h31) (q1.release _) hpage
    refine ⟨m', ?_, f1.trans hf, by rw [hn, n1], ?_⟩
    · rw [List.length_cons, freeArguments, hptr, strlen_start hs, ok_bind]
      dsimp only
      rw [hc, memset_cleared hkn hlen.1 (by omega), ok_bind, ← hm1, hfree]
      exact he
    · rw [hb, b1, cleared_cleared, hmax, Nat.max_comm]

/-- While the header at ROOT is quiet, each `free` returns. -/
theorem freeCommandArgument_eq {texts : List (List UInt8)} {t : Nat} (ht : c.trimmedInput = .ofBlock t 0)
    (hc : c.command = .ofBlock k 0) (hcount : c.argumentCount = texts.length) (hkt : k ≤ t) (hkb : k < base)
    (hs : m.StringAt k 0 s) (hargs : ArgsAt m c base 0 texts) (hlen : longest texts ≤ (m.bytes k).length)
    (h31 : (m.bytes k).length < 2 ^ 31) (hq : Quiet (k + 1) m) (hpage : PageAligned U k) :
    ∃ m', freeCommandArgument U c m = .ok m' ∧ Frame (· ≠ k) m m' ∧ m'.next = m.next ∧
      m'.bytes k = cleared (max (longest texts) s.length) (m.bytes k) := by
  have hbound := hs.bound
  have hr : Frame (· ≠ k) m (release m (.ofBlock t 0)) := .release _
  have hfree : freeMapped U m (.ofBlock t 0) = .ok (release m (.ofBlock t 0)) := hq.free (hpage t hkt)
  have hs' : (release m (.ofBlock t 0)).StringAt k 0 s :=
    Mem.stringAt_of_bytes (bytes_release _) hs
  obtain ⟨m1, hm1⟩ : ∃ m1, m1 = (release m (.ofBlock t 0)).setBytes k (cleared s.length (m.bytes k)) :=
    ⟨_, rfl⟩
  have q1 : Quiet (k + 1) m1 := hm1 ▸ (hq.release _).setBytes (Nat.lt_succ_self k) _
  have f1 : Frame (· ≠ k) m (release m1 (.ofBlock k 0)) :=
    hr.trans ((hm1 ▸ Frame.setBytes (by simp) _ : Frame (· ≠ k) _ m1).trans (.release _))
  have b1 : (release m1 (.ofBlock k 0)).bytes k = cleared s.length (m.bytes k) := by
    rw [bytes_release, hm1, Mem.bytes_setBytes_self (by simpa using hs.lt_next)]
  have n1 : (release m1 (.ofBlock k 0)).next = m.next := by
    rw [next_release, hm1, Mem.next_setBytes, next_release]
  have l1 : (cleared s.length (m.bytes k)).length = (m.bytes k).length := length_cleared (by omega)
  have hcmd : freeCommand U c (release m (.ofBlock t 0)) = .ok (release m1 (.ofBlock k 0)) := by
    have hset := memset_cleared (m := release m (.ofBlock t 0)) (k := k) (n := s.length)
      (by simpa using hs.lt_next) (by rw [bytes_release]; omega) (by omega)
    rw [bytes_release] at hset
    rw [freeCommand, hc, if_neg (by simp)]
    rw [strlen_start hs', ok_bind]
    dsimp only
    rw [hset, ok_bind, ← hm1]
    exact q1.free (hpage k (Nat.le_refl _))
  obtain ⟨m', he, hf, hn, hb⟩ := freeArguments_eq (U := U) hc texts 0 (release m1 (.ofBlock k 0))
    (hargs.frame f1 fun b hb _ => by omega) hkb (by rw [n1]; exact hs.lt_next) (by rw [b1, l1]; exact hlen)
    (by rw [b1, l1]; exact h31) (q1.release _) (fun b hb => hpage b (Nat.le_trans (Nat.le_of_lt hkb) hb))
  refine ⟨m', ?_, f1.trans hf, by rw [hn, n1], by rw [hb, b1, cleared_cleared]⟩
  rw [freeCommandArgument, ht, hfree, ok_bind, hcmd, ok_bind, hcount, Int.toNat_natCast]
  exact he

end Free

end Sbunix.Sbush
