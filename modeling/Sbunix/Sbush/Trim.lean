/-
What `trim` does to a line: the copy is the line without its leading spaces and its trailing run
of spaces, newlines and `'&'`, and the call fails exactly when the copy and the leading spaces
together pass the end of the 500-byte buffer.

The terminator is stored at `right_index + 2`, an index into the line, not into the copy: it is
one past the leading spaces and the copied bytes.
-/
import Sbunix.Sbush.Parser
import Mathlib.Data.List.DropRight

namespace Sbunix.Sbush

open BlockMemory Fallible Libc

/-! ## The parts of a line -/

def isJunk (ch : UInt8) : Bool := ch = space ∨ ch = newline ∨ ch = ampersand

def leading (line : List UInt8) : List UInt8 := line.takeWhile (· = space)

def unindented (line : List UInt8) : List UInt8 := line.dropWhile (· = space)

def trimmed (line : List UInt8) : List UInt8 := (unindented line).rdropWhile isJunk

def hasAmpersand (line : List UInt8) : Bool := ampersand ∈ (unindented line).rtakeWhile isJunk

/-- `right_index` runs below zero: no character of the line stops it, not even a leading space. -/
def Unstopped (line : List UInt8) : Prop := leading line = [] ∧ trimmed line = []

instance (line : List UInt8) : Decidable (Unstopped line) := inferInstanceAs (Decidable (_ ∧ _))

/-- A newline occurs as the last character only, as in what `fgets` delivers. -/
def NewlineLast (line : List UInt8) : Prop := ∀ pre post, line = pre ++ newline :: post → post = []

theorem newlineLast_snoc {text : List UInt8} (h : newline ∉ text) : NewlineLast (text ++ [newline]) := by
  intro pre post he
  rcases List.eq_nil_or_concat post with hp | ⟨post, ch, rfl⟩
  · exact hp
  · rw [List.concat_eq_append, ← List.cons_append, ← List.append_assoc] at he
    refine absurd ?_ h
    rw [List.append_inj_left' he rfl]
    simp

theorem leading_append (line : List UInt8) : leading line ++ unindented line = line :=
  List.takeWhile_append_dropWhile

theorem trimmed_noNul {line : List UInt8} (h : 0 ∉ line) : 0 ∉ trimmed line := fun h0 =>
  h ((List.dropWhile_sublist _).subset ((List.rdropWhile_prefix _ _).subset h0))

theorem trimmed_getLast {line : List UInt8} (h : trimmed line ≠ []) :
    ¬ isJunk ((trimmed line).getLast h) = true :=
  List.rdropWhile_last_not isJunk (unindented line) h

theorem NewlineLast.trimmed {line : List UInt8} (h : NewlineLast line) : newline ∉ trimmed line := by
  intro hm
  obtain ⟨a, c, hac⟩ := List.append_of_mem hm
  have hline : line = (leading line ++ a) ++ newline ::
      (c ++ (unindented line).rtakeWhile isJunk) := by
    calc line = leading line ++ unindented line := (leading_append line).symm
      _ = leading line ++ (Sbush.trimmed line ++ (unindented line).rtakeWhile isJunk) := by
        rw [Sbush.trimmed, List.rdropWhile_append_rtakeWhile]
      _ = _ := by rw [hac]; simp
  have hc : c = [] := (List.append_eq_nil_iff.1 (h _ _ hline)).1
  have hlast := trimmed_getLast (List.ne_nil_of_mem hm)
  simp only [hac, hc, List.getLast_append_singleton] at hlast
  exact hlast (by decide)

/-! ## The loops -/

section Loops

variable {U : Unspecified} {m : Mem} {b o : Nat} {line : List UInt8}

theorem load_char (h : m.StringAt b o line) (pre suf : List UInt8) (ch : UInt8)
    (hl : line = pre ++ ch :: suf) :
    load U m ((Ptr.ofBlock b o).add pre.length) = .ok (ch, m) := by
  have := h.load (U := U) (i := pre.length) (by omega) (by rw [hl]; simp; omega)
  rw [Ptr.add, this, hl]
  simp [List.getD_eq_getElem?_getD]

theorem load_nul (h : m.StringAt b o line) :
    load U m ((Ptr.ofBlock b o).add line.length) = .ok (0, m) := by
  have := h.load (U := U) (i := line.length) (by omega) (by omega)
  rw [Ptr.add, this]
  simp [List.getD_eq_getElem?_getD]

theorem skipSpaces_eq (h : m.StringAt b o line) : ∀ pre suf : List UInt8, line = pre ++ suf →
    skipSpaces U (.ofBlock b o) (line.length - 1) m pre.length =
      .ok ((pre.length + (leading suf).length : Nat), m)
  | pre, [], hl => by
    rw [List.append_nil] at hl
    rw [skipSpaces, ← hl, load_nul h, ok_bind]
    simp [space, leading, pure_eq_ok]
  | pre, ch :: suf, hl => by
    rw [skipSpaces, load_char h pre suf ch hl, ok_bind]
    have hlen := congrArg List.length hl
    rw [List.length_append, List.length_cons] at hlen
    by_cases hc : ch = space
    · have ih := skipSpaces_eq h (pre ++ [ch]) suf (by simp [hl])
      rw [List.length_append, List.length_singleton] at ih
      have hle : (pre.length : Int) ≤ line.length - 1 := by omega
      simp only [dif_pos (And.intro hc hle)]
      rw [show (pre.length : Int) + 1 = (pre.length + 1 : Nat) by omega, ih]
      rw [leading, leading, List.takeWhile_cons_of_pos (by simp [hc]), List.length_cons]
      congr 3
      omega
    · simp only [dif_neg (show ¬ (ch = space ∧ (pre.length : Int) ≤ line.length - 1) by simp [hc])]
      rw [leading, List.takeWhile_cons_of_neg (by simp [hc])]
      simp [pure_eq_ok]

/-- `init` is what is left of the unindented line when `right_index` stands at its end. -/
theorem skipJunk_eq (h : m.StringAt b o line) (lead init suf : List UInt8)
    (hl : line = lead ++ (init ++ suf)) (bg : Int) :
    skipJunk U (.ofBlock b o) lead.length m
        (lead.length + init.length - 1) bg =
      .ok (lead.length + (init.rdropWhile isJunk).length - 1,
        if ampersand ∈ init.rtakeWhile isJunk then 1 else bg,
        if lead = [] ∧ init.rdropWhile isJunk = [] then m.noted b (o - 1) else m) := by
  induction init using List.reverseRecOn generalizing suf bg with
  | nil =>
    rw [skipJunk]
    have hlt : ¬ (lead.length : Int) ≤ lead.length + ([] : List UInt8).length - 1 := by
      simp
    simp only [and_true, List.rdropWhile_nil, List.rtakeWhile_nil, List.not_mem_nil, if_false]
    -- with no spaces in front the last read is at `right_index = -1`, before the line
    rcases List.eq_nil_or_concat (lead) with he | ⟨pre, ch, he⟩
    · simp only [he, List.length_nil, Ptr.add, load, ok_bind]
      rw [dif_neg (by simp)]
      simp [pure_eq_ok, Int.sub_eq_add_neg]
    · rw [List.concat_eq_append] at he
      have hload : load U m ((Ptr.ofBlock b o).add (lead.length + ([] : List UInt8).length - 1)) =
          .ok (ch, m) := by
        rw [show (lead.length : Int) + ([] : List UInt8).length - 1 = pre.length by
          rw [he]; simp]
        exact load_char h pre suf ch (by rw [hl, he]; simp)
      rw [hload, ok_bind]
      simp only [dif_neg (fun hh : _ ∧ _ => hlt hh.2)]
      rw [if_neg (show ¬ lead = [] by rw [he]; simp)]
      rfl
  | append_singleton init ch ih =>
    rw [skipJunk]
    have hload : load U m ((Ptr.ofBlock b o).add
        (lead.length + (init ++ [ch]).length - 1)) = .ok (ch, m) := by
      rw [show (lead.length : Int) + (init ++ [ch]).length - 1 =
        (lead ++ init).length by simp; omega]
      exact load_char h _ suf ch (by rw [hl]; simp)
    rw [hload, ok_bind]
    have hle : (lead.length : Int) ≤ lead.length + (init ++ [ch]).length - 1 := by
      rw [List.length_append, List.length_singleton]
      omega
    -- a `'&'` sets the flag, and every character of its kind moves the index
    by_cases hj : isJunk ch
    · have hch : ch = space ∨ ch = newline ∨ ch = ampersand := by simpa [isJunk] using hj
      simp only [dif_pos (And.intro hch hle)]
      rw [show (lead.length : Int) + (init ++ [ch]).length - 1 - 1 =
        lead.length + init.length - 1 by simp; omega,
        ih (ch :: suf) (by rw [hl]; simp), List.rdropWhile_concat_pos _ _ _ hj,
        List.rtakeWhile_concat_pos _ _ _ hj]
      by_cases ha : ch = ampersand
      · simp [ha]
      · simp [ha, Ne.symm ha]
    · have hch : ¬ (ch = space ∨ ch = newline ∨ ch = ampersand) := by simpa [isJunk] using hj
      simp only [dif_neg (fun hh : _ ∧ _ => hch hh.1)]
      rw [List.rdropWhile_concat_neg _ _ _ hj, List.rtakeWhile_concat_neg _ _ _ hj]
      simp [pure_eq_ok]

/-- The copy goes to the end of what is `done`, as long as it fits the buffer. -/
theorem copyTrimmed_eq {t : Nat} (hbt : b ≠ t) (ht : t < m.next) (h : m.StringAt b o line)
    (pre suf post done : List UInt8) (hl : line = pre ++ (suf ++ post)) (hd : done.length ≤ inputLength)
    (hm : m.bytes t = done ++ List.replicate (inputLength - done.length) 0) :
    copyTrimmed U (.ofBlock b o) (.ofBlock t 0) (pre.length + suf.length - 1) m pre.length done.length =
      if (done ++ suf).length ≤ inputLength then
        .ok (m.setBytes t (done ++ suf ++ List.replicate (inputLength - (done ++ suf).length) 0))
      else .error .outside := by
  induction suf generalizing m pre done with
  | nil =>
    rw [copyTrimmed, dif_neg (by simp)]
    rw [List.append_nil, if_pos hd, ← hm, setBytes_bytes ht]
    rfl
  | cons ch suf ih =>
    rw [copyTrimmed, dif_pos (by rw [List.length_cons]; omega),
      load_char h pre (suf ++ post) ch (by simpa using hl)]
    simp only [ok_bind, Ptr.add]
    have hlen : (m.bytes t).length = inputLength := by
      rw [hm]
      simp
      omega
    -- the store at `count` is inside the 500 bytes, or a fault
    rcases Nat.lt_or_ge done.length inputLength with hlt | hge
    · have hi : m.Inside t (0 + done.length) := ⟨by omega, by rw [hlen]; omega⟩
      rw [store_inside hi, ok_bind]
      have hset : (m.bytes t).set (0 + (done.length : Int)).toNat ch =
          (done ++ [ch]) ++ List.replicate (inputLength - (done ++ [ch]).length) 0 := by
        rw [hm, show (0 + (done.length : Int)).toNat = done.length by omega,
          List.set_append_right _ _ (Nat.le_refl _), Nat.sub_self,
          show inputLength - done.length = (inputLength - (done ++ [ch]).length) + 1 by
            simp; omega, List.replicate_succ, List.set_cons_zero]
        simp
      rw [hset]
      have hs := ih (m := m.setBytes t ((done ++ [ch]) ++
          List.replicate (inputLength - (done ++ [ch]).length) 0))
        (by simpa using ht) (h.frame (K := (· ≠ t)) (.setBytes (by simp) _) hbt)
        (pre ++ [ch]) (done ++ [ch]) (by simp [hl]) (by simp; omega)
        (Mem.bytes_setBytes_self ht)
      rw [setBytes_setBytes] at hs
      simp only [List.length_append, List.length_cons, List.append_assoc,
        List.singleton_append, Nat.cast_add, Nat.cast_one] at hs ⊢
      rw [show (pre.length : Int) + (suf.length + 1) - 1 = pre.length + 1 + suf.length - 1 by omega]
      exact hs
    · have hi : ¬ m.Inside t (0 + done.length) := fun hi => by
        have := hi.2
        rw [hlen] at this
        omega
      rw [store_outside hi, if_neg (by simp; omega)]
      rfl

end Loops

/-! ## trim -/

/-- What a successful `trim` leaves: its three blocks behind those of before, which keep their
bytes. The read before the line is the one `right_index = -1` makes. -/
structure Trimmed (m : Mem) (b o : Nat) (line : List UInt8) (c : CommandArgument) (m' : Mem) :
    Prop where
  frame : Frame (· < m.next) (if Unstopped line then m.noted b (o - 1) else m) m'
  next : m'.next = m.next + 3
  command : c.command = .ofBlock (m.next + 1) 0
  commandBytes : m'.bytes (m.next + 1) = List.replicate commandLength 0
  trimmedInput : c.trimmedInput = .ofBlock (m.next + 2) 0
  inputBytes : m'.bytes (m.next + 2) =
    trimmed line ++ List.replicate (inputLength - (trimmed line).length) 0
  root : RootIn (m.next + 2) m'
  isBackground : c.isBackground = if hasAmpersand line then 1 else 0

section Trim

variable {U : Unspecified} {m : Mem} {b o : Nat} {line : List UInt8}

/-- The memory in which the loops start. -/
theorem trim_open (h : m.StringAt b o line) : ∃ m', Frame (· < m.next) m m' ∧ m'.next = m.next + 3 ∧
    m'.bytes (m.next + 1) = List.replicate commandLength 0 ∧
    m'.bytes (m.next + 2) = List.replicate inputLength 0 ∧ RootIn (m.next + 2) m' ∧
    trim U (.ofBlock b o) m = (do
      let (leftIndex, m1) ← skipSpaces U (.ofBlock b o) (line.length - 1) m' 0
      let (rightIndex, isBackground, m2) ←
        skipJunk U (.ofBlock b o) leftIndex m1 (line.length - 1) 0
      let m3 ← copyTrimmed U (.ofBlock b o) (.ofBlock (m.next + 2) 0) rightIndex m2 leftIndex 0
      let m4 ← store m3 (.ofBlock (m.next + 2) (rightIndex + 2)) 0
      return ({
        trimmedInput := .ofBlock (m.next + 2) 0
        command := .ofBlock (m.next + 1) 0
        arguments := fun _ => .wild
        isBackground
        argumentCount := (U.fresh m.next (sizeofCommandArgument - 4)).toNat }, m4)) := by
  have f1 : Frame (· < m.next) m (mallocBlock U m sizeofCommandArgument).2 := frame_malloc (Nat.lt_irrefl _)
  obtain ⟨m2, e2, f2, n2, b2, r2⟩ := memset_malloc (U := U) (m := (mallocBlock U m sizeofCommandArgument).2)
    (n := commandLength) (by decide)
  obtain ⟨m3, e3, f3, n3, b3, r3⟩ := memset_malloc (U := U) (m := m2) (n := inputLength) (by decide)
  simp only [next_malloc] at e2 f2 n2 b2
  rw [n2] at e3 f3 n3 b3
  have f : Frame (· < m.next) m m2 := f1.trans (f2.mono fun _ => by omega)
  have hlen : strlen U (mallocBlock U m2 inputLength).2 (.ofBlock b o) =
      .ok (line.length, (mallocBlock U m2 inputLength).2) :=
    strlen_string ((h.frame f h.lt_next).frame (frame_malloc (K := (· < m2.next)) (by simp))
      (Nat.lt_of_lt_of_le h.lt_next f.next_le))
  have hroot : m2.root.isSome := by rw [r2]; rfl
  refine ⟨m3, f.trans (f3.mono fun _ => by omega), by omega, ?_, b3, n2 ▸ (RootIn.malloc hroot).of_root r3, ?_⟩
  · rw [f3.bytes _ (by omega), b2]
  · unfold trim
    simp only [malloc_fst, next_malloc, e2, ok_bind, n2, hlen, e3, Ptr.add, zero_add]

theorem length_split (line : List UInt8) : line.length =
    (leading line).length + (unindented line).length := by
  rw [← List.length_append, leading_append]

theorem trim_loops (h : m.StringAt b o line) : ∃ m',
    Frame (· < m.next) (if Unstopped line then m.noted b (o - 1) else m) m' ∧
    m'.next = m.next + 3 ∧ m'.bytes (m.next + 1) = List.replicate commandLength 0 ∧
    m'.bytes (m.next + 2) = List.replicate inputLength 0 ∧ RootIn (m.next + 2) m' ∧
    trim U (.ofBlock b o) m =
      (if (trimmed line).length ≤ inputLength then
        .ok (m'.setBytes (m.next + 2) (trimmed line ++
          List.replicate (inputLength - (trimmed line).length) 0))
      else .error .outside) >>= fun m3 =>
      store m3 (.ofBlock (m.next + 2)
        ((leading line).length + (trimmed line).length - 1 + 2)) 0 >>= fun m4 =>
      .ok ({
        trimmedInput := .ofBlock (m.next + 2) 0
        command := .ofBlock (m.next + 1) 0
        arguments := fun _ => .wild
        isBackground := if hasAmpersand line then 1 else 0
        argumentCount := (U.fresh m.next (sizeofCommandArgument - 4)).toNat }, m4) := by
  obtain ⟨m3, f, n3, b1, b2, hroot, he⟩ := trim_open (U := U) h
  have hb := h.lt_next
  have h3 := h.frame f hb
  have hleft := skipSpaces_eq (U := U) h3 [] line rfl
  have hright := skipJunk_eq (U := U) h3 (leading line) (unindented line) []
    (by rw [List.append_nil, leading_append]) 0
  have hsplit : (line.length : Int) - 1 =
      (leading line).length + (unindented line).length - 1 := by
    rw [length_split]
    push_cast
    rfl
  rw [← hsplit] at hright
  simp only [List.length_nil, Nat.zero_add, Nat.cast_zero] at hleft
  rw [← trimmed] at hright
  -- `m4` is `m3` but for the read before the line
  set m4 := if leading line = [] ∧ trimmed line = [] then m3.noted b (o - 1) else m3 with hm4
  have f4 : Frame (· < m.next) (if Unstopped line then m.noted b (o - 1) else m) m4 := by
    rw [hm4]
    by_cases hu : Unstopped line
    · rw [if_pos hu, if_pos (show _ ∧ _ from hu)]
      exact f.noted_noted hb _
    · rw [if_neg hu, if_neg (show ¬ (_ ∧ _) from hu)]
      exact f
  have b4 : ∀ c, m4.bytes c = m3.bytes c := fun c => by rw [hm4]; split <;> simp
  have n4 : m4.next = m.next + 3 := by rw [hm4, ← n3]; split <;> simp
  have h4 : m4.StringAt b o line := Mem.stringAt_of_bytes (b4 b) h3
  have hcopy := copyTrimmed_eq (U := U) (t := m.next + 2) (by omega) (by omega) h4 (leading line)
    (trimmed line) ((unindented line).rtakeWhile isJunk) []
    (by rw [trimmed, List.rdropWhile_append_rtakeWhile, leading_append])
    (by simp) (by rw [b4, b2]; simp)
  have r4 : m4.root = m3.root := by rw [hm4]; split <;> simp
  refine ⟨m4, f4, n4, by rw [b4, b1], by rw [b4, b2], hroot.of_root r4, ?_⟩
  rw [he, hleft]
  simp only [ok_bind, hright]
  simp only [List.length_nil, Nat.cast_zero, List.nil_append] at hcopy
  rw [hcopy]
  simp only [hasAmpersand, decide_eq_true_eq]
  rfl

theorem trim_fits (h : m.StringAt b o line)
    (hf : (leading line).length + (trimmed line).length + 2 ≤ inputLength) :
    ∃ c m', trim U (.ofBlock b o) m = .ok (c, m') ∧ Trimmed m b o line c m' := by
  obtain ⟨m3, f, n3, b1, b2, hroot, he⟩ := trim_loops (U := U) h
  have ht : m.next + 2 < m3.next := by omega
  have hlen : (trimmed line ++ List.replicate (inputLength - (trimmed line).length) (0 : UInt8)).length =
      inputLength := by
    simp
    omega
  rw [if_pos (by omega), ok_bind, store_inside, ok_bind] at he
  · refine ⟨_, _, he, ?_⟩
    rw [setBytes_setBytes, Mem.bytes_setBytes_self ht]
    refine ⟨f.trans (.setBytes (by simp) _), by simpa using n3, rfl, ?_, rfl, ?_, hroot.of_root rfl, rfl⟩
    · rw [Mem.bytes_setBytes_ne (by omega), b1]
    · -- the terminator falls on a byte that is NUL already
      rw [Mem.bytes_setBytes_self ht, List.set_append_right _ _ (by omega)]
      congr 1
      exact List.set_replicate_self
  · constructor
    · omega
    · rw [Mem.bytes_setBytes_self ht, hlen]
      omega

theorem trim_overflows (h : m.StringAt b o line)
    (hf : ¬ (leading line).length + (trimmed line).length + 2 ≤ inputLength) :
    trim U (.ofBlock b o) m = .error .outside := by
  obtain ⟨m3, f, n3, b1, b2, -, he⟩ := trim_loops (U := U) h
  rw [he]
  by_cases hl : (trimmed line).length ≤ inputLength
  · rw [if_pos hl, ok_bind, store_outside]
    · rfl
    · intro hi
      have := hi.2
      rw [Mem.bytes_setBytes_self (by omega)] at this
      simp at this
      omega
  · rw [if_neg hl]
    rfl

/-- The copy of a short line does not reach the field `next` of the header in its buffer. -/
theorem Trimmed.nextEmpty {c : CommandArgument} {m' : Mem} (h : Trimmed m b o line c m')
    (hl : (trimmed line).length ≤ 16) : rootNext m' = 0 := by
  rw [rootNext_eq_zero_iff]
  intro i h16 h24
  have hlen : i < (m'.bytes (m.next + 2)).length := by
    rw [h.inputBytes, List.length_append, List.length_replicate, inputLength]
    omega
  rw [h.root.rootByte hlen, h.inputBytes, List.getD_append_right _ _ _ _ (by omega),
    List.getD_eq_getElem?_getD, List.getElem?_replicate]
  split <;> rfl

/-! ## The result -/

theorem leading_trimmed_le (line : List UInt8) :
    (leading line).length + (trimmed line).length ≤ line.length := by
  have h : (trimmed line).length ≤ (unindented line).length :=
    (List.rdropWhile_prefix _ _).length_le
  rw [length_split line]
  omega

/-- Text without a `'&'` in front does not change whether the trailing run has one. -/
theorem mem_trailing_append {lead : List UInt8} (hlead : ampersand ∉ lead) (text : List UInt8) :
    ampersand ∈ (lead ++ text).rtakeWhile isJunk ↔ ampersand ∈ text.rtakeWhile isJunk := by
  induction text using List.reverseRecOn with
  | nil =>
    rw [List.append_nil]
    exact iff_of_false (fun h => hlead ((List.rtakeWhile_suffix isJunk lead).subset h)) List.not_mem_nil
  | append_singleton text ch ih =>
    rw [← List.append_assoc]
    by_cases hj : isJunk ch = true
    · rw [List.rtakeWhile_concat_pos _ _ _ hj, List.rtakeWhile_concat_pos _ _ _ hj, List.mem_append,
        List.mem_append, ih]
    · rw [List.rtakeWhile_concat_neg _ _ _ hj, List.rtakeWhile_concat_neg _ _ _ hj]

theorem hasAmpersand_iff (line : List UInt8) :
    hasAmpersand line = true ↔ ampersand ∈ line.rtakeWhile isJunk := by
  have hlead : ampersand ∉ leading line := fun h => by
    have hspace : ampersand = space := by simpa using List.mem_takeWhile_imp h
    exact absurd hspace (by decide)
  rw [hasAmpersand, decide_eq_true_eq, ← mem_trailing_append hlead, leading_append]

/-- The copy is the line without its leading spaces and its trailing run of spaces, newlines and
`'&'`, and the flag says whether that run has a `'&'`. -/
structure TrimsRight (line : List UInt8) (c : CommandArgument) (m : Mem) : Prop where
  text : m.String c.trimmedInput (trimmed line)
  isBackground : c.isBackground = if ampersand ∈ line.rtakeWhile isJunk then 1 else 0

theorem Trimmed.right {c : CommandArgument} {m' : Mem} (h : Trimmed m b o line c m') (h0 : 0 ∉ line)
    (hl : (trimmed line).length < inputLength) : TrimsRight line c m' := by
  constructor
  case text =>
    refine ⟨m.next + 2, 0, h.trimmedInput, Mem.stringAt_of_bytes h.inputBytes ?_⟩
    rw [List.drop_zero, show inputLength - (trimmed line).length = inputLength - (trimmed line).length - 1 + 1
      by omega, List.replicate_succ]
    exact isString_append (trimmed_noNul h0) _
  case isBackground =>
    rw [h.isBackground]
    exact if_congr (hasAmpersand_iff line) rfl rfl

/-- Every line of at most 498 bytes is trimmed right. -/
theorem trim_right (U : Unspecified) (h : m.StringAt b o line) (hl : line.length ≤ 498) :
    ∃ c m', trim U (.ofBlock b o) m = .ok (c, m') ∧ TrimsRight line c m' := by
  have hle := leading_trimmed_le line
  have hfits : (leading line).length + (trimmed line).length + 2 ≤ inputLength := by
    unfold inputLength
    omega
  obtain ⟨c, m', he, ht⟩ := trim_fits (U := U) h hfits
  exact ⟨c, m', he, ht.right h.noNul (by omega)⟩

end Trim

/-- A memory that holds only a line. -/
def lineMem (line : List UInt8) : Mem := { blocks := [line ++ [0]], released := [], stray := [] }

/-- Every block at the start of a page of its own. -/
def pageAddress : Ptr → Nat
  | .ofBlock b o => ((b + 1) * 4096 + o).toNat
  | _ => 0

/-- Every fresh byte is `v`. -/
def filled (v : UInt8) : Unspecified where
  fresh _ _ := v
  outside _ _ := 0
  overrun _ := 0
  address := pageAddress
  listEnds _ _ _ := false

theorem pageAligned_filled (v : UInt8) (n : Nat) : PageAligned (filled v) n := by
  intro b _
  show (((b : Int) + 1) * 4096 + 0).toNat % 4096 = 0
  omega

/-- `" ls & \n"` -/
def backgroundLine : List UInt8 := [space, 108, 115, space, ampersand, space, newline]

theorem trim_right_background : ∃ c m',
    trim (filled 0) (.ofBlock 0 0) (lineMem backgroundLine) = .ok (c, m') ∧ TrimsRight backgroundLine c m' :=
  trim_right (filled 0) (isString_append (by decide) []) (by decide)

end Sbunix.Sbush
