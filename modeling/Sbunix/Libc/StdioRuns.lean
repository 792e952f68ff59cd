/-
Reading a whole stream with `fgets`, call after call up to the first NULL. Every string returned is
cut off the front of what is left, so nothing is lost before the last call; what that call has read
itself is lost.
-/
import Sbunix.Lib.Run
import Sbunix.Libc.Stdio
import Mathlib.Data.List.DropRight

namespace Sbunix.Libc

open BlockMemory Fallible Transition

/-! ## Calls of fgets -/

/-- The memory and the reads to come. -/
abbrev Reader := Mem × Stream

/-- `fgets(s, size, f)` returns the string `text`. -/
def Gets (s : Ptr) (size : Int) (x : Reader) (text : List UInt8) (y : Reader) : Prop :=
  ∃ unset r, fgets unset x.1 s size x.2 = .ok (r, y.1, y.2) ∧ y.1.String r text

/-- `fgets(s, size, f)` returns NULL. -/
def GetsNull (s : Ptr) (size : Int) (x : Reader) : Prop :=
  ∃ unset m f, fgets unset x.1 s size x.2 = .ok (.null, m, f)

/-- The strings are the whole stream, none of them empty or too long, and a newline ends the string it
is in. -/
structure WholeStream (size : Int) (bytes : List UInt8) (texts : List (List UInt8)) : Prop where
  flatten : texts.flatten = bytes
  nonempty : ∀ text ∈ texts, text ≠ []
  short : ∀ text ∈ texts, (text.length : Int) ≤ size - 1
  newlineLast : ∀ text ∈ texts, newline ∉ text.dropLast

/-- What comes behind the last newline. -/
def lastLine (bytes : List UInt8) : List UInt8 := bytes.rtakeWhile (· ≠ newline)

/-! ## One chunk -/

section Chunk

variable {n : Nat} {bytes text rest : List UInt8}

theorem chunk_append_unread : ∀ (n : Nat) (bytes : List UInt8), meetsEnd n bytes = false →
    chunk n bytes ++ unread n bytes = bytes
  | 0, _, _ => rfl
  | _ + 1, [], h => by cases h
  | n + 1, ch :: bytes, h => by
    obtain ⟨he, hnext⟩ := meetsEnd_cons h
    rw [chunk, unread, if_neg he, if_neg he]
    by_cases hn : ch = newline
    · rw [if_pos hn, if_pos hn]
      rfl
    · rw [if_neg hn, if_neg hn, List.cons_append, chunk_append_unread n bytes (hnext hn)]

theorem eofChar_not_mem_chunk : ∀ (n : Nat) (bytes : List UInt8), eofChar ∉ chunk n bytes
  | 0, _ => List.not_mem_nil
  | _ + 1, [] => List.not_mem_nil
  | n + 1, ch :: bytes => by
    rw [chunk]
    split
    · exact List.not_mem_nil
    · next he =>
      split
      · next hn => simpa using Ne.symm he
      · rw [List.mem_cons, not_or]
        exact ⟨Ne.symm he, eofChar_not_mem_chunk n bytes⟩

/-- A chunk that meets no end is a line with its newline, or `n` bytes of a line. -/
theorem chunk_cases : ∀ (n : Nat) (bytes : List UInt8), meetsEnd n bytes = false →
    (∃ line, chunk n bytes = line ++ [newline] ∧ newline ∉ line) ∨
      (newline ∉ chunk n bytes ∧ (chunk n bytes).length = n)
  | 0, _, _ => .inr ⟨List.not_mem_nil, rfl⟩
  | _ + 1, [], h => by cases h
  | n + 1, ch :: bytes, h => by
    obtain ⟨he, hnext⟩ := meetsEnd_cons h
    rw [chunk, if_neg he]
    by_cases hn : ch = newline
    · rw [if_pos hn]
      exact .inl ⟨[], by rw [hn]; rfl, List.not_mem_nil⟩
    · rw [if_neg hn]
      rcases chunk_cases n bytes (hnext hn) with ⟨line, hline, hnot⟩ | ⟨hnot, hlen⟩
      · refine .inl ⟨ch :: line, by rw [hline]; rfl, ?_⟩
        rw [List.mem_cons, not_or]
        exact ⟨Ne.symm hn, hnot⟩
      · refine .inr ⟨?_, by rw [List.length_cons, hlen]⟩
        rw [List.mem_cons, not_or]
        exact ⟨Ne.symm hn, hnot⟩

/-- What the last call finds, if it is no byte that reads as the end. -/
theorem short_of_meetsEnd : ∀ (n : Nat) (bytes : List UInt8), meetsEnd n bytes = true →
    eofChar ∉ bytes → newline ∉ bytes ∧ bytes.length < n
  | 0, _, h, _ => by cases h
  | n + 1, [], _, _ => ⟨List.not_mem_nil, Nat.succ_pos n⟩
  | n + 1, ch :: bytes, h, he => by
    rw [List.mem_cons, not_or] at he
    rw [meetsEnd, if_neg (Ne.symm he.1)] at h
    split at h
    · cases h
    · next hn =>
      obtain ⟨hnot, hlen⟩ := short_of_meetsEnd n bytes h he.2
      rw [List.mem_cons, not_or, List.length_cons]
      exact ⟨⟨Ne.symm hn, hnot⟩, Nat.succ_lt_succ hlen⟩

theorem lastLine_append (h : newline ∉ text) : lastLine (bytes ++ text) = lastLine bytes ++ text := by
  induction text using List.reverseRecOn generalizing bytes with
  | nil => rw [List.append_nil, List.append_nil]
  | append_singleton text ch ih =>
    rw [List.mem_append, not_or, List.mem_singleton] at h
    have hch : decide (ch ≠ newline) = true := decide_eq_true (Ne.symm h.2)
    unfold lastLine at ih ⊢
    rw [← List.append_assoc, List.rtakeWhile_concat_pos (fun x => decide (x ≠ newline)) _ ch hch, ih h.1,
      List.append_assoc]

theorem lastLine_newline : lastLine (bytes ++ (text ++ [newline])) = [] := by
  unfold lastLine
  rw [← List.append_assoc, List.rtakeWhile_concat_neg _ _ _ (by simp)]

end Chunk

/-! ## Runs of calls -/

/-- The buffer of `size` bytes at offset `o` of block `b`. -/
structure ReadBuffer (b o : Nat) (size : Int) (m : Mem) : Prop where
  block : b < m.next
  fits : o + (size - 1).toNat < (m.bytes b).length

/-- After the calls that returned `texts`, `rest` is still to be read. -/
structure ReadSoFar (b o : Nat) (size : Int) (bytes : List UInt8) (texts : List (List UInt8))
    (rest : List UInt8) (x : Reader) : Prop where
  buffer : ReadBuffer b o size x.1
  stream : x.2 = ofBytes rest
  split : texts.flatten ++ rest = bytes
  whole : WholeStream size texts.flatten texts
  noEof : eofChar ∉ texts.flatten
  lastLine : (size - 1).toNat ∣ (lastLine texts.flatten).length

section Runs

variable {b o : Nat} {size : Int} {bytes rest text : List UInt8} {texts : List (List UInt8)}
  {m : Mem} {x y : Reader}

theorem fgets_buffer (unset : Nat → UInt8) (h : ReadBuffer b o size m) (rest : List UInt8) :
    ∃ m', fgets unset m (.ofBlock b o) size (ofBytes rest) =
        .ok (if chunk (size - 1).toNat rest = [] ∨ meetsEnd (size - 1).toNat rest = true then .null
          else .ofBlock b o, m', ofBytes (unread (size - 1).toNat rest)) ∧
      ReadBuffer b o size m' ∧ (0 ∉ rest → m'.StringAt b o (chunk (size - 1).toNat rest)) := by
  have hlen := length_chunk_le (size - 1).toNat rest
  have hfits := h.fits
  have hset := length_overwrite (l := m.bytes b) (o := o)
    (w := chunk (size - 1).toNat rest ++ [0]) (by rw [List.length_append, List.length_singleton]; omega)
  refine ⟨_, fgets_bytes unset size rest h.block h.fits, ⟨?_, ?_⟩, fun h0 => ?_⟩
  · rw [Mem.next_setBytes]
    exact h.block
  · rw [Mem.bytes_setBytes_self h.block, hset]
    exact h.fits
  · exact Mem.stringAt_of_bytes (Mem.bytes_setBytes_self h.block)
      (isString_overwrite (by omega) fun hm => h0 ((chunk_isPrefix _ _).subset hm))

/-- A call that returns a string has met no end, and the string is the chunk it has read. -/
theorem Gets.chunk (hg : Gets (.ofBlock b o) size (m, ofBytes rest) text y)
    (h : ReadBuffer b o size m) (h0 : 0 ∉ rest) :
    ReadBuffer b o size y.1 ∧ meetsEnd (size - 1).toNat rest = false ∧
      text = chunk (size - 1).toNat rest ∧ y.2 = ofBytes (unread (size - 1).toNat rest) := by
  obtain ⟨unset, r, he, hs⟩ := hg
  obtain ⟨m', he', hbuf, hstring⟩ := fgets_buffer unset h rest
  obtain ⟨hr, hm⟩ := Prod.mk.inj (Except.ok.inj (he'.symm.trans he))
  obtain ⟨hm, hf⟩ := Prod.mk.inj hm
  subst hm
  by_cases hend : Libc.chunk (size - 1).toNat rest = [] ∨ meetsEnd (size - 1).toNat rest = true
  · rw [if_pos hend] at hr
    subst hr
    obtain ⟨_, _, hnull, _⟩ := hs
    cases hnull
  · rw [if_neg hend] at hr
    subst hr
    rw [not_or, Bool.not_eq_true] at hend
    exact ⟨hbuf, hend.2, IsString.unique (Mem.string_ofBlock_iff.1 hs) (hstring h0), hf.symm⟩

/-- A call that returns NULL has met the end. -/
theorem GetsNull.meetsEnd (hg : GetsNull (.ofBlock b o) size (m, ofBytes rest))
    (h : ReadBuffer b o size m) (hsize : 2 ≤ size) : meetsEnd (size - 1).toNat rest = true := by
  obtain ⟨unset, m1, f, he⟩ := hg
  obtain ⟨m', he', -, -⟩ := fgets_buffer unset h rest
  obtain ⟨hr, -⟩ := Prod.mk.inj (Except.ok.inj (he'.symm.trans he))
  by_contra hend
  rw [Bool.not_eq_true] at hend
  have hne := chunk_ne_nil (show (size - 1).toNat ≠ 0 by omega) hend
  rw [if_neg (not_or.2 ⟨hne, by rw [hend]; exact Bool.false_ne_true⟩)] at hr
  cases hr

/-- If the end is not met, a string is returned, and otherwise NULL. -/
theorem exists_gets (h : ReadBuffer b o size m) (hsize : 2 ≤ size) (h0 : 0 ∉ rest) :
    (meetsEnd (size - 1).toNat rest = true ∧ GetsNull (.ofBlock b o) size (m, ofBytes rest)) ∨
      ∃ text y, Gets (.ofBlock b o) size (m, ofBytes rest) text y := by
  obtain ⟨m', he, -, hstring⟩ := fgets_buffer (fun _ => 0) h rest
  cases hend : Libc.meetsEnd (size - 1).toNat rest with
  | true =>
    rw [if_pos (.inr hend)] at he
    exact .inl ⟨rfl, _, m', _, he⟩
  | false =>
    have hne := chunk_ne_nil (show (size - 1).toNat ≠ 0 by omega) hend
    rw [if_neg (not_or.2 ⟨hne, by rw [hend]; exact Bool.false_ne_true⟩)] at he
    exact .inr ⟨_, (m', _), _, _, he, Mem.string_ofBlock_iff.2 (hstring h0)⟩

theorem ReadSoFar.start (h : ReadBuffer b o size m) :
    ReadSoFar b o size bytes [] bytes (m, ofBytes bytes) where
  buffer := h
  stream := rfl
  split := rfl
  whole := ⟨rfl, by simp, by simp, by simp⟩
  noEof := List.not_mem_nil
  lastLine := Nat.dvd_zero _

/-- One call more. -/
theorem ReadSoFar.gets (h : ReadSoFar b o size bytes texts rest x) (h0 : 0 ∉ bytes) (hsize : 2 ≤ size)
    (hg : Gets (.ofBlock b o) size x text y) :
    ∃ rest', ReadSoFar b o size bytes (texts ++ [text]) rest' y ∧ rest'.length < rest.length := by
  obtain ⟨m, stream⟩ := x
  obtain rfl : stream = ofBytes rest := h.stream
  have hnul : 0 ∉ rest := fun hm => h0 (h.split ▸ List.mem_append_right _ hm)
  obtain ⟨hbuf, hend, htext, hstream⟩ := hg.chunk h.buffer hnul
  have hrest := chunk_append_unread _ _ hend
  have hne := chunk_ne_nil (show (size - 1).toNat ≠ 0 by omega) hend
  rw [← htext] at hrest hne
  have hflatten : (texts ++ [text]).flatten = texts.flatten ++ text := by simp
  refine ⟨unread (size - 1).toNat rest, ?_, ?_⟩
  · constructor
    case buffer => exact hbuf
    case stream => exact hstream
    case split => rw [hflatten, List.append_assoc, hrest, h.split]
    case whole =>
      have hcases := chunk_cases _ _ hend
      rw [← htext] at hcases
      have hlen := length_chunk_le (size - 1).toNat rest
      rw [← htext] at hlen
      constructor
      case flatten => rfl
      case nonempty =>
        intro t ht
        rcases List.mem_append.1 ht with ht | ht
        · exact h.whole.nonempty t ht
        · exact List.mem_singleton.1 ht ▸ hne
      case short =>
        intro t ht
        rcases List.mem_append.1 ht with ht | ht
        · exact h.whole.short t ht
        · rw [List.mem_singleton.1 ht]
          omega
      case newlineLast =>
        intro t ht
        rcases List.mem_append.1 ht with ht | ht
        · exact h.whole.newlineLast t ht
        · rw [List.mem_singleton.1 ht]
          rcases hcases with ⟨line, hline, hnot⟩ | ⟨hnot, -⟩
          · rwa [hline, List.dropLast_concat]
          · exact fun hm => hnot (List.dropLast_subset _ hm)
    case noEof =>
      rw [hflatten, List.mem_append, not_or, htext]
      exact ⟨h.noEof, eofChar_not_mem_chunk _ _⟩
    case lastLine =>
      rw [hflatten]
      -- a line that is finished, or a full buffer more of it
      rcases chunk_cases _ _ hend with ⟨line, hline, -⟩ | ⟨hnot, hlen⟩
      · rw [htext, hline, lastLine_newline]
        exact Nat.dvd_zero _
      · rw [htext, lastLine_append hnot, List.length_append, hlen]
        exact Nat.dvd_add h.lastLine (Nat.dvd_refl _)
  · have hlen := congrArg List.length hrest
    rw [List.length_append] at hlen
    have hpos := List.length_pos_of_ne_nil hne
    omega

theorem ReadSoFar.of_run (h : ReadBuffer b o size m) (h0 : 0 ∉ bytes) (hsize : 2 ≤ size)
    (hrun : Run (Gets (.ofBlock b o) size) (m, ofBytes bytes) texts x) :
    ∃ rest, ReadSoFar b o size bytes texts rest x := by
  refine hrun.invariant_steps (fun texts x => ∃ rest, ReadSoFar b o size bytes texts rest x)
    ⟨bytes, .start h⟩ ?_
  rintro texts x text y ⟨rest, hx⟩ hg
  obtain ⟨rest', hy, -⟩ := hx.gets h0 hsize hg
  exact ⟨rest', hy⟩

/-- The calls come to an end, by induction on what is left. -/
theorem ReadSoFar.finish (h : ReadSoFar b o size bytes texts rest x) (h0 : 0 ∉ bytes)
    (hsize : 2 ≤ size) :
    ∃ more z, Run (Gets (.ofBlock b o) size) x more z ∧ GetsNull (.ofBlock b o) size z := by
  induction hk : rest.length using Nat.strong_induction_on generalizing texts rest x with
  | _ k ih =>
    obtain ⟨m, stream⟩ := x
    obtain rfl : stream = ofBytes rest := h.stream
    have hnul : 0 ∉ rest := fun hm => h0 (h.split ▸ List.mem_append_right _ hm)
    rcases exists_gets h.buffer hsize hnul with ⟨-, hnull⟩ | ⟨text, y, hg⟩
    · exact ⟨[], _, .nil, hnull⟩
    · obtain ⟨rest', hy, hlt⟩ := h.gets h0 hsize hg
      obtain ⟨more, z, hrun, hnull⟩ := ih rest'.length (hk ▸ hlt) hy rfl
      exact ⟨text :: more, z, (Run.nil.snoc hg).trans hrun, hnull⟩

/-- What is left at the first NULL is nothing exactly if no byte reads as the end and the last line
fills whole chunks. -/
theorem ReadSoFar.rest_eq_nil_iff (h : ReadSoFar b o size bytes texts rest x)
    (hend : meetsEnd (size - 1).toNat rest = true) :
    rest = [] ↔ eofChar ∉ bytes ∧ (size - 1).toNat ∣ (Libc.lastLine bytes).length := by
  have hsplit := h.split
  constructor
  · rintro rfl
    rw [List.append_nil] at hsplit
    rw [← hsplit]
    exact ⟨h.noEof, h.lastLine⟩
  · rintro ⟨he, hdvd⟩
    have heof : eofChar ∉ rest := fun hm => he (hsplit ▸ List.mem_append_right _ hm)
    obtain ⟨hn, hlt⟩ := short_of_meetsEnd _ _ hend heof
    rw [← hsplit, lastLine_append hn, List.length_append, Nat.dvd_add_right h.lastLine] at hdvd
    exact List.eq_nil_of_length_eq_zero (Nat.eq_zero_of_dvd_of_lt hdvd hlt)

theorem ReadSoFar.whole_iff (h : ReadSoFar b o size bytes texts rest x) :
    WholeStream size bytes texts ↔ rest = [] := by
  constructor
  · intro hw
    have hsplit := h.split
    rw [hw.flatten] at hsplit
    exact List.append_right_eq_self.1 hsplit
  · rintro rfl
    have hsplit := h.split
    rw [List.append_nil] at hsplit
    exact hsplit ▸ h.whole

/-- At the first NULL. -/
theorem whole_iff_of_run (h : ReadBuffer b o size m) (h0 : 0 ∉ bytes) (hsize : 2 ≤ size)
    (hrun : Run (Gets (.ofBlock b o) size) (m, ofBytes bytes) texts x)
    (hnull : GetsNull (.ofBlock b o) size x) : WholeStream size bytes texts ↔
      eofChar ∉ bytes ∧ (size - 1).toNat ∣ (Libc.lastLine bytes).length := by
  obtain ⟨rest, hx⟩ := ReadSoFar.of_run h h0 hsize hrun
  obtain ⟨m', stream⟩ := x
  obtain rfl : stream = ofBytes rest := hx.stream
  rw [hx.whole_iff]
  exact hx.rest_eq_nil_iff (hnull.meetsEnd hx.buffer hsize)

end Runs

/-- The calls of `fgets` come to a first NULL, and the strings before it are the whole stream. -/
def ReadsWhole (s : Ptr) (size : Int) (m : Mem) (bytes : List UInt8) : Prop :=
  (∃ texts x, Run (Gets s size) (m, ofBytes bytes) texts x ∧ GetsNull s size x) ∧
    ∀ texts x, Run (Gets s size) (m, ofBytes bytes) texts x → GetsNull s size x →
      WholeStream size bytes texts

/-- Any stream without NULs is returned whole exactly if no byte of it is 0xFF and what comes behind
its last newline fills the buffer some number of times. -/
theorem reads_whole_iff {b o : Nat} {size : Int} {m : Mem} {bytes : List UInt8}
    (h : ReadBuffer b o size m) (hsize : 2 ≤ size) (h0 : 0 ∉ bytes) :
    ReadsWhole (.ofBlock b o) size m bytes ↔
      eofChar ∉ bytes ∧ (size - 1).toNat ∣ (lastLine bytes).length := by
  have hstart : ReadSoFar b o size bytes [] bytes (m, ofBytes bytes) := .start h
  obtain ⟨texts, x, hrun, hnull⟩ := hstart.finish h0 hsize
  constructor
  · intro hw
    exact (whole_iff_of_run h h0 hsize hrun hnull).1 (hw.2 texts x hrun hnull)
  · intro hcond
    exact ⟨⟨texts, x, hrun, hnull⟩, fun texts x hrun hnull =>
      (whole_iff_of_run h h0 hsize hrun hnull).2 hcond⟩

/-- A buffer of 1000 bytes. -/
def bufferMem : Mem := { blocks := [List.replicate 1000 0], released := [], stray := [] }

theorem readBuffer_bufferMem : ReadBuffer 0 0 1000 bufferMem where
  block := Nat.zero_lt_one
  fits := by
    show 0 + 999 < (List.replicate 1000 (0 : UInt8)).length
    rw [List.length_replicate]
    exact Nat.lt_succ_self 999

/-- `"a\n"` is returned whole. -/
theorem reads_whole_line : ReadsWhole (.ofBlock 0 0) 1000 bufferMem [97, newline] :=
  (reads_whole_iff readBuffer_bufferMem (by decide) (by decide)).2 ⟨by decide, by decide⟩

/-- Of `"a"`, without a newline, nothing is. -/
theorem last_chunk_lost : ¬ ReadsWhole (.ofBlock 0 0) 1000 bufferMem [97] := by
  rintro ⟨⟨texts, x, hrun, hnull⟩, hwhole⟩
  have hcond := (whole_iff_of_run readBuffer_bufferMem (by decide) (by decide) hrun hnull).1
    (hwhole texts x hrun hnull)
  exact absurd hcond.2 (by decide)

end Sbunix.Libc
