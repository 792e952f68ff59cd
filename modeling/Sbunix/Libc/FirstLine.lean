/-
What `readline` makes of the first line of an input, however `read` splits it: only a line that ends
within its last chunk, with a NUL behind it by chance, is returned as it is.
-/
import Sbunix.Libc.Readline

namespace Sbunix.Libc

open BlockMemory Fallible

/-! ## Inputs -/

/-- The bytes still to be read, and how many of them each `read` to come delivers at most. -/
structure Input where
  bytes : List UInt8
  sizes : Nat → Nat

def Input.read (n : Nat) (input : Input) : Answer × Input :=
  (some (input.bytes.take (min n (input.sizes 0))),
    ⟨input.bytes.drop (min n (input.sizes 0)), fun i => input.sizes (i + 1)⟩)

/-- `readline` returns the line, with its newline, as a string in a block it has allocated and not
released, and what comes behind the line is still to be read. -/
def ReadsFirstLine (U : Unspecified) (m : Mem) (line rest : List UInt8) (sizes : Nat → Nat) : Prop :=
  ∃ fuel b m' input, readline U Input.read fuel m ⟨line ++ newline :: rest, sizes⟩ =
      .ok (.ofBlock b 0, m', input) ∧
    m.next ≤ b ∧ b ∉ m'.released ∧ m'.StringAt b 0 (line ++ [newline]) ∧ input.bytes = rest

/-- `ℓ` bytes, the newline included, and `more` behind them: all but the last ones are read in full
chunks, the last ones are less than a chunk, and read alone, and the byte behind them in the last buffer is a
NUL. -/
structure ReadInChunks (U : Unspecified) (m : Mem) (ℓ more : Nat) (sizes : Nat → Nat) : Prop where
  short : ℓ < 2 ^ 31 - 4
  full : ∀ i < ℓ / 4, 4 ≤ sizes i
  part : 0 < ℓ % 4
  alone : min (sizes (ℓ / 4)) (ℓ % 4 + more) = ℓ % 4
  nul : behind U m ℓ = 0

/-- Every time the buffer is replaced, with `k` chunks before the last one in it, `free` comes back and has left
the blocks as they are. -/
def FreesBuffers (U : Unspecified) (m : Mem) (line : List UInt8) (chunks : Nat) : Prop :=
  ∀ k < chunks, SparesBuffer U m k (line.take (4 * (k + 1))) ∧ FreeEnds U m k (line.take (4 * (k + 1)))

instance (U : Unspecified) (m : Mem) (line : List UInt8) (chunks : Nat) : Decidable (FreesBuffers U m line chunks) :=
  inferInstanceAs (Decidable (∀ k < chunks, _))

section Lines

variable {U : Unspecified} {m : Mem} {k : Nat} {line rest pre after : List UInt8} {sizes : Nat → Nat}
  {s s' : Locals Input}

theorem Input.read_length (n : Nat) (input : Input) (text : List UInt8) (h : (Input.read n input).1 = some text) :
    text.length ≤ n := by
  cases h
  rw [List.length_take]
  omega

/-- At a round with the rest of the input. -/
structure AtInput (U : Unspecified) (m : Mem) (k : Nat) (pre after : List UInt8) (sizes : Nat → Nat)
    (s : Locals Input) : Prop where
  round : AtRound U m k pre s
  bytes : s.input.bytes = after
  sizes : ∀ i, s.input.sizes i = sizes (k + i)

theorem AtInput.read (h : AtInput U m k pre after sizes s) :
    Input.read 4 s.input = (some (after.take (min 4 (sizes k))), (Input.read 4 s.input).2) := by
  unfold Input.read
  rw [h.bytes, h.sizes]
  rfl

theorem AtInput.remaining (h : AtInput U m k pre after sizes s) :
    (Input.read 4 s.input).2.bytes = after.drop (min 4 (sizes k)) := by
  unfold Input.read
  rw [h.bytes, h.sizes]
  rfl

/-- A short chunk is the last. -/
theorem AtInput.short (h : AtInput U m k pre after sizes s) (hshort : (after.take (min 4 (sizes k))).length < 4) :
    ∃ s', readlineRound U Input.read s = .ok (.leave s') ∧
      Left U m k (pre ++ after.take (min 4 (sizes k))) s' ∧ s'.input.bytes = after.drop (min 4 (sizes k)) :=
  ⟨_, h.round.short h.read hshort, h.round.left (Nat.le_of_lt hshort) _, h.remaining⟩

/-- So is a chunk that ends in a newline. -/
theorem AtInput.ends (h : AtInput U m k pre after sizes s) {text : List UInt8} (htext : text.length = 3)
    (hchunk : after.take (min 4 (sizes k)) = text ++ [newline]) :
    ∃ s', readlineRound U Input.read s = .ok (.leave s') ∧
      Left U m k (pre ++ (text ++ [newline])) s' ∧ s'.input.bytes = after.drop (min 4 (sizes k)) := by
  have hread := h.read
  rw [hchunk] at hread
  have hfour : (text ++ [newline]).length ≤ 4 := by
    rw [List.length_append, htext]
    exact Nat.le_refl _
  have hleft := h.round.left hfour (Input.read 4 s.input).2
  exact ⟨_, (h.round.full hread htext).trans (if_pos rfl), ⟨hleft.mem, hleft.data, hleft.least, hleft.most⟩,
    h.remaining⟩

/-- Behind any other one there is another round, if there is a buffer for it. -/
theorem AtInput.more (h : AtInput U m k pre after sizes s) {text : List UInt8} {ch : UInt8}
    (htext : text.length = 3) (hchunk : after.take (min 4 (sizes k)) = text ++ [ch]) (hch : ch ≠ newline)
    (hsmall : 4 * (k + 2) < 2 ^ 31) (hspares : SparesBuffer U m k (pre ++ (text ++ [ch])))
    (hends : FreeEnds U m k (pre ++ (text ++ [ch]))) : ∃ s', readlineRound U Input.read s = .ok (.again s') ∧
      AtInput U m (k + 1) (pre ++ (text ++ [ch])) (after.drop (min 4 (sizes k))) sizes s' := by
  have hread := h.read
  rw [hchunk] at hread
  have hfour : (text ++ [ch]).length = 4 := by rw [List.length_append, htext]; rfl
  obtain ⟨s', hgrow, hround, hinput⟩ := h.round.grow hfour hsmall hspares hends (Input.read 4 s.input).2
  refine ⟨s', ?_, hround, by rw [hinput, h.remaining], fun i => ?_⟩
  · rw [h.round.full hread htext, if_neg hch, hgrow]
    rfl
  · rw [hinput, Nat.add_assoc, Nat.add_comm 1, ← h.sizes]
    rfl

/-- What such a chunk can lead to. -/
theorem AtInput.full_cases (h : AtInput U m k pre after sizes s) {text : List UInt8} {ch : UInt8}
    (htext : text.length = 3) (hchunk : after.take (min 4 (sizes k)) = text ++ [ch]) (hch : ch ≠ newline)
    {r : Round Input} (hround : readlineRound U Input.read s = .ok r) : ∃ s', r = .again s' ∧
      4 * (k + 2) < 2 ^ 31 ∧
      (SparesBuffer U m k (pre ++ (text ++ [ch])) ∧ FreeEnds U m k (pre ++ (text ++ [ch])) ∧
          AtInput U m (k + 1) (pre ++ (text ++ [ch])) (after.drop (min 4 (sizes k))) sizes s' ∨
        Unmapped (m.next + (k + 1)) (k + 1) s') := by
  have hread := h.read
  rw [hchunk] at hread
  have hfour : (text ++ [ch]).length = 4 := by rw [List.length_append, htext]; rfl
  have hfull := h.round.full hread htext
  rw [if_neg hch, hround] at hfull
  obtain ⟨s', hgrow, hr⟩ := bind_eq_ok hfull.symm
  cases hr
  have hsmall : 4 * (k + 2) < 2 ^ 31 := by
    by_contra hlarge
    exact h.round.overflow hlarge _ _ s' hgrow
  refine ⟨s', rfl, hsmall, ?_⟩
  rcases h.round.grow_cases hfour hsmall hgrow with ⟨hspares, hends, -⟩ | ⟨-, hunmapped⟩
  · obtain ⟨t, ht, hat⟩ := h.more htext hchunk hch hsmall hspares hends
    cases hround.symm.trans ht
    exact .inl ⟨hspares, hends, hat⟩
  · exact .inr hunmapped

theorem AtInput.length (h : AtInput U m k pre after sizes s)
    (hsplit : pre ++ after = line ++ newline :: rest) :
    4 * k + after.length = line.length + 1 + rest.length := by
  have hlen := congrArg List.length hsplit
  rw [List.length_append, List.length_append, List.length_cons, h.round.length] at hlen
  omega

/-- What was read of the line before its newline. -/
theorem take_of_append {later : List UInt8} (h : pre ++ later = line ++ newline :: rest)
    (hle : pre.length ≤ line.length) : pre = line.take pre.length :=
  List.prefix_iff_eq_take.1 (List.prefix_of_prefix_length_le ⟨_, h⟩ (List.prefix_append line _) hle)

/-- The line is read chunk by chunk, by induction on the chunks still to come. -/
theorem AtInput.returns (hchunks : ReadInChunks U m (line.length + 1) rest.length sizes)
    (hfrees : FreesBuffers U m line ((line.length + 1) / 4)) (hn : newline ∉ line) :
    ∀ (j : Nat) {k : Nat} {pre after : List UInt8} {s : Locals Input},
    k + j = (line.length + 1) / 4 → AtInput U m k pre after sizes s →
    pre ++ after = line ++ newline :: rest →
    ∃ fuel s', readlineLoop U Input.read fuel s = .ok s' ∧
      Left U m ((line.length + 1) / 4) (line ++ [newline]) s' ∧ s'.input.bytes = rest
  | 0, k, pre, after, s, hk, h, hsplit => by
    have hlen := h.length hsplit
    have hpre := h.round.length
    have halone := hchunks.alone
    rw [Nat.add_zero] at hk
    subst hk
    have htake : (after.take (min 4 (sizes ((line.length + 1) / 4)))).length = (line.length + 1) % 4 := by
      rw [List.length_take]
      omega
    obtain ⟨s', hround, hleft, hinput⟩ := h.short (by rw [htake]; omega)
    -- what has been read is as long as the line
    have hparts : (pre ++ after.take (min 4 (sizes ((line.length + 1) / 4)))) ++
        after.drop (min 4 (sizes ((line.length + 1) / 4))) = (line ++ [newline]) ++ rest := by
      rw [List.append_assoc, List.take_append_drop, hsplit, List.append_assoc]
      rfl
    obtain ⟨hline, hrest⟩ := List.append_inj hparts (by
      rw [List.length_append, htake, hpre, List.length_append, List.length_singleton]
      omega)
    rw [hline] at hleft
    refine ⟨1, s', ?_, hleft, hinput.trans hrest⟩
    rw [readlineLoop, hround]
    rfl
  | j + 1, k, pre, after, s, hk, h, hsplit => by
    have hlen := h.length hsplit
    have hpre := h.round.length
    have hpart := hchunks.part
    have hshort := hchunks.short
    have hfull : min 4 (sizes k) = 4 := Nat.min_eq_left (hchunks.full k (by omega))
    obtain ⟨text, ch, hchunk, htext⟩ := chunk_of_length (l := after.take (min 4 (sizes k)))
      (by rw [List.length_take, hfull]; omega)
    have hparts : (pre ++ (text ++ [ch])) ++ after.drop (min 4 (sizes k)) = line ++ newline :: rest := by
      rw [← hchunk, List.append_assoc, List.take_append_drop, hsplit]
    have hall : (pre ++ (text ++ [ch])).length = 4 * (k + 1) := by
      rw [List.length_append, List.length_append, List.length_singleton]
      omega
    have hbegin := take_of_append hparts (by omega)
    have hch : ch ≠ newline := by
      rintro rfl
      refine hn (List.mem_of_mem_take (i := (pre ++ (text ++ [newline])).length) ?_)
      rw [← hbegin]
      exact List.mem_append_right _ (List.mem_append_right _ List.mem_cons_self)
    obtain ⟨hspares, hends⟩ := hfrees k (by omega)
    rw [← hall, ← hbegin] at hspares hends
    obtain ⟨s', hround, hnext⟩ := h.more htext hchunk hch (by omega) hspares hends
    obtain ⟨fuel, s'', hloop, hleft, hinput⟩ :=
      AtInput.returns hchunks hfrees hn j (by omega) hnext hparts
    refine ⟨fuel + 1, s'', ?_, hleft, hinput⟩
    rw [readlineLoop, hround]
    exact hloop

theorem readBuffer_input (s : Locals Input) :
    (readBuffer Input.read s).2.bytes.length ≤ s.input.bytes.length := by
  unfold readBuffer
  split
  · exact Nat.le_refl _
  · unfold Input.read
    rw [List.length_drop]
    exact Nat.sub_le _ _

/-- Nothing is put back. -/
theorem readlineLoop_input : ∀ (fuel : Nat) {s s' : Locals Input},
    readlineLoop U Input.read fuel s = .ok s' → s'.input.bytes.length ≤ s.input.bytes.length
  | 0, _, _, h => by cases h
  | fuel + 1, s, s', h => by
    rw [readlineLoop] at h
    obtain ⟨r, hround, h⟩ := bind_eq_ok h
    obtain ⟨t, ht, hinput⟩ := round_input hround
    have hle : t.input.bytes.length ≤ s.input.bytes.length := by
      rw [hinput]
      exact readBuffer_input s
    rcases ht with rfl | rfl
    · cases h
      exact hle
    · exact Nat.le_trans (readlineLoop_input fuel h) hle

theorem Left.buffer {text : List UInt8} (h : Left U m k text s) : ∃ r, s.mem.bytes (m.next + k) = text ++ r ∧
    (text.length < 4 * (k + 1) → r.head? = some (behind U m text.length)) := by
  obtain ⟨r, hr⟩ : text <+: (filledMem U m k text).bytes (m.next + k) := by
    rw [bytes_filledMem]
    exact prefix_overwrite
  refine ⟨r, by rw [h.mem, hr], fun hlt => ?_⟩
  have hget := getElem?_filledMem (U := U) (m := m) h.least (Nat.le_refl _) hlt
  rw [← hr, List.getElem?_append_right (Nat.le_refl _), Nat.sub_self] at hget
  exact List.head?_eq_getElem?.trans hget

/-- A string in a buffer that has been left has its NUL from `malloc`. -/
theorem Left.nul {text : List UInt8} (h : Left U m k text s) (hlt : text.length < 4 * (k + 1))
    (hstring : s.mem.StringAt (m.next + k) 0 text) : behind U m text.length = 0 := by
  obtain ⟨r, hr⟩ := hstring.eq_append
  obtain ⟨r', hr', hhead⟩ := h.buffer
  rw [List.drop_zero, hr', List.append_cancel_left_eq] at hr
  rw [hr] at hhead
  exact (Option.some.inj (hhead hlt)).symm

/-- A NUL there makes a string of it. -/
theorem Left.string {text : List UInt8} (h : Left U m k text s) (hlt : text.length < 4 * (k + 1))
    (h0 : 0 ∉ text) (hnul : behind U m text.length = 0) : s.mem.StringAt (m.next + k) 0 text := by
  obtain ⟨r, hr, hhead⟩ := h.buffer
  obtain ⟨r', rfl⟩ := List.head?_eq_some_iff.1 (hhead hlt)
  rw [hnul] at hr
  exact Mem.stringAt_of_bytes hr (by rw [List.drop_zero]; exact isString_append h0 _)

/-- The line is returned as it is, in a buffer that is still there, and what comes behind it is left. -/
structure Returned (b : Nat) (line rest : List UInt8) (s : Locals Input) : Prop where
  data : s.data = .ofBlock b 0
  held : b ∉ s.mem.released
  string : s.mem.StringAt b 0 (line ++ [newline])
  input : s.input.bytes = rest

/-- What has been read by then is the line. -/
theorem Left.returned {b : Nat} {text : List UInt8} (h : Left U m k text s) (hr : Returned b line rest s)
    (hparts : text ++ s.input.bytes = line ++ newline :: rest) : text = line ++ [newline] ∧ m.next + k = b := by
  rw [hr.input, List.append_cons] at hparts
  exact ⟨List.append_cancel_right hparts, (Ptr.ofBlock.inj (h.data.symm.trans hr.data)).1⟩

/-- A buffer that was unmapped is not returned so. -/
theorem Unmapped.not_returned {b c : Nat} (h : Unmapped c k s) {fuel : Nat}
    (hloop : readlineLoop U Input.read fuel s = .ok s') : ¬ Returned b line rest s' := by
  intro hr
  cases fuel with
  | zero => cases hloop
  | succ fuel =>
    rw [readlineLoop] at hloop
    obtain ⟨r, hround, hloop⟩ := bind_eq_ok hloop
    obtain ⟨t, rfl, hdata, hheld⟩ := h.round (fun _ => readBuffer_fits Input.read_length) hround
    cases hloop
    obtain ⟨rfl, -⟩ := Ptr.ofBlock.inj (hdata.symm.trans hr.data)
    exact hr.held hheld

/-- After a short chunk the line was read in chunks, and the NUL is one that `malloc` delivered. -/
theorem AtInput.short_returned (h : AtInput U m k pre after sizes s) (hpre : newline ∉ pre)
    (hfull : ∀ i < k, 4 ≤ sizes i) (hshort : (after.take (min 4 (sizes k))).length < 4)
    (hsplit : pre ++ after = line ++ newline :: rest) (hline : pre ++ after.take (min 4 (sizes k)) = line ++ [newline])
    (hleft : Left U m k (line ++ [newline]) s') (hstring : s'.mem.StringAt (m.next + k) 0 (line ++ [newline])) :
    (line.length + 1) / 4 = k ∧ ReadInChunks U m (line.length + 1) rest.length sizes := by
  have hlen := h.length hsplit
  have hsmall := h.round.small
  have hsum := congrArg List.length hline
  rw [List.length_append, List.length_append, List.length_singleton, h.round.length] at hsum
  -- the newline is in the last chunk
  have hmem : newline ∈ after.take (min 4 (sizes k)) := by
    have hall : newline ∈ pre ++ after.take (min 4 (sizes k)) := by
      rw [hline]
      exact List.mem_append_right _ List.mem_cons_self
    exact (List.mem_append.1 hall).resolve_left hpre
  have hpos := List.length_pos_of_mem hmem
  have hnul := hleft.nul (by rw [List.length_append, List.length_singleton]; omega) hstring
  rw [List.length_append, List.length_singleton] at hnul
  have hk : (line.length + 1) / 4 = k := by omega
  refine ⟨hk, ?_⟩
  constructor
  case short => omega
  case full => rwa [hk]
  case part => omega
  case alone =>
    rw [hk]
    rw [List.length_take] at hsum hshort hpos
    omega
  case nul => exact hnul

/-- A full chunk that ends the line leaves no room for the NUL. -/
theorem Left.no_room {text : List UInt8} (h : Left U m k text s) (hlen : text.length = 4 * (k + 1)) :
    ¬ s.mem.StringAt (m.next + k) 0 text := by
  intro hstring
  have hbound := hstring.bound
  rw [h.mem, length_filledMem h.least h.most] at hbound
  omega

/-- No newline stands inside a chunk that does not end in one: what is behind it has been read. -/
theorem newline_not_mem_chunk {text later : List UInt8} {ch : UInt8} (hn : newline ∉ line) (hch : ch ≠ newline)
    (hparts : pre ++ (text ++ [ch]) ++ later = line ++ newline :: rest) (hle : rest.length ≤ later.length) :
    newline ∉ pre ++ (text ++ [ch]) ∧ (pre ++ (text ++ [ch])).length ≤ line.length := by
  have hsum := congrArg List.length hparts
  simp only [List.length_append, List.length_cons, List.length_nil] at hsum
  have hshorter : (pre ++ (text ++ [ch])).length ≤ line.length := by
    by_contra hlonger
    simp only [List.length_append, List.length_cons, List.length_nil] at hlonger
    obtain ⟨hline, -⟩ := List.append_inj (hparts.trans (List.append_cons line newline rest)) (by
      simp only [List.length_append, List.length_cons, List.length_nil]
      omega)
    rw [← List.append_assoc] at hline
    exact hch (List.cons.inj (List.append_inj' hline rfl).2).1
  refine ⟨fun hmem => hn ?_, hshorter⟩
  exact (List.prefix_of_prefix_length_le ⟨_, hparts⟩ (List.prefix_append line _) hshorter).subset hmem

theorem FreesBuffers.succ (h : FreesBuffers U m line k) (hspares : SparesBuffer U m k (line.take (4 * (k + 1))))
    (hends : FreeEnds U m k (line.take (4 * (k + 1)))) : FreesBuffers U m line (k + 1) := by
  intro i hi
  rcases Nat.lt_succ_iff_lt_or_eq.1 hi with hi | rfl
  · exact h i hi
  · exact ⟨hspares, hends⟩

/-- A line returned as it is was read so, by induction on the rounds. -/
theorem AtInput.of_returns (hn : newline ∉ line) : ∀ (fuel : Nat) {k b : Nat} {pre after : List UInt8} {s s' : Locals Input},
    AtInput U m k pre after sizes s → pre ++ after = line ++ newline :: rest → newline ∉ pre →
    (∀ i < k, 4 ≤ sizes i) → FreesBuffers U m line k → readlineLoop U Input.read fuel s = .ok s' →
    Returned b line rest s' →
    ReadInChunks U m (line.length + 1) rest.length sizes ∧ FreesBuffers U m line ((line.length + 1) / 4)
  | 0, _, _, _, _, _, _, _, _, _, _, _, hloop, _ => by cases hloop
  | fuel + 1, k, b, pre, after, s, s', h, hsplit, hpre, hfull, hfrees, hloop, hr => by
    have hparts : pre ++ after.take (min 4 (sizes k)) ++ after.drop (min 4 (sizes k)) = line ++ newline :: rest := by
      rw [List.append_assoc, List.take_append_drop, hsplit]
    rw [readlineLoop] at hloop
    by_cases hshort : (after.take (min 4 (sizes k))).length < 4
    · obtain ⟨t, hround, hleft, hrest⟩ := h.short hshort
      rw [hround] at hloop
      cases hloop
      obtain ⟨hline, rfl⟩ := hleft.returned hr (hrest ▸ hparts)
      obtain ⟨rfl, hchunks⟩ := h.short_returned hpre hfull hshort hsplit hline (hline ▸ hleft) hr.string
      exact ⟨hchunks, hfrees⟩
    · obtain ⟨text, ch, hchunk, htext⟩ := chunk_of_length (l := after.take (min 4 (sizes k)))
        (by rw [List.length_take] at hshort ⊢; omega)
      rw [hchunk] at hparts
      have hall : (pre ++ (text ++ [ch])).length = 4 * (k + 1) := by
        rw [List.length_append, List.length_append, htext, h.round.length]
        rfl
      by_cases hch : ch = newline
      · subst hch
        obtain ⟨t, hround, hleft, hrest⟩ := h.ends htext hchunk
        rw [hround] at hloop
        cases hloop
        obtain ⟨hline, rfl⟩ := hleft.returned hr (hrest ▸ hparts)
        exact absurd (hline ▸ hr.string) (hleft.no_room hall)
      · obtain ⟨r, hround, hloop⟩ := bind_eq_ok hloop
        obtain ⟨t, rfl, hsmall, ⟨hspares, hends, hnext⟩ | hunmapped⟩ := h.full_cases htext hchunk hch hround
        · have hle := readlineLoop_input fuel hloop
          rw [hr.input, hnext.bytes] at hle
          obtain ⟨hmem, hshorter⟩ := newline_not_mem_chunk hn hch hparts hle
          have hbegin := take_of_append hparts hshorter
          rw [hall] at hbegin
          rw [hbegin] at hspares hends
          refine AtInput.of_returns hn fuel hnext hparts hmem ?_ (hfrees.succ hspares hends) hloop hr
          intro i hi
          rcases Nat.lt_succ_iff_lt_or_eq.1 hi with hi | rfl
          · exact hfull i hi
          · rw [List.length_take] at hshort
            omega
        · exact absurd hr (hunmapped.not_returned hloop)

/-- Before the first `read`. -/
theorem atInput_start (U : Unspecified) (m : Mem) (bytes : List UInt8) (sizes : Nat → Nat) :
    AtInput U m 0 [] bytes sizes (readlineStart U m ⟨bytes, sizes⟩) :=
  ⟨atRound_start U m _, rfl, fun i => congrArg sizes (Nat.zero_add i).symm⟩

theorem ReadsFirstLine.chunks (h : ReadsFirstLine U m line rest sizes) (hn : newline ∉ line) :
    0 ∉ line ∧ ReadInChunks U m (line.length + 1) rest.length sizes ∧
      FreesBuffers U m line ((line.length + 1) / 4) := by
  obtain ⟨fuel, b, m', input, he, hb, hheld, hstring, hinput⟩ := h
  unfold readline at he
  obtain ⟨s', hloop, he⟩ := bind_eq_ok he
  obtain ⟨hdata, he⟩ := Prod.mk.inj (Except.ok.inj he)
  obtain ⟨rfl, rfl⟩ := Prod.mk.inj he
  refine ⟨fun h0 => hstring.noNul (List.mem_append_left _ h0), ?_⟩
  exact (atInput_start U m _ sizes).of_returns hn fuel rfl List.not_mem_nil (fun i hi => absurd hi (Nat.not_lt_zero i))
    (fun i hi => absurd hi (Nat.not_lt_zero i)) hloop ⟨hdata, hheld, hstring, hinput⟩

theorem ReadInChunks.reads (h : ReadInChunks U m (line.length + 1) rest.length sizes)
    (hfrees : FreesBuffers U m line ((line.length + 1) / 4)) (hm : ∀ c ∈ m.released, c < m.next) (hn : newline ∉ line)
    (h0 : 0 ∉ line) : ReadsFirstLine U m line rest sizes := by
  obtain ⟨fuel, s', hloop, hleft, hinput⟩ :=
    AtInput.returns h hfrees hn _ (Nat.zero_add _) (atInput_start U m (line ++ newline :: rest) sizes) rfl
  have hlen : (line ++ [newline]).length = line.length + 1 := by simp
  refine ⟨fuel, m.next + (line.length + 1) / 4, s'.mem, s'.input, ?_, Nat.le_add_right _ _, ?_, ?_, hinput⟩
  · rw [readline, hloop, ok_bind, hleft.data]
    rfl
  · rw [hleft.mem, released_filledMem]
    exact fun hmem => Nat.lt_irrefl _ (held_roundMem hm _ hmem)
  · refine hleft.string (by omega) ?_ (by rw [hlen]; exact h.nul)
    rw [List.mem_append, not_or]
    exact ⟨h0, by decide⟩

end Lines

/-- Exactly a line that ends within its last chunk, and has a NUL behind it by chance, is returned as it
is, with nothing of the next line read, as long as `free` leaves the buffers alone. -/
theorem reads_first_line_iff {U : Unspecified} {m : Mem} {line : List UInt8} (hm : ∀ c ∈ m.released, c < m.next)
    (hn : newline ∉ line) (rest : List UInt8) (sizes : Nat → Nat) : ReadsFirstLine U m line rest sizes ↔
      0 ∉ line ∧ ReadInChunks U m (line.length + 1) rest.length sizes ∧
        FreesBuffers U m line ((line.length + 1) / 4) :=
  ⟨fun h => h.chunks hn, fun ⟨h0, hchunks, hfrees⟩ => hchunks.reads hfrees hm hn h0⟩

/-- `"abcdef\n"`, in reads of four bytes: the buffer is replaced once. -/
theorem reads_first_line_seven : ReadsFirstLine blankBlocks noBlocks [97, 98, 99, 100, 101, 102] [] fun _ => 4 :=
  (reads_first_line_iff (by decide) (by decide) [] _).2
    ⟨by decide, ⟨by decide, fun i hi => Nat.le_refl 4, by decide, rfl, rfl⟩, by decide⟩

/-- `"abc\n"` fills the buffer, and there is no NUL behind it. -/
theorem full_chunk_unterminated : ¬ ReadsFirstLine blankBlocks noBlocks [97, 98, 99] [] fun _ => 4 := by
  intro h
  exact absurd (h.chunks (by decide)).2.1.part (Nat.lt_irrefl 0)

end Sbunix.Libc
