/-
The string functions of libc/ (strlen.c, strchr.c, strcmp.c, memset.c, memcpy.c) on block memory,
each with a lemma that says what it does on C strings. Their departures from the standard are
kept: `strlen` and `memset` accept NULL, `strchr` stops at a newline and never finds NUL, and
`memcpy` returns the end of the copy.
-/
import Sbunix.Libc.Blocks

namespace Sbunix.Libc

open BlockMemory Fallible

/-! ## The functions -/

/-- `'\n'` -/
def newline : UInt8 := 10

/-- `while(*str++ != '\0') len++;` up to the end of the block. -/
def strlenLoop : List UInt8 → Nat → Option Nat
  | [], _ => none
  | ch :: str, len => if ch ≠ 0 then strlenLoop str (len + 1) else some len

/-- Past the end of its block the count goes on over whatever follows. -/
def strlen (U : Unspecified) (m : Mem) : Ptr → Except Fault (Nat × Mem)
  | .null => .ok (0, m)
  | .wild => .error .wild
  | .ofBlock b o =>
    match strlenLoop (m.rest b o) 0 with
    | some len => .ok (len, m)
    | none => .ok ((m.rest b o).length + U.overrun b, m.noted b (m.bytes b).length)

/-- The loop of `strchr`: the distance to the character, if it is found, and no answer when the
loop leaves the block. -/
def strchrLoop (c : UInt8) : List UInt8 → Nat → Option (Option Nat)
  | [], _ => none
  | ch :: s, k =>
    if ch ≠ 0 ∧ ch ≠ newline then
      if ch = c then some (some k) else strchrLoop c s (k + 1)
    else some none

def strchr (m : Mem) (s : Ptr) (c : UInt8) : Except Fault Ptr :=
  match s with
  | .null => .error .null
  | .wild => .error .wild
  | .ofBlock b o =>
    match strchrLoop c (m.rest b o) 0 with
    | some (some k) => .ok (.ofBlock b (o + k))
    | some none => .ok .null
    | none => .error .outside

def strcmpLoop : List UInt8 → List UInt8 → Option Int
  | c1 :: s1, c2 :: s2 =>
    if (c1 ≠ 0 ∧ c2 ≠ 0) ∧ c1 = c2 then strcmpLoop s1 s2 else some (c1.toNat - c2.toNat)
  | _, _ => none

/-- A string handed to `strcmp`: a literal of the program or a pointer. -/
inductive Source where
  | literal (s : List UInt8)
  | pointer (p : Ptr)

/-- The bytes from a string's start to the end of its block; none for NULL. -/
def Source.bytes (m : Mem) : Source → Except Fault (Option (List UInt8))
  | .literal s => .ok (some (s ++ [0]))
  | .pointer .null => .ok none
  | .pointer .wild => .error .wild
  | .pointer (.ofBlock b o) => .ok (some (m.rest b o))

def strcmp (m : Mem) (s1 s2 : Source) : Except Fault Int := do
  match ← s1.bytes m, ← s2.bytes m with
  | some l1, some l2 =>
    match strcmpLoop l1 l2 with
    | some r => .ok r
    | none => .error .outside
  | _, _ => .ok (-1)

/-- `for (i = 0; i < n; ++i) *ch++ = c;` -/
def memsetLoop (c : UInt8) : Nat → Mem → Ptr → Except Fault Mem
  | 0, m, _ => .ok m
  | n + 1, m, ch => do
    let m ← store m ch c
    memsetLoop c n m (ch.add 1)

def memset (m : Mem) (s : Ptr) (c : UInt8) (n : Nat) : Except Fault Mem :=
  if s = .null then .ok m else memsetLoop c (toInt n).toNat m s

/-- `for (i = 0; i < n; ++i) *destination++ = *source++;` -/
def memcpyLoop (U : Unspecified) : Nat → Mem → Ptr → Ptr → Except Fault (Ptr × Mem)
  | 0, m, destination, _ => .ok (destination, m)
  | n + 1, m, destination, source => do
    let (ch, m) ← load U m source
    let m ← store m destination ch
    memcpyLoop U n m (destination.add 1) (source.add 1)

def memcpy (U : Unspecified) (m : Mem) (dest src : Ptr) (n : Nat) : Except Fault (Ptr × Mem) :=
  if src = .null then .ok (dest, m) else memcpyLoop U (toInt n).toNat m dest src

/-! ## Reading strings -/

section Reading

variable {U : Unspecified} {m : Mem} {b o : Nat} {l l' s t : List UInt8} {c : UInt8}

theorem rest_eq : m.rest b o = (m.bytes b).drop o := by simp [Mem.rest]

theorem strlenLoop_eq (h : 0 ∉ s) (r : List UInt8) (k : Nat) :
    strlenLoop (s ++ 0 :: r) k = some (k + s.length) := by
  induction s generalizing k with
  | nil => simp [strlenLoop]
  | cons ch s ih =>
    rw [List.mem_cons, not_or] at h
    rw [List.cons_append, strlenLoop, if_pos (Ne.symm h.1), ih h.2, List.length_cons]
    congr 1
    omega

theorem strlen_string (h : m.StringAt b o s) : strlen U m (.ofBlock b o) = .ok (s.length, m) := by
  obtain ⟨r, hr⟩ := h.eq_append
  rw [strlen, rest_eq, hr, strlenLoop_eq h.noNul]
  simp

/-- The same for a string at the start of its block. -/
theorem strlen_start (h : m.StringAt b 0 s) : strlen U m (.ofBlock b 0) = .ok (s.length, m) :=
  strlen_string h

theorem le_of_strlenLoop : ∀ {l : List UInt8} {k n : Nat}, strlenLoop l k = some n → k ≤ n
  | [], _, _, h => by cases h
  | ch :: l, k, n, h => by
    rw [strlenLoop] at h
    split at h
    · have := le_of_strlenLoop h; omega
    · cases h; omega

/-- On any bytes at all `strlen` answers, 0 exactly when the first of them is NUL. -/
theorem strlen_first {ch : UInt8} (h : (m.bytes b).drop o = ch :: l) :
    ∃ len m', strlen U m (.ofBlock b o) = .ok (len, m') ∧ (len = 0 ↔ ch = 0) ∧
      Frame (· ≠ b) m m' ∧ m'.bytes b = m.bytes b ∧ m'.next = m.next := by
  rw [strlen, rest_eq, h]
  cases hs : strlenLoop (ch :: l) 0 with
  | some len =>
    refine ⟨len, m, rfl, ?_, .refl _ _, rfl, rfl⟩
    rw [strlenLoop] at hs
    by_cases hc : ch = 0
    · rw [if_neg (not_not.2 hc)] at hs
      cases hs
      simp [hc]
    · rw [if_pos hc] at hs
      have := le_of_strlenLoop hs
      simp only [hc, iff_false]
      omega
  | none =>
    refine ⟨_, _, rfl, ?_, .noted (by simp), Mem.bytes_noted, Mem.next_noted⟩
    have hc : ch ≠ 0 := by
      rintro rfl
      simp [strlenLoop] at hs
    simp [hc]

theorem strchrLoop_eq (h : 0 ∉ s) (r : List UInt8) (k : Nat) : strchrLoop c (s ++ 0 :: r) k =
    some (if c ∈ s.takeWhile (· ≠ newline) then some (k + s.idxOf c) else none) := by
  induction s generalizing k with
  | nil => simp [strchrLoop]
  | cons ch s ih =>
    rw [List.mem_cons, not_or] at h
    rw [List.cons_append, strchrLoop]
    by_cases hn : ch = newline
    · rw [if_neg (by simp [hn]), List.takeWhile_cons_of_neg (by simp [hn])]
      simp
    · rw [if_pos ⟨Ne.symm h.1, hn⟩, List.takeWhile_cons_of_pos (by simp [hn])]
      by_cases hc : ch = c
      · rw [if_pos hc]
        simp [hc]
      · rw [if_neg hc, ih h.2, List.idxOf_cons, beq_false_of_ne hc, cond_false]
        simp only [List.mem_cons, Ne.symm hc, false_or]
        congr 2
        congr 1
        omega

/-- `strchr` finds the first occurrence before the string's first newline. -/
theorem strchr_string (h : m.StringAt b o s) : strchr m (.ofBlock b o) c =
    .ok (if c ∈ s.takeWhile (· ≠ newline) then .ofBlock b (o + s.idxOf c) else .null) := by
  obtain ⟨r, hr⟩ := h.eq_append
  rw [strchr, rest_eq, hr, strchrLoop_eq h.noNul]
  split <;> simp_all

theorem strcmpLoop_eq : ∀ {s t : List UInt8}, 0 ∉ s → 0 ∉ t → ∀ r r' : List UInt8,
    ∃ d, strcmpLoop (s ++ 0 :: r) (t ++ 0 :: r') = some d ∧ (d = 0 ↔ s = t)
  | [], [], _, _, r, r' => ⟨0, by simp [strcmpLoop], by simp⟩
  | [], b :: t, _, ht, r, r' => by
    rw [List.mem_cons, not_or] at ht
    refine ⟨_, by simp [strcmpLoop]; rfl, ?_⟩
    have : b.toNat ≠ 0 := fun h => ht.1 (UInt8.toNat_inj.1 (by simpa using h.symm))
    simp [this]
  | a :: s, [], hs, _, r, r' => by
    rw [List.mem_cons, not_or] at hs
    refine ⟨_, by simp [strcmpLoop]; rfl, ?_⟩
    have : a.toNat ≠ 0 := fun h => hs.1 (UInt8.toNat_inj.1 (by simpa using h.symm))
    simp [this]
  | a :: s, b :: t, hs, ht, r, r' => by
    rw [List.mem_cons, not_or] at hs ht
    rw [List.cons_append, List.cons_append, strcmpLoop]
    by_cases hab : a = b
    · obtain ⟨d, hd, h⟩ := strcmpLoop_eq hs.2 ht.2 r r'
      refine ⟨d, ?_, by simpa [hab] using h⟩
      rw [if_pos ⟨⟨Ne.symm hs.1, Ne.symm ht.1⟩, hab⟩, hd]
    · refine ⟨_, if_neg fun h => hab h.2, ?_⟩
      have : a.toNat ≠ b.toNat := fun h => hab (UInt8.toNat_inj.1 h)
      simp [hab]
      omega

/-- The source is the C string `s`. -/
def Source.IsString (m : Mem) : Source → List UInt8 → Prop
  | .literal l, s => 0 ∉ l ∧ l = s
  | .pointer p, s => m.String p s

theorem Source.IsString.bytes {x : Source} (h : x.IsString m s) :
    0 ∉ s ∧ ∃ r, x.bytes m = .ok (some (s ++ 0 :: r)) := by
  cases x with
  | literal l =>
    obtain ⟨h0, rfl⟩ := h
    exact ⟨h0, [], rfl⟩
  | pointer p =>
    obtain ⟨b, o, rfl, h⟩ := h
    obtain ⟨r, hr⟩ := h.eq_append
    exact ⟨h.noNul, r, by rw [Source.bytes, rest_eq, hr]⟩

/-- `strcmp` answers 0 exactly on equal strings. -/
theorem strcmp_string {x y : Source} (hx : x.IsString m s) (hy : y.IsString m t) :
    ∃ d, strcmp m x y = .ok d ∧ (d = 0 ↔ s = t) := by
  obtain ⟨h0, r, hr⟩ := hx.bytes
  obtain ⟨h0', r', hr'⟩ := hy.bytes
  obtain ⟨d, hd, h⟩ := strcmpLoop_eq h0 h0' r r'
  refine ⟨d, ?_, h⟩
  rw [strcmp, hr, hr']
  simp only [ok_bind, hd]

/-- A branch on the comparison with a literal. -/
theorem strcmp_literal {α : Type} {x : List UInt8} {y : Source} (hx : 0 ∉ x) (hy : y.IsString m t)
    (f g : Except Fault α) :
    (strcmp m (.literal x) y >>= fun d => if d = 0 then f else g) = if x = t then f else g := by
  obtain ⟨d, hd, hiff⟩ := strcmp_string (show Source.IsString m (.literal x) x from ⟨hx, rfl⟩) hy
  rw [hd, ok_bind]
  exact if_congr hiff rfl rfl

end Reading

/-! ## Writing bytes -/

/-- `l` with the bytes from `o` on replaced by `w`. -/
def overwrite (l : List UInt8) (o : Nat) (w : List UInt8) : List UInt8 :=
  l.take o ++ w ++ l.drop (o + w.length)

section Writing

variable {U : Unspecified} {m : Mem} {b d o n : Nat} {c : UInt8} {l w : List UInt8}

theorem overwrite_nil : overwrite l o [] = l := by simp [overwrite]

theorem overwrite_cons (h : o < l.length) :
    overwrite (l.set o c) (o + 1) w = overwrite l o (c :: w) := by
  have h1 : (l.set o c).take (o + 1) = l.take o ++ [c] := by
    rw [List.take_add_one, List.take_set_of_le (Nat.le_refl _)]
    simp [h]
  rw [overwrite, overwrite, h1, List.drop_set_of_lt (by omega), List.length_cons]
  simp [Nat.add_comm, Nat.add_left_comm]

theorem length_overwrite (h : o + w.length ≤ l.length) : (overwrite l o w).length = l.length := by
  unfold overwrite
  simp
  omega

theorem overwrite_append {w' : List UInt8} (h : o + w.length ≤ l.length) :
    overwrite (overwrite l o w) (o + w.length) w' = overwrite l o (w ++ w') := by
  induction w generalizing l o with
  | nil => simp [overwrite_nil]
  | cons ch w ih =>
    rw [List.length_cons] at h
    have ih' := ih (l := l.set o ch) (o := o + 1) (by rw [List.length_set]; omega)
    rw [List.cons_append, ← overwrite_cons (by omega), ← overwrite_cons (by omega), ← ih',
      List.length_cons, Nat.add_right_comm, Nat.add_assoc o]

theorem getElem?_overwrite (h : o ≤ l.length) (i : Nat) :
    (overwrite l o w)[o + i]? = if i < w.length then w[i]? else l[o + i]? := by
  have hlen : (l.take o).length = o := by rw [List.length_take, Nat.min_eq_left h]
  rw [overwrite, List.append_assoc, List.getElem?_append_right (by omega), hlen, Nat.add_sub_cancel_left]
  by_cases hi : i < w.length
  · rw [List.getElem?_append_left hi, if_pos hi]
  · rw [List.getElem?_append_right (by omega), List.getElem?_drop, if_neg hi,
      show o + w.length + (i - w.length) = o + i by omega]

/-- A string written stands where it was written. -/
theorem isString_overwrite (h : o ≤ l.length) (h0 : 0 ∉ w) : IsString ((overwrite l o (w ++ [0])).drop o) w := by
  have hlen : (l.take o).length = o := by rw [List.length_take, Nat.min_eq_left h]
  rw [overwrite, List.append_assoc, List.drop_append_of_le_length (Nat.le_of_eq hlen.symm),
    List.drop_eq_nil_of_le (Nat.le_of_eq hlen), List.nil_append, List.append_assoc]
  exact isString_append h0 _

theorem setBytes_setBytes (l l' : List UInt8) : (m.setBytes b l).setBytes b l' = m.setBytes b l' := by
  simp [Mem.setBytes]

theorem setBytes_bytes (h : b < m.next) : m.setBytes b (m.bytes b) = m := by
  unfold Mem.next at h
  simp [Mem.setBytes, Mem.bytes, List.getD_eq_getElem?_getD, h]

theorem memsetLoop_eq (hb : b < m.next) (h : o + n ≤ (m.bytes b).length) :
    memsetLoop c n m (.ofBlock b o) =
      .ok (m.setBytes b (overwrite (m.bytes b) o (List.replicate n c))) := by
  induction n generalizing m o with
  | zero => simp [memsetLoop, overwrite_nil, setBytes_bytes hb]
  | succ n ih =>
    have hi : m.Inside b o := ⟨by omega, by omega⟩
    rw [memsetLoop, store_inside hi, ok_bind, Ptr.add,
      show (o : Int) + 1 = (o + 1 : Nat) by omega, ih (by simpa using hb),
      setBytes_setBytes, Mem.bytes_setBytes_self hb, Int.toNat_natCast,
      overwrite_cons (by omega), List.replicate_succ]
    rw [Mem.bytes_setBytes_self hb, List.length_set]
    omega

theorem memset_eq (hn : n < 2 ^ 31) (hb : b < m.next) (h : o + n ≤ (m.bytes b).length) :
    memset m (.ofBlock b o) c n =
      .ok (m.setBytes b (overwrite (m.bytes b) o (List.replicate n c))) := by
  rw [memset, if_neg (by simp), toInt_of_lt (by omega) (by omega), Int.toNat_natCast,
    memsetLoop_eq hb h]

/-- A new block cleared by `memset`. -/
theorem memset_new {m1 : Mem} (hf : Frame (· < m.next) m m1) (hnext : m1.next = m.next + 1)
    (hl : (m1.bytes m.next).length = n) (hn : n < 2 ^ 31) : ∃ m',
    memset m1 (.ofBlock m.next 0) 0 n = .ok m' ∧ Frame (· < m.next) m m' ∧
      m'.next = m.next + 1 ∧ m'.bytes m.next = List.replicate n 0 ∧ m'.root = m1.root := by
  have hb : m.next < m1.next := by omega
  have hset := memset_eq (o := 0) (c := 0) hn hb (by omega)
  refine ⟨_, hset, hf.trans (.setBytes (by simp) _), by simp [hnext], ?_, rfl⟩
  rw [Mem.bytes_setBytes_self hb, overwrite]
  simp [hl]

theorem memset_malloc (hn : n < 2 ^ 31) : ∃ m',
    memset (mallocBlock U m n).2 (.ofBlock m.next 0) 0 n = .ok m' ∧ Frame (· < m.next) m m' ∧
      m'.next = m.next + 1 ∧ m'.bytes m.next = List.replicate n 0 ∧ m'.root = (mallocBlock U m n).2.root :=
  memset_new (frame_malloc (by simp)) next_malloc (by rw [bytes_malloc_self, length_newBytes]) hn

/-- A byte stored apart from what is still to be read leaves it as it is. -/
theorem isPrefix_drop_set {i : Nat} (hs : w <+: l.drop o) (h : i < o ∨ o + w.length ≤ i) :
    w <+: (l.set i c).drop o := by
  rcases h with h | h
  · rwa [List.drop_set_of_lt h]
  · obtain ⟨r, hr⟩ := hs
    rw [List.drop_set, if_neg (by omega), ← hr, List.set_append_right _ _ (by omega)]
    exact List.prefix_append w _

/-- The regions may be parts of one block, if they are apart. -/
theorem memcpyLoop_disjoint {e : Nat} (hbd : d ≠ b ∨ e + w.length ≤ o ∨ o + w.length ≤ e) (hd : d < m.next)
    (hs : w <+: (m.bytes b).drop o) (h : e + w.length ≤ (m.bytes d).length) :
    memcpyLoop U w.length m (.ofBlock d e) (.ofBlock b o) =
      .ok (.ofBlock d (e + w.length), m.setBytes d (overwrite (m.bytes d) e w)) := by
  induction w generalizing m o e with
  | nil => simp [memcpyLoop, overwrite_nil, setBytes_bytes hd]
  | cons ch w ih =>
    have hch : (m.bytes b)[o]? = some ch := by
      obtain ⟨r, hr⟩ := hs
      have := congrArg (·[0]?) hr
      simpa using this.symm
    have hrest : w <+: (m.bytes b).drop (o + 1) := by
      obtain ⟨r, hr⟩ := hs
      refine ⟨r, ?_⟩
      rw [← List.drop_drop, ← hr]
      simp
    have hread : load U m (.ofBlock b o) = .ok (ch, m) := load_getElem hch
    rw [List.length_cons] at h hbd
    have hi' : m.Inside d e := ⟨by omega, by omega⟩
    rw [List.length_cons, memcpyLoop, hread]
    simp only [ok_bind]
    rw [store_inside hi', ok_bind, Ptr.add, Ptr.add,
      show (e : Int) + 1 = (e + 1 : Nat) by omega, show (o : Int) + 1 = (o + 1 : Nat) by omega,
      ih (by omega) (by simpa using hd) ?_ ?_, setBytes_setBytes, Mem.bytes_setBytes_self hd,
      Int.toNat_natCast, overwrite_cons (by omega)]
    · congr 3
      omega
    · by_cases hb : b = d
      · subst hb
        rw [Mem.bytes_setBytes_self hd]
        exact isPrefix_drop_set hrest (by omega)
      · rwa [Mem.bytes_setBytes_ne hb]
    · rw [Mem.bytes_setBytes_self hd, List.length_set]
      omega

theorem memcpyLoop_eq {e : Nat} (hbd : d ≠ b) (hd : d < m.next)
    (hs : w <+: (m.bytes b).drop o) (h : e + w.length ≤ (m.bytes d).length) :
    memcpyLoop U w.length m (.ofBlock d e) (.ofBlock b o) =
      .ok (.ofBlock d (e + w.length), m.setBytes d (overwrite (m.bytes d) e w)) :=
  memcpyLoop_disjoint (.inl hbd) hd hs h

theorem memcpy_eq {e : Nat} (hw : w.length < 2 ^ 31) (hbd : d ≠ b) (hd : d < m.next)
    (hs : w <+: (m.bytes b).drop o) (h : e + w.length ≤ (m.bytes d).length) :
    memcpy U m (.ofBlock d e) (.ofBlock b o) w.length =
      .ok (.ofBlock d (e + w.length), m.setBytes d (overwrite (m.bytes d) e w)) := by
  rw [memcpy, if_neg (by simp), toInt_of_lt (by omega) (by omega), Int.toNat_natCast,
    memcpyLoop_eq hbd hd hs h]

/-- The same for a copy. -/
theorem memcpy_room {e : Nat} (hbd : d ≠ b) (hd : d < m.next) (hs : w <+: (m.bytes b).drop o)
    (h : e + w.length ≤ (m.bytes d).length) :
    ∃ r m', memcpy U m (.ofBlock d e) (.ofBlock b o) w.length = .ok (r, m') := by
  have hle := toNat_toInt_le w.length
  have hlen : (w.take (toInt w.length).toNat).length = (toInt w.length).toNat := by
    rw [List.length_take, Nat.min_eq_left hle]
  have hcopy := memcpyLoop_eq (U := U) (e := e) hbd hd ((List.take_prefix (toInt w.length).toNat w).trans hs)
    (by omega)
  rw [hlen] at hcopy
  exact ⟨_, _, by rw [memcpy, if_neg (by simp), hcopy]⟩

end Writing

/-! ## Where they end -/

section Ends

variable {U : Unspecified} {m m' : Mem} {d : Nat} {q r : Ptr}

theorem mem_of_strlenLoop : ∀ {l : List UInt8} {k n : Nat}, strlenLoop l k = some n → 0 ∈ l
  | [], _, _, h => by cases h
  | ch :: l, k, n, h => by
    rw [strlenLoop] at h
    split at h
    · exact List.mem_cons_of_mem _ (mem_of_strlenLoop h)
    · next hc => rw [not_not.1 hc]; exact List.mem_cons_self

/-- A copy that returns has stayed in the block it was made to. -/
theorem memcpyLoop_fits : ∀ (n : Nat) {m m' : Mem} {e : Nat} {q r : Ptr},
    memcpyLoop U n m (.ofBlock d e) q = .ok (r, m') → n = 0 ∨ e + n ≤ (m.bytes d).length
  | 0, _, _, _, _, _, _ => .inl rfl
  | n + 1, m, m', e, q, r, h => by
    rw [memcpyLoop] at h
    obtain ⟨⟨ch, m1⟩, h1, h⟩ := bind_eq_ok h
    obtain ⟨m2, h2, h⟩ := bind_eq_ok h
    have hin : m1.Inside d e := by
      by_contra hout
      rw [store_outside hout] at h2
      cases h2
    have hlen : (m2.bytes d).length = (m.bytes d).length := by
      rw [(SameLengths.store h2).length d hin.lt_next, (Keeps.load (b := d) h1).bytes]
    have hlt := hin.2
    rw [(Keeps.load (b := d) h1).bytes] at hlt
    have ih := memcpyLoop_fits n (e := e + 1) (by simpa [Ptr.add] using h)
    omega

theorem memcpy_fits {n e : Nat} (h : memcpy U m (.ofBlock d e) q n = .ok (r, m')) (hq : q ≠ .null) (hn : n < 2 ^ 31) :
    n = 0 ∨ e + n ≤ (m.bytes d).length := by
  rw [memcpy, if_neg hq, toInt_of_lt (by omega) (by omega), Int.toNat_natCast] at h
  exact memcpyLoop_fits n h

end Ends

/-! ## What they leave alone -/

section Kept

variable {U : Unspecified} {m m' : Mem} {b : Nat} {c : UInt8} {p q r : Ptr}

/-- `strlen` only reads, at most once behind its block. -/
theorem strlen_cases {len : Nat} (h : strlen U m p = .ok (len, m')) :
    m' = m ∨ ∃ k o, m' = m.noted k o := by
  cases p with
  | null => cases h; exact .inl rfl
  | wild => cases h
  | ofBlock k o =>
    rw [strlen] at h
    split at h
    · cases h; exact .inl rfl
    · cases h; exact .inr ⟨_, _, rfl⟩

theorem strlen_keeps {len : Nat} (h : strlen U m p = .ok (len, m')) : Keeps b m m' := by
  rcases strlen_cases h with rfl | ⟨k, o, rfl⟩
  · exact .refl _ _
  · exact .noted

theorem strlen_root {len : Nat} (h : strlen U m p = .ok (len, m')) : m'.root = m.root := by
  rcases strlen_cases h with rfl | ⟨k, o, rfl⟩
  · rfl
  · exact Mem.root_noted

/-- What `strchr` finds is in the block searched. -/
theorem strchr_outside (h : strchr m p c = .ok q) (hp : Outside b p) : Outside b q := by
  cases p with
  | null => cases h
  | wild => cases h
  | ofBlock k o =>
    have hk : ∀ o', Outside b (.ofBlock k o') := fun o' i he => by cases he; exact hp o rfl
    rw [strchr] at h
    split at h
    · cases h; exact hk _
    · cases h; exact fun i he => by cases he
    · cases h

theorem memsetLoop_keeps : ∀ (n : Nat) {m m' : Mem} {p : Ptr}, memsetLoop c n m p = .ok m' →
    Outside b p → Keeps b m m'
  | 0, _, _, _, h, _ => by cases h; exact .refl _ _
  | n + 1, m, m', p, h, hp => by
    rw [memsetLoop] at h
    obtain ⟨m1, h1, h⟩ := bind_eq_ok h
    exact (Keeps.store h1 hp).trans (memsetLoop_keeps n h (hp.add 1))

theorem memset_keeps {n : Nat} (h : memset m p c n = .ok m') (hp : Outside b p) : Keeps b m m' := by
  unfold memset at h
  split at h
  · cases h; exact .refl _ _
  · exact memsetLoop_keeps _ h hp

theorem memcpyLoop_keeps : ∀ (n : Nat) {m m' : Mem} {p q r : Ptr},
    memcpyLoop U n m p q = .ok (r, m') → Outside b p → Keeps b m m'
  | 0, _, _, _, _, _, h, _ => by cases h; exact .refl _ _
  | n + 1, m, m', p, q, r, h, hp => by
    rw [memcpyLoop] at h
    obtain ⟨⟨ch, m1⟩, h1, h⟩ := bind_eq_ok h
    obtain ⟨m2, h2, h⟩ := bind_eq_ok h
    exact ((Keeps.load h1).trans (Keeps.store h2 hp)).trans (memcpyLoop_keeps n h (hp.add 1))

theorem memcpy_keeps {n : Nat} (h : memcpy U m p q n = .ok (r, m')) (hp : Outside b p) :
    Keeps b m m' := by
  unfold memcpy at h
  split at h
  · cases h; exact .refl _ _
  · exact memcpyLoop_keeps _ h hp

theorem strlen_lengths {len : Nat} (h : strlen U m p = .ok (len, m')) : SameLengths m m' := by
  rcases strlen_cases h with rfl | ⟨k, o, rfl⟩
  · exact .refl _
  · exact .noted

theorem memsetLoop_lengths : ∀ (n : Nat) {m m' : Mem} {p : Ptr}, memsetLoop c n m p = .ok m' →
    SameLengths m m'
  | 0, _, _, _, h => by cases h; exact .refl _
  | n + 1, m, m', p, h => by
    rw [memsetLoop] at h
    obtain ⟨m1, h1, h⟩ := bind_eq_ok h
    exact (SameLengths.store h1).trans (memsetLoop_lengths n h)

theorem memset_lengths {n : Nat} (h : memset m p c n = .ok m') : SameLengths m m' := by
  unfold memset at h
  split at h
  · cases h; exact .refl _
  · exact memsetLoop_lengths _ h

theorem memcpyLoop_lengths : ∀ (n : Nat) {m m' : Mem} {p q r : Ptr},
    memcpyLoop U n m p q = .ok (r, m') → SameLengths m m'
  | 0, _, _, _, _, _, h => by cases h; exact .refl _
  | n + 1, m, m', p, q, r, h => by
    rw [memcpyLoop] at h
    obtain ⟨⟨ch, m1⟩, h1, h⟩ := bind_eq_ok h
    obtain ⟨m2, h2, h⟩ := bind_eq_ok h
    exact ((SameLengths.load h1).trans (SameLengths.store h2)).trans (memcpyLoop_lengths n h)

theorem memcpy_lengths {n : Nat} (h : memcpy U m p q n = .ok (r, m')) : SameLengths m m' := by
  unfold memcpy at h
  split at h
  · cases h; exact .refl _
  · exact memcpyLoop_lengths _ h

end Kept

end Sbunix.Libc
