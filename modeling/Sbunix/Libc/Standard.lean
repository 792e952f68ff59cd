/-
`strchr`, `memcpy` and `memset` (libc/strchr.c, memcpy.c, memset.c) against what the C standard says of
them. `strchr` looks at the line only and never at its NUL, `memcpy` returns the end of the copy, and
both counts are taken for an `int`.
-/
import Sbunix.Libc.String

namespace Sbunix.Libc

open BlockMemory Fallible

/-! ## `strchr` -/

/-- The first occurrence in `s` and its NUL, or NULL. -/
def FindsFirst (m : Mem) (b o : Nat) (s : List UInt8) (c : UInt8) : Prop :=
  strchr m (.ofBlock b o) c =
    .ok (if c ∈ s ++ [0] then .ofBlock b (o + (s ++ [0]).idxOf c : Nat) else .null)

section Strchr

variable {m : Mem} {b o : Nat} {s : List UInt8} {c : UInt8}

/-- `strchr` finds every character but NUL, as long as there is no newline before the first one. -/
theorem strchr_first_iff (h : m.StringAt b o s) :
    FindsFirst m b o s c ↔ c ≠ 0 ∧ (c ∈ s → c ∈ s.takeWhile (· ≠ newline)) := by
  have hline : c ∈ s.takeWhile (· ≠ newline) → c ∈ s := fun hc => (List.takeWhile_prefix _).subset hc
  unfold FindsFirst
  rw [strchr_string h]
  by_cases h0 : c = 0
  · subst h0
    rw [if_neg fun hc => h.noNul (hline hc), if_pos (by simp)]
    exact iff_of_false (by simp) fun hn => hn.1 rfl
  · have hmem : c ∈ s ++ [0] ↔ c ∈ s := by simp [h0]
    rw [if_congr hmem rfl rfl, and_iff_right h0]
    by_cases hs : c ∈ s
    · rw [if_pos hs, List.idxOf_append, if_pos hs]
      by_cases hfirst : c ∈ s.takeWhile (· ≠ newline)
      · rw [if_pos hfirst]
        exact iff_of_true (by simp) fun _ => hfirst
      · rw [if_neg hfirst]
        exact iff_of_false (by simp) fun hf => hfirst (hf hs)
    · rw [if_neg hs, if_neg fun hc => hs (hline hc)]
      exact iff_of_true rfl fun hc => absurd hc hs

end Strchr

theorem strchr_finds_b : FindsFirst ⟨[[97, 98, 0]], [], [], none⟩ 0 0 [97, 98] 98 := by
  have h : Mem.StringAt ⟨[[97, 98, 0]], [], [], none⟩ 0 0 [97, 98] := isString_append (s := [97, 98]) (by decide) []
  exact (strchr_first_iff h).2 (by decide)

/-- Of the string `"\n|"` neither the bar nor the NUL is found. -/
theorem strchr_stops_at_newline : Mem.StringAt ⟨[[10, 124, 0]], [], [], none⟩ 0 0 [10, 124] ∧
    ¬ FindsFirst ⟨[[10, 124, 0]], [], [], none⟩ 0 0 [10, 124] 124 ∧
    ¬ FindsFirst ⟨[[10, 124, 0]], [], [], none⟩ 0 0 [10, 124] 0 := by
  have h : Mem.StringAt ⟨[[10, 124, 0]], [], [], none⟩ 0 0 [10, 124] :=
    isString_append (s := [10, 124]) (by decide) []
  unfold FindsFirst
  rw [strchr_string h, strchr_string h]
  exact ⟨h, by simp [newline], by simp [newline]⟩

/-! ## `memcpy` and `memset` -/

/-- `n` bytes from offset `e` of block `d` on and `n` bytes from offset `o` of block `b` on, apart from
each other. -/
structure Regions (m : Mem) (d e b o n : Nat) : Prop where
  lt_next : d < m.next
  dest : e + n ≤ (m.bytes d).length
  source : o + n ≤ (m.bytes b).length
  apart : d ≠ b ∨ e + n ≤ o ∨ o + n ≤ e

/-- `dest[0..n)` becomes what `src[0..n)` is, nothing else changes, and `dest` is returned. -/
def CopiesAll (U : Unspecified) (m : Mem) (d e b o n : Nat) : Prop :=
  memcpy U m (.ofBlock d e) (.ofBlock b o) n =
    .ok (.ofBlock d e, m.setBytes d (overwrite (m.bytes d) e (((m.bytes b).drop o).take n)))

/-- `*ch = c` keeps the low byte of the `int`. -/
def lowByte (c : BitVec 32) : UInt8 := ⟨c.setWidth 8⟩

/-- `memset` with what it returns. -/
def memsetReturning (m : Mem) (s : Ptr) (c : BitVec 32) (n : Nat) : Except Fault (Ptr × Mem) := do
  let m ← memset m s (lowByte c) n
  .ok (s, m)

/-- `s[0..n)` becomes the low byte of `c`, nothing else changes, and `s` is returned. -/
def FillsAll (m : Mem) (d e : Nat) (c : BitVec 32) (n : Nat) : Prop :=
  memsetReturning m (.ofBlock d e) c n =
    .ok (.ofBlock d e, m.setBytes d (overwrite (m.bytes d) e (List.replicate n (lowByte c))))

section Copying

variable {U : Unspecified} {m : Mem} {d e b o n k : Nat} {l w : List UInt8} {c : BitVec 32}

theorem take_overwrite (h : o ≤ l.length) : ((overwrite l o w).drop o).take w.length = w := by
  have hlen : (l.take o).length = o := by rw [List.length_take, Nat.min_eq_left h]
  rw [overwrite, List.append_assoc, List.drop_append_of_le_length (Nat.le_of_eq hlen.symm),
    List.drop_eq_nil_of_le (Nat.le_of_eq hlen), List.nil_append, List.take_left]

theorem overwrite_eq_self_iff (h : o + w.length ≤ l.length) :
    overwrite l o w = l ↔ (l.drop o).take w.length = w := by
  constructor
  · intro he
    have htake := take_overwrite (w := w) (show o ≤ l.length by omega)
    rwa [he] at htake
  · intro he
    have hsplit : l = l.take o ++ (l.drop o).take w.length ++ l.drop (o + w.length) := by
      rw [← List.drop_drop, List.append_assoc, List.take_append_drop, List.take_append_drop]
    unfold overwrite
    conv_rhs => rw [hsplit, he]

theorem drop_overwrite (h : o + w.length ≤ l.length) :
    (overwrite l o w).drop (o + w.length) = l.drop (o + w.length) := by
  have hlen : (l.take o ++ w).length = o + w.length := by
    rw [List.length_append, List.length_take]
    omega
  unfold overwrite
  rw [← hlen, List.drop_left]

/-- Writing a part is writing it all if the rest is there already. -/
theorem overwrite_take_iff (h : o + w.length ≤ l.length) (hk : k ≤ w.length) :
    overwrite l o (w.take k) = overwrite l o w ↔
      (l.drop (o + k)).take (w.length - k) = w.drop k := by
  have hlen : (w.take k).length = k := by rw [List.length_take, Nat.min_eq_left hk]
  have hrest : (w.drop k).length = w.length - k := List.length_drop
  have hfit : o + (w.take k).length ≤ l.length := by omega
  have hwhole : overwrite (overwrite l o (w.take k)) (o + (w.take k).length) (w.drop k) =
      overwrite l o (w.take k ++ w.drop k) := overwrite_append hfit
  have hdrop := drop_overwrite hfit
  rw [List.take_append_drop, hlen] at hwhole
  rw [hlen] at hdrop
  rw [← hwhole, eq_comm, overwrite_eq_self_iff, hdrop, hrest]
  rw [length_overwrite hfit]
  omega

theorem setBytes_inj (h : d < m.next) : m.setBytes d l = m.setBytes d w ↔ l = w := by
  constructor
  · intro he
    have := congrArg (Mem.bytes · d) he
    simpa only [Mem.bytes_setBytes_self h] using this
  · rintro rfl
    rfl

theorem toInt_nonpos_iff (n : Nat) : (toInt n).toNat = 0 ↔ n % 2 ^ 32 = 0 ∨ 2 ^ 31 ≤ n % 2 ^ 32 := by
  unfold toInt
  rw [Int.bmod_def]
  omega

/-- What `memcpy` does: it copies as many bytes as the count is as an `int`, and returns where they
end. -/
theorem memcpy_apart (h : Regions m d e b o n) (hk : (toInt n).toNat = k) :
    memcpy U m (.ofBlock d e) (.ofBlock b o) n =
      .ok (.ofBlock d (e + k), m.setBytes d (overwrite (m.bytes d) e ((((m.bytes b).drop o).take n).take k))) := by
  have hle : k ≤ n := hk ▸ toNat_toInt_le n
  obtain ⟨hd, hdest, hsource, hapart⟩ := h
  have hlen : ((((m.bytes b).drop o).take n).take k).length = k := by
    rw [List.length_take, List.length_take, List.length_drop]
    omega
  have hs : (((m.bytes b).drop o).take n).take k <+: (m.bytes b).drop o :=
    (List.take_prefix _ _).trans (List.take_prefix _ _)
  have hcopy := memcpyLoop_disjoint (U := U) (e := e) (by omega) hd hs (by omega)
  rw [hlen] at hcopy
  rw [memcpy, if_neg (by simp), hk, hcopy]

/-- It does as it should only where it copies nothing and nothing is to be copied. -/
theorem copiesAll_iff (h : Regions m d e b o n) : CopiesAll U m d e b o n ↔
    (n % 2 ^ 32 = 0 ∨ 2 ^ 31 ≤ n % 2 ^ 32) ∧
      ((m.bytes d).drop e).take n = ((m.bytes b).drop o).take n := by
  have hlen : (((m.bytes b).drop o).take n).length = n := by
    have := h.source
    rw [List.length_take, List.length_drop]
    omega
  have hsame := overwrite_take_iff (k := 0) (hlen.symm ▸ h.dest) (Nat.zero_le _)
  rw [hlen, List.drop_zero, Nat.add_zero, Nat.sub_zero] at hsame
  unfold CopiesAll
  rw [memcpy_apart h rfl, ← toInt_nonpos_iff, ← hsame, Except.ok.injEq, Prod.mk.injEq, setBytes_inj h.lt_next,
    Ptr.ofBlock.injEq]
  constructor
  · rintro ⟨⟨-, hend⟩, hbytes⟩
    have hk : (toInt n).toNat = 0 := by omega
    rw [hk] at hbytes
    exact ⟨hk, hbytes⟩
  · rintro ⟨hk, hbytes⟩
    rw [hk]
    exact ⟨⟨rfl, Int.add_zero _⟩, hbytes⟩

/-- `memset` leaves out the bytes by which the count is less as an `int`. -/
theorem fillsAll_iff (hd : d < m.next) (h : e + n ≤ (m.bytes d).length) : FillsAll m d e c n ↔
    ((m.bytes d).drop (e + (toInt n).toNat)).take (n - (toInt n).toNat) =
      List.replicate (n - (toInt n).toNat) (lowByte c) := by
  have hle := toNat_toInt_le n
  have hpart : List.replicate (toInt n).toNat (lowByte c) =
      (List.replicate n (lowByte c)).take (toInt n).toNat := by
    rw [List.take_replicate, Nat.min_eq_left hle]
  have hrest : (List.replicate n (lowByte c)).drop (toInt n).toNat =
      List.replicate (n - (toInt n).toNat) (lowByte c) := List.drop_replicate
  have hlen : (List.replicate n (lowByte c)).length = n := List.length_replicate
  have hsame := overwrite_take_iff (k := (toInt n).toNat) (hlen.symm ▸ h) (hlen.symm ▸ hle)
  rw [hlen, hrest, ← hpart] at hsame
  unfold FillsAll memsetReturning
  rw [memset, if_neg (by simp), memsetLoop_eq hd (by omega), ok_bind, Except.ok.injEq, Prod.mk.injEq,
    setBytes_inj hd, and_iff_right rfl, hsame]

end Copying

/-- `memcpy` is right exactly if the count is not positive as an `int` and the bytes are the same already,
`memset` exactly if those that it leaves out are. -/
theorem copy_and_fill_iff (U : Unspecified) (m : Mem) :
    (∀ {d e b o n : Nat}, Regions m d e b o n →
      (CopiesAll U m d e b o n ↔ (n % 2 ^ 32 = 0 ∨ 2 ^ 31 ≤ n % 2 ^ 32) ∧
        ((m.bytes d).drop e).take n = ((m.bytes b).drop o).take n)) ∧
    ∀ {d e n : Nat} (c : BitVec 32), d < m.next → e + n ≤ (m.bytes d).length →
      (FillsAll m d e c n ↔ ((m.bytes d).drop (e + (toInt n).toNat)).take (n - (toInt n).toNat) =
        List.replicate (n - (toInt n).toNat) (lowByte c)) :=
  ⟨copiesAll_iff, fun _ => fillsAll_iff⟩

/-- One byte is filled, and none copied where there is none to copy. -/
theorem fill_one_byte :
    FillsAll ⟨[[1], [2]], [], [], none⟩ 0 0 7 1 ∧ ∀ U, CopiesAll U ⟨[[1], [2]], [], [], none⟩ 0 0 1 0 0 := by
  constructor
  · exact ((copy_and_fill_iff ⟨fun _ _ => 0, fun _ _ => 0, fun _ => 0, fun _ => 0, fun _ _ _ => false⟩ _).2 7
      (by decide) (by decide)).2 (by decide)
  · exact fun U => ((copy_and_fill_iff U _).1 ⟨by decide, by decide, by decide, by decide⟩).2 (by decide)

/-- The copy of one byte returns a pointer behind it, and of 2^31 bytes to be cleared none is. -/
theorem copy_returns_its_end :
    (Regions ⟨[[1], [2]], [], [], none⟩ 0 0 1 0 1 ∧ ∀ U, ¬ CopiesAll U ⟨[[1], [2]], [], [], none⟩ 0 0 1 0 1) ∧
      ¬ FillsAll ⟨[List.replicate (2 ^ 31) 1], [], [], none⟩ 0 0 0 (2 ^ 31) := by
  have h : Regions ⟨[[1], [2]], [], [], none⟩ 0 0 1 0 1 := ⟨by decide, by decide, by decide, by decide⟩
  refine ⟨⟨h, fun U => (copiesAll_iff h).not.2 (by decide)⟩, ?_⟩
  have hlen : (List.replicate (2 ^ 31) (1 : UInt8)).length = 2 ^ 31 := List.length_replicate
  have hcount : (toInt (2 ^ 31 : Nat)).toNat = 0 := (toInt_nonpos_iff _).2 (.inr (by decide))
  rw [fillsAll_iff Nat.zero_lt_one (by rw [Nat.zero_add]; exact Nat.le_of_eq hlen.symm), hcount]
  intro he
  have htake : (List.replicate (2 ^ 31) (1 : UInt8)).take (2 ^ 31) = List.replicate (2 ^ 31) (lowByte 0) := he
  rw [List.take_of_length_le (Nat.le_of_eq hlen)] at htake
  rcases (List.replicate_inj.1 htake).2 with h0 | h1
  · omega
  · exact absurd h1 (by decide)

end Sbunix.Libc
