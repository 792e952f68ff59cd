/-
The environment (libc/getenv.c): 20 slots filled from the front, each a copied key and a pointer
to the caller's value. The value itself is not copied.
-/
import Sbunix.Libc.String
import Sbunix.Lib.Slots

namespace Sbunix.Libc

open BlockMemory Fallible

structure EnvironData where
  key : Ptr
  value : Ptr
deriving DecidableEq

def environDataSize : Nat := 20

def sizeofEnvironData : Nat := 16

/-- The slots before the first NULL one. -/
abbrev Environ := List EnvironData

/-! ## The functions -/

def getenv (m : Mem) (key : Source) : Environ → Except Fault Ptr
  | [] => .ok .null
  | e :: environ => do
    if (← strcmp m key (.pointer e.key)) = 0 then
      return e.value
    getenv m key environ

/-- A new slot, with a copy of the key (whose length is asked for once here). -/
def newEntry (U : Unspecified) (m : Mem) (key value : Ptr) : Except Fault (EnvironData × Mem) := do
  let (_, m) := mallocBlock U m sizeofEnvironData
  let (len, m) ← strlen U m key
  let (copy, m) := mallocBlock U m (len + 1)
  let m ← memset m copy 0 (len + 1)
  let (_, m) ← memcpy U m copy key len
  return ({ key := copy, value }, m)

section Setenv

variable (U : Unspecified) (key value : Ptr)

/-- Mode 0 from slot `index` on: only add. -/
def addLoop (m : Mem) : Nat → Environ → Except Fault (Int × Environ × Mem)
  | index, [] => do
    if index < environDataSize then
      let (e, m) ← newEntry U m key value
      return (0, [e], m)
    return (-1, [], m)
  | index, e :: environ => do
    let (r, environ, m) ← addLoop m (index + 1) environ
    return (r, e :: environ, m)

/-- Mode 1 from slot `index` on. -/
def setLoop (m : Mem) : Nat → Environ → Except Fault (Int × Environ × Mem)
  | index, [] => do
    if index < environDataSize then
      let (e, m) ← newEntry U m key value
      return (0, [e], m)
    return (-1, [], m)
  | index, e :: environ => do
    if (← strcmp m (.pointer e.key) (.pointer key)) = 0 then
      return (0, { e with value } :: environ, m)
    let (r, environ, m) ← setLoop m (index + 1) environ
    return (r, e :: environ, m)

def setenv (m : Mem) (environ : Environ) (mode : Int) : Except Fault (Int × Environ × Mem) :=
  if mode = 0 then addLoop U key value m 0 environ
  else if mode = 1 then setLoop U key value m 0 environ
  else .ok (-1, environ, m)

end Setenv

/-! ## The slots as a table -/

/-- A key that stands in the first two fields of a header. -/
structure ShortKey (key : List UInt8) : Prop where
  ne_nil : key ≠ []
  length : key.length ≤ 16

/-- The key of a slot stands in a block of `Q`, its value is the pointer `x.2`. -/
def EntryFor (Q : Nat → Prop) (m : Mem) (e : EnvironData) (x : List UInt8 × Ptr) : Prop :=
  (∃ b o : Nat, e.key = .ofBlock b o ∧ Q b ∧ m.StringAt b o x.1) ∧ e.value = x.2

/-- The environment holds the table `slots`, its keys in blocks of `Q`. -/
def Holds (Q : Nat → Prop) (m : Mem) (environ : Environ) (slots : List (List UInt8 × Ptr)) : Prop :=
  List.Forall₂ (EntryFor Q m) environ slots

section Specs

variable {U : Unspecified} {Q Q' : Nat → Prop} {m m' : Mem} {environ : Environ}
  {slots : List (List UInt8 × Ptr)} {key : List UInt8} {b o k : Nat}

theorem Holds.frame {K : Nat → Prop} (h : Holds Q m environ slots) (hf : Frame K m m')
    (hK : ∀ c, Q c → c < m.next → K c) (hQ : ∀ c, Q c → c < m.next → Q' c) :
    Holds Q' m' environ slots :=
  h.imp fun _ _ ⟨⟨c, o, hk, hc, hs⟩, hv⟩ =>
    ⟨⟨c, o, hk, hQ c hc hs.lt_next, hs.frame hf (hK c hc hs.lt_next)⟩, hv⟩

theorem Holds.keeps (h : Holds Q m environ slots) (hk : ∀ c < m.next, Keeps c m m') : Holds Q m' environ slots :=
  h.imp fun _ _ ⟨⟨c, o, he, hc, hs⟩, hv⟩ =>
    ⟨⟨c, o, he, hc, Mem.stringAt_of_bytes (hk c hs.lt_next).bytes hs⟩, hv⟩

theorem EntryFor.source {e : EnvironData} {x : List UInt8 × Ptr} (h : EntryFor Q m e x) :
    Source.IsString m (.pointer e.key) x.1 := by
  obtain ⟨⟨c, o, hk, -, hs⟩, -⟩ := h
  exact ⟨c, o, hk, hs⟩

theorem getenv_eq {src : Source} (hsrc : src.IsString m key) (h : Holds Q m environ slots) :
    getenv m src environ = .ok ((Slots.find slots key).getD .null) := by
  induction h with
  | nil => rfl
  | @cons e x environ slots he _ ih =>
    obtain ⟨d, hd, hiff⟩ := strcmp_string hsrc he.source
    rw [getenv, hd]
    simp only [ok_bind]
    obtain ⟨k, v⟩ := x
    rw [Slots.find]
    by_cases hk : k = key
    · rw [if_pos (hiff.2 hk.symm), if_pos hk, he.2]
      rfl
    · rw [if_neg fun h0 => hk (hiff.1 h0).symm, if_neg hk, ih]

/-- A key in the block allocated last. -/
theorem ShortKey.quiet (hshort : ShortKey key) (h0 : 0 ∉ key) (hsome : m.root.isSome) (hnext : rootNext m = 0)
    (hroot : m'.root = (mallocBlock U m (key.length + 1)).2.root) (hbytes : m'.bytes m.next = key ++ [0])
    (hk : k ≤ m.next) : Quiet k m' := by
  have hin : RootIn m.next (mallocBlock U m (key.length + 1)).2 := RootIn.malloc hsome
  have hblock : ∀ r, (mallocBlock U m (key.length + 1)).2.root = some r → r.block = m.next := by
    rintro r hr
    obtain ⟨r', hr', hb, -⟩ := hin
    cases hr.symm.trans hr'
    exact hb
  refine .of_text (hin.of_root hroot) hbytes ?_ (by simp) (rootNext_of_root hroot ?_ ?_ (rootNext_malloc.trans hnext))
    hk
  · obtain ⟨ch, rest, rfl⟩ := List.exists_cons_of_ne_nil hshort.ne_nil
    rw [List.cons_append, List.head?_cons]
    exact fun he => h0 (Option.some.inj he ▸ List.mem_cons_self)
  · intro r hr
    rw [hblock r hr, hbytes, bytes_malloc_self, length_newBytes, List.length_append, List.length_singleton]
  · intro r hr i h16 _
    have hlen := hshort.length
    rw [hblock r hr, hbytes, List.getD_append_right _ _ _ _ (by omega)]
    exact .inl (by cases i - key.length <;> rfl)

/-- The new slot's key is a copy in a block of its own, which comes to stand at ROOT. -/
theorem newEntry_eq (value : Ptr) (hk : m.StringAt b o key) (hl : key.length + 1 < 2 ^ 31)
    (hQ : ∀ c, m.next ≤ c → Q c) :
    ∃ e m', newEntry U m (.ofBlock b o) value = .ok (e, m') ∧ Frame (· < m.next) m m' ∧
      EntryFor Q m' e (key, value) ∧ (ShortKey key → rootNext m = 0 → k ≤ m.next → Quiet k m') := by
  obtain ⟨m1, hm1⟩ : ∃ m1, mallocBlock U m sizeofEnvironData = (.ofBlock m.next 0, m1) := ⟨_, rfl⟩
  have f1 : Frame (· < m.next) m m1 := by
    have := frame_malloc (K := (· < m.next)) (U := U) (n := sizeofEnvironData) (Nat.lt_irrefl m.next)
    rwa [hm1] at this
  have n1 : m1.next = m.next + 1 := by
    have := next_malloc (U := U) (m := m) (n := sizeofEnvironData)
    rwa [hm1] at this
  have h1 := hk.frame f1 hk.lt_next
  -- the copy's block, cleared before the key is copied into it
  have r1 : rootNext m1 = rootNext m := by
    have := rootNext_malloc (U := U) (m := m) (n := sizeofEnvironData)
    rwa [hm1] at this
  have s1 : m1.root.isSome := by
    have := root_malloc (U := U) (m := m) (n := sizeofEnvironData)
    rw [hm1] at this
    obtain ⟨r, hr, -⟩ := this
    exact hr ▸ rfl
  obtain ⟨m2, e2, f2, n2, b2, r2⟩ := memset_malloc (U := U) (m := m1) hl
  obtain ⟨ma, hma⟩ : ∃ ma, mallocBlock U m1 (key.length + 1) = (.ofBlock (m.next + 1) 0, ma) :=
    ⟨_, by rw [← n1]; rfl⟩
  rw [hma, n1] at e2
  rw [n1] at f2 n2 b2
  have h2 := h1.frame f2 (by have := hk.lt_next; omega)
  have hb2 : b ≠ m.next + 1 := by have := hk.lt_next; omega
  have hcopy := memcpy_eq (U := U) (d := m.next + 1) (e := 0) (by omega) hb2.symm (by omega)
    ((List.prefix_append key [0]).trans h2.isPrefix) (by rw [b2]; simp)
  have hbytes : overwrite (m2.bytes (m.next + 1)) 0 key = key ++ [0] := by
    rw [b2, overwrite]
    simp
  rw [hbytes, Nat.cast_zero] at hcopy
  have hs : (m2.setBytes (m.next + 1) (key ++ [0])).StringAt (m.next + 1) 0 key := by
    unfold Mem.StringAt
    rw [Mem.bytes_setBytes_self (by omega), List.drop_zero]
    exact isString_append hk.noNul []
  refine ⟨{ key := .ofBlock (m.next + 1) 0, value }, _, ?_,
    (f1.trans (f2.mono fun _ => by omega)).trans (.setBytes (by simp) (key ++ [0])),
    ⟨⟨m.next + 1, 0, rfl, hQ _ (by omega), hs⟩, rfl⟩, fun hshort h0 hlt =>
      hshort.quiet hk.noNul s1 (r1.trans h0) r2 (n1 ▸ Mem.bytes_setBytes_self (by omega)) (by omega)⟩
  rw [newEntry, hm1]
  dsimp only
  rw [strlen_string h1, ok_bind]
  dsimp only
  rw [hma]
  dsimp only
  rw [e2, ok_bind, hcopy]
  rfl

/-- `setenv(key, value, 1)` sets the key in the table, as long as a slot is left for it. -/
theorem setLoop_eq (value : Ptr) (hk : m.StringAt b o key) (hl : key.length + 1 < 2 ^ 31)
    (hQ : ∀ c, m.next ≤ c → Q c) (h : Holds Q m environ slots) (index : Nat)
    (hroom : key ∈ Slots.keys slots ∨ index + slots.length < environDataSize) :
    ∃ environ' m', setLoop U (.ofBlock b o) value m index environ = .ok (0, environ', m') ∧
      Frame (· < m.next) m m' ∧ Holds Q m' environ' (Slots.set slots key value) ∧
      (ShortKey key → Quiet k m → k ≤ m.next → Quiet k m') := by
  induction h generalizing index with
  | nil =>
    obtain ⟨e, m', he, hf, hentry, hquiet⟩ := newEntry_eq (U := U) (k := k) value hk hl hQ
    have hi : index < environDataSize := by simpa [Slots.keys] using hroom
    refine ⟨[e], m', ?_, hf, .cons hentry .nil, fun hshort hm hlt => hquiet hshort hm.next hlt⟩
    rw [setLoop, if_pos hi, he]
    rfl
  | @cons e x environ slots he hrest ih =>
    obtain ⟨k, v⟩ := x
    obtain ⟨d, hd, hiff⟩ := strcmp_string he.source (show Source.IsString m (.pointer (.ofBlock b o)) key
      from ⟨b, o, rfl, hk⟩)
    rw [setLoop, hd]
    simp only [ok_bind]
    rw [Slots.set]
    by_cases hkk : k = key
    · refine ⟨{ e with value } :: environ, m, ?_, .refl _ _, ?_, fun _ hm _ => hm⟩
      · rw [if_pos (hiff.2 hkk)]
        rfl
      · rw [if_pos hkk]
        exact .cons ⟨he.1, rfl⟩ hrest
    · -- the search goes on behind this slot
      have hroom' : key ∈ Slots.keys slots ∨ index + 1 + slots.length < environDataSize := by
        rcases hroom with hm | hlt
        · rw [Slots.keys, List.map_cons, List.mem_cons] at hm
          exact .inl (hm.resolve_left fun h => hkk h.symm)
        · rw [List.length_cons] at hlt
          exact .inr (by omega)
      obtain ⟨environ', m', he', hf, hall, hquiet⟩ := ih (index + 1) hroom'
      refine ⟨e :: environ', m', ?_, hf, ?_, hquiet⟩
      · rw [if_neg fun h0 => hkk (hiff.1 h0), he']
        rfl
      · rw [if_neg hkk]
        refine .cons ⟨?_, he.2⟩ hall
        obtain ⟨c, o', hc, hQc, hs⟩ := he.1
        exact ⟨c, o', hc, hQc, hs.frame hf hs.lt_next⟩

/-- With every slot taken and none of them the key's, `setenv(key, value, 1)` changes nothing. -/
theorem setLoop_full (value : Ptr) (hk : m.StringAt b o key) (h : Holds Q m environ slots)
    (index : Nat) (hkey : key ∉ Slots.keys slots) (hfull : ¬ index + slots.length < environDataSize) :
    setLoop U (.ofBlock b o) value m index environ = .ok (-1, environ, m) := by
  induction h generalizing index with
  | nil =>
    rw [setLoop, if_neg (by simpa using hfull)]
    rfl
  | @cons e x environ slots he _ ih =>
    obtain ⟨k, v⟩ := x
    obtain ⟨d, hd, hiff⟩ := strcmp_string he.source (show Source.IsString m (.pointer (.ofBlock b o)) key
      from ⟨b, o, rfl, hk⟩)
    rw [Slots.keys, List.map_cons, List.mem_cons, not_or] at hkey
    rw [List.length_cons] at hfull
    rw [setLoop, hd]
    simp only [ok_bind]
    rw [if_neg fun h0 => hkey.1 (hiff.1 h0).symm, ih (index + 1) hkey.2 (by omega)]
    rfl

/-- `setenv(key, value, 0)` takes the first free slot, whatever the others hold. -/
theorem addLoop_eq (value : Ptr) (hk : m.StringAt b o key) (hl : key.length + 1 < 2 ^ 31)
    (hQ : ∀ c, m.next ≤ c → Q c) (h : Holds Q m environ slots) (index : Nat)
    (hroom : index + slots.length < environDataSize) :
    ∃ environ' m', addLoop U (.ofBlock b o) value m index environ = .ok (0, environ', m') ∧
      Frame (· < m.next) m m' ∧ Holds Q m' environ' (slots ++ [(key, value)]) := by
  induction h generalizing index with
  | nil =>
    obtain ⟨e, m', he, hf, hentry, -⟩ := newEntry_eq (U := U) (k := 0) value hk hl hQ
    refine ⟨[e], m', ?_, hf, .cons hentry .nil⟩
    rw [addLoop, if_pos (by simpa using hroom), he]
    rfl
  | @cons e x environ slots he _ ih =>
    rw [List.length_cons] at hroom
    obtain ⟨environ', m', he', hf, hall⟩ := ih (index + 1) (by omega)
    refine ⟨e :: environ', m', ?_, hf, .cons ⟨?_, he.2⟩ hall⟩
    · rw [addLoop, he']
      rfl
    · obtain ⟨c, o', hc, hQc, hs⟩ := he.1
      exact ⟨c, o', hc, hQc, hs.frame hf hs.lt_next⟩

theorem addLoop_full (value : Ptr) : ∀ (environ : Environ) (index : Nat),
    ¬ index + environ.length < environDataSize →
    addLoop U (.ofBlock b o) value m index environ = .ok (-1, environ, m)
  | [], index, hfull => by
    rw [addLoop, if_neg (by simpa using hfull)]
    rfl
  | e :: environ, index, hfull => by
    rw [List.length_cons] at hfull
    rw [addLoop, addLoop_full value environ (index + 1) (by omega)]
    rfl

end Specs

section Kept

variable {U : Unspecified} {m m' : Mem} {b : Nat} {key value : Ptr}

theorem newEntry_keeps {e : EnvironData} (h : newEntry U m key value = .ok (e, m')) (hb : b < m.next) :
    Keeps b m m' := by
  unfold newEntry at h
  obtain ⟨⟨len, m2⟩, h2, h⟩ := bind_eq_ok h
  have k2 := (keeps_malloc (n := sizeofEnvironData) hb).trans (strlen_keeps h2)
  have hb2 : b < m2.next := Nat.lt_of_lt_of_le hb k2.next_le
  obtain ⟨m4, h4, h⟩ := bind_eq_ok h
  obtain ⟨⟨r, m5⟩, h5, h⟩ := bind_eq_ok h
  cases h
  -- the copy is a new block
  have hcopy : Outside b (mallocBlock U m2 (len + 1)).1 := outside_malloc hb2
  exact ((k2.trans (keeps_malloc hb2)).trans (memset_keeps h4 hcopy)).trans (memcpy_keeps h5 hcopy)

theorem addLoop_keeps : ∀ (environ : Environ) (index : Nat) {r : Int} {environ' : Environ} {m' : Mem},
    addLoop U key value m index environ = .ok (r, environ', m') → b < m.next → Keeps b m m'
  | [], index, _, _, _, h, hb => by
    rw [addLoop] at h
    split at h
    · obtain ⟨⟨e, m1⟩, h1, h⟩ := bind_eq_ok h
      cases h
      exact newEntry_keeps h1 hb
    · cases h; exact .refl _ _
  | e :: environ, index, _, _, _, h, hb => by
    rw [addLoop] at h
    obtain ⟨⟨r, environ', m1⟩, h1, h⟩ := bind_eq_ok h
    cases h
    exact addLoop_keeps environ _ h1 hb

theorem setLoop_keeps : ∀ (environ : Environ) (index : Nat) {r : Int} {environ' : Environ} {m' : Mem},
    setLoop U key value m index environ = .ok (r, environ', m') → b < m.next → Keeps b m m'
  | [], index, _, _, _, h, hb => by
    rw [setLoop] at h
    split at h
    · obtain ⟨⟨e, m1⟩, h1, h⟩ := bind_eq_ok h
      cases h
      exact newEntry_keeps h1 hb
    · cases h; exact .refl _ _
  | e :: environ, index, _, _, _, h, hb => by
    rw [setLoop] at h
    obtain ⟨d, -, h⟩ := bind_eq_ok h
    split at h
    · cases h; exact .refl _ _
    · obtain ⟨⟨r, environ', m1⟩, h1, h⟩ := bind_eq_ok h
      cases h
      exact setLoop_keeps environ _ h1 hb

theorem setenv_keeps {environ environ' : Environ} {mode r : Int}
    (h : setenv U key value m environ mode = .ok (r, environ', m')) (hb : b < m.next) : Keeps b m m' := by
  unfold setenv at h
  split at h
  · exact addLoop_keeps environ 0 h hb
  · split at h
    · exact setLoop_keeps environ 0 h hb
    · cases h; exact .refl _ _

end Kept

end Sbunix.Libc
