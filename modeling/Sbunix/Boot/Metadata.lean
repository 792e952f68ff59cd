/-
The loader's metadata and how `start` (sys/main.c) looks for the memory map in them. A record has its
length in bytes, the loop over the entries of the map takes it for that, and the walk from record to
record takes it for a number of words.
-/
import Mathlib.Algebra.Group.Nat.Defs
import Sbunix.Lib.Fallible
import Sbunix.Lib.Strides

namespace Sbunix.Boot

open Fallible Strides

/-! ## Records -/

abbrev Word := BitVec 32

/-- Type, length and payload, which has whole words. -/
structure Record where
  type : Word
  payload : List Word
  length_lt : 4 * payload.length < 2 ^ 32

/-- In bytes. -/
def Record.length (r : Record) : Word := BitVec.ofNat 32 (4 * r.payload.length)

def Record.words (r : Record) : List Word := r.type :: r.length :: r.payload

def metadata (records : List Record) : List Word := records.flatMap Record.words

/-- `struct smap_t` -/
structure Smap where
  base : BitVec 64
  length : BitVec 64
  type : BitVec 32
deriving DecidableEq, Repr

/-- The arguments with which `kprintf` is called for an entry, if it is. -/
def Smap.available (smap : Smap) : Option (BitVec 64 × BitVec 64) :=
  if smap.type = 1 ∧ smap.length ≠ 0 then some (smap.base, smap.base + smap.length) else none

/-! ## `start` -/

/-- `0x9001` -/
def smapType : Word := 0x9001

/-- `modulep[0] != 0x9001`, `modulep[1]+2`: the sum is made on 32 bits, the pointer moves by words. -/
def look : List Word → Step
  | [] => .outside
  | type :: rest =>
    if type = smapType then .here
    else
      match rest with
      | [] => .outside
      | length :: _ => .forward (length + 2).toNat

def readWord (buffer : List Word) (i : Nat) : Except Fault Word :=
  match buffer[i]? with
  | some w => .ok w
  | none => .error .outside

/-- The low word first. -/
def readQuad (buffer : List Word) (i : Nat) : Except Fault (BitVec 64) := do
  let low ← readWord buffer i
  let high ← readWord buffer (i + 1)
  return high ++ low

/-- An entry the loop has come to, and what is printed for it. -/
structure Visit where
  smap : Nat
  printed : Option (BitVec 64 × BitVec 64)
deriving DecidableEq, Repr

/-- The body of the loop over the entries, five words each. -/
def visitEntry (buffer : List Word) (smap : Nat) : Except Fault Visit := do
  let type ← readWord buffer (smap + 4)
  if type = 1 then
    let length ← readQuad buffer (smap + 2)
    if length ≠ 0 then
      let base ← readQuad buffer smap
      return ⟨smap, some (base, base + length)⟩
    else return ⟨smap, none⟩
  else return ⟨smap, none⟩

/-- `last` is in bytes. -/
def smapLoop (buffer : List Word) (last : Nat) : Nat → Nat → Except Fault (List Visit)
  | 0, _ => .error .outOfFuel
  | fuel + 1, smap =>
    if 4 * smap < last then do
      let visit ← visitEntry buffer smap
      let visits ← smapLoop buffer last fuel (smap + 5)
      return visit :: visits
    else return []

/-- Where `modulep` points to in the end, and the entries the second loop has come to. The walk takes
the words from `modulep` on, the pointers are offsets in words. -/
def start (buffer : List Word) (fuel fuel' : Nat) : Except Fault (Nat × List Visit) := do
  let modulep ← walk look buffer fuel 0
  let length ← readWord buffer (modulep + 1)
  let visits ← smapLoop buffer (4 * modulep + length.toNat + 2 * 4) fuel' (modulep + 2)
  return (modulep, visits)

/-! ## The memory map behind other records -/

/-- Entry `k` of a payload. -/
def smapAt (payload : List Word) (k : Nat) : Smap where
  base := payload.getD (5 * k + 1) 0 ++ payload.getD (5 * k) 0
  length := payload.getD (5 * k + 3) 0 ++ payload.getD (5 * k + 2) 0
  type := payload.getD (5 * k + 4) 0

/-- The entries of a payload that begins at `first`. -/
def visitsOf (payload : List Word) (first : Nat) : List Visit :=
  (List.range (payload.length / 5)).map fun k => ⟨first + 5 * k, (smapAt payload k).available⟩

/-- A memory map behind records none of which is one. -/
structure FirstSmap (pre : List Record) (target : Record) : Prop where
  type : target.type = smapType
  entries : 20 ∣ target.length.toNat
  first : ∀ r ∈ pre, ¬ (r.type = smapType ∧ 20 ∣ r.length.toNat)

/-- The walk stops at the header of `target`, and the loop visits the entries of its payload. -/
def FindsSmap (pre : List Record) (target : Record) (post : List Record) : Prop :=
  ∃ fuel fuel', start (metadata (pre ++ target :: post)) fuel fuel' =
    .ok ((metadata pre).length, visitsOf target.payload ((metadata pre).length + 2))

/-- The words in front of `after` are also records whose length counts words: none is a memory map, and
each takes two words more than the word behind its type says. -/
inductive CountsWords (after : List Word) : List Word → Prop
  | nil : CountsWords after []
  | cons {type length : Word} {piece rest : List Word} : type ≠ smapType →
      (piece ++ rest ++ after).head? = some length → (type :: piece).length = (length + 2).toNat →
      CountsWords after rest → CountsWords after (type :: (piece ++ rest))

section Walk

variable {after front piece rest payload before : List Word} {r target : Record} {pre post : List Record}
  {type : Word} {k n : Nat}

theorem look_here (h : type = smapType) : look (type :: rest) = .here := if_pos h

theorem look_cons_iff : look (type :: rest) = .forward n ↔
    type ≠ smapType ∧ ∃ length, rest.head? = some length ∧ n = (length + 2).toNat := by
  unfold look
  dsimp only
  by_cases h : type = smapType
  · rw [if_pos h]
    exact iff_of_false (by simp) fun hn => hn.1 h
  · rw [if_neg h, and_iff_right h]
    cases rest with
    | nil => simp
    | cons length rest =>
      rw [List.head?_cons]
      constructor
      · rintro ⟨⟩
        exact ⟨length, rfl, rfl⟩
      · rintro ⟨_, ⟨⟩, rfl⟩
        rfl

/-- What the walk goes over are records whose length counts words. -/
theorem cut_iff : Cut look after front ↔ CountsWords after front := by
  constructor
  · intro h
    induction h with
    | nil => exact .nil
    | @cons piece rest hne hlook _ ih =>
      cases piece with
      | nil => exact absurd rfl hne
      | cons type piece =>
        obtain ⟨htype, length, hhead, hlen⟩ := look_cons_iff.1 hlook
        exact .cons htype hhead hlen ih
  · intro h
    induction h with
    | nil => exact .nil
    | @cons type length piece rest htype hhead hlen _ ih =>
      exact Cut.cons (List.cons_ne_nil type piece) (look_cons_iff.2 ⟨htype, length, hhead, hlen⟩) ih

theorem toNat_length (r : Record) : r.length.toNat = 4 * r.payload.length := by
  unfold Record.length
  rw [BitVec.toNat_ofNat, Nat.mod_eq_of_lt r.length_lt]

/-! ### The entries -/

theorem readWord_payload {i : Nat} (h : i < payload.length) :
    readWord (before ++ payload ++ rest) (before.length + i) = .ok (payload.getD i 0) := by
  unfold readWord
  rw [List.append_assoc, List.getElem?_append_right (Nat.le_add_right _ _), Nat.add_sub_cancel_left,
    List.getElem?_append_left h, List.getD_eq_getElem?_getD, List.getElem?_eq_getElem h]
  rfl

theorem readQuad_payload {i : Nat} (h : i + 1 < payload.length) :
    readQuad (before ++ payload ++ rest) (before.length + i) =
      .ok (payload.getD (i + 1) 0 ++ payload.getD i 0) := by
  unfold readQuad
  rw [readWord_payload (by omega), ok_bind, Nat.add_assoc, readWord_payload h]
  rfl

theorem visitEntry_payload (h : 5 * k + 4 < payload.length) :
    visitEntry (before ++ payload ++ rest) (before.length + 5 * k) =
      .ok ⟨before.length + 5 * k, (smapAt payload k).available⟩ := by
  have htype : readWord (before ++ payload ++ rest) (before.length + 5 * k + 4) = .ok (smapAt payload k).type := by
    rw [Nat.add_assoc]
    exact readWord_payload h
  have hlength : readQuad (before ++ payload ++ rest) (before.length + 5 * k + 2) =
      .ok (smapAt payload k).length := by
    rw [Nat.add_assoc]
    exact readQuad_payload (by omega)
  have hbase : readQuad (before ++ payload ++ rest) (before.length + 5 * k) = .ok (smapAt payload k).base :=
    readQuad_payload (by omega)
  unfold visitEntry Smap.available
  rw [htype, ok_bind]
  by_cases h1 : (smapAt payload k).type = 1
  · rw [if_pos h1, hlength, ok_bind]
    by_cases h0 : (smapAt payload k).length ≠ 0
    · rw [if_pos h0, hbase, ok_bind, if_pos ⟨h1, h0⟩]
      rfl
    · rw [if_neg h0, if_neg fun h => h0 h.2]
      rfl
  · rw [if_neg h1, if_neg fun h => h1 h.1]
    rfl

/-- The loop from entry `k` on, by induction on the entries still to come. -/
theorem smapLoop_payload (before payload rest : List Word) : ∀ (j k : Nat), 5 * (k + j) = payload.length →
    smapLoop (before ++ payload ++ rest) (4 * before.length + 4 * payload.length) (j + 1)
        (before.length + 5 * k) =
      .ok ((List.range' k j).map fun k => ⟨before.length + 5 * k, (smapAt payload k).available⟩)
  | 0, k, h => by
    rw [smapLoop, if_neg (by omega)]
    rfl
  | j + 1, k, h => by
    have hrest := smapLoop_payload before payload rest j (k + 1) (by omega)
    rw [smapLoop, if_pos (by omega), visitEntry_payload (by omega), ok_bind,
      show before.length + 5 * k + 5 = before.length + 5 * (k + 1) by omega, hrest, List.range'_succ]
    rfl

/-! ### The records in front -/

theorem metadata_split (pre : List Record) (target : Record) (post : List Record) :
    metadata (pre ++ target :: post) = metadata pre ++ metadata (target :: post) := List.flatMap_append

theorem metadata_cons : metadata (r :: post) = r.type :: r.length :: (r.payload ++ metadata post) := by
  unfold metadata
  rw [List.flatMap_cons]
  rfl

/-- With the walk at the memory map the rest is as it should be. -/
theorem start_of_walk (h : FirstSmap pre target) (post : List Record) {fuel : Nat}
    (hwalk : walk look (metadata (pre ++ target :: post)) fuel 0 = .ok (metadata pre).length) :
    FindsSmap pre target post := by
  have hlen := toNat_length target
  have hentries := h.entries
  have hbuffer : metadata (pre ++ target :: post) =
      (metadata pre ++ [target.type, target.length]) ++ target.payload ++ metadata post := by
    rw [metadata_split, metadata_cons]
    simp
  have hfront : (metadata pre ++ [target.type, target.length]).length = (metadata pre).length + 2 := by
    rw [List.length_append]
    rfl
  have hlength : readWord (metadata (pre ++ target :: post)) ((metadata pre).length + 1) = .ok target.length := by
    unfold readWord
    rw [metadata_split, List.getElem?_append_right (Nat.le_add_right _ _), Nat.add_sub_cancel_left, metadata_cons]
    rfl
  have hloop := smapLoop_payload (metadata pre ++ [target.type, target.length]) target.payload (metadata post)
    (target.payload.length / 5) 0 (by omega)
  rw [← hbuffer, hfront] at hloop
  refine ⟨fuel, target.payload.length / 5 + 1, ?_⟩
  unfold start
  rw [hwalk, ok_bind, hlength, ok_bind, hlen,
    show 4 * (metadata pre).length + 4 * target.payload.length + 2 * 4 =
      4 * ((metadata pre).length + 2) + 4 * target.payload.length by omega]
  refine (congrArg (· >>= _) hloop).trans ?_
  rw [ok_bind, ← List.range_eq_range']
  rfl

/-- The words in front of a memory map, and the walk to it. -/
theorem walk_iff_countsWords (h : FirstSmap pre target) (post : List Record) :
    (∃ fuel, walk look (metadata (pre ++ target :: post)) fuel 0 = .ok (metadata pre).length) ↔
      CountsWords (metadata (target :: post)) (metadata pre) := by
  have hhere : look (metadata (target :: post)) = .here := by
    rw [metadata_cons]
    exact look_here h.type
  rw [metadata_split, walk_iff hhere, cut_iff]

theorem countsWords_of_found (h : FirstSmap pre target) (hfound : FindsSmap pre target post) :
    CountsWords (metadata (target :: post)) (metadata pre) := by
  obtain ⟨fuel, fuel', hstart⟩ := hfound
  obtain ⟨modulep, hwalk, hrest⟩ := bind_eq_ok hstart
  obtain ⟨length, -, hrest⟩ := bind_eq_ok hrest
  obtain ⟨visits, -, hrest⟩ := bind_eq_ok hrest
  cases hrest
  exact (walk_iff_countsWords h post).1 ⟨fuel, hwalk⟩

/-- Records without payload are the same either way. -/
theorem countsWords_of_empty : ∀ {pre : List Record}, (∀ r ∈ pre, r.type ≠ smapType ∧ r.payload = []) →
    CountsWords after (metadata pre)
  | [], _ => .nil
  | r :: pre, h => by
    obtain ⟨htype, hpayload⟩ := h r List.mem_cons_self
    have hrest := countsWords_of_empty fun x hx => h x (List.mem_cons_of_mem r hx)
    have hzero : r.length = 0 := by
      unfold Record.length
      rw [hpayload]
      rfl
    rw [metadata_cons, hpayload, hzero]
    have hfirst : CountsWords after (r.type :: ([0] ++ metadata pre)) := .cons htype rfl rfl hrest
    exact hfirst

/-- The first of the records in front takes as many words as its payload has bytes, so that there have to be
enough of them. -/
theorem le_of_countsWords (h : CountsWords after (metadata (r :: pre))) :
    3 * r.payload.length ≤ (metadata pre).length := by
  have hlt := r.length_lt
  rw [metadata_cons] at h
  generalize hfront : r.type :: r.length :: (r.payload ++ metadata pre) = front at h
  cases h with
  | nil => cases hfront
  | @cons type length piece rest htype hhead hlen _ =>
    obtain ⟨rfl, hsplit⟩ := List.cons.inj hfront
    rw [← hsplit, List.cons_append, List.head?_cons, Option.some.injEq] at hhead
    have htotal := congrArg List.length hsplit
    rw [List.length_cons, List.length_append, List.length_append] at htotal
    rw [← hhead, List.length_cons, BitVec.toNat_add, toNat_length,
      show (2 : BitVec 32).toNat = 2 from rfl] at hlen
    omega

end Walk

/-- `start` finds the memory map exactly if the words in front of it are also records whose length counts
words. -/
theorem smap_found_iff {pre : List Record} {target : Record} (h : FirstSmap pre target) (post : List Record) :
    FindsSmap pre target post ↔ CountsWords (metadata (target :: post)) (metadata pre) := by
  constructor
  · exact countsWords_of_found h
  · intro hwords
    obtain ⟨fuel, hwalk⟩ := (walk_iff_countsWords h post).2 hwords
    exact start_of_walk h post hwalk

/-- A map with one entry, 4 KiB from address 0 on. -/
def oneEntry : Record := ⟨smapType, [0, 0, 0x1000, 0, 1], by decide⟩

theorem found_behind_empty : FindsSmap [⟨5, [], by decide⟩] oneEntry [] := by
  have h : FirstSmap [⟨5, [], by decide⟩] oneEntry := ⟨rfl, by decide, by simp [smapType]⟩
  exact (smap_found_iff h []).2 (countsWords_of_empty (by simp [smapType]))

/-- One word of payload in front of it, and the walk goes past the map. -/
theorem missed_behind_word : FirstSmap [⟨5, [7], by decide⟩] oneEntry ∧
    ¬ FindsSmap [⟨5, [7], by decide⟩] oneEntry [] := by
  have h : FirstSmap [⟨5, [7], by decide⟩] oneEntry := ⟨rfl, by decide, by simp [smapType]⟩
  refine ⟨h, fun hfound => ?_⟩
  exact absurd (le_of_countsWords (countsWords_of_found h hfound)) (by decide)

end Sbunix.Boot
