/-
Calls of `setenv` one after the other, with other code running between them: which value `getenv`
finds, and which keys stand in the slots.

A key set with mode 0 gets a new slot even when it has one already. `getenv` and mode 1 stop at the
first slot of a key, so nothing is ever read from the later ones; they only take up room.
-/
import Mathlib.Data.List.Dedup
import Mathlib.Logic.Function.Basic
import Sbunix.Lib.Run
import Sbunix.Libc.Env

namespace Sbunix.Libc

open BlockMemory Fallible Transition

/-! ## One call -/

/-- What a call makes of the table: mode, result, and the slots afterwards. -/
inductive Updates (slots : List (List UInt8 × Ptr)) (key : List UInt8) (value : Ptr) :
    Int → Int → List (List UInt8 × Ptr) → Prop
  | add : slots.length < environDataSize → Updates slots key value 0 0 (slots ++ [(key, value)])
  | addFull : ¬ slots.length < environDataSize → Updates slots key value 0 (-1) slots
  | set : key ∈ Slots.keys slots ∨ slots.length < environDataSize →
      Updates slots key value 1 0 (Slots.set slots key value)
  | setFull : key ∉ Slots.keys slots → ¬ slots.length < environDataSize →
      Updates slots key value 1 (-1) slots
  | unsupported {mode : Int} : mode ≠ 0 → mode ≠ 1 → Updates slots key value mode (-1) slots

/-- `malloc` takes an int and refuses what is not positive: from here on `strlen(key) + 1` is not. -/
def maxKeyLength : Nat := 2 ^ 31 - 1

section Call

variable {U : Unspecified} {Q : Nat → Prop} {m : Mem} {environ : Environ} {key : List UInt8}
  {slots : List (List UInt8 × Ptr)} {p : Ptr}

/-- A call with a string for its key returns, and updates the table. -/
theorem setenv_eq (value : Ptr) (mode : Int) (hk : m.String p key) (hl : key.length < maxKeyLength)
    (hQ : ∀ c, m.next ≤ c → Q c) (h : Holds Q m environ slots) :
    ∃ result environ' m' slots', setenv U p value m environ mode = .ok (result, environ', m') ∧
      Frame (· < m.next) m m' ∧ Holds Q m' environ' slots' ∧
      Updates slots key value mode result slots' := by
  obtain ⟨b, o, rfl, hk⟩ := hk
  have hl' : key.length + 1 < 2 ^ 31 := by
    unfold maxKeyLength at hl
    omega
  have hlen := h.length_eq
  unfold setenv
  by_cases h0 : mode = 0
  · subst h0
    rw [if_pos rfl]
    by_cases hroom : slots.length < environDataSize
    · obtain ⟨environ', m', he, hf, hall⟩ := addLoop_eq (U := U) value hk hl' hQ h 0 (by omega)
      exact ⟨0, environ', m', _, he, hf, hall, .add hroom⟩
    · exact ⟨-1, environ, m, slots, addLoop_full value environ 0 (by omega), .refl _ _, h, .addFull hroom⟩
  · rw [if_neg h0]
    by_cases h1 : mode = 1
    · subst h1
      rw [if_pos rfl]
      by_cases hroom : key ∈ Slots.keys slots ∨ slots.length < environDataSize
      · obtain ⟨environ', m', he, hf, hall, -⟩ := setLoop_eq (U := U) (k := 0) value hk hl' hQ h 0
          (hroom.imp_right fun h => by omega)
        exact ⟨0, environ', m', _, he, hf, hall, .set hroom⟩
      · rw [not_or] at hroom
        exact ⟨-1, environ, m, slots, setLoop_full value hk h 0 hroom.1 (by have := hroom.2; omega),
          .refl _ _, h, .setFull hroom.1 hroom.2⟩
    · rw [if_neg h1]
      exact ⟨-1, environ, m, slots, rfl, .refl _ _, h, .unsupported h0 h1⟩

end Call

/-! ## Runs -/

/-- A call with its key, its value and the text that stands there, and what it returned. -/
structure SetenvCall where
  key : List UInt8
  value : Ptr
  text : List UInt8
  mode : Int
  result : Int

inductive EnvEvent where
  | setenv (call : SetenvCall)
  | other

/-- What a call does to the bindings: mode 0 only adds, mode 1 overwrites. -/
def bind (bound : List UInt8 → Option (Ptr × List UInt8)) :
    EnvEvent → List UInt8 → Option (Ptr × List UInt8)
  | .setenv c =>
    if c.result = 0 ∧ (c.mode = 1 ∨ c.mode = 0 ∧ bound c.key = none) then
      Function.update bound c.key (some (c.value, c.text))
    else bound
  | .other => bound

def bindings (events : List EnvEvent) : List UInt8 → Option (Ptr × List UInt8) :=
  events.foldl bind fun _ => none

/-- The memory and the environment; the blocks that `setenv` has allocated so far, and what it has bound. -/
structure EnvState where
  mem : Mem
  environ : Environ
  owned : List Nat
  bound : List UInt8 → Option (Ptr × List UInt8)

/-- An empty environment. -/
def EnvState.start (mem : Mem) : EnvState := ⟨mem, [], [], fun _ => none⟩

/-- Other code leaves the blocks of `setenv` as they are, and the strings that are bound. What else stands in
the buffers of these strings may change. -/
structure Untouched (s : EnvState) (m : Mem) : Prop where
  next_le : s.mem.next ≤ m.next
  owned : ∀ b ∈ s.owned, m.bytes b = s.mem.bytes b
  bound : ∀ key value text, s.bound key = some (value, text) → s.mem.String value text → m.String value text

/-- A call of `setenv`, or other code. -/
inductive EnvStep (U : Unspecified) (s : EnvState) : EnvEvent → EnvState → Prop
  | setenv {c : SetenvCall} {p : Ptr} {environ : Environ} {m : Mem} :
      s.mem.String p c.key → c.key.length < maxKeyLength →
      setenv U p c.value s.mem s.environ c.mode = .ok (c.result, environ, m) →
      EnvStep U s (.setenv c)
        ⟨m, environ, s.owned ++ List.range' s.mem.next (m.next - s.mem.next), bind s.bound (.setenv c)⟩
  | other {m : Mem} : Untouched s m → EnvStep U s .other { s with mem := m }

/-- The value of a call is a string. -/
def PassesString (s : EnvState) (event : EnvEvent) (_ : EnvState) : Prop :=
  ∀ c, event = .setenv c → s.mem.String c.value c.text

/-- The slots look up what is bound, their keys are in blocks of `setenv`, and every value bound still is the
string it was. -/
structure Agrees (events : List EnvEvent) (slots : List (List UInt8 × Ptr)) (s : EnvState) : Prop where
  holds : Holds (· ∈ s.owned) s.mem s.environ slots
  bound : s.bound = bindings events
  find : ∀ key, Slots.find slots key = (s.bound key).map Prod.fst
  texts : ∀ key value text, s.bound key = some (value, text) → s.mem.String value text

section Runs

variable {U : Unspecified} {m m' : Mem} {environ : Environ} {key : List UInt8} {value : Ptr}
  {slots slots' : List (List UInt8 × Ptr)} {events : List EnvEvent} {s t : EnvState} {c : SetenvCall}

theorem bindings_snoc (event : EnvEvent) :
    bindings (events ++ [event]) = bind (bindings events) event := by
  rw [bindings, List.foldl_append, List.foldl_cons, List.foldl_nil, ← bindings]

/-- Other code keeps the table. -/
theorem Holds.untouched (h : Holds (· ∈ s.owned) s.mem s.environ slots) (hm : Untouched s m) :
    Holds (· ∈ s.owned) m s.environ slots :=
  h.imp fun _ _ ⟨⟨b, o, hk, hb, hs⟩, hv⟩ => ⟨⟨b, o, hk, hb, Mem.stringAt_of_bytes (hm.owned b hb) hs⟩, hv⟩

/-- A call of `setenv` owns the blocks that it allocates. -/
theorem Holds.setenv (value : Ptr) (mode : Int) {p : Ptr} (hk : s.mem.String p key) (hl : key.length < maxKeyLength)
    (h : Holds (· ∈ s.owned) s.mem s.environ slots) :
    ∃ result environ m slots', Libc.setenv U p value s.mem s.environ mode = .ok (result, environ, m) ∧
      Frame (· < s.mem.next) s.mem m ∧
      Holds (· ∈ s.owned ++ List.range' s.mem.next (m.next - s.mem.next)) m environ slots' ∧
      Updates slots key value mode result slots' := by
  obtain ⟨result, environ, m, slots', he, hf, hh, hu⟩ := setenv_eq (U := U) (Q := fun b => b ∈ s.owned ∨ s.mem.next ≤ b)
    value mode hk hl (fun _ hb => .inr hb) (h.frame (.refl (fun _ => True) _) (fun _ _ _ => trivial) fun _ hb _ => .inl hb)
  refine ⟨result, environ, m, slots', he, hf, ?_, hu⟩
  refine hh.frame (.refl (fun _ => True) _) (fun _ _ _ => trivial) fun b hb hlt => ?_
  rw [List.mem_append, List.mem_range'_1]
  exact hb.imp_right fun hb => ⟨hb, by omega⟩

theorem find_updates (h : Updates slots c.key c.value c.mode c.result slots') (key : List UInt8) :
    Slots.find slots' key =
      if c.result = 0 ∧ (c.mode = 1 ∨ c.mode = 0 ∧ Slots.find slots c.key = none) ∧ c.key = key then
        some c.value
      else Slots.find slots key := by
  generalize c.mode = mode, c.result = result at h
  cases h with
  | add hroom =>
    rw [Slots.find_append, Slots.find, Slots.find]
    by_cases hk : c.key = key
    · -- the new slot is found only if there is no earlier one
      subst hk
      cases hf : Slots.find slots c.key <;> simp
    · simp [hk]
  | addFull => simp
  | set hroom =>
    rw [Slots.find_set]
    simp
  | setFull => simp
  | unsupported => simp

theorem agrees_start (m : Mem) : Agrees [] [] (.start m) where
  holds := .nil
  bound := rfl
  find _ := rfl
  texts _ _ _ h := by cases h

theorem Agrees.setenv (h : Agrees events slots s) (hf : Frame (· < s.mem.next) s.mem m) {owned : List Nat}
    (hh : Holds (· ∈ owned) m environ slots') (hv : s.mem.String c.value c.text)
    (hu : Updates slots c.key c.value c.mode c.result slots') :
    Agrees (events ++ [.setenv c]) slots' ⟨m, environ, owned, bind s.bound (.setenv c)⟩ := by
  have hkeep : ∀ {value text}, s.mem.String value text → m.String value text := by
    rintro value text ⟨b, o, rfl, hs⟩
    exact ⟨b, o, rfl, hs.frame hf hs.lt_next⟩
  have hnone : Slots.find slots c.key = none ↔ s.bound c.key = none := by
    rw [h.find, Option.map_eq_none_iff]
  constructor
  case holds => exact hh
  case bound => rw [bindings_snoc, h.bound]
  case find =>
    intro key
    rw [find_updates hu, bind, h.find key]
    simp only [hnone]
    by_cases hc : c.result = 0 ∧ (c.mode = 1 ∨ c.mode = 0 ∧ s.bound c.key = none)
    · rw [if_pos hc, Function.update_apply]
      by_cases hk : c.key = key
      · rw [if_pos ⟨hc.1, hc.2, hk⟩, if_pos hk.symm]
        rfl
      · rw [if_neg fun hc' => hk hc'.2.2, if_neg (Ne.symm hk)]
    · rw [if_neg hc, if_neg fun hc' => hc ⟨hc'.1, hc'.2.1⟩]
  case texts =>
    intro key value text (hb : bind s.bound (.setenv c) key = some (value, text))
    rw [bind] at hb
    split at hb
    · rw [Function.update_apply] at hb
      split at hb
      · cases hb
        exact hkeep hv
      · exact hkeep (h.texts key value text hb)
    · exact hkeep (h.texts key value text hb)

theorem Agrees.other (h : Agrees events slots s) (hm : Untouched s m) :
    Agrees (events ++ [.other]) slots { s with mem := m } where
  holds := h.holds.untouched hm
  bound := h.bound.trans (bindings_snoc .other).symm
  find := h.find
  texts key value text hb := hm.bound key value text hb (h.texts key value text hb)

theorem Agrees.step {event : EnvEvent} (h : Agrees events slots s) (hstep : EnvStep U s event t)
    (hv : PassesString s event t) : ∃ slots', Agrees (events ++ [event]) slots' t := by
  cases hstep with
  | @setenv c p environ m hk hl he =>
    obtain ⟨result, environ', m', slots', he', hf, hh, hu⟩ := h.holds.setenv (U := U) c.value c.mode hk hl
    cases he.symm.trans he'
    exact ⟨slots', h.setenv hf hh (hv c rfl) hu⟩
  | other hm => exact ⟨slots, h.other hm⟩

theorem Agrees.of_run (h : Run (Restrict (EnvStep U) PassesString) (.start m) events s) :
    ∃ slots, Agrees events slots s := by
  refine h.invariant_steps (fun events s => ∃ slots, Agrees events slots s) ⟨[], agrees_start m⟩ ?_
  rintro events s event t ⟨slots, ha⟩ ⟨hstep, hv⟩
  exact ha.step hstep hv

end Runs

/-- After any run that starts with an empty environment and passes strings, `getenv` finds what is
bound, the string at it still the one that was set, and NULL for what is not bound. -/
theorem getenv_bindings (U : Unspecified) {m : Mem} {events : List EnvEvent} {s : EnvState}
    (h : Run (Restrict (EnvStep U) PassesString) (.start m) events s) {src : Source} {key : List UInt8}
    (hsrc : src.IsString s.mem key) :
    ∃ p, getenv s.mem src s.environ = .ok p ∧ (p = .null ↔ bindings events key = none) ∧
      ∀ value text, bindings events key = some (value, text) → p = value ∧ s.mem.String p text := by
  obtain ⟨slots, ha⟩ := Agrees.of_run h
  refine ⟨_, getenv_eq hsrc ha.holds, ?_⟩
  rw [ha.find, ← ha.bound]
  cases hb : s.bound key with
  | none => simp
  | some x =>
    obtain ⟨value, text⟩ := x
    have hs := ha.texts key value text hb
    refine ⟨?_, ?_⟩
    · obtain ⟨b, o, rfl, -⟩ := hs
      simp
    · rintro value' text' h'
      cases h'
      exact ⟨rfl, hs⟩

/-- `A`, `x` and `y` in three blocks. -/
def threeStrings : Mem where
  blocks := [[65, 0], [120, 0], [121, 0]]
  released := []
  stray := []

def zeroed : Unspecified where
  fresh _ _ := 0
  outside _ _ := 0
  overrun _ := 0
  address _ := 0
  listEnds _ _ _ := false

/-- `A=x` with mode 1. -/
def setA : SetenvCall := ⟨[65], .ofBlock 1 0, [120], 1, 0⟩

/-- `A=y` with mode 0, which returns 0 as well. -/
def addA : SetenvCall := ⟨[65], .ofBlock 2 0, [121], 0, 0⟩

theorem string_of {m : Mem} {b : Nat} {s : List UInt8} (h : m.bytes b = s ++ [0]) (h0 : 0 ∉ s) :
    m.String (.ofBlock b 0) s :=
  ⟨b, 0, rfl, Mem.stringAt_of_bytes h (isString_append h0 [])⟩

/-- The header in front of the copy of a key of one byte. -/
def keyHeader (b : Nat) : Header :=
  ⟨b, false, [64, 2, 0, 0, 0, 0, 0, 0, 2] ++ List.replicate 15 0⟩

def afterSet : EnvState where
  mem := { threeStrings with
    blocks := threeStrings.blocks ++ [List.replicate 16 0, [65, 0]]
    root := some (keyHeader 4) }
  environ := [⟨.ofBlock 4 0, .ofBlock 1 0⟩]
  owned := [3, 4]
  bound := bind (fun _ => none) (.setenv setA)

def afterAdd : EnvState where
  mem := { afterSet.mem with
    blocks := afterSet.mem.blocks ++ [List.replicate 16 0, [65, 0]]
    root := some (keyHeader 6) }
  environ := [⟨.ofBlock 4 0, .ofBlock 1 0⟩, ⟨.ofBlock 6 0, .ofBlock 2 0⟩]
  owned := [3, 4, 5, 6]
  bound := bind afterSet.bound (.setenv addA)

theorem step_setA : EnvStep zeroed (.start threeStrings) (.setenv setA) afterSet :=
  .setenv (string_of (b := 0) rfl (by decide)) (by decide) rfl

theorem step_addA : EnvStep zeroed afterSet (.setenv addA) afterAdd :=
  .setenv (string_of (b := 0) rfl (by decide)) (by decide) rfl

theorem getenv_bindings_two : ∃ p, getenv afterAdd.mem (.literal [65]) afterAdd.environ = .ok p ∧
    p = .ofBlock 1 0 ∧ afterAdd.mem.String p [120] := by
  have hset : PassesString (.start threeStrings) (.setenv setA) afterSet := by
    rintro c ⟨⟩
    exact string_of rfl (by decide)
  have hadd : PassesString afterSet (.setenv addA) afterAdd := by
    rintro c ⟨⟩
    exact string_of rfl (by decide)
  have hrun : Run (Restrict (EnvStep zeroed) PassesString) _ _ afterAdd :=
    (Run.nil.snoc ⟨step_setA, hset⟩).snoc ⟨step_addA, hadd⟩
  obtain ⟨p, hp, -, hbound⟩ := getenv_bindings zeroed hrun
    (show Source.IsString afterAdd.mem (.literal [65]) [65] from ⟨by decide, rfl⟩)
  exact ⟨p, hp, hbound _ _ rfl⟩

/-! ## The keys in the slots -/

/-- The C string at a pointer into a block. -/
def text (m : Mem) : Ptr → List UInt8
  | .ofBlock b o => (m.rest b o).takeWhile (· ≠ 0)
  | _ => []

def storedKeys (s : EnvState) : List (List UInt8) := s.environ.map fun e => text s.mem e.key

/-- Calls with the modes 0 and 1 only, and other code. -/
abbrev AddOrSet (U : Unspecified) : EnvState → EnvEvent → EnvState → Prop :=
  Restrict (EnvStep U) fun _ event _ => ∀ c, event = .setenv c → c.mode = 0 ∨ c.mode = 1

/-- No key has two slots afterwards, and the call found no space exactly for a new key when there
are 20 already. -/
def KeysRight (s : EnvState) (event : EnvEvent) (t : EnvState) : Prop :=
  (storedKeys t).Nodup ∧ ∀ c, event = .setenv c →
    (c.result = -1 ↔ c.key ∉ storedKeys s ∧ (storedKeys s).dedup.length = environDataSize)

/-- Mode 0 is used for keys that have no slot yet. -/
def AddsNew (s : EnvState) (event : EnvEvent) (_ : EnvState) : Prop :=
  ∀ c, event = .setenv c → c.mode = 0 → c.key ∉ storedKeys s

/-- One slot for each key, and no more of them than there are. -/
structure OneSlotEach (slots : List (List UInt8 × Ptr)) (s : EnvState) : Prop where
  holds : Holds (· ∈ s.owned) s.mem s.environ slots
  nodup : (Slots.keys slots).Nodup
  length_le : slots.length ≤ environDataSize

section Keys

variable {U : Unspecified} {m : Mem} {key : List UInt8} {p : Ptr}
  {slots slots' : List (List UInt8 × Ptr)} {s t : EnvState} {c : SetenvCall}

theorem text_of_string (h : m.String p key) : text m p = key := by
  obtain ⟨b, o, rfl, hs⟩ := h
  rw [text, rest_eq]
  exact IsString.takeWhile hs

theorem storedKeys_eq {Q : Nat → Prop} {owned : List Nat} {bound : List UInt8 → Option (Ptr × List UInt8)}
    {environ : Environ} {slots : List (List UInt8 × Ptr)} (h : Holds Q m environ slots) :
    storedKeys ⟨m, environ, owned, bound⟩ = Slots.keys slots := by
  induction h with
  | nil => rfl
  | cons he h ih =>
    obtain ⟨⟨b, o, hb, -, hs⟩, -⟩ := he
    rw [storedKeys, Slots.keys] at ih ⊢
    rw [List.map_cons, List.map_cons, ih, text_of_string ⟨b, o, hb, hs⟩]

theorem OneSlotEach.keys_eq (h : OneSlotEach slots s) : storedKeys s = Slots.keys slots :=
  storedKeys_eq h.holds

theorem length_keys : (Slots.keys slots).length = slots.length := List.length_map ..

theorem nodup_keys_add (h : (Slots.keys slots).Nodup) :
    (Slots.keys (slots ++ [(key, p)])).Nodup ↔ key ∉ Slots.keys slots := by
  rw [Slots.keys, List.map_append, List.map_singleton, ← Slots.keys, List.nodup_append_comm,
    List.singleton_append, List.nodup_cons, and_iff_left h]

/-- A new key is what makes an update with mode 0 right; with mode 1 every update is. -/
theorem right_iff (hn : (Slots.keys slots).Nodup) (hle : slots.length ≤ environDataSize)
    (hu : Updates slots c.key c.value c.mode c.result slots') (hm : c.mode = 0 ∨ c.mode = 1) :
    ((Slots.keys slots').Nodup ∧ (c.result = -1 ↔ c.key ∉ Slots.keys slots ∧
      (Slots.keys slots).dedup.length = environDataSize)) ↔
    (c.mode = 0 → c.key ∉ Slots.keys slots) := by
  rw [hn.dedup, length_keys]
  generalize c.mode = mode, c.result = result at hu hm
  cases hu with
  | add hroom =>
    rw [nodup_keys_add hn]
    constructor
    · exact fun h _ => h.1
    · refine fun h => ⟨h rfl, ?_⟩
      constructor
      · intro h'; cases h'
      · intro h'; omega
  | addFull hfull =>
    have hlen : slots.length = environDataSize := by omega
    simp [hn, hlen]
  | set hroom =>
    refine ⟨fun _ h => (by cases h), fun _ => ⟨Slots.nodup_set hn, ?_⟩⟩
    constructor
    · intro h'; cases h'
    · rintro ⟨hk, hlen⟩
      rcases hroom with h | h
      · exact absurd h hk
      · omega
  | setFull hk hfull =>
    have hlen : slots.length = environDataSize := by omega
    simp [hn, hlen, hk]
  | unsupported h0 h1 => rcases hm with h | h <;> contradiction

theorem Updates.length_le (hle : slots.length ≤ environDataSize)
    (hu : Updates slots c.key c.value c.mode c.result slots') : slots'.length ≤ environDataSize := by
  generalize c.mode = mode, c.result = result at hu
  cases hu with
  | add hroom =>
    rw [List.length_append, List.length_singleton]
    omega
  | set hroom =>
    rw [Slots.length_set]
    split
    · exact hle
    · next hk => exact hroom.resolve_left hk
  | addFull => exact hle
  | setFull => exact hle
  | unsupported => exact hle

theorem OneSlotEach.step {event : EnvEvent} (h : OneSlotEach slots s) (hstep : AddOrSet U s event t) :
    (KeysRight s event t ↔ AddsNew s event t) ∧ (KeysRight s event t → ∃ slots', OneSlotEach slots' t) := by
  obtain ⟨hstep, hmode⟩ := hstep
  cases hstep with
  | @setenv c p environ m hk hl he =>
    obtain ⟨result, environ', m', slots', he', -, hh, hu⟩ := h.holds.setenv (U := U) c.value c.mode hk hl
    cases he.symm.trans he'
    have hright := right_iff h.nodup h.length_le hu (hmode c rfl)
    unfold KeysRight AddsNew
    rw [storedKeys_eq hh, h.keys_eq]
    refine ⟨?_, fun hr => ⟨slots', hh, hr.1, hu.length_le h.length_le⟩⟩
    constructor
    · rintro hr c' hc'
      cases hc'
      exact hright.1 ⟨hr.1, hr.2 c rfl⟩
    · intro hn
      obtain ⟨h1, h2⟩ := hright.2 (hn c rfl)
      refine ⟨h1, fun c' hc' => ?_⟩
      cases hc'
      exact h2
  | @other m hm =>
    have hh := h.holds.untouched hm
    have hkeys : storedKeys { s with mem := m } = Slots.keys slots := storedKeys_eq hh
    refine ⟨?_, fun _ => ⟨slots, hh, h.nodup, h.length_le⟩⟩
    constructor
    · intro _ c hc; cases hc
    · refine fun _ => ⟨by rw [hkeys]; exact h.nodup, fun c hc => ?_⟩
      cases hc

end Keys

/-- In a run with the modes 0 and 1 the keys stay different, and only a new key beyond the 20th
finds no space, as long as mode 0 is kept for new keys. -/
theorem keys_right_iff (U : Unspecified) (m : Mem) (events : List EnvEvent) (s : EnvState) :
    Run (Restrict (AddOrSet U) KeysRight) (.start m) events s ↔
      Run (Restrict (AddOrSet U) AddsNew) (.start m) events s := by
  apply Run.restrict_iff fun s => ∃ slots, OneSlotEach slots s
  · exact ⟨[], .nil, List.nodup_nil, Nat.zero_le _⟩
  · rintro s event t ⟨slots, h⟩ hstep
    exact (h.step hstep).1
  · rintro s event t ⟨slots, h⟩ hstep hr
    exact (h.step hstep).2 hr

/-- Adding a key that is set already gives it a second slot. -/
theorem second_slot : ∃ events s, Run (AddOrSet zeroed) (.start threeStrings) events s ∧
    storedKeys s = [[65], [65]] ∧ ¬ (storedKeys s).Nodup := by
  have hset : ∀ c, EnvEvent.setenv setA = .setenv c → c.mode = 0 ∨ c.mode = 1 := by
    rintro c ⟨⟩
    exact .inr rfl
  have hadd : ∀ c, EnvEvent.setenv addA = .setenv c → c.mode = 0 ∨ c.mode = 1 := by
    rintro c ⟨⟩
    exact .inl rfl
  have hrun : Run (AddOrSet zeroed) _ _ afterAdd :=
    (Run.nil.snoc ⟨step_setA, hset⟩).snoc ⟨step_addA, hadd⟩
  exact ⟨_, _, hrun, rfl, by decide⟩

end Sbunix.Libc
