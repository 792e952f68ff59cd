/-
The calls of `read` in `readline` (libc/readline.c), whatever they answer: each one is given the free
part of the buffer, which begins with all that was read before. What can go wrong is that `free` has unmapped
the new buffer.
-/
import Sbunix.Lib.Run
import Sbunix.Libc.Readline

namespace Sbunix.Libc

open BlockMemory Fallible Transition

section Runs

variable {σ : Type} (U : Unspecified) (read : Nat → σ → Answer × σ)

/-- A round that is followed by another one: `read` has stored `text`, no more than there was space for. -/
structure ReadStep (s : Locals σ) (text : List UInt8) (t : Locals σ) : Prop where
  answer : (readBuffer read s).1 = some text
  fits : text.length ≤ s.remainingSpaceInBuf.toNat
  round : readlineRound U read s = .ok (.again t)

/-- The buffer is block `b`, it has not been released and begins with `text`, and what `read` is given
is the part of it behind that. -/
structure Window (b : Nat) (text : List UInt8) (s : Locals σ) : Prop where
  data : s.data = .ofBlock b 0
  allocated : b < s.mem.next ∧ b ∉ s.mem.released
  total : s.totalReadBytes = text.length
  current : s.currentBufPtr = .ofBlock b text.length
  inside : 0 ≤ s.remainingSpaceInBuf ∧ text.length + s.remainingSpaceInBuf ≤ (s.mem.bytes b).length
  begins : text <+: s.mem.bytes b

variable {U read} {m : Mem} {b k : Nat} {text pre : List UInt8} {texts : List (List UInt8)}
  {s t : Locals σ} {input : σ}

/-- A `read` that fails ends the loop. -/
theorem AtRound.failed (h : AtRound U m k pre s) {next : σ} (hread : read 4 s.input = (none, next)) :
    readlineRound U read s =
      .ok (.leave { s with input := next, readCount := s.readCount + 1 }) := by
  unfold readlineRound
  rw [h.readBuffer_eq, hread]
  rfl

theorem again_answer (h : readlineRound U read s = .ok (.again t)) : ∃ text, (readBuffer read s).1 = some text := by
  cases hanswer : (readBuffer read s).1 with
  | some text => exact ⟨text, rfl⟩
  | none =>
    unfold readlineRound at h
    dsimp only at h
    rw [hanswer] at h
    cases h

/-- Where no `read` answers more than it is asked for, the rounds of the loop are such a run, and one that
leaves it. -/
theorem readlineLoop_run (hread : ∀ n x text, (read n x).1 = some text → text.length ≤ n) :
    ∀ (fuel : Nat) {s t : Locals σ}, readlineLoop U read fuel s = .ok t →
      ∃ texts u, Run (ReadStep U read) s texts u ∧ readlineRound U read u = .ok (.leave t)
  | 0, _, _, h => by cases h
  | fuel + 1, s, t, h => by
    rw [readlineLoop] at h
    obtain ⟨r, hround, h⟩ := bind_eq_ok h
    cases r with
    | leave u =>
      cases h
      exact ⟨[], s, .nil, hround⟩
    | again u =>
      obtain ⟨text, hanswer⟩ := again_answer hround
      obtain ⟨texts, v, hrun, hleave⟩ := readlineLoop_run hread fuel h
      have hstep : Run (ReadStep U read) s [text] u :=
        Run.nil.snoc ⟨hanswer, readBuffer_fits hread hanswer, hround⟩
      exact ⟨[text] ++ texts, v, hstep.trans hrun, hleave⟩

/-- The calls of `read` that a call of `readline` makes. -/
theorem readline_run (hread : ∀ n x text, (read n x).1 = some text → text.length ≤ n) {fuel : Nat}
    {r : Ptr × Mem × σ} (h : readline U read fuel m input = .ok r) :
    ∃ texts s t, Run (ReadStep U read) (readlineStart U m input) texts s ∧
      readlineRound U read s = .ok (.leave t) ∧ r = (t.data, t.mem, t.input) := by
  unfold readline at h
  obtain ⟨t, h, hr⟩ := bind_eq_ok h
  obtain ⟨texts, s, hrun, hleave⟩ := readlineLoop_run hread fuel h
  cases hr
  exact ⟨texts, s, t, hrun, hleave, rfl⟩

/-- No round faults while the buffer can grow and be freed. -/
theorem AtRound.succeeds (h : AtRound U m k pre s) (hfits : ∀ text, (read 4 s.input).1 = some text →
    text.length ≤ 4 ∧ pre.length + text.length < 2 ^ 31 - 4 ∧ FreeEnds U m k (pre ++ text)) :
    ∃ r, readlineRound U read s = .ok r := by
  cases hanswer : (read 4 s.input).1 with
  | none => exact ⟨_, h.failed (Prod.ext hanswer rfl)⟩
  | some text =>
    obtain ⟨hfour, htotal, hends⟩ := hfits text hanswer
    have hlen := h.length
    have hread : read 4 s.input = (some text, (read 4 s.input).2) := Prod.ext hanswer rfl
    rcases Nat.lt_or_ge text.length 4 with hshort | hlong
    · exact ⟨_, h.short hread hshort⟩
    obtain ⟨front, ch, rfl, hfront⟩ := chunk_of_length (l := text) (by omega)
    by_cases hch : ch = newline
    · exact ⟨_, (h.full hread hfront).trans (if_pos hch)⟩
    have hall : (front ++ [ch]).length = 4 := by rw [List.length_append, hfront]; rfl
    have hgrow : ∃ s', Libc.grow U (chunkRead U m k pre (front ++ [ch]) s (read 4 s.input).2) = .ok s' := by
      by_cases hspares : SparesBuffer U m k (pre ++ (front ++ [ch]))
      · exact (h.grow hall (by omega) hspares hends _).imp fun _ h => h.1
      · exact (h.grow_unmapped hall (by omega) hspares _).imp fun _ h => h.1
    obtain ⟨s', hgrow⟩ := hgrow
    refine ⟨.again s', (h.full hread hfront).trans ?_⟩
    rw [if_neg hch, hgrow]
    rfl

end Runs

end Sbunix.Libc
