import Mathlib.Tactic

/-!
# Positioned reads into a buffer

A positioned read fills the front of a buffer it is handed and says how much it filled; what
it brings may depend on the reads before it. A caller that fills a buffer from its start
on has the content up to its offset, and goes on unless a read brings nothing.
-/

namespace Framework

variable {σ α ε : Type}

/-- Reads at an offset into a buffer of a size, from a state that a read may change. -/
structure Positioned (σ α ε : Type) where
  readAt : σ → Nat → Nat → Except ε (List α) × σ

namespace Positioned

/-- Every read fails or brings a front part of what the content has at its offset. -/
def Shows (R : Positioned σ α ε) (content : List α) : Prop :=
  ∀ s off want chunk s', R.readAt s off want = (.ok chunk, s') →
    ∃ m, m ≤ min want (content.length - off) ∧ chunk = (content.drop off).take m

/-- Reading on from an offset, a read brings nothing before `stop` is reached. -/
inductive Stalls (R : Positioned σ α ε) (stop : Nat) : σ → Nat → Prop
  | here {s s' : σ} {off : Nat} :
      off < stop → R.readAt s off (stop - off) = (.ok [], s') → Stalls R stop s off
  | later {s s' : σ} {off : Nat} {chunk : List α} :
      off < stop → R.readAt s off (stop - off) = (.ok chunk, s') → chunk ≠ [] →
      Stalls R stop s' (off + chunk.length) → Stalls R stop s off

/-- Some read fails with an error. -/
def Fails (R : Positioned σ α ε) (e : ε) : Prop :=
  ∃ s off want s', R.readAt s off want = (.error e, s')

variable {R : Positioned σ α ε} {content : List α} {stop off : Nat} {s : σ}

theorem Shows.chunk_spec (h : R.Shows content) {want : Nat} {chunk : List α} {s' : σ}
    (hread : R.readAt s off want = (.ok chunk, s')) :
    chunk = (content.drop off).take chunk.length ∧ chunk.length ≤ want ∧
      chunk.length ≤ content.length - off := by
  obtain ⟨m, hm, hchunk⟩ := h s off want chunk s' hread
  have hlen : chunk.length = m := by
    rw [hchunk, List.length_take, List.length_drop]
    omega
  refine ⟨hlen ▸ hchunk, ?_, ?_⟩ <;> omega

theorem not_stalls_of_le (h : stop ≤ off) : ¬ R.Stalls stop s off := by
  intro hstalls
  cases hstalls <;> omega

theorem not_stalls_of_error {e : ε} {s' : σ} (hread : R.readAt s off (stop - off) = (.error e, s')) :
    ¬ R.Stalls stop s off := by
  intro hstalls
  cases hstalls with
  | here _ h => simp [hread] at h
  | later _ h => simp [hread] at h

theorem stalls_iff_of_ok {chunk : List α} {s' : σ} (hoff : off < stop)
    (hread : R.readAt s off (stop - off) = (.ok chunk, s')) (hchunk : chunk ≠ []) :
    R.Stalls stop s off ↔ R.Stalls stop s' (off + chunk.length) := by
  constructor
  · intro hstalls
    cases hstalls with
    | here _ h =>
      rw [hread] at h
      exact absurd (Except.ok.inj (Prod.mk.inj h).1) hchunk
    | later _ h _ hrest =>
      rw [hread] at h
      obtain ⟨hsame, rfl⟩ := Prod.mk.inj h
      exact Except.ok.inj hsame ▸ hrest
  · exact .later hoff hread hchunk

theorem not_stalls_of_keeps {I : σ → Prop}
    (hkeeps : ∀ s off want chunk s', I s → R.readAt s off want = (.ok chunk, s') → I s')
    (hbrings : ∀ s off s', I s → off < stop → R.readAt s off (stop - off) ≠ (.ok [], s'))
    (h : I s) : ¬ R.Stalls stop s off := by
  intro hstalls
  induction hstalls with
  | here hoff hread => exact hbrings _ _ _ h hoff hread
  | later _ hread _ _ ih => exact ih (hkeeps _ _ _ _ _ h hread)

end Positioned

section Reaches

variable {f : Nat → Nat → Except ε (List α)} {len : Nat}

/-- The offsets that reads within a length come to, each of them bringing something. -/
inductive Reaches (f : Nat → Nat → Except ε (List α)) (len : Nat) : Nat → Prop
  | start : Reaches f len 0
  | next {off want : Nat} {chunk : List α} (h : Reaches f len off) (hfit : off + want ≤ len)
      (hread : f off want = .ok chunk) (hsome : chunk ≠ []) : Reaches f len (off + chunk.length)

/-- Short of the length, an offset is reached where a read brings nothing. -/
def ComesShort (f : Nat → Nat → Except ε (List α)) (len : Nat) : Prop :=
  ∃ off want, Reaches f len off ∧ 0 < want ∧ off + want ≤ len ∧ f off want = .ok []

theorem Reaches.congr {ε' : Type} {g : Nat → Nat → Except ε' (List α)} {off : Nat}
    (h : Reaches f len off)
    (hsame : ∀ off want chunk, off + want ≤ len → f off want = .ok chunk → g off want = .ok chunk) :
    Reaches g len off := by
  induction h with
  | start => exact .start
  | next _ hfit hread hsome ih => exact ih.next hfit (hsame _ _ _ hfit hread) hsome

theorem ComesShort.congr {ε' : Type} {g : Nat → Nat → Except ε' (List α)} (h : ComesShort f len)
    (hsame : ∀ off want chunk, off + want ≤ len → f off want = .ok chunk → g off want = .ok chunk) :
    ComesShort g len := by
  obtain ⟨off, want, hreached, hwant, hfit, hread⟩ := h
  exact ⟨off, want, hreached.congr hsame, hwant, hfit, hsame _ _ _ hfit hread⟩

end Reaches

/-- A buffer with a chunk written over it from an offset on, as far as the buffer goes. -/
def overlay (buf : List α) (off : Nat) (chunk : List α) : List α :=
  buf.take off ++ (chunk.take (buf.length - off) ++ buf.drop (off + chunk.length))

theorem length_overlay (buf chunk : List α) {off : Nat} (h : off ≤ buf.length) :
    (overlay buf off chunk).length = buf.length := by
  simp only [overlay, List.length_append, List.length_take, List.length_drop]
  omega

theorem take_overlay {buf chunk : List α} {off : Nat} (h : off + chunk.length ≤ buf.length) :
    (overlay buf off chunk).take (off + chunk.length) = buf.take off ++ chunk := by
  have hoff : (buf.take off).length = off := by
    rw [List.length_take]
    omega
  have hwhole : chunk.take (buf.length - off) = chunk := List.take_of_length_le (by omega)
  rw [overlay, hwhole, ← List.append_assoc]
  exact List.take_left' (by rw [List.length_append, hoff])

/-- A buffer of a length that holds the content up to an offset. -/
structure FilledTo (content : List α) (len : Nat) (buf : List α) (off : Nat) : Prop where
  length : buf.length = len
  within : off ≤ len
  shown : off ≤ content.length
  front : buf.take off = content.take off

namespace FilledTo

variable {R : Positioned σ α ε} {content buf : List α} {len off : Nat}

theorem start (content : List α) (a : α) (len : Nat) :
    FilledTo content len (List.replicate len a) 0 :=
  ⟨List.length_replicate, Nat.zero_le _, Nat.zero_le _, rfl⟩

theorem step (h : FilledTo content len buf off) (hshows : R.Shows content) {s s' : σ}
    {chunk : List α} (hread : R.readAt s off (buf.length - off) = (.ok chunk, s')) :
    FilledTo content len (overlay buf off chunk) (off + chunk.length) := by
  obtain ⟨hchunk, hwant, hleft⟩ := hshows.chunk_spec hread
  have hlen := h.length
  have hwithin := h.within
  have hshown := h.shown
  have hfits : off + chunk.length ≤ buf.length := by omega
  refine ⟨?_, by omega, by omega, ?_⟩
  · rw [length_overlay buf chunk (by omega), hlen]
  · rw [take_overlay hfits, h.front, List.take_add]
    exact congrArg (content.take off ++ ·) hchunk

end FilledTo

end Framework
