import ArchiveCore.Framework.Cursor
import ArchiveCore.Framework.Segments

/-!
# Runs of single calls

A consumer that reads by hand sees each short read by itself. A cursor answers a call in
the ways `brings` leaves open: how many of the following elements one read brings. A reader
that answers every call as the cursor may, and keeps its relation to it, answers every
finite sequence of calls so.
-/

namespace Framework

/-- One call on a seekable reader: a seek, or a read into a buffer of a size. -/
inductive Call
  | seek (origin : SeekFrom)
  | read (want : Nat)
deriving DecidableEq

/-- What one call returns. -/
inductive Answer (α : Type)
  | position (pos : Nat)
  | refused
  | chunk (xs : List α)
  | failed
deriving DecidableEq

variable {σ α ε : Type}

namespace ReadSeek

/-- A call and the state after it; a call that fails leaves the reader where it was. -/
def answer (R : ReadSeek σ α ε) (s : σ) : Call → Answer α × σ
  | .seek origin =>
    match R.seek s origin with
    | .error _ => (.refused, s)
    | .ok (pos, s) => (.position pos, s)
  | .read want =>
    match R.read s want with
    | .error _ => (.failed, s)
    | .ok (xs, s) => (.chunk xs, s)

def answers (R : ReadSeek σ α ε) (s : σ) : List Call → List (Answer α)
  | [] => []
  | call :: calls => (R.answer s call).1 :: R.answers (R.answer s call).2 calls

/-- The state a sequence of calls ends in. -/
def after (R : ReadSeek σ α ε) (s : σ) : List Call → σ
  | [] => s
  | call :: calls => R.after (R.answer s call).2 calls

/-- What holds at first and is kept by every call holds of every state reached. -/
theorem after_induction (R : ReadSeek σ α ε) {P : σ → Prop}
    (hkeep : ∀ s call, P s → P (R.answer s call).2) {s : σ} (hs : P s) (calls : List Call) :
    P (R.after s calls) := by
  induction calls generalizing s with
  | nil => exact hs
  | cons call calls ih => exact ih (hkeep s call hs)

theorem answer_keeps (R : ReadSeek σ α ε) {P : σ → Prop} {s : σ} (hs : P s)
    (hseek : ∀ origin pos s', R.seek s origin = .ok (pos, s') → P s')
    (hread : ∀ want xs s', R.read s want = .ok (xs, s') → P s') (call : Call) :
    P (R.answer s call).2 := by
  cases call with
  | seek origin =>
    cases h : R.seek s origin with
    | error e => simpa [answer, h] using hs
    | ok moved => simpa [answer, h] using hseek origin moved.1 moved.2 h
  | read want =>
    cases h : R.read s want with
    | error e => simpa [answer, h] using hs
    | ok brought => simpa [answer, h] using hread want brought.1 brought.2 h

end ReadSeek

namespace Cursor

/-- A call on a cursor, its answer and the cursor after it. -/
inductive Step (brings : Cursor α → Nat → Nat → Prop) (c : Cursor α) :
    Call → Answer α → Cursor α → Prop
  | moved {origin : SeekFrom} {c' : Cursor α} (h : c.seek origin = some c') :
      Step brings c (.seek origin) (.position c'.pos) c'
  | refused {origin : SeekFrom} (h : c.seek origin = none) : Step brings c (.seek origin) .refused c
  | read {want n : Nat} (h : brings c want n) :
      Step brings c (.read want) (.chunk (c.rest.take n)) (c.advance n)

/-- Answers a cursor may give to a sequence of calls. -/
inductive Run (brings : Cursor α → Nat → Nat → Prop) :
    Cursor α → List Call → List (Answer α) → Prop
  | nil (c : Cursor α) : Run brings c [] []
  | cons {c c' : Cursor α} {call : Call} {calls : List Call} {seen : Answer α}
      {answers : List (Answer α)} (hstep : c.Step brings call seen c')
      (hrun : Run brings c' calls answers) : Run brings c (call :: calls) (seen :: answers)

/-- Each read brings all that is left, as far as the buffer goes. -/
def Full (c : Cursor α) (want n : Nat) : Prop := n = min c.rest.length want

/-- Each read brings nothing exactly into an empty buffer or at the end, and otherwise a run
that does not go past the end of a chunk. -/
structure WithinChunk (chunks : List (List α)) (c : Cursor α) (want n : Nat) : Prop where
  fits : n ≤ want
  left : n ≤ c.rest.length
  none : n = 0 ↔ want = 0 ∨ c.pos = chunks.flatten.length
  uncut : ∀ i, offset chunks i ≤ c.pos ∨ c.pos + n ≤ offset chunks i

end Cursor

namespace ReadSeek

/-- The states that hold a list can be read at any place of it, wherever they stand: a seek
from the start puts them there, and a read of no more than is left brings some of it. -/
def Serves (R : ReadSeek σ α ε) (holds : σ → List α → Prop) : Prop :=
  ∀ s xs (place : UInt64), holds s xs → place.toNat < xs.length →
    ∃ pos s', R.seek s (.start place) = .ok (pos, s') ∧
      ∀ want, 0 < want → want ≤ xs.length - place.toNat →
        ∃ n s'', R.read s' want = .ok ((xs.drop place.toNat).take n, s'') ∧ 0 < n ∧ n ≤ want ∧
          holds s'' xs

/-- Every call on a state the cursor stands for is answered as the cursor may answer it. -/
def Answers (R : ReadSeek σ α ε) (view : σ → Cursor α → Prop)
    (brings : Cursor α → Nat → Nat → Prop) : Prop :=
  ∀ s c call, view s c →
    ∃ c', c.Step brings call (R.answer s call).1 c' ∧ view (R.answer s call).2 c'

variable {R : ReadSeek σ α ε} {view : σ → Cursor α → Prop} {brings : Cursor α → Nat → Nat → Prop}

theorem Answers.run (hR : R.Answers view brings) {s : σ} {c : Cursor α} (h : view s c)
    (calls : List Call) : c.Run brings calls (R.answers s calls) := by
  induction calls generalizing s c with
  | nil => exact .nil c
  | cons call calls ih =>
    obtain ⟨c', hstep, hview⟩ := hR s c call h
    exact .cons hstep (ih hview)

theorem Answers.after (hR : R.Answers view brings) {s : σ} {c : Cursor α} (h : view s c)
    (calls : List Call) : ∃ c', view (R.after s calls) c' := by
  apply R.after_induction (P := fun s => ∃ c, view s c) _ ⟨c, h⟩
  intro s call hs
  obtain ⟨c, hview⟩ := hs
  obtain ⟨c', -, hview'⟩ := hR s c call hview
  exact ⟨c', hview'⟩

theorem Answers.of_calls
    (hrefuse : ∀ s c origin, view s c → c.seek origin = none → ∃ e, R.seek s origin = .error e)
    (hmove : ∀ s c c' origin, view s c → c.seek origin = some c' →
      ∃ s', R.seek s origin = .ok (c'.pos, s') ∧ view s' c')
    (hread : ∀ s c want, view s c → ∃ n s', R.read s want = .ok (c.rest.take n, s') ∧
      brings c want n ∧ view s' (c.advance n)) : R.Answers view brings := by
  intro s c call h
  cases call with
  | seek origin =>
    cases hc : c.seek origin with
    | none =>
      obtain ⟨e, he⟩ := hrefuse s c origin h hc
      exact ⟨c, by simpa [answer, he] using .refused hc, by simpa [answer, he] using h⟩
    | some c' =>
      obtain ⟨s', he, hview⟩ := hmove s c c' origin h hc
      exact ⟨c', by simpa [answer, he] using .moved hc, by simpa [answer, he] using hview⟩
  | read want =>
    obtain ⟨n, s', he, hbrings, hview⟩ := hread s c want h
    exact ⟨c.advance n, by simpa [answer, he] using .read hbrings, by simpa [answer, he] using hview⟩

end ReadSeek

end Framework
