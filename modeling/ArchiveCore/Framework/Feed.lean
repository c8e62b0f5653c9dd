import ArchiveCore.Framework.Word

/-!
# Sequential readers and bounded copies

A `Feed` is all a sequential reader ever shows: the elements it yields in order, then end
of file or one error. Limiting a feed one element past a cap and then looking at how much
arrived is the usual way to detect an oversized source without trusting a declared size;
the lemmas at the end say exactly what that idiom accepts.
-/

namespace Framework

/-- The elements a reader yields, and how it ends: `none` is end of file. -/
structure Feed (α ε : Type) where
  items : List α
  ending : Option ε
deriving DecidableEq

variable {α ε : Type}

namespace Feed

/-- A feed of exactly these elements. -/
def eof (xs : List α) : Feed α ε := ⟨xs, none⟩

/-- The reader stops by itself after `n` elements: once the limit is reached the inner
reader is not asked again, so an error that lies further on is not seen. -/
def take (feed : Feed α ε) (n : Nat) : Feed α ε :=
  if n ≤ feed.items.length then ⟨feed.items.take n, none⟩ else feed

/-- Collect the whole feed; an error discards what came before it. -/
def readToEnd (feed : Feed α ε) : Except ε (List α) :=
  match feed.ending with
  | none => .ok feed.items
  | some e => .error e

theorem eq_eof {feed : Feed α ε} (h : feed.ending = none) : feed = eof feed.items := by
  rw [eof, ← h]

theorem readToEnd_eq_ok {feed : Feed α ε} {xs : List α} :
    feed.readToEnd = .ok xs ↔ feed = eof xs := by
  obtain ⟨items, ending⟩ := feed
  cases ending <;> simp [readToEnd, eof]

theorem take_of_length_lt {feed : Feed α ε} {n : Nat} (h : feed.items.length < n) :
    feed.take n = feed := if_neg (by omega)

theorem take_of_le_length {feed : Feed α ε} {n : Nat} (h : n ≤ feed.items.length) :
    feed.take n = eof (feed.items.take n) := if_pos h

@[simp] theorem take_items (feed : Feed α ε) (n : Nat) :
    (feed.take n).items = feed.items.take n := by
  by_cases h : n ≤ feed.items.length
  · rw [take_of_le_length h]
    rfl
  · rw [take_of_length_lt (by omega), List.take_of_length_le (by omega)]

@[simp] theorem eof_items (xs : List α) : (eof xs : Feed α ε).items = xs := rfl

@[simp] theorem take_zero (feed : Feed α ε) : feed.take 0 = eof [] := by
  simp [take, eof]

theorem take_succ_within {feed : Feed α ε} {cap : Nat} {xs : List α} :
    (feed.take (cap + 1) = eof xs ∧ xs.length ≤ cap) ↔ (feed = eof xs ∧ xs.length ≤ cap) := by
  by_cases h : feed.items.length < cap + 1
  · rw [take_of_length_lt h]
  · rw [take_of_le_length (by omega)]
    constructor
    · intro h
      obtain ⟨htake, hlen⟩ := h
      have hitems := congrArg (fun f => f.items.length) htake
      simp only [eof_items, List.length_take] at hitems
      omega
    · intro h
      obtain ⟨rfl, hlen⟩ := h
      simp only [eof_items] at h
      omega

theorem take_succ_beyond {feed : Feed α ε} {cap : Nat} (h : cap < feed.items.length) :
    ∃ xs, feed.take (cap + 1) = eof xs ∧ xs.length = cap + 1 := by
  refine ⟨feed.items.take (cap + 1), take_of_le_length h, ?_⟩
  rw [List.length_take]
  omega

end Feed

/-- A place bytes are written to: what it holds, how much more it takes (`none` when
nothing bounds it) and the error it reports when full. -/
structure Sink (α ε : Type) where
  written : List α
  room : Option Nat
  fault : ε

namespace Sink

/-- An empty growable buffer. -/
def buffer (fault : ε) : Sink α ε := ⟨[], none, fault⟩

def hasRoom (out : Sink α ε) (n : Nat) : Prop := ∀ room ∈ out.room, n ≤ room

instance (out : Sink α ε) (n : Nat) : Decidable (out.hasRoom n) :=
  match h : out.room with
  | none => .isTrue (by simp [hasRoom, h])
  | some room => decidable_of_iff (n ≤ room) (by simp [hasRoom, h])

/-- Append the elements a full sink would refuse the rest of. -/
def append (out : Sink α ε) (xs : List α) : Sink α ε :=
  { out with written := out.written ++ xs, room := out.room.map (· - xs.length) }

/-- Write all of `xs`, or as much as fits and the sink's error. -/
def writeAll (out : Sink α ε) (xs : List α) : Sink α ε × Except ε Unit :=
  if out.hasRoom xs.length then (out.append xs, .ok ())
  else (out.append (xs.take (out.room.getD 0)), .error out.fault)

@[simp] theorem append_written (out : Sink α ε) (xs : List α) :
    (out.append xs).written = out.written ++ xs := rfl

theorem writeAll_of_hasRoom {out : Sink α ε} {xs : List α} (h : out.hasRoom xs.length) :
    out.writeAll xs = (out.append xs, .ok ()) := if_pos h

theorem exists_writeAll_append (out : Sink α ε) (xs : List α) :
    ∃ front, front <+: xs ∧ (out.writeAll xs).1 = out.append front ∧
      ((out.writeAll xs).2 = .ok () → front = xs) := by
  by_cases h : out.hasRoom xs.length
  · rw [writeAll_of_hasRoom h]
    exact ⟨xs, List.prefix_rfl, rfl, fun _ => rfl⟩
  · rw [writeAll, if_neg h]
    refine ⟨xs.take (out.room.getD 0), List.take_prefix _ _, rfl, ?_⟩
    intro hok
    cases hok

end Sink

namespace Feed

/-- Copy a feed into a sink, returning how many elements were written. What was read
before an error has been written by then. -/
def copy (feed : Feed α ε) (out : Sink α ε) : Sink α ε × Except ε Nat :=
  match out.writeAll feed.items with
  | (out, .error e) => (out, .error e)
  | (out, .ok ()) =>
    match feed.ending with
    | none => (out, .ok feed.items.length)
    | some e => (out, .error e)

theorem copy_eq_ok {feed : Feed α ε} {out out' : Sink α ε} {n : Nat} :
    feed.copy out = (out', .ok n) ↔
      feed.ending = none ∧ out.hasRoom feed.items.length ∧
        out' = out.append feed.items ∧ n = feed.items.length := by
  by_cases hroom : out.hasRoom feed.items.length
  · cases hend : feed.ending <;>
      simp [copy, Sink.writeAll_of_hasRoom hroom, hend, hroom, eq_comm]
  · simp [copy, Sink.writeAll, hroom]

theorem exists_copy_append (feed : Feed α ε) (out : Sink α ε) :
    ∃ front, front <+: feed.items ∧ (feed.copy out).1 = out.append front ∧
      ∀ n, (feed.copy out).2 = .ok n → n = front.length := by
  obtain ⟨front, hfront, hwritten, hwhole⟩ := out.exists_writeAll_append feed.items
  refine ⟨front, hfront, ?_, ?_⟩
  · rw [copy]
    split
    · rename_i h
      rw [h] at hwritten
      exact hwritten
    · rename_i h
      rw [h] at hwritten
      cases feed.ending <;> exact hwritten
  · intro n hn
    obtain ⟨-, hroom, hout, rfl⟩ := copy_eq_ok.mp (Prod.ext rfl hn)
    rw [hwhole (by rw [Sink.writeAll_of_hasRoom hroom])]

theorem copy_of_not_hasRoom {feed : Feed α ε} {out : Sink α ε}
    (h : ¬ out.hasRoom feed.items.length) : (feed.copy out).2 = .error out.fault := by
  simp [copy, Sink.writeAll, h]

theorem copy_of_ending {feed : Feed α ε} {out : Sink α ε} {e : ε}
    (h : out.hasRoom feed.items.length) (he : feed.ending = some e) :
    (feed.copy out).2 = .error e := by
  simp [copy, Sink.writeAll_of_hasRoom h, he]

end Feed

end Framework
