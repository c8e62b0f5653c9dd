import Mathlib.Tactic

/-!
# Positions in a concatenation

A list of chunks seen as one list: the offset a chunk starts at, the chunk a position lies
in, and what follows a position. Where only the lengths matter, the offsets are the starts
of consecutive runs of those lengths.
-/

namespace Framework

/-- Where run `i` starts when runs of these lengths lie one after another. -/
def runStart (lens : List Nat) (i : Nat) : Nat := (lens.take i).sum

@[simp] theorem runStart_cons (len : Nat) (lens : List Nat) (i : Nat) :
    runStart (len :: lens) (i + 1) = len + runStart lens i := rfl

theorem runStart_length (lens : List Nat) : runStart lens lens.length = lens.sum := by
  rw [runStart, List.take_length]

theorem runStart_succ {lens : List Nat} {i len : Nat} (h : lens[i]? = some len) :
    runStart lens (i + 1) = runStart lens i + len := by
  rw [runStart, List.take_add_one, h]
  simp [runStart]

theorem runStart_mono (lens : List Nat) {i j : Nat} (h : i ≤ j) :
    runStart lens i ≤ runStart lens j := by
  obtain ⟨k, rfl⟩ := Nat.exists_eq_add_of_le h
  rw [runStart, runStart, List.take_add, List.sum_append]
  exact Nat.le_add_right _ _

theorem runStart_le (lens : List Nat) (i : Nat) : runStart lens i ≤ lens.sum := by
  rcases Nat.le_total i lens.length with h | h
  · exact (runStart_mono lens h).trans_eq (runStart_length lens)
  · rw [runStart, List.take_of_length_le h]

variable {α : Type}

/-- Where chunk `i` starts in the concatenation. -/
def offset (chunks : List (List α)) (i : Nat) : Nat := (chunks.take i).flatten.length

theorem offset_eq_runStart (chunks : List (List α)) (i : Nat) :
    offset chunks i = runStart (chunks.map List.length) i := by
  rw [offset, runStart, List.length_flatten, List.map_take]

theorem offset_succ {chunks : List (List α)} {i : Nat} {chunk : List α}
    (h : chunks[i]? = some chunk) : offset chunks (i + 1) = offset chunks i + chunk.length := by
  rw [offset_eq_runStart, offset_eq_runStart]
  exact runStart_succ (by rw [List.getElem?_map, h, Option.map_some])

theorem offset_mono (chunks : List (List α)) {i j : Nat} (h : i ≤ j) :
    offset chunks i ≤ offset chunks j := by
  rw [offset_eq_runStart, offset_eq_runStart]
  exact runStart_mono _ h

theorem offset_le (chunks : List (List α)) (i : Nat) : offset chunks i ≤ chunks.flatten.length := by
  rw [offset_eq_runStart, List.length_flatten]
  exact runStart_le _ i

theorem drop_flatten {chunks : List (List α)} {i pos : Nat} {chunk : List α}
    (h : chunks[i]? = some chunk) (hlow : offset chunks i ≤ pos)
    (hhigh : pos ≤ offset chunks i + chunk.length) :
    chunks.flatten.drop pos =
      chunk.drop (pos - offset chunks i) ++ (chunks.drop (i + 1)).flatten := by
  obtain ⟨hi, rfl⟩ := List.getElem?_eq_some_iff.mp h
  have hsplit : chunks.flatten =
      (chunks.take i).flatten ++ (chunks[i] ++ (chunks.drop (i + 1)).flatten) := by
    rw [← List.flatten_cons, ← List.drop_eq_getElem_cons hi, ← List.flatten_append,
      List.take_append_drop]
  rw [hsplit, List.drop_append, List.drop_eq_nil_of_le hlow, List.nil_append, List.drop_append]
  rw [offset] at hhigh ⊢
  have hnone : pos - (chunks.take i).flatten.length - chunks[i].length = 0 := by omega
  rw [hnone, List.drop_zero]

end Framework
