import Mathlib.Tactic

/-!
# Binary search for a partition point

The search halves a window over the indices and looks at one element each time, so its
result means something only on a list that a predicate cuts into a true part and a false
part. On such a list it is the place of the cut.
-/

namespace Framework

variable {α : Type}

/-- Halve the window `[base, base + size)` until one index is left. -/
def bisect (p : Nat → Bool) (base size : Nat) : Nat :=
  if 1 < size then bisect p (if p (base + size / 2) then base + size / 2 else base) (size - size / 2)
  else base
termination_by size

def partitionPoint (p : α → Bool) (xs : List α) : Nat :=
  if xs.length = 0 then 0
  else
    let base := bisect (fun i => xs[i]?.any p) 0 xs.length
    base + (xs[base]?.any p).toNat

/-- The predicate holds on a first part of the indices below `n` and nowhere after. -/
def Partitioned (p : Nat → Bool) (n : Nat) : Prop := ∀ i j, i ≤ j → j < n → p j = true → p i = true

theorem bisect_spec {p : Nat → Bool} {n : Nat} (hp : Partitioned p n) (base size : Nat)
    (hsize : 0 < size) (hbound : base + size ≤ n) (hlow : ∀ i < base, p i = true)
    (hhigh : ∀ i, base + size ≤ i → i < n → p i = false) :
    bisect p base size < n ∧ (∀ i < bisect p base size, p i = true) ∧
      ∀ i, bisect p base size < i → i < n → p i = false := by
  induction size using Nat.strong_induction_on generalizing base with
  | _ size ih =>
    by_cases hone : 1 < size
    · rw [bisect, if_pos hone]
      cases hmid : p (base + size / 2) with
      | true =>
        apply ih (size - size / 2) (by omega) (base + size / 2) (by omega) (by omega)
        · intro i hi
          exact hp i (base + size / 2) hi.le (by omega) hmid
        · intro i hi hn
          exact hhigh i (by omega) hn
      | false =>
        apply ih (size - size / 2) (by omega) base (by omega) (by omega) hlow
        intro i hi hn
        by_contra htrue
        have := hp (base + size / 2) i (by omega) hn (by simpa using htrue)
        simp [hmid] at this
    · have hsize' : size = 1 := by omega
      subst hsize'
      rw [bisect, if_neg hone]
      exact ⟨by omega, hlow, fun i hi hn => hhigh i (by omega) hn⟩

/-- On a partitioned list the search finds the number of elements in the true part. -/
theorem partitionPoint_spec {p : α → Bool} {xs : List α}
    (hp : Partitioned (fun i => xs[i]?.any p) xs.length) :
    partitionPoint p xs ≤ xs.length ∧ (∀ i < partitionPoint p xs, xs[i]?.any p = true) ∧
      ∀ i, partitionPoint p xs ≤ i → i < xs.length → xs[i]?.any p = false := by
  by_cases hempty : xs.length = 0
  · simp [partitionPoint, hempty]
  · obtain ⟨hbound, hlow, hhigh⟩ := bisect_spec hp 0 xs.length (by omega) (by omega) (by simp)
      (fun i hi hn => absurd hn (by omega))
    rw [partitionPoint, if_neg hempty]
    generalize hb : bisect (fun i => xs[i]?.any p) 0 xs.length = base at hbound hlow hhigh
    cases hbase : xs[base]?.any p with
    | true =>
      simp only [hbase, Bool.toNat_true]
      refine ⟨by omega, ?_, fun i hi hn => hhigh i (by omega) hn⟩
      intro i hi
      rcases Nat.lt_succ_iff_lt_or_eq.mp hi with hlt | rfl
      · exact hlow i hlt
      · exact hbase
    | false =>
      simp only [hbase, Bool.toNat_false, Nat.add_zero]
      refine ⟨by omega, hlow, ?_⟩
      intro i hi hn
      rcases Nat.lt_or_eq_of_le hi with hlt | rfl
      · exact hhigh i hlt hn
      · exact hbase

end Framework
