import Mathlib.Tactic

/-!
# Sorting by a key

A stable sort by a key puts the elements in the order of their keys and leaves those of one
key in the order they had. Where no key is shared, the result does not depend on the order
the elements came in.
-/

namespace Framework

variable {α κ : Type} [LinearOrder κ]

/-- Comparison by a key. -/
def keyLE (key : α → κ) (a b : α) : Bool := decide (key a ≤ key b)

theorem keyLE_trans (key : α → κ) (a b c : α) (hab : keyLE key a b = true)
    (hbc : keyLE key b c = true) : keyLE key a c = true := by
  simp only [keyLE, decide_eq_true_eq] at hab hbc ⊢
  exact hab.trans hbc

theorem keyLE_total (key : α → κ) (a b : α) : (keyLE key a b || keyLE key b a) = true := by
  simp only [keyLE, Bool.or_eq_true, decide_eq_true_eq]
  exact le_total _ _

theorem zipIdx_pairwise_lt (xs : List α) : xs.zipIdx.Pairwise fun a b => a.2 < b.2 := by
  have hplaces : (xs.zipIdx.map Prod.snd).Pairwise (· < ·) := by
    rw [List.zipIdx_map_snd]
    exact List.pairwise_lt_range'
  exact List.pairwise_map.mp hplaces

/-- Later in the sorted list is a greater key, or the same one later in the list. -/
theorem mergeSort_stable (key : α → κ) {r : α → α → Prop} {xs : List α} (h : xs.Pairwise r) :
    (xs.mergeSort (keyLE key)).Pairwise fun a b => key a < key b ∨ key a = key b ∧ r a b := by
  rw [← List.mergeSort_zipIdx, List.pairwise_map]
  have hperm := List.mergeSort_perm xs.zipIdx (List.zipIdxLE (keyLE key))
  have hsorted := List.pairwise_mergeSort (List.zipIdxLE_trans (keyLE_trans key))
    (List.zipIdxLE_total (keyLE_total key)) xs.zipIdx
  have hplaces : (xs.zipIdx.mergeSort (List.zipIdxLE (keyLE key))).Pairwise fun a b => a.2 ≠ b.2 :=
    hperm.symm.pairwise ((zipIdx_pairwise_lt xs).imp fun hlt => Nat.ne_of_lt hlt) fun hne => hne.symm
  apply (hsorted.and hplaces).imp_of_mem
  intro a b ha hb hab
  obtain ⟨hle, hne⟩ := hab
  have hxa := List.mem_zipIdx_iff_getElem?.mp (hperm.mem_iff.mp ha)
  have hxb := List.mem_zipIdx_iff_getElem?.mp (hperm.mem_iff.mp hb)
  simp only [List.zipIdxLE, keyLE, decide_eq_true_eq] at hle
  split at hle
  · rename_i hkey
    split at hle
    · rename_i hkey'
      have hlt : a.2 < b.2 := by
        have := of_decide_eq_true hle
        omega
      obtain ⟨hia, hxa⟩ := List.getElem?_eq_some_iff.mp hxa
      obtain ⟨hib, hxb⟩ := List.getElem?_eq_some_iff.mp hxb
      have hr := List.pairwise_iff_getElem.mp h a.2 b.2 hia hib hlt
      rw [hxa, hxb] at hr
      exact .inr ⟨le_antisymm hkey hkey', hr⟩
    · rename_i hkey'
      exact .inl (lt_of_not_ge hkey')
  · cases hle

theorem mergeSort_sorted (key : α → κ) (xs : List α) :
    (xs.mergeSort (keyLE key)).Pairwise fun a b => key a ≤ key b := by
  have hall : xs.Pairwise fun _ _ => True := List.pairwise_of_forall fun _ _ => trivial
  apply (mergeSort_stable key hall).imp
  intro a b h
  rcases h with hlt | ⟨heq, -⟩
  · exact hlt.le
  · exact heq.le

theorem eq_of_perm_of_sorted (key : α → κ) {xs ys : List α} (h : xs.Perm ys)
    (hxs : xs.Pairwise fun a b => key a ≤ key b) (hys : ys.Pairwise fun a b => key a ≤ key b)
    (hkeys : (xs.map key).Nodup) : xs = ys := by
  apply List.Perm.eq_of_pairwise _ hxs hys h
  intro a b ha hb hab hba
  exact List.inj_on_of_nodup_map hkeys ha (h.mem_iff.mpr hb) (le_antisymm hab hba)

end Framework
