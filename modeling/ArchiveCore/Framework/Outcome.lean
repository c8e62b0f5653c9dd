import Mathlib.Tactic

/-!
# Computations that may fail

A program in `Except` succeeds when each of its steps does. These are the rules that take
a successful run apart, one step at a time, for `simp` and `obtain`.
-/

namespace Framework

variable {ε ε' α β : Type}

@[simp] theorem bind_eq_ok {x : Except ε α} {f : α → Except ε β} {b : β} :
    (x >>= f) = .ok b ↔ ∃ a, x = .ok a ∧ f a = .ok b := by
  cases x <;> simp [bind, Except.bind]

@[simp] theorem pure_eq_ok {a b : α} : (pure a : Except ε α) = .ok b ↔ a = b := by
  simp [pure, Except.pure]

@[simp] theorem mapError_eq_ok {f : ε → ε'} {x : Except ε α} {a : α} :
    x.mapError f = .ok a ↔ x = .ok a := by
  cases x <;> simp [Except.mapError]

@[simp] theorem map_eq_ok {f : α → β} {x : Except ε α} {b : β} :
    x.map f = .ok b ↔ ∃ a, x = .ok a ∧ f a = b := by
  cases x <;> simp [Except.map]

@[simp] theorem fmap_eq_ok {f : α → β} {x : Except ε α} {b : β} :
    (f <$> x) = .ok b ↔ ∃ a, x = .ok a ∧ f a = b := map_eq_ok

theorem bind_eq_error {x : Except ε α} {f : α → Except ε β} {e : ε} :
    (x >>= f) = .error e ↔ x = .error e ∨ ∃ a, x = .ok a ∧ f a = .error e := by
  cases x <;> simp [bind, Except.bind]

theorem pure_ne_error {a : α} {e : ε} : (pure a : Except ε α) ≠ .error e := by
  simp [pure, Except.pure]

theorem mapError_eq_error {f : ε → ε'} {x : Except ε α} {e : ε'} :
    x.mapError f = .error e ↔ ∃ e', x = .error e' ∧ f e' = e := by
  cases x <;> simp [Except.mapError]

/-- A traversal succeeds exactly when every element does, in order. -/
theorem mapM_eq_ok {f : α → Except ε β} {xs : List α} {ys : List β} :
    xs.mapM f = .ok ys ↔ List.Forall₂ (fun x y => f x = .ok y) xs ys := by
  induction xs generalizing ys with
  | nil => cases ys <;> simp
  | cons x xs ih =>
    rw [List.mapM_cons]
    cases ys with
    | nil => simp
    | cons y ys => simp [List.forall₂_cons, ih]

theorem exists_mapM_forall₂ {γ : Type} {r : α → γ → Prop} {q : β → γ → Prop}
    {f : α → Except ε β} {xs : List α} {cs : List γ} (h : List.Forall₂ r xs cs)
    (hstep : ∀ x c, x ∈ xs → r x c → ∃ y, f x = .ok y ∧ q y c) :
    ∃ ys, xs.mapM f = .ok ys ∧ List.Forall₂ q ys cs := by
  induction h with
  | nil => exact ⟨[], by simp, .nil⟩
  | @cons x c xs cs hx _ ih =>
    obtain ⟨y, hy, hyc⟩ := hstep x c List.mem_cons_self hx
    obtain ⟨ys, hys, hall⟩ := ih fun x c hmem => hstep x c (List.mem_cons_of_mem _ hmem)
    exact ⟨y :: ys, by simp [hy, hys], .cons hyc hall⟩

theorem forall₂_of_range {γ : Type} {r : α → γ → Prop} {xs : List α} {cs : List γ}
    (h : List.Forall₂ (fun x j => ∃ c, cs[j]? = some c ∧ r x c) xs (List.range cs.length)) :
    List.Forall₂ r xs cs := by
  obtain ⟨hlen, hget⟩ := List.forall₂_iff_get.mp h
  rw [List.length_range] at hlen
  refine List.forall₂_iff_get.mpr ⟨hlen, fun i hi hi' => ?_⟩
  obtain ⟨c, hc, hr⟩ := hget i hi (by simpa using hi')
  simp only [List.get_eq_getElem, List.getElem_range] at hc hr ⊢
  rw [List.getElem?_eq_getElem hi'] at hc
  rwa [Option.some.inj hc]

theorem exists_mapM_eq_ok {f : α → Except ε β} {xs : List α} (h : ∀ x ∈ xs, ∃ y, f x = .ok y) :
    ∃ ys, xs.mapM f = .ok ys := by
  induction xs with
  | nil => exact ⟨[], by simp⟩
  | cons x xs ih =>
    obtain ⟨y, hy⟩ := h x List.mem_cons_self
    obtain ⟨ys, hys⟩ := ih fun x hx => h x (List.mem_cons_of_mem _ hx)
    exact ⟨y :: ys, by simp [hy, hys]⟩

theorem getElem?_of_forall₂ {r : α → β → Prop} {xs : List α} {ys : List β}
    (h : List.Forall₂ r xs ys) {i : Nat} {y : β} (hy : ys[i]? = some y) :
    ∃ x, xs[i]? = some x ∧ r x y := by
  obtain ⟨hi, hget⟩ := List.getElem?_eq_some_iff.mp hy
  have hx : i < xs.length := by rw [h.length_eq]; exact hi
  refine ⟨xs[i], List.getElem?_eq_getElem hx, ?_⟩
  rw [← hget]
  exact h.get hx hi

theorem getElem?_of_mapM_eq_ok {f : α → Except ε β} {xs : List α} {ys : List β}
    (h : xs.mapM f = .ok ys) (i : Nat) {y : β} (hy : ys[i]? = some y) :
    ∃ x, xs[i]? = some x ∧ f x = .ok y :=
  getElem?_of_forall₂ (mapM_eq_ok.mp h) hy

/-- Every error the computation can end with satisfies `P`. -/
def FailsWith (P : ε → Prop) (x : Except ε α) : Prop := ∀ e, x = .error e → P e

namespace FailsWith

variable {P : ε → Prop}

theorem ok (a : α) : FailsWith P (.ok a) := by
  intro e h
  cases h

theorem error {e : ε} (h : P e) : FailsWith P (.error e : Except ε α) := by
  intro e' h'
  rwa [← Except.error.inj h']

theorem imp {Q : ε → Prop} {x : Except ε α} (hx : FailsWith P x) (h : ∀ e, P e → Q e) :
    FailsWith Q x :=
  fun e he => h e (hx e he)

theorem bind {x : Except ε α} {f : α → Except ε β} (hx : FailsWith P x)
    (hf : ∀ a, x = .ok a → FailsWith P (f a)) : FailsWith P (x >>= f) := by
  intro e h
  rcases bind_eq_error.mp h with h | ⟨a, ha, h⟩
  · exact hx e h
  · exact hf a ha e h

theorem mapError {f : ε' → ε} (h : ∀ e, P (f e)) (x : Except ε' α) : FailsWith P (x.mapError f) := by
  intro e he
  obtain ⟨e', -, rfl⟩ := mapError_eq_error.mp he
  exact h e'

theorem mapM {f : α → Except ε β} {xs : List α} (h : ∀ x ∈ xs, FailsWith P (f x)) :
    FailsWith P (xs.mapM f) := by
  induction xs with
  | nil => exact ok []
  | cons x xs ih =>
    rw [List.mapM_cons]
    refine (h x List.mem_cons_self).bind fun y _ => ?_
    exact (ih fun x hx => h x (List.mem_cons_of_mem _ hx)).bind fun ys _ => ok (y :: ys)

end FailsWith

/-- Whatever `x` succeeds with, `y` succeeds with as well. -/
def Carries (x y : Except ε α) : Prop := ∀ a, x = .ok a → y = .ok a

namespace Carries

theorem refl (x : Except ε α) : Carries x x := fun _ h => h

theorem bind {x y : Except ε α} {f g : α → Except ε β} (h : Carries x y)
    (hf : ∀ a, Carries (f a) (g a)) : Carries (x >>= f) (y >>= g) := by
  intro b hb
  obtain ⟨a, hx, ha⟩ := bind_eq_ok.mp hb
  exact bind_eq_ok.mpr ⟨a, h a hx, hf a b ha⟩

theorem mapM {f g : α → Except ε β} (h : ∀ x, Carries (f x) (g x)) (xs : List α) :
    Carries (xs.mapM f) (xs.mapM g) := by
  intro ys hys
  exact mapM_eq_ok.mpr ((mapM_eq_ok.mp hys).imp fun x y hy => h x y hy)

end Carries

/-- The two never succeed differently. -/
def Agree (x y : Except ε α) : Prop := ∀ a b, x = .ok a → y = .ok b → a = b

theorem Carries.agree {x y z : Except ε α} (hx : Carries x z) (hy : Carries y z) : Agree x y :=
  fun a b ha hb => Except.ok.inj ((hx a ha).symm.trans (hy b hb))

end Framework
