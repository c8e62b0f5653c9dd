import Mathlib.Tactic

/-!
# Machine words over naturals

The results of 64-bit unsigned arithmetic, for the four ways a program asks for them:
wrapping, saturating, checked addition and checked subtraction. Values are naturals, so a
bound on a word is an ordinary inequality and the side conditions close by `omega`.
-/

namespace Framework

/-- The largest 64-bit unsigned value. -/
def wordMax : Nat := 2 ^ 64 - 1

def wrapAdd (a b : Nat) : Nat := (a + b) % 2 ^ 64

def wrapSub (a b : Nat) : Nat := (a + (2 ^ 64 - b)) % 2 ^ 64

def satAdd (a b : Nat) : Nat := min (a + b) wordMax

def satMul (a b : Nat) : Nat := min (a * b) wordMax

def checkedAdd (a b : Nat) : Option Nat := if a + b ≤ wordMax then some (a + b) else none

def checkedSub (a b : Nat) : Option Nat := if b ≤ a then some (a - b) else none

theorem toNat_ofNat_word {n : Nat} (h : n ≤ wordMax) : (UInt64.ofNat n).toNat = n :=
  UInt64.toNat_ofNat_of_lt (Nat.lt_of_le_of_lt h (by decide))

theorem toNat_le_wordMax (n : UInt64) : n.toNat ≤ wordMax := Nat.le_of_lt_succ n.toNat_lt

theorem wrapAdd_eq {a b : Nat} (h : a + b ≤ wordMax) : wrapAdd a b = a + b := by
  rw [wordMax] at h
  exact Nat.mod_eq_of_lt (by omega)

@[simp] theorem wrapAdd_wordMax_one : wrapAdd wordMax 1 = 0 := by decide

theorem wrapSub_eq {a b : Nat} (hab : b ≤ a) (ha : a ≤ wordMax) : wrapSub a b = a - b := by
  rw [wordMax] at ha
  rw [wrapSub]
  omega

theorem satAdd_eq {a b : Nat} (h : a + b ≤ wordMax) : satAdd a b = a + b := Nat.min_eq_left h

theorem satAdd_le_wordMax (a b : Nat) : satAdd a b ≤ wordMax := Nat.min_le_right _ _

theorem le_satAdd {a b : Nat} (ha : a ≤ wordMax) : a ≤ satAdd a b :=
  le_min (Nat.le_add_right a b) ha

@[simp] theorem satAdd_zero {a : Nat} (ha : a ≤ wordMax) : satAdd a 0 = a := Nat.min_eq_left ha

theorem satAdd_assoc (a b c : Nat) : satAdd (satAdd a b) c = satAdd a (b + c) := by
  simp only [satAdd]
  omega

theorem satAdd_min_le {a b c : Nat} (h : a + b ≤ c) : satAdd (min a wordMax) b ≤ min c wordMax := by
  simp only [satAdd]
  omega

end Framework
