import ArchiveCore.Framework.Word

/-!
# Splitting text from the right, and decimal numerals

Texts are lists of characters, so that a suffix test, a split and their inverses are list
facts. Case folding is ASCII only and keeps every other character.
-/

namespace Framework

def asciiLower (cs : List Char) : List Char := cs.map Char.toLower

def endsWith (s suffix : List Char) : Bool := suffix.isSuffixOf s

def stripSuffix (s suffix : List Char) : Option (List Char) :=
  if endsWith s suffix then some (s.take (s.length - suffix.length)) else none

def stripPrefix (s pre : List Char) : Option (List Char) :=
  if pre.isPrefixOf s then some (s.drop pre.length) else none

/-- Split around the last occurrence of a non-empty pattern. -/
def rsplitOnce (pattern : List Char) : List Char → Option (List Char × List Char)
  | [] => none
  | c :: cs =>
    match rsplitOnce pattern cs with
    | some (before, after) => some (c :: before, after)
    | none => if pattern.isPrefixOf (c :: cs) then some ([], (c :: cs).drop pattern.length) else none

def decimalDigit (c : Char) : Nat := c.toNat - '0'.toNat

/-- The number a run of decimal digits stands for, leading zeros allowed. -/
def decimalValue (digits : List Char) : Nat :=
  digits.foldl (fun n c => 10 * n + decimalDigit c) 0

/-- Parse a run of decimal digits into a 64-bit word; too large a number is an error. -/
def parseWord (digits : List Char) : Option Nat :=
  if decimalValue digits ≤ wordMax then some (decimalValue digits) else none

@[simp] theorem asciiLower_length (cs : List Char) : (asciiLower cs).length = cs.length :=
  List.length_map ..

@[simp] theorem asciiLower_append (xs ys : List Char) :
    asciiLower (xs ++ ys) = asciiLower xs ++ asciiLower ys := List.map_append ..

theorem endsWith_iff {s suffix : List Char} : endsWith s suffix = true ↔ suffix <:+ s :=
  List.isSuffixOf_iff_suffix

@[simp] theorem endsWith_append (s suffix : List Char) : endsWith (s ++ suffix) suffix = true :=
  endsWith_iff.mpr (List.suffix_append s suffix)

theorem endsWith_trans_of_length_le {s short long : List Char} (hs : endsWith s short = true)
    (hl : endsWith s long = true) (h : short.length ≤ long.length) : endsWith long short = true :=
  endsWith_iff.mpr (List.suffix_of_suffix_length_le (endsWith_iff.mp hs) (endsWith_iff.mp hl) h)

theorem endsWith_append_of_or {start tail suffix : List Char}
    (h : suffix.length ≤ tail.length ∨ endsWith suffix tail = false) :
    endsWith (start ++ tail) suffix = endsWith tail suffix := by
  have htail : endsWith (start ++ tail) tail = true := endsWith_append start tail
  rw [Bool.eq_iff_iff]
  constructor
  · intro hends
    rcases Nat.le_total suffix.length tail.length with hle | hge
    · exact endsWith_trans_of_length_le hends htail hle
    · have hpast := endsWith_trans_of_length_le htail hends hge
      have hlen : suffix.length ≤ tail.length := h.resolve_right (by simp [hpast])
      exact endsWith_trans_of_length_le hends htail hlen
  · intro hends
    exact endsWith_iff.mpr ((endsWith_iff.mp hends).trans (List.suffix_append start tail))

theorem append_of_stripPrefix {s pre rest : List Char} (h : stripPrefix s pre = some rest) :
    s = pre ++ rest := by
  simp only [stripPrefix, Option.ite_none_right_eq_some, Option.some.injEq] at h
  obtain ⟨hpre, rfl⟩ := h
  exact List.prefix_iff_eq_append.mp (List.isPrefixOf_iff_prefix.mp hpre) |>.symm

theorem rsplitOnce_eq_none {c : Char} {s : List Char} : rsplitOnce [c] s = none ↔ c ∉ s := by
  induction s with
  | nil => simp [rsplitOnce]
  | cons d ds ih =>
    cases hds : rsplitOnce [c] ds with
    | some split =>
      have hmem : c ∈ ds := by
        by_contra h
        rw [ih.mpr h] at hds
        cases hds
      simp [rsplitOnce, hds, hmem]
    | none =>
      have hmem : c ∉ ds := ih.mp hds
      by_cases hd : d = c
      · subst d
        simp [rsplitOnce, hds]
      · simp [rsplitOnce, hds, hmem, Ne.symm hd]

theorem rsplitOnce_append {c : Char} (before : List Char) {after : List Char} (h : c ∉ after) :
    rsplitOnce [c] (before ++ c :: after) = some (before, after) := by
  induction before with
  | nil => simp [rsplitOnce, rsplitOnce_eq_none.mpr h]
  | cons d ds ih => simp [rsplitOnce, ih]

theorem rsplitOnce_eq_some {c : Char} {s before after : List Char} :
    rsplitOnce [c] s = some (before, after) ↔ s = before ++ c :: after ∧ c ∉ after := by
  constructor
  · intro h
    induction s generalizing before with
    | nil => simp [rsplitOnce] at h
    | cons d ds ih =>
      cases hds : rsplitOnce [c] ds with
      | some split =>
        simp only [rsplitOnce, hds, Option.some.injEq, Prod.mk.injEq] at h
        obtain ⟨rfl, rfl⟩ := h
        obtain ⟨hsplit, hafter⟩ := ih hds
        exact ⟨by rw [hsplit, List.cons_append], hafter⟩
      | none =>
        by_cases hd : d = c
        · subst d
          simp only [rsplitOnce, hds, List.isPrefixOf_cons_cons_self, List.isPrefixOf_nil_left, if_true,
            List.length_singleton, List.drop_succ_cons, List.drop_zero, Option.some.injEq,
            Prod.mk.injEq] at h
          obtain ⟨rfl, rfl⟩ := h
          exact ⟨rfl, rsplitOnce_eq_none.mp hds⟩
        · simp [rsplitOnce, hds, Ne.symm hd] at h
  · intro h
    obtain ⟨rfl, hafter⟩ := h
    exact rsplitOnce_append before hafter

theorem append_of_rsplitOnce {pattern s before after : List Char}
    (h : rsplitOnce pattern s = some (before, after)) : s = before ++ (pattern ++ after) := by
  induction s generalizing before with
  | nil => cases h
  | cons d ds ih =>
    cases hds : rsplitOnce pattern ds with
    | some split =>
      simp only [rsplitOnce, hds, Option.some.injEq, Prod.mk.injEq] at h
      obtain ⟨rfl, rfl⟩ := h
      rw [List.cons_append, ← ih hds]
    | none =>
      simp only [rsplitOnce, hds, Option.ite_none_right_eq_some, Option.some.injEq, Prod.mk.injEq] at h
      obtain ⟨hpre, rfl, rfl⟩ := h
      exact (List.prefix_iff_eq_append.mp (List.isPrefixOf_iff_prefix.mp hpre)).symm

theorem rsplitOnce_of_not_mem {c : Char} {p s : List Char} (h : c ∉ s) :
    rsplitOnce (c :: p) s = none := by
  induction s with
  | nil => rfl
  | cons d ds ih =>
    rw [List.mem_cons, not_or] at h
    have hhead : (c :: p).isPrefixOf (d :: ds) = false := by
      rw [List.isPrefixOf, beq_false_of_ne h.1, Bool.false_and]
    simp [rsplitOnce, ih h.2, hhead]

theorem rsplitOnce_append_of_not_mem {c : Char} {p : List Char} (before : List Char)
    {after : List Char} (hp : c ∉ p) (hafter : c ∉ after) :
    rsplitOnce (c :: p) (before ++ (c :: p ++ after)) = some (before, after) := by
  induction before with
  | nil =>
    have hrest : rsplitOnce (c :: p) (p ++ after) = none :=
      rsplitOnce_of_not_mem (by simp [hp, hafter])
    have hpre : (c :: p).isPrefixOf (c :: (p ++ after)) = true :=
      List.isPrefixOf_iff_prefix.mpr (List.prefix_append (c :: p) after)
    rw [List.nil_append, List.cons_append, rsplitOnce, hrest]
    simp only [hpre, if_true, List.length_cons, List.drop_succ_cons, List.drop_left]
  | cons d ds ih => rw [List.cons_append, rsplitOnce, ih]

theorem eq_of_toLower {c d : Char} (h : c.toLower = d)
    (hd : ¬ ('a'.val ≤ d.val ∧ d.val ≤ 'z'.val)) : c = d := by
  by_cases hupper : c.val ≥ 'A'.val ∧ c.val ≤ 'Z'.val
  · have hfold : c.toLower.val = c.val + ('a'.val - 'A'.val) := congrArg Char.val (dif_pos hupper)
    have hval : d.val = c.val + ('a'.val - 'A'.val) := h ▸ hfold
    refine absurd ?_ hd
    rw [hval]
    obtain ⟨hlow, hhigh⟩ := hupper
    simp only [ge_iff_le, UInt32.le_iff_toNat_le, UInt32.toNat_add] at hlow hhigh ⊢
    have ha : ('A'.val).toNat = 65 := rfl
    have hz : ('Z'.val).toNat = 90 := rfl
    have hshift : ('a'.val - 'A'.val).toNat = 32 := rfl
    have hsmall : ('a'.val).toNat = 97 ∧ ('z'.val).toNat = 122 := ⟨rfl, rfl⟩
    omega
  · have hkept : c.toLower = c := dif_neg hupper
    exact hkept.symm.trans h

theorem toLower_of_isDigit {c : Char} (h : c.isDigit = true) : c.toLower = c := by
  have hhigh : c.val ≤ '9'.val := by
    rw [Char.isDigit, Bool.and_eq_true, decide_eq_true_eq, decide_eq_true_eq] at h
    exact h.2
  have hupper : ¬ (c.val ≥ 'A'.val ∧ c.val ≤ 'Z'.val) := by
    intro hin
    exact absurd (UInt32.le_trans hin.1 hhigh) (by decide)
  exact dif_neg hupper

theorem asciiLower_of_digits {digits : List Char} (h : digits.all Char.isDigit = true) :
    asciiLower digits = digits := by
  have hid : digits.map Char.toLower = digits.map id :=
    List.map_congr_left fun c hc => toLower_of_isDigit (List.all_eq_true.mp h c hc)
  rw [asciiLower, hid, List.map_id]

end Framework
