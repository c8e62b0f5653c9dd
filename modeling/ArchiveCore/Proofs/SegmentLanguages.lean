import ArchiveCore.Proofs.SegmentNames

/-!
# The languages of the segment names

Each pattern accepts exactly the names of one form and reads the number from them: the last
part of the name, whatever stands before it, and any letter case where letters stand.
-/

namespace ArchiveCore

open Framework

/-- A run of at least `least` decimal digits that stands for `n`, a 64-bit word. -/
def Numeral (least : Nat) (digits : List Char) (n : Nat) : Prop :=
  least ≤ digits.length ∧ digits.all Char.isDigit = true ∧ decimalValue digits = n ∧ n ≤ wordMax

theorem segmentDigits_eq_some {least n : Nat} {digits : List Char} :
    segmentDigits least digits = some n ↔ Numeral least digits n := by
  simp only [segmentDigits, parseWord, Numeral, Option.ite_none_right_eq_some, Option.some.injEq,
    and_assoc]
  constructor
  · rintro ⟨hlen, hdigits, hword, rfl⟩
    exact ⟨hlen, hdigits, rfl, hword⟩
  · rintro ⟨hlen, hdigits, rfl, hword⟩
    exact ⟨hlen, hdigits, hword, rfl⟩

theorem rawSplit_eq_some {name : String} {n : Nat} :
    rawSplit name = some n ↔
      ∃ base digits, name.toList = base ++ '.' :: digits ∧ Numeral 2 digits n := by
  simp only [rawSplit, Option.bind_eq_bind, Option.bind_eq_some_iff]
  constructor
  · rintro ⟨⟨base, digits⟩, hsplit, hnumber⟩
    exact ⟨base, digits, (rsplitOnce_eq_some.mp hsplit).1, segmentDigits_eq_some.mp hnumber⟩
  · rintro ⟨base, digits, hname, hnumeral⟩
    have hdot : '.' ∉ digits := not_mem_digits hnumeral.2.1 (by decide)
    exact ⟨(base, digits), rsplitOnce_eq_some.mpr ⟨hname, hdot⟩, segmentDigits_eq_some.mpr hnumeral⟩

/-- The letters an EWF extension starts with. -/
def ewfLetters : List (List Char) := [['e', 'x'], ['e'], ['s']]

theorem stripPrefix_append (pre rest : List Char) : stripPrefix (pre ++ rest) pre = some rest := by
  have hpre : pre.isPrefixOf (pre ++ rest) = true :=
    List.isPrefixOf_iff_prefix.mpr (List.prefix_append pre rest)
  rw [stripPrefix, if_pos hpre, List.drop_left]

theorem stripPrefix_of_ne {c d : Char} {p s : List Char} (h : c ≠ d) :
    stripPrefix (d :: s) (c :: p) = none := by
  have hpre : ¬ (c :: p).isPrefixOf (d :: s) = true := by
    rw [List.isPrefixOf, beq_false_of_ne h]
    simp
  rw [stripPrefix, if_neg hpre]

theorem ewfDigits_eq_some {ext digits : List Char} (hdigits : digits.all Char.isDigit = true) :
    (stripPrefix ext ['e', 'x'] <|> stripPrefix ext ['e'] <|> stripPrefix ext ['s']) = some digits ↔
      ∃ letters ∈ ewfLetters, ext = letters ++ digits := by
  simp only [ewfLetters, List.mem_cons, List.not_mem_nil, or_false, exists_eq_or_imp,
    exists_eq_left]
  constructor
  · intro h
    rcases (Option.orElse_eq_some _ _ _).mp h with hex | ⟨-, hrest⟩
    · exact .inl (append_of_stripPrefix hex)
    · rcases (Option.orElse_eq_some _ _ _).mp hrest with he | ⟨-, hs⟩
      · exact .inr (.inl (append_of_stripPrefix he))
      · exact .inr (.inr (append_of_stripPrefix hs))
  · rintro (rfl | rfl | rfl)
    · exact (Option.orElse_eq_some _ _ _).mpr (.inl (stripPrefix_append _ _))
    · have hx : stripPrefix (['e'] ++ digits) ['e', 'x'] = none := by
        cases digits with
        | nil => rfl
        | cons d ds =>
          have hd : ¬ 'x' = d := by
            rintro rfl
            simp at hdigits
          simp [stripPrefix, hd]
      refine (Option.orElse_eq_some _ _ _).mpr (.inr ⟨hx, ?_⟩)
      exact (Option.orElse_eq_some _ _ _).mpr (.inl (stripPrefix_append _ _))
    · have hne : ∀ p, stripPrefix (['s'] ++ digits) ('e' :: p) = none :=
        fun p => stripPrefix_of_ne (by decide)
      refine (Option.orElse_eq_some _ _ _).mpr (.inr ⟨hne _, ?_⟩)
      exact (Option.orElse_eq_some _ _ _).mpr (.inr ⟨hne _, stripPrefix_append _ _⟩)

theorem ewfSegment_eq_some {name : String} {n : Nat} :
    ewfSegment name = some n ↔
      ∃ base letters digits, asciiLower name.toList = base ++ '.' :: (letters ++ digits) ∧
        letters ∈ ewfLetters ∧ digits.length = 2 ∧ Numeral 2 digits n := by
  simp only [ewfSegment, Option.bind_eq_bind, Option.bind_eq_some_iff,
    Option.ite_none_right_eq_some]
  constructor
  · rintro ⟨⟨base, ext⟩, hsplit, digits, hletters, htwo, hnumber⟩
    have hnumeral := segmentDigits_eq_some.mp hnumber
    obtain ⟨hname, -⟩ := rsplitOnce_eq_some.mp hsplit
    obtain ⟨letters, hmem, hext⟩ := (ewfDigits_eq_some hnumeral.2.1).mp hletters
    refine ⟨asciiLower base, letters, digits, ?_, hmem, htwo, hnumeral⟩
    rw [hname, asciiLower_append, ← hext]
    rfl
  · rintro ⟨base, letters, digits, hlower, hmem, htwo, hnumeral⟩
    obtain ⟨before, tail, hname, -, htail⟩ := List.map_eq_append_iff.mp hlower
    obtain ⟨dot, ext, rfl, hdot, hext⟩ := List.map_eq_cons_iff.mp htail
    obtain rfl := eq_of_toLower hdot (by decide)
    have hnot : '.' ∉ ext := by
      intro hin
      have hin' : '.' ∈ letters ++ digits := by
        rw [← hext]
        exact List.mem_map.mpr ⟨'.', hin, by decide⟩
      rcases List.mem_append.mp hin' with hin' | hin'
      · revert hin' hmem
        simp only [ewfLetters, List.mem_cons, List.not_mem_nil, or_false]
        rintro (rfl | rfl | rfl) <;> decide
      · exact not_mem_digits hnumeral.2.1 (by decide) hin'
    exact ⟨(before, ext), rsplitOnce_eq_some.mpr ⟨hname, hnot⟩, digits,
      (ewfDigits_eq_some hnumeral.2.1).mpr ⟨letters, hmem, hext⟩, htwo,
      segmentDigits_eq_some.mpr hnumeral⟩

theorem vmdkSegment_eq_some {name : String} {n : Nat} :
    vmdkSegment name = some n ↔
      ∃ base digits, asciiLower name.toList = base ++ ("-s".toList ++ digits) ++ ".vmdk".toList ∧
        Numeral 1 digits n := by
  simp only [vmdkSegment, Option.bind_eq_bind, Option.bind_eq_some_iff]
  constructor
  · rintro ⟨stem, hstem, ⟨base, digits⟩, hsplit, hnumber⟩
    simp only [stripSuffix, Option.ite_none_right_eq_some, Option.some.injEq] at hstem
    obtain ⟨hends, rfl⟩ := hstem
    have hstem := append_of_rsplitOnce hsplit
    refine ⟨base, digits, ?_, segmentDigits_eq_some.mp hnumber⟩
    obtain ⟨front, hfront⟩ := endsWith_iff.mp hends
    rw [← hfront] at hstem ⊢
    rw [List.length_append, Nat.add_sub_cancel, List.take_left] at hstem
    rw [hstem]
    rfl
  · rintro ⟨base, digits, hlower, hnumeral⟩
    have hminus : '-' ∉ digits := not_mem_digits hnumeral.2.1 (by decide)
    refine ⟨base ++ ("-s".toList ++ digits), ?_, (base, digits), ?_, segmentDigits_eq_some.mpr hnumeral⟩
    · rw [stripSuffix, hlower, if_pos (endsWith_append _ _), List.length_append, Nat.add_sub_cancel,
        List.take_left]
    · exact rsplitOnce_append_of_not_mem base (by decide) hminus

/-- What each pattern accepts, and the number it reads: `.NN` with two digits or more, `.eNN`,
`.exNN` and `.sNN` with exactly two, `-sN.vmdk` with one or more, letters in any case. -/
theorem segmentNumber_languages (name : String) (n : Nat) :
    (segmentNumber name .splitRaw = some n ↔
      ∃ base digits, name.toList = base ++ '.' :: digits ∧ Numeral 2 digits n) ∧
    (segmentNumber name .ewf = some n ↔
      ∃ base letters digits, asciiLower name.toList = base ++ '.' :: (letters ++ digits) ∧
        letters ∈ ewfLetters ∧ digits.length = 2 ∧ Numeral 2 digits n) ∧
    (segmentNumber name .splitVmdk = some n ↔
      ∃ base digits, asciiLower name.toList = base ++ ("-s".toList ++ digits) ++ ".vmdk".toList ∧
        Numeral 1 digits n) :=
  ⟨rawSplit_eq_some, ewfSegment_eq_some, vmdkSegment_eq_some⟩

end ArchiveCore
