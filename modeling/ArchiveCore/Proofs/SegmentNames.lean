import ArchiveCore.Core.Plan
import ArchiveCore.Framework.StableSort

/-!
# The names of a split set and their order

A numbered name parses as a raw split and as nothing else, and the parts of a set come out
in the order of their numbers, whatever order they are stored in.
-/

namespace ArchiveCore

open Framework

/-- `base.NNN`: the number padded with zeros to two digits or more. -/
def SegmentName (base : String) (n : Nat) (name : String) : Prop :=
  ∃ digits : List Char, name.toList = base.toList ++ '.' :: digits ∧ 2 ≤ digits.length ∧
    digits.all Char.isDigit = true ∧ decimalValue digits = n

theorem not_mem_digits {c : Char} {digits : List Char} (h : digits.all Char.isDigit = true)
    (hc : c.isDigit = false) : c ∉ digits := by
  intro hmem
  rw [List.all_eq_true.mp h c hmem] at hc
  cases hc

theorem SegmentName.rawSplit_eq {base name : String} {n : Nat} (h : SegmentName base n name)
    (hn : n ≤ wordMax) : rawSplit name = some n := by
  obtain ⟨digits, hname, hlen, hdigits, rfl⟩ := h
  have hsplit := rsplitOnce_append base.toList (not_mem_digits hdigits (by decide : '.'.isDigit = false))
  have hnumber : segmentDigits 2 digits = some (decimalValue digits) := by
    rw [segmentDigits, if_pos ⟨hlen, hdigits⟩, parseWord, if_pos hn]
  simp [rawSplit, hname, hsplit, hnumber]

theorem SegmentName.ewfSegment_eq {base name : String} {n : Nat} (h : SegmentName base n name) :
    ewfSegment name = none := by
  obtain ⟨digits, hname, hlen, hdigits, rfl⟩ := h
  have hsplit := rsplitOnce_append base.toList (not_mem_digits hdigits (by decide : '.'.isDigit = false))
  -- a digit is none of the letters an extension of the kind starts with
  have hfirst : ∀ c rest, c.isDigit = false → stripPrefix digits (c :: rest) = none := by
    intro c rest hc
    have hnot : ¬ (c :: rest).isPrefixOf digits = true := by
      intro hstart
      obtain ⟨tail, htail⟩ := List.isPrefixOf_iff_prefix.mp hstart
      apply not_mem_digits hdigits hc
      rw [← htail]
      simp
    exact if_neg hnot
  simp [ewfSegment, hname, hsplit, asciiLower_of_digits hdigits,
    hfirst _ _ (by decide : 'e'.isDigit = false), hfirst _ _ (by decide : 's'.isDigit = false)]

theorem vmdkSegment_eq_none {name : String} {start digits : List Char}
    (hlower : asciiLower name.toList = start ++ digits) (hlen : 1 ≤ digits.length)
    (hdigits : digits.all Char.isDigit = true) : vmdkSegment name = none := by
  have hnot : ¬ endsWith (asciiLower name.toList) ".vmdk".toList = true := by
    intro hvmdk
    have hk : endsWith (asciiLower name.toList) ['k'] = true :=
      endsWith_iff.mpr ((endsWith_iff.mp (by decide : endsWith ".vmdk".toList ['k'] = true)).trans
        (endsWith_iff.mp hvmdk))
    have hdig : endsWith (asciiLower name.toList) digits = true := by
      rw [hlower]
      exact endsWith_append _ _
    have hlast := endsWith_trans_of_length_le hk hdig hlen
    exact not_mem_digits hdigits (by decide : 'k'.isDigit = false)
      ((endsWith_iff.mp hlast).subset (List.mem_singleton_self _))
  rw [vmdkSegment, stripSuffix, if_neg hnot]
  rfl

theorem SegmentName.vmdkSegment_eq {base name : String} {n : Nat} (h : SegmentName base n name) :
    vmdkSegment name = none := by
  obtain ⟨digits, hname, hlen, hdigits, rfl⟩ := h
  apply vmdkSegment_eq_none _ (Nat.le_of_succ_le hlen) hdigits
  · exact asciiLower (base.toList ++ ['.'])
  · rw [hname, List.append_cons, asciiLower_append, asciiLower_of_digits hdigits]

theorem digits_of_segmentDigits {least n : Nat} {digits : List Char}
    (h : segmentDigits least digits = some n) :
    least ≤ digits.length ∧ digits.all Char.isDigit = true ∧ decimalValue digits = n := by
  simp only [segmentDigits, parseWord, Option.ite_none_right_eq_some, Option.some.injEq] at h
  obtain ⟨⟨hlen, hdigits⟩, -, hvalue⟩ := h
  exact ⟨hlen, hdigits, hvalue⟩

theorem segmentName_of_rawSplit {name : String} {n : Nat} (h : rawSplit name = some n) :
    ∃ base, SegmentName base n name := by
  simp only [rawSplit, Option.bind_eq_bind, Option.bind_eq_some_iff] at h
  obtain ⟨⟨before, ext⟩, hsplit, hnumber⟩ := h
  obtain ⟨hname, -⟩ := rsplitOnce_eq_some.mp hsplit
  obtain ⟨hlen, hdigits, hvalue⟩ := digits_of_segmentDigits hnumber
  exact ⟨String.ofList before, ext, by rw [hname, String.toList_ofList], hlen, hdigits, hvalue⟩

theorem digits_of_ewfSegment {name : String} {n : Nat} (h : ewfSegment name = some n) :
    ∃ start digits, asciiLower name.toList = start ++ digits ∧ digits.length = 2 ∧
      digits.all Char.isDigit = true := by
  simp only [ewfSegment, Option.bind_eq_bind, Option.bind_eq_some_iff,
    Option.ite_none_right_eq_some] at h
  obtain ⟨⟨before, ext⟩, hsplit, digits, hletters, htwo, hnumber⟩ := h
  obtain ⟨hname, -⟩ := rsplitOnce_eq_some.mp hsplit
  have hext : ∃ letters, asciiLower ext = letters ++ digits := by
    rcases (Option.orElse_eq_some _ _ _).mp hletters with hfirst | ⟨-, hrest⟩
    · exact ⟨_, append_of_stripPrefix hfirst⟩
    · rcases (Option.orElse_eq_some _ _ _).mp hrest with hsecond | ⟨-, hthird⟩
      · exact ⟨_, append_of_stripPrefix hsecond⟩
      · exact ⟨_, append_of_stripPrefix hthird⟩
  obtain ⟨letters, hext⟩ := hext
  refine ⟨asciiLower (before ++ ['.']) ++ letters, digits, ?_, htwo, (digits_of_segmentDigits hnumber).2.1⟩
  rw [hname, List.append_cons, asciiLower_append, hext, List.append_assoc]

theorem segmentNumber_unique {name : String} {kind kind' : SegmentKind} {m n : Nat}
    (h : segmentNumber name kind = some m) (h' : segmentNumber name kind' = some n) :
    kind = kind' := by
  have hraw : ∀ {k : Nat}, rawSplit name = some k → ewfSegment name = none ∧ vmdkSegment name = none := by
    intro k hk
    obtain ⟨base, hname⟩ := segmentName_of_rawSplit hk
    exact ⟨hname.ewfSegment_eq, hname.vmdkSegment_eq⟩
  have hewf : ∀ {k : Nat}, ewfSegment name = some k → vmdkSegment name = none := by
    intro k hk
    obtain ⟨start, digits, hlower, htwo, hdigits⟩ := digits_of_ewfSegment hk
    exact vmdkSegment_eq_none hlower (by omega) hdigits
  cases kind <;> cases kind' <;> simp only [segmentNumber] at h h' ⊢
  case ewf.splitRaw => simp [(hraw h').1] at h
  case ewf.splitVmdk => simp [hewf h] at h'
  case splitRaw.ewf => simp [(hraw h).1] at h'
  case splitRaw.splitVmdk => simp [(hraw h).2] at h'
  case splitVmdk.ewf => simp [hewf h'] at h
  case splitVmdk.splitRaw => simp [(hraw h').2] at h

theorem kind_unique {files : List (Nat × String)} {kind kind' : SegmentKind} (hsome : files ≠ [])
    (h : ∀ file ∈ files, ∃ n, segmentNumber file.2 kind = some n)
    (h' : ∀ file ∈ files, ∃ n, segmentNumber file.2 kind' = some n) : kind = kind' := by
  obtain ⟨file, hfile⟩ := List.exists_mem_of_ne_nil files hsome
  obtain ⟨m, hm⟩ := h file hfile
  obtain ⟨n, hn⟩ := h' file hfile
  exact segmentNumber_unique hm hn

theorem all_isSome_iff {files : List (Nat × String)} {kind : SegmentKind} :
    (files.all fun file => (segmentNumber file.2 kind).isSome) = true ↔
      ∀ file ∈ files, ∃ n, segmentNumber file.2 kind = some n := by
  simp only [List.all_eq_true, Option.isSome_iff_exists]

theorem classifySegmentKind_eq {files : List (Nat × String)} {kind : SegmentKind}
    (hsome : files ≠ []) (h : ∀ file ∈ files, ∃ n, segmentNumber file.2 kind = some n) :
    classifySegmentKind files = some kind := by
  have hpattern : (fun other : SegmentKind =>
      files.all fun file => (segmentNumber file.2 other).isSome) = fun other => decide (other = kind) := by
    funext other
    rw [Bool.eq_iff_iff, all_isSome_iff, decide_eq_true_eq]
    constructor
    · intro hother
      exact kind_unique hsome hother h
    · rintro rfl
      exact h
  rw [classifySegmentKind, hpattern]
  cases kind <;> rfl

theorem segmentNumber_eq_none {name : String} {kind other : SegmentKind} {n : Nat}
    (h : segmentNumber name kind = some n) (hother : kind ≠ other) : segmentNumber name other = none :=
  Option.eq_none_iff_forall_ne_some.mpr fun _ hm => hother (segmentNumber_unique h hm)

theorem segmentNumbers_length_le_one (name : String) :
    ([ewfSegment name, rawSplit name, vmdkSegment name].filter Option.isSome).length ≤ 1 := by
  change ([segmentNumber name .ewf, segmentNumber name .splitRaw,
    segmentNumber name .splitVmdk].filter Option.isSome).length ≤ 1
  cases hewf : segmentNumber name .ewf with
  | some m =>
    rw [segmentNumber_eq_none hewf (by decide : _ ≠ SegmentKind.splitRaw),
      segmentNumber_eq_none hewf (by decide : _ ≠ SegmentKind.splitVmdk)]
    exact le_rfl
  | none =>
    cases hraw : segmentNumber name .splitRaw with
    | some m =>
      rw [segmentNumber_eq_none hraw (by decide : _ ≠ SegmentKind.splitVmdk)]
      exact le_rfl
    | none => cases segmentNumber name .splitVmdk <;> simp

/-- One name has one number, one table one kind, and the kinds may be tried in any order. -/
theorem segment_patterns_disjoint (name : String) {files : List (Nat × String)} (hsome : files ≠ [])
    {order : List SegmentKind} (horder : order.Perm [.splitVmdk, .ewf, .splitRaw]) :
    ([ewfSegment name, rawSplit name, vmdkSegment name].filter Option.isSome).length ≤ 1 ∧
      (∀ kind kind', (∀ file ∈ files, ∃ n, segmentNumber file.2 kind = some n) →
        (∀ file ∈ files, ∃ n, segmentNumber file.2 kind' = some n) → kind = kind') ∧
      (order.find? fun kind => files.all fun file => (segmentNumber file.2 kind).isSome) =
        classifySegmentKind files := by
  refine ⟨segmentNumbers_length_le_one name, fun _ _ => kind_unique hsome, ?_⟩
  apply List.find?_eq_find?_of_perm horder
  rintro kind ⟨-, hkind⟩ kind' ⟨-, hkind'⟩
  exact kind_unique hsome (all_isSome_iff.mp hkind) (all_isSome_iff.mp hkind')

theorem segment_patterns_disjoint_extents :
    ([ewfSegment "e01.s02-s003.vmdk", rawSplit "e01.s02-s003.vmdk",
        vmdkSegment "e01.s02-s003.vmdk"].filter Option.isSome).length ≤ 1 ∧
      ([SegmentKind.splitRaw, .ewf, .splitVmdk].find? fun kind =>
        [(0, "e01.s02-s003.vmdk")].all fun file => (segmentNumber file.2 kind).isSome) =
          classifySegmentKind [(0, "e01.s02-s003.vmdk")] := by
  have hall := segment_patterns_disjoint "e01.s02-s003.vmdk" (List.cons_ne_nil (0, "e01.s02-s003.vmdk") [])
    (by decide : [SegmentKind.splitRaw, .ewf, .splitVmdk].Perm [.splitVmdk, .ewf, .splitRaw])
  exact ⟨hall.1, hall.2.2⟩

theorem classify_of_segmentNames (base : String) {files : List (Nat × String)}
    (hsome : files ≠ [])
    (hnames : ∀ file ∈ files, ∃ n ≤ wordMax, SegmentName base n file.2) :
    classifySegmentKind files = some .splitRaw := by
  apply classifySegmentKind_eq hsome
  intro file hfile
  obtain ⟨n, hn, hname⟩ := hnames file hfile
  exact ⟨n, hname.rawSplit_eq hn⟩

/-- The files that match a pattern, with their numbers. -/
def numbered (files : List (Nat × String)) (kind : SegmentKind) : List (Nat × String × Nat) :=
  files.filterMap fun file => (segmentNumber file.2 kind).map fun seg => (file.1, file.2, seg)

theorem numbered_cons {file : Nat × String} {files : List (Nat × String)} {kind : SegmentKind} {n : Nat}
    (h : segmentNumber file.2 kind = some n) :
    numbered (file :: files) kind = (file.1, file.2, n) :: numbered files kind := by
  rw [numbered, List.filterMap_cons, h]
  rfl

theorem orderSegments_eq (files : List (Nat × String)) (kind : SegmentKind) :
    orderSegments files kind = (numbered files kind).mergeSort (keyLE fun file => file.2.2) := rfl

theorem orderSegments_perm (files : List (Nat × String)) (kind : SegmentKind) :
    (orderSegments files kind).Perm (numbered files kind) :=
  List.mergeSort_perm _ _

theorem orderSegments_sorted (files : List (Nat × String)) (kind : SegmentKind) :
    (orderSegments files kind).Pairwise fun a b => a.2.2 ≤ b.2.2 :=
  mergeSort_sorted _ _

theorem numbered_forall₂ {r : Nat × String → Nat → Prop} {base : String} {first k : Nat}
    {files : List (Nat × String)} {order : List Nat} (hwords : first + k ≤ wordMax)
    (horder : ∀ j ∈ order, j < k)
    (hfiles : List.Forall₂ (fun file j => SegmentName base (first + j) file.2 ∧ r file j) files order) :
    List.Forall₂ (fun (file : Nat × String × Nat) j => file.2.2 = first + j ∧ r (file.1, file.2.1) j)
      (numbered files .splitRaw) order := by
  induction hfiles with
  | nil => exact .nil
  | @cons file j files order hfile _ ih =>
    have hj := horder j List.mem_cons_self
    have hnumber : segmentNumber file.2 .splitRaw = some (first + j) :=
      hfile.1.rawSplit_eq (by omega)
    rw [numbered_cons hnumber]
    exact .cons ⟨rfl, hfile.2⟩ (ih fun i hi => horder i (List.mem_cons_of_mem _ hi))

theorem index_unique {r : Nat × String → Nat → Prop} {base name : String} {first k i j : Nat}
    {files : List (Nat × String)} {order : List Nat} (hwords : first + k ≤ wordMax)
    (horder : order.Perm (List.range k))
    (hfiles : List.Forall₂ (fun file j => SegmentName base (first + j) file.2 ∧ r file j) files order)
    (hi : (i, name) ∈ files) (hj : (j, name) ∈ files) : i = j := by
  obtain ⟨m, hm, hget⟩ := List.mem_iff_getElem.mp hi
  obtain ⟨m', hm', hget'⟩ := List.mem_iff_getElem.mp hj
  have hlen := hfiles.length_eq
  have hnumber : ∀ m (hm : m < files.length), rawSplit (files[m]).2 = some (first + order[m]) := by
    intro m hm
    have hlt := List.mem_range.mp (horder.mem_iff.mp (List.getElem_mem (hlen ▸ hm)))
    exact (hfiles.get hm (hlen ▸ hm)).1.rawSplit_eq (by simp only [List.get_eq_getElem]; omega)
  have hsame := (hnumber m hm).symm.trans ((by rw [hget, hget'] : _ = _).trans (hnumber m' hm'))
  have hentry : order[m] = order[m'] := Nat.add_left_cancel (Option.some.inj hsame)
  have hnodup : order.Nodup := horder.nodup_iff.mpr List.nodup_range
  obtain rfl := (hnodup.getElem_inj_iff).mp hentry
  rw [hget] at hget'
  exact congrArg Prod.fst hget'

theorem orderSegments_forall₂ {r : Nat × String → Nat → Prop} {base : String} {first k : Nat}
    {files : List (Nat × String)} {order : List Nat} (hwords : first + k ≤ wordMax)
    (horder : order.Perm (List.range k))
    (hfiles : List.Forall₂ (fun file j => SegmentName base (first + j) file.2 ∧ r file j) files order) :
    List.Forall₂ (fun (file : Nat × String × Nat) j => r (file.1, file.2.1) j)
      (orderSegments files .splitRaw) (List.range k) := by
  have hnumbered := numbered_forall₂ hwords
    (fun j hj => List.mem_range.mp (horder.mem_iff.mp hj)) hfiles
  obtain ⟨sorted, hsorted, hperm⟩ :=
    List.perm_comp_forall₂ (orderSegments_perm files .splitRaw) hnumbered
  have hnumbers : (orderSegments files .splitRaw).map (fun file => file.2.2) =
      sorted.map (first + ·) := by
    rw [← List.forall₂_eq_eq_eq, List.forall₂_map_left_iff, List.forall₂_map_right_iff]
    exact hsorted.imp fun _ _ h => h.1
  have hpairs : sorted.Pairwise (· ≤ ·) := by
    have hmapped := List.pairwise_map.mpr (orderSegments_sorted files .splitRaw)
    rw [hnumbers, List.pairwise_map] at hmapped
    exact hmapped.imp fun h => Nat.le_of_add_le_add_left h
  have hrange : sorted = List.range k :=
    List.Perm.eq_of_pairwise' hpairs List.pairwise_le_range (hperm.trans horder)
  subst hrange
  exact hsorted.imp fun _ _ h => h.2

end ArchiveCore
