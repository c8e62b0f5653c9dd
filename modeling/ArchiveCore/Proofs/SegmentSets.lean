import ArchiveCore.Proofs.Handles
import ArchiveCore.Proofs.Routes
import ArchiveCore.Proofs.SegmentNames

/-!
# What a segment set is made of

A set is planned from the pattern of the names alone: every file of the table matches one
pattern, and the files are listed by number. Nothing relates the names to each other, so a
set can mix images, repeat a number or leave one out.
-/

namespace ArchiveCore

open Framework

/-- A name without its segment suffix, as the suffix parser splits it off. -/
def segmentBase (name : String) : SegmentKind → Option (List Char)
  | .ewf | .splitRaw => (rsplitOnce ['.'] name.toList).map Prod.fst
  | .splitVmdk => do
    let stem ← stripSuffix (asciiLower name.toList) ".vmdk".toList
    (rsplitOnce ['-', 's'] stem).map Prod.fst

def OneBase (kind : SegmentKind) (members : List Segment) : Prop :=
  ∃ base, ∀ seg ∈ members, segmentBase seg.name kind = some base

def segmentNumbers (kind : SegmentKind) (members : List Segment) : List Nat :=
  members.filterMap fun seg => segmentNumber seg.name kind

/-- Whatever lies between two of the numbers is one of them. -/
def Gapless (numbers : List Nat) : Prop :=
  ∀ first ∈ numbers, ∀ last ∈ numbers, ∀ n, first ≤ n → n ≤ last → n ∈ numbers

/-- All the files of the table, every one of the kind, in the order of their numbers. -/
structure UniformSet (archive : Archive) (kind : SegmentKind) (members : List Segment) : Prop where
  several : 2 ≤ members.length
  files : (members.map fun seg => (seg.index, seg.name)).Perm (fileMembers archive.entries)
  ordered : ∃ numbers, List.Forall₂ (fun seg n => segmentNumber seg.name kind = some n)
    members numbers ∧ numbers.Pairwise (· ≤ ·)

theorem classifySegmentKind_eq_some {files : List (Nat × String)} {kind : SegmentKind}
    (h : classifySegmentKind files = some kind) :
    ∀ file ∈ files, ∃ n, segmentNumber file.2 kind = some n := by
  intro file hfile
  have hall := List.find?_some h
  exact Option.isSome_iff_exists.mp (List.all_eq_true.mp hall file hfile)

theorem orderSegments_files {files : List (Nat × String)} {kind : SegmentKind}
    (h : ∀ file ∈ files, ∃ n, segmentNumber file.2 kind = some n) :
    ((orderSegments files kind).map fun file => (file.1, file.2.1)).Perm files := by
  have hkept : (numbered files kind).map (fun file => (file.1, file.2.1)) = files := by
    induction files with
    | nil => rfl
    | cons file files ih =>
      obtain ⟨n, hn⟩ := h file List.mem_cons_self
      rw [numbered_cons hn]
      exact congrArg (file :: ·) (ih fun f hf => h f (List.mem_cons_of_mem _ hf))
  exact ((orderSegments_perm files kind).map _).trans (List.Perm.of_eq hkept)

theorem uniformSet_of_detect {B : Backends} {data : Bytes} {format : Format}
    {members : List Segment} {kind : SegmentKind}
    (h : detect B data = .ok (.segmentSet format members kind)) :
    ∃ archive, Archive.openWithFormat B format data = .ok (some archive) ∧
      UniformSet archive kind members := by
  obtain ⟨archive, hopen, hcount, hclass, hmembers⟩ := segmentSet_of_detect h
  have hpairs := mapM_eq_ok.mp hmembers
  have hlisted : List.Forall₂ (fun (file : Nat × String × Nat) seg =>
      seg.index = file.1 ∧ seg.name = file.2.1) (orderSegments (fileMembers archive.entries) kind)
        members := by
    apply hpairs.imp
    intro file seg hseg
    simp only [segmentOf, bind_eq_ok, pure_eq_ok] at hseg
    obtain ⟨access, -, rfl⟩ := hseg
    exact ⟨rfl, rfl⟩
  have hnames : members.map (fun seg => (seg.index, seg.name)) =
      (orderSegments (fileMembers archive.entries) kind).map fun file => (file.1, file.2.1) := by
    rw [← List.forall₂_eq_eq_eq, List.forall₂_map_left_iff, List.forall₂_map_right_iff]
    exact hlisted.flip.imp fun seg file hseg => by rw [hseg.1, hseg.2]
  have hfiles : (members.map fun seg => (seg.index, seg.name)).Perm (fileMembers archive.entries) := by
    rw [hnames]
    exact orderSegments_files (classifySegmentKind_eq_some hclass)
  refine ⟨archive, hopen, ⟨?_, hfiles, ?_⟩⟩
  · have hlen := hfiles.length_eq
    rw [List.length_map] at hlen
    omega
  · refine ⟨(orderSegments (fileMembers archive.entries) kind).map fun file => file.2.2, ?_,
      List.pairwise_map.mpr (orderSegments_sorted _ _)⟩
    rw [List.forall₂_map_right_iff]
    have hmem : ∀ file ∈ orderSegments (fileMembers archive.entries) kind,
        segmentNumber file.2.1 kind = some file.2.2 := fun _ hfile => (mem_orderSegments.mp hfile).2
    refine (List.forall₂_and_left _ _ |>.mpr ⟨hmem, hlisted⟩).flip.imp fun seg file hseg => ?_
    rw [hseg.2.2, hseg.1]

theorem segmentSources_eq_some {B : Backends} {data : Bytes} {limits : Limits}
    {ss : SegmentSources} :
    segmentSources B data limits = .ok (some ss) ↔
      ∃ members, detect B data = .ok (.segmentSet ss.format members ss.kind) ∧
        members.mapM (fun seg =>
          executeMemberAccess B ss.format data seg.index seg.name seg.access limits) =
            .ok ss.sources := by
  simp only [segmentSources, bind_eq_ok]
  constructor
  · intro h
    obtain ⟨plan, hplan, h⟩ := h
    cases plan with
    | segmentSet format members kind =>
      simp only [bind_eq_ok, pure_eq_ok, Option.some.injEq] at h
      obtain ⟨sources, hsources, rfl⟩ := h
      exact ⟨members, hplan, hsources⟩
    | direct => cases h
    | wrapper codec access => cases h
    | member format index name access => cases h
    | collection format => cases h
  · intro h
    obtain ⟨members, hplan, hsources⟩ := h
    exact ⟨_, hplan, by simp [hsources]⟩

theorem reassemble_splitRaw {B : Backends} {data : Bytes} {limits : Limits} {ss : SegmentSources}
    (hss : segmentSources B data limits = .ok (some ss)) (hkind : ss.kind = .splitRaw) :
    reassemble B data limits = .ok (.concat (ConcatSource.new ss.sources)) := by
  simp [reassemble, hss, hkind]

/-- Whatever is reassembled is made of the sources of a segment set: a raw split is stitched,
any other set is handed out as it is. -/
theorem segmentSources_of_reassemble {B : Backends} {data : Bytes} {limits : Limits}
    {result : Reassembled} (h : reassemble B data limits = .ok result)
    (hone : result ≠ .notSegmented) :
    ∃ ss, segmentSources B data limits = .ok (some ss) ∧
      (ss.kind = .splitRaw ∧ result = .concat (ConcatSource.new ss.sources) ∨
        ss.kind ≠ .splitRaw ∧ result = .segments ss) := by
  simp only [reassemble, bind_eq_ok] at h
  obtain ⟨sources, hsources, h⟩ := h
  cases sources with
  | none => exact absurd (Except.ok.inj h).symm hone
  | some ss =>
    refine ⟨ss, hsources, ?_⟩
    cases hkind : ss.kind <;> simp only [hkind] at h
    case splitRaw => exact .inl ⟨rfl, (Except.ok.inj h).symm⟩
    all_goals exact .inr ⟨by simp, (Except.ok.inj h).symm⟩

/-- What is stitched or handed out is a whole table of one kind, opened segment by segment in
the order of its numbers; a table that does not match one kind is never stitched. -/
theorem stitched_uniform (B : Backends) (data : Bytes) (limits : Limits) :
    (∀ format members kind, detect B data = .ok (.segmentSet format members kind) →
      ∃ archive, Archive.openWithFormat B format data = .ok (some archive) ∧
        UniformSet archive kind members) ∧
    ∀ result, reassemble B data limits = .ok result → result ≠ .notSegmented →
      ∃ format members kind archive sources,
        detect B data = .ok (.segmentSet format members kind) ∧
        Archive.openWithFormat B format data = .ok (some archive) ∧
        UniformSet archive kind members ∧
        List.Forall₂ (fun seg source =>
          executeMemberAccess B format data seg.index seg.name seg.access limits = .ok source)
          members sources ∧
        (kind = .splitRaw ∧ result = .concat (ConcatSource.new sources) ∨
          kind ≠ .splitRaw ∧ result = .segments ⟨format, kind, sources⟩) := by
  refine ⟨fun format members kind h => uniformSet_of_detect h, fun result h hone => ?_⟩
  obtain ⟨ss, hsources, hresult⟩ := segmentSources_of_reassemble h hone
  obtain ⟨members, hdetect, hopens⟩ := segmentSources_eq_some.mp hsources
  obtain ⟨archive, hopen, huniform⟩ := uniformSet_of_detect hdetect
  exact ⟨ss.format, members, ss.kind, archive, ss.sources, hdetect, hopen, huniform,
    mapM_eq_ok.mp hopens, hresult⟩

theorem detect_zipReaders {image : Bytes} {members : List ZipFile} {kind : SegmentKind}
    {files : List (Nat × String)} {ordered : List (Nat × String × Nat)} {segs : List Segment}
    (hordered : orderSegments files kind = ordered) (hsniff : sniff none image = .zip)
    (hfiles : fileMembers (members.map fun zf => ⟨zf.name, zf.size, zf.isDir⟩) = files)
    (hcount : 2 ≤ files.length) (hclass : classifySegmentKind files = some kind)
    (hsegs : ordered.mapM (segmentOf
      ⟨.zip, members.map fun zf => ⟨zf.name, zf.size, zf.isDir⟩, .zip (zipOf members)⟩) = .ok segs) :
    detect (zipReaders image members) image = .ok (.segmentSet .zip segs kind) := by
  subst hfiles hordered
  rw [detect, hsniff]
  exact detectArchive_eq_segmentSet.mpr
    ⟨rfl, _, Archive.openWithFormat_zipReaders _ _, hcount, hclass, hsegs⟩

/-- The first segment of one image, and the first and the fourth of another. -/
def strayZip : Bytes := [
  0x50, 0x4B, 0x03, 0x04, 0x14, 0x00, 0x00, 0x00, 0x00, 0x00, 0x00, 0x00, 0x21, 0x00, 0x8B, 0x9E,
  0xD9, 0xD3, 0x01, 0x00, 0x00, 0x00, 0x01, 0x00, 0x00, 0x00, 0x05, 0x00, 0x00, 0x00, 0x61, 0x2E,
  0x30, 0x30, 0x31, 0x41, 0x50, 0x4B, 0x03, 0x04, 0x14, 0x00, 0x00, 0x00, 0x00, 0x00, 0x00, 0x00,
  0x21, 0x00, 0x31, 0xCF, 0xD0, 0x4A, 0x01, 0x00, 0x00, 0x00, 0x01, 0x00, 0x00, 0x00, 0x05, 0x00,
  0x00, 0x00, 0x62, 0x2E, 0x30, 0x30, 0x31, 0x42, 0x50, 0x4B, 0x03, 0x04, 0x14, 0x00, 0x00, 0x00,
  0x00, 0x00, 0x00, 0x00, 0x21, 0x00, 0xB0, 0x8B, 0x3C, 0xEB, 0x02, 0x00, 0x00, 0x00, 0x02, 0x00,
  0x00, 0x00, 0x05, 0x00, 0x00, 0x00, 0x62, 0x2E, 0x30, 0x30, 0x34, 0x43, 0x44, 0x50, 0x4B, 0x01,
  0x02, 0x14, 0x03, 0x14, 0x00, 0x00, 0x00, 0x00, 0x00, 0x00, 0x00, 0x21, 0x00, 0x8B, 0x9E, 0xD9,
  0xD3, 0x01, 0x00, 0x00, 0x00, 0x01, 0x00, 0x00, 0x00, 0x05, 0x00, 0x00, 0x00, 0x00, 0x00, 0x00,
  0x00, 0x00, 0x00, 0x00, 0x00, 0x80, 0x01, 0x00, 0x00, 0x00, 0x00, 0x61, 0x2E, 0x30, 0x30, 0x31,
  0x50, 0x4B, 0x01, 0x02, 0x14, 0x03, 0x14, 0x00, 0x00, 0x00, 0x00, 0x00, 0x00, 0x00, 0x21, 0x00,
  0x31, 0xCF, 0xD0, 0x4A, 0x01, 0x00, 0x00, 0x00, 0x01, 0x00, 0x00, 0x00, 0x05, 0x00, 0x00, 0x00,
  0x00, 0x00, 0x00, 0x00, 0x00, 0x00, 0x00, 0x00, 0x80, 0x01, 0x24, 0x00, 0x00, 0x00, 0x62, 0x2E,
  0x30, 0x30, 0x31, 0x50, 0x4B, 0x01, 0x02, 0x14, 0x03, 0x14, 0x00, 0x00, 0x00, 0x00, 0x00, 0x00,
  0x00, 0x21, 0x00, 0xB0, 0x8B, 0x3C, 0xEB, 0x02, 0x00, 0x00, 0x00, 0x02, 0x00, 0x00, 0x00, 0x05,
  0x00, 0x00, 0x00, 0x00, 0x00, 0x00, 0x00, 0x00, 0x00, 0x00, 0x00, 0x80, 0x01, 0x48, 0x00, 0x00,
  0x00, 0x62, 0x2E, 0x30, 0x30, 0x34, 0x50, 0x4B, 0x05, 0x06, 0x00, 0x00, 0x00, 0x00, 0x03, 0x00,
  0x03, 0x00, 0x99, 0x00, 0x00, 0x00, 0x6D, 0x00, 0x00, 0x00, 0x00, 0x00]

def strayReaders : Backends :=
  zipReaders strayZip
    [storedFile "a.001" 35 [0x41], storedFile "b.001" 71 [0x42],
      storedFile "b.004" 107 [0x43, 0x44]]

def strayMembers : List Segment :=
  [⟨"a.001", 0, .inPlace 35 1⟩, ⟨"b.001", 1, .inPlace 71 1⟩, ⟨"b.004", 2, .inPlace 107 2⟩]

theorem strayZip_plan :
    detect strayReaders strayZip = .ok (.segmentSet .zip strayMembers .splitRaw) := by
  have hordered : orderSegments [(0, "a.001"), (1, "b.001"), (2, "b.004")] .splitRaw =
      [(0, "a.001", 1), (1, "b.001", 1), (2, "b.004", 4)] :=
    List.mergeSort_of_pairwise (by decide)
  exact detect_zipReaders hordered (by decide +kernel) rfl (by decide) (by decide) rfl

/-- Segments of two images, two of them with one number and two others with a gap between
them, are stitched. -/
theorem strayZip_stitched :
    detect strayReaders strayZip = .ok (.segmentSet .zip strayMembers .splitRaw) ∧
      (∃ c, reassemble strayReaders strayZip Limits.default = .ok (.concat c)) ∧
      ¬ OneBase .splitRaw strayMembers ∧ ¬ (segmentNumbers .splitRaw strayMembers).Nodup ∧
      ¬ Gapless (segmentNumbers .splitRaw strayMembers) := by
  have hnumbers : segmentNumbers .splitRaw strayMembers = [1, 1, 4] := by decide
  refine ⟨strayZip_plan, ?_, ?_, ?_, ?_⟩
  · have hwindow : ∀ seg ∈ strayMembers, ∃ source, executeMemberAccess strayReaders .zip strayZip
        seg.index seg.name seg.access Limits.default = .ok source := by
      have hroute : ∀ seg ∈ strayMembers, ∃ offset len,
          WindowRoute strayZip Limits.default seg.access offset len :=
        List.forall_mem_cons.mpr
          ⟨⟨_, _, rfl, by decide, by decide, by decide +kernel⟩, List.forall_mem_cons.mpr
            ⟨⟨_, _, rfl, by decide, by decide, by decide +kernel⟩, List.forall_mem_cons.mpr
              ⟨⟨_, _, rfl, by decide, by decide, by decide +kernel⟩, by simp⟩⟩⟩
      intro seg hseg
      obtain ⟨offset, len, hwindow⟩ := hroute seg hseg
      exact ⟨_, hwindow.opened⟩
    obtain ⟨sources, hsources⟩ := exists_mapM_eq_ok hwindow
    exact ⟨ConcatSource.new sources, by simp [reassemble, segmentSources, strayZip_plan, hsources]⟩
  · intro h
    obtain ⟨base, hbase⟩ := h
    have hfirst := hbase ⟨"a.001", 0, .inPlace 35 1⟩ (by decide)
    have hsecond := hbase ⟨"b.001", 1, .inPlace 71 1⟩ (by decide)
    exact absurd (hfirst.trans hsecond.symm) (by decide)
  · rw [hnumbers]
    decide
  · intro hgapless
    rw [hnumbers] at hgapless
    exact absurd (hgapless 1 (by decide) 4 (by decide) 2 (by decide) (by decide)) (by decide)

theorem stitched_uniform_strayZip :
    ∃ archive, Archive.openWithFormat strayReaders .zip strayZip = .ok (some archive) ∧
      UniformSet archive .splitRaw strayMembers :=
  (stitched_uniform strayReaders strayZip Limits.default).1 _ _ _ strayZip_plan

end ArchiveCore
