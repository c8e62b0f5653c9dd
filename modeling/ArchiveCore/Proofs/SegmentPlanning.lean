import ArchiveCore.Proofs.SegmentSets

/-!
# A planned set is the table, in order

Directories are left out, every name is parsed a second time and the files are sorted, yet
each segment keeps its own place in the table. Segments of one number stay in table order;
without such segments the order of the table does not matter.
-/

namespace ArchiveCore

open Framework

/-- The table planning reads: that of the archive, or of the tar in a bare wrapper. -/
inductive ReadsTable (B : Backends) (data : Bytes) : Format → Prop
  | bare {format : Format} (hs : sniff none data = format) (ha : format.isArchive = true) :
      ReadsTable B data format
  | gzip {head : Bytes} (hs : sniff none data = .gzip) (hp : peekHead B .gzip data = .ok head)
      (ht : sniff none head = .tar) : ReadsTable B data .tarGz
  | bzip2 {head : Bytes} (hs : sniff none data = .bzip2) (hp : peekHead B .bzip2 data = .ok head)
      (ht : sniff none head = .tar) : ReadsTable B data .tarBz2

theorem detect_of_readsTable {B : Backends} {data : Bytes} {format : Format}
    (h : ReadsTable B data format) : detect B data = detectArchive B format data := by
  cases h with
  | bare hs ha => cases format <;> simp [Format.isArchive] at ha <;> rw [detect, hs]
  | gzip hs hp ht =>
    rw [detect, hs]
    exact detectWrapper_of_tar hp ht
  | bzip2 hs hp ht =>
    rw [detect, hs]
    exact detectWrapper_of_tar hp ht

/-- The lower number first, and of one number the one that is listed first. -/
def Before (kind : SegmentKind) (a b : Segment) : Prop :=
  ∃ m n, segmentNumber a.name kind = some m ∧ segmentNumber b.name kind = some n ∧
    (m < n ∨ m = n ∧ a.index < b.index)

/-- Exactly the files of the table, each at its own place, with its own name and route. -/
structure PlannedSet (archive : Archive) (kind : SegmentKind) (members : List Segment) : Prop where
  files : (members.map fun seg => (seg.index, seg.name)).Perm (fileMembers archive.entries)
  access : ∀ seg ∈ members, archive.memberAccess seg.index = .ok seg.access
  ordered : members.Pairwise (Before kind)

theorem fileMembers_pairwise (entries : List ArchiveEntry) :
    (fileMembers entries).Pairwise fun a b => a.1 < b.1 := by
  rw [fileMembers, List.pairwise_map]
  exact (zipIdx_pairwise_lt entries).filter _

theorem fileMembers_names (entries : List ArchiveEntry) :
    (fileMembers entries).map Prod.snd =
      (entries.filter fun e => !e.isDir).map ArchiveEntry.name := by
  have hentries : entries.zipIdx.map Prod.fst = entries := List.zipIdx_map_fst 0 entries
  conv_rhs => rw [← hentries, List.filter_map]
  rw [fileMembers, List.map_map, List.map_map]
  rfl

theorem orderSegments_before (entries : List ArchiveEntry) (kind : SegmentKind) :
    (orderSegments (fileMembers entries) kind).Pairwise fun a b =>
      a.2.2 < b.2.2 ∨ a.2.2 = b.2.2 ∧ a.1 < b.1 := by
  rw [orderSegments_eq]
  apply mergeSort_stable
  rw [numbered, List.pairwise_filterMap]
  apply (fileMembers_pairwise entries).imp
  intro a b hab x hx y hy
  obtain ⟨_, -, rfl⟩ := Option.map_eq_some_iff.mp hx
  obtain ⟨_, -, rfl⟩ := Option.map_eq_some_iff.mp hy
  exact hab

theorem plannedSet_of_segments {archive : Archive} {kind : SegmentKind} {members : List Segment}
    (hkind : ∀ file ∈ fileMembers archive.entries, ∃ n, segmentNumber file.2 kind = some n)
    (hmembers : (orderSegments (fileMembers archive.entries) kind).mapM (segmentOf archive) =
      .ok members) : PlannedSet archive kind members := by
  have hpairs : List.Forall₂ (fun (file : Nat × String × Nat) seg =>
      segmentNumber file.2.1 kind = some file.2.2 ∧ seg.index = file.1 ∧ seg.name = file.2.1 ∧
        archive.memberAccess seg.index = .ok seg.access)
      (orderSegments (fileMembers archive.entries) kind) members := by
    refine (List.forall₂_and_left _ _ |>.mpr
      ⟨fun file hfile => (mem_orderSegments.mp hfile).2, mapM_eq_ok.mp hmembers⟩).imp ?_
    intro file seg h
    obtain ⟨hnumber, hseg⟩ := h
    simp only [segmentOf, bind_eq_ok, pure_eq_ok] at hseg
    obtain ⟨access, haccess, rfl⟩ := hseg
    exact ⟨hnumber, rfl, rfl, haccess⟩
  have hfiles : members.map (fun seg => (seg.index, seg.name)) =
      (orderSegments (fileMembers archive.entries) kind).map fun file => (file.1, file.2.1) := by
    rw [← List.forall₂_eq_eq_eq, List.forall₂_map_left_iff, List.forall₂_map_right_iff]
    exact hpairs.flip.imp fun seg file h => by rw [h.2.1, h.2.2.1]
  refine ⟨?_, ?_, ?_⟩
  · rw [hfiles]
    exact orderSegments_files hkind
  · intro seg hseg
    obtain ⟨i, hi, rfl⟩ := List.mem_iff_getElem.mp hseg
    exact (hpairs.get (hpairs.length_eq ▸ hi) hi).2.2.2
  · rw [List.pairwise_iff_getElem]
    intro i j hi hj hij
    have hlen := hpairs.length_eq
    have ha := hpairs.get (hlen ▸ hi) hi
    have hb := hpairs.get (hlen ▸ hj) hj
    simp only [List.get_eq_getElem] at ha hb
    have hbefore := List.pairwise_iff_getElem.mp (orderSegments_before archive.entries kind) i j
      (hlen ▸ hi) (hlen ▸ hj) hij
    refine ⟨_, _, ha.2.2.1 ▸ ha.1, hb.2.2.1 ▸ hb.1, ?_⟩
    rw [ha.2.1, hb.2.1]
    exact hbefore

theorem PlannedSet.names_eq {archive archive' : Archive} {kind : SegmentKind}
    {members members' : List Segment} (h : PlannedSet archive kind members)
    (h' : PlannedSet archive' kind members') (hperm : archive'.entries.Perm archive.entries)
    (hkind : ∀ file ∈ fileMembers archive.entries, ∃ n, segmentNumber file.2 kind = some n)
    (hdistinct : (fileMembers archive.entries).Pairwise fun a b =>
      segmentNumber a.2 kind ≠ segmentNumber b.2 kind) :
    members'.map Segment.name = members.map Segment.name := by
  have hnames : ∀ {a : Archive} {segs : List Segment}, PlannedSet a kind segs →
      (segs.map Segment.name).Perm ((a.entries.filter fun e => !e.isDir).map ArchiveEntry.name) := by
    intro a segs hset
    have hfiles := hset.files.map Prod.snd
    rwa [List.map_map, fileMembers_names] at hfiles
  have hsorted : ∀ {a : Archive} {segs : List Segment}, PlannedSet a kind segs →
      (segs.map Segment.name).Pairwise fun x y =>
        (segmentNumber x kind).getD 0 ≤ (segmentNumber y kind).getD 0 := by
    intro a segs hset
    rw [List.pairwise_map]
    apply hset.ordered.imp
    intro x y hxy
    obtain ⟨m, n, hm, hn, hle⟩ := hxy
    rw [hm, hn, Option.getD_some, Option.getD_some]
    omega
  have hsame := (hnames h').trans (((hperm.filter _).map _).trans (hnames h).symm)
  refine (eq_of_perm_of_sorted (fun name => (segmentNumber name kind).getD 0) hsame.symm (hsorted h)
    (hsorted h') ?_).symm
  have htable : ((fileMembers archive.entries).map fun file =>
      (segmentNumber file.2 kind).getD 0).Nodup := by
    rw [List.Nodup, List.pairwise_map]
    apply hdistinct.imp_of_mem
    intro a b ha hb hne heq
    obtain ⟨m, hm⟩ := hkind a ha
    obtain ⟨n, hn⟩ := hkind b hb
    rw [hm, hn] at hne heq
    exact hne (congrArg some heq)
  have hmoved : ((members.map Segment.name).map fun name => (segmentNumber name kind).getD 0).Perm
      ((fileMembers archive.entries).map fun file => (segmentNumber file.2 kind).getD 0) := by
    have hkeys := h.files.map fun file : Nat × String => (segmentNumber file.2 kind).getD 0
    rw [List.map_map] at hkeys ⊢
    exact hkeys
  exact hmoved.nodup_iff.mpr htable

theorem plannedSet_of_table {B : Backends} {data : Bytes} {format : Format} {archive : Archive}
    {kind : SegmentKind} (hreads : ReadsTable B data format)
    (hopen : Archive.openWithFormat B format data = .ok (some archive))
    (hcount : 2 ≤ (fileMembers archive.entries).length)
    (hkind : ∀ file ∈ fileMembers archive.entries, ∃ n, segmentNumber file.2 kind = some n) :
    ∃ members, detect B data = .ok (.segmentSet format members kind) ∧
      PlannedSet archive kind members := by
  obtain ⟨members, hmembers⟩ := exists_segments hopen kind
  have hsome : fileMembers archive.entries ≠ [] := List.ne_nil_of_length_pos (by omega)
  have hclass := classifySegmentKind_eq hsome hkind
  rw [detect_of_readsTable hreads]
  exact ⟨members, detectArchive_eq_segmentSet.mpr ⟨rfl, archive, hopen, hcount, hclass, hmembers⟩,
    plannedSet_of_segments hkind hmembers⟩

/-- A table of two files or more of one pattern is planned as exactly its files, in order,
and a table of the same entries in another order, no number being shared, by the same names. -/
theorem segment_planning {B : Backends} {data : Bytes} {format : Format} {archive : Archive}
    {kind : SegmentKind} (hreads : ReadsTable B data format)
    (hopen : Archive.openWithFormat B format data = .ok (some archive))
    (hcount : 2 ≤ (fileMembers archive.entries).length)
    (hkind : ∀ file ∈ fileMembers archive.entries, ∃ n, segmentNumber file.2 kind = some n) :
    ∃ members, detect B data = .ok (.segmentSet format members kind) ∧
      PlannedSet archive kind members ∧
      ∀ B' data' format' archive', ReadsTable B' data' format' →
        Archive.openWithFormat B' format' data' = .ok (some archive') →
        archive'.entries.Perm archive.entries →
        ((fileMembers archive.entries).Pairwise fun a b =>
          segmentNumber a.2 kind ≠ segmentNumber b.2 kind) →
        ∃ members', detect B' data' = .ok (.segmentSet format' members' kind) ∧
          members'.map Segment.name = members.map Segment.name := by
  obtain ⟨members, hplan, hset⟩ := plannedSet_of_table hreads hopen hcount hkind
  refine ⟨members, hplan, hset, ?_⟩
  intro B' data' format' archive' hreads' hopen' hperm hdistinct
  have hnames : ((fileMembers archive'.entries).map Prod.snd).Perm
      ((fileMembers archive.entries).map Prod.snd) := by
    rw [fileMembers_names, fileMembers_names]
    exact (hperm.filter _).map _
  have hcount' : 2 ≤ (fileMembers archive'.entries).length := by
    have hlen := hnames.length_eq
    rw [List.length_map, List.length_map] at hlen
    omega
  have hkind' : ∀ file ∈ fileMembers archive'.entries, ∃ n, segmentNumber file.2 kind = some n := by
    intro file hfile
    obtain ⟨other, hother, hname⟩ := List.mem_map.mp
      (hnames.mem_iff.mp (List.mem_map_of_mem (f := Prod.snd) hfile))
    rw [← hname]
    exact hkind other hother
  obtain ⟨members', hplan', hset'⟩ := plannedSet_of_table hreads' hopen' hcount' hkind'
  exact ⟨members', hplan', hset.names_eq hset' hperm hkind hdistinct⟩

/-- The two segments of an image, stored in reverse. -/
theorem segment_planning_splitZip :
    ∃ archive members, Archive.openWithFormat splitReaders .zip splitZip = .ok (some archive) ∧
      detect splitReaders splitZip = .ok (.segmentSet .zip members .splitRaw) ∧
      PlannedSet archive .splitRaw members := by
  have hopen := Archive.openWithFormat_zipReaders splitZip
    [storedFile "a.002" 35 [0x42, 0x43], storedFile "a.001" 72 [0x41]]
  have hkind : ∀ file ∈ [(0, "a.002"), (1, "a.001")], ∃ n, segmentNumber file.2 .splitRaw = some n :=
    List.forall_mem_cons.mpr ⟨⟨2, by decide⟩, List.forall_mem_cons.mpr ⟨⟨1, by decide⟩, by simp⟩⟩
  obtain ⟨members, hplan, hset, -⟩ :=
    segment_planning (.bare (by decide +kernel) rfl) hopen (by decide) hkind
  exact ⟨_, members, hopen, hplan, hset⟩

end ArchiveCore
