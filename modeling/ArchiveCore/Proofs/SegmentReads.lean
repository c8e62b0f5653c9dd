import ArchiveCore.Proofs.DirectoryEntries
import ArchiveCore.Proofs.SegmentPlanning
import ArchiveCore.Proofs.SplitRoundTrip

/-!
# Segments as they are planned and as they are read

The handles of a planned set bring what reading each member into memory brings, in the order
of the plan, and the stitched image is those payloads one after another. An archive that
resolves can be stitched under the same limits.
-/

namespace ArchiveCore

open Framework

/-- No two files of the table bear one name. -/
def DistinctFiles (entries : List ArchiveEntry) : Prop := ((fileMembers entries).map Prod.snd).Nodup

theorem DistinctFiles.index_eq {entries : List ArchiveEntry} (h : DistinctFiles entries) {i j : Nat}
    {name : String} (hi : (i, name) ∈ fileMembers entries) (hj : (j, name) ∈ fileMembers entries) :
    i = j :=
  congrArg Prod.fst (List.inj_on_of_nodup_map h hi hj rfl)

/-- The bytes of a member, none where it cannot be read. -/
def Archive.payload (B : Backends) (a : Archive) (index : Nat) : Bytes :=
  match a.read B index with
  | .ok b => b
  | .error _ => []

theorem Archive.payload_eq {B : Backends} {a : Archive} {index : Nat} {b : Bytes}
    (h : a.read B index = .ok b) : a.payload B index = b := by
  rw [payload, h]

section

variable {B : Backends} {data : Bytes} {format : Format} {archive : Archive}
  {members : List Segment} {kind : SegmentKind} {limits : Limits}

theorem plannedSet_of_detect (hplan : detect B data = .ok (.segmentSet format members kind)) :
    ∃ archive, Archive.openWithFormat B format data = .ok (some archive) ∧
      PlannedSet archive kind members := by
  obtain ⟨archive, hopen, -, hclass, hmembers⟩ := segmentSet_of_detect hplan
  exact ⟨archive, hopen, plannedSet_of_segments (classifySegmentKind_eq_some hclass) hmembers⟩

theorem PlannedSet.file_mem {seg : Segment} (h : PlannedSet archive kind members)
    (hseg : seg ∈ members) : (seg.index, seg.name) ∈ fileMembers archive.entries :=
  h.files.subset (List.mem_map_of_mem (f := fun seg => (seg.index, seg.name)) hseg)

/-- The readers and the volume keep their promises for an input of this size and this cap. -/
structure Dependable (B : Backends) (data : Bytes) (limits : Limits) : Prop where
  faithful : FaithfulZip B data
  temp : B.temp.Healthy
  data : data.length ≤ wordMax
  cap : limits.maxTotalInflated < wordMax

theorem segment_holds {seg : Segment} {b : Bytes} (hdepend : Dependable B data limits)
    (hopen : Archive.openWithFormat B format data = .ok (some archive))
    (hset : PlannedSet archive kind members) (hnames : DistinctFiles archive.entries)
    (hseg : seg ∈ members) (hread : archive.read B seg.index = .ok b)
    (hb : b.length ≤ limits.maxTotalInflated) :
    ∃ source, executeMemberAccess B format data seg.index seg.name seg.access limits = .ok source ∧
      source.Holds b := by
  obtain ⟨hfeed, hmax⟩ := Archive.read_eq_ok.mp hread
  have hfile := hset.file_mem hseg
  have hsole : ∀ z, archive.backend = .zip z → ∃ zf, z.SoleFile seg.index zf ∧ zf.name = seg.name := by
    intro z hz
    obtain ⟨zf, hzf, hname, -⟩ :=
      soleFile_of_fileMembers hopen hz hfile fun j hj => hnames.index_eq hj hfile
    exact ⟨zf, hzf, hname⟩
  exact executeMemberAccess_holds hdepend.faithful hdepend.temp hdepend.data hdepend.cap hopen hsole
    (hset.access seg hseg) hfeed hb (hmax.trans maxInflated_le_fileMax)

theorem segmentSources_holds (hdepend : Dependable B data limits)
    (hplan : detect B data = .ok (.segmentSet format members kind))
    (hopen : Archive.openWithFormat B format data = .ok (some archive))
    (hnames : DistinctFiles archive.entries)
    (hreads : ∀ seg ∈ members, archive.read B seg.index = .ok (archive.payload B seg.index))
    (hfits : ∀ seg ∈ members, (archive.payload B seg.index).length ≤ limits.maxTotalInflated) :
    ∃ sources, segmentSources B data limits = .ok (some ⟨format, kind, sources⟩) ∧
      List.Forall₂ PeeledSource.Holds sources
        (members.map fun seg => archive.payload B seg.index) := by
  obtain ⟨archive', hopen', hset⟩ := plannedSet_of_detect hplan
  obtain rfl := Archive.openWithFormat_unique hopen hopen'
  have hself : List.Forall₂ (fun (seg : Segment) b => seg ∈ members ∧ b = archive.payload B seg.index)
      members (members.map fun seg => archive.payload B seg.index) := by
    refine List.forall₂_map_right_iff.mpr (List.forall₂_same.mpr fun seg hseg => ⟨hseg, rfl⟩)
  obtain ⟨sources, hsources, hholds⟩ := exists_mapM_forall₂
    (f := fun seg => executeMemberAccess B format data seg.index seg.name seg.access limits)
    (q := PeeledSource.Holds) hself (by
      rintro seg b - ⟨hseg, rfl⟩
      exact segment_holds hdepend hopen hset hnames hseg (hreads seg hseg) (hfits seg hseg))
  exact ⟨sources, by simp [segmentSources, hplan, hsources], hholds⟩

/-- Reassembling brings these payloads: a raw split as one source over all of them, the other
kinds as a handle over each. -/
def Delivers (r : Except ArchiveError Reassembled) (format : Format) (kind : SegmentKind)
    (payloads : List Bytes) : Prop :=
  match kind with
  | .splitRaw => ∃ c, r = .ok (.concat c) ∧ c.len = payloads.flatten.length ∧
      ConcatSource.readSeek.DrainsTo c payloads.flatten
  | .ewf | .splitVmdk => ∃ sources, r = .ok (.segments ⟨format, kind, sources⟩) ∧
      List.Forall₂ (fun source b => source.len = b.length ∧ PeeledSource.readSeek.DrainsTo source b)
        sources payloads

theorem delivers_of_sources {sources : List PeeledSource} {payloads : List Bytes}
    (hsources : segmentSources B data limits = .ok (some ⟨format, kind, sources⟩))
    (hholds : List.Forall₂ PeeledSource.Holds sources payloads)
    (hword : payloads.flatten.length ≤ wordMax) :
    Delivers (reassemble B data limits) format kind payloads := by
  have heach := hholds.imp fun source b h =>
    (⟨h.len, h.drainsTo⟩ : source.len = b.length ∧ PeeledSource.readSeek.DrainsTo source b)
  cases kind with
  | splitRaw =>
    have hview := concat_new hholds hword
    exact ⟨ConcatSource.new sources, by simp [reassemble, hsources], hview.len,
      concat_refines.drainsTo hview⟩
  | ewf => exact ⟨sources, by simp [reassemble, hsources], heach⟩
  | splitVmdk => exact ⟨sources, by simp [reassemble, hsources], heach⟩

theorem length_le_flatten_length {b : Bytes} {bs : List Bytes} (h : b ∈ bs) :
    b.length ≤ bs.flatten.length := by
  rw [List.length_flatten]
  exact List.le_sum_of_mem (List.mem_map_of_mem h)

theorem delivers_of_payloads (hdepend : Dependable B data limits)
    (hplan : detect B data = .ok (.segmentSet format members kind))
    (hopen : Archive.openWithFormat B format data = .ok (some archive))
    (hnames : DistinctFiles archive.entries)
    (hreads : ∀ seg ∈ members, archive.read B seg.index = .ok (archive.payload B seg.index))
    (hfits : (members.map fun seg => archive.payload B seg.index).flatten.length ≤
      limits.maxTotalInflated) :
    Delivers (reassemble B data limits) format kind
      (members.map fun seg => archive.payload B seg.index) := by
  have heach : ∀ seg ∈ members, (archive.payload B seg.index).length ≤ limits.maxTotalInflated :=
    fun seg hseg => (length_le_flatten_length
      (List.mem_map_of_mem (f := fun seg : Segment => archive.payload B seg.index) hseg)).trans hfits
  obtain ⟨sources, hsources, hholds⟩ :=
    segmentSources_holds hdepend hplan hopen hnames hreads heach
  exact delivers_of_sources hsources hholds (hfits.trans hdepend.cap.le)

theorem splitReaders_dependable : Dependable splitReaders splitZip .default where
  faithful := by
    apply zipReaders_faithful <;>
      exact List.forall_mem_cons.mpr
        ⟨by decide +kernel, List.forall_mem_cons.mpr ⟨by decide +kernel, by simp⟩⟩
  temp := ⟨rfl, rfl, rfl, rfl⟩
  data := by decide +kernel
  cap := by decide

/-- Reassembling a planned set brings what reading its members one by one brings, in the order
of the plan, whichever way each of them is reached. -/
theorem reassemble_delivers_reads {payloads : List Bytes} (hdepend : Dependable B data limits)
    (hplan : detect B data = .ok (.segmentSet format members kind))
    (hopen : Archive.openWithFormat B format data = .ok (some archive))
    (hnames : DistinctFiles archive.entries)
    (hreads : List.Forall₂ (fun (seg : Segment) b => archive.read B seg.index = .ok b)
      members payloads)
    (hfits : payloads.flatten.length ≤ limits.maxTotalInflated) :
    Delivers (reassemble B data limits) format kind payloads := by
  have hpayloads : (members.map fun seg => archive.payload B seg.index) = payloads := by
    rw [← List.forall₂_eq_eq_eq, List.forall₂_map_left_iff]
    exact hreads.imp fun seg b h => Archive.payload_eq h
  have hread : ∀ seg ∈ members, archive.read B seg.index = .ok (archive.payload B seg.index) := by
    intro seg hseg
    obtain ⟨i, hi, rfl⟩ := List.mem_iff_getElem.mp hseg
    have h := hreads.get hi (hreads.length_eq ▸ hi)
    simp only [List.get_eq_getElem] at h
    rw [h, Archive.payload_eq h]
  subst hpayloads
  exact delivers_of_payloads hdepend hplan hopen hnames hread hfits

theorem splitReaders_distinct {archive : Archive}
    (h : Archive.openWithFormat splitReaders .zip splitZip = .ok (some archive)) :
    DistinctFiles archive.entries := by
  obtain rfl := Archive.openWithFormat_unique h (Archive.openWithFormat_zipReaders splitZip
    [storedFile "a.002" 35 [0x42, 0x43], storedFile "a.001" 72 [0x41]])
  rw [DistinctFiles]
  decide

theorem reassemble_delivers_reads_splitZip :
    Delivers (reassemble splitReaders splitZip .default) .zip .splitRaw [[0x41], [0x42, 0x43]] := by
  obtain ⟨archive, hsplit⟩ := splitZip_split
  obtain ⟨members, hplan, hholds⟩ := hsplit.plan (by decide) (by decide)
  refine reassemble_delivers_reads splitReaders_dependable hplan hsplit.opens
    (splitReaders_distinct hsplit.opens) (forall₂_of_range (hholds.imp ?_)) (by decide)
  rintro seg j ⟨hfile, -, b, hb, hstores⟩
  obtain ⟨entry, hget, -⟩ := mem_fileMembers.mp hfile
  have hmax : b.length ≤ maxInflated := by
    have hall : ∀ b ∈ ([[0x41], [0x42, 0x43]] : List Bytes), b.length ≤ maxInflated := by decide
    exact hall b (List.mem_of_getElem? hb)
  have hfeed := hstores.memberFeed hsplit.opens (List.getElem?_eq_some_iff.mp hget).1 hmax
  exact ⟨b, hb, Archive.read_eq_ok.mpr ⟨hfeed, hmax⟩⟩

theorem payloads_of_yields {entries : List (ArchiveEntry × Nat)} {nodes : List Node} {charge : Nat}
    (h : EntriesYield B archive entries nodes charge) :
    (∀ e ∈ entries.filter (fun e => !e.1.isDir),
        archive.read B e.2 = .ok (archive.payload B e.2)) ∧
      ((entries.filter fun e => !e.1.isDir).map fun e => (archive.payload B e.2).length).sum ≤
        charge := by
  induction entries generalizing nodes charge with
  | nil =>
    cases h
    exact ⟨by simp, le_rfl⟩
  | cons e entries ih =>
    cases h with
    | dir hdir hrest =>
      rw [List.filter_cons_of_neg (by simp [hdir])]
      exact ih hrest
    | file hfile hread _ hrest =>
      obtain ⟨hreads, hsum⟩ := ih hrest
      rw [List.filter_cons_of_pos (by simp [hfile])]
      refine ⟨List.forall_mem_cons.mpr ⟨by rw [hread, Archive.payload_eq hread], hreads⟩, ?_⟩
      simp only [List.map_cons, List.sum_cons, Archive.payload_eq hread]
      omega

/-- What resolves can be stitched: where an archive of segments resolves within the limits,
reassembling it under the same limits succeeds with the payloads that were extracted. -/
theorem reassemble_of_resolve {nodes : List Node} (hdepend : Dependable B data limits)
    (harch : (sniff none data).isArchive = true) (hresolve : resolve B data none limits = .ok nodes)
    (hplan : detect B data = .ok (.segmentSet format members kind))
    (hnames : ∀ archive, Archive.openWithFormat B format data = .ok (some archive) →
      DistinctFiles archive.entries) :
    ∃ archive, Archive.openWithFormat B format data = .ok (some archive) ∧
      (∀ seg ∈ members, archive.read B seg.index = .ok (archive.payload B seg.index)) ∧
      Delivers (reassemble B data limits) format kind
        (members.map fun seg => archive.payload B seg.index) := by
  obtain ⟨tree, htree, hlimits, -⟩ := resolve_eq_ok.mp hresolve
  obtain ⟨archive, hopen, hentries⟩ := (itemYield_of_layerTree htree).entries harch
  obtain ⟨hreads, hsum⟩ := payloads_of_yields hentries
  obtain ⟨archive', hopen', hset⟩ := plannedSet_of_detect hplan
  -- the plan was made of the archive that was resolved
  have hformat : format = sniff none data := by
    rw [detect_of_readsTable (.bare rfl harch)] at hplan
    exact (detectArchive_eq_segmentSet.mp hplan).1
  subst hformat
  obtain rfl := Archive.openWithFormat_unique hopen hopen'
  have hread : ∀ seg ∈ members, archive.read B seg.index = .ok (archive.payload B seg.index) := by
    intro seg hseg
    obtain ⟨e, he, heq⟩ := List.mem_map.mp (hset.file_mem hseg)
    rw [← (Prod.mk.inj heq).1]
    exact hreads e he
  have htotal : (members.map fun seg => archive.payload B seg.index).flatten.length ≤
      limits.maxTotalInflated := by
    have hperm := hset.files.map fun file => (archive.payload B file.1).length
    rw [fileMembers, List.map_map, List.map_map] at hperm
    have hlength := hperm.sum_eq
    have hinflated := hlimits.inflated
    have hcap := hdepend.cap
    rw [List.length_flatten, List.map_map]
    simp only [Function.comp_def] at hlength ⊢
    omega
  exact ⟨archive, hopen, hread,
    delivers_of_payloads hdepend hplan hopen (hnames archive hopen) hread htotal⟩

theorem reassemble_of_resolve_splitZip :
    ∃ (archive : Archive) (members : List Segment),
      Archive.openWithFormat splitReaders .zip splitZip = .ok (some archive) ∧
      (∀ seg ∈ members, archive.read splitReaders seg.index =
        .ok (archive.payload splitReaders seg.index)) ∧
      Delivers (reassemble splitReaders splitZip .default) .zip .splitRaw
        (members.map fun seg => archive.payload splitReaders seg.index) := by
  obtain ⟨_, hsplit⟩ := splitZip_split
  obtain ⟨members, hplan, -⟩ := hsplit.plan (by decide) (by decide)
  have hresolve : resolve splitReaders splitZip none .default =
      .ok [.file "a.002" [0x42, 0x43], .file "a.001" [0x41]] := by decide +kernel
  obtain ⟨archive, hresult⟩ := reassemble_of_resolve splitReaders_dependable (by decide +kernel)
    hresolve hplan fun archive hopen => splitReaders_distinct hopen
  exact ⟨archive, members, hresult⟩

end

end ArchiveCore
