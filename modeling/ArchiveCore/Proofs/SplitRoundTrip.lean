import ArchiveCore.Proofs.Concat
import ArchiveCore.Proofs.Extraction
import ArchiveCore.Proofs.SegmentNames

/-!
# A split image survives the round trip

The chunks of an image, stored in any order under numbered names by an archive that lists
and decodes what it stores, come back as one source over their concatenation.
-/

namespace ArchiveCore

open Framework

/-- The archive holds the chunks as its files `base.NNN`, numbered from `first` and stored
in this order. -/
structure SplitArchive (B : Backends) (data : Bytes) (format : Format) (archive : Archive)
    (base : String) (first : Nat) (chunks : List Bytes) (order : List Nat) : Prop where
  recognised : detect B data = detectArchive B format data
  opens : Archive.openWithFormat B format data = .ok (some archive)
  permuted : order.Perm (List.range chunks.length)
  members : List.Forall₂ (fun (file : Nat × String) j => SegmentName base (first + j) file.2 ∧
    ∃ b, chunks[j]? = some b ∧ archive.Stores B file.1 b) (fileMembers archive.entries) order

/-- What is known of a planned segment: where it lies, its route and the chunk it holds. -/
def SegmentHolds (B : Backends) (archive : Archive) (chunks : List Bytes) (seg : Segment)
    (j : Nat) : Prop :=
  (seg.index, seg.name) ∈ fileMembers archive.entries ∧
    archive.memberAccess seg.index = .ok seg.access ∧
    ∃ b, chunks[j]? = some b ∧ archive.Stores B seg.index b

section

variable {B : Backends} {data d : Bytes} {format : Format} {archive : Archive} {base : String}
  {first : Nat} {chunks : List Bytes} {order : List Nat} {limits : Limits}

theorem SplitArchive.files_length (h : SplitArchive B data format archive base first chunks order) :
    (fileMembers archive.entries).length = chunks.length := by
  rw [h.members.length_eq, h.permuted.length_eq, List.length_range]

theorem SplitArchive.plan (h : SplitArchive B data format archive base first chunks order)
    (hcount : 2 ≤ chunks.length) (hwords : first + chunks.length ≤ wordMax) :
    ∃ members, detect B data = .ok (.segmentSet format members .splitRaw) ∧
      List.Forall₂ (SegmentHolds B archive chunks) members (List.range chunks.length) := by
  have hfiles := h.files_length
  have hclass : classifySegmentKind (fileMembers archive.entries) = some .splitRaw := by
    apply classify_of_segmentNames base
    · intro hnil
      rw [hnil, List.length_nil] at hfiles
      omega
    · intro file hmem
      obtain ⟨m, hm, rfl⟩ := List.mem_iff_getElem.mp hmem
      have hlt : m < order.length := h.members.length_eq ▸ hm
      have hj := List.mem_range.mp (h.permuted.mem_iff.mp (List.getElem_mem hlt))
      exact ⟨first + order[m], by omega, (h.members.get hm hlt).1⟩
  have hsorted := orderSegments_forall₂ hwords h.permuted h.members
  obtain ⟨members, hmembers, hholds⟩ :=
    exists_mapM_forall₂ (f := segmentOf archive) (q := SegmentHolds B archive chunks) hsorted (by
      intro file j hmem hstored
      obtain ⟨index, name, seg⟩ := file
      have hfile := (mem_orderSegments.mp hmem).1
      obtain ⟨entry, hget, -⟩ := mem_fileMembers.mp hfile
      obtain ⟨access, haccess⟩ := exists_memberAccess h.opens (List.getElem?_eq_some_iff.mp hget).1
      exact ⟨⟨name, index, access⟩, by simp [segmentOf, haccess], hfile, haccess, hstored⟩)
  refine ⟨members, ?_, hholds⟩
  rw [h.recognised]
  exact detectArchive_eq_segmentSet.mpr ⟨rfl, archive, h.opens, by omega, hclass, hmembers⟩

theorem SplitArchive.source (h : SplitArchive B data format archive base first chunks order)
    (hwords : first + chunks.length ≤ wordMax) (hchunks : ∀ b ∈ chunks, b.length ≤ maxInflated)
    (hfaithful : FaithfulZip B data) (htemp : B.temp.Healthy) (hdata : data.length ≤ wordMax)
    (hcap : limits.maxTotalInflated < wordMax)
    (himage : chunks.flatten.length ≤ limits.maxTotalInflated) {seg : Segment} {j : Nat}
    (hseg : SegmentHolds B archive chunks seg j) :
    ∃ source, executeMemberAccess B format data seg.index seg.name seg.access limits = .ok source ∧
      ∃ b, chunks[j]? = some b ∧ source.Holds b := by
  obtain ⟨hfile, haccess, b, hb, hstores⟩ := hseg
  obtain ⟨entry, hget, -⟩ := mem_fileMembers.mp hfile
  have hmax := hchunks b (List.mem_of_getElem? hb)
  have hfeed := hstores.memberFeed h.opens (List.getElem?_eq_some_iff.mp hget).1 hmax
  have hle : b.length ≤ limits.maxTotalInflated := by
    have hend := (offset_le chunks (j + 1)).trans himage
    rw [offset_succ hb] at hend
    omega
  have hsole : ∀ z, archive.backend = .zip z → ∃ zf, z.SoleFile seg.index zf ∧ zf.name = seg.name := by
    intro z hz
    obtain ⟨zf, hzf, hname, -⟩ := soleFile_of_fileMembers h.opens hz hfile
      fun i hi => index_unique hwords h.permuted h.members hi hfile
    exact ⟨zf, hzf, hname⟩
  obtain ⟨source, hsource, hholds⟩ := executeMemberAccess_holds hfaithful htemp hdata hcap h.opens
    hsole haccess hfeed hle (hmax.trans maxInflated_le_fileMax)
  exact ⟨source, hsource, b, hb, hholds⟩

/-- Reassembling the stored chunks gives back the image, from its start to its end. The
numbers fit a word, as the positions of any table in memory do. -/
theorem reassemble_split (h : SplitArchive B data format archive base first chunks order)
    (hd : chunks.flatten = d) (hcount : 2 ≤ chunks.length)
    (hwords : first + chunks.length ≤ wordMax) (hchunks : ∀ b ∈ chunks, b.length ≤ maxInflated)
    (hfaithful : FaithfulZip B data) (htemp : B.temp.Healthy) (hdata : data.length ≤ wordMax)
    (himage : d.length ≤ limits.maxTotalInflated) (hcap : limits.maxTotalInflated < wordMax) :
    ∃ c, reassemble B data limits = .ok (.concat c) ∧ c.len = d.length ∧
      ConcatSource.readSeek.DrainsTo c d := by
  subst hd
  obtain ⟨members, hplan, hmembers⟩ := h.plan hcount hwords
  obtain ⟨sources, hsources, hholds⟩ := exists_mapM_forall₂
    (f := fun seg => executeMemberAccess B format data seg.index seg.name seg.access limits)
    (q := fun source j => ∃ b, chunks[j]? = some b ∧ PeeledSource.Holds source b) hmembers
    fun seg j _ hseg => h.source hwords hchunks hfaithful htemp hdata hcap himage hseg
  have hview := concat_new (forall₂_of_range hholds) (himage.trans hcap.le)
  refine ⟨ConcatSource.new sources, ?_, hview.len, concat_refines.drainsTo hview⟩
  simp [reassemble, segmentSources, hplan, hsources]

end

theorem splitZip_split :
    ∃ archive, SplitArchive splitReaders splitZip .zip archive "a" 1 [[0x41], [0x42, 0x43]] [1, 0] := by
  have hsniff : sniff none splitZip = .zip := by decide +kernel
  refine ⟨_, by rw [detect, hsniff], Archive.openWithFormat_zipReaders _ _, by decide, ?_⟩
  refine .cons ⟨⟨"002".toList, by decide, by decide, by decide, by decide⟩, _, rfl, _, rfl, rfl⟩ ?_
  exact .cons ⟨⟨"001".toList, by decide, by decide, by decide, by decide⟩, _, rfl, _, rfl, rfl⟩ .nil

theorem reassemble_splitZip :
    ∃ c, reassemble splitReaders splitZip Limits.default = .ok (.concat c) ∧ c.len = 3 ∧
      ConcatSource.readSeek.DrainsTo c [0x41, 0x42, 0x43] := by
  obtain ⟨archive, hsplit⟩ := splitZip_split
  have hfaithful : FaithfulZip splitReaders splitZip := by
    apply zipReaders_faithful <;>
      exact List.forall_mem_cons.mpr
        ⟨by decide +kernel, List.forall_mem_cons.mpr ⟨by decide +kernel, by simp⟩⟩
  exact reassemble_split hsplit rfl (by decide) (by decide) (by decide) hfaithful
    ⟨rfl, rfl, rfl, rfl⟩ (by decide +kernel) (by decide) (by decide)

end ArchiveCore
