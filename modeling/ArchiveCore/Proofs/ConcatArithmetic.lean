import ArchiveCore.Proofs.ConcatCursor
import ArchiveCore.Proofs.SegmentTotal
import ArchiveCore.Proofs.WindowCursor

/-!
# The arithmetic of a stitched image

Placement saturates and the search adds start and length again without a check, so the
image is exact as long as the lengths of its segments add up to a word, whatever the handles
return. Nothing turns away a set whose lengths do not.
-/

namespace ArchiveCore

open Framework

/-- The handle of some member under some limits. -/
def Opened (source : PeeledSource) : Prop :=
  ∃ B format data index name access limits,
    executeMemberAccess B format data index name access limits = .ok source

/-- A window, if the handle is one, lies inside its bytes. -/
def Sound (source : PeeledSource) : Prop := ∀ w, source = .inPlace w → w.Valid

theorem Opened.sound {source : PeeledSource} (h : Opened source) : Sound source := by
  obtain ⟨B, format, data, index, name, access, limits, h⟩ := h
  intro w hw
  rcases executeMemberAccess_eq_ok.mp h with ⟨offset, len, hroute, rfl⟩ | ⟨entry, -, rfl⟩ |
    ⟨b, -, rfl⟩
  · obtain rfl := PeeledSource.inPlace.inj hw
    exact ⟨hroute.fits, hroute.word, Nat.zero_le _⟩
  · cases hw
  · cases hw

theorem opened_window {data : Bytes} {offset len : Nat} (hword : offset + len ≤ wordMax)
    (hfits : offset + len ≤ data.length) : Opened (.inPlace ⟨data, offset, len, 0⟩) := by
  have hcap : len ≤ wordMax := (Nat.le_add_left len offset).trans hword
  refine ⟨.inert, .zip, data, 0, "", .inPlace offset len,
    { Limits.default with maxTotalInflated := wordMax, maxTotalInflated_le := le_rfl }, ?_⟩
  exact WindowRoute.opened ⟨rfl, hcap, hword, hfits⟩

theorem Sound.seek {source source' : PeeledSource} (h : Sound source) {origin : SeekFrom}
    {pos : Nat} (hseek : source.seek origin = .ok (pos, source')) : Sound source' := by
  intro w' hw'
  subst hw'
  cases source with
  | inPlace w =>
    simp only [PeeledSource.seek, SubRange.seek, bind_eq_ok, pure_eq_ok, Prod.mk.injEq,
      PeeledSource.inPlace.injEq] at hseek
    obtain ⟨_, ⟨target, -, rfl⟩, -, rfl⟩ := hseek
    exact ⟨(h w rfl).fits, (h w rfl).word, Nat.min_le_right _ _⟩
  | zran z => simp [PeeledSource.seek] at hseek
  | temp t => simp [PeeledSource.seek] at hseek

theorem Sound.read {source source' : PeeledSource} (h : Sound source) {want : Nat} {chunk : Bytes}
    (hread : source.read want = .ok (chunk, source')) : Sound source' := by
  intro w' hw'
  subst hw'
  cases source with
  | inPlace w =>
    have hvalid := h w rfl
    have hlen := hvalid.window_length
    have hpos := hvalid.pos
    simp only [PeeledSource.read, SubRange.read_eq hvalid, bind_eq_ok, pure_eq_ok, Prod.mk.injEq,
      PeeledSource.inPlace.injEq, Except.ok.injEq] at hread
    obtain ⟨_, rfl, -, rfl⟩ := hread
    refine ⟨hvalid.fits, hvalid.word, ?_⟩
    simp only [List.length_take, List.length_drop]
    omega
  | zran z => simp [PeeledSource.read] at hread
  | temp t => simp [PeeledSource.read] at hread

/-- The segments are laid out by their lengths, the total is the sum, and every window among
the handles is inside its bytes. -/
structure Counted (c : ConcatSource) (lens : List Nat) : Prop where
  laid : Laid c.segs lens
  total : c.total = lens.sum
  sound : ∀ (i : Nat) (seg : ConcatSeg), c.segs[i]? = some seg → Sound seg.source

theorem Counted.seek {c c' : ConcatSource} {lens : List Nat} (h : Counted c lens)
    {origin : SeekFrom} {pos : Nat} (hseek : c.seek origin = .ok (pos, c')) : Counted c' lens := by
  simp only [ConcatSource.seek, bind_eq_ok, pure_eq_ok, Prod.mk.injEq] at hseek
  obtain ⟨target, -, -, rfl⟩ := hseek
  exact ⟨h.laid, h.total, h.sound⟩

theorem Counted.read {c c' : ConcatSource} {lens : List Nat} (h : Counted c lens) {want : Nat}
    {chunk : Bytes} (hread : c.read want = .ok (chunk, c')) : Counted c' lens := by
  rw [ConcatSource.read] at hread
  split at hread
  · obtain rfl := congrArg Prod.snd (Except.ok.inj hread)
    exact h
  · split at hread
    · obtain rfl := congrArg Prod.snd (Except.ok.inj hread)
      exact h
    · split at hread
      · obtain rfl := congrArg Prod.snd (Except.ok.inj hread)
        exact h
      · rename_i seg hseg
        simp only [ConcatSource.readSegment, bind_eq_ok, pure_eq_ok, Prod.mk.injEq] at hread
        obtain ⟨_, ⟨moved, hmoved, brought, hbrought, rfl⟩, -, rfl⟩ := hread
        have hsound := ((h.sound _ seg hseg).seek hmoved).read hbrought
        exact ⟨h.laid.set hseg _, h.total, forall_set_source hseg h.sound hsound⟩

theorem Counted.after {c : ConcatSource} {lens : List Nat} (h : Counted c lens)
    (calls : List Call) : Counted (ConcatSource.readSeek.after c calls) lens := by
  apply ReadSeek.after_induction (P := fun c => Counted c lens) _ _ h
  intro c call hc
  apply ReadSeek.answer_keeps (P := fun c => Counted c lens) _ hc
  · intro origin pos c' hseek
    exact hc.seek hseek
  · intro want chunk c' hread
    exact hc.read hread

/-- The image is as long as its segments together, and no state it reaches leaves the range
of a word, in the image or in a window. -/
structure ExactImage (sources : List PeeledSource) : Prop where
  len : (ConcatSource.new sources).len = (sources.map PeeledSource.len).sum
  exact : ∀ calls, (ConcatSource.readSeek.after (ConcatSource.new sources) calls).Exact
  windows : ∀ calls, ∀ seg ∈ (ConcatSource.readSeek.after (ConcatSource.new sources) calls).segs,
    ∀ w, seg.source = .inPlace w → w.Guarded

theorem exactImage_iff {sources : List PeeledSource} (hopened : ∀ source ∈ sources, Opened source) :
    ExactImage sources ↔ (sources.map PeeledSource.len).sum ≤ wordMax := by
  constructor
  · intro h
    rw [← h.len]
    exact (new_total sources).trans_le (Nat.min_le_right _ _)
  · intro hword
    obtain ⟨hlaid, htotal, hsegs⟩ := laid_new hword
    have hcounted : Counted (ConcatSource.new sources) (sources.map PeeledSource.len) := by
      refine ⟨hlaid, htotal, ?_⟩
      intro i seg hi
      exact (hopened _ (List.mem_of_getElem? (hsegs i seg hi))).sound
    refine ⟨htotal, ?_, ?_⟩
    · intro calls
      exact (hcounted.after calls).laid.exact (hcounted.after calls).total
    · intro calls seg hseg w hw
      obtain ⟨i, hi⟩ := List.mem_iff_getElem?.mp hseg
      exact ((hcounted.after calls).sound i seg hi w hw).guarded

/-- A raw split is stitched into an exact image, or turned away when its lengths add up to
no word. -/
def ExactOrRejected (B : Backends) (data : Bytes) (limits : Limits) : Prop :=
  ∀ ss, segmentSources B data limits = .ok (some ss) → ss.kind = .splitRaw →
    (ss.total ≤ wordMax ∧ reassemble B data limits = .ok (.concat (ConcatSource.new ss.sources)) ∧
      ExactImage ss.sources) ∨
    (wordMax < ss.total ∧ ∃ e, reassemble B data limits = .error e)

/-- A raw split whose every segment opens and whose extents add up to no word. -/
def PastWord (B : Backends) (data : Bytes) (limits : Limits) : Prop :=
  ∃ format members extents, detect B data = .ok (.segmentSet format members .splitRaw) ∧
    List.Forall₂ (SegmentExtent B format data limits) members extents ∧ wordMax < extents.sum

theorem opened_of_segmentSources {B : Backends} {data : Bytes} {limits : Limits}
    {ss : SegmentSources} (hss : segmentSources B data limits = .ok (some ss)) :
    ∀ source ∈ ss.sources, Opened source := by
  obtain ⟨members, -, hsources⟩ := segmentSources_eq_some.mp hss
  intro source hsource
  obtain ⟨i, hi⟩ := List.mem_iff_getElem?.mp hsource
  obtain ⟨seg, -, hseg⟩ := getElem?_of_mapM_eq_ok hsources i hi
  exact ⟨B, ss.format, data, seg.index, seg.name, seg.access, limits, hseg⟩

theorem exactOrRejected_iff {B : Backends} {data : Bytes} {limits : Limits} :
    ExactOrRejected B data limits ↔ ¬ PastWord B data limits := by
  constructor
  · intro h hpast
    obtain ⟨format, members, extents, hplan, hextents, hpast⟩ := hpast
    obtain ⟨ss, hss, hkind, hlens⟩ := segmentSources_of_extents hplan hextents
    rcases h ss hss hkind with ⟨hword, -⟩ | ⟨-, e, he⟩
    · rw [SegmentSources.total, hlens] at hword
      omega
    · rw [reassemble_splitRaw hss hkind] at he
      cases he
  · intro hnot ss hss hkind
    obtain ⟨members, hplan, hextents⟩ := extents_of_segmentSources hss
    have hword : ss.total ≤ wordMax := by
      by_contra hpast
      exact hnot ⟨ss.format, members, _, hkind ▸ hplan, hextents, Nat.lt_of_not_ge hpast⟩
    exact .inl ⟨hword, reassemble_splitRaw hss hkind,
      (exactImage_iff (opened_of_segmentSources hss)).mpr hword⟩

/-- Opened sources stitch into an exact image exactly when their lengths add up to a word,
and a set that does not is never turned away. -/
theorem concat_arithmetic_iff (B : Backends) (data : Bytes) (limits : Limits)
    (sources : List PeeledSource) (hopened : ∀ source ∈ sources, Opened source) :
    (ExactImage sources ↔ (sources.map PeeledSource.len).sum ≤ wordMax) ∧
      (ExactOrRejected B data limits ↔ ¬ PastWord B data limits) :=
  ⟨exactImage_iff hopened, exactOrRejected_iff⟩

/-- A seek index of any size allowed. -/
def indexLimits : Limits :=
  { Limits.default with maxIndexBytes := wordMax, maxIndexBytes_le := le_rfl }

/-- Two deflated segments of one byte, each declared as long as a word can say. -/
def hugeZip : Bytes := [
  0x50, 0x4B, 0x03, 0x04, 0x2D, 0x00, 0x00, 0x00, 0x08, 0x00, 0x00, 0x00, 0x21, 0x00, 0x8B, 0x9E,
  0xD9, 0xD3, 0xFF, 0xFF, 0xFF, 0xFF, 0xFF, 0xFF, 0xFF, 0xFF, 0x05, 0x00, 0x14, 0x00, 0x61, 0x2E,
  0x30, 0x30, 0x31, 0x01, 0x00, 0x10, 0x00, 0xFF, 0xFF, 0xFF, 0xFF, 0xFF, 0xFF, 0xFF, 0xFF, 0x03,
  0x00, 0x00, 0x00, 0x00, 0x00, 0x00, 0x00, 0x73, 0x04, 0x00, 0x50, 0x4B, 0x03, 0x04, 0x2D, 0x00,
  0x00, 0x00, 0x08, 0x00, 0x00, 0x00, 0x21, 0x00, 0x31, 0xCF, 0xD0, 0x4A, 0xFF, 0xFF, 0xFF, 0xFF,
  0xFF, 0xFF, 0xFF, 0xFF, 0x05, 0x00, 0x14, 0x00, 0x61, 0x2E, 0x30, 0x30, 0x32, 0x01, 0x00, 0x10,
  0x00, 0xFF, 0xFF, 0xFF, 0xFF, 0xFF, 0xFF, 0xFF, 0xFF, 0x03, 0x00, 0x00, 0x00, 0x00, 0x00, 0x00,
  0x00, 0x73, 0x02, 0x00, 0x50, 0x4B, 0x01, 0x02, 0x2D, 0x03, 0x2D, 0x00, 0x00, 0x00, 0x08, 0x00,
  0x00, 0x00, 0x21, 0x00, 0x8B, 0x9E, 0xD9, 0xD3, 0x03, 0x00, 0x00, 0x00, 0xFF, 0xFF, 0xFF, 0xFF,
  0x05, 0x00, 0x0C, 0x00, 0x00, 0x00, 0x00, 0x00, 0x00, 0x00, 0x00, 0x00, 0x80, 0x01, 0x00, 0x00,
  0x00, 0x00, 0x61, 0x2E, 0x30, 0x30, 0x31, 0x01, 0x00, 0x08, 0x00, 0xFF, 0xFF, 0xFF, 0xFF, 0xFF,
  0xFF, 0xFF, 0xFF, 0x50, 0x4B, 0x01, 0x02, 0x2D, 0x03, 0x2D, 0x00, 0x00, 0x00, 0x08, 0x00, 0x00,
  0x00, 0x21, 0x00, 0x31, 0xCF, 0xD0, 0x4A, 0x03, 0x00, 0x00, 0x00, 0xFF, 0xFF, 0xFF, 0xFF, 0x05,
  0x00, 0x0C, 0x00, 0x00, 0x00, 0x00, 0x00, 0x00, 0x00, 0x00, 0x00, 0x80, 0x01, 0x3A, 0x00, 0x00,
  0x00, 0x61, 0x2E, 0x30, 0x30, 0x32, 0x01, 0x00, 0x08, 0x00, 0xFF, 0xFF, 0xFF, 0xFF, 0xFF, 0xFF,
  0xFF, 0xFF, 0x50, 0x4B, 0x05, 0x06, 0x00, 0x00, 0x00, 0x00, 0x02, 0x00, 0x02, 0x00, 0x7E, 0x00,
  0x00, 0x00, 0x74, 0x00, 0x00, 0x00, 0x00, 0x00]

def hugeMembers : List ZipFile :=
  [⟨"a.001", 0xFFFFFFFFFFFFFFFF, false, .deflated, 55, 3, Feed.eof [0x41]⟩,
    ⟨"a.002", 0xFFFFFFFFFFFFFFFF, false, .deflated, 113, 3, Feed.eof [0x42]⟩]

/-- Readers of one zip image whose seek indices are as long as the members declare. -/
def declaredReaders (image : Bytes) (members : List ZipFile) : Backends :=
  { zipReaders image members with
    openEntry := fun data name =>
      if data = image then
        match members.find? fun zf => zf.name == name with
        | some zf => .ok (.sized zf.size zf.contents.items)
        | none => .error "entry not found"
      else .error "invalid Zip archive" }

def hugeReaders : Backends := declaredReaders hugeZip hugeMembers

def hugeSegments : List Segment := [⟨"a.001", 0, .zran⟩, ⟨"a.002", 1, .zran⟩]

theorem detect_openEntry (B : Backends) (entries : Bytes → String → Except String StoredZipEntry)
    (data : Bytes) : detect { B with openEntry := entries } data = detect B data := rfl

theorem hugeZip_plan : detect hugeReaders hugeZip = .ok (.segmentSet .zip hugeSegments .splitRaw) := by
  have hordered : orderSegments [(0, "a.001"), (1, "a.002")] .splitRaw =
      [(0, "a.001", 1), (1, "a.002", 2)] := List.mergeSort_of_pairwise (by decide)
  rw [hugeReaders, declaredReaders, detect_openEntry]
  exact detect_zipReaders hordered (by decide +kernel) rfl (by decide) (by decide) rfl

theorem declaredReaders_extent {image : Bytes} {members : List ZipFile} {limits : Limits}
    {index : Nat} (zf : ZipFile) (hget : members[index]? = some zf)
    (hfind : members.find? (fun other => other.name == zf.name) = some zf)
    (hgate : estimateZranIndexBytes zf.size.toNat ≤ limits.maxIndexBytes) :
    SegmentExtent (declaredReaders image members) .zip image limits ⟨zf.name, index, .zran⟩
      zf.size.toNat := by
  have hlisted : memberUncompressedSize (declaredReaders image members) .zip image index =
      .ok zf.size.toNat := by
    apply memberUncompressedSize_eq_ok.mpr
    refine ⟨_, ⟨zf.name, zf.size, zf.isDir⟩, Archive.openWithFormat_zipReaders image members, ?_, rfl⟩
    rw [List.getElem?_map, hget]
    rfl
  have hroom : (declaredReaders image members).temp.file.hasRoom image.length := by
    intro room hroom
    cases hroom
  have hopens : (declaredReaders image members).openEntry image zf.name =
      .ok (.sized zf.size zf.contents.items) := by
    simp only [declaredReaders, if_true, hfind]
  exact .inr (.inl ⟨_, ⟨rfl, rfl, ⟨_, hlisted, hgate⟩, rfl, hroom, rfl, hopens⟩, rfl⟩)

theorem new_segAt_none {sources : List PeeledSource}
    (hlens : sources.map PeeledSource.len = [wordMax, wordMax]) :
    (ConcatSource.new sources).len = wordMax ∧
      (ConcatSource.new sources).segAt (wordMax - 1) = none := by
  obtain ⟨first, rest, rfl, hfirst, hrest⟩ := List.map_eq_cons_iff.mp hlens
  obtain ⟨second, last, rfl, hsecond, hlast⟩ := List.map_eq_cons_iff.mp hrest
  obtain rfl := List.map_eq_nil_iff.mp hlast
  constructor
  · simp only [ConcatSource.len, ConcatSource.new, ConcatSource.place, hfirst, hsecond]
    decide
  · have hwrapped : wrapAdd (satAdd 0 wordMax) wordMax ≤ wordMax - 1 := by decide
    simp [ConcatSource.segAt, ConcatSource.new, ConcatSource.place, hfirst, hsecond, partitionPoint,
      bisect, hwrapped]

theorem hugeZip_extents :
    List.Forall₂ (SegmentExtent hugeReaders .zip hugeZip indexLimits) hugeSegments [wordMax, wordMax] :=
  .cons (declaredReaders_extent hugeMembers[0] rfl rfl (by decide))
    (.cons (declaredReaders_extent hugeMembers[1] rfl rfl (by decide)) .nil)

/-- Two segments declared as long as a word can say are stitched: the image is as long as
one of them, and short of its end there is a place where no segment is found. -/
theorem hugeZip_saturates :
    ¬ ExactOrRejected hugeReaders hugeZip indexLimits ∧
      ∃ c, reassemble hugeReaders hugeZip indexLimits = .ok (.concat c) ∧ c.len = wordMax ∧
        c.segAt (wordMax - 1) = none := by
  refine ⟨fun h => exactOrRejected_iff.mp h ⟨_, _, _, hugeZip_plan, hugeZip_extents, by decide⟩, ?_⟩
  obtain ⟨ss, hss, hkind, hlens⟩ := segmentSources_of_extents hugeZip_plan hugeZip_extents
  exact ⟨_, reassemble_splitRaw hss hkind, new_segAt_none hlens⟩

theorem concat_arithmetic_splitZip :
    ExactImage [.inPlace ⟨splitZip, 72, 1, 0⟩, .inPlace ⟨splitZip, 35, 2, 0⟩] ∧
      ¬ ExactOrRejected hugeReaders hugeZip indexLimits := by
  have hfirst : Opened (.inPlace ⟨splitZip, 72, 1, 0⟩) := opened_window (by decide) (by decide +kernel)
  have hsecond : Opened (.inPlace ⟨splitZip, 35, 2, 0⟩) := opened_window (by decide) (by decide +kernel)
  have hopened : ∀ source ∈ [PeeledSource.inPlace ⟨splitZip, 72, 1, 0⟩,
      .inPlace ⟨splitZip, 35, 2, 0⟩], Opened source :=
    List.forall_mem_cons.mpr ⟨hfirst, List.forall_mem_singleton.mpr hsecond⟩
  have hall := concat_arithmetic_iff hugeReaders hugeZip indexLimits _ hopened
  have hpast : PastWord hugeReaders hugeZip indexLimits :=
    ⟨_, _, _, hugeZip_plan, hugeZip_extents, by decide⟩
  exact ⟨hall.1.mpr (by decide), fun h => hall.2.mp h hpast⟩

end ArchiveCore
