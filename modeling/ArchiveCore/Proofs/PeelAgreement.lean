import ArchiveCore.Proofs.Extraction

/-!
# The streaming peel agrees with the materialising peel

One of the two is driven by the name, the other never looks at it. Where the name does not
change the route they open the same archive, look at the same member table and reach the
same member, so what the first holds in memory the second holds behind a handle.
-/

namespace ArchiveCore

open Framework

/-- What the streaming peel is to give for an outcome of the materialising one. -/
def Peel.Agrees (result : Except ArchiveError PeelSource) : Peel → Prop
  | .notPacked => result = .ok .notPacked
  | .inner b => ∃ source, result = .ok (.inner source) ∧ source.len = b.length ∧
      PeeledSource.readSeek.DrainsTo source b

/-- The inputs on which the two are to agree. -/
inductive PeelCase (B : Backends) (data : Bytes) (name : Option String) : Prop
  /-- An archive by its own magic. -/
  | magic (h : sevenZipMagic.isPrefixOf data = true ∨ zipMagic.isPrefixOf data = true ∨
      hasUstar data = true)
  /-- A tar behind the codec its alias names. -/
  | compressedTar (codec : Codec) (head : Bytes)
      (hcodec : codec = .gzip ∧ sniff none data = .gzip ∧ sniff name data = .tarGz ∨
        codec = .bzip2 ∧ sniff none data = .bzip2 ∧ sniff name data = .tarBz2)
      (hpeek : peekHead B codec data = .ok head) (hustar : hasUstar head = true)
      (hseven : sevenZipMagic.isPrefixOf head = false) (hzip : zipMagic.isPrefixOf head = false)
  /-- A bare wrapper by magic under a compression extension. -/
  | bareWrapper (codec : Codec)
      (hcodec : codec = .gzip ∧ sniff none data = .gzip ∧ sniff name data = .gzip ∨
        codec = .bzip2 ∧ sniff none data = .bzip2 ∧ sniff name data = .bzip2)
      (hext : hasCompressionExt name = true)
      (hhead : ∀ head, peekHead B codec data = .ok head → sniff none head ≠ .tar)

theorem cap_eq_ok {inner : Bytes} {limits : Limits} {outcome : Peel} :
    cap inner limits = .ok outcome ↔
      inner.length ≤ limits.maxTotalInflated ∧ outcome = .inner inner := by
  rw [cap]
  by_cases h : limits.maxTotalInflated < inner.length
  · simp [h]
  · simp [h, Nat.le_of_not_lt h, eq_comm]

theorem peelArchive_of_archive {B : Backends} {data : Bytes} {name : Option String}
    {limits : Limits} {outcome : Peel} (harch : (sniff name data).isArchive = true)
    (h : peelArchive B data name limits = .ok outcome) :
    ∃ opened, Archive.openWithFormat B (sniff name data) data = .ok opened ∧
      ((∃ archive only b, opened = some archive ∧ fileIndices archive.entries = [only] ∧
          archive.read B only = .ok b ∧ b.length ≤ limits.maxTotalInflated ∧ outcome = .inner b) ∨
        (∀ archive, opened = some archive → ∀ only, fileIndices archive.entries ≠ [only]) ∧
          outcome = .notPacked) := by
  have hwrap : ¬ (sniff name data).isCompressionWrapper = true := by
    intro hwrap
    rw [Format.isArchive_eq_false_of_wrapper hwrap] at harch
    cases harch
  rw [peelArchive, if_neg hwrap, if_pos harch, bind_eq_ok] at h
  obtain ⟨opened, hopen, h⟩ := h
  refine ⟨opened, hopen, ?_⟩
  cases opened with
  | none =>
    simp only [pure_eq_ok] at h
    exact .inr ⟨by simp, h.symm⟩
  | some archive =>
    simp only at h
    split at h
    · rename_i only honly
      obtain ⟨b, hread, hb⟩ := bind_eq_ok.mp h
      obtain ⟨hle, rfl⟩ := cap_eq_ok.mp hb
      exact .inl ⟨archive, only, b, rfl, honly, hread, hle, rfl⟩
    · rename_i hnot
      simp only [pure_eq_ok] at h
      refine .inr ⟨?_, h.symm⟩
      intro other hother only honly
      obtain rfl := Option.some.inj hother
      exact hnot only honly

theorem fileIndices_eq (entries : List ArchiveEntry) :
    fileIndices entries = (fileMembers entries).map Prod.fst := by
  simp [fileIndices, fileMembers]

theorem detectArchive_of_not_single {B : Backends} {format : Format} {data : Bytes}
    {opened : Option Archive} (hopen : Archive.openWithFormat B format data = .ok opened)
    (hnot : ∀ archive, opened = some archive → ∀ only, fileIndices archive.entries ≠ [only]) :
    ∃ plan, detectArchive B format data = .ok plan ∧
      (∀ codec access, plan ≠ .wrapper codec access) ∧
      ∀ format index nm access, plan ≠ .member format index nm access := by
  cases opened with
  | none => exact ⟨.collection format, by simp [detectArchive, hopen], by simp, by simp⟩
  | some archive =>
    cases hkind : (if 2 ≤ (fileMembers archive.entries).length then
        classifySegmentKind (fileMembers archive.entries) else none) with
    | some kind =>
      obtain ⟨members, hmembers⟩ := exists_segments hopen kind
      exact ⟨.segmentSet format members kind, by simp [detectArchive, hopen, hkind, hmembers],
        by simp, by simp⟩
    | none =>
      refine ⟨.collection format, ?_, by simp, by simp⟩
      simp only [detectArchive, hopen, bind_eq_ok, Except.ok.injEq, exists_eq_left', hkind]
      split
      · rename_i i n hfiles
        exact absurd (by rw [fileIndices_eq, hfiles]; rfl) (hnot archive rfl i)
      · rfl

theorem sniff_of_magic {data : Bytes}
    (h : sevenZipMagic.isPrefixOf data = true ∨ zipMagic.isPrefixOf data = true ∨
      hasUstar data = true) (name : Option String) :
    sniff name data =
      if sevenZipMagic.isPrefixOf data then .sevenZip
      else if zipMagic.isPrefixOf data then .zip else .tar := by
  rw [sniff]
  by_cases h7 : sevenZipMagic.isPrefixOf data = true
  · simp [h7]
  · by_cases hz : zipMagic.isPrefixOf data = true
    · simp [h7, hz]
    · simp [h7, hz, (h.resolve_left h7).resolve_left hz]

section

variable {B : Backends} {data : Bytes} {name : Option String} {limits : Limits} {outcome : Peel}

theorem archive_agrees (hfaithful : FaithfulZip B data) (htemp : B.temp.Healthy)
    (hdata : data.length ≤ wordMax) (hcap : limits.maxTotalInflated < wordMax)
    (harch : (sniff name data).isArchive = true)
    (hdetect : detect B data = detectArchive B (sniff name data) data)
    (h : peelArchive B data name limits = .ok outcome) :
    outcome.Agrees (peelArchiveSeekable B data name limits) := by
  obtain ⟨opened, hopen, hsingle | ⟨hnot, rfl⟩⟩ := peelArchive_of_archive harch h
  · obtain ⟨archive, only, b, rfl, honly, hread, hle, rfl⟩ := hsingle
    obtain ⟨hfeed, hmax⟩ := Archive.read_eq_ok.mp hread
    obtain ⟨nm, hfiles⟩ : ∃ nm, fileMembers archive.entries = [(only, nm)] := by
      rw [fileIndices_eq, List.map_eq_singleton_iff] at honly
      obtain ⟨⟨i, nm⟩, hfiles, rfl⟩ := honly
      exact ⟨nm, hfiles⟩
    obtain ⟨entry, hget, -⟩ := mem_fileMembers.mp (hfiles ▸ List.mem_singleton_self _)
    obtain ⟨access, haccess⟩ := exists_memberAccess hopen (List.getElem?_eq_some_iff.mp hget).1
    have hplan := hdetect.trans (detectArchive_eq_member.mpr ⟨rfl, archive, hopen, hfiles, haccess⟩)
    have hsole : ∀ z, archive.backend = .zip z → ∃ zf, z.SoleFile only zf ∧ zf.name = nm := by
      intro z hz
      obtain ⟨zf, hzf, hname, -⟩ := soleFile_of_single hopen hz hfiles
      exact ⟨zf, hzf, hname⟩
    obtain ⟨source, hsource, hholds⟩ := executeMemberAccess_holds hfaithful htemp hdata hcap hopen
      hsole haccess hfeed hle (hmax.trans maxInflated_le_fileMax)
    exact ⟨source, peelArchiveSeekable_eq_inner.mpr (.inr ⟨_, _, _, _, hplan, hsource⟩),
      hholds.len, hholds.drainsTo⟩
  · obtain ⟨plan, hplan, hplain⟩ := detectArchive_of_not_single hopen hnot
    exact peelArchiveSeekable_eq_notPacked.mpr ⟨plan, hdetect.trans hplan, hplain⟩

theorem wrapper_agrees {codec : Codec} (htemp : B.temp.Healthy)
    (hcap : limits.maxTotalInflated < wordMax)
    (hwrap : (sniff name data).isCompressionWrapper = true)
    (hfeed : wrapperFeed B (sniff name data) data = codecReader B codec data)
    (hdetect : detect B data = detectWrapper B codec data)
    (hext : hasCompressionExt name = true)
    (hhead : ∀ head, peekHead B codec data = .ok head → sniff none head ≠ .tar)
    (h : peelArchive B data name limits = .ok outcome) :
    outcome.Agrees (peelArchiveSeekable B data name limits) := by
  rw [peelArchive, if_pos hwrap, if_pos hext, bind_eq_ok] at h
  obtain ⟨peeled, hpeel, h⟩ := h
  cases peeled with
  | notPacked => exact absurd hpeel (peelBytes_ne_notPacked hwrap)
  | peeled format inner =>
    obtain ⟨hle, rfl⟩ := cap_eq_ok.mp h
    obtain ⟨rfl, -, hdecode, hmax⟩ := peelBytes_eq_peeled.mp hpeel
    rw [hfeed] at hdecode
    have hcopied := (copied_of_lt hcap).trans hdecode
    have hspill := (spillWrapperToTemp_eq_ok hcap.le).mpr ⟨inner, hcopied, hle, htemp.takes _, rfl⟩
    have hpeek := peekHead_of_eof hdecode
    obtain ⟨access, hplan⟩ := detectWrapper_of_not_tar hpeek (hhead _ hpeek)
    rw [← hdetect] at hplan
    have hholds := holds_holding (hmax.trans maxInflated_le_fileMax)
    exact ⟨_, peelArchiveSeekable_eq_inner.mpr (.inl ⟨_, _, _, hplan, hspill, rfl⟩),
      hholds.len, hholds.drainsTo⟩

/-- Whenever the materialising peel succeeds, so does the streaming one, with the same
outcome and the same bytes. -/
theorem peelArchiveSeekable_agrees (hfaithful : FaithfulZip B data) (htemp : B.temp.Healthy)
    (hdata : data.length ≤ wordMax) (hcap : limits.maxTotalInflated < wordMax)
    (hcase : PeelCase B data name) (h : peelArchive B data name limits = .ok outcome) :
    outcome.Agrees (peelArchiveSeekable B data name limits) := by
  cases hcase with
  | magic hmagic =>
    have hnone : sniff name data = sniff none data :=
      (sniff_of_magic hmagic name).trans (sniff_of_magic hmagic none).symm
    have hformat : sniff none data = .sevenZip ∨ sniff none data = .zip ∨ sniff none data = .tar := by
      rw [sniff_of_magic hmagic none]
      split_ifs <;> simp
    refine archive_agrees hfaithful htemp hdata hcap ?_ ?_ h
    · rcases hformat with hf | hf | hf <;> rw [hnone, hf] <;> rfl
    · rcases hformat with hf | hf | hf <;> rw [hnone, detect, hf]
  | compressedTar codec head hcodec hpeek hustar hseven hzip =>
    have hhead : sniff none head = .tar := by simp [sniff, hseven, hzip, hustar]
    have htar := detectWrapper_of_tar hpeek hhead
    rcases hcodec with ⟨rfl, hnone, hname⟩ | ⟨rfl, hnone, hname⟩
    · refine archive_agrees hfaithful htemp hdata hcap (by rw [hname]; rfl) ?_ h
      rw [detect, hnone, hname]
      exact htar
    · refine archive_agrees hfaithful htemp hdata hcap (by rw [hname]; rfl) ?_ h
      rw [detect, hnone, hname]
      exact htar
  | bareWrapper codec hcodec hext hhead =>
    rcases hcodec with ⟨rfl, hnone, hname⟩ | ⟨rfl, hnone, hname⟩
    · exact wrapper_agrees htemp hcap (by rw [hname]; rfl) (by rw [hname]; rfl)
        (by rw [detect, hnone]) hext hhead h
    · exact wrapper_agrees htemp hcap (by rw [hname]; rfl) (by rw [hname]; rfl)
        (by rw [detect, hnone]) hext hhead h

end

theorem peelArchiveSeekable_agrees_deflateZip :
    (Peel.inner deflateZipFile.contents.items).Agrees
      (peelArchiveSeekable deflateReaders deflateZip none Limits.default) :=
  peelArchiveSeekable_agrees
    (zipReaders_faithful (by simp only [List.mem_singleton, forall_eq]; decide)
      (by simp only [List.mem_singleton, forall_eq]; decide))
    ⟨rfl, rfl, rfl, rfl⟩ (by decide) (by decide) (.magic (.inr (.inl (by decide)))) (by decide +kernel)

end ArchiveCore
