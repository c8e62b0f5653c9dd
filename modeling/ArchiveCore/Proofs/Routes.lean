import ArchiveCore.Proofs.Handles
import ArchiveCore.Proofs.Members

/-!
# What a plan says about the archive

Every archive plan comes from one opened archive, and a window or a seek index is only
ever planned for a member of a zip.
-/

namespace ArchiveCore

open Framework

/-- The file at `index`, no other file of the zip bearing its name. -/
structure ZipArchive.SoleFile (z : ZipArchive) (index : Nat) (zf : ZipFile) : Prop where
  lt : index < z.len
  found : z.byIndex index = .ok zf
  file : zf.isDir = false
  sole : ∀ j other, j < z.len → z.byIndex j = .ok other → other.isDir = false →
    other.name = zf.name → j = index

namespace Archive

variable {B : Backends} {a : Archive} {format : Format} {data : Bytes}

/-- What an opened archive can be: its backend is that of its format. -/
theorem openWithFormat_cases (h : openWithFormat B format data = .ok (some a)) :
    (∃ entries, a = ⟨format, entries, .tar data format⟩) ∨
    (format = .zip ∧ ∃ z entries, B.zipArchive data = .ok z ∧
      (List.range z.len).mapM (zipListing z) = .ok entries ∧ a = ⟨.zip, entries, .zip z⟩) ∨
    (format = .sevenZip ∧ ∃ reader, B.sevenZip data = .ok reader ∧
      a = ⟨.sevenZip, reader.files.map sevenZListing, .sevenZip reader⟩) := by
  cases format <;>
    simp only [openWithFormat, openTar, openZip, open7z, bind_eq_ok, pure_eq_ok, mapError_eq_ok,
      Option.some.injEq, Except.ok.injEq, reduceCtorEq] at h
  case zip =>
    obtain ⟨_, ⟨z, hz, entries, hentries, rfl⟩, rfl⟩ := h
    exact .inr (.inl ⟨rfl, z, entries, hz, hentries, rfl⟩)
  case sevenZip =>
    obtain ⟨_, ⟨reader, hreader, rfl⟩, rfl⟩ := h
    exact .inr (.inr ⟨rfl, reader, hreader, rfl⟩)
  all_goals
    obtain ⟨_, ⟨items, -, entries, -, rfl⟩, rfl⟩ := h
    exact .inl ⟨entries, rfl⟩

theorem openWithFormat_zip {z : ZipArchive}
    (h : openWithFormat B format data = .ok (some a)) (hz : a.backend = .zip z) :
    format = .zip ∧ B.zipArchive data = .ok z ∧
      (List.range z.len).mapM (zipListing z) = .ok a.entries := by
  rcases openWithFormat_cases h with ⟨_, rfl⟩ | ⟨rfl, z', _, hz', hentries, rfl⟩ | ⟨_, _, -, rfl⟩
  · cases hz
  · obtain rfl := Backend.zip.inj hz
    exact ⟨rfl, hz', hentries⟩
  · cases hz

theorem openWithFormat_sevenZip {reader : SevenZReader}
    (h : openWithFormat B format data = .ok (some a)) (hb : a.backend = .sevenZip reader) :
    format = .sevenZip ∧ a.entries = reader.files.map sevenZListing := by
  rcases openWithFormat_cases h with ⟨_, rfl⟩ | ⟨_, _, _, -, -, rfl⟩ | ⟨rfl, reader', -, rfl⟩
  · cases hb
  · cases hb
  · obtain rfl := Backend.sevenZip.inj hb
    exact ⟨rfl, rfl⟩

theorem tarItems_of_open {compressed : Bytes} {outer : Format}
    (h : openWithFormat B format data = .ok (some a)) (hb : a.backend = .tar compressed outer) :
    ∃ items, B.tarEntries (tarStream B compressed outer) = .ok items ∧
      items.mapM tarListing = .ok a.entries := by
  cases format <;>
    simp only [openWithFormat, openTar, openZip, open7z, bind_eq_ok, pure_eq_ok, mapError_eq_ok,
      Option.some.injEq, Except.ok.injEq, reduceCtorEq] at h
  case zip =>
    obtain ⟨_, ⟨_, _, _, _, rfl⟩, rfl⟩ := h
    cases hb
  case sevenZip =>
    obtain ⟨_, ⟨_, _, rfl⟩, rfl⟩ := h
    cases hb
  all_goals
    obtain ⟨_, ⟨items, hitems, entries, hentries, rfl⟩, rfl⟩ := h
    obtain ⟨rfl, rfl⟩ := Backend.tar.inj hb
    exact ⟨items, hitems, hentries⟩

theorem openWithFormat_of_sevenZip {reader : SevenZReader} (h : B.sevenZip data = .ok reader) :
    openWithFormat B .sevenZip data =
      .ok (some ⟨.sevenZip, reader.files.map sevenZListing, .sevenZip reader⟩) := by
  simp [openWithFormat, open7z, h]

theorem byIndex_of_lt {z : ZipArchive} {entries : List ArchiveEntry}
    (h : (List.range z.len).mapM (zipListing z) = .ok entries) {index : Nat}
    (hindex : index < entries.length) :
    ∃ zf, z.byIndex index = .ok zf ∧ entries[index]? = some ⟨zf.name, zf.size, zf.isDir⟩ := by
  obtain ⟨i, hi, hlisting⟩ := getElem?_of_mapM_eq_ok h index (List.getElem?_eq_getElem hindex)
  obtain ⟨-, rfl⟩ : i < z.len ∧ index = i := by
    have hlt := (List.getElem?_eq_some_iff.mp hi).1
    rw [List.getElem?_range (by simpa using hlt)] at hi
    exact ⟨by simpa [Option.some.inj hi] using hlt, Option.some.inj hi⟩
  simp only [zipListing, bind_eq_ok, mapError_eq_ok, pure_eq_ok] at hlisting
  obtain ⟨zf, hzf, hentry⟩ := hlisting
  exact ⟨zf, hzf, by rw [List.getElem?_eq_getElem hindex, ← hentry]⟩

theorem exists_zipFile {z : ZipArchive} (hopen : openWithFormat B format data = .ok (some a))
    (hb : a.backend = .zip z) {index : Nat} (hindex : index < a.entries.length) :
    ∃ zf, z.byIndex index = .ok zf ∧ a.entries[index]? = some ⟨zf.name, zf.size, zf.isDir⟩ :=
  byIndex_of_lt (openWithFormat_zip hopen hb).2.2 hindex

theorem memberFeed_zip {z : ZipArchive} {index : Nat} {feed : ByteFeed} (hz : a.backend = .zip z) :
    a.memberFeed B index = .ok feed ↔
      index < a.entries.length ∧ ∃ zf, z.byIndex index = .ok zf ∧ zf.contents = feed := by
  rw [memberFeed, hz]
  by_cases hindex : index < a.entries.length
  · simp [hindex]
  · simp [hindex]

theorem memberFeed_sevenZip {index : Nat} {reader : SevenZReader} {feed : ByteFeed}
    (hopen : openWithFormat B format data = .ok (some a))
    (hb : a.backend = .sevenZip reader) :
    a.memberFeed B index = .ok feed ↔
      ∃ f b, reader.files[index]? = some f ∧ f.size.toNat ≤ maxInflated ∧
        reader.readFile f.name = .ok b ∧ b.length ≤ maxInflated ∧ Feed.eof b = feed := by
  rw [memberFeed, hb, (openWithFormat_sevenZip hopen hb).2, List.getElem?_map]
  cases reader.files[index]? with
  | none => simp
  | some f => simp [sevenZListing, read7zMember_eq_ok, and_assoc]

theorem openWithFormat_zipReaders (image : Bytes) (members : List ZipFile) :
    openWithFormat (zipReaders image members) .zip image =
      .ok (some ⟨.zip, members.map fun zf => ⟨zf.name, zf.size, zf.isDir⟩, .zip (zipOf members)⟩) := by
  have hentries : (List.range members.length).mapM (zipListing (zipOf members)) =
      .ok (members.map fun zf => ⟨zf.name, zf.size, zf.isDir⟩) := by
    refine mapM_eq_ok.mpr (List.forall₂_iff_get.mpr ⟨by simp, fun i hi _ => ?_⟩)
    have hlt : i < members.length := by simpa using hi
    simp [zipListing, zipOf, hlt, Except.mapError]
  have hzip : openZip (zipReaders image members) image =
      .ok ⟨.zip, members.map fun zf => ⟨zf.name, zf.size, zf.isDir⟩, .zip (zipOf members)⟩ := by
    simp only [openZip, bind_eq_ok, mapError_eq_ok, pure_eq_ok]
    exact ⟨zipOf members, if_pos rfl, _, hentries, rfl⟩
  rw [openWithFormat, hzip]
  rfl

theorem entries_of_zipReaders {image : Bytes} {members : List ZipFile}
    (h : openWithFormat (zipReaders image members) format data = .ok (some a)) :
    a.entries = members.map fun zf => ⟨zf.name, zf.size, zf.isDir⟩ := by
  by_cases hdata : data = image
  · subst hdata
    cases format with
    | zip =>
      obtain rfl := openWithFormat_unique h (openWithFormat_zipReaders data members)
      rfl
    | _ => cases h
  · cases format with
    | zip => simp [openWithFormat, openZip, zipReaders, hdata, Except.mapError] at h
    | _ => cases h

theorem memberFeed_zipReaders {image : Bytes} {members : List ZipFile}
    (h : openWithFormat (zipReaders image members) .zip image = .ok (some a)) {index : Nat}
    {zf : ZipFile} (hzf : members[index]? = some zf) :
    a.memberFeed (zipReaders image members) index = .ok zf.contents := by
  obtain rfl := openWithFormat_unique h (openWithFormat_zipReaders image members)
  have hindex := (List.getElem?_eq_some_iff.mp hzf).1
  exact (memberFeed_zip rfl).mpr ⟨by simpa using hindex, zf, by simp [zipOf, hzf], rfl⟩

theorem memberAccess_zip {z : ZipArchive} {index : Nat} {access : Access}
    (hz : a.backend = .zip z) :
    a.memberAccess index = .ok access ↔
      index < a.entries.length ∧ ∃ zf, z.byIndex index = .ok zf ∧
        access = match zf.compression with
          | .stored => .inPlace zf.dataStart.toNat zf.compressedSize.toNat
          | .deflated | .deflate64 => .zran
          | .other _ => .spillToTemp := by
  rw [memberAccess, hz]
  by_cases hindex : a.entries.length ≤ index
  · simp [hindex, Nat.not_lt_of_le hindex]
  · simp only [hindex, if_false, bind_eq_ok, mapError_eq_ok, Nat.lt_of_not_ge hindex, true_and]
    apply exists_congr
    intro zf
    apply and_congr_right
    intro hzf
    cases zf.compression <;> simp [pure, Except.pure, eq_comm]

theorem memberAccess_of_not_zip {index : Nat} (hz : ∀ z, a.backend ≠ .zip z)
    {access : Access} :
    a.memberAccess index = .ok access ↔ index < a.entries.length ∧ access = .spillToTemp := by
  rw [memberAccess]
  by_cases hindex : a.entries.length ≤ index
  · simp [hindex, Nat.not_lt_of_le hindex]
  · simp only [hindex, if_false, Nat.lt_of_not_ge hindex, true_and]
    cases hb : a.backend with
    | zip z => exact absurd hb (hz z)
    | tar compressed outer => simp [eq_comm]
    | sevenZip reader => simp [eq_comm]

theorem zip_of_memberAccess {index : Nat} {access : Access}
    (h : a.memberAccess index = .ok access) (hroute : access ≠ .spillToTemp) :
    ∃ z, a.backend = .zip z := by
  by_contra hb
  exact hroute ((memberAccess_of_not_zip fun z hz => hb ⟨z, hz⟩).mp h).2

theorem stored_of_memberAccess {index offset len : Nat}
    (h : a.memberAccess index = .ok (.inPlace offset len)) :
    ∃ z zf, a.backend = .zip z ∧ z.byIndex index = .ok zf ∧ zf.compression = .stored ∧
      offset = zf.dataStart.toNat ∧ len = zf.compressedSize.toNat := by
  obtain ⟨z, hb⟩ := zip_of_memberAccess h (by simp)
  obtain ⟨-, zf, hzf, hplanned⟩ := (memberAccess_zip hb).mp h
  refine ⟨z, zf, hb, hzf, ?_⟩
  cases hmethod : zf.compression with
  | stored =>
    rw [hmethod] at hplanned
    simpa using hplanned
  | deflated => simp [hmethod] at hplanned
  | deflate64 => simp [hmethod] at hplanned
  | other code => simp [hmethod] at hplanned

theorem deflated_of_memberAccess {index : Nat} (h : a.memberAccess index = .ok .zran) :
    ∃ z zf, a.backend = .zip z ∧ z.byIndex index = .ok zf ∧
      (zf.compression = .deflated ∨ zf.compression = .deflate64) := by
  obtain ⟨z, hb⟩ := zip_of_memberAccess h (by simp)
  obtain ⟨-, zf, hzf, hplanned⟩ := (memberAccess_zip hb).mp h
  refine ⟨z, zf, hb, hzf, ?_⟩
  cases hmethod : zf.compression with
  | stored => simp [hmethod] at hplanned
  | deflated => exact .inl rfl
  | deflate64 => exact .inr rfl
  | other code => simp [hmethod] at hplanned

end Archive

theorem Archive.Stores.memberFeed {B : Backends} {format : Format} {data b : Bytes} {a : Archive}
    {index : Nat} (h : a.Stores B index b)
    (hopen : openWithFormat B format data = .ok (some a)) (hindex : index < a.entries.length)
    (hmax : b.length ≤ maxInflated) : a.memberFeed B index = .ok (Feed.eof b) := by
  rw [Stores] at h
  rw [Archive.memberFeed, List.getElem?_eq_getElem hindex]
  cases hb : a.backend with
  | tar compressed outer =>
    simp only [hb] at h
    obtain ⟨items, entry, hitems, hget, hcontents⟩ := h
    have hnth : nthTarEntry B compressed outer index = .ok entry := by
      simp [nthTarEntry, hitems, hget]
    simp [hnth, hcontents]
  | zip z =>
    simp only [hb] at h
    obtain ⟨zf, hzf, hcontents⟩ := h
    simp [hzf, hcontents]
  | sevenZip reader =>
    simp only [hb] at h
    obtain ⟨f, hget, hsize, hread⟩ := h
    have hentry : a.entries[index] = sevenZListing f := by
      have hlisted := (openWithFormat_sevenZip hopen hb).2
      have hsome : a.entries[index]? = some (sevenZListing f) := by
        rw [hlisted, List.getElem?_map, hget]
        rfl
      exact Option.some.inj ((List.getElem?_eq_getElem hindex).symm.trans hsome)
    have hbytes : read7zMember reader f.name f.size = .ok b :=
      read7zMember_eq_ok.mpr ⟨hsize ▸ hmax, hread, hmax⟩
    simp [hentry, sevenZListing, hbytes]

theorem detectArchive_eq_member {B : Backends} {outer format : Format} {data : Bytes}
    {index : Nat} {name : String} {access : Access} :
    detectArchive B outer data = .ok (.member format index name access) ↔
      format = outer ∧ ∃ archive, Archive.openWithFormat B outer data = .ok (some archive) ∧
        fileMembers archive.entries = [(index, name)] ∧ archive.memberAccess index = .ok access := by
  rw [detectArchive, bind_eq_ok]
  constructor
  · intro h
    obtain ⟨opened, hopen, h⟩ := h
    cases opened with
    | none => simp at h
    | some archive =>
      simp only at h
      split at h
      · simp only [bind_eq_ok, pure_eq_ok, reduceCtorEq, and_false, exists_false] at h
      · split at h
        · rename_i i n hfiles
          simp only [bind_eq_ok, pure_eq_ok, AccessPlan.member.injEq] at h
          obtain ⟨access', haccess, rfl, rfl, rfl, rfl⟩ := h
          exact ⟨rfl, archive, hopen, hfiles, haccess⟩
        · simp at h
  · intro h
    obtain ⟨rfl, archive, hopen, hfiles, haccess⟩ := h
    exact ⟨some archive, hopen, by simp [hfiles, haccess]⟩

theorem detectArchive_eq_segmentSet {B : Backends} {outer format : Format} {data : Bytes}
    {members : List Segment} {kind : SegmentKind} :
    detectArchive B outer data = .ok (.segmentSet format members kind) ↔
      format = outer ∧ ∃ archive, Archive.openWithFormat B outer data = .ok (some archive) ∧
        2 ≤ (fileMembers archive.entries).length ∧
        classifySegmentKind (fileMembers archive.entries) = some kind ∧
        (orderSegments (fileMembers archive.entries) kind).mapM (segmentOf archive) = .ok members := by
  rw [detectArchive, bind_eq_ok]
  constructor
  · intro h
    obtain ⟨opened, hopen, h⟩ := h
    cases opened with
    | none => simp at h
    | some archive =>
      simp only at h
      split at h
      · rename_i kind' hkind
        simp only [bind_eq_ok, pure_eq_ok, AccessPlan.segmentSet.injEq] at h
        obtain ⟨members', hmembers, rfl, rfl, rfl⟩ := h
        obtain ⟨hlen, hclass⟩ := Option.ite_none_right_eq_some.mp hkind
        exact ⟨rfl, archive, hopen, hlen, hclass, hmembers⟩
      · split at h
        · simp only [bind_eq_ok, pure_eq_ok, reduceCtorEq, and_false, exists_false] at h
        · simp at h
  · intro h
    obtain ⟨rfl, archive, hopen, hlen, hclass, hmembers⟩ := h
    exact ⟨some archive, hopen, by simp [hlen, hclass, hmembers]⟩

theorem detectArchive_of_detect {B : Backends} {data : Bytes} {plan : AccessPlan}
    (h : detect B data = .ok plan) (hdirect : plan ≠ .direct)
    (hwrapper : ∀ codec access, plan ≠ .wrapper codec access) :
    ∃ outer, outer.isArchive = true ∧ detectArchive B outer data = .ok plan := by
  have hcodec : ∀ codec, detectWrapper B codec data = .ok plan →
      ∃ outer, outer.isArchive = true ∧ detectArchive B outer data = .ok plan := by
    intro codec hw
    unfold detectWrapper at hw
    split at hw
    · exact absurd (Except.ok.inj hw).symm hdirect
    · split at hw
      · cases codec with
        | gzip => exact ⟨.tarGz, rfl, hw⟩
        | bzip2 => exact ⟨.tarBz2, rfl, hw⟩
      all_goals exact absurd (Except.ok.inj hw).symm (hwrapper _ _)
  cases hf : sniff none data <;> simp only [detect, hf] at h
  case gzip => exact hcodec _ h
  case bzip2 => exact hcodec _ h
  case unknown => exact absurd (Except.ok.inj h).symm hdirect
  all_goals exact ⟨_, rfl, h⟩

theorem peekHead_of_eof {B : Backends} {codec : Codec} {data inner : Bytes}
    (h : codecReader B codec data = Feed.eof inner) :
    peekHead B codec data = .ok (inner.take headPeek) := by
  rw [peekHead, h, mapError_eq_ok, Feed.readToEnd_eq_ok]
  by_cases hlen : headPeek ≤ inner.length
  · exact Feed.take_of_le_length hlen
  · rw [Feed.take_of_length_lt (by simpa using hlen), List.take_of_length_le (by omega)]

theorem detectWrapper_of_tar {B : Backends} {codec : Codec} {data head : Bytes}
    (hpeek : peekHead B codec data = .ok head) (hhead : sniff none head = .tar) :
    detectWrapper B codec data =
      detectArchive B (match codec with | .gzip => .tarGz | .bzip2 => .tarBz2) data := by
  unfold detectWrapper
  rw [hpeek]
  cases codec <;> simp [hhead]

theorem detectWrapper_of_not_tar {B : Backends} {codec : Codec} {data head : Bytes}
    (hpeek : peekHead B codec data = .ok head) (hhead : sniff none head ≠ .tar) :
    ∃ access, detectWrapper B codec data = .ok (.wrapper codec access) := by
  unfold detectWrapper
  rw [hpeek]
  cases hf : sniff none head
  case tar => exact absurd hf hhead
  all_goals simp [hf]

theorem member_of_detect {B : Backends} {data : Bytes} {format : Format} {index : Nat}
    {name : String} {access : Access} (h : detect B data = .ok (.member format index name access)) :
    ∃ archive, Archive.openWithFormat B format data = .ok (some archive) ∧
      fileMembers archive.entries = [(index, name)] ∧ archive.memberAccess index = .ok access := by
  obtain ⟨outer, -, hplan⟩ := detectArchive_of_detect h (by simp) (by simp)
  obtain ⟨rfl, harchive⟩ := detectArchive_eq_member.mp hplan
  exact harchive

theorem segmentSet_of_detect {B : Backends} {data : Bytes} {format : Format}
    {members : List Segment} {kind : SegmentKind}
    (h : detect B data = .ok (.segmentSet format members kind)) :
    ∃ archive, Archive.openWithFormat B format data = .ok (some archive) ∧
      2 ≤ (fileMembers archive.entries).length ∧
      classifySegmentKind (fileMembers archive.entries) = some kind ∧
      (orderSegments (fileMembers archive.entries) kind).mapM (segmentOf archive) = .ok members := by
  obtain ⟨outer, -, hplan⟩ := detectArchive_of_detect h (by simp) (by simp)
  obtain ⟨rfl, harchive⟩ := detectArchive_eq_segmentSet.mp hplan
  exact harchive

theorem mem_fileMembers {entries : List ArchiveEntry} {index : Nat} {name : String} :
    (index, name) ∈ fileMembers entries ↔
      ∃ entry, entries[index]? = some entry ∧ entry.isDir = false ∧ entry.name = name := by
  simp only [fileMembers, List.mem_map, List.mem_filter, Bool.not_eq_true', Prod.exists,
    Prod.mk.injEq]
  constructor
  · intro h
    obtain ⟨entry, i, ⟨hmem, hdir⟩, rfl, rfl⟩ := h
    exact ⟨entry, List.mem_zipIdx_iff_getElem?.mp hmem, hdir, rfl⟩
  · intro h
    obtain ⟨entry, hget, hdir, rfl⟩ := h
    exact ⟨entry, index, ⟨List.mem_zipIdx_iff_getElem?.mpr hget, hdir⟩, rfl, rfl⟩

theorem mem_orderSegments {files : List (Nat × String)} {kind : SegmentKind} {index seg : Nat}
    {name : String} :
    (index, name, seg) ∈ orderSegments files kind ↔
      (index, name) ∈ files ∧ segmentNumber name kind = some seg := by
  simp only [orderSegments, List.mem_mergeSort, List.mem_filterMap, Option.map_eq_some_iff,
    Prod.exists, Prod.mk.injEq]
  constructor
  · intro h
    obtain ⟨i, n, hmem, s, hs, rfl, rfl, rfl⟩ := h
    exact ⟨hmem, hs⟩
  · intro h
    obtain ⟨hmem, hs⟩ := h
    exact ⟨index, name, hmem, seg, hs, rfl, rfl, rfl⟩

theorem exists_memberAccess {B : Backends} {format : Format} {data : Bytes} {archive : Archive}
    (hopen : Archive.openWithFormat B format data = .ok (some archive)) {index : Nat}
    (hindex : index < archive.entries.length) :
    ∃ access, archive.memberAccess index = .ok access := by
  by_cases hb : ∃ z, archive.backend = .zip z
  · obtain ⟨z, hz⟩ := hb
    obtain ⟨zf, hzf, -⟩ := Archive.exists_zipFile hopen hz hindex
    exact ⟨_, (Archive.memberAccess_zip hz).mpr ⟨hindex, zf, hzf, rfl⟩⟩
  · exact ⟨_, (Archive.memberAccess_of_not_zip fun z hz => hb ⟨z, hz⟩).mpr ⟨hindex, rfl⟩⟩

theorem exists_segments {B : Backends} {format : Format} {data : Bytes} {archive : Archive}
    (hopen : Archive.openWithFormat B format data = .ok (some archive)) (kind : SegmentKind) :
    ∃ members, (orderSegments (fileMembers archive.entries) kind).mapM (segmentOf archive) =
      .ok members := by
  apply exists_mapM_eq_ok
  intro file hfile
  obtain ⟨index, name, seg⟩ := file
  obtain ⟨entry, hget, -⟩ := mem_fileMembers.mp (mem_orderSegments.mp hfile).1
  obtain ⟨access, haccess⟩ := exists_memberAccess hopen (List.getElem?_eq_some_iff.mp hget).1
  exact ⟨⟨name, index, access⟩, by simp [segmentOf, haccess]⟩

theorem soleFile_of_fileMembers {B : Backends} {format : Format} {data : Bytes}
    {archive : Archive} {z : ZipArchive} {index : Nat} {name : String}
    (hopen : Archive.openWithFormat B format data = .ok (some archive))
    (hb : archive.backend = .zip z) (hmem : (index, name) ∈ fileMembers archive.entries)
    (honly : ∀ j, (j, name) ∈ fileMembers archive.entries → j = index) :
    ∃ zf, z.SoleFile index zf ∧ zf.name = name ∧
      archive.entries[index]? = some ⟨zf.name, zf.size, zf.isDir⟩ := by
  obtain ⟨-, -, hentries⟩ := Archive.openWithFormat_zip hopen hb
  have hcount : archive.entries.length = z.len := by
    simpa using (mapM_eq_ok.mp hentries).length_eq.symm
  obtain ⟨entry, hget, hdir, rfl⟩ := mem_fileMembers.mp hmem
  have hindex := (List.getElem?_eq_some_iff.mp hget).1
  obtain ⟨zf, hzf, hentry⟩ := Archive.byIndex_of_lt hentries hindex
  obtain rfl := Option.some.inj (hentry.symm.trans hget)
  refine ⟨zf, ⟨hcount ▸ hindex, hzf, hdir, ?_⟩, rfl, hentry⟩
  intro j other hj hother hfile hname
  obtain ⟨other', hother', hlisted⟩ := Archive.byIndex_of_lt hentries (hcount ▸ hj)
  obtain rfl := Except.ok.inj (hother.symm.trans hother')
  exact honly j (mem_fileMembers.mpr ⟨_, hlisted, hfile, hname⟩)

theorem soleFile_of_single {B : Backends} {format : Format} {data : Bytes}
    {archive : Archive} {z : ZipArchive} {index : Nat} {name : String}
    (hopen : Archive.openWithFormat B format data = .ok (some archive))
    (hb : archive.backend = .zip z) (hfiles : fileMembers archive.entries = [(index, name)]) :
    ∃ zf, z.SoleFile index zf ∧ zf.name = name ∧
      archive.entries[index]? = some ⟨zf.name, zf.size, zf.isDir⟩ := by
  apply soleFile_of_fileMembers hopen hb (hfiles ▸ List.mem_singleton_self _)
  intro j hj
  rw [hfiles, List.mem_singleton] at hj
  exact congrArg Prod.fst hj

theorem writeArchiveTemp_eq_ok {B : Backends} {data archive : Bytes} :
    writeArchiveTemp B data = .ok archive ↔
      B.temp.create = .ok () ∧ B.temp.file.hasRoom data.length ∧ B.temp.flush = .ok () ∧
        archive = data := by
  have hwrite : (B.temp.file.writeAll data).2 = .ok () ↔ B.temp.file.hasRoom data.length := by
    by_cases hroom : B.temp.file.hasRoom data.length <;> simp [Sink.writeAll, hroom]
  have hwritten : B.temp.file.hasRoom data.length → (B.temp.file.writeAll data).1.written = data := by
    intro hroom
    rw [Sink.writeAll_of_hasRoom hroom]
    rfl
  simp only [writeArchiveTemp, bind_eq_ok, mapError_eq_ok, pure_eq_ok, hwrite]
  constructor
  · intro h
    obtain ⟨_, hcreate, _, hroom, _, hflush, rfl⟩ := h
    exact ⟨hcreate, hroom, hflush, hwritten hroom⟩
  · intro h
    obtain ⟨hcreate, hroom, hflush, rfl⟩ := h
    exact ⟨(), hcreate, (), hroom, (), hflush, hwritten hroom⟩

theorem memberUncompressedSize_eq_ok {B : Backends} {format : Format} {data : Bytes}
    {index size : Nat} :
    memberUncompressedSize B format data index = .ok size ↔
      ∃ archive entry, Archive.openWithFormat B format data = .ok (some archive) ∧
        archive.entries[index]? = some entry ∧ size = entry.size.toNat := by
  rw [memberUncompressedSize, bind_eq_ok]
  constructor
  · intro h
    obtain ⟨opened, hopen, h⟩ := h
    cases opened with
    | none => cases h
    | some archive =>
      simp only at h
      split at h
      · rename_i entry hentry
        exact ⟨archive, entry, hopen, hentry, (Except.ok.inj h).symm⟩
      · cases h
  · intro h
    obtain ⟨archive, entry, hopen, hentry, rfl⟩ := h
    exact ⟨some archive, hopen, by simp [hentry]⟩

theorem zip_of_zran_plan {B : Backends} {data : Bytes} {format : Format} {index : Nat}
    {name : String} (h : detect B data = .ok (.member format index name .zran)) :
    format = .zip ∧ ∃ z zf, B.zipArchive data = .ok z ∧ z.SoleFile index zf ∧ zf.name = name ∧
      memberUncompressedSize B .zip data index = .ok zf.size.toNat := by
  obtain ⟨archive, hopen, hfiles, haccess⟩ := member_of_detect h
  obtain ⟨z, hb⟩ := Archive.zip_of_memberAccess haccess (by simp)
  obtain ⟨rfl, hz, -⟩ := Archive.openWithFormat_zip hopen hb
  obtain ⟨zf, hsole, hname, hentry⟩ := soleFile_of_single hopen hb hfiles
  exact ⟨rfl, z, zf, hz, hsole, hname,
    memberUncompressedSize_eq_ok.mpr ⟨archive, _, hopen, hentry, rfl⟩⟩

theorem peelZran_eq_ok {B : Backends} {data : Bytes} {index : Nat} {name : String}
    {limits : Limits} {source : PeeledSource} :
    peelZran B .zip data index name limits = .ok source ↔
      ∃ size, memberUncompressedSize B .zip data index = .ok size ∧
        ((limits.maxIndexBytes < estimateZranIndexBytes size ∧
            ∃ t, spillMemberToTemp B .zip data index limits.maxTotalInflated = .ok t ∧
              .temp t = source) ∨
          (estimateZranIndexBytes size ≤ limits.maxIndexBytes ∧
            ∃ archive entry, writeArchiveTemp B data = .ok archive ∧
              B.openEntry archive name = .ok entry ∧
              .zran { entry, len := entry.len.toNat, pos := 0, archive } = source)) := by
  simp only [peelZran, ne_eq, not_true_eq_false, if_false, bind_eq_ok]
  apply exists_congr
  intro size
  apply and_congr_right
  intro hsize
  by_cases hgate : limits.maxIndexBytes < estimateZranIndexBytes size
  · simp [hgate, Nat.not_le_of_lt hgate]
  · simp [hgate, Nat.le_of_not_lt hgate]

theorem peelZran_eq_ok_of_ne {B : Backends} {format : Format} {data : Bytes} {index : Nat}
    {name : String} {limits : Limits} {source : PeeledSource} (h : format ≠ .zip) :
    peelZran B format data index name limits = .ok source ↔
      ∃ t, spillMemberToTemp B format data index limits.maxTotalInflated = .ok t ∧
        .temp t = source := by
  simp only [peelZran, h, ne_eq, not_false_eq_true, if_true, bind_eq_ok, pure_eq_ok]

/-- The route of a window: planned, within the cap and inside the image. -/
structure WindowRoute (data : Bytes) (limits : Limits) (access : Access) (offset len : Nat) :
    Prop where
  planned : access = .inPlace offset len
  capped : len ≤ limits.maxTotalInflated
  word : offset + len ≤ wordMax
  fits : offset + len ≤ data.length

/-- The route of a seek index: planned for a zip, its index small enough, and the archive
copied and opened by the name of the member. -/
structure IndexRoute (B : Backends) (format : Format) (data : Bytes) (limits : Limits)
    (index : Nat) (name : String) (access : Access) (entry : StoredZipEntry) : Prop where
  planned : access = .zran
  zip : format = .zip
  gate : ∃ size, memberUncompressedSize B .zip data index = .ok size ∧
    estimateZranIndexBytes size ≤ limits.maxIndexBytes
  create : B.temp.create = .ok ()
  room : B.temp.file.hasRoom data.length
  flush : B.temp.flush = .ok ()
  opens : B.openEntry data name = .ok entry

/-- The route of a spill: planned, or fallen back to from a seek index, and the member read
to its end within the cap. -/
structure SpillRoute (B : Backends) (format : Format) (data : Bytes) (limits : Limits)
    (index : Nat) (access : Access) (b : Bytes) : Prop where
  planned : access = .spillToTemp ∨ access = .zran ∧
    (format = .zip → ∃ size, memberUncompressedSize B .zip data index = .ok size ∧
      limits.maxIndexBytes < estimateZranIndexBytes size)
  reads : ∃ archive feed, Archive.openWithFormat B format data = .ok (some archive) ∧
    archive.memberFeed B index = .ok feed ∧
    archive.streamed limits.maxTotalInflated feed = Feed.eof b
  capped : b.length ≤ limits.maxTotalInflated
  takes : B.temp.Takes b.length

theorem spillRoute_iff {B : Backends} {format : Format} {data : Bytes} {limits : Limits}
    {index : Nat} {access : Access} {t : TempBacked}
    (hplanned : access = .spillToTemp ∨ access = .zran ∧
      (format = .zip → ∃ size, memberUncompressedSize B .zip data index = .ok size ∧
        limits.maxIndexBytes < estimateZranIndexBytes size)) :
    spillMemberToTemp B format data index limits.maxTotalInflated = .ok t ↔
      ∃ b, SpillRoute B format data limits index access b ∧ t = .holding b := by
  rw [spillMemberToTemp_eq_ok limits.maxTotalInflated_le]
  constructor
  · intro h
    obtain ⟨archive, feed, b, hopen, hfeed, hb, hcap, htakes, rfl⟩ := h
    exact ⟨b, ⟨hplanned, ⟨archive, feed, hopen, hfeed, hb⟩, hcap, htakes⟩, rfl⟩
  · intro h
    obtain ⟨b, ⟨-, ⟨archive, feed, hopen, hfeed, hb⟩, hcap, htakes⟩, rfl⟩ := h
    exact ⟨archive, feed, b, hopen, hfeed, hb, hcap, htakes, rfl⟩

/-- A member opens as a handle by exactly one of the three routes. -/
theorem executeMemberAccess_eq_ok {B : Backends} {format : Format} {data : Bytes} {index : Nat}
    {name : String} {access : Access} {limits : Limits} {source : PeeledSource} :
    executeMemberAccess B format data index name access limits = .ok source ↔
      (∃ offset len, WindowRoute data limits access offset len ∧
        source = .inPlace ⟨data, offset, len, 0⟩) ∨
      (∃ entry, IndexRoute B format data limits index name access entry ∧
        source = .zran ⟨entry, entry.len.toNat, 0, data⟩) ∨
      ∃ b, SpillRoute B format data limits index access b ∧ source = .temp (.holding b) := by
  constructor
  · intro h
    cases access with
    | inPlace offset len =>
      simp only [executeMemberAccess, bind_eq_ok, pure_eq_ok] at h
      obtain ⟨w, hw, rfl⟩ := h
      obtain ⟨hcap, hword, hfits, rfl⟩ := SubRange.newShared_eq_ok.mp hw
      exact .inl ⟨offset, len, ⟨rfl, hcap, hword, hfits⟩, rfl⟩
    | spillToTemp =>
      simp only [executeMemberAccess, bind_eq_ok, pure_eq_ok] at h
      obtain ⟨t, ht, rfl⟩ := h
      obtain ⟨b, hroute, rfl⟩ := (spillRoute_iff (.inl rfl)).mp ht
      exact .inr (.inr ⟨b, hroute, rfl⟩)
    | zran =>
      rw [executeMemberAccess] at h
      by_cases hzip : format = .zip
      · subst hzip
        obtain ⟨size, hsize, hroute⟩ := peelZran_eq_ok.mp h
        rcases hroute with ⟨hgate, t, ht, rfl⟩ | ⟨hgate, archive, entry, hwrite, hentry, rfl⟩
        · obtain ⟨b, hroute, rfl⟩ :=
            (spillRoute_iff (.inr ⟨rfl, fun _ => ⟨size, hsize, hgate⟩⟩)).mp ht
          exact .inr (.inr ⟨b, hroute, rfl⟩)
        · obtain ⟨hcreate, hroom, hflush, rfl⟩ := writeArchiveTemp_eq_ok.mp hwrite
          exact .inr (.inl ⟨entry, ⟨rfl, rfl, ⟨size, hsize, hgate⟩, hcreate, hroom, hflush, hentry⟩,
            rfl⟩)
      · obtain ⟨t, ht, rfl⟩ := (peelZran_eq_ok_of_ne hzip).mp h
        obtain ⟨b, hroute, rfl⟩ :=
          (spillRoute_iff (.inr ⟨rfl, fun h => absurd h hzip⟩)).mp ht
        exact .inr (.inr ⟨b, hroute, rfl⟩)
  · rintro (⟨offset, len, ⟨rfl, hcap, hword, hfits⟩, rfl⟩ |
      ⟨entry, ⟨rfl, rfl, ⟨size, hsize, hgate⟩, hcreate, hroom, hflush, hentry⟩, rfl⟩ |
      ⟨b, hroute, rfl⟩)
    · simp only [executeMemberAccess, bind_eq_ok, pure_eq_ok]
      exact ⟨_, SubRange.newShared_eq_ok.mpr ⟨hcap, hword, hfits, rfl⟩, rfl⟩
    · have hwrite := writeArchiveTemp_eq_ok.mpr ⟨hcreate, hroom, hflush, rfl⟩
      exact peelZran_eq_ok.mpr ⟨size, hsize, .inr ⟨hgate, _, entry, hwrite, hentry, rfl⟩⟩
    · have ht := (spillRoute_iff hroute.planned).mpr ⟨b, hroute, rfl⟩
      rcases hroute.planned with rfl | ⟨rfl, hgate⟩
      · simp only [executeMemberAccess, bind_eq_ok, pure_eq_ok]
        exact ⟨_, ht, rfl⟩
      · by_cases hzip : format = .zip
        · subst hzip
          obtain ⟨size, hsize, hpast⟩ := hgate rfl
          exact peelZran_eq_ok.mpr ⟨size, hsize, .inl ⟨hpast, _, ht, rfl⟩⟩
        · exact (peelZran_eq_ok_of_ne hzip).mpr ⟨_, ht, rfl⟩

section

variable {B : Backends} {format : Format} {data : Bytes} {limits : Limits} {index : Nat}
  {name : String} {access : Access} {source : PeeledSource}

theorem WindowRoute.opened {offset len : Nat} (h : WindowRoute data limits access offset len) :
    executeMemberAccess B format data index name access limits =
      .ok (.inPlace ⟨data, offset, len, 0⟩) :=
  executeMemberAccess_eq_ok.mpr (.inl ⟨offset, len, h, rfl⟩)

theorem IndexRoute.opened {entry : StoredZipEntry}
    (h : IndexRoute B format data limits index name access entry) :
    executeMemberAccess B format data index name access limits =
      .ok (.zran ⟨entry, entry.len.toNat, 0, data⟩) :=
  executeMemberAccess_eq_ok.mpr (.inr (.inl ⟨entry, h, rfl⟩))

theorem SpillRoute.opened {b : Bytes} (h : SpillRoute B format data limits index access b) :
    executeMemberAccess B format data index name access limits = .ok (.temp (.holding b)) :=
  executeMemberAccess_eq_ok.mpr (.inr (.inr ⟨b, h, rfl⟩))

theorem window_of_inPlace {offset len : Nat}
    (h : executeMemberAccess B format data index name (.inPlace offset len) limits = .ok source) :
    WindowRoute data limits (.inPlace offset len) offset len := by
  rcases executeMemberAccess_eq_ok.mp h with ⟨_, _, hroute, -⟩ | ⟨_, hroute, -⟩ | ⟨_, hroute, -⟩
  · cases hroute.planned
    exact hroute
  · cases hroute.planned
  · rcases hroute.planned with hspill | ⟨hspill, -⟩ <;> cases hspill

theorem index_of_gate {size : Nat}
    (h : executeMemberAccess B .zip data index name .zran limits = .ok source)
    (hsize : memberUncompressedSize B .zip data index = .ok size)
    (hgate : estimateZranIndexBytes size ≤ limits.maxIndexBytes) :
    ∃ entry, IndexRoute B .zip data limits index name .zran entry := by
  rcases executeMemberAccess_eq_ok.mp h with ⟨_, _, hroute, -⟩ | ⟨_, hroute, -⟩ | ⟨_, hroute, -⟩
  · cases hroute.planned
  · exact ⟨_, hroute⟩
  · rcases hroute.planned with hspill | ⟨-, hpast⟩
    · cases hspill
    · obtain ⟨size', hsize', hpast⟩ := hpast rfl
      obtain rfl := Except.ok.inj (hsize.symm.trans hsize')
      omega

theorem spill_of_planned
    (h : executeMemberAccess B format data index name access limits = .ok source)
    (hplanned : access = .spillToTemp ∨ access = .zran ∧
      (format = .zip → ∃ size, memberUncompressedSize B .zip data index = .ok size ∧
        limits.maxIndexBytes < estimateZranIndexBytes size)) :
    ∃ b, SpillRoute B format data limits index access b := by
  rcases executeMemberAccess_eq_ok.mp h with ⟨_, _, hroute, -⟩ | ⟨_, hroute, -⟩ | ⟨b, hroute, -⟩
  · rw [hroute.planned] at hplanned
    rcases hplanned with hspill | ⟨hspill, -⟩ <;> cases hspill
  · obtain ⟨size, hsize, hgate⟩ := hroute.gate
    rcases hplanned with rfl | ⟨-, hpast⟩
    · cases hroute.planned
    · obtain ⟨size', hsize', hpast⟩ := hpast hroute.zip
      obtain rfl := Except.ok.inj (hsize.symm.trans hsize')
      omega
  · exact ⟨b, hroute⟩

end

theorem peelArchiveSeekable_eq_inner {B : Backends} {data : Bytes} {name : Option String}
    {limits : Limits} {source : PeeledSource} :
    peelArchiveSeekable B data name limits = .ok (.inner source) ↔
      (∃ codec access t, detect B data = .ok (.wrapper codec access) ∧
        spillWrapperToTemp B data codec limits.maxTotalInflated = .ok t ∧ source = .temp t) ∨
      ∃ format index nm access, detect B data = .ok (.member format index nm access) ∧
        executeMemberAccess B format data index nm access limits = .ok source := by
  rw [peelArchiveSeekable, bind_eq_ok]
  constructor
  · intro h
    obtain ⟨plan, hplan, h⟩ := h
    cases plan with
    | direct => cases h
    | collection format => cases h
    | segmentSet format members kind => cases h
    | wrapper codec access =>
      simp only [bind_eq_ok, pure_eq_ok, PeelSource.inner.injEq] at h
      obtain ⟨t, ht, rfl⟩ := h
      exact .inl ⟨codec, access, t, hplan, ht, rfl⟩
    | member format index nm access =>
      simp only [bind_eq_ok, pure_eq_ok, PeelSource.inner.injEq] at h
      obtain ⟨source, hsource, rfl⟩ := h
      exact .inr ⟨format, index, nm, access, hplan, hsource⟩
  · intro h
    rcases h with ⟨codec, access, t, hplan, ht, rfl⟩ | ⟨format, index, nm, access, hplan, hsource⟩
    · exact ⟨_, hplan, by simp [ht]⟩
    · exact ⟨_, hplan, by simp [hsource]⟩

theorem peelArchiveSeekable_eq_notPacked {B : Backends} {data : Bytes} {name : Option String}
    {limits : Limits} :
    peelArchiveSeekable B data name limits = .ok .notPacked ↔
      ∃ plan, detect B data = .ok plan ∧ (∀ codec access, plan ≠ .wrapper codec access) ∧
        ∀ format index nm access, plan ≠ .member format index nm access := by
  rw [peelArchiveSeekable, bind_eq_ok]
  apply exists_congr
  intro plan
  apply and_congr_right
  intro hplan
  cases plan <;> simp [pure, Except.pure]

end ArchiveCore
