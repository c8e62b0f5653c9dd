import ArchiveCore.Core.ArchiveLayer
import ArchiveCore.Core.Images
import ArchiveCore.Core.Reassemble
import ArchiveCore.Proofs.BoundedWork
import ArchiveCore.Proofs.Routes

/-!
# The errors each entry point can report

An index out of range and an archive plan for what is no archive are checked for at every
level, yet no entry point ever reports either: a member is only asked for by the table it was
listed in, and what was listed once is found again. A limit that belongs to the recursion is
only reported by the recursion.
-/

namespace ArchiveCore

open Framework

/-- The errors of listing an archive. -/
def OpenKind : ArchiveError → Prop
  | .openError format _ => format ∈ ["tar", "zip", "7z"]
  | _ => False

/-- The errors of extracting a listed member under a cap. -/
def MemberKind (cap : Nat) : ArchiveError → Prop
  | .tooLarge max => max = cap ∨ max = maxInflated
  | .read format _ => format ∈ ["tar", "zip", "7z"]
  | _ => False

/-- The errors of peeling a bare wrapper under a cap. -/
def DecodeKind (cap : Nat) : ArchiveError → Prop
  | .decode format _ => format ∈ ["gzip", "bzip2"]
  | .tooLarge max => max = cap
  | _ => False

/-- The errors of the in-memory readers. -/
def PeelKind (e : ArchiveError) : Prop :=
  OpenKind e ∨ MemberKind maxInflated e ∨ DecodeKind maxInflated e

/-- The errors of a seekable handle. -/
def HandleKind (limits : Limits) : ArchiveError → Prop
  | .decode format _ => format ∈ ["gzip", "bzip2"]
  | .tooLarge max => max = limits.maxTotalInflated ∨ max = maxInflated
  | .openError format _ => format ∈ ["tar", "zip", "7z"]
  | .read format _ => format ∈ ["tar", "zip", "7z", "in-place", "temp-spill", "zip-zran"]
  | _ => False

/-- The limits of the recursion. -/
def LimitKind (limits : Limits) : ArchiveError → Prop
  | .depthExceeded max _ => max = limits.maxDepth
  | .tooManyEntries max => max = limits.maxEntries
  | .totalInflatedExceeded cap => cap = limits.maxTotalInflated
  | _ => False

variable {B : Backends} {data : Bytes} {format : Format} {a : Archive} {index cap : Nat}
  {limits : Limits}

theorem readCapped_kind {P : ArchiveError → Prop} {fail : String → ArchiveError}
    (hfail : ∀ detail, P (fail detail)) (hcap : P (.tooLarge cap)) (reader : ByteFeed) :
    FailsWith P (readCapped fail cap reader) := by
  refine (FailsWith.mapError hfail _).bind fun out _ => ?_
  by_cases h : cap < out.length
  · rw [if_pos h]
    exact .error hcap
  · rw [if_neg h]
    exact .ok out

theorem copyCapped_kind {P : ArchiveError → Prop} {fail : String → ArchiveError}
    (hfail : ∀ detail, P (fail detail)) (hcap : P (.tooLarge cap)) (reader : ByteFeed)
    (out : ByteSink) : FailsWith P (copyCapped fail reader out cap).2 := by
  rw [copyCapped]
  split
  · exact .error (hfail _)
  · rename_i n _
    by_cases h : cap < n
    · simp only [h, if_true]
      exact .error hcap
    · simp only [h, if_false]
      exact .ok n

theorem openWithFormat_kind (B : Backends) (format : Format) (data : Bytes) :
    FailsWith OpenKind (Archive.openWithFormat B format data) := by
  have htar : ∀ outer, FailsWith OpenKind (openTar B outer data) := by
    intro outer
    refine (FailsWith.mapError (by simp [OpenKind]) _).bind fun items _ => ?_
    refine (FailsWith.mapM fun item _ => ?_).bind fun entries _ => .ok _
    refine (FailsWith.mapError (by simp [OpenKind]) _).bind fun entry _ => ?_
    exact (FailsWith.mapError (by simp [OpenKind]) _).bind fun size _ => .ok _
  have hzip : FailsWith OpenKind (openZip B data) := by
    refine (FailsWith.mapError (by simp [OpenKind]) _).bind fun z _ => ?_
    refine (FailsWith.mapM fun index _ => ?_).bind fun entries _ => .ok _
    exact (FailsWith.mapError (by simp [OpenKind]) _).bind fun f _ => .ok _
  have h7z : FailsWith OpenKind (open7z B data) :=
    (FailsWith.mapError (by simp [OpenKind]) _).bind fun reader _ => .ok _
  cases format with
  | tar => exact (htar _).bind fun archive _ => .ok _
  | tarGz => exact (htar _).bind fun archive _ => .ok _
  | tarBz2 => exact (htar _).bind fun archive _ => .ok _
  | zip => exact hzip.bind fun archive _ => .ok _
  | sevenZip => exact h7z.bind fun archive _ => .ok _
  | gzip => exact .ok _
  | bzip2 => exact .ok _
  | unknown => exact .ok _

theorem nthTarEntry_kind {compressed : Bytes} {outer : Format}
    (hopen : Archive.openWithFormat B format data = .ok (some a))
    (hb : a.backend = .tar compressed outer) (hindex : index < a.entries.length) (cap : Nat) :
    FailsWith (MemberKind cap) (nthTarEntry B compressed outer index) := by
  obtain ⟨items, hitems, hlisted⟩ := Archive.tarItems_of_open hopen hb
  have hlength := (mapM_eq_ok.mp hlisted).length_eq
  have hget : items[index]? = some items[index] := List.getElem?_eq_getElem (hlength ▸ hindex)
  have hnth : nthTarEntry B compressed outer index = items[index].mapError (.read "tar") := by
    rw [nthTarEntry, hitems]
    simp only [Except.mapError, bind, Except.bind, hget]
  rw [hnth]
  exact FailsWith.mapError (by simp [MemberKind]) _

theorem read7zMember_kind (reader : SevenZReader) (name : String) (size : UInt64) (cap : Nat) :
    FailsWith (MemberKind cap) (read7zMember reader name size) := by
  rw [read7zMember]
  by_cases hsize : maxInflated < size.toNat
  · rw [if_pos hsize]
    exact .error (by simp [MemberKind])
  · rw [if_neg hsize]
    refine (FailsWith.mapError (by simp [MemberKind]) _).bind fun out _ => ?_
    by_cases hlen : maxInflated < out.length
    · rw [if_pos hlen]
      exact .error (by simp [MemberKind])
    · rw [if_neg hlen]
      exact .ok out

theorem read_kind (hopen : Archive.openWithFormat B format data = .ok (some a))
    (hindex : index < a.entries.length) : FailsWith (MemberKind maxInflated) (a.read B index) := by
  rw [Archive.read, List.getElem?_eq_getElem hindex]
  cases hb : a.backend with
  | tar compressed outer =>
    exact (nthTarEntry_kind hopen hb hindex maxInflated).bind fun entry _ =>
      readCapped_kind (by simp [MemberKind]) (by simp [MemberKind]) _
  | zip z =>
    exact (FailsWith.mapError (by simp [MemberKind]) _).bind fun zf _ =>
      readCapped_kind (by simp [MemberKind]) (by simp [MemberKind]) _
  | sevenZip reader => exact read7zMember_kind reader _ _ _

theorem streamMember_kind (hopen : Archive.openWithFormat B format data = .ok (some a))
    (hindex : index < a.entries.length) (out : ByteSink) (cap : Nat) :
    FailsWith (MemberKind cap) (a.streamMember B index out cap).2 := by
  rw [Archive.streamMember, List.getElem?_eq_getElem hindex]
  cases hb : a.backend with
  | tar compressed outer =>
    simp only [streamTarMember]
    cases hentry : nthTarEntry B compressed outer index with
    | error e => exact .error (nthTarEntry_kind hopen hb hindex cap e hentry)
    | ok entry => exact copyCapped_kind (by simp [MemberKind]) (by simp [MemberKind]) _ _
  | zip z =>
    simp only [streamZipMember]
    cases z.byIndex index with
    | error e => exact .error (by simp [MemberKind])
    | ok zf => exact copyCapped_kind (by simp [MemberKind]) (by simp [MemberKind]) _ _
  | sevenZip reader =>
    simp only
    cases hbytes : read7zMember reader a.entries[index].name a.entries[index].size with
    | error e => exact .error (read7zMember_kind _ _ _ cap e hbytes)
    | ok bytes =>
      by_cases hlen : cap < bytes.length
      · simp only [hlen, if_true]
        exact .error (by simp [MemberKind])
      · simp only [hlen, if_false]
        cases hwrite : out.writeAll bytes with
        | mk out' result =>
          cases result with
          | error e => exact .error (by simp [MemberKind])
          | ok u => exact .ok _

theorem peelBytes_kind (B : Backends) (data : Bytes) (name : Option String) :
    FailsWith (DecodeKind maxInflated) (peelBytes B data name) := by
  rw [peelBytes]
  cases sniff name data <;> try exact .ok _
  · exact (readCapped_kind (by simp [DecodeKind]) (by simp [DecodeKind]) _).bind fun inner _ => .ok _
  · exact (readCapped_kind (by simp [DecodeKind]) (by simp [DecodeKind]) _).bind fun inner _ => .ok _

theorem layerError_kind {item : Item} {e : ArchiveError} (h : LayerError B item e) : PeelKind e := by
  cases h with
  | peel hwrap hpeel => exact .inr (.inr (peelBytes_kind B _ _ e hpeel))
  | opening harch hopen => exact .inl (openWithFormat_kind B _ _ e hopen)
  | member hopen hentry hdir hread =>
    have hindex := List.snd_lt_of_mem_zipIdx hentry
    exact .inr (.inl (read_kind hopen (by simpa using hindex) e hread))

theorem resolve_kind (B : Backends) (data : Bytes) (name : Option String) (limits : Limits) :
    FailsWith (fun e => PeelKind e ∨ LimitKind limits e) (resolve B data name limits) := by
  intro e h
  cases Guard.walk_error (walk_eq_error.mp h) with
  | tooMany => exact .inr rfl
  | tooCostly => exact .inr rfl
  | tooDeep _ => exact .inr rfl
  | expand _ _ hexpand => exact .inl (layerError_kind (layerError_of_layers hexpand))
  | fetch _ _ hexpand hmem => exact .inl (layerError_kind (layerError_of_fetch hexpand hmem))

theorem peelArchive_kind (B : Backends) (data : Bytes) (name : Option String) (limits : Limits) :
    FailsWith (fun e => PeelKind e ∨ e = .totalInflatedExceeded limits.maxTotalInflated)
      (peelArchive B data name limits) := by
  have hcap : ∀ inner : Bytes,
      FailsWith (fun e => PeelKind e ∨ e = .totalInflatedExceeded limits.maxTotalInflated)
        (cap inner limits) := by
    intro inner
    rw [cap]
    by_cases h : limits.maxTotalInflated < inner.length
    · rw [if_pos h]
      exact .error (.inr rfl)
    · rw [if_neg h]
      exact .ok _
  rw [peelArchive]
  by_cases hwrap : (sniff name data).isCompressionWrapper = true
  · rw [if_pos hwrap]
    by_cases hext : hasCompressionExt name = true
    · rw [if_pos hext]
      refine ((peelBytes_kind B data name).imp fun e h => .inl (.inr (.inr h))).bind
        fun outcome _ => ?_
      cases outcome with
      | notPacked => exact .ok _
      | peeled format inner => exact hcap inner
    · rw [if_neg hext]
      exact .ok _
  · rw [if_neg hwrap]
    by_cases harch : (sniff name data).isArchive = true
    · rw [if_pos harch]
      refine ((openWithFormat_kind B _ data).imp fun e h => .inl (.inl h)).bind fun opened hopen => ?_
      cases opened with
      | none => exact .ok _
      | some archive =>
        simp only
        split
        · rename_i only honly
          have hmem : only ∈ fileIndices archive.entries := by
            rw [honly]
            exact List.mem_cons_self
          obtain ⟨e, he, rfl⟩ := List.mem_map.mp hmem
          have hindex := List.snd_lt_of_mem_zipIdx (List.mem_of_mem_filter he)
          exact ((read_kind hopen (by simpa using hindex)).imp fun e h => .inl (.inr (.inl h))).bind
            fun bytes _ => hcap bytes
        · exact .ok _
    · rw [if_neg harch]
      exact .ok _

theorem detectArchive_kind (B : Backends) (format : Format) (data : Bytes) :
    FailsWith OpenKind (detectArchive B format data) := by
  refine (openWithFormat_kind B format data).bind fun opened hopen => ?_
  cases opened with
  | none => exact .ok _
  | some archive =>
    simp only
    split
    · rename_i kind _
      obtain ⟨members, hmembers⟩ := exists_segments hopen kind
      rw [hmembers]
      exact .ok _
    · split
      · rename_i index name hfiles
        have hmem : (index, name) ∈ fileMembers archive.entries := by
          rw [hfiles]
          exact List.mem_cons_self
        obtain ⟨entry, hget, -⟩ := mem_fileMembers.mp hmem
        obtain ⟨access, haccess⟩ := exists_memberAccess hopen (List.getElem?_eq_some_iff.mp hget).1
        rw [haccess]
        exact .ok _
      · exact .ok _

theorem detect_kind (B : Backends) (data : Bytes) : FailsWith OpenKind (detect B data) := by
  have hwrapper : ∀ codec, FailsWith OpenKind (detectWrapper B codec data) := by
    intro codec
    unfold detectWrapper
    split
    · exact .ok _
    · split
      · cases codec
        · exact detectArchive_kind B .tarGz data
        · exact detectArchive_kind B .tarBz2 data
      all_goals exact .ok _
  rw [detect]
  cases sniff none data with
  | gzip => exact hwrapper .gzip
  | bzip2 => exact hwrapper .bzip2
  | unknown => exact .ok _
  | tarGz => exact detectArchive_kind B .tarGz data
  | tarBz2 => exact detectArchive_kind B .tarBz2 data
  | tar => exact detectArchive_kind B .tar data
  | zip => exact detectArchive_kind B .zip data
  | sevenZip => exact detectArchive_kind B .sevenZip data

theorem spill_kind {P : ArchiveError → Prop} {fill : ByteSink → ByteSink × Except ArchiveError Nat}
    (htemp : ∀ detail, P (.read "temp-spill" detail)) (hfill : FailsWith P (fill B.temp.file).2) :
    FailsWith P (spill B fill) := by
  refine (FailsWith.mapError htemp _).bind fun _ _ => hfill.bind fun written _ => ?_
  exact (FailsWith.mapError htemp _).bind fun _ _ =>
    (FailsWith.mapError htemp _).bind fun _ _ => .ok _

theorem handleKind_of_memberKind {e : ArchiveError} (h : MemberKind limits.maxTotalInflated e) :
    HandleKind limits e := by
  cases e <;> simp_all only [MemberKind, HandleKind]
  case read format detail =>
    simp only [List.mem_cons, List.not_mem_nil, or_false] at h ⊢
    tauto

theorem handleKind_of_openKind {e : ArchiveError} (h : OpenKind e) : HandleKind limits e := by
  cases e <;> simp_all only [OpenKind, HandleKind]

theorem executeMemberAccess_kind
    (hopen : Archive.openWithFormat B format data = .ok (some a)) (hindex : index < a.entries.length)
    (name : String) (access : Access) (limits : Limits) :
    FailsWith (HandleKind limits) (executeMemberAccess B format data index name access limits) := by
  have hspill : FailsWith (HandleKind limits)
      (spillMemberToTemp B format data index limits.maxTotalInflated) := by
    rw [spillMemberToTemp, hopen]
    refine (FailsWith.ok (some a)).bind fun opened hopened => ?_
    obtain rfl := Except.ok.inj hopened
    exact spill_kind (by simp [HandleKind])
      ((streamMember_kind hopen hindex _ _).imp fun e => handleKind_of_memberKind)
  have htemp : FailsWith (HandleKind limits) (do
      return PeeledSource.temp (← spillMemberToTemp B format data index limits.maxTotalInflated)) :=
    hspill.bind fun t _ => .ok _
  cases access with
  | spillToTemp => exact htemp
  | inPlace offset len =>
    refine FailsWith.bind ?_ fun w _ => .ok _
    rw [SubRange.newShared]
    by_cases hcap : limits.maxTotalInflated < len
    · rw [if_pos hcap]
      exact .error (by simp [HandleKind])
    · rw [if_neg hcap]
      split
      · exact .ok _
      · exact .error (by simp [HandleKind])
  | zran =>
    rw [executeMemberAccess, peelZran]
    by_cases hzip : format ≠ .zip
    · rw [if_pos hzip]
      exact htemp
    · rw [if_neg hzip]
      have hsize : FailsWith (HandleKind limits) (memberUncompressedSize B format data index) := by
        rw [memberUncompressedSize, hopen]
        refine (FailsWith.ok (some a)).bind fun opened hopened => ?_
        obtain rfl := Except.ok.inj hopened
        simp only [List.getElem?_eq_getElem hindex]
        exact .ok _
      have hzran : ∀ detail, HandleKind limits (.read "zip-zran" detail) := by simp [HandleKind]
      have hwrite : FailsWith (HandleKind limits) (writeArchiveTemp B data) :=
        (FailsWith.mapError hzran _).bind fun _ _ => (FailsWith.mapError hzran _).bind fun _ _ =>
          (FailsWith.mapError hzran _).bind fun _ _ => .ok _
      refine hsize.bind fun size _ => ?_
      by_cases hgate : limits.maxIndexBytes < estimateZranIndexBytes size
      · rw [if_pos hgate]
        exact htemp
      · rw [if_neg hgate]
        exact hwrite.bind fun archive _ => (FailsWith.mapError hzran _).bind fun entry _ => .ok _

theorem peelArchiveSeekable_kind (B : Backends) (data : Bytes) (name : Option String)
    (limits : Limits) : FailsWith (HandleKind limits) (peelArchiveSeekable B data name limits) := by
  refine ((detect_kind B data).imp fun e => handleKind_of_openKind).bind fun plan hplan => ?_
  cases plan with
  | direct => exact .ok _
  | collection format => exact .ok _
  | segmentSet format members kind => exact .ok _
  | wrapper codec access =>
    refine FailsWith.bind (spill_kind (by simp [HandleKind]) ?_) fun t _ => .ok _
    have hcodec : codecName codec ∈ ["gzip", "bzip2"] := by cases codec <;> simp [codecName]
    exact copyCapped_kind (fun _ => hcodec) (.inl rfl) _ _
  | member format index nm access =>
    obtain ⟨archive, hopen, hfiles, -⟩ := member_of_detect hplan
    have hmem : (index, nm) ∈ fileMembers archive.entries := by
      rw [hfiles]
      exact List.mem_cons_self
    obtain ⟨entry, hget, -⟩ := mem_fileMembers.mp hmem
    exact (executeMemberAccess_kind hopen (List.getElem?_eq_some_iff.mp hget).1 nm access limits).bind
      fun source _ => .ok _

theorem segmentSources_kind (B : Backends) (data : Bytes) (limits : Limits) :
    FailsWith (HandleKind limits) (segmentSources B data limits) := by
  refine ((detect_kind B data).imp fun e => handleKind_of_openKind).bind fun plan hplan => ?_
  cases plan with
  | direct => exact .ok _
  | collection format => exact .ok _
  | wrapper codec access => exact .ok _
  | member format index nm access => exact .ok _
  | segmentSet format members kind =>
    obtain ⟨archive, hopen, -, -, hmembers⟩ := segmentSet_of_detect hplan
    refine FailsWith.bind (FailsWith.mapM fun seg hseg => ?_) fun sources _ => .ok _
    obtain ⟨i, hi, hget⟩ := List.mem_iff_getElem.mp hseg
    obtain ⟨⟨index, nm, number⟩, hfile, hsegment⟩ :=
      getElem?_of_mapM_eq_ok hmembers i (List.getElem?_eq_some_iff.mpr ⟨hi, hget⟩)
    obtain ⟨entry, hentry, -⟩ :=
      mem_fileMembers.mp (mem_orderSegments.mp (List.mem_of_getElem? hfile)).1
    simp only [segmentOf, bind_eq_ok, pure_eq_ok] at hsegment
    obtain ⟨access, -, rfl⟩ := hsegment
    exact executeMemberAccess_kind hopen (List.getElem?_eq_some_iff.mp hentry).1 nm access limits

theorem reassemble_kind (B : Backends) (data : Bytes) (limits : Limits) :
    FailsWith (HandleKind limits) (reassemble B data limits) := by
  refine (segmentSources_kind B data limits).bind fun sources _ => ?_
  cases sources with
  | none => exact .ok _
  | some ss =>
    obtain ⟨format, kind, sources⟩ := ss
    cases kind <;> exact .ok _

/-- The errors each entry point can report. None is an index out of range or an archive plan
for what is no archive, and only the recursion reports a depth or a number of entries. -/
theorem entryPoint_error_kinds (B : Backends) (data : Bytes) (name : Option String)
    (limits : Limits) :
    FailsWith OpenKind (detect B data) ∧
    FailsWith (fun e => PeelKind e ∨ LimitKind limits e) (resolve B data name limits) ∧
    FailsWith (fun e => PeelKind e ∨ e = .totalInflatedExceeded limits.maxTotalInflated)
      (peelArchive B data name limits) ∧
    FailsWith (HandleKind limits) (peelArchiveSeekable B data name limits) ∧
    FailsWith (HandleKind limits) (segmentSources B data limits) ∧
    FailsWith (HandleKind limits) (reassemble B data limits) :=
  ⟨detect_kind B data, resolve_kind B data name limits, peelArchive_kind B data name limits,
    peelArchiveSeekable_kind B data name limits, segmentSources_kind B data limits,
    reassemble_kind B data limits⟩

theorem memberAccess_kind (hopen : Archive.openWithFormat B format data = .ok (some a))
    (hindex : index < a.entries.length) : FailsWith (fun _ => False) (a.memberAccess index) := by
  obtain ⟨access, haccess⟩ := exists_memberAccess hopen hindex
  rw [haccess]
  exact .ok access

/-- An opened archive reports an index out of range for the positions past its table and for
no other, with that position and the length of the table. -/
theorem indexOutOfRange_iff (hopen : Archive.openWithFormat B format data = .ok (some a))
    (index i count : Nat) (out : ByteSink) (cap : Nat) :
    (a.read B index = .error (.indexOutOfRange i count) ↔
      a.entries.length ≤ index ∧ i = index ∧ count = a.entries.length) ∧
    ((a.streamMember B index out cap).2 = .error (.indexOutOfRange i count) ↔
      a.entries.length ≤ index ∧ i = index ∧ count = a.entries.length) ∧
    (a.memberAccess index = .error (.indexOutOfRange i count) ↔
      a.entries.length ≤ index ∧ i = index ∧ count = a.entries.length) := by
  by_cases hindex : index < a.entries.length
  · have hnot : ¬ a.entries.length ≤ index := Nat.not_le_of_lt hindex
    refine ⟨?_, ?_, ?_⟩
    · exact iff_of_false (fun h => read_kind hopen hindex _ h) fun h => hnot h.1
    · exact iff_of_false (fun h => streamMember_kind hopen hindex out cap _ h) fun h => hnot h.1
    · exact iff_of_false (fun h => memberAccess_kind hopen hindex _ h) fun h => hnot h.1
  · have hle := Nat.le_of_not_lt hindex
    simp [Archive.read, Archive.streamMember, Archive.memberAccess, hle, eq_comm]

theorem indexOutOfRange_oneEntry :
    ∃ a, Archive.openWithFormat deflateReaders .zip deflateZip = .ok (some a) ∧
      a.read deflateReaders 1 = .error (.indexOutOfRange 1 1) := by
  have hopen := Archive.openWithFormat_zipReaders deflateZip [deflateZipFile]
  exact ⟨_, hopen, (indexOutOfRange_iff hopen 1 1 1 (Sink.buffer "") 0).1.mpr ⟨le_rfl, rfl, rfl⟩⟩

end ArchiveCore
