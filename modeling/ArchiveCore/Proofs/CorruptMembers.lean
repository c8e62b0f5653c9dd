import ArchiveCore.Proofs.PeelAgreement
import ArchiveCore.Proofs.SegmentTotal
import ArchiveCore.Proofs.StitchedReads

/-!
# Corrupt members

The zip reader checks a member when it is read to end of file, so whatever drains that
reader reports a corrupt member. A window goes past the reader, as does a seek index whose
entry delivers its bytes to the end, and a copy under the largest cap never asks it for
anything; on these three routes a corrupt member comes through unreported. A raw split comes
to its end where its segments, one after another, do.
-/

namespace ArchiveCore

open Framework

/-- One byte of the reflected CRC-32. -/
def crc32Byte (crc : UInt32) (byte : UInt8) : UInt32 :=
  Nat.repeat (fun crc => if crc &&& 1 = 1 then crc >>> 1 ^^^ 0xEDB88320 else crc >>> 1) 8
    (crc ^^^ byte.toUInt32)

def crc32 (b : Bytes) : UInt32 := ~~~ b.foldl crc32Byte 0xFFFFFFFF

/-- `123456789` -/
example : crc32 [0x31, 0x32, 0x33, 0x34, 0x35, 0x36, 0x37, 0x38, 0x39] = 0xCBF43926 := by
  decide +kernel

/-- The reader of a member comes to end of file only with what the member decodes to, and
only when that has the checksum on record. -/
def ZipArchive.VerifiesCrc (z : ZipArchive) (decoded : Nat → Bytes) (recorded : Nat → UInt32) :
    Prop :=
  ∀ index zf b, z.byIndex index = .ok zf → zf.contents = Feed.eof b →
    b = decoded index ∧ crc32 b = recorded index

/-- A file of an opened zip that decodes to bytes its recorded checksum is not of. -/
structure CorruptMember (B : Backends) (data : Bytes) (archive : Archive) (z : ZipArchive)
    (decoded : Nat → Bytes) (recorded : Nat → UInt32) (index : Nat) : Prop where
  opens : Archive.openWithFormat B .zip data = .ok (some archive)
  zip : archive.backend = .zip z
  file : ∃ entry, archive.entries[index]? = some entry ∧ entry.isDir = false
  mismatch : crc32 (decoded index) ≠ recorded index

/-- The ways of extracting one member of a zip end to end, each of them completed. -/
inductive Completed (B : Backends) (data : Bytes) (limits : Limits) (cap : Nat)
    (archive : Archive) (index : Nat) : Prop
  | read {b : Bytes} (h : archive.read B index = .ok b)
  | stream {out out' : ByteSink} {n : Nat} (h : archive.streamMember B index out cap = (out', .ok n))
  | peel {name : Option String} {b : Bytes} (hsniff : sniff name data = .zip)
      (h : peelArchive B data name limits = .ok (.inner b))
  | peelSeekable {name : Option String} {nm : String} {access : Access} {source : PeeledSource}
      {b : Bytes} (hplan : detect B data = .ok (.member .zip index nm access))
      (h : peelArchiveSeekable B data name limits = .ok (.inner source))
      (hread : PeeledSource.readSeek.ReadsOut source b)
  | segment {members : List Segment} {kind : SegmentKind} {ss : SegmentSources} {k : Nat}
      {seg : Segment} {source : PeeledSource} {b : Bytes}
      (hplan : detect B data = .ok (.segmentSet .zip members kind))
      (h : segmentSources B data limits = .ok (some ss) ∨ reassemble B data limits = .ok (.segments ss))
      (hseg : members[k]? = some seg) (hindex : seg.index = index)
      (hsource : ss.sources[k]? = some source) (hread : PeeledSource.readSeek.ReadsOut source b)
  | concat {members : List Segment} {kind : SegmentKind} {c : ConcatSource} {b : Bytes}
      (hplan : detect B data = .ok (.segmentSet .zip members kind))
      (h : reassemble B data limits = .ok (.concat c))
      (hread : ConcatSource.readSeek.ReadsOut c b)

/-- Read an entry from `pos` on with buffers of the given sizes until a read brings nothing;
`none` when the buffers run out first. -/
def StoredZipEntry.readToEnd (entry : StoredZipEntry) :
    List Nat → Nat → Option (Except String Bytes)
  | [], _ => none
  | size :: sizes, pos =>
    match entry.readAt pos size with
    | .error e => some (.error e)
    | .ok [] => some (.ok [])
    | .ok (x :: xs) =>
      (entry.readToEnd sizes (satAdd pos (x :: xs).length)).map (Except.map (x :: xs ++ ·))

/-- Cut in some way, the reads of the entry come to the end with `b` and none of them fails. -/
def StoredZipEntry.ReadsOut (entry : StoredZipEntry) (b : Bytes) : Prop :=
  ∃ sizes : List Nat, (∀ size ∈ sizes, 0 < size) ∧ entry.readToEnd sizes 0 = some (.ok b)

/-- The routes on which the checking reader is not read to its end. -/
inductive UncheckedRoute (B : Backends) (data : Bytes) (limits : Limits) (seg : Segment) : Prop
  | window {offset len : Nat} (h : WindowRoute data limits seg.access offset len)
  | index {entry : StoredZipEntry} {b : Bytes}
      (h : IndexRoute B .zip data limits seg.index seg.name seg.access entry)
      (hreads : entry.ReadsOut b)
  | spill (hcap : limits.maxTotalInflated = wordMax)
      (h : SpillRoute B .zip data limits seg.index seg.access [])

/-- The handle a segment is opened as, by the route that opens it. -/
inductive SegmentHandle (B : Backends) (format : Format) (data : Bytes) (limits : Limits)
    (seg : Segment) : PeeledSource → Prop
  | window {offset len : Nat} (h : WindowRoute data limits seg.access offset len) :
      SegmentHandle B format data limits seg (.inPlace ⟨data, offset, len, 0⟩)
  | index {entry : StoredZipEntry}
      (h : IndexRoute B format data limits seg.index seg.name seg.access entry) :
      SegmentHandle B format data limits seg (.zran ⟨entry, entry.len.toNat, 0, data⟩)
  | spill {b : Bytes} (h : SpillRoute B format data limits seg.index seg.access b) :
      SegmentHandle B format data limits seg (.temp (.holding b))

/-- A segment that opens and can be read over its whole length without an error. -/
inductive PassedSegment (B : Backends) (format : Format) (data : Bytes) (limits : Limits)
    (seg : Segment) : Prop
  | window {offset len : Nat} (h : WindowRoute data limits seg.access offset len)
  | index {entry : StoredZipEntry}
      (h : IndexRoute B format data limits seg.index seg.name seg.access entry)
      (hreads : Reaches entry.readAt entry.len.toNat entry.len.toNat)
  | spill {b : Bytes} (h : SpillRoute B format data limits seg.index seg.access b)

/-- A segment that opens and comes up empty short of its length: only an entry behind a seek
index can. -/
inductive BrokenSegment (B : Backends) (format : Format) (data : Bytes) (limits : Limits)
    (seg : Segment) : Prop
  | index {entry : StoredZipEntry}
      (h : IndexRoute B format data limits seg.index seg.name seg.access entry)
      (hshort : ComesShort entry.readAt entry.len.toNat)

/-- A stream under the largest cap, a handle planned, opened and read on an unchecked route, or
a raw split whose segments can be read through to an end. -/
inductive Unchecked (B : Backends) (data : Bytes) (limits : Limits) (cap index : Nat) : Prop
  | stream (h : cap = wordMax)
  | member {nm : String} {access : Access}
      (hplan : detect B data = .ok (.member .zip index nm access))
      (hroute : UncheckedRoute B data limits ⟨nm, index, access⟩)
  | segment {members : List Segment} {kind : SegmentKind} {seg : Segment}
      (hplan : detect B data = .ok (.segmentSet .zip members kind)) (hseg : seg ∈ members)
      (hindex : seg.index = index) (hroute : UncheckedRoute B data limits seg)
      (hothers : ∀ other ∈ members, ∃ n, SegmentExtent B .zip data limits other n)
  | stitched {members : List Segment} {extents : List Nat} {k : Nat}
      (hplan : detect B data = .ok (.segmentSet .zip members .splitRaw))
      (hextents : List.Forall₂ (SegmentExtent B .zip data limits) members extents)
      (hword : extents.sum ≤ wordMax)
      (hpassed : ∀ i < k, ∀ seg, members[i]? = some seg → PassedSegment B .zip data limits seg)
      (hbroken : ∀ seg, members[k]? = some seg → BrokenSegment B .zip data limits seg)
  -- past a word the positions saturate and a lookup may miss, whatever the segments do
  | pastWord {members : List Segment} {handles : List PeeledSource} {b : Bytes}
      (hplan : detect B data = .ok (.segmentSet .zip members .splitRaw))
      (hhandles : List.Forall₂ (SegmentHandle B .zip data limits) members handles)
      (hword : wordMax < (handles.map PeeledSource.len).sum)
      (hreads : ConcatSource.readSeek.ReadsOut (ConcatSource.new handles) b)

theorem readToEnd_zran (z : ZranBacked) (sizes : List Nat) :
    PeeledSource.readSeek.readToEnd sizes (.zran z) =
      (z.entry.readToEnd sizes z.pos).map (Except.mapError IoError.other) := by
  induction sizes generalizing z with
  | nil => rfl
  | cons size sizes ih =>
    rw [ReadSeek.readToEnd, StoredZipEntry.readToEnd]
    simp only [PeeledSource.readSeek, PeeledSource.read, ZranBacked.read]
    cases hread : z.entry.readAt z.pos size with
    | error e => simp [Except.mapError, bind, Except.bind]
    | ok chunk =>
      cases chunk with
      | nil => simp [Except.mapError, bind, Except.bind, pure, Except.pure]
      | cons x xs =>
        simp only [Except.mapError, bind, Except.bind, pure, Except.pure]
        have hrest := ih { z with pos := satAdd z.pos (x :: xs).length }
        simp only [PeeledSource.readSeek] at hrest
        rw [hrest, Option.map_map, Option.map_map]
        congr 1
        funext result
        cases result <;> rfl

theorem readsOut_zran_iff {entry : StoredZipEntry} {len : Nat} {archive b : Bytes} :
    PeeledSource.readSeek.ReadsOut (.zran ⟨entry, len, 0, archive⟩) b ↔ entry.ReadsOut b := by
  have hmap : ∀ result : Option (Except String Bytes),
      result.map (Except.mapError IoError.other) = some (.ok b) ↔ result = some (.ok b) := by
    intro result
    cases result with
    | none => simp
    | some result => cases result <;> simp [Except.mapError]
  simp only [ReadSeek.ReadsOut, StoredZipEntry.ReadsOut, readToEnd_zran, hmap]

theorem segmentHandle_iff {B : Backends} {format : Format} {data : Bytes} {limits : Limits}
    {seg : Segment} {source : PeeledSource} :
    SegmentHandle B format data limits seg source ↔
      executeMemberAccess B format data seg.index seg.name seg.access limits = .ok source := by
  rw [executeMemberAccess_eq_ok]
  constructor
  · intro h
    cases h with
    | window h => exact .inl ⟨_, _, h, rfl⟩
    | index h => exact .inr (.inl ⟨_, h, rfl⟩)
    | spill h => exact .inr (.inr ⟨_, h, rfl⟩)
  · intro h
    rcases h with ⟨offset, len, h, rfl⟩ | ⟨entry, h, rfl⟩ | ⟨b, h, rfl⟩
    · exact .window h
    · exact .index h
    · exact .spill h

section

variable {B : Backends} {format : Format} {data : Bytes} {limits : Limits} {seg : Segment}
  {source : PeeledSource}

theorem SegmentHandle.unique {other : PeeledSource} (h : SegmentHandle B format data limits seg source)
    (h' : SegmentHandle B format data limits seg other) : source = other :=
  Except.ok.inj ((segmentHandle_iff.mp h).symm.trans (segmentHandle_iff.mp h'))

theorem passedSegment_iff (h : SegmentHandle B format data limits seg source) :
    source.ReadsThrough ↔ PassedSegment B format data limits seg := by
  constructor
  · intro hread
    cases h with
    | window hroute => exact .window hroute
    | @index entry hroute =>
      exact .index hroute ((PeeledSource.entry_readsThrough_iff (toNat_le_wordMax entry.len)).mp hread)
    | spill hroute => exact .spill hroute
  · intro hpassed
    cases hpassed with
    | window hroute =>
      obtain rfl := h.unique (.window hroute)
      exact PeeledSource.window_readsThrough ⟨hroute.fits, hroute.word, Nat.zero_le _⟩
    | @index entry hroute hreads =>
      obtain rfl := h.unique (.index hroute)
      exact (PeeledSource.entry_readsThrough_iff (toNat_le_wordMax entry.len)).mpr hreads
    | spill hroute =>
      obtain rfl := h.unique (.spill hroute)
      exact PeeledSource.spilled_readsThrough (hroute.capped.trans limits.maxTotalInflated_le)

theorem brokenSegment_iff (h : SegmentHandle B format data limits seg source) :
    source.BreaksOff ↔ BrokenSegment B format data limits seg := by
  constructor
  · intro hread
    cases h with
    | window hroute =>
      exact absurd hread
        (PeeledSource.window_not_breaksOff ⟨hroute.fits, hroute.word, Nat.zero_le _⟩)
    | @index entry hroute =>
      exact .index hroute ((PeeledSource.entry_breaksOff_iff (toNat_le_wordMax entry.len)).mp hread)
    | spill hroute =>
      exact absurd hread
        (PeeledSource.spilled_not_breaksOff (hroute.capped.trans limits.maxTotalInflated_le))
  · intro hbroken
    obtain @⟨entry, hroute, hshort⟩ := hbroken
    obtain rfl := h.unique (.index hroute)
    exact (PeeledSource.entry_breaksOff_iff (toNat_le_wordMax entry.len)).mpr hshort

theorem endsAt_iff {members : List Segment} {handles : List PeeledSource} {k : Nat}
    (h : List.Forall₂ (SegmentHandle B format data limits) members handles) :
    EndsAt handles k ↔
      (∀ i < k, ∀ seg, members[i]? = some seg → PassedSegment B format data limits seg) ∧
        ∀ seg, members[k]? = some seg → BrokenSegment B format data limits seg := by
  constructor
  · intro hends
    refine ⟨fun i hi seg hseg => ?_, fun seg hseg => ?_⟩
    · obtain ⟨handle, hhandle, hopened⟩ := getElem?_of_forall₂ h.flip hseg
      exact (passedSegment_iff hopened).mp (hends.1 i hi handle hhandle)
    · obtain ⟨handle, hhandle, hopened⟩ := getElem?_of_forall₂ h.flip hseg
      exact (brokenSegment_iff hopened).mp (hends.2 handle hhandle)
  · intro hends
    refine ⟨fun i hi handle hhandle => ?_, fun handle hhandle => ?_⟩
    · obtain ⟨seg, hseg, hopened⟩ := getElem?_of_forall₂ h hhandle
      exact (passedSegment_iff hopened).mpr (hends.1 i hi seg hseg)
    · obtain ⟨seg, hseg, hopened⟩ := getElem?_of_forall₂ h hhandle
      exact (brokenSegment_iff hopened).mpr (hends.2 seg hseg)

theorem extents_of_handles {members : List Segment} {handles : List PeeledSource}
    (h : List.Forall₂ (SegmentHandle B format data limits) members handles) :
    List.Forall₂ (SegmentExtent B format data limits) members (handles.map PeeledSource.len) := by
  rw [List.forall₂_map_right_iff]
  apply h.imp
  intro seg source hopened
  exact executeMemberAccess_extent.mp ⟨source, segmentHandle_iff.mp hopened, rfl⟩

end

section

variable {B : Backends} {data : Bytes} {archive : Archive} {z : ZipArchive}
  {decoded : Nat → Bytes} {recorded : Nat → UInt32} {index : Nat} {limits : Limits} {cap : Nat}

theorem CorruptMember.memberFeed (h : CorruptMember B data archive z decoded recorded index)
    (hverifies : z.VerifiesCrc decoded recorded) :
    ∃ feed, archive.memberFeed B index = .ok feed ∧ ∀ b, feed ≠ Feed.eof b := by
  obtain ⟨entry, hget, -⟩ := h.file
  have hindex := (List.getElem?_eq_some_iff.mp hget).1
  obtain ⟨zf, hzf, -⟩ := Archive.exists_zipFile h.opens h.zip hindex
  refine ⟨zf.contents, (Archive.memberFeed_zip h.zip).mpr ⟨hindex, zf, hzf, rfl⟩, fun b hb => ?_⟩
  obtain ⟨rfl, hcrc⟩ := hverifies index zf b hzf hb
  exact h.mismatch hcrc

theorem CorruptMember.streamed (h : CorruptMember B data archive z decoded recorded index)
    (hverifies : z.VerifiesCrc decoded recorded) {feed : ByteFeed} {b : Bytes}
    (hfeed : archive.memberFeed B index = .ok feed) :
    archive.streamed cap feed = Feed.eof b ↔ cap = wordMax ∧ b = [] := by
  obtain ⟨feed', hfeed', hnever⟩ := h.memberFeed hverifies
  obtain rfl := Except.ok.inj (hfeed.symm.trans hfeed')
  rw [Archive.streamed, h.zip]
  by_cases hcap : cap = wordMax
  · subst hcap
    simp only [copied_wordMax, true_and]
    exact ⟨fun heq => (congrArg Feed.items heq).symm, fun heq => heq ▸ rfl⟩
  · simp [copied, hcap, hnever b]

theorem CorruptMember.route_of_ok (h : CorruptMember B data archive z decoded recorded index)
    (hverifies : z.VerifiesCrc decoded recorded) {nm : String} {access : Access}
    {source : PeeledSource} {b : Bytes}
    (hopen : executeMemberAccess B .zip data index nm access limits = .ok source)
    (hread : PeeledSource.readSeek.ReadsOut source b) :
    UncheckedRoute B data limits ⟨nm, index, access⟩ := by
  rcases executeMemberAccess_eq_ok.mp hopen with
    ⟨offset, len, hroute, -⟩ | ⟨entry, hroute, rfl⟩ | ⟨b, hroute, -⟩
  · exact .window hroute
  · exact .index hroute (readsOut_zran_iff.mp hread)
  · obtain ⟨archive', feed, hopens, hfeed, hseen⟩ := hroute.reads
    obtain rfl := Archive.openWithFormat_unique h.opens hopens
    obtain ⟨hcap, rfl⟩ := (h.streamed hverifies hfeed).mp hseen
    exact .spill hcap hroute

theorem UncheckedRoute.completes {seg : Segment} (h : UncheckedRoute B data limits seg) :
    ∃ source b, executeMemberAccess B .zip data seg.index seg.name seg.access limits = .ok source ∧
      PeeledSource.readSeek.ReadsOut source b := by
  cases h with
  | window hroute =>
    exact ⟨_, _, hroute.opened, hroute.holds.drainsTo.readsOut⟩
  | index hroute hreads =>
    exact ⟨_, _, hroute.opened, readsOut_zran_iff.mpr hreads⟩
  | spill hcap hroute =>
    exact ⟨_, [], hroute.opened, (holding_drainsTo []).readsOut⟩

theorem handles_of_segmentSources {ss : SegmentSources} {members : List Segment}
    {kind : SegmentKind} (hplan : detect B data = .ok (.segmentSet .zip members kind))
    (hsources : segmentSources B data limits = .ok (some ss)) :
    ss.kind = kind ∧ List.Forall₂ (SegmentHandle B .zip data limits) members ss.sources := by
  obtain ⟨members', hplan', hopens⟩ := segmentSources_eq_some.mp hsources
  obtain ⟨hformat, rfl, rfl⟩ : ss.format = .zip ∧ members' = members ∧ ss.kind = kind := by
    simpa using hplan'.symm.trans hplan
  rw [hformat] at hopens
  exact ⟨rfl, (mapM_eq_ok.mp hopens).imp fun _ _ => segmentHandle_iff.mpr⟩

theorem CorruptMember.unchecked_of_segment
    (h : CorruptMember B data archive z decoded recorded index)
    (hverifies : z.VerifiesCrc decoded recorded) {members : List Segment} {kind : SegmentKind}
    {handles : List PeeledSource} {k : Nat} {seg : Segment} {source : PeeledSource} {b : Bytes}
    (hplan : detect B data = .ok (.segmentSet .zip members kind))
    (hhandles : List.Forall₂ (SegmentHandle B .zip data limits) members handles)
    (hseg : members[k]? = some seg) (hindex : seg.index = index)
    (hsource : handles[k]? = some source) (hread : PeeledSource.readSeek.ReadsOut source b) :
    Unchecked B data limits cap index := by
  obtain ⟨seg', hseg', hopened⟩ := getElem?_of_forall₂ hhandles hsource
  obtain rfl := Option.some.inj (hseg.symm.trans hseg')
  subst hindex
  apply Unchecked.segment hplan (List.mem_of_getElem? hseg) rfl
    (h.route_of_ok hverifies (segmentHandle_iff.mp hopened) hread)
  intro other hother
  obtain ⟨i, hi⟩ := List.mem_iff_getElem?.mp hother
  obtain ⟨n, -, hextent⟩ := getElem?_of_forall₂ (extents_of_handles hhandles).flip hi
  exact ⟨n, hextent⟩

theorem CorruptMember.unchecked_of_completed
    (h : CorruptMember B data archive z decoded recorded index)
    (hverifies : z.VerifiesCrc decoded recorded) (hcap : cap ≤ wordMax)
    (hcompleted : Completed B data limits cap archive index) :
    Unchecked B data limits cap index := by
  obtain ⟨feed, hfeed, hnever⟩ := h.memberFeed hverifies
  have hread : ∀ b, archive.read B index ≠ .ok b := by
    intro b hb
    obtain rfl := Except.ok.inj (hfeed.symm.trans (Archive.read_eq_ok.mp hb).1)
    exact hnever b rfl
  cases hcompleted with
  | read hok => exact absurd hok (hread _)
  | stream hok =>
    obtain ⟨feed', b, hfeed', hseen, -⟩ := (Archive.streamMember_eq_ok hcap).mp hok
    exact .stream ((h.streamed hverifies hfeed').mp hseen).1
  | peel hsniff hok =>
    obtain ⟨opened, hopen, ⟨archive', only, b, rfl, honly, hok', -⟩ | ⟨-, hnone⟩⟩ :=
      peelArchive_of_archive (by rw [hsniff]; rfl) hok
    · rw [hsniff] at hopen
      obtain rfl := Archive.openWithFormat_unique h.opens hopen
      obtain ⟨entry, hget, hfile⟩ := h.file
      have hmem : index ∈ fileIndices archive.entries := by
        rw [fileIndices_eq, List.mem_map]
        exact ⟨(index, entry.name), mem_fileMembers.mpr ⟨entry, hget, hfile, rfl⟩, rfl⟩
      rw [honly, List.mem_singleton] at hmem
      exact absurd (hmem ▸ hok') (hread b)
    · cases hnone
  | peelSeekable hplan hok hread =>
    rcases peelArchiveSeekable_eq_inner.mp hok with
      ⟨codec, access', t, hplan', -⟩ | ⟨format, index', nm', access', hplan', hsource⟩
    · cases hplan.symm.trans hplan'
    · cases hplan.symm.trans hplan'
      exact .member hplan (h.route_of_ok hverifies hsource hread)
  | segment hplan hok hseg hindex hsource hread =>
    have hsources := hok.elim id fun hsegments => by
      obtain ⟨ss, hss, hresult⟩ := segmentSources_of_reassemble hsegments (by simp)
      obtain ⟨-, hresult⟩ | ⟨-, hresult⟩ := hresult
      · cases hresult
      · cases hresult
        exact hss
    obtain ⟨-, hhandles⟩ := handles_of_segmentSources hplan hsources
    exact h.unchecked_of_segment hverifies hplan hhandles hseg hindex hsource hread
  | concat hplan hok hread =>
    obtain ⟨ss, hsources, hresult⟩ := segmentSources_of_reassemble hok (by simp)
    obtain ⟨rfl, hhandles⟩ := handles_of_segmentSources hplan hsources
    obtain ⟨hkind, hresult⟩ | ⟨-, hresult⟩ := hresult
    · cases hresult
      rw [hkind] at hplan
      rcases Nat.lt_or_ge wordMax (ss.sources.map PeeledSource.len).sum with hpast | hword
      · exact .pastWord hplan hhandles hpast hread
      · obtain ⟨k, hends⟩ := (readsOut_new_iff hword).mp ⟨_, hread⟩
        obtain ⟨hpassed, hbroken⟩ := (endsAt_iff hhandles).mp hends
        exact .stitched hplan (extents_of_handles hhandles) hword hpassed hbroken
    · cases hresult

theorem CorruptMember.completed_of_unchecked
    (h : CorruptMember B data archive z decoded recorded index)
    (hverifies : z.VerifiesCrc decoded recorded) (hcap : cap ≤ wordMax)
    (hunchecked : Unchecked B data limits cap index) :
    Completed B data limits cap archive index := by
  cases hunchecked with
  | stream hmax =>
    obtain ⟨feed, hfeed, -⟩ := h.memberFeed hverifies
    have hroom : (Sink.buffer "" : ByteSink).hasRoom 0 := by simp [Sink.hasRoom, Sink.buffer]
    exact .stream ((Archive.streamMember_eq_ok hcap).mpr ⟨feed, [], hfeed,
      (h.streamed hverifies hfeed).mpr ⟨hmax, rfl⟩, Nat.zero_le _, hroom, rfl, rfl⟩)
  | member hplan hroute =>
    obtain ⟨source, b, hsource, hread⟩ := hroute.completes
    have hpeel : peelArchiveSeekable B data none limits = .ok (.inner source) :=
      peelArchiveSeekable_eq_inner.mpr (.inr ⟨_, _, _, _, hplan, hsource⟩)
    exact .peelSeekable hplan hpeel hread
  | @segment members kind seg hplan hseg hindex hroute hothers =>
    have hopens : ∀ other ∈ members, ∃ source, executeMemberAccess B .zip data other.index
        other.name other.access limits = .ok source := by
      intro other hother
      obtain ⟨n, hextent⟩ := hothers other hother
      obtain ⟨source, hsource, -⟩ := executeMemberAccess_extent.mpr hextent
      exact ⟨source, hsource⟩
    obtain ⟨sources, hsources⟩ := exists_mapM_eq_ok hopens
    have hset : segmentSources B data limits = .ok (some ⟨.zip, kind, sources⟩) :=
      segmentSources_eq_some.mpr ⟨members, hplan, hsources⟩
    obtain ⟨source, b, hsource, hread⟩ := hroute.completes
    obtain ⟨k, hk, rfl⟩ := List.mem_iff_getElem.mp hseg
    have hpairs := mapM_eq_ok.mp hsources
    obtain rfl := Except.ok.inj (hsource.symm.trans (hpairs.get hk (hpairs.length_eq ▸ hk)))
    exact .segment hplan (.inl hset) (List.getElem?_eq_getElem hk) hindex
      (List.getElem?_eq_getElem _) hread
  | @stitched members extents k hplan hextents hword hpassed hbroken =>
    obtain ⟨ss, hset, hkind, rfl⟩ := segmentSources_of_extents hplan hextents
    obtain ⟨-, hhandles⟩ := handles_of_segmentSources hplan hset
    obtain ⟨b, hread⟩ :=
      (readsOut_new_iff hword).mpr ⟨k, (endsAt_iff hhandles).mpr ⟨hpassed, hbroken⟩⟩
    exact .concat hplan (reassemble_splitRaw hset hkind) hread
  | @pastWord members handles b hplan hhandles hword hreads =>
    have hsources : members.mapM (fun seg =>
        executeMemberAccess B .zip data seg.index seg.name seg.access limits) = .ok handles :=
      mapM_eq_ok.mpr (hhandles.imp fun _ _ => segmentHandle_iff.mp)
    have hset : segmentSources B data limits = .ok (some ⟨.zip, .splitRaw, handles⟩) :=
      segmentSources_eq_some.mpr ⟨members, hplan, hsources⟩
    exact .concat hplan (reassemble_splitRaw hset rfl) hreads

/-- A corrupt member never comes through as good exactly when no stream of it runs under the
largest cap, no handle on it is planned, opened and read to its end past the check, and no raw
split with it can be read through. -/
theorem corrupt_not_completed_iff
    (h : CorruptMember B data archive z decoded recorded index)
    (hverifies : z.VerifiesCrc decoded recorded) (hcap : cap ≤ wordMax) :
    ¬ Completed B data limits cap archive index ↔ ¬ Unchecked B data limits cap index :=
  ⟨fun hnot hunchecked => hnot (h.completed_of_unchecked hverifies hcap hunchecked),
    fun hnot hcompleted => hnot (h.unchecked_of_completed hverifies hcap hcompleted)⟩

end

def badCrcArchive : Archive := ⟨.zip, [⟨"a", 1, false⟩], .zip (zipOf [badCrcFile])⟩

theorem badCrcZip_corrupt :
    CorruptMember badCrcReaders badCrcZip badCrcArchive (zipOf [badCrcFile]) (fun _ => [0x41])
      (fun _ => 0x2C266174) 0 where
  opens := Archive.openWithFormat_zipReaders _ _
  zip := rfl
  file := ⟨_, rfl, rfl⟩
  mismatch := by decide +kernel

theorem badCrcZip_verifies :
    (zipOf [badCrcFile]).VerifiesCrc (fun _ => [0x41]) (fun _ => 0x2C266174) := by
  intro index zf b hzf hcontents
  obtain rfl := List.mem_singleton.mp (List.mem_of_getElem? (zipOf_byIndex hzf))
  cases congrArg Feed.ending hcontents

theorem badCrcZip_plan :
    detect badCrcReaders badCrcZip = .ok (.member .zip 0 "a" (.inPlace 31 1)) := by
  have hsniff : sniff none badCrcZip = .zip := by decide +kernel
  rw [detect, hsniff]
  exact detectArchive_eq_member.mpr ⟨rfl, badCrcArchive, badCrcZip_corrupt.opens, rfl, rfl⟩

/-- The corrupt byte comes through the window of the streaming peel as good. -/
theorem badCrcZip_completed :
    CorruptMember badCrcReaders badCrcZip badCrcArchive (zipOf [badCrcFile]) (fun _ => [0x41])
        (fun _ => 0x2C266174) 0 ∧
      (zipOf [badCrcFile]).VerifiesCrc (fun _ => [0x41]) (fun _ => 0x2C266174) ∧
      (∃ source, peelArchiveSeekable badCrcReaders badCrcZip none Limits.default =
          .ok (.inner source) ∧ PeeledSource.readSeek.ReadsOut source [0x41]) ∧
      Completed badCrcReaders badCrcZip Limits.default Limits.default.maxTotalInflated
        badCrcArchive 0 := by
  have hroute : WindowRoute badCrcZip Limits.default (.inPlace 31 1) 31 1 :=
    ⟨rfl, by decide, by decide, by decide +kernel⟩
  have hsource : peelArchiveSeekable badCrcReaders badCrcZip none Limits.default =
      .ok (.inner (.inPlace ⟨badCrcZip, 31, 1, 0⟩)) :=
    peelArchiveSeekable_eq_inner.mpr (.inr ⟨_, _, _, _, badCrcZip_plan, hroute.opened⟩)
  have hread : PeeledSource.readSeek.ReadsOut (.inPlace ⟨badCrcZip, 31, 1, 0⟩) [0x41] :=
    hroute.holds.drainsTo.readsOut
  exact ⟨badCrcZip_corrupt, badCrcZip_verifies, ⟨_, hsource, hread⟩,
    .peelSeekable badCrcZip_plan hsource hread⟩

/-- No bytes allowed. -/
def emptyLimits : Limits :=
  { Limits.default with maxTotalInflated := 0, maxTotalInflated_le := Nat.zero_le wordMax }

/-- Where no window is within the cap, the same member is always reported. -/
theorem badCrcZip_not_completed :
    ¬ Completed badCrcReaders badCrcZip emptyLimits 0 badCrcArchive 0 :=
  (corrupt_not_completed_iff badCrcZip_corrupt badCrcZip_verifies (Nat.zero_le _)).mpr (by
      intro h
      rcases h with hmax | ⟨hplan, hroute⟩ | ⟨hplan, -⟩ | ⟨hplan, -⟩ | ⟨hplan, -⟩
      · cases hmax
      · cases badCrcZip_plan.symm.trans hplan
        rcases hroute with hwindow | ⟨hindex, -⟩ | hmax
        · cases hwindow.planned
          exact absurd hwindow.capped (by decide)
        · cases hindex.planned
        · cases hmax
      · cases badCrcZip_plan.symm.trans hplan
      · cases badCrcZip_plan.symm.trans hplan
      · cases badCrcZip_plan.symm.trans hplan)

end ArchiveCore
