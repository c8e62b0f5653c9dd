import ArchiveCore.Core.Images
import ArchiveCore.Proofs.Handles
import ArchiveCore.Proofs.Routes

/-!
# The byte cap on a seekable handle

A window is checked against the cap when it is made and a spill stops one byte past it, so a
larger image is an error. The seek index has a gate of its own, on the memory of the index,
and no check on the length of the member behind it: that is the one way to a handle longer
than the cap. Under the largest cap a spill holds nothing, however long its stream is.
-/

namespace ArchiveCore

open Framework

/-- The entry opened under a name is as long as the one file of that name is declared. -/
def OpensDeclared (B : Backends) (data : Bytes) : Prop :=
  ∀ z index zf entry, B.zipArchive data = .ok z → z.SoleFile index zf →
    B.openEntry data zf.name = .ok entry → entry.len = zf.size

/-- A deflated member declared larger than the cap whose seek index fits and opens. -/
def IndexedPastCap (B : Backends) (data : Bytes) (limits : Limits) : Prop :=
  ∃ index name size, detect B data = .ok (.member .zip index name .zran) ∧
    memberUncompressedSize B .zip data index = .ok size ∧
    limits.maxTotalInflated < size ∧
    estimateZranIndexBytes size ≤ limits.maxIndexBytes ∧
    ∃ archive entry, writeArchiveTemp B data = .ok archive ∧ B.openEntry archive name = .ok entry

/-- An image that is longer than the cap on the route it is planned for: by its window, by the
size a seek index is admitted for, or by what a spilled stream decodes to. -/
inductive LargerThanCap (B : Backends) (data : Bytes) (limits : Limits) : Prop
  | wrapper {codec : Codec} {access : Access} (hplan : detect B data = .ok (.wrapper codec access))
      (hlen : limits.maxTotalInflated < (codecReader B codec data).items.length)
  | window {format : Format} {index offset len : Nat} {nm : String}
      (hplan : detect B data = .ok (.member format index nm (.inPlace offset len)))
      (hlen : limits.maxTotalInflated < len)
  | declared {index size : Nat} {nm : String}
      (hplan : detect B data = .ok (.member .zip index nm .zran))
      (hsize : memberUncompressedSize B .zip data index = .ok size)
      (hgate : estimateZranIndexBytes size ≤ limits.maxIndexBytes)
      (hlen : limits.maxTotalInflated < size)
  | decoded {format : Format} {index : Nat} {nm : String} {access : Access} {archive : Archive}
      {feed : ByteFeed} (hplan : detect B data = .ok (.member format index nm access))
      (hspilled : access = .spillToTemp ∨ access = .zran ∧
        (format = .zip → ∃ size, memberUncompressedSize B .zip data index = .ok size ∧
          limits.maxIndexBytes < estimateZranIndexBytes size))
      (hopen : Archive.openWithFormat B format data = .ok (some archive))
      (hfeed : archive.memberFeed B index = .ok feed)
      (hlen : limits.maxTotalInflated < feed.items.length)
  | sevenZip {index : Nat} {nm : String} {reader : SevenZReader} {f : SevenZFile} {b : Bytes}
      (hplan : detect B data = .ok (.member .sevenZip index nm .spillToTemp))
      (hreader : B.sevenZip data = .ok reader) (hfile : reader.files[index]? = some f)
      (hread : reader.readFile f.name = .ok b) (hlen : limits.maxTotalInflated < b.length)

/-- A handle is within the cap, and a larger image is an error. -/
structure RespectsCap (B : Backends) (data : Bytes) (name : Option String) (limits : Limits) :
    Prop where
  handle : ∀ source, peelArchiveSeekable B data name limits = .ok (.inner source) →
    source.len ≤ limits.maxTotalInflated
  larger : LargerThanCap B data limits → ∃ e, peelArchiveSeekable B data name limits = .error e

/-- A stream of more bytes than a word counts, spilled under the largest cap. -/
inductive UncountedPastCap (B : Backends) (data : Bytes) (limits : Limits) : Prop
  | wrapper {codec : Codec} {access : Access} (hplan : detect B data = .ok (.wrapper codec access))
      (hmax : limits.maxTotalInflated = wordMax) (htakes : B.temp.Takes 0)
      (hlen : wordMax < (codecReader B codec data).items.length)
  | member {format : Format} {index : Nat} {nm : String} {access : Access} {archive : Archive}
      {feed : ByteFeed} (hplan : detect B data = .ok (.member format index nm access))
      (hmax : limits.maxTotalInflated = wordMax)
      (hroute : SpillRoute B format data limits index access [])
      (hopen : Archive.openWithFormat B format data = .ok (some archive))
      (hfeed : archive.memberFeed B index = .ok feed) (hlen : wordMax < feed.items.length)

section

variable {B : Backends} {data : Bytes} {name : Option String} {limits : Limits}

theorem spillWrapperToTemp_len_le {codec : Codec} {cap : Nat} (hcap : cap ≤ wordMax)
    {t : TempBacked} (h : spillWrapperToTemp B data codec cap = .ok t) : t.len ≤ cap := by
  obtain ⟨b, -, hlen, -, rfl⟩ := (spillWrapperToTemp_eq_ok hcap).mp h
  exact hlen

theorem larger_of_uncounted (h : UncountedPastCap B data limits) : LargerThanCap B data limits := by
  cases h with
  | wrapper hplan hmax _ hlen => exact .wrapper hplan (hmax ▸ hlen)
  | member hplan hmax hroute hopen hfeed hlen =>
    exact .decoded hplan hroute.planned hopen hfeed (hmax ▸ hlen)

theorem inner_of_uncounted (h : UncountedPastCap B data limits) :
    ∃ source, peelArchiveSeekable B data name limits = .ok (.inner source) := by
  cases h with
  | @wrapper codec access hplan hmax htakes _ =>
    have hseen : copied limits.maxTotalInflated (codecReader B codec data) = Feed.eof [] := by
      rw [hmax, copied_wordMax]
    have hspill := (spillWrapperToTemp_eq_ok limits.maxTotalInflated_le).mpr
      ⟨[], hseen, Nat.zero_le _, htakes, rfl⟩
    exact ⟨_, peelArchiveSeekable_eq_inner.mpr (.inl ⟨codec, access, _, hplan, hspill, rfl⟩)⟩
  | member hplan _ hroute _ _ _ =>
    exact ⟨_, peelArchiveSeekable_eq_inner.mpr (.inr ⟨_, _, _, _, hplan, hroute.opened⟩)⟩

theorem length_le_of_copied {cap : Nat} {feed : ByteFeed} {b : Bytes}
    (hseen : copied cap feed = Feed.eof b) (hlen : b.length ≤ cap) :
    feed.items.length ≤ cap ∨ cap = wordMax ∧ b = [] := by
  by_cases hmax : cap = wordMax
  · rw [hmax, copied_wordMax] at hseen
    exact .inr ⟨hmax, (congrArg Feed.items hseen).symm⟩
  · rw [copied, if_neg hmax] at hseen
    exact .inl (hseen ▸ hlen)

theorem length_le_of_streamed {a : Archive} {cap : Nat} {feed : ByteFeed} {b : Bytes}
    (hseen : a.streamed cap feed = Feed.eof b) (hlen : b.length ≤ cap) :
    feed.items.length ≤ cap ∨ cap = wordMax ∧ b = [] := by
  rw [Archive.streamed] at hseen
  split at hseen
  · exact .inl (hseen ▸ hlen)
  · exact length_le_of_copied hseen hlen

theorem unseen_of_larger (hlarger : LargerThanCap B data limits) {source : PeeledSource}
    (h : peelArchiveSeekable B data name limits = .ok (.inner source)) :
    IndexedPastCap B data limits ∨ UncountedPastCap B data limits := by
  rcases peelArchiveSeekable_eq_inner.mp h with
    ⟨codec, access, t, hplan, ht, -⟩ | ⟨format, index, nm, access, hplan, hsource⟩
  · obtain ⟨b, hseen, hcap, htakes, -⟩ :=
      (spillWrapperToTemp_eq_ok limits.maxTotalInflated_le).mp ht
    cases hlarger with
    | wrapper hplan' hlen =>
      cases hplan.symm.trans hplan'
      rcases length_le_of_copied hseen hcap with hle | ⟨hmax, rfl⟩
      · omega
      · exact .inr (.wrapper hplan hmax htakes (hmax ▸ hlen))
    | window hplan' | declared hplan' | decoded hplan' | sevenZip hplan' => cases hplan.symm.trans hplan'
  · cases hlarger with
    | wrapper hplan' => cases hplan.symm.trans hplan'
    | window hplan' hlen =>
      cases hplan.symm.trans hplan'
      have hcapped := (window_of_inPlace hsource).capped
      omega
    | declared hplan' hsize hgate hlen =>
      cases hplan.symm.trans hplan'
      obtain ⟨entry, hroute⟩ := index_of_gate hsource hsize hgate
      have hwrite := writeArchiveTemp_eq_ok.mpr ⟨hroute.create, hroute.room, hroute.flush, rfl⟩
      exact .inl ⟨_, _, _, hplan, hsize, hlen, hgate, data, entry, hwrite, hroute.opens⟩
    | decoded hplan' hspilled hopen hfeed hlen =>
      cases hplan.symm.trans hplan'
      obtain ⟨b, hroute⟩ := spill_of_planned hsource hspilled
      obtain ⟨archive', feed', hopen', hfeed', hseen⟩ := hroute.reads
      obtain rfl := Archive.openWithFormat_unique hopen hopen'
      obtain rfl := Except.ok.inj (hfeed.symm.trans hfeed')
      rcases length_le_of_streamed hseen hroute.capped with hle | ⟨hmax, rfl⟩
      · omega
      · exact .inr (.member hplan hmax hroute hopen hfeed (hmax ▸ hlen))
    | sevenZip hplan' hreader hfile hread hlen =>
      cases hplan.symm.trans hplan'
      obtain ⟨b, hroute⟩ := spill_of_planned hsource (.inl rfl)
      obtain ⟨archive, feed, hopen, hfeed, hseen⟩ := hroute.reads
      obtain rfl := Archive.openWithFormat_unique hopen
        (Archive.openWithFormat_of_sevenZip hreader)
      obtain ⟨f', b', hfile', -, hread', -, rfl⟩ :=
        (Archive.memberFeed_sevenZip hopen rfl).mp hfeed
      obtain rfl := Option.some.inj (hfile.symm.trans hfile')
      rw [← Except.ok.inj (hread.symm.trans hread')] at hseen
      have hsame : _ = b := congrArg Feed.items hseen
      exact absurd hroute.capped (hsame ▸ Nat.not_le_of_lt hlen)

/-- The cap is respected, in both directions, unless the image is a deflated member past it
whose seek index is taken, or a stream that no word can count. -/
theorem respectsCap_iff (hopens : OpensDeclared B data) :
    RespectsCap B data name limits ↔
      ¬ IndexedPastCap B data limits ∧ ¬ UncountedPastCap B data limits := by
  constructor
  · intro hrespects
    refine ⟨fun h => ?_, fun h => ?_⟩
    · obtain ⟨index, nm, size, hplan, hsize, hpast, hgate, archive, entry, hwrite, hentry⟩ := h
      obtain ⟨hcreate, hroom, hflush, rfl⟩ := writeArchiveTemp_eq_ok.mp hwrite
      obtain ⟨-, z, zf, hz, hsole, rfl, hdeclared⟩ := zip_of_zran_plan hplan
      obtain rfl := Except.ok.inj (hdeclared.symm.trans hsize)
      have hlen := hopens z index zf entry hz hsole hentry
      have hroute : IndexRoute B .zip _ limits index zf.name .zran entry :=
        ⟨rfl, rfl, ⟨_, hsize, hgate⟩, hcreate, hroom, hflush, hentry⟩
      have hle := hrespects.handle _
        (peelArchiveSeekable_eq_inner.mpr (.inr ⟨_, _, _, _, hplan, hroute.opened⟩))
      simp only [PeeledSource.len, hlen] at hle
      omega
    · obtain ⟨e, herror⟩ := hrespects.larger (larger_of_uncounted h)
      obtain ⟨source, hinner⟩ : ∃ source, peelArchiveSeekable B data name limits =
          .ok (.inner source) := inner_of_uncounted h
      cases herror.symm.trans hinner
  · intro hnot
    obtain ⟨hindexed, huncounted⟩ := hnot
    refine ⟨fun source h => ?_, fun hlarger => ?_⟩
    · rcases peelArchiveSeekable_eq_inner.mp h with
        ⟨codec, access, t, -, ht, rfl⟩ | ⟨format, index, nm, access, hplan, hsource⟩
      · exact spillWrapperToTemp_len_le limits.maxTotalInflated_le ht
      · rcases executeMemberAccess_eq_ok.mp hsource with
          ⟨offset, len, hroute, rfl⟩ | ⟨entry, hroute, rfl⟩ | ⟨b, hroute, rfl⟩
        · exact hroute.capped
        · -- the gate on the index says nothing of the length
          obtain ⟨rfl, rfl, ⟨size, hsize, hgate⟩, hcreate, hroom, hflush, hentry⟩ := hroute
          obtain ⟨-, z, zf, hz, hsole, rfl, hdeclared⟩ := zip_of_zran_plan hplan
          by_contra hpast
          have hwrite := writeArchiveTemp_eq_ok.mpr ⟨hcreate, hroom, hflush, rfl⟩
          refine hindexed ⟨index, _, size, hplan, hsize, ?_, hgate, data, entry, hwrite, hentry⟩
          have hlen := hopens z index zf entry hz hsole hentry
          obtain rfl := Except.ok.inj (hdeclared.symm.trans hsize)
          simpa [PeeledSource.len, hlen] using hpast
        · exact hroute.capped
    · cases hpeel : peelArchiveSeekable B data name limits with
      | error e => exact ⟨e, rfl⟩
      | ok peeled =>
        cases peeled with
        | inner source => exact ((unseen_of_larger hlarger hpeel).elim hindexed huncounted).elim
        | notPacked =>
          obtain ⟨plan, hplan, hwrapper, hmember⟩ := peelArchiveSeekable_eq_notPacked.mp hpeel
          cases hlarger with
          | wrapper hplan' => exact absurd (Except.ok.inj (hplan.symm.trans hplan')) (hwrapper _ _)
          | window hplan' | declared hplan' | decoded hplan' | sevenZip hplan' =>
            exact absurd (Except.ok.inj (hplan.symm.trans hplan')) (hmember _ _ _ _)

end

/-- Eight bytes allowed four. -/
def tightLimits : Limits :=
  { Limits.default with maxTotalInflated := 4, maxTotalInflated_le := by decide }

theorem deflateZip_opensDeclared : OpensDeclared deflateReaders deflateZip := by
  intro z index zf entry hz hsole hentry
  obtain rfl := List.mem_singleton.mp (List.mem_of_getElem? (zipReaders_byIndex hz hsole.found))
  obtain ⟨zf, hmem, -, rfl⟩ := zipReaders_openEntry hentry
  obtain rfl := List.mem_singleton.mp hmem
  rfl

theorem deflateZip_past_cap :
    OpensDeclared deflateReaders deflateZip ∧
      ¬ RespectsCap deflateReaders deflateZip none tightLimits := by
  have hpeel : ∃ source, peelArchiveSeekable deflateReaders deflateZip none tightLimits =
      .ok (.inner source) ∧ source.len = 8 := ⟨_, rfl, rfl⟩
  obtain ⟨source, hsource, hlen⟩ := hpeel
  refine ⟨deflateZip_opensDeclared, fun hrespects => ?_⟩
  have hle := hrespects.handle source hsource
  rw [hlen] at hle
  exact absurd hle (by decide)

/-- The same four bytes and no seek index. -/
def tightestLimits : Limits :=
  { tightLimits with maxIndexBytes := 0, maxIndexBytes_le := Nat.zero_le wordMax }

theorem deflateZip_within_cap :
    (∃ source, peelArchiveSeekable deflateReaders deflateZip none Limits.default =
        .ok (.inner source) ∧
      source.len ≤ Limits.default.maxTotalInflated) ∧
    ∃ e, peelArchiveSeekable deflateReaders deflateZip none tightestLimits = .error e := by
  have hplan : detect deflateReaders deflateZip = .ok (.member .zip 0 "a" .zran) := by
    decide +kernel
  have hsize : memberUncompressedSize deflateReaders .zip deflateZip 0 = .ok 8 := by
    decide +kernel
  have hopen := Archive.openWithFormat_zipReaders deflateZip [deflateZipFile]
  have hfeed : Archive.memberFeed deflateReaders _ 0 = .ok deflateZipFile.contents :=
    Archive.memberFeed_zipReaders hopen rfl
  have huncounted : ∀ limits, ¬ UncountedPastCap deflateReaders deflateZip limits := by
    intro limits h
    cases h with
    | wrapper hplan' => cases hplan.symm.trans hplan'
    | member hplan' _ _ hopen' hfeed' hlen =>
      cases hplan.symm.trans hplan'
      obtain rfl := Archive.openWithFormat_unique hopen hopen'
      obtain rfl := Except.ok.inj (hfeed.symm.trans hfeed')
      exact absurd hlen (by decide)
  have hindexed : ¬ IndexedPastCap deflateReaders deflateZip Limits.default := by
    intro h
    obtain ⟨index, nm, size, hplan', hsize', hpast, -⟩ := h
    cases hplan.symm.trans hplan'
    obtain rfl := Except.ok.inj (hsize.symm.trans hsize')
    exact absurd hpast (by decide)
  have hspilled : ¬ IndexedPastCap deflateReaders deflateZip tightestLimits := by
    intro h
    obtain ⟨index, nm, size, hplan', hsize', -, hgate, -⟩ := h
    cases hplan.symm.trans hplan'
    obtain rfl := Except.ok.inj (hsize.symm.trans hsize')
    exact absurd hgate (by decide)
  have hpeel : ∃ source, peelArchiveSeekable deflateReaders deflateZip none Limits.default =
      .ok (.inner source) := ⟨_, rfl⟩
  obtain ⟨source, hsource⟩ := hpeel
  constructor
  · exact ⟨source, hsource, ((respectsCap_iff deflateZip_opensDeclared).mpr
      ⟨hindexed, huncounted _⟩).handle source hsource⟩
  · refine ((respectsCap_iff deflateZip_opensDeclared).mpr ⟨hspilled, huncounted _⟩).larger ?_
    exact .decoded hplan (.inr ⟨rfl, fun _ => ⟨8, hsize, by decide⟩⟩) hopen hfeed (by decide)

end ArchiveCore
