import ArchiveCore.Proofs.Handles
import ArchiveCore.Proofs.Routes

/-!
# Telling the backing stores apart

A window and a zip entry stop a seek at their end, a temp file goes where it is told. A
consumer sees which one it holds exactly when it seeks past the end. Of two runs on one
member, one with a seek index and one without, the one without shows itself as well where the
cap keeps it from holding the member.
-/

namespace ArchiveCore

open Framework

theorem spilled_shows_past_end (s : PeeledSource) (c : Cursor UInt8) (origin : SeekFrom)
    (h : Spilled s c) (hpast : ¬ NotPastEnd c origin) :
    (PeeledSource.readSeek.step s (.seek origin)).1 ≠ (c.step (.seek origin)).1 := by
  cases h with
  | @file t hlen hmax hpos =>
    simp only [NotPastEnd, not_or, not_le, not_lt] at hpast
    obtain ⟨hbeyond, hword⟩ := hpast
    have hcursor : (⟨t.inner.bytes, t.inner.pos⟩ : Cursor UInt8).seek origin =
        some ⟨t.inner.bytes, t.inner.bytes.length⟩ := by
      simp only [Cursor.seek]
      rw [if_pos ⟨by omega, hword⟩, Nat.min_eq_right (by omega)]
    simp only [ReadSeek.step, PeeledSource.readSeek, PeeledSource.seek, TempBacked.seek, File.seek,
      Cursor.step, hcursor]
    by_cases hfile : origin.target t.inner.bytes.length t.inner.pos ≤ fileMax
    · have hin : 0 ≤ origin.target t.inner.bytes.length t.inner.pos ∧
          origin.target t.inner.bytes.length t.inner.pos ≤ fileMax := ⟨by omega, hfile⟩
      rw [if_pos hin]
      intro hseen
      have hpos := Seen.position.inj hseen
      omega
    · rw [if_neg (fun hin => hfile hin.2)]
      intro hseen
      cases hseen

/-- The one file of a zip is deflated: it decodes to `b`, its entry reads `b`, and the volume
holds files of that length. -/
structure DeflatedMember (B : Backends) (data : Bytes) (index : Nat) (name : String)
    (b : Bytes) : Prop where
  plan : detect B data = .ok (.member .zip index name .zran)
  decodes : ∀ archive, Archive.openWithFormat B .zip data = .ok (some archive) →
    archive.memberFeed B index = .ok (Feed.eof b)
  opens : ∃ entry, B.openEntry data name = .ok entry ∧ entry.Faithful b
  temp : B.temp.Healthy
  fits : b.length ≤ fileMax

/-- What a consumer sees of a peel: its error, or what the handle answers. -/
def observed (result : Except ArchiveError PeelSource) (requests : List Request) :
    Except ArchiveError (Option (List (Seen UInt8))) :=
  result.map fun
    | .notPacked => none
    | .inner source => some (PeeledSource.readSeek.trace source requests)

/-- The requests that a cursor over `len` bytes and an empty file answer alike, from these two
positions on: a read is empty or runs past the end, a seek is refused by both or takes both to
one place. -/
def Indistinct (len : Nat) : Nat → Nat → List Request → Prop
  | _, _, [] => True
  | pos, filePos, .readExact want :: requests =>
    want = 0 ∧ Indistinct len pos filePos requests ∨
      len < pos + want ∧ Indistinct len len filePos requests
  | pos, filePos, .seek origin :: requests =>
    let target := origin.target len pos
    let fileTarget := origin.target 0 filePos
    ¬ (0 ≤ target ∧ target ≤ wordMax) ∧ ¬ (0 ≤ fileTarget ∧ fileTarget ≤ fileMax) ∧
        Indistinct len pos filePos requests ∨
      (0 ≤ target ∧ target ≤ wordMax) ∧ (0 ≤ fileTarget ∧ fileTarget ≤ fileMax) ∧
        min target len = fileTarget ∧
        Indistinct len fileTarget.toNat fileTarget.toNat requests

/-- The requests a spill of `b` under this cap answers as a cursor over `b` does. The largest
cap lets nothing through. -/
def SpillAgrees (b : Bytes) (cap : Nat) (requests : List Request) : Prop :=
  if cap = wordMax then Indistinct b.length 0 0 requests
  else b.length ≤ cap ∧ (Cursor.start b).Admits NotPastEnd requests

/-- The index of the member fits under the one limit and not under the other. -/
def EitherSide (B : Backends) (data : Bytes) (index : Nat) (indexed fallback : Limits) : Prop :=
  ∃ size, memberUncompressedSize B .zip data index = .ok size ∧
    estimateZranIndexBytes size ≤ indexed.maxIndexBytes ∧
    fallback.maxIndexBytes < estimateZranIndexBytes size

theorem readExact_emptied (filePos len want : Nat) :
    PeeledSource.readSeek.readExact (.temp ⟨⟨[], filePos⟩, len⟩) want [] =
      (if want = 0 then .filled [] else .endOfData, .temp ⟨⟨[], filePos⟩, len⟩) := by
  rw [ReadSeek.readExact]
  by_cases hwant : want = 0
  · simp [hwant]
  · simp [hwant, PeeledSource.readSeek, PeeledSource.read, TempBacked.read, File.read]

theorem cursor_step_seek (b : Bytes) (pos : Nat) (origin : SeekFrom) :
    (⟨b, pos⟩ : Cursor UInt8).step (.seek origin) =
      if 0 ≤ origin.target b.length pos ∧ origin.target b.length pos ≤ wordMax then
        (.position (min (origin.target b.length pos).toNat b.length),
          ⟨b, min (origin.target b.length pos).toNat b.length⟩)
      else (.refused, ⟨b, pos⟩) := by
  simp only [Cursor.step, Cursor.seek]
  by_cases hin : 0 ≤ origin.target b.length pos ∧ origin.target b.length pos ≤ wordMax
  · rw [if_pos hin, if_pos hin]
  · rw [if_neg hin, if_neg hin]

theorem emptied_step_seek (filePos len : Nat) (origin : SeekFrom) :
    PeeledSource.readSeek.step (.temp ⟨⟨[], filePos⟩, len⟩) (.seek origin) =
      if 0 ≤ origin.target 0 filePos ∧ origin.target 0 filePos ≤ fileMax then
        (.position (origin.target 0 filePos).toNat,
          .temp ⟨⟨[], (origin.target 0 filePos).toNat⟩, len⟩)
      else (.refused, .temp ⟨⟨[], filePos⟩, len⟩) := by
  simp only [ReadSeek.step, PeeledSource.readSeek, PeeledSource.seek, TempBacked.seek, File.seek,
    List.length_nil]
  by_cases hin : 0 ≤ origin.target 0 filePos ∧ origin.target 0 filePos ≤ fileMax
  · rw [if_pos hin, if_pos hin]
    rfl
  · rw [if_neg hin, if_neg hin]
    rfl

theorem emptied_trace_eq_iff (b : Bytes) (len : Nat) (requests : List Request) :
    ∀ {pos filePos : Nat}, pos ≤ b.length →
      ((⟨b, pos⟩ : Cursor UInt8).trace requests =
          PeeledSource.readSeek.trace (.temp ⟨⟨[], filePos⟩, len⟩) requests ↔
        Indistinct b.length pos filePos requests) := by
  induction requests with
  | nil =>
    intro pos filePos _
    simp [Cursor.trace, ReadSeek.trace, Indistinct]
  | cons request requests ih =>
    intro pos filePos hpos
    rw [Cursor.trace, ReadSeek.trace, List.cons.injEq]
    cases request with
    | readExact want =>
      have hrest : (⟨b, pos⟩ : Cursor UInt8).rest.length = b.length - pos := List.length_drop
      simp only [ReadSeek.step, readExact_emptied, Indistinct]
      by_cases hwant : want = 0
      · subst hwant
        simp [Cursor.step, Cursor.advance, ih hpos, Nat.not_lt_of_le hpos]
      · by_cases hfit : want ≤ b.length - pos
        · have hlonger : ¬ b.length < pos + want := by omega
          simp [Cursor.step, hrest, hfit, hwant, hlonger]
        · have hlonger : b.length < pos + want := by omega
          have hend : pos + (b.length - pos) = b.length := by omega
          simp [Cursor.step, Cursor.advance, hrest, hfit, hwant, hlonger, hend, ih le_rfl]
    | seek origin =>
      simp only [Indistinct]
      rw [cursor_step_seek, emptied_step_seek]
      by_cases hin : 0 ≤ origin.target b.length pos ∧ origin.target b.length pos ≤ wordMax
      · by_cases hfile : 0 ≤ origin.target 0 filePos ∧ origin.target 0 filePos ≤ fileMax
        · simp only [hin, hfile, if_true, not_true_eq_false, false_and, true_and,
            false_or, Seen.position.injEq, and_self]
          by_cases hsame : min (origin.target b.length pos) b.length = origin.target 0 filePos
          · have hpos : min (origin.target b.length pos).toNat b.length =
                (origin.target 0 filePos).toNat := by omega
            have hle : (origin.target 0 filePos).toNat ≤ b.length := by omega
            simp [hpos, hsame, ih hle]
          · have hdiffer : min (origin.target b.length pos).toNat b.length ≠
                (origin.target 0 filePos).toNat := by omega
            simp [hdiffer, hsame]
        · simp [hin, hfile]
      · by_cases hfile : 0 ≤ origin.target 0 filePos ∧ origin.target 0 filePos ≤ fileMax
        · simp [hin, hfile]
        · simp [hin, hfile, ih hpos]

section

variable {B : Backends} {data b : Bytes} {index : Nat} {nm : String} {name : Option String}
  {indexed fallback : Limits}

theorem DeflatedMember.observed_eq (h : DeflatedMember B data index nm b) (limits : Limits)
    (requests : List Request) :
    observed (peelArchiveSeekable B data name limits) requests =
      (peelZran B .zip data index nm limits).map fun source =>
        some (PeeledSource.readSeek.trace source requests) := by
  rw [peelArchiveSeekable, h.plan]
  cases hrun : peelZran B .zip data index nm limits <;>
    simp [observed, executeMemberAccess, hrun, Except.map, bind, Except.bind, pure, Except.pure]

theorem DeflatedMember.observed_indexed (h : DeflatedMember B data index nm b)
    (hside : EitherSide B data index indexed fallback) (requests : List Request) :
    observed (peelArchiveSeekable B data name indexed) requests =
      .ok (some ((Cursor.start b).trace requests)) := by
  obtain ⟨size, hsize, hgate, -⟩ := hside
  obtain ⟨entry, hentry, hfaithful⟩ := h.opens
  have hwrite := writeArchiveTemp_eq_ok.mpr
    ⟨h.temp.create, (h.temp.takes data.length).room, h.temp.flush, rfl⟩
  have hrun : peelZran B .zip data index nm indexed =
      .ok (.zran ⟨entry, entry.len.toNat, 0, data⟩) :=
    peelZran_eq_ok.mpr ⟨size, hsize, .inr ⟨hgate, data, entry, hwrite, hentry, rfl⟩⟩
  have hclamped : Clamped (.zran ⟨entry, entry.len.toNat, 0, data⟩) (Cursor.start b) :=
    .entry (z := ⟨entry, entry.len.toNat, 0, data⟩) hfaithful hfaithful.len (Nat.zero_le _)
  rw [h.observed_eq, hrun, ← clamped_refines.trace requests hclamped (Cursor.admits_true _ _)]
  rfl

theorem DeflatedMember.fallback_iff (h : DeflatedMember B data index nm b)
    (hside : EitherSide B data index indexed fallback) {source : PeeledSource} :
    peelZran B .zip data index nm fallback = .ok source ↔
      ∃ c, copied fallback.maxTotalInflated (Feed.eof b) = Feed.eof c ∧
        c.length ≤ fallback.maxTotalInflated ∧ source = .temp (.holding c) := by
  obtain ⟨size, hsize, -, hpast⟩ := hside
  obtain ⟨archive, hopen, -, haccess⟩ := member_of_detect h.plan
  obtain ⟨z, hz⟩ := Archive.zip_of_memberAccess haccess (by simp)
  have hfeed := h.decodes archive hopen
  have hstreamed : archive.streamed fallback.maxTotalInflated (Feed.eof b) =
      copied fallback.maxTotalInflated (Feed.eof b) := by rw [Archive.streamed, hz]
  rw [peelZran_eq_ok]
  constructor
  · intro hrun
    obtain ⟨size', hsize', ⟨-, t, ht, rfl⟩ | ⟨hfits, -⟩⟩ := hrun
    · obtain ⟨archive', feed, c, hopen', hfeed', hseen, hcap, -, rfl⟩ :=
        (spillMemberToTemp_eq_ok fallback.maxTotalInflated_le).mp ht
      obtain rfl := Archive.openWithFormat_unique hopen hopen'
      obtain rfl := Except.ok.inj (hfeed.symm.trans hfeed')
      exact ⟨c, hstreamed ▸ hseen, hcap, rfl⟩
    · obtain rfl := Except.ok.inj (hsize.symm.trans hsize')
      omega
  · intro hrun
    obtain ⟨c, hseen, hcap, rfl⟩ := hrun
    have hspill := (spillMemberToTemp_eq_ok fallback.maxTotalInflated_le).mpr
      ⟨archive, _, c, hopen, hfeed, hstreamed.trans hseen, hcap, h.temp.takes _, rfl⟩
    exact ⟨size, hsize, .inl ⟨hpast, _, hspill, rfl⟩⟩

theorem DeflatedMember.observed_fallback (h : DeflatedMember B data index nm b)
    (hside : EitherSide B data index indexed fallback) {c : Bytes}
    (hseen : copied fallback.maxTotalInflated (Feed.eof b) = Feed.eof c)
    (hcap : c.length ≤ fallback.maxTotalInflated) (requests : List Request) :
    observed (peelArchiveSeekable B data name fallback) requests =
      .ok (some (PeeledSource.readSeek.trace (.temp (.holding c)) requests)) := by
  rw [h.observed_eq, (h.fallback_iff hside).mpr ⟨c, hseen, hcap, rfl⟩]
  rfl

theorem DeflatedMember.differ_of_larger (h : DeflatedMember B data index nm b)
    (hside : EitherSide B data index indexed fallback)
    (hlarger : fallback.maxTotalInflated < b.length) (requests : List Request) :
    observed (peelArchiveSeekable B data name indexed) requests ≠
      observed (peelArchiveSeekable B data name fallback) requests := by
  have hword : fileMax < wordMax := by decide
  have hcap : fallback.maxTotalInflated < wordMax := (hlarger.trans_le h.fits).trans hword
  rw [h.observed_indexed hside, h.observed_eq]
  cases hrun : peelZran B .zip data index nm fallback with
  | error e =>
    intro hsame
    cases hsame
  | ok source =>
    obtain ⟨c, hseen, hle, -⟩ := (h.fallback_iff hside).mp hrun
    rw [copied_of_lt hcap] at hseen
    obtain rfl : b = c := congrArg Feed.items hseen
    omega

theorem past_end_tells (hfits : b.length ≤ fileMax) (t : TempBacked) :
    ∃ requests, (Cursor.start b).trace requests ≠
      PeeledSource.readSeek.trace (.temp t) requests := by
  have hword : b.length + 1 ≤ wordMax := by
    have : fileMax + 1 ≤ wordMax := by decide
    omega
  have hoffset := toNat_ofNat_word hword
  refine ⟨[.seek (.start (UInt64.ofNat (b.length + 1)))], ?_⟩
  intro htrace
  have hseen := (List.cons.inj htrace).1
  have hcursor : (Cursor.start b).seek (.start (UInt64.ofNat (b.length + 1))) =
      some ⟨b, b.length⟩ := by
    simp only [Cursor.seek, SeekFrom.target, hoffset, Cursor.start]
    rw [if_pos (by omega), Nat.min_eq_right (by omega)]
  simp only [Cursor.step, hcursor, ReadSeek.step, PeeledSource.readSeek, PeeledSource.seek,
    TempBacked.seek, File.seek, SeekFrom.target, hoffset] at hseen
  by_cases hfile : 0 ≤ ((b.length + 1 : Nat) : Int) ∧ ((b.length + 1 : Nat) : Int) ≤ fileMax
  · rw [if_pos hfile] at hseen
    have hpos := Seen.position.inj hseen
    omega
  · rw [if_neg hfile] at hseen
    cases hseen

theorem DeflatedMember.agree_iff (h : DeflatedMember B data index nm b)
    (hside : EitherSide B data index indexed fallback) (requests : List Request) :
    observed (peelArchiveSeekable B data name indexed) requests =
        observed (peelArchiveSeekable B data name fallback) requests ↔
      SpillAgrees b fallback.maxTotalInflated requests := by
  rw [SpillAgrees]
  by_cases hmax : fallback.maxTotalInflated = wordMax
  · have hseen : copied fallback.maxTotalInflated (Feed.eof b) = Feed.eof [] := by
      rw [hmax, copied_wordMax]
    rw [if_pos hmax, h.observed_indexed hside,
      h.observed_fallback hside hseen (Nat.zero_le _), Except.ok.injEq, Option.some.injEq]
    exact emptied_trace_eq_iff b 0 requests (Nat.zero_le _)
  · rw [if_neg hmax]
    by_cases hle : b.length ≤ fallback.maxTotalInflated
    · have hseen : copied fallback.maxTotalInflated (Feed.eof b) = Feed.eof b := if_neg hmax
      have hfile : Spilled (.temp (.holding b)) (Cursor.start b) :=
        .file (t := .holding b) rfl h.fits (Nat.zero_le _)
      rw [h.observed_indexed hside, h.observed_fallback hside hseen hle, and_iff_right hle,
        ← spilled_refines.trace_eq_iff spilled_shows_past_end requests hfile, Except.ok.injEq,
        Option.some.injEq]
      exact eq_comm
    · refine iff_of_false ?_ fun hholds => hle hholds.1
      exact h.differ_of_larger hside (Nat.lt_of_not_le hle) requests

theorem DeflatedMember.not_agree (h : DeflatedMember B data index nm b)
    (hside : EitherSide B data index indexed fallback) :
    ¬ ∀ requests, observed (peelArchiveSeekable B data name indexed) requests =
      observed (peelArchiveSeekable B data name fallback) requests := by
  intro hagree
  have hstart := hagree []
  rw [h.observed_indexed hside, h.observed_eq] at hstart
  cases hrun : peelZran B .zip data index nm fallback with
  | error e =>
    rw [hrun] at hstart
    cases hstart
  | ok source =>
    obtain ⟨c, hseen, hcap, -⟩ := (h.fallback_iff hside).mp hrun
    obtain ⟨requests, hdiffer⟩ := past_end_tells h.fits (.holding c)
    have hsame := hagree requests
    rw [h.observed_indexed hside, h.observed_fallback hside hseen hcap] at hsame
    exact hdiffer (Option.some.inj (Except.ok.inj hsame))

end

/-- The three handles over one byte string agree on exactly the sequences that never seek past
the end. Two runs on one deflated member on either side of the index cap agree on exactly the
sequences that the spill of the one answers as the member does: below the largest cap, for a
member within the cap, those that never seek past the end. No two such runs agree on every
sequence. -/
theorem handles_agree_iff (b : Bytes) (requests : List Request) :
    (∀ w z t, Clamped (.inPlace w) (Cursor.start b) → Clamped (.zran z) (Cursor.start b) →
      Spilled (.temp t) (Cursor.start b) →
      (PeeledSource.readSeek.trace (.inPlace w) requests =
            PeeledSource.readSeek.trace (.zran z) requests ∧
          PeeledSource.readSeek.trace (.zran z) requests =
            PeeledSource.readSeek.trace (.temp t) requests ↔
        (Cursor.start b).Admits NotPastEnd requests)) ∧
    (∀ B data index nm name indexed fallback, DeflatedMember B data index nm b →
      EitherSide B data index indexed fallback →
      (observed (peelArchiveSeekable B data name indexed) requests =
          observed (peelArchiveSeekable B data name fallback) requests ↔
        SpillAgrees b fallback.maxTotalInflated requests) ∧
      ¬ ∀ requests, observed (peelArchiveSeekable B data name indexed) requests =
        observed (peelArchiveSeekable B data name fallback) requests) := by
  have hclamped : ∀ s, Clamped s (Cursor.start b) →
      PeeledSource.readSeek.trace s requests = (Cursor.start b).trace requests :=
    fun s hs => clamped_refines.trace requests hs (Cursor.admits_true _ _)
  have hspilled : ∀ s, Spilled s (Cursor.start b) →
      (PeeledSource.readSeek.trace s requests = (Cursor.start b).trace requests ↔
        (Cursor.start b).Admits NotPastEnd requests) :=
    fun s hs => spilled_refines.trace_eq_iff spilled_shows_past_end requests hs
  constructor
  · intro w z t hw hz ht
    rw [← hspilled _ ht, hclamped _ hw, hclamped _ hz]
    exact ⟨fun h => h.2.symm, fun h => ⟨rfl, h.symm⟩⟩
  · intro B data index nm name indexed fallback hmember hside
    exact ⟨hmember.agree_iff hside requests, hmember.not_agree hside⟩

/-- The default limits with no room for a seek index. -/
def noIndexLimits : Limits :=
  { Limits.default with maxIndexBytes := 0, maxIndexBytes_le := Nat.zero_le wordMax }

theorem deflateZip_member :
    DeflatedMember deflateReaders deflateZip 0 "a" deflateZipFile.contents.items where
  plan := by decide +kernel
  decodes := fun _ hopen => Archive.memberFeed_zipReaders hopen rfl
  opens := ⟨_, rfl, StoredZipEntry.over_faithful (by decide)⟩
  temp := ⟨rfl, rfl, rfl, rfl⟩
  fits := by decide

theorem handles_agree_deflateZip :
    (PeeledSource.readSeek.trace (.inPlace ⟨deflateZipFile.contents.items, 0, 8, 0⟩)
          [.seek (.start 3), .readExact 2] =
        PeeledSource.readSeek.trace (.zran ⟨.over deflateZipFile.contents.items, 8, 0, deflateZip⟩)
          [.seek (.start 3), .readExact 2] ∧
      PeeledSource.readSeek.trace (.zran ⟨.over deflateZipFile.contents.items, 8, 0, deflateZip⟩)
          [.seek (.start 3), .readExact 2] =
        PeeledSource.readSeek.trace (.temp (.holding deflateZipFile.contents.items))
          [.seek (.start 3), .readExact 2]) ∧
    observed (peelArchiveSeekable deflateReaders deflateZip none Limits.default)
        [.seek (.start 3), .readExact 2] =
      observed (peelArchiveSeekable deflateReaders deflateZip none noIndexLimits)
        [.seek (.start 3), .readExact 2] := by
  have hadmits : (Cursor.start deflateZipFile.contents.items).Admits NotPastEnd
      [.seek (.start 3), .readExact 2] := by
    refine ⟨?_, ?_, trivial⟩
    · intro origin h
      obtain rfl := Request.seek.inj h
      exact .inl (by decide)
    · intro origin h
      cases h
  have hagree := handles_agree_iff deflateZipFile.contents.items [.seek (.start 3), .readExact 2]
  refine ⟨(hagree.1 _ _ _ (.window ⟨by decide, by decide, by decide⟩)
    (.entry (StoredZipEntry.over_faithful (by decide)) rfl (by decide))
    (.file rfl (by decide) (by decide))).mpr hadmits, ?_⟩
  have hside : EitherSide deflateReaders deflateZip 0 Limits.default noIndexLimits :=
    ⟨8, by decide +kernel, by decide, by decide⟩
  have hruns := (hagree.2 deflateReaders deflateZip 0 "a" none Limits.default noIndexLimits
    deflateZip_member hside).1
  have hcap : noIndexLimits.maxTotalInflated ≠ wordMax := by decide
  exact hruns.mpr ((if_neg hcap).mpr ⟨by decide, hadmits⟩)

/-- One seek past the end tells the seek index from the spill. -/
theorem deflateZip_stores_differ :
    ∃ source source',
      peelArchiveSeekable deflateReaders deflateZip none Limits.default = .ok (.inner source) ∧
      peelArchiveSeekable deflateReaders deflateZip none noIndexLimits = .ok (.inner source') ∧
      PeeledSource.readSeek.trace source [.seek (.start 9)] = [.position 8] ∧
      PeeledSource.readSeek.trace source' [.seek (.start 9)] = [.position 9] :=
  ⟨_, _, rfl, rfl, by decide +kernel, by decide +kernel⟩

end ArchiveCore
