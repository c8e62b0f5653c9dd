import ArchiveCore.Core.Images
import ArchiveCore.Proofs.PeelAgreement
import ArchiveCore.Proofs.ResolveTree
import ArchiveCore.Proofs.SegmentSets

/-!
# Limits decide whether, not what

A success under some limits is the same success under higher ones: a limit is only ever looked
at to refuse. So two runs that both succeed bring the same result, whatever their limits. The
gate of the seek index is the one limit that chooses between two handles, and is left as it is.
-/

namespace ArchiveCore

open Framework

/-- Limits that allow at least as much, still below the largest word. -/
structure Limits.Raised (limits raised : Limits) : Prop where
  depth : limits.maxDepth ≤ raised.maxDepth
  inflated : limits.maxTotalInflated ≤ raised.maxTotalInflated
  entries : limits.maxEntries ≤ raised.maxEntries
  index : limits.maxIndexBytes = raised.maxIndexBytes
  room : raised.maxTotalInflated < wordMax

section

variable {B : Backends} {data : Bytes} {name : Option String} {limits raised : Limits}

theorem resolve_carries (h : limits.Raised raised) :
    Carries (resolve B data name limits) (resolve B data name raised) := by
  intro nodes hnodes
  obtain ⟨tree, htree, ⟨hdepth, hentries, hinflated⟩, hnotes⟩ := resolve_eq_ok.mp hnodes
  exact resolve_eq_ok.mpr ⟨tree, htree, ⟨hdepth.trans h.depth, hentries.trans h.entries,
    hinflated.trans h.inflated⟩, hnotes⟩

theorem cap_carries (h : limits.Raised raised) (inner : Bytes) :
    Carries (cap inner limits) (cap inner raised) := by
  intro outcome hcap
  obtain ⟨hle, rfl⟩ := cap_eq_ok.mp hcap
  exact cap_eq_ok.mpr ⟨hle.trans h.inflated, rfl⟩

theorem peelArchive_carries (h : limits.Raised raised) :
    Carries (peelArchive B data name limits) (peelArchive B data name raised) := by
  rw [peelArchive, peelArchive]
  split_ifs
  · refine (Carries.refl _).bind fun outcome => ?_
    cases outcome with
    | notPacked => exact .refl _
    | peeled format inner => exact cap_carries h inner
  · exact .refl _
  · refine (Carries.refl _).bind fun opened => ?_
    cases opened with
    | none => exact .refl _
    | some archive =>
      dsimp only
      split
      · exact (Carries.refl _).bind fun inner => cap_carries h inner
      · exact .refl _
  · exact .refl _

theorem executeMemberAccess_carries (h : limits.Raised raised) (format : Format) (index : Nat)
    (nm : String) (access : Access) :
    Carries (executeMemberAccess B format data index nm access limits)
      (executeMemberAccess B format data index nm access raised) := by
  intro source hsource
  rcases executeMemberAccess_eq_ok.mp hsource with
    ⟨offset, len, hroute, rfl⟩ | ⟨entry, hroute, rfl⟩ | ⟨b, hroute, rfl⟩
  · obtain ⟨hplanned, hcapped, hword, hfits⟩ := hroute
    exact WindowRoute.opened ⟨hplanned, hcapped.trans h.inflated, hword, hfits⟩
  · obtain ⟨hplanned, hzip, hgate, hcreate, hroom, hflush, hopens⟩ := hroute
    rw [h.index] at hgate
    exact IndexRoute.opened ⟨hplanned, hzip, hgate, hcreate, hroom, hflush, hopens⟩
  · obtain ⟨hplanned, ⟨archive, feed, hopen, hfeed, hstreamed⟩, hcapped, htakes⟩ := hroute
    rw [h.index] at hplanned
    -- below the largest word both caps see the whole reader
    have hcap : limits.maxTotalInflated < wordMax := h.inflated.trans_lt h.room
    have hreads : archive.streamed raised.maxTotalInflated feed = Feed.eof b := by
      rwa [Archive.streamed_of_lt h.room, ← Archive.streamed_of_lt (a := archive) hcap feed]
    exact SpillRoute.opened
      ⟨hplanned, ⟨archive, feed, hopen, hfeed, hreads⟩, hcapped.trans h.inflated, htakes⟩

theorem spillWrapperToTemp_carries (h : limits.Raised raised) (codec : Codec) :
    Carries (spillWrapperToTemp B data codec limits.maxTotalInflated)
      (spillWrapperToTemp B data codec raised.maxTotalInflated) := by
  intro t ht
  obtain ⟨b, hcopied, hcapped, htakes, rfl⟩ :=
    (spillWrapperToTemp_eq_ok limits.maxTotalInflated_le).mp ht
  rw [copied_of_lt (h.inflated.trans_lt h.room)] at hcopied
  exact (spillWrapperToTemp_eq_ok raised.maxTotalInflated_le).mpr
    ⟨b, (copied_of_lt h.room).trans hcopied, hcapped.trans h.inflated, htakes, rfl⟩

theorem peelArchiveSeekable_carries (h : limits.Raised raised) :
    Carries (peelArchiveSeekable B data name limits) (peelArchiveSeekable B data name raised) := by
  refine (Carries.refl _).bind fun plan => ?_
  cases plan with
  | direct => exact .refl _
  | collection format => exact .refl _
  | segmentSet format members kind => exact .refl _
  | wrapper codec access => exact (spillWrapperToTemp_carries h codec).bind fun t => .refl _
  | member format index nm access =>
    exact (executeMemberAccess_carries h format index nm access).bind fun source => .refl _

theorem segmentSources_carries (h : limits.Raised raised) :
    Carries (segmentSources B data limits) (segmentSources B data raised) := by
  refine (Carries.refl _).bind fun plan => ?_
  cases plan with
  | direct => exact .refl _
  | collection format => exact .refl _
  | wrapper codec access => exact .refl _
  | member format index nm access => exact .refl _
  | segmentSet format members kind =>
    exact (Carries.mapM (fun seg => executeMemberAccess_carries h format seg.index seg.name seg.access)
      members).bind fun sources => .refl _

theorem reassemble_carries (h : limits.Raised raised) :
    Carries (reassemble B data limits) (reassemble B data raised) :=
  (segmentSources_carries h).bind fun _ => .refl _

end

/-- Raising the limits keeps every success of every entry point as it was. -/
theorem entryPoint_carries {limits raised : Limits} (h : limits.Raised raised) (B : Backends)
    (data : Bytes) (name : Option String) :
    Carries (resolve B data name limits) (resolve B data name raised) ∧
    Carries (peelArchive B data name limits) (peelArchive B data name raised) ∧
    Carries (peelArchiveSeekable B data name limits) (peelArchiveSeekable B data name raised) ∧
    Carries (segmentSources B data limits) (segmentSources B data raised) ∧
    Carries (reassemble B data limits) (reassemble B data raised) :=
  ⟨resolve_carries h, peelArchive_carries h, peelArchiveSeekable_carries h,
    segmentSources_carries h, reassemble_carries h⟩

/-- Three levels allowed, one more than a file in a compressed tar takes. -/
def threeLevels : Limits := { Limits.default with maxDepth := 3, maxDepth_le := by decide }

theorem threeLevels_raised : threeLevels.Raised .default :=
  ⟨by decide, le_rfl, le_rfl, rfl, by decide⟩

theorem entryPoint_carries_oneFile :
    resolve tarReaders oneFileTarGz none .default = .ok [.file "a" [0x41]] := by
  have hresolve : resolve tarReaders oneFileTarGz none threeLevels = .ok [.file "a" [0x41]] := by
    decide +kernel
  exact (entryPoint_carries threeLevels_raised tarReaders oneFileTarGz none).1 _ hresolve

/-- The larger of each limit. -/
def Limits.join (limits other : Limits) : Limits where
  maxDepth := max limits.maxDepth other.maxDepth
  maxTotalInflated := max limits.maxTotalInflated other.maxTotalInflated
  maxEntries := max limits.maxEntries other.maxEntries
  maxIndexBytes := max limits.maxIndexBytes other.maxIndexBytes
  maxDepth_le := max_le limits.maxDepth_le other.maxDepth_le
  maxTotalInflated_le := max_le limits.maxTotalInflated_le other.maxTotalInflated_le
  maxEntries_le := max_le limits.maxEntries_le other.maxEntries_le
  maxIndexBytes_le := max_le limits.maxIndexBytes_le other.maxIndexBytes_le

theorem Limits.raised_join {limits other : Limits} (hindex : limits.maxIndexBytes = other.maxIndexBytes)
    (hcap : limits.maxTotalInflated < wordMax) (hcap' : other.maxTotalInflated < wordMax) :
    limits.Raised (limits.join other) ∧ other.Raised (limits.join other) := by
  have hroom : (limits.join other).maxTotalInflated < wordMax := max_lt hcap hcap'
  constructor
  · exact ⟨le_max_left _ _, le_max_left _ _, le_max_left _ _, by simp [Limits.join, hindex], hroom⟩
  · exact ⟨le_max_right _ _, le_max_right _ _, le_max_right _ _, by simp [Limits.join, hindex], hroom⟩

/-- Whatever succeeds under two limits brings the same result under both: the limits decide
whether there is a result and not which one. -/
theorem entryPoint_agree {limits other : Limits} (hindex : limits.maxIndexBytes = other.maxIndexBytes)
    (hcap : limits.maxTotalInflated < wordMax) (hcap' : other.maxTotalInflated < wordMax)
    (B : Backends) (data : Bytes) (name : Option String) :
    Agree (resolve B data name limits) (resolve B data name other) ∧
    Agree (peelArchive B data name limits) (peelArchive B data name other) ∧
    Agree (peelArchiveSeekable B data name limits) (peelArchiveSeekable B data name other) ∧
    Agree (segmentSources B data limits) (segmentSources B data other) ∧
    Agree (reassemble B data limits) (reassemble B data other) := by
  obtain ⟨h, h'⟩ := Limits.raised_join hindex hcap hcap'
  exact ⟨(resolve_carries h).agree (resolve_carries h'),
    (peelArchive_carries h).agree (peelArchive_carries h'),
    (peelArchiveSeekable_carries h).agree (peelArchiveSeekable_carries h'),
    (segmentSources_carries h).agree (segmentSources_carries h'),
    (reassemble_carries h).agree (reassemble_carries h')⟩

theorem entryPoint_agree_oneFile :
    Agree (resolve tarReaders oneFileTarGz none threeLevels)
      (resolve tarReaders oneFileTarGz none .default) := by
  have hindex : threeLevels.maxIndexBytes = Limits.default.maxIndexBytes := rfl
  have hcap : threeLevels.maxTotalInflated < wordMax := by decide
  have hcap' : Limits.default.maxTotalInflated < wordMax := by decide
  exact (entryPoint_agree hindex hcap hcap' tarReaders oneFileTarGz none).1

end ArchiveCore
