import ArchiveCore.Proofs.Concat
import ArchiveCore.Proofs.SegmentSets

/-!
# The cap and the total of a segment set

Each segment is opened under the whole cap, and nothing adds the segments up. The sources
of a set stay within the cap in total exactly when their own lengths do.
-/

namespace ArchiveCore

open Framework

/-- The length a segment comes to by its own route, when the route opens it: the recorded
window, what the entry behind a seek index says, or what a spill sees of the member. -/
def SegmentExtent (B : Backends) (format : Format) (data : Bytes) (limits : Limits)
    (seg : Segment) (n : Nat) : Prop :=
  (∃ offset, WindowRoute data limits seg.access offset n) ∨
    (∃ entry, IndexRoute B format data limits seg.index seg.name seg.access entry ∧
      entry.len.toNat = n) ∨
    ∃ b, SpillRoute B format data limits seg.index seg.access b ∧ b.length = n

theorem executeMemberAccess_extent {B : Backends} {format : Format} {data : Bytes}
    {limits : Limits} {seg : Segment} {n : Nat} :
    (∃ source, executeMemberAccess B format data seg.index seg.name seg.access limits = .ok source ∧
      source.len = n) ↔ SegmentExtent B format data limits seg n := by
  simp only [executeMemberAccess_eq_ok, SegmentExtent]
  constructor
  · intro h
    obtain ⟨source, ⟨offset, len, hroute, rfl⟩ | ⟨entry, hroute, rfl⟩ | ⟨b, hroute, rfl⟩, rfl⟩ := h
    · exact .inl ⟨offset, hroute⟩
    · exact .inr (.inl ⟨entry, hroute, rfl⟩)
    · exact .inr (.inr ⟨b, hroute, rfl⟩)
  · intro h
    rcases h with ⟨offset, hroute⟩ | ⟨entry, hroute, rfl⟩ | ⟨b, hroute, rfl⟩
    · exact ⟨_, .inl ⟨offset, n, hroute, rfl⟩, rfl⟩
    · exact ⟨_, .inr (.inl ⟨entry, hroute, rfl⟩), rfl⟩
    · exact ⟨_, .inr (.inr ⟨b, hroute, rfl⟩), rfl⟩

def SegmentSources.total (ss : SegmentSources) : Nat := (ss.sources.map PeeledSource.len).sum

/-- The cap holds of the set as a whole, however it is handed back. -/
structure SetWithinCap (B : Backends) (data : Bytes) (limits : Limits) : Prop where
  sources : ∀ ss, segmentSources B data limits = .ok (some ss) → ss.total ≤ limits.maxTotalInflated
  segments : ∀ ss, reassemble B data limits = .ok (.segments ss) →
    ss.total ≤ limits.maxTotalInflated
  image : ∀ c, reassemble B data limits = .ok (.concat c) → c.len ≤ limits.maxTotalInflated

/-- A segment set whose every segment opens and whose extents exceed the cap in total. -/
def OverTotal (B : Backends) (data : Bytes) (limits : Limits) : Prop :=
  ∃ format members kind extents, detect B data = .ok (.segmentSet format members kind) ∧
    List.Forall₂ (SegmentExtent B format data limits) members extents ∧
    limits.maxTotalInflated < extents.sum

theorem segmentSources_of_extents {B : Backends} {data : Bytes} {limits : Limits} {format : Format}
    {members : List Segment} {kind : SegmentKind} {extents : List Nat}
    (hplan : detect B data = .ok (.segmentSet format members kind))
    (hextents : List.Forall₂ (SegmentExtent B format data limits) members extents) :
    ∃ ss, segmentSources B data limits = .ok (some ss) ∧ ss.kind = kind ∧
      ss.sources.map PeeledSource.len = extents := by
  obtain ⟨sources, hsources, hlens⟩ := exists_mapM_forall₂
    (f := fun seg => executeMemberAccess B format data seg.index seg.name seg.access limits)
    (q := fun source n => PeeledSource.len source = n) hextents
    fun seg n _ hseg => executeMemberAccess_extent.mpr hseg
  refine ⟨⟨format, kind, sources⟩, segmentSources_eq_some.mpr ⟨members, hplan, hsources⟩, rfl, ?_⟩
  rw [← List.forall₂_eq_eq_eq, List.forall₂_map_left_iff]
  exact hlens

theorem extents_of_segmentSources {B : Backends} {data : Bytes} {limits : Limits}
    {ss : SegmentSources} (hss : segmentSources B data limits = .ok (some ss)) :
    ∃ members, detect B data = .ok (.segmentSet ss.format members ss.kind) ∧
      List.Forall₂ (SegmentExtent B ss.format data limits) members
        (ss.sources.map PeeledSource.len) := by
  obtain ⟨members, hplan, hsources⟩ := segmentSources_eq_some.mp hss
  refine ⟨members, hplan, ?_⟩
  rw [List.forall₂_map_right_iff]
  apply (mapM_eq_ok.mp hsources).imp
  intro seg source h
  exact executeMemberAccess_extent.mp ⟨source, h, rfl⟩

theorem total_le_of_not_overTotal {B : Backends} {data : Bytes} {limits : Limits}
    (hnot : ¬ OverTotal B data limits) {ss : SegmentSources}
    (hss : segmentSources B data limits = .ok (some ss)) : ss.total ≤ limits.maxTotalInflated := by
  obtain ⟨members, hplan, hextents⟩ := extents_of_segmentSources hss
  by_contra hover
  exact hnot ⟨ss.format, members, ss.kind, _, hplan, hextents, Nat.lt_of_not_ge hover⟩

/-- A set stays within the cap as a whole, unless every segment opens under a cap of its own
and the segments exceed it together. -/
theorem segmentSources_total_le_iff (B : Backends) (data : Bytes) (limits : Limits) :
    SetWithinCap B data limits ↔ ¬ OverTotal B data limits := by
  constructor
  · intro hwithin hover
    obtain ⟨format, members, kind, extents, hplan, hextents, hover⟩ := hover
    obtain ⟨ss, hss, -, hlens⟩ := segmentSources_of_extents hplan hextents
    have hle := hwithin.sources ss hss
    rw [SegmentSources.total, hlens] at hle
    omega
  · intro hnot
    refine ⟨fun ss hss => total_le_of_not_overTotal hnot hss, ?_, ?_⟩
    · intro ss h
      obtain ⟨ss', hss, hresult⟩ := segmentSources_of_reassemble h (by simp)
      obtain ⟨-, rfl⟩ : ss'.kind ≠ .splitRaw ∧ ss = ss' := by simpa using hresult
      exact total_le_of_not_overTotal hnot hss
    · intro c h
      obtain ⟨ss, hss, hresult⟩ := segmentSources_of_reassemble h (by simp)
      obtain ⟨-, rfl⟩ : ss.kind = .splitRaw ∧ c = ConcatSource.new ss.sources := by simpa using hresult
      have htotal := total_le_of_not_overTotal hnot hss
      exact ((new_total ss.sources).trans_le (Nat.min_le_left _ _)).trans htotal

/-- Two bytes allowed. -/
def pairLimits : Limits :=
  { Limits.default with maxTotalInflated := 2, maxTotalInflated_le := by decide }

def splitMembers : List Segment := [⟨"a.001", 1, .inPlace 72 1⟩, ⟨"a.002", 0, .inPlace 35 2⟩]

theorem splitZip_plan :
    detect splitReaders splitZip = .ok (.segmentSet .zip splitMembers .splitRaw) := by
  have hmatched : ([(0, "a.002"), (1, "a.001")].filterMap fun file : Nat × String =>
      (segmentNumber file.2 .splitRaw).map fun seg => (file.1, file.2, seg)) =
        [(0, "a.002", 2), (1, "a.001", 1)] := by decide
  have hordered : orderSegments [(0, "a.002"), (1, "a.001")] .splitRaw =
      [(1, "a.001", 1), (0, "a.002", 2)] := by
    rw [orderSegments, hmatched]
    simp [List.mergeSort]
  exact detect_zipReaders hordered (by decide +kernel) rfl (by decide) (by decide) rfl

/-- Segments of one and of two bytes, each within two bytes, come to three. -/
theorem splitZip_past_total : ¬ SetWithinCap splitReaders splitZip pairLimits := by
  intro hwithin
  have hextents : List.Forall₂ (SegmentExtent splitReaders .zip splitZip pairLimits)
      splitMembers [1, 2] :=
    .cons (.inl ⟨72, rfl, by decide, by decide, by decide +kernel⟩)
      (.cons (.inl ⟨35, rfl, by decide, by decide, by decide +kernel⟩) .nil)
  obtain ⟨ss, hss, -, hlens⟩ := segmentSources_of_extents splitZip_plan hextents
  have hle := hwithin.sources ss hss
  rw [SegmentSources.total, hlens] at hle
  exact absurd hle (by decide)

end ArchiveCore
