import ArchiveCore.Proofs.HeadPeek
import ArchiveCore.Proofs.VfsReads

/-!
# What the opener makes of a layer

The probe sees a window of the bytes and the opening all of them; a window that reaches the
deepest magic decides for both. What opens is the peel of a wrapper or the files of an
archive, and what does not open carries the bytes it is about.
-/

namespace ArchiveCore

open Framework

variable {B : Backends} {data : Bytes}

theorem probe_eq_no_iff {window : Bytes} :
    ArchiveOpener.probe window = .no ↔ sniff none window = .unknown := by
  rw [ArchiveOpener.probe]
  cases sniff none window <;> simp

theorem probe_take (data : Bytes) {n : Nat} (hn : 262 ≤ n) :
    ArchiveOpener.probe (data.take n) = ArchiveOpener.probe data := by
  rw [ArchiveOpener.probe, ArchiveOpener.probe, sniff_take none data hn]

theorem openBytes_of_wrapper (h : (sniff none data).isCompressionWrapper = true)
    {contents : ArchiveContents} :
    openBytes B data = .ok contents ↔
      ∃ inner, peelBytes B data none = .ok (.peeled (sniff none data) inner) ∧
        contents = .stream ⟨inner⟩ := by
  rw [openBytes, if_pos h, bind_eq_ok]
  constructor
  · rintro ⟨outcome, hpeel, hopen⟩
    rw [mapError_eq_ok] at hpeel
    cases outcome with
    | notPacked => cases hopen
    | peeled format inner =>
      obtain ⟨hformat, -⟩ := peelBytes_eq_peeled.mp hpeel
      exact ⟨inner, hformat ▸ hpeel, (Except.ok.inj hopen).symm⟩
  · rintro ⟨inner, hpeel, rfl⟩
    exact ⟨_, mapError_eq_ok.mpr hpeel, rfl⟩

/-- A member as it is listed and as it is read. -/
def MemberOf (B : Backends) (archive : Archive) (e : ArchiveEntry × Nat) (m : Member) : Prop :=
  m.name = e.1.name.toUTF8.data.toList ∧ archive.read B e.2 = .ok m.source.bytes

theorem readMember_eq_ok {archive : Archive} {e : ArchiveEntry × Nat} {m : Member} :
    readMember B data archive e = .ok m ↔ MemberOf B archive e m := by
  rw [readMember, bind_eq_ok]
  constructor
  · rintro ⟨bytes, hread, hmember⟩
    obtain rfl := Except.ok.inj hmember
    exact ⟨rfl, mapError_eq_ok.mp hread⟩
  · rintro ⟨hname, hread⟩
    obtain ⟨name, source⟩ := m
    refine ⟨source.bytes, mapError_eq_ok.mpr hread, ?_⟩
    rw [← hname]
    rfl

theorem openBytes_of_archive (h : (sniff none data).isArchive = true) {contents : ArchiveContents} :
    openBytes B data = .ok contents ↔
      ∃ archive ms, Archive.open' B data none = .ok (some archive) ∧ contents = .members ms ∧
        List.Forall₂ (MemberOf B archive) (archive.entries.zipIdx.filter fun e => !e.1.isDir) ms := by
  have hwrap : ¬ (sniff none data).isCompressionWrapper = true := by
    intro hwrap
    rw [Format.isArchive_eq_false_of_wrapper hwrap] at h
    cases h
  rw [openBytes, if_neg hwrap, if_pos h, bind_eq_ok]
  constructor
  · rintro ⟨opened, hopen, hread⟩
    rw [mapError_eq_ok] at hopen
    cases opened with
    | none => cases hread
    | some archive =>
      obtain ⟨ms, hms, hcontents⟩ := bind_eq_ok.mp hread
      refine ⟨archive, ms, hopen, (Except.ok.inj hcontents).symm, ?_⟩
      simpa only [mapM_eq_ok, readMember_eq_ok] using hms
  · rintro ⟨archive, ms, hopen, rfl, hms⟩
    refine ⟨some archive, mapError_eq_ok.mpr hopen, bind_eq_ok.mpr ⟨ms, ?_, rfl⟩⟩
    simpa only [mapM_eq_ok, readMember_eq_ok] using hms

theorem openBytes_of_probe_no (h : ArchiveOpener.probe data = .no) :
    openBytes B data = .error (notArchive B data) := by
  have hunknown := probe_eq_no_iff.mp h
  rw [openBytes, hunknown]
  rfl

end ArchiveCore
