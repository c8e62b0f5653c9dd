import ArchiveCore.Core.Images
import ArchiveCore.Proofs.ErrorKinds
import ArchiveCore.Proofs.VfsLayers

/-!
# How the opener fails

What the probe accepts is never called unrecognized: the opening of it fails with the error of
the layer that did not decode, open or read, as text beside an excerpt of the bytes.
-/

namespace ArchiveCore

open Framework

variable {B : Backends} {data : Bytes}

/-- How the texts of the in-memory readers start: with a format or with the cap. -/
def TextStart (first : String) : Prop :=
  first ∈ ["tar", "zip", "7z"] ∨ first ∈ ["gzip", "bzip2"] ∨ first = "decompressed output exceeds the "

theorem exists_message_eq {e : ArchiveError} (h : PeelKind e) :
    ∃ first rest, TextStart first ∧ e.message = first ++ rest := by
  rcases h with h | h | h
  · cases e with
    | openError format detail =>
      have hformat : format ∈ ["tar", "zip", "7z"] := h
      exact ⟨format, _, .inl hformat, String.append_assoc⟩
    | _ => exact h.elim
  · cases e with
    | tooLarge cap => exact ⟨_, _, .inr (.inr rfl), String.append_assoc⟩
    | read format detail =>
      have hformat : format ∈ ["tar", "zip", "7z"] := h
      exact ⟨format, _, .inl hformat, String.append_assoc⟩
    | _ => exact h.elim
  · cases e with
    | decode format detail =>
      have hformat : format ∈ ["gzip", "bzip2"] := h
      exact ⟨format, _, .inr (.inl hformat), String.append_assoc⟩
    | tooLarge cap => exact ⟨_, _, .inr (.inr rfl), String.append_assoc⟩
    | _ => exact h.elim

theorem message_ne_notRecognized {e : ArchiveError} (h : PeelKind e) :
    e.message ≠ "not a recognized archive layer" := by
  obtain ⟨first, rest, hfirst, hmessage⟩ := exists_message_eq h
  intro heq
  rw [hmessage] at heq
  have hhead := congrArg (fun text : String => text.toList.head?) heq
  simp only [TextStart, List.mem_cons, List.not_mem_nil, or_false] at hfirst
  rcases hfirst with (rfl | rfl | rfl) | (rfl | rfl) | rfl <;> simp at hhead

theorem readMember_error {archive : Archive} {member : ArchiveEntry × Nat} {err : VfsError}
    (h : readMember B data archive member = .error err) :
    ∃ e, archive.read B member.2 = .error e ∧ err = decodeErr B data e := by
  rcases bind_eq_error.mp h with h | ⟨bytes, -, h⟩
  · obtain ⟨e, he, rfl⟩ := mapError_eq_error.mp h
    exact ⟨e, he, rfl⟩
  · cases h

theorem layerError_of_openBytes (hprobe : ArchiveOpener.probe data ≠ .no) :
    FailsWith (fun err => ∃ e, LayerError B (data, none) e ∧ err = decodeErr B data e)
      (openBytes B data) := by
  rw [openBytes]
  cases hwrap : (sniff none data).isCompressionWrapper with
  | true =>
    rw [if_pos rfl]
    refine FailsWith.bind ?_ fun outcome hpeel => ?_
    · intro err h
      obtain ⟨e, he, rfl⟩ := mapError_eq_error.mp h
      exact ⟨e, .peel hwrap he, rfl⟩
    · cases outcome with
      | notPacked => exact absurd (mapError_eq_ok.mp hpeel) (peelBytes_ne_notPacked hwrap)
      | peeled format inner => exact .ok _
  | false =>
    cases harch : (sniff none data).isArchive with
    | true =>
      rw [if_neg (by simp), if_pos rfl]
      refine FailsWith.bind ?_ fun opened hopen => ?_
      · intro err h
        obtain ⟨e, he, rfl⟩ := mapError_eq_error.mp h
        exact ⟨e, .opening harch he, rfl⟩
      · rw [mapError_eq_ok] at hopen
        cases opened with
        | none => exact absurd hopen (openWithFormat_ne_none harch)
        | some archive =>
          refine FailsWith.bind (FailsWith.mapM fun member hmember => ?_) fun ms _ => .ok _
          obtain ⟨hentry, hfile⟩ := List.mem_filter.mp hmember
          intro err h
          obtain ⟨e, hread, rfl⟩ := readMember_error h
          exact ⟨e, .member hopen hentry (by simpa using hfile) hread, rfl⟩
    | false => exact absurd (probe_eq_no_iff.mpr (Format.eq_unknown hwrap harch)) hprobe

/-- The opener calls what it has read unrecognized exactly where the probe of its head turns it
down. Every other error is one of the source's reads, or that of a layer which the probe
accepts. -/
theorem open'_error_loud {σ : Type} (src : ImageSource σ) (s : σ) {n : Nat} (hn : 262 ≤ n) :
    (∀ data, readAll src s = .ok (.ok data) →
      (ArchiveOpener.open' B src s = .ok (.error (notArchive B data)) ↔
        ArchiveOpener.probe (data.take n) = .no)) ∧
    ∀ err, ArchiveOpener.open' B src s = .ok (.error err) →
      (readAll src s = .ok (.error err) ∧ src.Fails err) ∨
        ∃ data, readAll src s = .ok (.ok data) ∧
          (ArchiveOpener.probe (data.take n) = .no ∧ err = notArchive B data ∨
            ArchiveOpener.probe (data.take n) ≠ .no ∧
              ∃ e, LayerError B (data, none) e ∧ err = decodeErr B data e) := by
  constructor
  · intro data hread
    obtain ⟨hfits, hread⟩ := readAll_eq_ok.mp hread
    rw [probe_take data hn, open'_eq_ok, hread]
    refine ⟨fun h => ?_, fun h => ⟨hfits, openBytes_of_probe_no h⟩⟩
    by_contra hprobe
    obtain ⟨e, herror, heq⟩ := layerError_of_openBytes hprobe _ h.2
    obtain ⟨-, -, hmessage, -⟩ := VfsError.decode.inj heq
    exact message_ne_notRecognized (layerError_kind herror) hmessage.symm
  · intro err h
    obtain ⟨hfits, h⟩ := open'_eq_ok.mp h
    rcases bind_eq_error.mp h with hread | ⟨data, hread, hopen⟩
    · exact .inl ⟨readAll_eq_ok.mpr ⟨hfits, hread⟩, readWhole_error hread⟩
    · refine .inr ⟨data, readAll_eq_ok.mpr ⟨hfits, hread⟩, ?_⟩
      rw [probe_take data hn]
      by_cases hprobe : ArchiveOpener.probe data = .no
      · rw [openBytes_of_probe_no hprobe] at hopen
        exact .inl ⟨hprobe, (Except.error.inj hopen).symm⟩
      · exact .inr ⟨hprobe, layerError_of_openBytes hprobe err hopen⟩

theorem open'_error_loud_badCrc :
    ArchiveOpener.open' badCrcReaders (scheduled badCrcZip) [2, 3] =
        .ok (.error (.decode "archive" 0 "zip member read failed: Invalid checksum"
          (badCrcZip.take 16))) ∧
      ∃ e, LayerError badCrcReaders (badCrcZip, none) e ∧
        VfsError.decode "archive" 0 "zip member read failed: Invalid checksum"
          (badCrcZip.take 16) = decodeErr badCrcReaders badCrcZip e := by
  have hread : readAll (scheduled badCrcZip) [2, 3] = .ok (.ok badCrcZip) := by decide +kernel
  have hopen : ArchiveOpener.open' badCrcReaders (scheduled badCrcZip) [2, 3] =
      .ok (.error (.decode "archive" 0 "zip member read failed: Invalid checksum"
        (badCrcZip.take 16))) := by
    decide +kernel
  refine ⟨hopen, ?_⟩
  rcases (open'_error_loud (scheduled badCrcZip) [2, 3] (le_refl 262)).2 _ hopen with
    ⟨herror, -⟩ | ⟨data, hdata, herror⟩
  · cases hread.symm.trans herror
  · obtain rfl := Except.ok.inj (Except.ok.inj (hread.symm.trans hdata))
    rcases herror with ⟨hno, -⟩ | ⟨-, herror⟩
    · exact absurd hno (by decide +kernel)
    · exact herror

end ArchiveCore
