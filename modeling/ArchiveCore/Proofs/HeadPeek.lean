import ArchiveCore.Proofs.Wrappers

/-!
# A bounded head classifies like the whole stream

The deepest magic ends at byte 262, so any head of that many bytes has every magic the whole
has and no other. The peek of a wrapper is longer than that, and what is planned for a
wrapper is what its whole payload calls for.
-/

namespace ArchiveCore

open Framework

theorem isPrefixOf_take {magic d : Bytes} {n : Nat} (h : magic.length ≤ n) :
    magic.isPrefixOf (d.take n) = magic.isPrefixOf d := by
  rw [Bool.eq_iff_iff, List.isPrefixOf_iff_prefix, List.isPrefixOf_iff_prefix, List.prefix_take_iff]
  exact and_iff_left h

theorem hasUstar_take {d : Bytes} {n : Nat} (h : 262 ≤ n) : hasUstar (d.take n) = hasUstar d := by
  have hlen : 262 ≤ (d.take n).length ↔ 262 ≤ d.length := by
    rw [List.length_take]
    omega
  have hmagic : ((d.take n).drop 257).take 5 = (d.drop 257).take 5 := by
    rw [List.drop_take, List.take_take, Nat.min_eq_left (by omega)]
  rw [hasUstar, hasUstar, hmagic, decide_eq_decide.mpr hlen]

theorem sniff_take (name : Option String) (d : Bytes) {n : Nat} (h : 262 ≤ n) :
    sniff name (d.take n) = sniff name d := by
  have hmagic : ∀ magic ∈ [sevenZipMagic, zipMagic, gzipMagic, bzip2Magic],
      magic.isPrefixOf (d.take n) = magic.isPrefixOf d := by
    intro magic hmem
    have hshort : ∀ magic ∈ [sevenZipMagic, zipMagic, gzipMagic, bzip2Magic], magic.length ≤ 262 := by
      decide
    exact isPrefixOf_take ((hshort magic hmem).trans h)
  simp only [List.forall_mem_cons] at hmagic
  simp only [sniff, hasUstar_take h, hmagic]

/-- The plan that a payload of this format calls for. -/
def payloadPlan (B : Backends) (codec : Codec) (data : Bytes) : Format → Except ArchiveError AccessPlan
  | .tar => detectArchive B (codecTar codec) data
  | .unknown => .ok (.wrapper codec (wrapperAccess codec))
  | _ => .ok (.wrapper codec .spillToTemp)

theorem detectArchive_ne_direct {B : Backends} {format : Format} {data : Bytes} :
    detectArchive B format data ≠ .ok .direct := by
  intro h
  rw [detectArchive, bind_eq_ok] at h
  obtain ⟨opened, -, h⟩ := h
  cases opened with
  | none => cases h
  | some archive =>
    dsimp only at h
    split at h
    · simp at h
    · split at h
      · simp at h
      · cases h

theorem payloadPlan_ne_direct {B : Backends} {codec : Codec} {data : Bytes} (format : Format) :
    payloadPlan B codec data format ≠ .ok .direct := by
  cases format with
  | tar => exact detectArchive_ne_direct
  | _ => simp [payloadPlan]

theorem detectWrapper_eq {B : Backends} {codec : Codec} {data d : Bytes}
    (h : codecReader B codec data = Feed.eof d) :
    detectWrapper B codec data = payloadPlan B codec data (sniff none d) := by
  have hpeek : sniff none (d.take headPeek) = sniff none d := sniff_take none d (by decide)
  unfold detectWrapper
  rw [peekHead_of_eof h]
  simp only [hpeek]
  cases sniff none d with
  | tar => cases codec <;> rfl
  | _ => rfl

/-- A head of 262 bytes is classified as the whole is, and a wrapper that decodes is planned
by its whole payload, never as if it were not packed. -/
theorem head_classifies (name : Option String) (d : Bytes) {n : Nat} (hn : 262 ≤ n) :
    sniff name (d.take n) = sniff name d ∧
      ∀ B codec data, sniff none data = codecFormat codec → codecReader B codec data = Feed.eof d →
        detect B data = payloadPlan B codec data (sniff none d) ∧ detect B data ≠ .ok .direct := by
  refine ⟨sniff_take name d hn, ?_⟩
  intro B codec data hsniff hdecodes
  have hplan : detect B data = payloadPlan B codec data (sniff none d) := by
    rw [← detectWrapper_eq hdecodes, detect, hsniff]
    cases codec <;> rfl
  exact ⟨hplan, hplan ▸ payloadPlan_ne_direct _⟩

/-- A compressed tar, known by the first 262 bytes it decodes to and planned as its one file. -/
theorem head_classifies_oneFileTar :
    sniff none (oneFileTar.take 262) = .tar ∧
      detect tarReaders oneFileTarGz = .ok (.member .tarGz 0 "a" .spillToTemp) := by
  obtain ⟨hhead, hplan⟩ := head_classifies none oneFileTar (le_refl 262)
  have htar : sniff none oneFileTar = .tar := by decide +kernel
  have hdetect := hplan tarReaders .gzip oneFileTarGz (by decide +kernel) (by decide +kernel)
  have hplanned : detectArchive tarReaders .tarGz oneFileTarGz =
      .ok (.member .tarGz 0 "a" .spillToTemp) := by decide +kernel
  rw [htar] at hhead hdetect
  exact ⟨hhead, hdetect.1.trans hplanned⟩

end ArchiveCore
