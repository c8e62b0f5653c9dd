import ArchiveCore.Proofs.Transparency
import ArchiveCore.Proofs.Wrappers

/-!
# A compressed tar with and without its name

Under its name a compressed tar is opened as an archive that decodes as it goes; without it
the stream is peeled whole and opened one level down. The two list and extract from the same
decoded bytes, so they differ by that one layer.
-/

namespace ArchiveCore

open Framework

theorem extractTarMember_congr {B : Backends} {compressed compressed' : Bytes}
    {outer outer' : Format} (h : tarStream B compressed outer = tarStream B compressed' outer')
    (index cap : Nat) :
    extractTarMemberStreaming B compressed outer index cap =
      extractTarMemberStreaming B compressed' outer' index cap := by
  rw [extractTarMemberStreaming, extractTarMemberStreaming, nthTarEntry, nthTarEntry, h]

theorem entryPart_congr {B : Backends} {compressed compressed' : Bytes} {outer outer' : Format}
    (h : tarStream B compressed outer = tarStream B compressed' outer')
    (entries : List ArchiveEntry) :
    entryPart B ⟨outer, entries, .tar compressed outer⟩ =
      entryPart B ⟨outer', entries, .tar compressed' outer'⟩ := by
  funext member
  have hread : Archive.read B ⟨outer, entries, .tar compressed outer⟩ member.2 =
      Archive.read B ⟨outer', entries, .tar compressed' outer'⟩ member.2 := by
    simp only [Archive.read, extractTarMember_congr h]
  rw [entryPart, entryPart, hread]

theorem layers_of_tar {B : Backends} {data : Bytes} {name : Option String} {outer : Format}
    (houter : outer = .tar ∨ outer = .tarGz ∨ outer = .tarBz2) (h : sniff name data = outer) :
    layers B (data, name) = (do
      let items ← (B.tarEntries (tarStream B data outer)).mapError (.openError "tar")
      let entries ← items.mapM tarListing
      return entries.zipIdx.map (entryPart B ⟨outer, entries, .tar data outer⟩)) := by
  have harch : (sniff name data).isArchive = true := by
    rw [h]
    rcases houter with rfl | rfl | rfl <;> rfl
  have hopen : Archive.open' B data name = (do return some (← openTar B outer data)) := by
    rw [Archive.open', h]
    rcases houter with rfl | rfl | rfl <;> rfl
  rw [layers_of_archive harch, hopen]
  simp only [openTar, bind_assoc, pure_bind]
  rfl

theorem layers_compressedTar {B : Backends} {codec : Codec} {data d : Bytes}
    {name : Option String} (h : ValidWrapper B codec data d) (hustar : hasUstar data = false)
    (halias : tarAlias codec name = true) (htar : sniff none d = .tar) :
    layers B (data, name) = layers B (d, none) := by
  have hsniff : sniff name data = codecTar codec := by
    rw [sniff_of_codecMagic h.magic, hustar, halias]
    rfl
  have hstream : tarStream B data (codecTar codec) = tarStream B d .tar := by
    cases codec <;> exact h.decodes
  have houter : codecTar codec = .tar ∨ codecTar codec = .tarGz ∨ codecTar codec = .tarBz2 := by
    cases codec <;> simp [codecTar]
  rw [layers_of_tar houter hsniff, layers_of_tar (.inl rfl) htar, hstream]
  simp only [entryPart_congr hstream]

theorem resolve_congr {B : Backends} {data data' : Bytes} {name name' : Option String}
    (h : layers B (data, name) = layers B (data', name')) (limits : Limits) (nodes : List Node) :
    resolve B data name limits = .ok nodes ↔ resolve B data' name' limits = .ok nodes := by
  simp only [resolve_eq_ok, LayerTree, Unfolds, h]

/-- A compressed tar resolves under an alias as it does without a name, there with one level
and one stream more. -/
theorem resolve_compressedTar {B : Backends} {codec : Codec} {data d : Bytes} {name : String}
    (limits raised : Limits) (h : ValidWrapper B codec data d) (hustar : hasUstar data = false)
    (halias : tarAlias codec (some name) = true) (htar : sniff none d = .tar)
    (hdepth : raised.maxDepth = limits.maxDepth + 1)
    (hinflated : raised.maxTotalInflated = limits.maxTotalInflated + d.length)
    (hentries : raised.maxEntries = limits.maxEntries)
    (hroom : raised.maxTotalInflated < wordMax) (nodes : List Node) :
    resolve B data (some name) limits = .ok nodes ↔ resolve B data none raised = .ok nodes := by
  have hpeel : peelBytes B data none = .ok (.peeled (codecFormat codec) d) := by
    have hnone : tarAlias codec none = false := by cases codec <;> rfl
    exact h.peeled hnone hustar
  rw [resolve_peeled limits raised hpeel hdepth hinflated hentries hroom]
  exact resolve_congr (layers_compressedTar h hustar halias htar) limits nodes

theorem resolve_compressedTar_oneFile :
    resolve tarReaders oneFileTarGz (some "Case.TGZ")
      { maxDepth := 1, maxTotalInflated := 1, maxEntries := 1, maxIndexBytes := 0 } =
        .ok [.file "a" [0x41]] := by
  have hvalid : ValidWrapper tarReaders .gzip oneFileTarGz oneFileTar :=
    ⟨by decide, by decide +kernel, by decide +kernel⟩
  refine (resolve_compressedTar
    { maxDepth := 1, maxTotalInflated := 1, maxEntries := 1, maxIndexBytes := 0 }
    { maxDepth := 2, maxTotalInflated := 2049, maxEntries := 1, maxIndexBytes := 0 }
    hvalid (by decide +kernel) (by decide) (by decide +kernel) rfl (by decide +kernel) rfl (by decide)
    _).mpr ?_
  decide +kernel

end ArchiveCore
