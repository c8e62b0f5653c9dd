import ArchiveCore.Core.Images
import ArchiveCore.Proofs.ResolveTree

/-!
# Leaves are resolved already

A leaf is classified under the name it was reached by and reported under that name, or under
the empty one where there was none. The empty name ends in no suffix, so both classify alike
and a leaf resolves to itself.
-/

namespace ArchiveCore

open Framework

theorem sniff_getD (name : Option String) (data : Bytes) :
    sniff (some (name.getD "")) data = sniff name data := by
  cases name with
  | some n => rfl
  | none => exact sniff_congr (by decide) data

/-- A node that no longer classifies as a layer under its own name. -/
def Node.Settled : Node → Prop
  | .file name bytes => sniff (some name) bytes = .unknown
  | .dir _ => True

theorem settled_of_layers {B : Backends} (item : Item) (parts : List (Part Item Node ArchiveError))
    (h : layers B item = .ok parts) (counted : Bool) (node : Node)
    (hmem : ⟨counted, .ok (.inl node)⟩ ∈ parts) : node.Settled := by
  rcases layers_cases h with ⟨format, inner, -, rfl⟩ | ⟨hunknown, rfl⟩ | ⟨archive, -, rfl⟩
  · simp [peeledPart] at hmem
  · simp only [List.mem_singleton] at hmem
    obtain ⟨-, rfl⟩ := hmem
    exact (sniff_getD item.2 item.1).trans hunknown
  · obtain ⟨member, -, hpart⟩ := List.mem_map.mp hmem
    obtain ⟨-, rfl⟩ := entryPart_eq_note.mp (congrArg Part.content hpart)
    trivial

theorem resolve_of_unknown {B : Backends} {data : Bytes} {name : Option String}
    (h : sniff name data = .unknown) (limits : Limits) :
    resolve B data name limits = .ok [leaf name data] := by
  have hwrap : ¬ (sniff name data).isCompressionWrapper = true := by simp [h, Format.isCompressionWrapper]
  have harch : ¬ (sniff name data).isArchive = true := by simp [h, Format.isArchive]
  rw [resolve, resolveInto, if_neg (Nat.not_lt_zero _), if_neg hwrap, if_neg harch]
  rfl

/-- No leaf of a resolution is a layer under the name it is reported with, and under that name
it resolves to itself. -/
theorem resolve_fixed_point {B : Backends} {data : Bytes} {name : Option String} {limits : Limits}
    {nodes : List Node} (h : resolve B data name limits = .ok nodes) {f : String} {b : Bytes}
    (hleaf : Node.file f b ∈ nodes) :
    sniff (some f) b = .unknown ∧
      ∀ limits' : Limits, resolve B b (some f) limits' = .ok [.file f b] := by
  obtain ⟨tree, htree, -, rfl⟩ := resolve_eq_ok.mp h
  have hsettled : (Node.file f b).Settled := htree.forall_notes settled_of_layers _ hleaf
  exact ⟨hsettled, resolve_of_unknown hsettled⟩

theorem resolve_fixed_point_oneFile :
    sniff none oneFileTarGz ≠ .unknown ∧
      resolve tarReaders oneFileTarGz none .default = .ok [.file "a" [0x41]] ∧
      sniff (some "a") [0x41] = .unknown ∧
      resolve tarReaders [0x41] (some "a")
        { maxDepth := 0, maxTotalInflated := 0, maxEntries := 0, maxIndexBytes := 0 } =
          .ok [.file "a" [0x41]] := by
  have hresolve : resolve tarReaders oneFileTarGz none .default = .ok [.file "a" [0x41]] := by
    decide +kernel
  obtain ⟨hunknown, hagain⟩ := resolve_fixed_point hresolve List.mem_cons_self
  exact ⟨by decide +kernel, hresolve, hunknown, hagain _⟩

end ArchiveCore
