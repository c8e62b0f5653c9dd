import ArchiveCore.Proofs.FirstLayer

/-!
# The layers of a resolution

Every layer that can be reached from a resolved input resolves by itself, with the levels that
are left, to one run of the whole. So the result lists the leaves and directories of all the
layers that can be reached, and nothing else.
-/

namespace ArchiveCore

open Framework

/-- The limits with the levels that are left below this depth. -/
def Limits.belowDepth (limits : Limits) (depth : Nat) : Limits :=
  { limits with
    maxDepth := limits.maxDepth - depth
    maxDepth_le := (Nat.sub_le _ _).trans limits.maxDepth_le }

/-- What a layer brings by itself: it is a leaf, or an entry of it is a directory. -/
inductive OwnNode (B : Backends) (item : Item) : Node → Prop
  | leaf : sniff item.2 item.1 = .unknown → OwnNode B item (leaf item.2 item.1)
  | dir {archive entry} :
      Archive.open' B item.1 item.2 = .ok (some archive) → entry ∈ archive.entries →
      entry.isDir = true → OwnNode B item (.dir entry.name)

variable {B : Backends} {data : Bytes} {name : Option String} {limits : Limits}
  {nodes : List Node}

/-- A layer at any depth resolves to one run of the whole, under what is left of the limits. -/
theorem resolve_sublayer {depth : Nat} {chain : String} {item : Item}
    (h : resolve B data name limits = .ok nodes)
    (hlayer : LayerAt B (data, name) depth chain item) :
    depth ≤ limits.maxDepth ∧ ∃ sub,
      resolve B item.1 item.2 (limits.belowDepth depth) = .ok sub ∧ sub <:+: nodes := by
  obtain ⟨tree, htree, ⟨hdepth, hentries, hinflated⟩, rfl⟩ := resolve_eq_ok.mp h
  obtain ⟨below, hbelow, hnotes, hheight, hcount, hcost⟩ := Unfolds.level htree hlayer
  have hlimits : WithinLimits (limits.belowDepth depth) below := by
    refine ⟨?_, ?_, ?_⟩ <;> simp only [Limits.belowDepth] <;> omega
  exact ⟨by omega, below.notes, resolve_eq_ok.mpr ⟨below, hbelow, hlimits, rfl⟩, hnotes⟩

theorem oneFileTarGz_layer :
    LayerAt tarReaders (oneFileTarGz, none) 1 "<input> -> <peeled>" (oneFileTar, none) := by
  have hpeel : peelBytes tarReaders oneFileTarGz none = .ok (.peeled .gzip oneFileTar) := by
    decide +kernel
  have hparts : layers tarReaders (oneFileTarGz, none) = .ok [peeledPart none oneFileTar] := by
    rw [layers_of_wrapper (by decide +kernel), hpeel]
    rfl
  exact .child .root hparts (List.mem_singleton.mpr rfl)

theorem resolve_sublayer_oneFile :
    1 ≤ Limits.default.maxDepth ∧ ∃ sub,
      resolve tarReaders oneFileTar none (Limits.default.belowDepth 1) = .ok sub ∧
      sub <:+: [Node.file "a" [0x41]] := by
  have hresolve : resolve tarReaders oneFileTarGz none .default = .ok [.file "a" [0x41]] := by
    decide +kernel
  exact resolve_sublayer hresolve oneFileTarGz_layer

theorem noted_iff_ownNode {item : Item} {node : Node} :
    (∃ parts counted, layers B item = .ok parts ∧ ⟨counted, .ok (.inl node)⟩ ∈ parts) ↔
      OwnNode B item node := by
  constructor
  · rintro ⟨parts, counted, hparts, hmem⟩
    rcases layers_cases hparts with ⟨format, inner, -, rfl⟩ | ⟨hunknown, rfl⟩ | ⟨archive, hopen, rfl⟩
    · cases List.mem_singleton.mp hmem
    · cases List.mem_singleton.mp hmem
      exact .leaf hunknown
    · obtain ⟨⟨entry, index⟩, hentry, hpart⟩ := List.mem_map.mp hmem
      obtain ⟨hdir, rfl⟩ := entryPart_eq_note.mp (congrArg Part.content hpart)
      exact .dir hopen (List.fst_mem_of_mem_zipIdx hentry) hdir
  · intro h
    cases h with
    | leaf hunknown =>
      exact ⟨_, false, layers_of_unknown hunknown, List.mem_singleton.mpr rfl⟩
    | @dir archive entry hopen hentry hdir =>
      obtain ⟨index, hindex, rfl⟩ := List.mem_iff_getElem.mp hentry
      refine ⟨archive.entries.zipIdx.map (entryPart B archive), true, ?_, ?_⟩
      · rw [layers_of_archive (isArchive_of_open hopen), hopen]
        rfl
      · refine List.mem_map.mpr ⟨(archive.entries[index], index), ?_, ?_⟩
        · exact List.mem_zipIdx_iff_getElem?.mpr (List.getElem?_eq_getElem hindex)
        · simp [entryPart, hdir]

/-- A resolution lists the leaves and the directories of all the layers that can be reached
from the input, however deep, and nothing else. -/
theorem mem_resolve_iff (h : resolve B data name limits = .ok nodes) (node : Node) :
    node ∈ nodes ↔ ∃ depth chain item, LayerAt B (data, name) depth chain item ∧
      OwnNode B item node := by
  obtain ⟨tree, htree, -, rfl⟩ := resolve_eq_ok.mp h
  rw [Unfolds.mem_notes_iff htree extendChain (name.getD "<input>")]
  simp only [NotedAt, LayerAt, ← noted_iff_ownNode]
  grind

theorem mem_resolve_iff_oneFile :
    ∃ depth chain item, LayerAt tarReaders (oneFileTarGz, none) depth chain item ∧
      OwnNode tarReaders item (.file "a" [0x41]) := by
  have hresolve : resolve tarReaders oneFileTarGz none .default = .ok [.file "a" [0x41]] := by
    decide +kernel
  exact (mem_resolve_iff hresolve _).mp (List.mem_singleton.mpr rfl)

end ArchiveCore
