import ArchiveCore.Core.Images
import ArchiveCore.Framework.WalkBounds
import ArchiveCore.Proofs.ResolveTree

/-!
# The work of a resolution is bounded

The guarded walk opens few items and their sizes are charged, so the limits bound the work
and not only the result, whatever the outcome. An error is a bound that was really passed,
or the error of a stream or member that lies within the levels allowed.
-/

namespace ArchiveCore

open Framework

variable {B : Backends} {data : Bytes} {name : Option String} {limits : Limits}

theorem resolve_eq_walk (B : Backends) (data : Bytes) (name : Option String) (limits : Limits) :
    resolve B data name limits =
      (limits.guard.walk (layers B) extendChain 0 (name.getD "<input>") (data, name) ⟨0, 0⟩ []).map
        Prod.snd := by
  have hwalk : walked (resolveInto B limits data name 0 (name.getD "<input>") ⟨0, 0⟩ []) =
      limits.guard.walk (layers B) extendChain 0 (name.getD "<input>") (data, name) ⟨0, 0⟩ [] :=
    resolveInto_eq_walk data name 0 (name.getD "<input>") ⟨0, 0⟩ []
  rw [← hwalk, resolve]
  cases resolveInto B limits data name 0 (name.getD "<input>") ⟨0, 0⟩ [] <;> rfl

theorem layers_narrow (B : Backends) : Narrow (layers B) := by
  intro item parts h
  rcases layers_cases h with ⟨format, inner, -, rfl⟩ | ⟨-, rfl⟩ | ⟨archive, -, rfl⟩
  · exact List.length_filter_le _ _
  · exact List.length_filter_le _ _
  · have hcounted : (archive.entries.zipIdx.map (entryPart B archive)).filter
        (fun part => !part.counted) = [] := by
      refine List.filter_eq_nil_iff.mpr fun part hpart => ?_
      obtain ⟨member, -, rfl⟩ := List.mem_map.mp hpart
      simp [entryPart]
    rw [hcounted]
    exact Nat.zero_le _

theorem layers_priced (B : Backends) : Priced (layers B) fun item => item.1.length := by
  intro item parts counted cost child h hmem
  rcases layers_cases h with ⟨format, inner, -, rfl⟩ | ⟨-, rfl⟩ | ⟨archive, -, rfl⟩
  · cases List.mem_singleton.mp hmem
    exact le_rfl
  · cases List.mem_singleton.mp hmem
  · obtain ⟨member, -, hpart⟩ := List.mem_map.mp hmem
    obtain ⟨-, bytes, -, rfl, rfl⟩ := entryPart_eq_child.mp (congrArg Part.content hpart)
    exact le_rfl

/-- Whatever the outcome of a resolution, it is settled by few openings of bounded size: as
many as the levels allow for the input and for each counted entry. -/
theorem resolve_bounded_openings (B : Backends) (data : Bytes) (name : Option String)
    (limits : Limits) :
    ∃ (seen : List Item) (entries inflated : Nat),
      min entries wordMax ≤ limits.maxEntries ∧
      min inflated wordMax ≤ limits.maxTotalInflated ∧
      seen.length ≤ (limits.maxDepth + 1) + limits.maxDepth * entries ∧
      (seen.map fun item => item.1.length).sum ≤ data.length + inflated ∧
      ∀ B' : Backends, (∀ item ∈ seen, layers B' item = layers B item) →
        resolve B' data name limits = resolve B data name limits := by
  obtain ⟨seen, entries, inflated, hentries, hinflated, hlength, hsizes, hsame⟩ :=
    Guard.exists_openings (layers_narrow B) (layers_priced B) limits.guard extendChain
      (name.getD "<input>") (data, name)
  refine ⟨seen, entries, inflated, hentries, hinflated, hlength, hsizes, fun B' hseen => ?_⟩
  rw [resolve_eq_walk, resolve_eq_walk, hsame (layers B') hseen]

/-- `item` lies `depth` layers below `root`, and `chain` is what an error calls the way. -/
def LayerAt (B : Backends) (root : Item) : Nat → String → Item → Prop :=
  LevelAt (layers B) extendChain (root.2.getD "<input>") root

/-- The errors of one stream or archive: it does not decode, it does not open, or one of its
files is not read. -/
inductive LayerError (B : Backends) (item : Item) : ArchiveError → Prop
  | peel {e} :
      (sniff item.2 item.1).isCompressionWrapper = true →
      peelBytes B item.1 item.2 = .error e → LayerError B item e
  | opening {e} :
      (sniff item.2 item.1).isArchive = true →
      Archive.open' B item.1 item.2 = .error e → LayerError B item e
  | member {archive entry index e} :
      Archive.open' B item.1 item.2 = .ok (some archive) →
      (entry, index) ∈ archive.entries.zipIdx → entry.isDir = false →
      archive.read B index = .error e → LayerError B item e

theorem openWithFormat_ne_none {format : Format} (h : format.isArchive = true) :
    Archive.openWithFormat B format data ≠ .ok none := by
  cases format <;> simp [Format.isArchive, Archive.openWithFormat] at h ⊢

theorem layerError_of_layers {item : Item} {e : ArchiveError} (h : layers B item = .error e) :
    LayerError B item e := by
  obtain ⟨data, name⟩ := item
  cases hwrap : (sniff name data).isCompressionWrapper with
  | true =>
    rw [layers_of_wrapper hwrap, bind_eq_error] at h
    rcases h with hpeel | ⟨outcome, -, h⟩
    · exact .peel hwrap hpeel
    · cases outcome <;> cases h
  | false =>
    cases harch : (sniff name data).isArchive with
    | true =>
      rw [layers_of_archive harch, bind_eq_error] at h
      rcases h with hopen | ⟨opened, hopen, h⟩
      · exact .opening harch hopen
      · cases opened with
        | none => exact absurd hopen (openWithFormat_ne_none harch)
        | some archive => cases h
    | false =>
      rw [layers_of_unknown (Format.eq_unknown hwrap harch)] at h
      cases h

theorem layerError_of_fetch {item : Item} {parts : List (Part Item Node ArchiveError)}
    {counted : Bool} {e : ArchiveError} (h : layers B item = .ok parts)
    (hmem : ⟨counted, .error e⟩ ∈ parts) : LayerError B item e := by
  rcases layers_cases h with ⟨format, inner, -, rfl⟩ | ⟨-, rfl⟩ | ⟨archive, hopen, rfl⟩
  · cases List.mem_singleton.mp hmem
  · cases List.mem_singleton.mp hmem
  · obtain ⟨⟨entry, index⟩, hentry, hpart⟩ := List.mem_map.mp hmem
    have hcontent := congrArg Part.content hpart
    cases hdir : entry.isDir with
    | true => simp [entryPart, hdir] at hcontent
    | false =>
      simp only [entryPart, hdir, Bool.false_eq_true, if_false, bind_eq_error] at hcontent
      rcases hcontent with hread | ⟨bytes, -, hpure⟩
      · exact .member hopen hentry hdir hread
      · exact absurd hpure pure_ne_error

theorem walk_eq_error {e : ArchiveError} :
    resolve B data name limits = .error e ↔
      limits.guard.walk (layers B) extendChain 0 (name.getD "<input>") (data, name) ⟨0, 0⟩ [] =
        .error e := by
  rw [resolve_eq_walk]
  cases limits.guard.walk (layers B) extendChain 0 (name.getD "<input>") (data, name) ⟨0, 0⟩ [] <;>
    simp [Except.map]

/-- Every error of a resolution is a limit, or what one stream, archive or member within the
allowed depth reports itself. A depth error names the way to an item one level too deep. -/
theorem resolve_error_located {e : ArchiveError} (h : resolve B data name limits = .error e) :
    e = .tooManyEntries limits.maxEntries ∨
    e = .totalInflatedExceeded limits.maxTotalInflated ∨
    (∃ chain item, LayerAt B (data, name) (limits.maxDepth + 1) chain item ∧
      e = .depthExceeded limits.maxDepth chain) ∨
    ∃ depth chain item, depth ≤ limits.maxDepth ∧ LayerAt B (data, name) depth chain item ∧
      LayerError B item e := by
  cases Guard.walk_error (walk_eq_error.mp h) with
  | tooMany => exact .inl rfl
  | tooCostly => exact .inr (.inl rfl)
  | tooDeep hlevel => exact .inr (.inr (.inl ⟨_, _, hlevel, rfl⟩))
  | expand hdepth hlevel hexpand =>
    exact .inr (.inr (.inr ⟨_, _, _, hdepth, hlevel, layerError_of_layers hexpand⟩))
  | fetch hdepth hlevel hexpand hmem =>
    exact .inr (.inr (.inr ⟨_, _, _, hdepth, hlevel, layerError_of_fetch hexpand hmem⟩))

theorem resolve_error_located_badCrc :
    ∃ depth chain item, depth ≤ Limits.default.maxDepth ∧
      LayerAt badCrcReaders (badCrcZip, none) depth chain item ∧
      LayerError badCrcReaders item (.read "zip" "Invalid checksum") := by
  have hresolve : resolve badCrcReaders badCrcZip none .default =
      .error (.read "zip" "Invalid checksum") := by decide +kernel
  rcases resolve_error_located hresolve with h | h | ⟨_, _, -, h⟩ | h
  · cases h
  · cases h
  · cases h
  · exact h

/-- Where every layer decodes, opens and reads, a resolution fails only with a limit that the
whole tree goes beyond, and the error names that limit. -/
theorem resolve_error_truthful {e : ArchiveError} {tree : Forest Node}
    (htree : LayerTree B (data, name) tree) (h : resolve B data name limits = .error e) :
    (e = .tooManyEntries limits.maxEntries ∧ limits.maxEntries < min tree.totalCount wordMax) ∨
    (e = .totalInflatedExceeded limits.maxTotalInflated ∧
      limits.maxTotalInflated < min tree.totalCost wordMax) ∨
    ∃ chain item, e = .depthExceeded limits.maxDepth chain ∧ limits.maxDepth < tree.height ∧
      LayerAt B (data, name) (limits.maxDepth + 1) chain item := by
  cases Guard.walk_error_of_unfolds htree (walk_eq_error.mp h) with
  | tooMany hcount => exact .inl ⟨rfl, hcount⟩
  | tooCostly hcost => exact .inr (.inl ⟨rfl, hcost⟩)
  | tooDeep hheight hlevel => exact .inr (.inr ⟨_, _, rfl, hheight, hlevel⟩)

theorem resolve_error_truthful_oneFile :
    ∃ tree, LayerTree tarReaders (oneFileTarGz, none) tree ∧ 0 < tree.height ∧
      ∃ item, LayerAt tarReaders (oneFileTarGz, none) 1 "<input> -> <peeled>" item := by
  have hresolve : resolve tarReaders oneFileTarGz none .default = .ok [.file "a" [0x41]] := by
    decide +kernel
  have hdeep : resolve tarReaders oneFileTarGz none { Limits.default with maxDepth := 0, maxDepth_le := by decide } =
      .error (.depthExceeded 0 "<input> -> <peeled>") := by decide +kernel
  obtain ⟨tree, htree, -, -⟩ := resolve_eq_ok.mp hresolve
  rcases resolve_error_truthful htree hdeep with ⟨h, -⟩ | ⟨h, -⟩ | ⟨_, item, h, hheight, hitem⟩
  · cases h
  · cases h
  · obtain ⟨-, rfl⟩ := ArchiveError.depthExceeded.inj h
    exact ⟨tree, htree, hheight, item, hitem⟩

/-- The bytes of a node. -/
def Node.size : Node → Nat
  | .file _ bytes => bytes.length
  | .dir _ => 0

theorem noteWeight_layers {item : Item} {parts : List (Part Item Node ArchiveError)}
    (h : layers B item = .ok parts) :
    noteWeight Node.size parts = 0 ∨
      (sniff item.2 item.1 = .unknown ∧ noteWeight Node.size parts = item.1.length) := by
  rcases layers_cases h with ⟨format, inner, -, rfl⟩ | ⟨hunknown, rfl⟩ | ⟨archive, -, rfl⟩
  · exact .inl rfl
  · exact .inr ⟨hunknown, rfl⟩
  · left
    rw [noteWeight, List.map_map]
    refine List.sum_eq_zero fun weight hweight => ?_
    obtain ⟨member, -, rfl⟩ := List.mem_map.mp hweight
    cases hdir : member.1.isDir with
    | true => simp [entryPart, hdir, Node.size]
    | false =>
      cases hread : archive.read B member.2 <;>
        simp [entryPart, hdir, hread, bind, Except.bind, pure, Except.pure]

/-- What a recognized input resolves to is bounded by the limits in number and in bytes; the
input itself is not part of it. -/
theorem resolve_output_bounded {nodes : List Node} (h : resolve B data name limits = .ok nodes)
    (hlayer : sniff name data ≠ .unknown) :
    min nodes.length wordMax ≤ limits.maxEntries + 1 ∧
      min (nodes.map Node.size).sum wordMax ≤ limits.maxTotalInflated := by
  obtain ⟨tree, ⟨parts, hparts, hunfold⟩, hlimits, rfl⟩ := resolve_eq_ok.mp h
  have hentries := hlimits.entries
  have hinflated := hlimits.inflated
  have hcount := hunfold.length_notes_le (layers_narrow B)
  have hnarrow := layers_narrow B _ parts hparts
  have hitems : ∀ (item : Item) parts, layers B item = .ok parts →
      noteWeight Node.size parts ≤ item.1.length := by
    intro item parts hitem
    rcases noteWeight_layers hitem with hown | ⟨-, hown⟩ <;> omega
  have hbytes := hunfold.weight_notes_le (layers_priced B) hitems
    (fun counted cost child hmem => layers_priced B _ parts counted cost child hparts hmem)
  have hown : noteWeight Node.size parts = 0 :=
    (noteWeight_layers hparts).resolve_right fun hleaf => hlayer hleaf.1
  constructor <;> omega

theorem resolve_output_bounded_oneFile :
    min [Node.file "a" [0x41]].length wordMax ≤ Limits.default.maxEntries + 1 ∧
      min ([Node.file "a" [0x41]].map Node.size).sum wordMax ≤ Limits.default.maxTotalInflated := by
  have hresolve : resolve tarReaders oneFileTarGz none .default = .ok [.file "a" [0x41]] := by
    decide +kernel
  exact resolve_output_bounded hresolve (by decide +kernel)

end ArchiveCore
