import ArchiveCore.Proofs.BoundedWork
import ArchiveCore.Proofs.CompressedTar
import ArchiveCore.Proofs.FixedPoint
import ArchiveCore.Proofs.VfsLayers

/-!
# The first layer of a resolution

An archive resolves to what its entries bring, whatever container holds them. The opener of
the file system takes the same first layer as the recursion, so what it hands out resolves to
the files of the whole.
-/

namespace ArchiveCore

open Framework

/-- Every measure of a tree is within those of another. -/
structure Smaller (tree whole : Forest Node) : Prop where
  height : tree.height ≤ whole.height
  count : tree.totalCount ≤ whole.totalCount
  cost : tree.totalCost ≤ whole.totalCost

theorem Smaller.withinLimits {tree whole : Forest Node} {limits : Limits} (h : Smaller tree whole)
    (hwhole : WithinLimits limits whole) : WithinLimits limits tree where
  depth := h.height.trans hwhole.depth
  entries := (min_le_min_right wordMax h.count).trans hwhole.entries
  inflated := (min_le_min_right wordMax h.cost).trans hwhole.inflated

variable {B : Backends} {data : Bytes} {name : Option String} {limits : Limits}

/-- What one part brings to a tree: itself, or the notes of a smaller tree. -/
inductive PartBrings (B : Backends) (whole : Forest Node) :
    Part Item Node ArchiveError → List Node → Prop
  | note {counted node} : PartBrings B whole ⟨counted, .ok (.inl node)⟩ [node]
  | child {counted cost item below} :
      LayerTree B item below → Smaller below whole →
      PartBrings B whole ⟨counted, .ok (.inr (cost, item))⟩ below.notes

theorem exists_brought {parts : List (Part Item Node ArchiveError)} {tree whole : Forest Node}
    (h : UnfoldsParts (layers B) parts tree) (hwhole : Smaller tree whole) :
    ∃ brought, List.Forall₂ (PartBrings B whole) parts brought ∧ tree.notes = brought.flatten := by
  induction h with
  | nil => exact ⟨[], .nil, rfl⟩
  | @note counted node parts rest _ ih =>
    have hrest : Smaller rest whole :=
      ⟨hwhole.height, (Nat.le_add_left _ _).trans hwhole.count, hwhole.cost⟩
    obtain ⟨brought, hbrought, hnotes⟩ := ih hrest
    exact ⟨[node] :: brought, .cons .note hbrought, by simp [Forest.notes, hnotes]⟩
  | @child counted cost item inside inner parts rest hitem hinner _ _ ih =>
    obtain ⟨hheight, hcount, hcost⟩ := hwhole
    simp only [Forest.height, Forest.totalCount, Forest.totalCost] at hheight hcount hcost
    have hbelow : Smaller inner whole := ⟨by omega, by omega, by omega⟩
    have hrest : Smaller rest whole := ⟨by omega, by omega, by omega⟩
    obtain ⟨brought, hbrought, hnotes⟩ := ih hrest
    exact ⟨inner.notes :: brought, .cons (.child ⟨inside, hitem, hinner⟩ hbelow) hbrought,
      by simp [Forest.notes, hnotes]⟩

/-- What one entry of an archive brings to its resolution. -/
inductive MemberResolves (B : Backends) (limits : Limits) (archive : Archive) :
    ArchiveEntry × Nat → List Node → Prop
  | dir {entry index} : entry.isDir = true →
      MemberResolves B limits archive (entry, index) [.dir entry.name]
  | file {entry index bytes nodes} : entry.isDir = false → archive.read B index = .ok bytes →
      resolve B bytes (some entry.name) limits = .ok nodes →
      MemberResolves B limits archive (entry, index) nodes

theorem members_of_resolve {nodes : List Node} (harch : (sniff name data).isArchive = true)
    (h : resolve B data name limits = .ok nodes) :
    ∃ archive brought, Archive.open' B data name = .ok (some archive) ∧
      List.Forall₂ (MemberResolves B limits archive) archive.entries.zipIdx brought ∧
      nodes = brought.flatten := by
  obtain ⟨tree, ⟨parts, hparts, hunfold⟩, hlimits, rfl⟩ := resolve_eq_ok.mp h
  rw [layers_of_archive harch, bind_eq_ok] at hparts
  obtain ⟨opened, hopen, hparts⟩ := hparts
  cases opened with
  | none => cases hparts
  | some archive =>
    obtain rfl := Except.ok.inj hparts
    obtain ⟨brought, hbrought, hnotes⟩ := exists_brought hunfold ⟨le_rfl, le_rfl, le_rfl⟩
    refine ⟨archive, brought, hopen, (List.forall₂_map_left_iff.mp hbrought).imp ?_, hnotes⟩
    intro member nodes hpart
    obtain ⟨entry, index⟩ := member
    generalize hmember : entryPart B archive (entry, index) = part at hpart
    have hcontent := congrArg Part.content hmember
    cases hpart with
    | note =>
      obtain ⟨hdir, rfl⟩ := entryPart_eq_note.mp hcontent
      exact .dir hdir
    | child htree hsmaller =>
      obtain ⟨hdir, bytes, hread, -, rfl⟩ := entryPart_eq_child.mp hcontent
      exact .file hdir hread
        (resolve_eq_ok.mpr ⟨_, htree, hsmaller.withinLimits hlimits, rfl⟩)

/-- The files among some nodes. -/
def Node.isFile : Node → Bool
  | .file _ _ => true
  | .dir _ => false

def files (nodes : List Node) : List Node := nodes.filter Node.isFile

@[simp] theorem files_append (ns ms : List Node) : files (ns ++ ms) = files ns ++ files ms :=
  List.filter_append ns ms

@[simp] theorem files_dir (name : String) : files [.dir name] = [] := rfl

/-- A member as it was opened, and what the bytes of its source resolve to under its recorded
name. -/
def OpenedMember (B : Backends) (limits : Limits) (m : Member) (nodes : List Node) : Prop :=
  ∃ (name : String) (bytes : Bytes), m.name = name.toUTF8.data.toList ∧
    readAll m.source.imageSource () = .ok (.ok bytes) ∧
    resolve B bytes (some name) limits = .ok nodes

theorem exists_openedMembers {archive : Archive} {members : List (ArchiveEntry × Nat)}
    {brought : List (List Node)}
    (h : List.Forall₂ (MemberResolves B limits archive) members brought) :
    ∃ ms nodes, List.Forall₂ (MemberOf B archive) (members.filter fun e => !e.1.isDir) ms ∧
      List.Forall₂ (OpenedMember B limits) ms nodes ∧
      files brought.flatten = (nodes.map files).flatten := by
  induction h with
  | nil => exact ⟨[], [], .nil, .nil, rfl⟩
  | @cons member sub members brought hmember _ ih =>
    obtain ⟨ms, nodes, hms, hnodes, hfiles⟩ := ih
    cases hmember with
    | dir hdir =>
      refine ⟨ms, nodes, by simpa [hdir] using hms, hnodes, ?_⟩
      rw [List.flatten_cons, files_append, files_dir, hfiles, List.nil_append]
    | @file entry index bytes _ hdir hread hresolve =>
      refine ⟨⟨entry.name.toUTF8.data.toList, ⟨bytes⟩⟩ :: ms, sub :: nodes, ?_, ?_, ?_⟩
      · rw [List.filter_cons_of_pos (by simp [hdir])]
        exact .cons ⟨rfl, hread⟩ hms
      · have hmax : bytes.length ≤ isizeMax :=
          (Archive.read_eq_ok.mp hread).2.trans (by decide)
        exact .cons ⟨entry.name, bytes, rfl, readAll_bytesSource hmax, hresolve⟩ hnodes
      · simp [hfiles]

theorem resolve_inner_of_resolve {format : Format} {inner : Bytes} {nodes : List Node}
    (hpeel : peelBytes B data name = .ok (.peeled format inner))
    (h : resolve B data name limits = .ok nodes) :
    resolve B inner (stripCompressionExt name) limits = .ok nodes := by
  obtain ⟨tree, htree, hlimits, rfl⟩ := resolve_eq_ok.mp h
  obtain ⟨below, hbelow, rfl⟩ := (layerTree_wrapper hpeel).mp htree
  have hsmaller : Smaller below (.child false inner.length below .nil) := by
    refine ⟨?_, ?_, ?_⟩ <;>
      simp only [Forest.height, Forest.totalCount, Forest.totalCost, Bool.toNat_false] <;>
      omega
  have hnotes : (Forest.child false inner.length below .nil).notes = below.notes := by
    simp [Forest.notes]
  exact resolve_eq_ok.mpr ⟨below, hbelow, hsmaller.withinLimits hlimits, hnotes⟩

variable {σ : Type} {src : ImageSource σ} {s : σ}

/-- Whatever was read and resolves without a name is one unrecognized leaf, which does not open,
or opens as a layer; the sources the opener hands out read back whole, and their bytes resolve
to the same files in the same order. -/
theorem open'_of_resolve {nodes : List Node} (hread : readAll src s = .ok (.ok data))
    (h : resolve B data none limits = .ok nodes) :
    (ArchiveOpener.open' B src s = .ok (.error (notArchive B data)) ∧ nodes = [.file "" data]) ∨
    (∃ b inner, ArchiveOpener.open' B src s = .ok (.ok (.stream b)) ∧
      readAll b.imageSource () = .ok (.ok inner) ∧ resolve B inner none limits = .ok nodes) ∨
    ∃ ms subs, ArchiveOpener.open' B src s = .ok (.ok (.members ms)) ∧
      List.Forall₂ (OpenedMember B limits) ms subs ∧ files nodes = (subs.map files).flatten := by
  obtain ⟨hfits, hread⟩ := readAll_eq_ok.mp hread
  have hopen : ∀ result, openBytes B data = result → ArchiveOpener.open' B src s = .ok result := by
    intro result hresult
    rw [open'_eq_ok, hread]
    exact ⟨hfits, hresult⟩
  cases hwrap : (sniff none data).isCompressionWrapper with
  | true =>
    obtain ⟨tree, ⟨parts, hparts, -⟩, -⟩ := resolve_eq_ok.mp h
    rw [layers_of_wrapper hwrap, bind_eq_ok] at hparts
    obtain ⟨outcome, hpeel, -⟩ := hparts
    cases outcome with
    | notPacked => exact absurd hpeel (peelBytes_ne_notPacked hwrap)
    | peeled format inner =>
      obtain ⟨rfl, -, -, hmax⟩ := peelBytes_eq_peeled.mp hpeel
      exact .inr (.inl ⟨⟨inner⟩, inner,
        hopen _ ((openBytes_of_wrapper hwrap).mpr ⟨inner, hpeel, rfl⟩),
        readAll_bytesSource (hmax.trans (by decide)), resolve_inner_of_resolve hpeel h⟩)
  | false =>
    cases harch : (sniff none data).isArchive with
    | true =>
      obtain ⟨archive, brought, harchive, hmembers, rfl⟩ := members_of_resolve harch h
      obtain ⟨ms, subs, hms, hsubs, hfiles⟩ := exists_openedMembers hmembers
      exact .inr (.inr ⟨ms, subs,
        hopen _ ((openBytes_of_archive harch).mpr ⟨archive, ms, harchive, rfl, hms⟩), hsubs, hfiles⟩)
    | false =>
      have hunknown := Format.eq_unknown hwrap harch
      rw [resolve_of_unknown hunknown] at h
      exact .inl ⟨hopen _ (openBytes_of_probe_no (probe_eq_no_iff.mpr hunknown)),
        (Except.ok.inj h).symm⟩

theorem open'_of_resolve_oneFile :
    ∃ b inner, ArchiveOpener.open' tarReaders (scheduled oneFileTarGz) [2, 3] =
        .ok (.ok (.stream b)) ∧
      readAll b.imageSource () = .ok (.ok inner) ∧
      resolve tarReaders inner none .default = .ok [.file "a" [0x41]] := by
  have hread : readAll (scheduled oneFileTarGz) [2, 3] = .ok (.ok oneFileTarGz) := by
    decide +kernel
  have hopen : ArchiveOpener.open' tarReaders (scheduled oneFileTarGz) [2, 3] =
      .ok (.ok (.stream ⟨oneFileTar⟩)) := by decide +kernel
  have hresolve : resolve tarReaders oneFileTarGz none .default = .ok [.file "a" [0x41]] := by
    decide +kernel
  rcases open'_of_resolve hread hresolve with ⟨herror, -⟩ | hstream | ⟨ms, -, hmembers, -⟩
  · cases hopen.symm.trans herror
  · exact hstream
  · cases hopen.symm.trans hmembers

theorem isArchive_of_open {archive : Archive}
    (h : Archive.open' B data name = .ok (some archive)) : (sniff name data).isArchive = true := by
  rw [Archive.open'] at h
  cases hf : sniff name data <;> simp_all [Archive.openWithFormat, Format.isArchive]

/-- Two archives with the same table and the same readable contents, in containers of any
format and under any names, resolve to the same nodes. -/
theorem resolve_container_independent {data' : Bytes} {name' : Option String}
    {archive archive' : Archive} (hopen : Archive.open' B data name = .ok (some archive))
    (hopen' : Archive.open' B data' name' = .ok (some archive'))
    (htable : archive.entries.map (fun e => (e.name, e.isDir)) =
      archive'.entries.map fun e => (e.name, e.isDir))
    (hreads : ∀ (index : Nat) entry, archive.entries[index]? = some entry → entry.isDir = false →
      archive.read B index = archive'.read B index) (limits : Limits) (nodes : List Node) :
    resolve B data name limits = .ok nodes ↔ resolve B data' name' limits = .ok nodes := by
  have hparts : archive.entries.zipIdx.map (entryPart B archive) =
      archive'.entries.zipIdx.map (entryPart B archive') := by
    have hlength : archive.entries.length = archive'.entries.length := by
      simpa using congrArg List.length htable
    refine List.ext_getElem (by simp [hlength]) fun i hi hi' => ?_
    simp only [List.getElem_map, List.getElem_zipIdx, Nat.zero_add]
    have hlt : i < archive.entries.length := by simpa using hi
    have hentry : (archive.entries[i].name, archive.entries[i].isDir) =
        (archive'.entries[i].name, archive'.entries[i].isDir) := by
      have hget := congrArg (·[i]?) htable
      simpa [List.getElem?_eq_getElem hlt, List.getElem?_eq_getElem (hlength ▸ hlt)] using hget
    obtain ⟨hname, hdir⟩ := Prod.mk.inj hentry
    cases hfile : archive.entries[i].isDir with
    | true =>
      have hfile' := hdir.symm.trans hfile
      simp [entryPart, hfile, hfile', hname]
    | false =>
      have hfile' := hdir.symm.trans hfile
      have hread := hreads i _ (List.getElem?_eq_getElem hlt) hfile
      simp [entryPart, hfile, hfile', hname, hread]
  refine resolve_congr ?_ limits nodes
  rw [layers_of_archive (isArchive_of_open hopen), layers_of_archive (isArchive_of_open hopen'),
    hopen, hopen']
  exact congrArg Except.ok hparts

theorem resolve_container_independent_oneFile :
    resolve tarReaders oneFileTar none .default = .ok [.file "a" [0x41]] ↔
      resolve tarReaders oneFileTarGz (some "case.tgz") .default = .ok [.file "a" [0x41]] := by
  have htar : tarReaders.tarEntries (Feed.eof oneFileTar) =
      .ok [.ok ⟨"a", .ok 1, false, Feed.eof [0x41]⟩] := by simp only [tarReaders, if_true]
  have hgzip : tarReaders.gzDecoder oneFileTarGz = Feed.eof oneFileTar := by
    simp only [tarReaders, if_true]
  have hopen : Archive.open' tarReaders oneFileTar none =
      .ok (some ⟨.tar, [⟨"a", 1, false⟩], .tar oneFileTar .tar⟩) := by
    have hsniff : sniff none oneFileTar = .tar := by decide +kernel
    rw [Archive.open', hsniff, Archive.openWithFormat, openTar, tarStream, htar]
    · rfl
    · simp
    · simp
  have hopen' : Archive.open' tarReaders oneFileTarGz (some "case.tgz") =
      .ok (some ⟨.tarGz, [⟨"a", 1, false⟩], .tar oneFileTarGz .tarGz⟩) := by
    have hsniff : sniff (some "case.tgz") oneFileTarGz = .tarGz := by decide +kernel
    rw [Archive.open', hsniff, Archive.openWithFormat, openTar, tarStream, hgzip, htar]
    rfl
  refine resolve_container_independent hopen hopen' rfl ?_ .default _
  intro index entry hentry _
  cases index with
  | zero => decide +kernel
  | succ index => cases hentry

end ArchiveCore
