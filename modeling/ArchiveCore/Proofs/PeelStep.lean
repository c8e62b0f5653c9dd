import ArchiveCore.Proofs.FirstLayer
import ArchiveCore.Proofs.PeelAgreement

/-!
# Peeling is the first step of resolving

A single wrapped image is a bare stream or the only file of an archive. The layer around it
adds one level, its own bytes and the entries beside it, so peeling it and resolving the rest
gives the files of the whole.
-/

namespace ArchiveCore

open Framework

variable {B : Backends} {data : Bytes} {name : Option String} {limits : Limits}

/-- The tree of an archive's entries when all its files have the tree `below` and this cost. -/
def entryTree (cost : Nat) (below : Forest Node) : List (ArchiveEntry × Nat) → Forest Node
  | [] => .nil
  | member :: members =>
    if member.1.isDir then .note true (.dir member.1.name) (entryTree cost below members)
    else .child true cost below (entryTree cost below members)

section
variable {archive : Archive} {members : List (ArchiveEntry × Nat)} {cost : Nat}
  {below tree : Forest Node}

theorem unfoldsParts_dir_cons {member : ArchiveEntry × Nat} (hdir : member.1.isDir = true) :
    UnfoldsParts (layers B) ((member :: members).map (entryPart B archive)) tree ↔
      ∃ rest, UnfoldsParts (layers B) (members.map (entryPart B archive)) rest ∧
        tree = .note true (.dir member.1.name) rest := by
  have hpart : entryPart B archive member = ⟨true, .ok (.inl (.dir member.1.name))⟩ := by
    simp [entryPart, hdir]
  rw [List.map_cons, hpart]
  constructor
  · intro h
    cases h with
    | note hrest => exact ⟨_, hrest, rfl⟩
  · rintro ⟨rest, hrest, rfl⟩
    exact .note hrest

theorem unfoldsParts_file_cons {member : ArchiveEntry × Nat} {bytes : Bytes}
    (hfile : member.1.isDir = false) (hread : archive.read B member.2 = .ok bytes) :
    UnfoldsParts (layers B) ((member :: members).map (entryPart B archive)) tree ↔
      ∃ below rest, LayerTree B (bytes, some member.1.name) below ∧
        UnfoldsParts (layers B) (members.map (entryPart B archive)) rest ∧
        tree = .child true bytes.length below rest := by
  have hpart : entryPart B archive member =
      ⟨true, .ok (.inr (bytes.length, (bytes, some member.1.name)))⟩ := by
    simp [entryPart, hfile, hread]
  rw [List.map_cons, hpart]
  constructor
  · intro h
    cases h with
    | child hexpand hinner hrest => exact ⟨_, _, ⟨_, hexpand, hinner⟩, hrest, rfl⟩
  · rintro ⟨below, rest, ⟨inside, hexpand, hinner⟩, hrest, rfl⟩
    exact .child hexpand hinner hrest

theorem unfoldsParts_dirs (h : members.filter (fun e => !e.1.isDir) = []) :
    UnfoldsParts (layers B) (members.map (entryPart B archive)) tree ↔
      tree = entryTree cost below members := by
  induction members generalizing tree with
  | nil =>
    constructor
    · intro h
      cases h
      rfl
    · rintro rfl
      exact .nil
  | cons member members ih =>
    cases hdir : member.1.isDir with
    | false => simp [hdir] at h
    | true =>
      have hrest : members.filter (fun e => !e.1.isDir) = [] := by simpa [hdir] using h
      simp only [unfoldsParts_dir_cons hdir, ih hrest, exists_eq_left, entryTree, hdir, if_true]

theorem unfoldsParts_soleFile {entry : ArchiveEntry} {index : Nat} {bytes : Bytes}
    (h : members.filter (fun e => !e.1.isDir) = [(entry, index)])
    (hread : archive.read B index = .ok bytes) :
    UnfoldsParts (layers B) (members.map (entryPart B archive)) tree ↔
      ∃ below, LayerTree B (bytes, some entry.name) below ∧
        tree = entryTree bytes.length below members := by
  induction members generalizing tree with
  | nil => cases h
  | cons member members ih =>
    cases hdir : member.1.isDir with
    | true =>
      have hrest : members.filter (fun e => !e.1.isDir) = [(entry, index)] := by
        simpa [hdir] using h
      simp only [unfoldsParts_dir_cons hdir, ih hrest, entryTree, hdir, if_true]
      grind
    | false =>
      rw [List.filter_cons_of_pos (by simp [hdir])] at h
      obtain ⟨rfl, hrest⟩ := List.cons.inj h
      have hfile : entry.isDir = false := hdir
      simp only [unfoldsParts_file_cons hdir hread, entryTree, hfile, Bool.false_eq_true, if_false]
      constructor
      · rintro ⟨below, rest, hbelow, hunfold, rfl⟩
        exact ⟨below, hbelow, congrArg _ ((unfoldsParts_dirs hrest).mp hunfold)⟩
      · rintro ⟨below, hbelow, rfl⟩
        exact ⟨below, _, hbelow, (unfoldsParts_dirs hrest).mpr rfl, rfl⟩

theorem measures_of_dirs (cost : Nat) (below : Forest Node)
    (h : members.filter (fun e => !e.1.isDir) = []) :
    (entryTree cost below members).height = 0 ∧ (entryTree cost below members).totalCost = 0 ∧
      (entryTree cost below members).totalCount = members.length ∧
      files (entryTree cost below members).notes = [] := by
  induction members with
  | nil => exact ⟨rfl, rfl, rfl, rfl⟩
  | cons member members ih =>
    cases hdir : member.1.isDir with
    | false => simp [hdir] at h
    | true =>
      have hrest : members.filter (fun e => !e.1.isDir) = [] := by simpa [hdir] using h
      obtain ⟨hheight, hcost, hcount, hfiles⟩ := ih hrest
      simp only [entryTree, hdir, if_true, Forest.height, Forest.totalCost, Forest.totalCount,
        Forest.notes, List.length_cons, Bool.toNat_true]
      exact ⟨hheight, hcost, by omega, hfiles⟩

theorem measures_of_soleFile {e : ArchiveEntry × Nat} (cost : Nat) (below : Forest Node)
    (h : members.filter (fun e => !e.1.isDir) = [e]) :
    (entryTree cost below members).height = below.height + 1 ∧
      (entryTree cost below members).totalCost = cost + below.totalCost ∧
      (entryTree cost below members).totalCount = members.length + below.totalCount ∧
      files (entryTree cost below members).notes = files below.notes := by
  induction members with
  | nil => cases h
  | cons member members ih =>
    cases hdir : member.1.isDir with
    | true =>
      have hrest : members.filter (fun e => !e.1.isDir) = [e] := by simpa [hdir] using h
      obtain ⟨hheight, hcost, hcount, hfiles⟩ := ih hrest
      simp only [entryTree, hdir, if_true, Forest.height, Forest.totalCost, Forest.totalCount,
        Forest.notes, List.length_cons, Bool.toNat_true]
      exact ⟨hheight, hcost, by omega, hfiles⟩
    | false =>
      rw [List.filter_cons_of_pos (by simp [hdir])] at h
      obtain ⟨-, hrest⟩ := List.cons.inj h
      obtain ⟨hheight, hcost, hcount, hfiles⟩ := measures_of_dirs cost below hrest
      simp only [entryTree, hdir, Bool.false_eq_true, if_false, Forest.height, Forest.totalCost,
        Forest.totalCount, Forest.notes, List.length_cons, Bool.toNat_true, files_append]
      exact ⟨by omega, by omega, by omega, by rw [hfiles, List.append_nil]⟩

end

/-- A peeled image with the name it has below the input and the entries that lie around it. -/
inductive PeeledAs (B : Backends) (data : Bytes) (name : Option String) (inner : Bytes) :
    Option String → Nat → Prop
  | wrapper {format} : peelBytes B data name = .ok (.peeled format inner) →
      PeeledAs B data name inner (stripCompressionExt name) 0
  | archive {archive entry index} : (sniff name data).isArchive = true →
      Archive.open' B data name = .ok (some archive) →
      (archive.entries.zipIdx.filter fun e => !e.1.isDir) = [(entry, index)] →
      archive.read B index = .ok inner →
      PeeledAs B data name inner (some entry.name) archive.entries.length

theorem exists_peeledAs {inner : Bytes} (h : peelArchive B data name limits = .ok (.inner inner)) :
    ∃ innerName count, PeeledAs B data name inner innerName count := by
  cases hwrap : (sniff name data).isCompressionWrapper with
  | true =>
    rw [peelArchive, if_pos hwrap] at h
    by_cases hext : hasCompressionExt name = true
    · rw [if_pos hext, bind_eq_ok] at h
      obtain ⟨outcome, hpeel, h⟩ := h
      cases outcome with
      | notPacked => cases h
      | peeled format b =>
        obtain ⟨-, hinner⟩ := cap_eq_ok.mp h
        obtain rfl := Peel.inner.inj hinner
        exact ⟨_, _, .wrapper hpeel⟩
    · rw [if_neg hext] at h
      cases h
  | false =>
    cases harch : (sniff name data).isArchive with
    | true =>
      obtain ⟨opened, hopen, hcases⟩ := peelArchive_of_archive harch h
      rcases hcases with ⟨archive, only, b, rfl, honly, hread, -, hinner⟩ | ⟨-, hnot⟩
      · obtain rfl := Peel.inner.inj hinner
        rw [fileIndices] at honly
        obtain ⟨e, hfilter, rfl⟩ := List.map_eq_singleton_iff.mp honly
        exact ⟨_, _, .archive harch hopen hfilter hread⟩
      · cases hnot
    | false =>
      rw [peelArchive, hwrap, harch] at h
      cases h

theorem layerTree_peeledArchive {archive : Archive} {entry : ArchiveEntry} {index : Nat}
    {inner : Bytes} {tree : Forest Node} (harch : (sniff name data).isArchive = true)
    (hopen : Archive.open' B data name = .ok (some archive))
    (hfilter : (archive.entries.zipIdx.filter fun e => !e.1.isDir) = [(entry, index)])
    (hread : archive.read B index = .ok inner) :
    LayerTree B (data, name) tree ↔
      ∃ below, LayerTree B (inner, some entry.name) below ∧
        tree = entryTree inner.length below archive.entries.zipIdx := by
  have hlayers : layers B (data, name) = .ok (archive.entries.zipIdx.map (entryPart B archive)) := by
    rw [layers_of_archive harch, hopen]
    rfl
  rw [← unfoldsParts_soleFile hfilter hread]
  constructor
  · rintro ⟨parts, hparts, hunfold⟩
    obtain rfl := Except.ok.inj (hlayers.symm.trans hparts)
    exact hunfold
  · exact fun hunfold => ⟨_, hlayers, hunfold⟩

theorem resolve_peeledAs {inner : Bytes} {innerName : Option String} {count : Nat}
    (h : PeeledAs B data name inner innerName count) (limits raised : Limits)
    (hdepth : raised.maxDepth = limits.maxDepth + 1)
    (hinflated : raised.maxTotalInflated = limits.maxTotalInflated + inner.length)
    (hentries : raised.maxEntries = limits.maxEntries + count)
    (hinflatedRoom : raised.maxTotalInflated < wordMax) (hentriesRoom : raised.maxEntries < wordMax)
    (fs : List Node) :
    (∃ nodes, resolve B data name raised = .ok nodes ∧ files nodes = fs) ↔
      ∃ nodes, resolve B inner innerName limits = .ok nodes ∧ files nodes = fs := by
  cases h with
  | wrapper hpeel =>
    simp only [resolve_peeled limits raised hpeel hdepth hinflated hentries hinflatedRoom]
  | @archive archive entry index harch hopen hfilter hread =>
    have hwithin : ∀ below : Forest Node,
        WithinLimits raised (entryTree inner.length below archive.entries.zipIdx) ↔
          WithinLimits limits below := by
      intro below
      obtain ⟨hheight, hcost, hcount, -⟩ := measures_of_soleFile inner.length below hfilter
      rw [List.length_zipIdx] at hcount
      constructor
      · rintro ⟨hd, hn, hc⟩
        exact ⟨by omega, by omega, by omega⟩
      · rintro ⟨hd, hn, hc⟩
        exact ⟨by omega, by omega, by omega⟩
    simp only [resolve_eq_ok, layerTree_peeledArchive harch hopen hfilter hread]
    constructor
    · rintro ⟨_, ⟨_, ⟨below, hbelow, rfl⟩, hlimits, rfl⟩, rfl⟩
      exact ⟨_, ⟨below, hbelow, (hwithin below).mp hlimits, rfl⟩,
        (measures_of_soleFile _ _ hfilter).2.2.2.symm⟩
    · rintro ⟨_, ⟨below, hbelow, hlimits, rfl⟩, rfl⟩
      exact ⟨_, ⟨_, ⟨below, hbelow, rfl⟩, (hwithin below).mpr hlimits, rfl⟩,
        (measures_of_soleFile _ _ hfilter).2.2.2⟩

/-- The peel of an image is the first step of its resolution: the peeled image has a name of
its own, and under limits raised by the layer around it the whole resolves to the same files. -/
theorem resolve_of_peelArchive {inner : Bytes}
    (h : peelArchive B data name limits = .ok (.inner inner)) :
    ∃ innerName count, PeeledAs B data name inner innerName count ∧
      ∀ below raised : Limits, raised.maxDepth = below.maxDepth + 1 →
        raised.maxTotalInflated = below.maxTotalInflated + inner.length →
        raised.maxEntries = below.maxEntries + count →
        raised.maxTotalInflated < wordMax → raised.maxEntries < wordMax → ∀ fs,
          (∃ nodes, resolve B data name raised = .ok nodes ∧ files nodes = fs) ↔
            ∃ nodes, resolve B inner innerName below = .ok nodes ∧ files nodes = fs := by
  obtain ⟨innerName, count, hpeeled⟩ := exists_peeledAs h
  exact ⟨innerName, count, hpeeled, fun below raised hdepth hinflated hentries hroom hroom' fs =>
    resolve_peeledAs hpeeled below raised hdepth hinflated hentries hroom hroom' fs⟩

theorem resolve_of_peelArchive_oneFile :
    ∃ innerName count, PeeledAs tarReaders oneFileTar none [0x41] innerName count ∧
      ∀ below raised : Limits, raised.maxDepth = below.maxDepth + 1 →
        raised.maxTotalInflated = below.maxTotalInflated + 1 →
        raised.maxEntries = below.maxEntries + count →
        raised.maxTotalInflated < wordMax → raised.maxEntries < wordMax → ∀ fs,
          (∃ nodes, resolve tarReaders oneFileTar none raised = .ok nodes ∧ files nodes = fs) ↔
            ∃ nodes, resolve tarReaders [0x41] innerName below = .ok nodes ∧ files nodes = fs := by
  have hpeel : peelArchive tarReaders oneFileTar none .default = .ok (.inner [0x41]) := by
    decide +kernel
  exact resolve_of_peelArchive hpeel

end ArchiveCore
