import ArchiveCore.Core.Images
import ArchiveCore.Proofs.ResolveTree
import ArchiveCore.Proofs.Routes

/-!
# What each entry of an archive brings to a resolution

At every level a file entry is read, charged and resolved in its place. An entry flagged as
a directory brings its name alone, and a payload behind it is neither read nor charged: the
final counter is the sum over the files, whatever the directories hold.
-/

namespace ArchiveCore

open Framework

mutual

/-- The nodes an item resolves to and the inflated bytes it is charged with, level by level. -/
inductive ItemYield (B : Backends) : Item → List Node → Nat → Prop
  | leaf {data name} (h : sniff name data = .unknown) :
      ItemYield B (data, name) [leaf name data] 0
  | wrapper {data name format inner nodes charge}
      (hpeel : peelBytes B data name = .ok (.peeled format inner))
      (hinner : ItemYield B (inner, stripCompressionExt name) nodes charge) :
      ItemYield B (data, name) nodes (inner.length + charge)
  | archive {data name archive nodes charge}
      (hopen : Archive.open' B data name = .ok (some archive))
      (hentries : EntriesYield B archive archive.entries.zipIdx nodes charge) :
      ItemYield B (data, name) nodes charge

/-- What the entries of an archive bring one after another: a directory its name, at no
charge, a file its bytes and whatever lies below them. -/
inductive EntriesYield (B : Backends) : Archive → List (ArchiveEntry × Nat) → List Node → Nat → Prop
  | nil {archive} : EntriesYield B archive [] [] 0
  | dir {archive entry index members nodes charge} (hdir : entry.isDir = true)
      (hrest : EntriesYield B archive members nodes charge) :
      EntriesYield B archive ((entry, index) :: members) (.dir entry.name :: nodes) charge
  | file {archive entry index members bytes inner below nodes charge} (hfile : entry.isDir = false)
      (hread : archive.read B index = .ok bytes)
      (hinner : ItemYield B (bytes, some entry.name) inner below)
      (hrest : EntriesYield B archive members nodes charge) :
      EntriesYield B archive ((entry, index) :: members) (inner ++ nodes)
        (bytes.length + (below + charge))

end

theorem yields_of_unfolds {B : Backends} {parts : List (Part Item Node ArchiveError)}
    {tree : Forest Node} (h : UnfoldsParts (layers B) parts tree) :
    (∀ item, layers B item = .ok parts → ItemYield B item tree.notes tree.totalCost) ∧
      ∀ archive members, parts = members.map (entryPart B archive) →
        EntriesYield B archive members tree.notes tree.totalCost := by
  induction h with
  | nil =>
    have hentries : ∀ archive members, [] = members.map (entryPart B archive) →
        EntriesYield B archive members [] 0 := by
      intro archive members hmembers
      obtain rfl := List.map_eq_nil_iff.mp hmembers.symm
      exact .nil
    refine ⟨fun item hitem => ?_, hentries⟩
    rcases layers_cases hitem with ⟨_, _, -, hparts⟩ | ⟨-, hparts⟩ | ⟨archive, hopen, hparts⟩
    · cases hparts
    · cases hparts
    · exact .archive hopen (hentries archive _ hparts)
  | @note counted node parts rest hrest ih =>
    have hentries : ∀ archive members,
        ⟨counted, .ok (.inl node)⟩ :: parts = members.map (entryPart B archive) →
          EntriesYield B archive members (node :: rest.notes) rest.totalCost := by
      intro archive members hmembers
      obtain ⟨⟨entry, index⟩, members, rfl, hfirst, hothers⟩ := List.map_eq_cons_iff.mp hmembers.symm
      obtain ⟨hdir, rfl⟩ := entryPart_eq_note.mp (congrArg Part.content hfirst)
      exact .dir hdir (ih.2 archive members hothers.symm)
    refine ⟨fun item hitem => ?_, hentries⟩
    rcases layers_cases hitem with ⟨_, _, -, hparts⟩ | ⟨hunknown, hparts⟩ | ⟨archive, hopen, hparts⟩
    · cases hparts
    · cases hparts
      cases hrest
      exact .leaf hunknown
    · exact .archive hopen (hentries archive _ hparts)
  | @child counted cost item inside inner parts rest hitem _ hrest ihinner ihrest =>
    have hbelow := ihinner.1 item hitem
    have hentries : ∀ archive members,
        ⟨counted, .ok (.inr (cost, item))⟩ :: parts = members.map (entryPart B archive) →
          EntriesYield B archive members (inner.notes ++ rest.notes)
            (cost + (inner.totalCost + rest.totalCost)) := by
      intro archive members hmembers
      obtain ⟨⟨entry, index⟩, members, rfl, hfirst, hothers⟩ := List.map_eq_cons_iff.mp hmembers.symm
      obtain ⟨hfile, bytes, hread, rfl, rfl⟩ :=
        entryPart_eq_child.mp (congrArg Part.content hfirst)
      exact .file hfile hread hbelow (ihrest.2 archive members hothers.symm)
    refine ⟨fun root hroot => ?_, hentries⟩
    rcases layers_cases hroot with ⟨_, _, hpeel, hparts⟩ | ⟨-, hparts⟩ | ⟨archive, hopen, hparts⟩
    · cases hparts
      cases hrest
      have hwrapped := ItemYield.wrapper hpeel hbelow
      simpa [Forest.notes, Forest.totalCost] using hwrapped
    · cases hparts
    · exact .archive hopen (hentries archive _ hparts)

theorem itemYield_of_layerTree {B : Backends} {item : Item} {tree : Forest Node}
    (h : LayerTree B item tree) : ItemYield B item tree.notes tree.totalCost := by
  obtain ⟨parts, hparts, hunfold⟩ := h
  exact (yields_of_unfolds hunfold).1 item hparts

theorem ItemYield.entries {B : Backends} {item : Item} {nodes : List Node} {charge : Nat}
    (h : ItemYield B item nodes charge) (harch : (sniff item.2 item.1).isArchive = true) :
    ∃ archive, Archive.open' B item.1 item.2 = .ok (some archive) ∧
      EntriesYield B archive archive.entries.zipIdx nodes charge := by
  cases h with
  | leaf hunknown => simp [hunknown, Format.isArchive] at harch
  | wrapper hpeel =>
    obtain ⟨rfl, hwrap, -⟩ := peelBytes_eq_peeled.mp hpeel
    rw [Format.isArchive_eq_false_of_wrapper hwrap] at harch
    cases harch
  | archive hopen hentries => exact ⟨_, hopen, hentries⟩

/-- Readers that differ at most in what lies behind the entries flagged as directories. -/
structure SameFiles (B B' : Backends) : Prop where
  peels : ∀ data name, peelBytes B' data name = peelBytes B data name
  tables : ∀ data name, (Archive.open' B' data name).map (Option.map Archive.entries) =
    (Archive.open' B data name).map (Option.map Archive.entries)
  reads : ∀ data name archive archive', Archive.open' B data name = .ok (some archive) →
    Archive.open' B' data name = .ok (some archive') →
    ∀ (index : Nat) entry, archive.entries[index]? = some entry → entry.isDir = false →
      archive'.read B' index = archive.read B index

theorem SameFiles.layers {B B' : Backends} (h : SameFiles B B') : layers B' = layers B := by
  funext item
  obtain ⟨data, name⟩ := item
  cases hwrap : (sniff name data).isCompressionWrapper with
  | true => rw [layers_of_wrapper hwrap, layers_of_wrapper hwrap, h.peels]
  | false =>
    cases harch : (sniff name data).isArchive with
    | false =>
      have hunknown := Format.eq_unknown hwrap harch
      rw [layers_of_unknown hunknown, layers_of_unknown hunknown]
    | true =>
      rw [layers_of_archive harch, layers_of_archive harch]
      have htable := h.tables data name
      cases hopen : Archive.open' B data name with
      | error e =>
        cases hopen' : Archive.open' B' data name with
        | error e' =>
          obtain rfl : e' = e := by simpa [hopen, hopen', Except.map] using htable
          rfl
        | ok opened' => simp [hopen, hopen', Except.map] at htable
      | ok opened =>
        cases hopen' : Archive.open' B' data name with
        | error e' => simp [hopen, hopen', Except.map] at htable
        | ok opened' =>
          simp only [hopen, hopen', Except.map, Except.ok.injEq] at htable
          cases opened with
          | none =>
            obtain rfl := Option.map_eq_none_iff.mp htable
            rfl
          | some archive =>
            obtain ⟨archive', rfl, hentries⟩ := Option.map_eq_some_iff.mp htable
            refine congrArg Except.ok ?_
            rw [hentries]
            refine List.map_congr_left fun member hmember => ?_
            have hget := List.mem_zipIdx_iff_getElem?.mp hmember
            cases hdir : member.1.isDir with
            | true => simp [entryPart, hdir]
            | false =>
              have hread := h.reads data name archive archive' hopen hopen' member.2 member.1 hget hdir
              simp [entryPart, hdir, hread]

/-- In a resolution that succeeds, the final counter is what the input and all the levels
below it are charged with, no more and no less, and what the entries of every archive bring
stands in the output in their order. Nothing behind a directory is looked at. -/
theorem entries_accounted {B : Backends} {data : Bytes} {name : Option String} {limits : Limits}
    {nodes : List Node} (h : resolve B data name limits = .ok nodes) :
    ∃ budget charge,
      resolveInto B limits data name 0 (name.getD "<input>") ⟨0, 0⟩ [] = .ok (budget, nodes) ∧
      ItemYield B (data, name) nodes charge ∧
      budget.totalInflated = min charge wordMax ∧
      budget.totalInflated ≤ limits.maxTotalInflated ∧
      (∀ item, Below (layers B) (data, name) item → (sniff item.2 item.1).isArchive = true →
        ∃ archive inner share, Archive.open' B item.1 item.2 = .ok (some archive) ∧
          EntriesYield B archive archive.entries.zipIdx inner share ∧
          inner <:+: nodes ∧ share ≤ charge) ∧
      ∀ B', SameFiles B B' →
        resolveInto B' limits data name 0 (name.getD "<input>") ⟨0, 0⟩ [] = .ok (budget, nodes) := by
  obtain ⟨tree, htree, hlimits, rfl⟩ := resolve_eq_ok.mp h
  have hrun : resolveInto B limits data name 0 (name.getD "<input>") ⟨0, 0⟩ [] =
      .ok (⟨min tree.totalCost wordMax, min tree.totalCount wordMax⟩, tree.notes) := by
    apply resolveInto_eq_ok.mpr
    refine ⟨tree, htree, hlimits, ?_, rfl⟩
    simp [Budget.usage, Usage.after, Usage.plus, satAdd]
  refine ⟨_, tree.totalCost, hrun, itemYield_of_layerTree htree, rfl, hlimits.inflated, ?_, ?_⟩
  · intro item hbelow harch
    obtain ⟨below, hlayers, hnotes, hcost⟩ := htree.below hbelow
    obtain ⟨archive, hopen, hentries⟩ := (itemYield_of_layerTree hlayers).entries harch
    exact ⟨archive, _, _, hopen, hentries, hnotes, hcost⟩
  · intro B' hsame
    rw [← walked_eq_ok, resolveInto_eq_walk, hsame.layers, ← resolveInto_eq_walk, walked_eq_ok]
    exact hrun

/-- One stored member of one byte, its name that of a directory. -/
def directoryZip : Bytes := [
  0x50, 0x4B, 0x03, 0x04, 0x14, 0x00, 0x00, 0x00, 0x00, 0x00, 0x00, 0x00, 0x21, 0x00, 0x8B, 0x9E,
  0xD9, 0xD3, 0x01, 0x00, 0x00, 0x00, 0x01, 0x00, 0x00, 0x00, 0x02, 0x00, 0x00, 0x00, 0x61, 0x2F,
  0x41, 0x50, 0x4B, 0x01, 0x02, 0x14, 0x03, 0x14, 0x00, 0x00, 0x00, 0x00, 0x00, 0x00, 0x00, 0x21,
  0x00, 0x8B, 0x9E, 0xD9, 0xD3, 0x01, 0x00, 0x00, 0x00, 0x01, 0x00, 0x00, 0x00, 0x02, 0x00, 0x00,
  0x00, 0x00, 0x00, 0x00, 0x00, 0x00, 0x00, 0x00, 0x00, 0x80, 0x01, 0x00, 0x00, 0x00, 0x00, 0x61,
  0x2F, 0x50, 0x4B, 0x05, 0x06, 0x00, 0x00, 0x00, 0x00, 0x01, 0x00, 0x01, 0x00, 0x30, 0x00, 0x00,
  0x00, 0x21, 0x00, 0x00, 0x00, 0x00, 0x00]

def directoryReaders : Backends :=
  zipReaders directoryZip [{ storedFile "a/" 32 [0x41] with isDir := true }]

/-- The same table, the byte behind the directory name out of reach. -/
def brokenDirectoryReaders : Backends :=
  zipReaders directoryZip
    [{ storedFile "a/" 32 [0x41] with isDir := true, contents := ⟨[], some "Invalid checksum"⟩ }]

theorem directoryReaders_sameFiles : SameFiles directoryReaders brokenDirectoryReaders where
  peels := fun _ _ => rfl
  tables := by
    intro data name
    rw [Archive.open', Archive.open']
    cases sniff name data with
    | zip =>
      by_cases h : data = directoryZip
      · subst h
        rw [directoryReaders, brokenDirectoryReaders, Archive.openWithFormat_zipReaders,
          Archive.openWithFormat_zipReaders]
        rfl
      · simp [Archive.openWithFormat, openZip, directoryReaders, brokenDirectoryReaders, zipReaders, h]
    | _ => rfl
  reads := by
    intro data name archive archive' hopen _ index entry hget hfile
    have hentries : archive.entries = [⟨"a/", 1, true⟩] := Archive.entries_of_zipReaders hopen
    rw [hentries] at hget
    cases index with
    | zero =>
      obtain rfl := Option.some.inj hget
      cases hfile
    | succ index => cases hget

/-- The tar one layer below a nameless gzip stream, and a zip whose one entry is a directory
with a byte behind it, readable or not. -/
theorem entries_accounted_oneFileTar :
    (∃ budget charge,
      resolveInto tarReaders .default oneFileTarGz none 0 "<input>" ⟨0, 0⟩ [] =
        .ok (budget, [.file "a" [0x41]]) ∧
      ItemYield tarReaders (oneFileTarGz, none) [.file "a" [0x41]] charge ∧
      budget.totalInflated = min charge wordMax ∧
      ∃ archive inner share, Archive.open' tarReaders oneFileTar none = .ok (some archive) ∧
        EntriesYield tarReaders archive archive.entries.zipIdx inner share ∧
        inner <:+: [.file "a" [0x41]] ∧ share ≤ charge) ∧
    ∃ budget charge,
      resolveInto directoryReaders .default directoryZip none 0 "<input>" ⟨0, 0⟩ [] =
        .ok (budget, [.dir "a/"]) ∧
      ItemYield directoryReaders (directoryZip, none) [.dir "a/"] charge ∧
      budget.totalInflated = min charge wordMax ∧
      resolveInto brokenDirectoryReaders .default directoryZip none 0 "<input>" ⟨0, 0⟩ [] =
        .ok (budget, [.dir "a/"]) := by
  have hresolve : resolve tarReaders oneFileTarGz none .default = .ok [.file "a" [0x41]] := by
    decide +kernel
  have hdirectory : resolve directoryReaders directoryZip none .default = .ok [.dir "a/"] := by
    decide +kernel
  have hlayers : layers tarReaders (oneFileTarGz, none) = .ok [peeledPart none oneFileTar] := by
    have hwrap : (sniff none oneFileTarGz).isCompressionWrapper = true := by decide +kernel
    have hpeel : peelBytes tarReaders oneFileTarGz none = .ok (.peeled .gzip oneFileTar) := by
      decide +kernel
    rw [layers_of_wrapper hwrap, hpeel]
    rfl
  have hbelow : Below (layers tarReaders) (oneFileTarGz, none) (oneFileTar, none) :=
    .child .root hlayers (List.mem_singleton.mpr rfl)
  constructor
  · obtain ⟨budget, charge, hrun, hyield, hcharged, -, hitems, -⟩ := entries_accounted hresolve
    exact ⟨budget, charge, hrun, hyield, hcharged, hitems (oneFileTar, none) hbelow (by decide +kernel)⟩
  · obtain ⟨budget, charge, hrun, hyield, hcharged, -, -, hsame⟩ := entries_accounted hdirectory
    exact ⟨budget, charge, hrun, hyield, hcharged, hsame _ directoryReaders_sameFiles⟩

/-- The byte stored under a directory name can be read, yet resolving passes it by. -/
theorem directoryZip_payload_dropped :
    ∃ archive, Archive.open' directoryReaders directoryZip none = .ok (some archive) ∧
      archive.entries = [⟨"a/", 1, true⟩] ∧
      archive.read directoryReaders 0 = .ok [0x41] ∧
      resolve directoryReaders directoryZip none .default = .ok [.dir "a/"] ∧
      resolveInto directoryReaders .default directoryZip none 0 "<input>" ⟨0, 0⟩ [] =
        .ok (⟨0, 1⟩, [.dir "a/"]) := by
  refine ⟨⟨.zip, [⟨"a/", 1, true⟩], .zip (zipOf [{ storedFile "a/" 32 [0x41] with isDir := true }])⟩,
    ?_, rfl, ?_, ?_, ?_⟩
  · have hsniff : sniff none directoryZip = .zip := by decide +kernel
    rw [Archive.open', hsniff]
    rfl
  · decide +kernel
  · decide +kernel
  · decide +kernel

end ArchiveCore
