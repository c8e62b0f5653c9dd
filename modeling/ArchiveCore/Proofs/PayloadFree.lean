import ArchiveCore.Core.Images
import ArchiveCore.Proofs.Routes

/-!
# Classifying without a payload

Two sets of readers that show the same tables, and the same first bytes of each decoded
stream, are classified alike: the contents of a member and what a stream decodes to beyond
its head have no part in a plan.
-/

namespace ArchiveCore

open Framework

/-- What a tar listing shows of an entry. -/
def TarEntry.header (entry : TarEntry) : String × Except String UInt64 × Bool :=
  (entry.path, entry.size, entry.isDir)

/-- A zip member with nothing in it. -/
def ZipFile.header (f : ZipFile) : ZipFile := { f with contents := Feed.eof [] }

/-- The number of members and what each of them shows. -/
def ZipArchive.headers (z : ZipArchive) : Nat × (Nat → Except String ZipFile) :=
  (z.len, fun index => (z.byIndex index).map ZipFile.header)

/-- Readers that show the same of an input, contents apart. -/
structure SameTables (B B' : Backends) (data : Bytes) : Prop where
  head : ∀ codec, peekHead B codec data = peekHead B' codec data
  tar : ∀ outer, (B.tarEntries (tarStream B data outer)).map (List.map (Except.map TarEntry.header)) =
    (B'.tarEntries (tarStream B' data outer)).map (List.map (Except.map TarEntry.header))
  zip : (B.zipArchive data).map ZipArchive.headers = (B'.zipArchive data).map ZipArchive.headers
  sevenZip : (B.sevenZip data).map SevenZReader.files = (B'.sevenZip data).map SevenZReader.files

/-- What a plan is made of: the member table, and the way to each member. -/
def Archive.table (a : Archive) : List ArchiveEntry × (Nat → Except ArchiveError Access) :=
  (a.entries, a.memberAccess)

theorem exists_map_eq {ε α β : Type} {x x' : Except ε α} {f : α → β} (h : x.map f = x'.map f) :
    (∃ e, x = .error e ∧ x' = .error e) ∨ ∃ a a', x = .ok a ∧ x' = .ok a' ∧ f a = f a' := by
  cases x with
  | error e =>
    cases x' with
    | error e' => exact .inl ⟨e, rfl, congrArg Except.error (Except.error.inj h).symm⟩
    | ok a' => cases h
  | ok a =>
    cases x' with
    | error e' => cases h
    | ok a' => exact .inr ⟨a, a', rfl, rfl, Except.ok.inj h⟩

variable {B B' : Backends} {data : Bytes}

theorem tarListing_congr {item item' : Except String TarEntry}
    (h : item.map TarEntry.header = item'.map TarEntry.header) : tarListing item = tarListing item' := by
  rcases exists_map_eq h with ⟨e, rfl, rfl⟩ | ⟨entry, entry', rfl, rfl, hheader⟩
  · rfl
  · obtain ⟨hpath, hrest⟩ := Prod.mk.inj hheader
    obtain ⟨hsize, hdir⟩ := Prod.mk.inj hrest
    simp only [tarListing, Except.mapError, bind, Except.bind, hpath, hsize, hdir]

theorem mapM_tarListing_congr {items items' : List (Except String TarEntry)}
    (h : items.map (Except.map TarEntry.header) = items'.map (Except.map TarEntry.header)) :
    items.mapM tarListing = items'.mapM tarListing := by
  induction items generalizing items' with
  | nil =>
    obtain rfl := List.map_eq_nil_iff.mp h.symm
    rfl
  | cons item items ih =>
    cases items' with
    | nil => cases h
    | cons item' items' =>
      obtain ⟨hitem, hrest⟩ := List.cons.inj h
      rw [List.mapM_cons, List.mapM_cons, tarListing_congr hitem, ih hrest]

/-- What the plan reads of two openings is the same. -/
def SameOpening (r r' : Except ArchiveError (Option Archive)) : Prop :=
  r.map (Option.map Archive.table) = r'.map (Option.map Archive.table)

theorem sameOpening_tar (h : SameTables B B' data) (outer : Format) :
    SameOpening (do return some (← openTar B outer data)) (do return some (← openTar B' outer data)) := by
  rw [SameOpening, openTar, openTar]
  rcases exists_map_eq (h.tar outer) with ⟨e, hitems, hitems'⟩ | ⟨items, items', hitems, hitems', hheaders⟩
  · rw [hitems, hitems']
  · rw [hitems, hitems']
    simp only [Except.mapError, bind, Except.bind, mapM_tarListing_congr hheaders]

theorem zipListing_congr {z z' : ZipArchive} {index : Nat}
    (h : (z.byIndex index).map ZipFile.header = (z'.byIndex index).map ZipFile.header) :
    zipListing z index = zipListing z' index := by
  rcases exists_map_eq h with ⟨e, hf, hf'⟩ | ⟨f, f', hf, hf', hheader⟩
  · simp only [zipListing, hf, hf']
  · have hname := congrArg ZipFile.name hheader
    have hsize := congrArg ZipFile.size hheader
    have hdir := congrArg ZipFile.isDir hheader
    simp only [ZipFile.header] at hname hsize hdir
    simp only [zipListing, hf, hf', Except.mapError, bind, Except.bind, hname, hsize, hdir]

theorem memberAccess_zip_congr {z z' : ZipArchive} {entries : List ArchiveEntry} {index : Nat}
    (h : (z.byIndex index).map ZipFile.header = (z'.byIndex index).map ZipFile.header) :
    Archive.memberAccess ⟨.zip, entries, .zip z⟩ index =
      Archive.memberAccess ⟨.zip, entries, .zip z'⟩ index := by
  rcases exists_map_eq h with ⟨e, hf, hf'⟩ | ⟨f, f', hf, hf', hheader⟩
  · simp only [Archive.memberAccess, hf, hf']
  · have hcompression := congrArg ZipFile.compression hheader
    have hstart := congrArg ZipFile.dataStart hheader
    have hsize := congrArg ZipFile.compressedSize hheader
    simp only [ZipFile.header] at hcompression hstart hsize
    simp only [Archive.memberAccess, hf, hf', Except.mapError, bind, Except.bind, hcompression,
      hstart, hsize]

theorem sameOpening_zip (h : SameTables B B' data) :
    SameOpening (do return some (← openZip B data)) (do return some (← openZip B' data)) := by
  rw [SameOpening, openZip, openZip]
  rcases exists_map_eq h.zip with ⟨e, hz, hz'⟩ | ⟨z, z', hz, hz', hheaders⟩
  · rw [hz, hz']
  · obtain ⟨hlen, hindex⟩ := Prod.mk.inj hheaders
    have hlisting : zipListing z = zipListing z' :=
      funext fun index => zipListing_congr (congrFun hindex index)
    rw [hz, hz']
    simp only [Except.mapError, bind, Except.bind, hlen, hlisting]
    cases (List.range z'.len).mapM (zipListing z') with
    | error e => rfl
    | ok entries =>
      have haccess : Archive.memberAccess ⟨.zip, entries, .zip z⟩ =
          Archive.memberAccess ⟨.zip, entries, .zip z'⟩ :=
        funext fun index => memberAccess_zip_congr (congrFun hindex index)
      exact congrArg (fun access => Except.ok (some (entries, access))) haccess

theorem sameOpening_sevenZip (h : SameTables B B' data) :
    SameOpening (do return some (← open7z B data)) (do return some (← open7z B' data)) := by
  rw [SameOpening, open7z, open7z]
  rcases exists_map_eq h.sevenZip with ⟨e, hreader, hreader'⟩ | ⟨r, r', hreader, hreader', hfiles⟩
  · rw [hreader, hreader']
  · rw [hreader, hreader']
    have haccess : Archive.memberAccess ⟨.sevenZip, r.files.map sevenZListing, .sevenZip r⟩ =
        Archive.memberAccess ⟨.sevenZip, r'.files.map sevenZListing, .sevenZip r'⟩ := by
      rw [hfiles]
      rfl
    exact congrArg₂ (fun files access => Except.ok (some (files.map sevenZListing, access)))
      hfiles haccess

theorem sameOpening (h : SameTables B B' data) (format : Format) :
    SameOpening (Archive.openWithFormat B format data) (Archive.openWithFormat B' format data) := by
  cases format with
  | tar => exact sameOpening_tar h .tar
  | tarGz => exact sameOpening_tar h .tarGz
  | tarBz2 => exact sameOpening_tar h .tarBz2
  | zip => exact sameOpening_zip h
  | sevenZip => exact sameOpening_sevenZip h
  | gzip => rfl
  | bzip2 => rfl
  | unknown => rfl

theorem detectArchive_congr (h : SameTables B B' data) (format : Format) :
    detectArchive B format data = detectArchive B' format data := by
  rcases exists_map_eq (sameOpening h format) with ⟨e, hopen, hopen'⟩ | ⟨a, a', hopen, hopen', htable⟩
  · rw [detectArchive, detectArchive, hopen, hopen']
  · rw [detectArchive, detectArchive, hopen, hopen']
    cases a with
    | none =>
      cases a' with
      | none => rfl
      | some archive' => cases htable
    | some archive =>
      cases a' with
      | none => cases htable
      | some archive' =>
        obtain ⟨hentries, haccess⟩ := Prod.mk.inj (Option.some.inj htable)
        have hsegment : segmentOf archive = segmentOf archive' := by
          funext file
          rw [segmentOf, segmentOf, haccess]
        simp only [bind, Except.bind, hentries, haccess, hsegment]

/-- The plan of an input is settled by the tables and the first decoded bytes: no contents of
a member and nothing past the head of a stream have a part in it. -/
theorem detect_payload_free (h : SameTables B B' data) : detect B data = detect B' data := by
  have hwrapper : ∀ codec, detectWrapper B codec data = detectWrapper B' codec data := by
    intro codec
    unfold detectWrapper
    rw [h.head codec, detectArchive_congr h .tarGz, detectArchive_congr h .tarBz2]
  rw [detect, detect]
  cases sniff none data with
  | gzip => exact hwrapper .gzip
  | bzip2 => exact hwrapper .bzip2
  | unknown => rfl
  | tarGz => exact detectArchive_congr h .tarGz
  | tarBz2 => exact detectArchive_congr h .tarBz2
  | tar => exact detectArchive_congr h .tar
  | zip => exact detectArchive_congr h .zip
  | sevenZip => exact detectArchive_congr h .sevenZip

/-- The one member of a zip whose data was overwritten. -/
def damagedFile : ZipFile := { deflateZipFile with contents := ⟨[], some "corrupt deflate stream"⟩ }

theorem detect_payload_free_deflateZip :
    detect deflateReaders deflateZip = detect (zipReaders deflateZip [damagedFile]) deflateZip := by
  refine detect_payload_free ⟨fun _ => rfl, fun _ => rfl, ?_, rfl⟩
  have hheaders : (zipOf [deflateZipFile]).headers = (zipOf [damagedFile]).headers := by
    refine Prod.ext rfl (funext fun index => ?_)
    cases index <;> rfl
  simp [deflateReaders, zipReaders, Except.map, hheaders]

end ArchiveCore
