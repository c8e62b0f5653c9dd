import ArchiveCore.Core.Peel

/-!
# Listing and extracting archive members

The tar family is listed and extracted by streaming a fresh decompressor over the
compressed bytes; zip members are addressed by position; 7z members are listed by position
and extracted by name.
-/

namespace ArchiveCore

open Framework

/-- How one member is reached, the most seekable way first (`plan.rs`). -/
inductive Access
  | inPlace (offset len : Nat)
  | zran
  | spillToTemp
deriving DecidableEq

structure ArchiveEntry where
  name : String
  size : UInt64
  isDir : Bool
deriving DecidableEq

inductive Backend
  | tar (compressed : Bytes) (outer : Format)
  | zip (archive : ZipArchive)
  | sevenZip (reader : SevenZReader)

structure Archive where
  format : Format
  entries : List ArchiveEntry
  backend : Backend

/-- The bytes of the tar behind its outer compression. -/
def tarStream (B : Backends) (compressed : Bytes) (outer : Format) : ByteFeed :=
  match outer with
  | .tarGz => B.gzDecoder compressed
  | .tarBz2 => B.bzDecoder compressed
  | _ => Feed.eof compressed

/-- The listing of one tar entry; every item of the iterator and its size must be readable. -/
def tarListing (item : Except String TarEntry) : Except ArchiveError ArchiveEntry := do
  let entry ← item.mapError (.openError "tar")
  let size ← entry.size.mapError (.openError "tar")
  return { name := entry.path, size, isDir := entry.isDir }

def openTar (B : Backends) (outer : Format) (compressed : Bytes) : Except ArchiveError Archive := do
  let items ← (B.tarEntries (tarStream B compressed outer)).mapError (.openError "tar")
  let entries ← items.mapM tarListing
  return { format := outer, entries, backend := .tar compressed outer }

def zipListing (archive : ZipArchive) (index : Nat) : Except ArchiveError ArchiveEntry := do
  let f ← (archive.byIndex index).mapError (.openError "zip")
  return { name := f.name, size := f.size, isDir := f.isDir }

def openZip (B : Backends) (data : Bytes) : Except ArchiveError Archive := do
  let archive ← (B.zipArchive data).mapError (.openError "zip")
  let entries ← (List.range archive.len).mapM (zipListing archive)
  return { format := .zip, entries, backend := .zip archive }

def sevenZListing (f : SevenZFile) : ArchiveEntry :=
  { name := f.name, size := f.size, isDir := f.isDirectory }

def open7z (B : Backends) (data : Bytes) : Except ArchiveError Archive := do
  let reader ← (B.sevenZip data).mapError (.openError "7z")
  return { format := .sevenZip, entries := reader.files.map sevenZListing, backend := .sevenZip reader }

/-- The `index`-th entry of a fresh walk over the tar. -/
def nthTarEntry (B : Backends) (compressed : Bytes) (outer : Format) (index : Nat) :
    Except ArchiveError TarEntry := do
  let items ← (B.tarEntries (tarStream B compressed outer)).mapError (.read "tar")
  match items[index]? with
  | none => .error (.indexOutOfRange index index)
  | some item => item.mapError (.read "tar")

def extractTarMemberStreaming (B : Backends) (compressed : Bytes) (outer : Format)
    (index cap : Nat) : Except ArchiveError Bytes := do
  let entry ← nthTarEntry B compressed outer index
  readCapped (.read "tar") cap entry.contents

def streamTarMember (B : Backends) (compressed : Bytes) (outer : Format) (index : Nat)
    (out : ByteSink) (cap : Nat) : ByteSink × Except ArchiveError Nat :=
  match nthTarEntry B compressed outer index with
  | .error e => (out, .error e)
  | .ok entry => copyCapped (.read "tar") entry.contents out cap

def readZipMember (archive : ZipArchive) (index : Nat) : Except ArchiveError Bytes := do
  let zf ← (archive.byIndex index).mapError (.read "zip")
  readCapped (.read "zip") maxInflated zf.contents

def streamZipMember (archive : ZipArchive) (index : Nat) (out : ByteSink) (cap : Nat) :
    ByteSink × Except ArchiveError Nat :=
  match archive.byIndex index with
  | .error e => (out, .error (.read "zip" e))
  | .ok zf => copyCapped (.read "zip") zf.contents out cap

/-- Extract a 7z member by name, with the declared size checked before and the decoded
size after. -/
def read7zMember (reader : SevenZReader) (name : String) (declaredSize : UInt64) :
    Except ArchiveError Bytes :=
  if maxInflated < declaredSize.toNat then .error (.tooLarge maxInflated)
  else do
    let out ← (reader.readFile name).mapError (.read "7z")
    if maxInflated < out.length then .error (.tooLarge maxInflated) else .ok out

namespace Archive

def openWithFormat (B : Backends) (format : Format) (data : Bytes) :
    Except ArchiveError (Option Archive) :=
  match format with
  | .tar | .tarGz | .tarBz2 => do return some (← openTar B format data)
  | .zip => do return some (← openZip B data)
  | .sevenZip => do return some (← open7z B data)
  | _ => .ok none

/-- `Archive::open` -/
def open' (B : Backends) (data : Bytes) (name : Option String) :
    Except ArchiveError (Option Archive) :=
  openWithFormat B (sniff name data) data

def memberAccess (a : Archive) (index : Nat) : Except ArchiveError Access :=
  if a.entries.length ≤ index then .error (.indexOutOfRange index a.entries.length)
  else
    match a.backend with
    | .zip archive => do
      let f ← (archive.byIndex index).mapError (.read "zip")
      match f.compression with
      | .stored => return .inPlace f.dataStart.toNat f.compressedSize.toNat
      | .deflated | .deflate64 => return .zran
      | .other _ => return .spillToTemp
    | .tar _ _ | .sevenZip _ => .ok .spillToTemp

def read (B : Backends) (a : Archive) (index : Nat) : Except ArchiveError Bytes :=
  match a.entries[index]? with
  | none => .error (.indexOutOfRange index a.entries.length)
  | some entry =>
    match a.backend with
    | .tar compressed outer => extractTarMemberStreaming B compressed outer index maxInflated
    | .zip archive => readZipMember archive index
    | .sevenZip reader => read7zMember reader entry.name entry.size

/-- Stream a member into `out`, capped. A 7z member passes through memory first. -/
def streamMember (B : Backends) (a : Archive) (index : Nat) (out : ByteSink) (cap : Nat) :
    ByteSink × Except ArchiveError Nat :=
  match a.entries[index]? with
  | none => (out, .error (.indexOutOfRange index a.entries.length))
  | some entry =>
    match a.backend with
    | .tar compressed outer => streamTarMember B compressed outer index out cap
    | .zip archive => streamZipMember archive index out cap
    | .sevenZip reader =>
      match read7zMember reader entry.name entry.size with
      | .error e => (out, .error e)
      | .ok bytes =>
        if cap < bytes.length then (out, .error (.tooLarge cap))
        else
          match out.writeAll bytes with
          | (out, .error e) => (out, .error (.read "7z" e))
          | (out, .ok ()) => (out, .ok bytes.length)

end Archive

end ArchiveCore
