import ArchiveCore.Core.Archive
import ArchiveCore.Framework.Positioned

/-!
# The archive layer as a VFS opener

The opener reads its source whole by positioned reads and hands the bytes, without a name,
to the peel and to the archive readers. A decoded stream and each extracted member are again
sources, over bytes they own.
-/

namespace ArchiveCore

open Framework

inductive Confidence
  | no
  | yes (how : String)
deriving DecidableEq

/-- A decode error holds an excerpt of the bytes it is about; a source has errors of its own. -/
inductive VfsError
  | decode (layer : String) (offset : Nat) (detail : String) (bytes : Bytes)
  | source (detail : String)
deriving DecidableEq

/-- A length that is declared, and reads at any offset. -/
structure ImageSource (σ : Type) extends Positioned σ UInt8 VfsError where
  len : UInt64

structure BytesSource where
  bytes : Bytes
deriving DecidableEq

namespace BytesSource

def len (b : BytesSource) : UInt64 := UInt64.ofNat b.bytes.length

def readAt (b : BytesSource) (offset want : Nat) : Bytes :=
  if b.bytes.length ≤ offset then []
  else
    let src := b.bytes.drop offset
    src.take (min src.length want)

def imageSource (b : BytesSource) : ImageSource Unit where
  readAt := fun _ offset want => (.ok (b.readAt offset want), ())
  len := b.len

end BytesSource

structure Member where
  name : Bytes
  source : BytesSource
deriving DecidableEq

inductive ArchiveContents
  | stream (source : BytesSource)
  | members (members : List Member)
deriving DecidableEq

def decodeErr (B : Backends) (data : Bytes) (err : ArchiveError) : VfsError :=
  .decode "archive" 0 err.message (B.smallHex data)

def notArchive (B : Backends) (data : Bytes) : VfsError :=
  .decode "archive" 0 "not a recognized archive layer" (B.smallHex data)

/-- How a call ends that does not return. -/
inductive Panic
  | capacityOverflow
deriving DecidableEq

/-- `isize::MAX`, the largest buffer a `Vec` can have. -/
def isizeMax : Nat := 2 ^ 63 - 1

variable {σ : Type}

/-- The loop of `read_all`: the buffer and the offset it ends with. -/
def fillFrom (src : ImageSource σ) (s : σ) (buf : Bytes) (off : Nat) :
    Except VfsError (Bytes × Nat) :=
  if off < src.len.toNat then
    -- the tail of the buffer, `get_mut(off..)`
    if buf.length < off then .ok (buf, off)
    else
      match src.readAt s off (buf.length - off) with
      | (.error e, _) => .error e
      | (.ok chunk, s) =>
        if chunk.length = 0 then .ok (buf, off)
        else fillFrom src s (overlay buf off chunk) (satAdd off chunk.length)
  else .ok (buf, off)
termination_by src.len.toNat - off
decreasing_by
  have hword := toNat_le_wordMax src.len
  simp only [satAdd]
  omega

/-- What `read_all` reads into a buffer of the declared length. -/
def readWhole (src : ImageSource σ) (s : σ) : Except VfsError Bytes := do
  let (buf, off) ← fillFrom src s (List.replicate src.len.toNat 0) 0
  return buf.take off

/-- The buffer is asked for before the first read, at whatever length is declared. -/
def readAll (src : ImageSource σ) (s : σ) : Except Panic (Except VfsError Bytes) :=
  if isizeMax < src.len.toNat then .error .capacityOverflow
  else .ok (readWhole src s)

/-- One member's bytes under its recorded name. -/
def readMember (B : Backends) (data : Bytes) (archive : Archive) (e : ArchiveEntry × Nat) :
    Except VfsError Member := do
  let bytes ← (archive.read B e.2).mapError (decodeErr B data)
  return { name := e.1.name.toUTF8.data.toList, source := ⟨bytes⟩ }

/-- What `open` makes of the bytes it has read. -/
def openBytes (B : Backends) (data : Bytes) : Except VfsError ArchiveContents :=
  if (sniff none data).isCompressionWrapper then do
    match ← (peelBytes B data none).mapError (decodeErr B data) with
    | .peeled _ inner => return .stream ⟨inner⟩
    | .notPacked => .error (notArchive B data)
  else if (sniff none data).isArchive then do
    match ← (Archive.open' B data none).mapError (decodeErr B data) with
    | none => .error (notArchive B data)
    | some archive =>
      -- a directory has no byte source
      let files := archive.entries.zipIdx.filter fun e => !e.1.isDir
      return .members (← files.mapM (readMember B data archive))
  else .error (notArchive B data)

namespace ArchiveOpener

/-- Whether the bytes of a window look like an archive layer. -/
def probe (window : Bytes) : Confidence :=
  match sniff none window with
  | .unknown => .no
  | .gzip => .yes "archive: gzip magic (1f 8b)"
  | .bzip2 => .yes "archive: bzip2 magic (BZh)"
  | .zip => .yes "archive: zip magic (PK\\x03\\x04)"
  | .sevenZip => .yes "archive: 7z magic (37 7a bc af 27 1c)"
  | .tar => .yes "archive: ustar magic (offset 257)"
  | .tarGz | .tarBz2 => .yes "archive: compressed-tar magic"

/-- `ArchiveOpener::open` -/
def open' (B : Backends) (src : ImageSource σ) (s : σ) :
    Except Panic (Except VfsError ArchiveContents) := do
  let data ← readAll src s
  return data >>= openBytes B

end ArchiveOpener

end ArchiveCore
