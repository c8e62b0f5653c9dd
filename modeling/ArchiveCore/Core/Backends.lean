import ArchiveCore.Framework.Feed

/-!
# The readers the crate is built on

The decoders, the member readers, the temp volume and the excerpt type of the file system's
errors are not part of the repository. They appear here as functions of the bytes they are
handed, and every definition that calls them takes them as the parameter `B : Backends`.
-/

namespace ArchiveCore

open Framework

abbrev Bytes := List UInt8

/-- What an `io::Read` over bytes shows. Its errors are only ever turned into text. -/
abbrev ByteFeed := Feed UInt8 String

abbrev ByteSink := Sink UInt8 String

/-- An entry of a tar listing: the recorded path as text, the header's size and type, and
the reader over the entry's data. -/
structure TarEntry where
  path : String
  size : Except String UInt64
  isDir : Bool
  contents : ByteFeed

inductive CompressionMethod
  | stored
  | deflated
  | deflate64
  | other (code : Nat)
deriving DecidableEq

/-- A zip member as `by_index` presents it. `contents` is the reader that decodes it and
checks it against its checksum at end of file. -/
structure ZipFile where
  name : String
  size : UInt64
  isDir : Bool
  compression : CompressionMethod
  dataStart : UInt64
  compressedSize : UInt64
  contents : ByteFeed

structure ZipArchive where
  len : Nat
  byIndex : Nat → Except String ZipFile

/-- The file-based seekable reader of one zip member: `readAt pos want` is a positioned
read into a buffer of `want` bytes, and no more than that comes. -/
structure StoredZipEntry where
  len : UInt64
  readAt : Nat → Nat → Except String Bytes
  readAt_le : ∀ pos want chunk, readAt pos want = .ok chunk → chunk.length ≤ want

structure SevenZFile where
  name : String
  size : UInt64
  isDirectory : Bool

/-- The 7z reader lists by position and extracts by name. -/
structure SevenZReader where
  files : List SevenZFile
  readFile : String → Except String Bytes

/-- The volume temp files are made on: each step may fail, and `room` bounds a file. -/
structure TempVolume where
  create : Except String Unit
  room : Option Nat
  fault : String
  flush : Except String Unit
  rewind : Except String Unit

/-- `smallHex` is what `SmallHex::new` keeps of the bytes an error is about. -/
structure Backends where
  gzDecoder : Bytes → ByteFeed
  bzDecoder : Bytes → ByteFeed
  tarEntries : ByteFeed → Except String (List (Except String TarEntry))
  zipArchive : Bytes → Except String ZipArchive
  openEntry : Bytes → String → Except String StoredZipEntry
  sevenZip : Bytes → Except String SevenZReader
  temp : TempVolume
  smallHex : Bytes → Bytes

/-- A fresh temp file as something to write to. -/
def TempVolume.file (temp : TempVolume) : ByteSink := ⟨[], temp.room, temp.fault⟩

/-- The volume takes whatever is written to it. -/
structure TempVolume.Healthy (temp : TempVolume) : Prop where
  create : temp.create = .ok ()
  room : temp.room = none
  flush : temp.flush = .ok ()
  rewind : temp.rewind = .ok ()

/-- Readers that recognize nothing, over a volume that takes everything. -/
def Backends.inert : Backends where
  gzDecoder := fun _ => ⟨[], some "invalid gzip header"⟩
  bzDecoder := fun _ => ⟨[], some "bzip2: bz2 header missing"⟩
  tarEntries := fun _ => .error "failed to read entire block"
  zipArchive := fun _ => .error "invalid Zip archive"
  openEntry := fun _ _ => .error "invalid Zip archive"
  sevenZip := fun _ => .error "BadSignature"
  temp := ⟨.ok (), none, "No space left on device", .ok (), .ok ()⟩
  smallHex := fun data => data.take 16

end ArchiveCore
