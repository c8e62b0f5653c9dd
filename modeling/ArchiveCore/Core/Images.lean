import ArchiveCore.Core.Backends

/-!
# Readers that know one image

Readers that list and decode one image and refuse every other, and the images that runs in
several modules share.
-/

namespace ArchiveCore

open Framework

/-- An entry that says it is `len` long and reads `b`, as far as the buffer goes. -/
def StoredZipEntry.sized (len : UInt64) (b : Bytes) : StoredZipEntry where
  len
  readAt := fun pos want => .ok ((b.drop pos).take want)
  readAt_le := fun _ want _ h => Except.ok.inj h ▸ List.length_take_le want _

def StoredZipEntry.over (b : Bytes) : StoredZipEntry := .sized (UInt64.ofNat b.length) b

/-- A zip with these members, by position. -/
def zipOf (members : List ZipFile) : ZipArchive where
  len := members.length
  byIndex := fun i =>
    match members[i]? with
    | some zf => .ok zf
    | none => .error "specified file not found in archive"

/-- Readers of one zip image with these members; a name opens the first member that bears it. -/
def zipReaders (image : Bytes) (members : List ZipFile) : Backends :=
  { Backends.inert with
    zipArchive := fun data =>
      if data = image then .ok (zipOf members) else .error "invalid Zip archive"
    openEntry := fun data name =>
      if data = image then
        match members.find? fun zf => zf.name == name with
        | some zf => .ok (.over zf.contents.items)
        | none => .error "entry not found"
      else .error "invalid Zip archive" }

theorem zipOf_byIndex {members : List ZipFile} {index : Nat} {zf : ZipFile}
    (h : (zipOf members).byIndex index = .ok zf) : members[index]? = some zf := by
  simp only [zipOf] at h
  split at h
  · rename_i zf' hget
    rw [hget, Except.ok.inj h]
  · cases h

theorem zipReaders_byIndex {image : Bytes} {members : List ZipFile} {z : ZipArchive}
    (hz : (zipReaders image members).zipArchive image = .ok z) {index : Nat} {zf : ZipFile}
    (hzf : z.byIndex index = .ok zf) : members[index]? = some zf := by
  obtain rfl := Except.ok.inj ((if_pos rfl).symm.trans hz)
  exact zipOf_byIndex hzf

theorem zipReaders_openEntry {image : Bytes} {members : List ZipFile} {name : String}
    {entry : StoredZipEntry} (h : (zipReaders image members).openEntry image name = .ok entry) :
    ∃ zf ∈ members, zf.name = name ∧ entry = .over zf.contents.items := by
  simp only [zipReaders, if_true] at h
  split at h
  · rename_i zf hfind
    exact ⟨zf, List.mem_of_find?_eq_some hfind, by simpa using List.find?_some hfind,
      (Except.ok.inj h).symm⟩
  · cases h

/-- One deflated member `a` of eight bytes. -/
def deflateZip : Bytes := [
  0x50, 0x4B, 0x03, 0x04, 0x14, 0x00, 0x00, 0x00, 0x08, 0x00, 0x00, 0x00, 0x21, 0x00, 0x46, 0x80,
  0x84, 0xBF, 0x05, 0x00, 0x00, 0x00, 0x08, 0x00, 0x00, 0x00, 0x01, 0x00, 0x00, 0x00, 0x61, 0x4B,
  0x4C, 0x84, 0x00, 0x00, 0x50, 0x4B, 0x01, 0x02, 0x14, 0x03, 0x14, 0x00, 0x00, 0x00, 0x08, 0x00,
  0x00, 0x00, 0x21, 0x00, 0x46, 0x80, 0x84, 0xBF, 0x05, 0x00, 0x00, 0x00, 0x08, 0x00, 0x00, 0x00,
  0x01, 0x00, 0x00, 0x00, 0x00, 0x00, 0x00, 0x00, 0x00, 0x00, 0x00, 0x00, 0x80, 0x01, 0x00, 0x00,
  0x00, 0x00, 0x61, 0x50, 0x4B, 0x05, 0x06, 0x00, 0x00, 0x00, 0x00, 0x01, 0x00, 0x01, 0x00, 0x2F,
  0x00, 0x00, 0x00, 0x24, 0x00, 0x00, 0x00, 0x00, 0x00]

def deflateZipFile : ZipFile where
  name := "a"
  size := 8
  isDir := false
  compression := .deflated
  dataStart := 31
  compressedSize := 5
  contents := Feed.eof (List.replicate 8 0x61)

def deflateReaders : Backends := zipReaders deflateZip [deflateZipFile]

/-- A stored member, its data found where the listing says. -/
def storedFile (name : String) (dataStart : UInt64) (b : Bytes) : ZipFile where
  name := name
  size := UInt64.ofNat b.length
  isDir := false
  compression := .stored
  dataStart := dataStart
  compressedSize := UInt64.ofNat b.length
  contents := Feed.eof b

/-- One stored member `a` of one byte, with a checksum that is not its own. -/
def badCrcZip : Bytes := [
  0x50, 0x4B, 0x03, 0x04, 0x14, 0x00, 0x00, 0x00, 0x00, 0x00, 0x00, 0x00, 0x21, 0x00, 0x74, 0x61,
  0x26, 0x2C, 0x01, 0x00, 0x00, 0x00, 0x01, 0x00, 0x00, 0x00, 0x01, 0x00, 0x00, 0x00, 0x61, 0x41,
  0x50, 0x4B, 0x01, 0x02, 0x14, 0x03, 0x14, 0x00, 0x00, 0x00, 0x00, 0x00, 0x00, 0x00, 0x21, 0x00,
  0x74, 0x61, 0x26, 0x2C, 0x01, 0x00, 0x00, 0x00, 0x01, 0x00, 0x00, 0x00, 0x01, 0x00, 0x00, 0x00,
  0x00, 0x00, 0x00, 0x00, 0x00, 0x00, 0x00, 0x00, 0x80, 0x01, 0x00, 0x00, 0x00, 0x00, 0x61, 0x50,
  0x4B, 0x05, 0x06, 0x00, 0x00, 0x00, 0x00, 0x01, 0x00, 0x01, 0x00, 0x2F, 0x00, 0x00, 0x00, 0x20,
  0x00, 0x00, 0x00, 0x00, 0x00]

def badCrcFile : ZipFile where
  name := "a"
  size := 1
  isDir := false
  compression := .stored
  dataStart := 31
  compressedSize := 1
  contents := ⟨[0x41], some "Invalid checksum"⟩

def badCrcReaders : Backends := zipReaders badCrcZip [badCrcFile]

/-- Two stored segments of one image, the second one first. -/
def splitZip : Bytes := [
  0x50, 0x4B, 0x03, 0x04, 0x14, 0x00, 0x00, 0x00, 0x00, 0x00, 0x00, 0x00, 0x21, 0x00, 0x52, 0x2F,
  0x43, 0x6C, 0x02, 0x00, 0x00, 0x00, 0x02, 0x00, 0x00, 0x00, 0x05, 0x00, 0x00, 0x00, 0x61, 0x2E,
  0x30, 0x30, 0x32, 0x42, 0x43, 0x50, 0x4B, 0x03, 0x04, 0x14, 0x00, 0x00, 0x00, 0x00, 0x00, 0x00,
  0x00, 0x21, 0x00, 0x8B, 0x9E, 0xD9, 0xD3, 0x01, 0x00, 0x00, 0x00, 0x01, 0x00, 0x00, 0x00, 0x05,
  0x00, 0x00, 0x00, 0x61, 0x2E, 0x30, 0x30, 0x31, 0x41, 0x50, 0x4B, 0x01, 0x02, 0x14, 0x03, 0x14,
  0x00, 0x00, 0x00, 0x00, 0x00, 0x00, 0x00, 0x21, 0x00, 0x52, 0x2F, 0x43, 0x6C, 0x02, 0x00, 0x00,
  0x00, 0x02, 0x00, 0x00, 0x00, 0x05, 0x00, 0x00, 0x00, 0x00, 0x00, 0x00, 0x00, 0x00, 0x00, 0x00,
  0x00, 0x80, 0x01, 0x00, 0x00, 0x00, 0x00, 0x61, 0x2E, 0x30, 0x30, 0x32, 0x50, 0x4B, 0x01, 0x02,
  0x14, 0x03, 0x14, 0x00, 0x00, 0x00, 0x00, 0x00, 0x00, 0x00, 0x21, 0x00, 0x8B, 0x9E, 0xD9, 0xD3,
  0x01, 0x00, 0x00, 0x00, 0x01, 0x00, 0x00, 0x00, 0x05, 0x00, 0x00, 0x00, 0x00, 0x00, 0x00, 0x00,
  0x00, 0x00, 0x00, 0x00, 0x80, 0x01, 0x25, 0x00, 0x00, 0x00, 0x61, 0x2E, 0x30, 0x30, 0x31, 0x50,
  0x4B, 0x05, 0x06, 0x00, 0x00, 0x00, 0x00, 0x02, 0x00, 0x02, 0x00, 0x66, 0x00, 0x00, 0x00, 0x49,
  0x00, 0x00, 0x00, 0x00, 0x00]

def splitReaders : Backends :=
  zipReaders splitZip [storedFile "a.002" 35 [0x42, 0x43], storedFile "a.001" 72 [0x41]]

/-- Gzip members of the byte `A`, of the byte `B` and of no bytes. -/
def gzipA : Bytes := [
  0x1F, 0x8B, 0x08, 0x00, 0x00, 0x00, 0x00, 0x00, 0x02, 0xFF, 0x73, 0x04, 0x00, 0x8B, 0x9E, 0xD9,
  0xD3, 0x01, 0x00, 0x00, 0x00]

def gzipB : Bytes := [
  0x1F, 0x8B, 0x08, 0x00, 0x00, 0x00, 0x00, 0x00, 0x02, 0xFF, 0x73, 0x02, 0x00, 0x31, 0xCF, 0xD0,
  0x4A, 0x01, 0x00, 0x00, 0x00]

def gzipNone : Bytes := [
  0x1F, 0x8B, 0x08, 0x00, 0x00, 0x00, 0x00, 0x00, 0x02, 0xFF, 0x03, 0x00, 0x00, 0x00, 0x00, 0x00,
  0x00, 0x00, 0x00, 0x00]

/-- The byte `A` under a recorded file name that puts `ustar` at offset 257. -/
def ustarGzip : Bytes :=
  [0x1F, 0x8B, 0x08, 0x08, 0x00, 0x00, 0x00, 0x00, 0x02, 0xFF] ++ List.replicate 247 0x78 ++
    [0x75, 0x73, 0x74, 0x61, 0x72, 0x00, 0x73, 0x04, 0x00, 0x8B, 0x9E, 0xD9, 0xD3, 0x01, 0x00, 0x00,
      0x00]

def gzipMembers : List (Bytes × Bytes) :=
  [(gzipA, [0x41]), (gzipB, [0x42]), (gzipNone, []), (ustarGzip, [0x41])]

/-- A decoder of these members that stops after the first one it is handed. -/
def gzipReaders : Backends :=
  { Backends.inert with
    gzDecoder := fun data =>
      match gzipMembers.find? fun m => m.1.isPrefixOf data with
      | some m => Feed.eof m.2
      | none => ⟨[], some "invalid gzip header"⟩ }

/-- A tar of one file `a` of one byte. -/
def oneFileTar : Bytes :=
  0x61 :: List.replicate 99 0x00 ++
    [0x30, 0x30, 0x30, 0x30, 0x36, 0x34, 0x34, 0x00, 0x30, 0x30, 0x30, 0x30, 0x30, 0x30, 0x30, 0x00,
      0x30, 0x30, 0x30, 0x30, 0x30, 0x30, 0x30, 0x00] ++
    List.replicate 10 0x30 ++ [0x31, 0x00] ++ List.replicate 11 0x30 ++
    [0x00, 0x30, 0x30, 0x36, 0x30, 0x37, 0x37, 0x00, 0x20, 0x30] ++ List.replicate 100 0x00 ++
    [0x75, 0x73, 0x74, 0x61, 0x72, 0x00, 0x30, 0x30] ++ List.replicate 247 0x00 ++
    0x41 :: List.replicate 1535 0x00

/-- The gzip stream of that tar. -/
def oneFileTarGz : Bytes := [
  0x1F, 0x8B, 0x08, 0x00, 0x00, 0x00, 0x00, 0x00, 0x02, 0xFF, 0x4B, 0x64, 0xA0, 0x3D, 0x30, 0x00,
  0x02, 0x33, 0x13, 0x13, 0x30, 0x0D, 0x04, 0xE8, 0x34, 0x10, 0x18, 0x22, 0xB1, 0x41, 0xE2, 0x66,
  0x06, 0xE6, 0xE6, 0x0C, 0x0A, 0x06, 0x74, 0x70, 0x1B, 0x43, 0x69, 0x71, 0x49, 0x62, 0x11, 0xD0,
  0x4A, 0x86, 0x91, 0x09, 0x1C, 0x19, 0x46, 0xC1, 0x28, 0x18, 0x05, 0xA3, 0x60, 0x14, 0x8C, 0x44,
  0x00, 0x00, 0x4A, 0x81, 0xD3, 0x95, 0x00, 0x08, 0x00, 0x00]

def tarReaders : Backends :=
  { Backends.inert with
    gzDecoder := fun data =>
      if data = oneFileTarGz then Feed.eof oneFileTar else ⟨[], some "invalid gzip header"⟩
    tarEntries := fun feed =>
      if feed = Feed.eof oneFileTar then .ok [.ok ⟨"a", .ok 1, false, Feed.eof [0x41]⟩]
      else .error "failed to read entire block" }

end ArchiveCore
