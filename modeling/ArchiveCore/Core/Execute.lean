import ArchiveCore.Core.Plan
import ArchiveCore.Framework.Cursor

/-!
# Phase 2: executing a plan as a seekable handle

A stored member is a window over the archive's own bytes, a deflated member is read through
a seek index, and anything else is decoded once into a temp file. The three handles share
one interface and each implements reading and seeking on its own.
-/

namespace ArchiveCore

open Framework

/-- An error of a read or a seek on a handle. -/
inductive IoError
  | invalidInput (detail : String)
  | other (detail : String)
deriving DecidableEq

/-- Add a signed offset to a position; leaving the range of a word is an error. -/
def offsetFrom (base : Nat) (off : Int64) : Except IoError Nat :=
  let r := if 0 ≤ off.toInt then checkedAdd base off.toInt.toNat else checkedSub base off.toInt.natAbs
  match r with
  | some position => .ok position
  | none => .error (.invalidInput "seek position out of range")

/-- The target of a seek over a handle that knows its length and position. -/
def seekTarget (len pos : Nat) : SeekFrom → Except IoError Nat
  | .start o => .ok o.toNat
  | .fromEnd o => offsetFrom len o
  | .current o => offsetFrom pos o

/-- A window `[start, start + len)` over shared bytes. -/
structure SubRange where
  data : Bytes
  start : Nat
  len : Nat
  pos : Nat

namespace SubRange

def newShared (data : Bytes) (offset len cap : Nat) : Except ArchiveError SubRange :=
  if cap < len then .error (.tooLarge cap)
  else
    match (checkedAdd offset len).filter fun e => decide (e ≤ data.length) with
    | some _ => .ok { data, start := offset, len, pos := 0 }
    | none =>
      .error (.read "in-place"
        ("member window [" ++ toString offset ++ ", " ++ toString offset ++ "+" ++ toString len ++
          ") exceeds the " ++ toString data.length ++ "-byte source"))

def read (s : SubRange) (want : Nat) : Except IoError (Bytes × SubRange) :=
  let remaining := wrapSub s.len s.pos
  if remaining = 0 ∨ want = 0 then .ok ([], s)
  else
    let n := min remaining want
    let start := satAdd s.start s.pos
    if start + n ≤ s.data.length then
      .ok ((s.data.drop start).take n, { s with pos := wrapAdd s.pos n })
    else .ok ([], s)

def seek (s : SubRange) (origin : SeekFrom) : Except IoError (Nat × SubRange) := do
  let target ← seekTarget s.len s.pos origin
  let pos := min target s.len
  return (pos, { s with pos })

end SubRange

/-- Offsets into a file are signed 64-bit. -/
def fileMax : Nat := 2 ^ 63 - 1

/-- An open file: a seek may go past the end, where reads bring nothing. -/
structure File where
  bytes : Bytes
  pos : Nat

namespace File

def read (f : File) (want : Nat) : Except IoError (Bytes × File) :=
  let chunk := (f.bytes.drop f.pos).take want
  .ok (chunk, { f with pos := f.pos + chunk.length })

def seek (f : File) (origin : SeekFrom) : Except IoError (Nat × File) :=
  let target := origin.target f.bytes.length f.pos
  if 0 ≤ target ∧ target ≤ fileMax then .ok (target.toNat, { f with pos := target.toNat })
  else .error (.invalidInput "Invalid argument")

end File

/-- A stream decoded once into a temp file. -/
structure TempBacked where
  inner : File
  len : Nat

namespace TempBacked

def read (t : TempBacked) (want : Nat) : Except IoError (Bytes × TempBacked) := do
  let (chunk, inner) ← t.inner.read want
  return (chunk, { t with inner })

def seek (t : TempBacked) (origin : SeekFrom) : Except IoError (Nat × TempBacked) := do
  let (pos, inner) ← t.inner.seek origin
  return (pos, { t with inner })

end TempBacked

/-- A zip member behind a seek index; the archive stays in its temp file. -/
structure ZranBacked where
  entry : StoredZipEntry
  len : Nat
  pos : Nat
  archive : Bytes

namespace ZranBacked

def read (z : ZranBacked) (want : Nat) : Except IoError (Bytes × ZranBacked) := do
  let chunk ← (z.entry.readAt z.pos want).mapError IoError.other
  return (chunk, { z with pos := satAdd z.pos chunk.length })

def seek (z : ZranBacked) (origin : SeekFrom) : Except IoError (Nat × ZranBacked) := do
  let target ← seekTarget z.len z.pos origin
  let pos := min target z.len
  return (pos, { z with pos })

end ZranBacked

inductive PeeledSource
  | inPlace (window : SubRange)
  | zran (member : ZranBacked)
  | temp (spilled : TempBacked)

namespace PeeledSource

def len : PeeledSource → Nat
  | inPlace s => s.len
  | zran z => z.len
  | temp t => t.len

def read : PeeledSource → Nat → Except IoError (Bytes × PeeledSource)
  | inPlace s, want => do
    let (chunk, s) ← s.read want
    return (chunk, inPlace s)
  | zran z, want => do
    let (chunk, z) ← z.read want
    return (chunk, zran z)
  | temp t, want => do
    let (chunk, t) ← t.read want
    return (chunk, temp t)

def seek : PeeledSource → SeekFrom → Except IoError (Nat × PeeledSource)
  | inPlace s, origin => do
    let (pos, s) ← s.seek origin
    return (pos, inPlace s)
  | zran z, origin => do
    let (pos, z) ← z.seek origin
    return (pos, zran z)
  | temp t, origin => do
    let (pos, t) ← t.seek origin
    return (pos, temp t)

/-- `Box<dyn ReadSeek>` over a peeled handle. -/
def readSeek : ReadSeek PeeledSource UInt8 IoError := ⟨read, seek⟩

end PeeledSource

inductive PeelSource
  | notPacked
  | inner (source : PeeledSource)

/-- Fill a fresh temp file and rewind it; a failed fill leaves nothing behind. -/
def spill (B : Backends) (writeInto : ByteSink → ByteSink × Except ArchiveError Nat) :
    Except ArchiveError TempBacked := do
  B.temp.create.mapError (.read "temp-spill")
  let filled := writeInto B.temp.file
  let written ← filled.2
  B.temp.flush.mapError (.read "temp-spill")
  B.temp.rewind.mapError (.read "temp-spill")
  return { inner := ⟨filled.1.written, 0⟩, len := written }

def spillWrapperToTemp (B : Backends) (data : Bytes) (codec : Codec) (cap : Nat) :
    Except ArchiveError TempBacked :=
  spill B fun out => copyCapped (.decode (codecName codec)) (codecReader B codec data) out cap

def spillMemberToTemp (B : Backends) (format : Format) (data : Bytes) (index cap : Nat) :
    Except ArchiveError TempBacked := do
  match ← Archive.openWithFormat B format data with
  | none => .error (.openError "archive" "member plan produced for a non-archive format")
  | some archive => spill B fun out => archive.streamMember B index out cap

def memberUncompressedSize (B : Backends) (format : Format) (data : Bytes) (index : Nat) :
    Except ArchiveError Nat := do
  match ← Archive.openWithFormat B format data with
  | none => .error (.openError "archive" "member plan produced for a non-archive format")
  | some archive =>
    match archive.entries[index]? with
    | some entry => .ok entry.size.toNat
    | none => .error (.indexOutOfRange index archive.entries.length)

/-- 8 MiB of output for each checkpoint. -/
def zranCheckpointInterval : Nat := 8 * 1024 * 1024

/-- 128 KiB for each checkpoint. -/
def zranCheckpointBytes : Nat := 128 * 1024

def estimateZranIndexBytes (uncompressed : Nat) : Nat :=
  let checkpoints :=
    max ((uncompressed + zranCheckpointInterval - 1) / zranCheckpointInterval) 1
  satMul checkpoints zranCheckpointBytes

/-- The compressed archive in a temp file of its own; the result is the file's bytes. -/
def writeArchiveTemp (B : Backends) (data : Bytes) : Except ArchiveError Bytes := do
  B.temp.create.mapError (.read "zip-zran")
  let filled := B.temp.file.writeAll data
  filled.2.mapError (.read "zip-zran")
  B.temp.flush.mapError (.read "zip-zran")
  return filled.1.written

def peelZran (B : Backends) (format : Format) (data : Bytes) (index : Nat) (name : String)
    (limits : Limits) : Except ArchiveError PeeledSource :=
  if format ≠ .zip then do
    return .temp (← spillMemberToTemp B format data index limits.maxTotalInflated)
  else do
    let size ← memberUncompressedSize B format data index
    if limits.maxIndexBytes < estimateZranIndexBytes size then do
      return .temp (← spillMemberToTemp B format data index limits.maxTotalInflated)
    else do
      let archive ← writeArchiveTemp B data
      let entry ← (B.openEntry archive name).mapError (.read "zip-zran")
      return .zran { entry, len := entry.len.toNat, pos := 0, archive }

/-- Materialize one member's access as a handle over the shared archive bytes. -/
def executeMemberAccess (B : Backends) (format : Format) (data : Bytes) (index : Nat)
    (name : String) (access : Access) (limits : Limits) : Except ArchiveError PeeledSource :=
  match access with
  | .inPlace offset len => do
    return .inPlace (← SubRange.newShared data offset len limits.maxTotalInflated)
  | .zran => peelZran B format data index name limits
  | .spillToTemp => do
    return .temp (← spillMemberToTemp B format data index limits.maxTotalInflated)

/-- The streaming peel; the name is not looked at. -/
def peelArchiveSeekable (B : Backends) (data : Bytes) (_name : Option String) (limits : Limits) :
    Except ArchiveError PeelSource := do
  match ← detect B data with
  | .direct | .collection _ | .segmentSet _ _ _ => return .notPacked
  | .wrapper codec _ => do
    return .inner (.temp (← spillWrapperToTemp B data codec limits.maxTotalInflated))
  | .member format index name access => do
    return .inner (← executeMemberAccess B format data index name access limits)

end ArchiveCore
