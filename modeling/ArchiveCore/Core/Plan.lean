import ArchiveCore.Core.ArchiveLayer

/-!
# Phase 1: classifying the route to the evidence

`detect` looks at magic, at a bounded decompressed head and at the archive's own member
table, and never at a name hint. A table of two or more files whose names all match one
split pattern is one logical image, ordered by the numbers in the names.
-/

namespace ArchiveCore

open Framework

/-- The deepest magic, `ustar` at 257, lies within this many bytes. -/
def headPeek : Nat := 512

inductive Codec
  | gzip
  | bzip2
deriving DecidableEq

inductive SegmentKind
  | ewf
  | splitRaw
  | splitVmdk
deriving DecidableEq

structure Segment where
  name : String
  index : Nat
  access : Access
deriving DecidableEq

inductive AccessPlan
  | direct
  | wrapper (codec : Codec) (access : Access)
  | member (format : Format) (index : Nat) (name : String) (access : Access)
  | segmentSet (format : Format) (members : List Segment) (kind : SegmentKind)
  | collection (format : Format)
deriving DecidableEq

def codecName : Codec → String
  | .gzip => "gzip"
  | .bzip2 => "bzip2"

/-- A fresh decoder over the stream. -/
def codecReader (B : Backends) (codec : Codec) (data : Bytes) : ByteFeed :=
  match codec with
  | .gzip => B.gzDecoder data
  | .bzip2 => B.bzDecoder data

def peekHead (B : Backends) (codec : Codec) (data : Bytes) : Except ArchiveError Bytes :=
  ((codecReader B codec data).take headPeek).readToEnd.mapError (.decode (codecName codec))

def wrapperAccess : Codec → Access
  | .gzip => .zran
  | .bzip2 => .spillToTemp

/-- A run of at least `least` decimal digits, parsed as a word. -/
def segmentDigits (least : Nat) (digits : List Char) : Option Nat :=
  if least ≤ digits.length ∧ digits.all Char.isDigit then parseWord digits else none

/-- `.E0N`, `.Ex0N` or `.s0N`, in any letter case, with exactly two digits. -/
def ewfSegment (name : String) : Option Nat := do
  let (_, ext) ← rsplitOnce ['.'] name.toList
  let ext := asciiLower ext
  let digits ← stripPrefix ext ['e', 'x'] <|> stripPrefix ext ['e'] <|> stripPrefix ext ['s']
  if digits.length = 2 then segmentDigits 2 digits else none

/-- An extension of two or more digits. -/
def rawSplit (name : String) : Option Nat := do
  let (_, ext) ← rsplitOnce ['.'] name.toList
  segmentDigits 2 ext

/-- `<base>-sNNN.vmdk` -/
def vmdkSegment (name : String) : Option Nat := do
  let stem ← stripSuffix (asciiLower name.toList) ".vmdk".toList
  let (_, num) ← rsplitOnce ['-', 's'] stem
  segmentDigits 1 num

def segmentNumber (name : String) : SegmentKind → Option Nat
  | .ewf => ewfSegment name
  | .splitRaw => rawSplit name
  | .splitVmdk => vmdkSegment name

/-- The first kind, of VMDK, EWF and raw, that every name matches. -/
def classifySegmentKind (files : List (Nat × String)) : Option SegmentKind :=
  [.splitVmdk, .ewf, .splitRaw].find? fun kind =>
    files.all fun file => (segmentNumber file.2 kind).isSome

/-- The files that match, with their numbers, stably sorted by number. -/
def orderSegments (files : List (Nat × String)) (kind : SegmentKind) :
    List (Nat × String × Nat) :=
  (files.filterMap fun file =>
    (segmentNumber file.2 kind).map fun seg => (file.1, file.2, seg)).mergeSort
      fun a b => a.2.2 ≤ b.2.2

/-- The file members of a table with their positions. -/
def fileMembers (entries : List ArchiveEntry) : List (Nat × String) :=
  (entries.zipIdx.filter fun e => !e.1.isDir).map fun e => (e.2, e.1.name)

def segmentOf (archive : Archive) (file : Nat × String × Nat) : Except ArchiveError Segment := do
  let access ← archive.memberAccess file.1
  return { name := file.2.1, index := file.1, access }

def detectArchive (B : Backends) (format : Format) (data : Bytes) :
    Except ArchiveError AccessPlan := do
  match ← Archive.openWithFormat B format data with
  | none => return .collection format
  | some archive =>
    let files := fileMembers archive.entries
    match if 2 ≤ files.length then classifySegmentKind files else none with
    | some kind => do
      let members ← (orderSegments files kind).mapM (segmentOf archive)
      return .segmentSet format members kind
    | none =>
      match files with
      | [(index, name)] => do
        let access ← archive.memberAccess index
        return .member format index name access
      | _ => return .collection format

def detectWrapper (B : Backends) (codec : Codec) (data : Bytes) : Except ArchiveError AccessPlan :=
  match peekHead B codec data with
  -- valid magic that does not decode is not packed
  | .error _ => .ok .direct
  | .ok head =>
    match sniff none head with
    | .tar =>
      match codec with
      | .gzip => detectArchive B .tarGz data
      | .bzip2 => detectArchive B .tarBz2 data
    | .zip | .sevenZip | .gzip | .bzip2 | .tarGz | .tarBz2 =>
      .ok (.wrapper codec .spillToTemp)
    | .unknown => .ok (.wrapper codec (wrapperAccess codec))

def detect (B : Backends) (data : Bytes) : Except ArchiveError AccessPlan :=
  match sniff none data with
  | .gzip => detectWrapper B .gzip data
  | .bzip2 => detectWrapper B .bzip2 data
  | .unknown => .ok .direct
  | format => detectArchive B format data

example : ewfSegment "img.Ex03" = some 3 := by decide
example : rawSplit "disk.1" = none := by decide
example : vmdkSegment "disk-s012.VMDK" = some 12 := by decide

end ArchiveCore
