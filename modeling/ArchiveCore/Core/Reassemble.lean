import ArchiveCore.Core.Execute
import ArchiveCore.Framework.Bisect

/-!
# Reassembling a segment set

A raw split is stitched into one logical source by placing each segment's handle at the
running total of the lengths before it; the other kinds are handed back as ordered handles.
-/

namespace ArchiveCore

open Framework

structure SegmentSources where
  format : Format
  kind : SegmentKind
  sources : List PeeledSource

/-- One segment with its logical window. -/
structure ConcatSeg where
  source : PeeledSource
  start : Nat
  len : Nat

structure ConcatSource where
  segs : List ConcatSeg
  total : Nat
  pos : Nat

namespace ConcatSource

/-- Place the sources one after another from `start` on; the second result is the end. -/
def place (start : Nat) : List PeeledSource → List ConcatSeg × Nat
  | [] => ([], start)
  | source :: sources =>
    let placed := place (satAdd start source.len) sources
    (⟨source, start, source.len⟩ :: placed.1, placed.2)

def new (sources : List PeeledSource) : ConcatSource :=
  { segs := (place 0 sources).1, total := (place 0 sources).2, pos := 0 }

def len (c : ConcatSource) : Nat := c.total

/-- The first segment whose end exceeds `pos`. -/
def segAt (c : ConcatSource) (pos : Nat) : Option Nat :=
  let idx := partitionPoint (fun s => decide (wrapAdd s.start s.len ≤ pos)) c.segs
  if idx < c.segs.length then some idx else none

/-- The call that reads one segment: seek to its local offset, then read no further than
its end. -/
def readSegment (seg : ConcatSeg) (pos want : Nat) : Except IoError (Bytes × ConcatSeg) := do
  let seekLocal := wrapSub pos seg.start
  let (_, source) ← seg.source.seek (.start (UInt64.ofNat seekLocal))
  let avail := wrapSub seg.len seekLocal
  let (chunk, source) ← source.read (min want avail)
  return (chunk, { seg with source })

def read (c : ConcatSource) (want : Nat) : Except IoError (Bytes × ConcatSource) :=
  if want = 0 ∨ c.total ≤ c.pos then .ok ([], c)
  else
    match c.segAt c.pos with
    | none => .ok ([], c)
    | some i =>
      match c.segs[i]? with
      | none => .ok ([], c)
      | some seg => do
        let (chunk, seg) ← readSegment seg c.pos want
        return (chunk, { c with segs := c.segs.set i seg, pos := satAdd c.pos chunk.length })

def seek (c : ConcatSource) (origin : SeekFrom) : Except IoError (Nat × ConcatSource) := do
  let target ← seekTarget c.total c.pos origin
  let pos := min target c.total
  return (pos, { c with pos })

def readSeek : ReadSeek ConcatSource UInt8 IoError := ⟨read, seek⟩

end ConcatSource

inductive Reassembled
  | concat (source : ConcatSource)
  | segments (sources : SegmentSources)
  | notSegmented

def segmentSources (B : Backends) (data : Bytes) (limits : Limits) :
    Except ArchiveError (Option SegmentSources) := do
  match ← detect B data with
  | .segmentSet format members kind => do
    let sources ← members.mapM fun seg =>
      executeMemberAccess B format data seg.index seg.name seg.access limits
    return some { format, kind, sources }
  | _ => return none

def reassemble (B : Backends) (data : Bytes) (limits : Limits) :
    Except ArchiveError Reassembled := do
  match ← segmentSources B data limits with
  | none => return .notSegmented
  | some ss =>
    match ss.kind with
    | .splitRaw => return .concat (ConcatSource.new ss.sources)
    | .ewf | .splitVmdk => return .segments ss

end ArchiveCore
