import ArchiveCore.Core.Resolve

/-! # The materialising peel of a single wrapped image -/

namespace ArchiveCore

open Framework

inductive Peel
  | notPacked
  | inner (bytes : Bytes)
deriving DecidableEq

/-- The supported packed extensions; the guard against coincidental magic. -/
def compressionExts : List String :=
  [".gz", ".bz2", ".tgz", ".tar.gz", ".tbz2", ".tar.bz2", ".zip", ".clbx", ".7z"]

def hasCompressionExt (name : Option String) : Bool := compressionExts.any (ends name)

def cap (inner : Bytes) (limits : Limits) : Except ArchiveError Peel :=
  if limits.maxTotalInflated < inner.length then
    .error (.totalInflatedExceeded limits.maxTotalInflated)
  else .ok (.inner inner)

/-- The positions of the members that are not directories. -/
def fileIndices (entries : List ArchiveEntry) : List Nat :=
  (entries.zipIdx.filter fun e => !e.1.isDir).map Prod.snd

def peelArchive (B : Backends) (data : Bytes) (name : Option String) (limits : Limits) :
    Except ArchiveError Peel :=
  if (sniff name data).isCompressionWrapper then
    if hasCompressionExt name then do
      match ← peelBytes B data name with
      | .notPacked => return .notPacked
      | .peeled _ inner => cap inner limits
    else .ok .notPacked
  else if (sniff name data).isArchive then do
    match ← Archive.open' B data name with
    | none => return .notPacked
    | some archive =>
      match fileIndices archive.entries with
      | [only] => do cap (← archive.read B only) limits
      | _ => return .notPacked
  else .ok .notPacked

end ArchiveCore
