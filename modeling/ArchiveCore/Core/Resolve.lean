import ArchiveCore.Core.Archive

/-!
# Recursive resolution

`resolveInto` unwraps every layer it recognizes: a bare wrapper has one child, an archive
one child for each member that is not a directory, and every child is sniffed again under
its own name. One budget runs through the whole recursion.
-/

namespace ArchiveCore

open Framework

inductive Node
  | file (name : String) (bytes : Bytes)
  | dir (name : String)
deriving DecidableEq

/-- Bomb guards. The fields are machine words (`usize` is 64 bits). -/
structure Limits where
  maxDepth : Nat
  maxTotalInflated : Nat
  maxEntries : Nat
  maxIndexBytes : Nat
  maxDepth_le : maxDepth ≤ wordMax := by decide
  maxTotalInflated_le : maxTotalInflated ≤ wordMax := by decide
  maxEntries_le : maxEntries ≤ wordMax := by decide
  maxIndexBytes_le : maxIndexBytes ≤ wordMax := by decide
deriving DecidableEq

/-- The default guards. -/
def Limits.default : Limits where
  maxDepth := 8
  maxTotalInflated := 4 <<< 30
  maxEntries := 1000000
  maxIndexBytes := 512 <<< 20

structure Budget where
  totalInflated : Nat
  entries : Nat
deriving DecidableEq

def Budget.addInflated (budget : Budget) (n : Nat) (limits : Limits) : Except ArchiveError Budget :=
  let totalInflated := satAdd budget.totalInflated n
  if limits.maxTotalInflated < totalInflated then
    .error (.totalInflatedExceeded limits.maxTotalInflated)
  else .ok { budget with totalInflated }

def Budget.addEntry (budget : Budget) (limits : Limits) : Except ArchiveError Budget :=
  let entries := satAdd budget.entries 1
  if limits.maxEntries < entries then .error (.tooManyEntries limits.maxEntries)
  else .ok { budget with entries }

/-- A leaf carrying `data` under the name hint, which may be absent. -/
def leaf (name : Option String) (data : Bytes) : Node := .file (name.getD "") data

/-- Strip the first of the three extensions that the name ends with, in any letter case. -/
def stripExt (name : String) : List String → String
  | [] => name
  | ext :: exts =>
    if endsWith (asciiLower name.toList) ext.toList then
      String.ofList (name.toList.take (name.toList.length - ext.toList.length))
    else stripExt name exts

def stripCompressionExt (name : Option String) : Option String :=
  name.map fun name => stripExt name [".gz", ".bz2", ".z"]

/-- The loop over the members of an opened archive; `recurse` is the call one layer down. -/
def resolveMembers (B : Backends) (limits : Limits) (archive : Archive) (chain : String)
    (recurse : Bytes → Option String → String → Budget → List Node →
      Except ArchiveError (Budget × List Node)) :
    List (ArchiveEntry × Nat) → Budget → List Node → Except ArchiveError (Budget × List Node)
  | [], budget, out => .ok (budget, out)
  | (entry, i) :: members, budget, out => do
    let budget ← budget.addEntry limits
    if entry.isDir then
      resolveMembers B limits archive chain recurse members budget (out ++ [.dir entry.name])
    else do
      let bytes ← archive.read B i
      let budget ← budget.addInflated bytes.length limits
      let child := chain ++ " -> " ++ entry.name
      let (budget, out) ← recurse bytes (some entry.name) child budget out
      resolveMembers B limits archive chain recurse members budget out

/-- `depth + 1` is not reduced: a call stack of `2 ^ 64` frames does not exist. -/
def resolveInto (B : Backends) (limits : Limits) (data : Bytes) (name : Option String)
    (depth : Nat) (chain : String) (budget : Budget) (out : List Node) :
    Except ArchiveError (Budget × List Node) :=
  if limits.maxDepth < depth then .error (.depthExceeded limits.maxDepth chain)
  else if (sniff name data).isCompressionWrapper then do
    match ← peelBytes B data name with
    | .notPacked => return (budget, out ++ [leaf name data])
    | .peeled _ inner => do
      let budget ← budget.addInflated inner.length limits
      let innerName := stripCompressionExt name
      let child := chain ++ " -> " ++ innerName.getD "<peeled>"
      resolveInto B limits inner innerName (depth + 1) child budget out
  else if (sniff name data).isArchive then do
    match ← Archive.open' B data name with
    | none =>
      .error (.openError "archive"
        ((sniff name data).debug ++ " sniffed as an archive but did not open"))
    | some archive =>
      resolveMembers B limits archive chain
        (fun data name chain budget out =>
          resolveInto B limits data name (depth + 1) chain budget out)
        archive.entries.zipIdx budget out
  else .ok (budget, out ++ [leaf name data])
termination_by limits.maxDepth + 1 - depth

def resolve (B : Backends) (data : Bytes) (name : Option String) (limits : Limits) :
    Except ArchiveError (List Node) := do
  let (_, out) ← resolveInto B limits data name 0 (name.getD "<input>") ⟨0, 0⟩ []
  return out

end ArchiveCore
