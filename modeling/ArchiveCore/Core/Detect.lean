import ArchiveCore.Core.Backends
import ArchiveCore.Framework.Text

/-! # Format determination by magic and name -/

namespace ArchiveCore

open Framework

inductive Format
  | gzip
  | bzip2
  | tarGz
  | tarBz2
  | tar
  | zip
  | sevenZip
  | unknown
deriving DecidableEq

/-- The derived debug text. -/
def Format.debug : Format → String
  | .gzip => "Gzip"
  | .bzip2 => "Bzip2"
  | .tarGz => "TarGz"
  | .tarBz2 => "TarBz2"
  | .tar => "Tar"
  | .zip => "Zip"
  | .sevenZip => "SevenZip"
  | .unknown => "Unknown"

def Format.isCompressionWrapper : Format → Bool
  | .gzip | .bzip2 => true
  | _ => false

def Format.isArchive : Format → Bool
  | .tar | .tarGz | .tarBz2 | .zip | .sevenZip => true
  | _ => false

/-- The name, ASCII-lowercased, ends with the suffix; no name ends with anything. -/
def ends (name : Option String) (suffix : String) : Bool :=
  name.any fun n => endsWith (asciiLower n.toList) suffix.toList

/-- The suffixes of a bzip2-compressed tar. -/
def isTarBz2Name (ends : String → Bool) : Bool :=
  ends ".tar.bz2" || ends ".tbz2" || ends ".tbz" || ends ".tb2"

def sevenZipMagic : Bytes := [0x37, 0x7A, 0xBC, 0xAF, 0x27, 0x1C]

/-- `PK\x03\x04` -/
def zipMagic : Bytes := [0x50, 0x4B, 0x03, 0x04]

/-- `ustar`, at offset 257 -/
def ustarMagic : Bytes := [0x75, 0x73, 0x74, 0x61, 0x72]

def gzipMagic : Bytes := [0x1F, 0x8B]

/-- `BZh` -/
def bzip2Magic : Bytes := [0x42, 0x5A, 0x68]

def hasUstar (head : Bytes) : Bool :=
  decide (262 ≤ head.length) && (head.drop 257).take 5 == ustarMagic

/-- Containers and codecs by magic, with the name to tell a compressed tar from a bare
wrapper; the name alone where the magic is silent. -/
def sniff (name : Option String) (head : Bytes) : Format :=
  if sevenZipMagic.isPrefixOf head then .sevenZip
  else if zipMagic.isPrefixOf head then .zip
  else if hasUstar head then .tar
  else if gzipMagic.isPrefixOf head then
    if ends name ".tgz" || ends name ".tar.gz" then .tarGz else .gzip
  else if bzip2Magic.isPrefixOf head then
    if isTarBz2Name (ends name) then .tarBz2 else .bzip2
  -- magic silent: fall to the name
  else if ends name ".7z" then .sevenZip
  else if ends name ".zip" || ends name ".clbx" then .zip
  else if ends name ".tgz" || ends name ".tar.gz" then .tarGz
  else if isTarBz2Name (ends name) then .tarBz2
  else if ends name ".tar" then .tar
  else if ends name ".gz" then .gzip
  else if ends name ".bz2" then .bzip2
  else .unknown

/-- The suffixes a name is asked for. -/
def sniffSuffixes : List String :=
  [".tgz", ".tar.gz", ".tar.bz2", ".tbz2", ".tbz", ".tb2", ".7z", ".zip", ".clbx", ".tar", ".gz", ".bz2"]

/-- Names that end alike are classified alike. -/
theorem sniff_congr {name name' : Option String}
    (h : ∀ suffix ∈ sniffSuffixes, ends name suffix = ends name' suffix) (data : Bytes) :
    sniff name data = sniff name' data := by
  simp only [sniffSuffixes, List.forall_mem_cons] at h
  simp only [sniff, isTarBz2Name, h]
  rfl

theorem Format.isArchive_eq_false_of_wrapper {format : Format}
    (h : format.isCompressionWrapper = true) : format.isArchive = false := by
  cases format <;> simp_all [isCompressionWrapper, isArchive]

theorem Format.eq_unknown {format : Format} (hw : format.isCompressionWrapper = false)
    (ha : format.isArchive = false) : format = .unknown := by
  cases format <;> simp_all [isCompressionWrapper, isArchive]

example : sniff (some "EVIDENCE.TB2") bzip2Magic = .tarBz2 := by decide

end ArchiveCore
