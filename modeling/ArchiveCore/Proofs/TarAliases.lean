import ArchiveCore.Core.ArchiveLayer
import ArchiveCore.Core.Images

/-!
# The spellings of a compressed tar

All the aliases of one compressed tar are classified alike, whatever the content. The guard
against coincidental magic keeps a list of its own, and two aliases of the bzip2 tar are not
on it: that shows where the content is a bare gzip stream.
-/

namespace ArchiveCore

open Framework

def tarBz2Aliases : List String := [".tar.bz2", ".tbz2", ".tbz", ".tb2"]

def tarGzAliases : List String := [".tgz", ".tar.gz"]

/-- An alias in any letter case. -/
def Spells (aliases : List String) (s : String) : Prop :=
  ∃ al ∈ aliases, asciiLower s.toList = al.toList

/-- The same result, or errors of one variant. -/
inductive SameOutcome : Except ArchiveError Peel → Except ArchiveError Peel → Prop
  | ok (peel : Peel) : SameOutcome (.ok peel) (.ok peel)
  | error {e e' : ArchiveError} : e.ctorIdx = e'.ctorIdx → SameOutcome (.error e) (.error e')

theorem SameOutcome.refl (outcome : Except ArchiveError Peel) : SameOutcome outcome outcome := by
  cases outcome with
  | error e => exact .error rfl
  | ok peel => exact .ok peel

/-- The spellings of the bzip2 tar, and those of the gzip tar, can be exchanged. -/
structure AliasesAgree (B : Backends) (data : Bytes) (stem : String) (limits : Limits) : Prop where
  bzip2 : ∀ s s', Spells tarBz2Aliases s → Spells tarBz2Aliases s' →
    SameOutcome (peelArchive B data (some (stem ++ s)) limits)
      (peelArchive B data (some (stem ++ s')) limits)
  gzip : ∀ s s', Spells tarGzAliases s → Spells tarGzAliases s' →
    SameOutcome (peelArchive B data (some (stem ++ s)) limits)
      (peelArchive B data (some (stem ++ s')) limits)

theorem ends_spelled {stem s al : String} (hal : al ∈ tarBz2Aliases ++ tarGzAliases)
    (hs : asciiLower s.toList = al.toList) {suffix : String} (hsuffix : suffix ∈ sniffSuffixes) :
    ends (some (stem ++ s)) suffix = ends (some al) suffix := by
  have hlower : ∀ al ∈ tarBz2Aliases ++ tarGzAliases, asciiLower al.toList = al.toList := by decide
  have hshort : ∀ al ∈ tarBz2Aliases ++ tarGzAliases, ∀ suffix ∈ sniffSuffixes,
      suffix.toList.length ≤ al.toList.length ∨ endsWith suffix.toList al.toList = false := by decide
  simp only [ends, Option.any_some, String.toList_append, asciiLower_append, hs, hlower al hal]
  exact endsWith_append_of_or (hshort al hal suffix hsuffix)

theorem hasCompressionExt_congr {name name' : Option String}
    (h : ∀ suffix ∈ sniffSuffixes, ends name suffix = ends name' suffix) :
    hasCompressionExt name = hasCompressionExt name' := by
  simp only [sniffSuffixes, List.forall_mem_cons] at h
  simp only [hasCompressionExt, compressionExts, List.any_cons, List.any_nil, h]

theorem peelArchive_congr {B : Backends} {data : Bytes} {name name' : Option String}
    (hsniff : sniff name data = sniff name' data)
    (hext : (sniff name data).isCompressionWrapper = true →
      hasCompressionExt name = hasCompressionExt name') (limits : Limits) :
    peelArchive B data name limits = peelArchive B data name' limits := by
  have hpeel : peelBytes B data name = peelBytes B data name' := by rw [peelBytes, peelBytes, hsniff]
  have hopen : Archive.open' B data name = Archive.open' B data name' := by
    rw [Archive.open', Archive.open', hsniff]
  rw [peelArchive, peelArchive, ← hsniff, hpeel, hopen]
  by_cases hwrap : (sniff name data).isCompressionWrapper = true
  · rw [if_pos hwrap, if_pos hwrap, hext hwrap]
  · rw [if_neg hwrap, if_neg hwrap]

theorem sniff_tarBz2Alias {al : String} (hal : al ∈ tarBz2Aliases) (data : Bytes) :
    sniff (some al) data =
      if sevenZipMagic.isPrefixOf data then .sevenZip
      else if zipMagic.isPrefixOf data then .zip
      else if hasUstar data then .tar
      else if gzipMagic.isPrefixOf data then .gzip else .tarBz2 := by
  have hends : ∀ al ∈ tarBz2Aliases, isTarBz2Name (ends (some al)) = true ∧
      ends (some al) ".tgz" = false ∧ ends (some al) ".tar.gz" = false ∧
      ends (some al) ".7z" = false ∧ ends (some al) ".zip" = false ∧
      ends (some al) ".clbx" = false := by decide
  obtain ⟨hbz2, htgz, htargz, hseven, hzip, hclbx⟩ := hends al hal
  simp [sniff, hbz2, htgz, htargz, hseven, hzip, hclbx]

theorem sniff_tarGzAlias {al : String} (hal : al ∈ tarGzAliases) (data : Bytes) :
    sniff (some al) data =
      if sevenZipMagic.isPrefixOf data then .sevenZip
      else if zipMagic.isPrefixOf data then .zip
      else if hasUstar data then .tar
      else if gzipMagic.isPrefixOf data then .tarGz
      else if bzip2Magic.isPrefixOf data then .bzip2 else .tarGz := by
  have hends : ∀ al ∈ tarGzAliases, (ends (some al) ".tgz" || ends (some al) ".tar.gz") = true ∧
      isTarBz2Name (ends (some al)) = false ∧ ends (some al) ".7z" = false ∧
      ends (some al) ".zip" = false ∧ ends (some al) ".clbx" = false := by decide
  obtain ⟨hgz, hbz2, hseven, hzip, hclbx⟩ := hends al hal
  simp [sniff, hgz, hbz2, hseven, hzip, hclbx]

theorem sniff_none (data : Bytes) :
    sniff none data =
      if sevenZipMagic.isPrefixOf data then .sevenZip
      else if zipMagic.isPrefixOf data then .zip
      else if hasUstar data then .tar
      else if gzipMagic.isPrefixOf data then .gzip
      else if bzip2Magic.isPrefixOf data then .bzip2 else .unknown := by
  simp [sniff, isTarBz2Name, ends]

theorem tarBz2Alias_wrapper_iff {al : String} (hal : al ∈ tarBz2Aliases) (data : Bytes) :
    (sniff (some al) data).isCompressionWrapper = true ↔ sniff none data = .gzip := by
  rw [sniff_tarBz2Alias hal, sniff_none]
  by_cases hseven : sevenZipMagic.isPrefixOf data = true
  · simp [hseven, Format.isCompressionWrapper]
  by_cases hzip : zipMagic.isPrefixOf data = true
  · simp [hseven, hzip, Format.isCompressionWrapper]
  by_cases hustar : hasUstar data = true
  · simp [hseven, hzip, hustar, Format.isCompressionWrapper]
  by_cases hgzip : gzipMagic.isPrefixOf data = true
  · simp [hseven, hzip, hustar, hgzip, Format.isCompressionWrapper]
  · rw [if_neg hseven, if_neg hzip, if_neg hustar, if_neg hgzip, if_neg hseven, if_neg hzip,
      if_neg hustar, if_neg hgzip]
    split <;> simp [Format.isCompressionWrapper]

section

variable {B : Backends} {data : Bytes} {stem : String} {limits : Limits}

theorem peelArchive_spelled {s al : String} (hal : al ∈ tarBz2Aliases ++ tarGzAliases)
    (hs : asciiLower s.toList = al.toList) :
    peelArchive B data (some (stem ++ s)) limits = peelArchive B data (some al) limits := by
  have hends : ∀ suffix ∈ sniffSuffixes, ends (some (stem ++ s)) suffix = ends (some al) suffix :=
    fun suffix hsuffix => ends_spelled hal hs hsuffix
  exact peelArchive_congr (sniff_congr hends data) (fun _ => hasCompressionExt_congr hends) limits

theorem peelArchive_tarGzAlias {al al' : String} (hal : al ∈ tarGzAliases)
    (hal' : al' ∈ tarGzAliases) :
    peelArchive B data (some al) limits = peelArchive B data (some al') limits := by
  have hsniff : sniff (some al) data = sniff (some al') data := by
    rw [sniff_tarGzAlias hal, sniff_tarGzAlias hal']
  have hguard : ∀ al ∈ tarGzAliases, hasCompressionExt (some al) = true := by decide
  exact peelArchive_congr hsniff (fun _ => (hguard al hal).trans (hguard al' hal').symm) limits

theorem peelArchive_tarBz2Alias {al al' : String} (hal : al ∈ tarBz2Aliases)
    (hal' : al' ∈ tarBz2Aliases) (hgzip : sniff none data ≠ .gzip) :
    peelArchive B data (some al) limits = peelArchive B data (some al') limits := by
  have hsniff : sniff (some al) data = sniff (some al') data := by
    rw [sniff_tarBz2Alias hal, sniff_tarBz2Alias hal']
  exact peelArchive_congr hsniff
    (fun hwrap => absurd ((tarBz2Alias_wrapper_iff hal data).mp hwrap) hgzip) limits

theorem peelArchive_gzip_aliases (B : Backends) (limits : Limits) (hgzip : sniff none data = .gzip) :
    peelArchive B data (some ".tbz") limits = .ok .notPacked ∧
      peelArchive B data (some ".tbz2") limits ≠ .ok .notPacked := by
  have hwrap : ∀ al ∈ tarBz2Aliases, (sniff (some al) data).isCompressionWrapper = true :=
    fun al hal => (tarBz2Alias_wrapper_iff hal data).mpr hgzip
  constructor
  · rw [peelArchive, if_pos (hwrap ".tbz" (by decide))]
    exact if_neg (by decide)
  · have hlisted : hasCompressionExt (some ".tbz2") = true := by decide
    rw [peelArchive, if_pos (hwrap ".tbz2" (by decide)), if_pos hlisted, Ne, bind_eq_ok]
    rintro ⟨outcome, hpeel, h⟩
    cases outcome with
    | notPacked => exact peelBytes_ne_notPacked (hwrap ".tbz2" (by decide)) hpeel
    | peeled format inner =>
      simp only [cap] at h
      split at h <;> cases h

/-- The spellings of a compressed tar can be exchanged exactly when the content is no bare
gzip stream. -/
theorem tarAliases_agree_iff (B : Backends) (data : Bytes) (stem : String) (limits : Limits) :
    AliasesAgree B data stem limits ↔ sniff none data ≠ .gzip := by
  constructor
  · intro h hgzip
    obtain ⟨hleft, hpeeled⟩ := peelArchive_gzip_aliases B limits hgzip
    have hsame := h.bzip2 ".tbz" ".tbz2" ⟨".tbz", by decide, by decide⟩ ⟨".tbz2", by decide, by decide⟩
    rw [peelArchive_spelled (by decide : ".tbz" ∈ tarBz2Aliases ++ tarGzAliases) (by decide),
      peelArchive_spelled (by decide : ".tbz2" ∈ tarBz2Aliases ++ tarGzAliases) (by decide),
      hleft] at hsame
    generalize peelArchive B data (some ".tbz2") limits = outcome at hsame hpeeled
    cases hsame
    exact hpeeled rfl
  · intro hgzip
    constructor
    · rintro s s' ⟨al, hal, hs⟩ ⟨al', hal', hs'⟩
      rw [peelArchive_spelled (List.mem_append_left _ hal) hs,
        peelArchive_spelled (List.mem_append_left _ hal') hs', peelArchive_tarBz2Alias hal hal' hgzip]
      exact SameOutcome.refl _
    · rintro s s' ⟨al, hal, hs⟩ ⟨al', hal', hs'⟩
      rw [peelArchive_spelled (List.mem_append_right _ hal) hs,
        peelArchive_spelled (List.mem_append_right _ hal') hs', peelArchive_tarGzAlias hal hal']
      exact SameOutcome.refl _

end

/-- One gzip stream under two aliases of the bzip2 tar. -/
theorem gzipA_aliases_differ :
    peelArchive gzipReaders gzipA (some "disk.tbz2") .default = .ok (.inner [0x41]) ∧
      peelArchive gzipReaders gzipA (some "disk.tbz") .default = .ok .notPacked ∧
      ¬ AliasesAgree gzipReaders gzipA "disk" .default := by
  have hpeeled : peelArchive gzipReaders gzipA (some "disk.tbz2") .default = .ok (.inner [0x41]) := by
    decide +kernel
  have hleft : peelArchive gzipReaders gzipA (some "disk.tbz") .default = .ok .notPacked := by
    decide +kernel
  refine ⟨hpeeled, hleft, fun h => ?_⟩
  have hsame := h.bzip2 ".tbz2" ".tbz" ⟨".tbz2", by decide, by decide⟩ ⟨".tbz", by decide, by decide⟩
  have htbz2 : "disk" ++ ".tbz2" = "disk.tbz2" := by decide
  have htbz : "disk" ++ ".tbz" = "disk.tbz" := by decide
  rw [htbz2, htbz, hpeeled, hleft] at hsame
  cases hsame

end ArchiveCore
