import ArchiveCore.Core.Images
import ArchiveCore.Proofs.Routes

/-!
# What bare wrappers are recognized and how much of them is peeled

A stream with the magic of a codec is a wrapper unless its name says a compressed tar or its
bytes say a tar; the check for a tar comes first. A gzip file is a sequence of members, of
which the decoder gives the first.
-/

namespace ArchiveCore

open Framework

def codecMagic : Codec → Bytes
  | .gzip => gzipMagic
  | .bzip2 => bzip2Magic

def codecFormat : Codec → Format
  | .gzip => .gzip
  | .bzip2 => .bzip2

def codecTar : Codec → Format
  | .gzip => .tarGz
  | .bzip2 => .tarBz2

/-- The name ends in an alias of a tar compressed with the codec. -/
def tarAlias (codec : Codec) (name : Option String) : Bool :=
  match codec with
  | .gzip => ends name ".tgz" || ends name ".tar.gz"
  | .bzip2 => isTarBz2Name (ends name)

/-- The magic of a codec is that of no archive, so only `ustar` comes before it. -/
theorem sniff_of_codecMagic {codec : Codec} {data : Bytes}
    (h : (codecMagic codec).isPrefixOf data = true) (name : Option String) :
    sniff name data =
      if hasUstar data then .tar
      else if tarAlias codec name then codecTar codec
      else codecFormat codec := by
  obtain ⟨rest, rfl⟩ := List.isPrefixOf_iff_prefix.mp h
  cases codec with
  | gzip =>
    have hseven : sevenZipMagic.isPrefixOf (gzipMagic ++ rest) = false := rfl
    have hzip : zipMagic.isPrefixOf (gzipMagic ++ rest) = false := rfl
    have hgzip : gzipMagic.isPrefixOf (gzipMagic ++ rest) = true := h
    simp [sniff, codecMagic, hseven, hzip, hgzip, tarAlias, codecTar, codecFormat]
  | bzip2 =>
    have hseven : sevenZipMagic.isPrefixOf (bzip2Magic ++ rest) = false := rfl
    have hzip : zipMagic.isPrefixOf (bzip2Magic ++ rest) = false := rfl
    have hgzip : gzipMagic.isPrefixOf (bzip2Magic ++ rest) = false := rfl
    have hbzip2 : bzip2Magic.isPrefixOf (bzip2Magic ++ rest) = true := h
    cases hustar : hasUstar (bzip2Magic ++ rest) <;> cases halias : isTarBz2Name (ends name) <;>
      simp [sniff, codecMagic, hseven, hzip, hgzip, hbzip2, tarAlias, codecTar, codecFormat, hustar,
        halias]

/-- A stream with the magic of a codec that decodes, to its end and without an error, to `d`. -/
structure ValidWrapper (B : Backends) (codec : Codec) (data d : Bytes) : Prop where
  magic : (codecMagic codec).isPrefixOf data = true
  decodes : codecReader B codec data = Feed.eof d
  size : d.length ≤ maxInflated

theorem wrapperFeed_codecFormat (B : Backends) (codec : Codec) (data : Bytes) :
    wrapperFeed B (codecFormat codec) data = codecReader B codec data := by
  cases codec <;> simp [wrapperFeed, codecFormat, codecReader]

theorem ValidWrapper.peeled {B : Backends} {codec : Codec} {data d : Bytes} {name : Option String}
    (h : ValidWrapper B codec data d) (hname : tarAlias codec name = false)
    (hustar : hasUstar data = false) :
    peelBytes B data name = .ok (.peeled (codecFormat codec) d) := by
  have hsniff := sniff_of_codecMagic h.magic name
  rw [hname, hustar] at hsniff
  simp only [Bool.false_eq_true, if_false] at hsniff
  have hwrap : (codecFormat codec).isCompressionWrapper = true := by cases codec <;> rfl
  have hfeed := (wrapperFeed_codecFormat B codec data).trans h.decodes
  exact peelBytes_eq_peeled.mpr ⟨hsniff, hwrap, hfeed, h.size⟩

/-- A valid wrapper whose name is no alias is peeled, and one that has `ustar` where a tar
has it is left to be opened as a tar. -/
theorem peelBytes_of_validWrapper {B : Backends} {codec : Codec} {data d : Bytes}
    {name : Option String} (h : ValidWrapper B codec data d) (hname : tarAlias codec name = false) :
    peelBytes B data name =
      .ok (if hasUstar data then .notPacked else .peeled (codecFormat codec) d) := by
  cases hustar : hasUstar data with
  | true =>
    have hsniff := sniff_of_codecMagic h.magic name
    rw [hname, hustar] at hsniff
    simp only [if_true] at hsniff ⊢
    rw [peelBytes, hsniff]
  | false =>
    simp only [Bool.false_eq_true, if_false]
    exact h.peeled hname hustar

theorem peelBytes_of_validWrapper_gzipA :
    peelBytes gzipReaders gzipA (some "a.gz") = .ok (.peeled .gzip [0x41]) := by
  have hvalid : ValidWrapper gzipReaders .gzip gzipA [0x41] := ⟨by decide, by decide, by decide⟩
  have hpeel := peelBytes_of_validWrapper hvalid (by decide : tarAlias .gzip (some "a.gz") = false)
  have hustar : hasUstar gzipA = false := by decide
  rw [hpeel, hustar]
  rfl

/-- A gzip stream of one byte, recorded under a name that reads `ustar` in the right place,
is not peeled. -/
theorem ustarGzip_notPacked :
    (gzipMagic.isPrefixOf ustarGzip = true ∧
        gzipReaders.gzDecoder ustarGzip = Feed.eof [0x41] ∧ [0x41].length ≤ maxInflated ∧
        tarAlias .gzip none = false) ∧
      peelBytes gzipReaders ustarGzip none = .ok .notPacked ∧
      peelBytes gzipReaders ustarGzip none ≠ .ok (.peeled .gzip [0x41]) := by
  have hpeel : peelBytes gzipReaders ustarGzip none = .ok .notPacked := by
    have hsniff : sniff none ustarGzip = .tar := by decide +kernel
    rw [peelBytes, hsniff]
  refine ⟨⟨by decide +kernel, by decide +kernel, by decide, by decide⟩, hpeel, ?_⟩
  rw [hpeel]
  simp

/-- The stream is peeled to exactly this payload, in memory and into a temp file. -/
structure PeeledInFull (B : Backends) (data : Bytes) (name : Option String) (limits : Limits)
    (payload : Bytes) : Prop where
  peeled : peelBytes B data name = .ok (.peeled .gzip payload)
  spilled : peelArchiveSeekable B data name limits = .ok (.inner (.temp (.holding payload)))

section

variable {B : Backends} {data p : Bytes} {name : Option String} {limits : Limits}

theorem peeledInFull_of_decodes (hnone : sniff none data = .gzip) (hname : sniff name data = .gzip)
    (hdecodes : B.gzDecoder data = Feed.eof p) (hmax : p.length ≤ maxInflated)
    (hlen : p.length ≤ limits.maxTotalInflated) (hcap : limits.maxTotalInflated < wordMax)
    (htemp : B.temp.Healthy) (hhead : sniff none (p.take headPeek) ≠ .tar) :
    PeeledInFull B data name limits p where
  peeled := peelBytes_eq_peeled.mpr ⟨hname, rfl, by simpa [wrapperFeed] using hdecodes, hmax⟩
  spilled := by
    have hreader : codecReader B .gzip data = Feed.eof p := hdecodes
    obtain ⟨access, hwrapper⟩ := detectWrapper_of_not_tar (peekHead_of_eof hreader) hhead
    have hdetect : detect B data = .ok (.wrapper .gzip access) := by
      rw [detect, hnone]
      exact hwrapper
    have hspill : spillWrapperToTemp B data .gzip limits.maxTotalInflated = .ok (.holding p) :=
      (spillWrapperToTemp_eq_ok hcap.le).mpr
        ⟨p, (copied_of_lt hcap).trans hreader, hlen, htemp.takes _, rfl⟩
    exact peelArchiveSeekable_eq_inner.mpr (.inl ⟨.gzip, access, _, hdetect, hspill, rfl⟩)

theorem PeeledInFull.unique {p q : Bytes} (hp : PeeledInFull B data name limits p)
    (hq : PeeledInFull B data name limits q) : p = q := by
  have hsame := hp.peeled.symm.trans hq.peeled
  simpa using hsame

end

/-- Concatenated gzip members are peeled in full exactly when all but the first are empty,
the decoder giving the payload of the first member of its input. -/
theorem gzip_members_iff {B : Backends} {IsMember : Bytes → Bytes → Prop}
    (hfirst : ∀ m p rest, IsMember m p → B.gzDecoder (m ++ rest) = Feed.eof p)
    (first : Bytes × Bytes) (others : List (Bytes × Bytes))
    (hmembers : ∀ m ∈ first :: others, IsMember m.1 m.2) (name : Option String) (limits : Limits)
    (hnone : sniff none ((first :: others).map Prod.fst).flatten = .gzip)
    (hname : sniff name ((first :: others).map Prod.fst).flatten = .gzip)
    (hmax : ((first :: others).map Prod.snd).flatten.length ≤ maxInflated)
    (hlen : ((first :: others).map Prod.snd).flatten.length ≤ limits.maxTotalInflated)
    (hcap : limits.maxTotalInflated < wordMax) (htemp : B.temp.Healthy)
    (hhead : ∀ head, peekHead B .gzip ((first :: others).map Prod.fst).flatten = .ok head →
      sniff none head ≠ .tar) :
    PeeledInFull B ((first :: others).map Prod.fst).flatten name limits
        ((first :: others).map Prod.snd).flatten ↔ ∀ m ∈ others, m.2 = [] := by
  have hdecodes : B.gzDecoder ((first :: others).map Prod.fst).flatten = Feed.eof first.2 :=
    hfirst first.1 first.2 _ (hmembers first List.mem_cons_self)
  have hsum : ((first :: others).map Prod.snd).flatten = first.2 ++ (others.map Prod.snd).flatten := by
    rw [List.map_cons, List.flatten_cons]
  have hshort : first.2.length ≤ ((first :: others).map Prod.snd).flatten.length := by
    rw [hsum, List.length_append]
    exact Nat.le_add_right _ _
  have hpeeled := peeledInFull_of_decodes hnone hname hdecodes (hshort.trans hmax)
    (hshort.trans hlen) hcap htemp (hhead _ (peekHead_of_eof hdecodes))
  have hempty : (others.map Prod.snd).flatten = [] ↔ ∀ m ∈ others, m.2 = [] := by
    rw [List.flatten_eq_nil_iff, List.forall_mem_map]
  rw [← hempty, hsum]
  constructor
  · intro hfull
    exact List.self_eq_append_right.mp (hpeeled.unique hfull)
  · intro hnothing
    rw [hnothing, List.append_nil]
    exact hpeeled

/-- The second of two members of one byte is dropped, and both peels succeed. -/
theorem gzip_members_dropped :
    PeeledInFull gzipReaders (gzipA ++ gzipB) none Limits.default [0x41] ∧
      ¬ PeeledInFull gzipReaders (gzipA ++ gzipB) none Limits.default [0x41, 0x42] := by
  have hpeeled : PeeledInFull gzipReaders (gzipA ++ gzipB) none Limits.default [0x41] :=
    peeledInFull_of_decodes (by decide) (by decide) (by decide +kernel) (by decide) (by decide)
      (by decide) ⟨rfl, rfl, rfl, rfl⟩ (by decide)
  exact ⟨hpeeled, fun hfull => absurd (hpeeled.unique hfull) (by decide)⟩

/-- A member of one byte and an empty one after it. -/
theorem gzip_members_empty_tail :
    PeeledInFull gzipReaders [gzipA, gzipNone].flatten none Limits.default [[0x41], []].flatten := by
  have hfirst : ∀ m p rest, (m, p) ∈ [(gzipA, [0x41]), (gzipNone, [])] →
      gzipReaders.gzDecoder (m ++ rest) = Feed.eof p := by
    intro m p rest hmem
    rw [List.mem_cons, List.mem_singleton, Prod.mk.injEq, Prod.mk.injEq] at hmem
    rcases hmem with ⟨rfl, rfl⟩ | ⟨rfl, rfl⟩
    · rfl
    · rfl
  have hhead : ∀ head, peekHead gzipReaders .gzip [gzipA, gzipNone].flatten = .ok head →
      sniff none head ≠ .tar := by
    intro head hpeek
    have hreader : codecReader gzipReaders .gzip [gzipA, gzipNone].flatten = Feed.eof [0x41] := by
      decide +kernel
    have hdecoded := peekHead_of_eof hreader
    obtain rfl := Except.ok.inj (hdecoded.symm.trans hpeek)
    decide
  have hiff := gzip_members_iff hfirst (gzipA, [0x41]) [(gzipNone, [])] (fun m hm => hm) none
    Limits.default (by decide) (by decide) (by decide) (by decide) (by decide)
    ⟨rfl, rfl, rfl, rfl⟩ hhead
  exact hiff.mpr (by simp)

end ArchiveCore
