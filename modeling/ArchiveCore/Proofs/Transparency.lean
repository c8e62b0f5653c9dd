import ArchiveCore.Core.Images
import ArchiveCore.Proofs.ResolveTree

/-!
# Bare wrappers are transparent

Putting a gzip or bzip2 layer around an image adds one level and one stream to its layer
tree and nothing else, and the extension the layer adds to the name is the one taken off
again. Under limits raised by the same amounts the wrapped image resolves to the same nodes.
-/

namespace ArchiveCore

open Framework

/-- An extension a compressor appends, in any letter case. -/
def WrapperExt (ext : String) : Prop :=
  asciiLower ext.toList = ".gz".toList ∨ asciiLower ext.toList = ".bz2".toList

/-- `Wrapped B data name sizes outer outerName`: bare wrappers around `data`, each sniffed
under its own name; `sizes` are the decoded lengths, the outermost first. -/
inductive Wrapped (B : Backends) (data : Bytes) (name : String) :
    List Nat → Bytes → String → Prop
  | bare : Wrapped B data name [] data name
  | layer {sizes inner innerName outer ext} :
      Wrapped B data name sizes inner innerName →
      WrapperExt ext →
      (sniff (some (innerName ++ ext)) outer).isCompressionWrapper = true →
      wrapperFeed B (sniff (some (innerName ++ ext)) outer) outer = Feed.eof inner →
      inner.length ≤ maxInflated →
      Wrapped B data name (inner.length :: sizes) outer (innerName ++ ext)

theorem stripExt_append {ext : String} (name : String) (h : WrapperExt ext) :
    stripExt (name ++ ext) [".gz", ".bz2", ".z"] = name := by
  have htake : ∀ suffix : String, asciiLower ext.toList = suffix.toList →
      String.ofList ((name ++ ext).toList.take
        ((name ++ ext).toList.length - suffix.toList.length)) = name := by
    intro suffix hs
    have hlen : suffix.toList.length = ext.toList.length := by rw [← hs, asciiLower_length]
    simp [hlen]
  have hlower : asciiLower (name ++ ext).toList = asciiLower name.toList ++ asciiLower ext.toList := by
    simp
  rcases h with hgz | hbz2
  · rw [stripExt, hlower, hgz, if_pos (endsWith_append _ _), htake _ hgz]
  · have hnot : ¬ endsWith (asciiLower (name ++ ext).toList) ".gz".toList = true := by
      intro hgz
      rw [hlower, hbz2] at hgz
      have hshort := endsWith_trans_of_length_le hgz (endsWith_append _ _) (by decide)
      exact absurd hshort (by decide)
    rw [stripExt, if_neg hnot, stripExt, hlower, hbz2, if_pos (endsWith_append _ _), htake _ hbz2]

/-- The layer tree of a wrapper is the tree of what it wraps, one level down. -/
theorem layerTree_wrapper {B : Backends} {outer inner : Bytes} {name : Option String}
    {format : Format} (h : peelBytes B outer name = .ok (.peeled format inner))
    {tree : Forest Node} :
    LayerTree B (outer, name) tree ↔
      ∃ below, LayerTree B (inner, stripCompressionExt name) below ∧
        tree = .child false inner.length below .nil := by
  have hwrap : (sniff name outer).isCompressionWrapper = true := by
    obtain ⟨rfl, hwrap, -⟩ := peelBytes_eq_peeled.mp h
    exact hwrap
  have hlayers : layers B (outer, name) = .ok [peeledPart name inner] := by
    rw [layers_of_wrapper hwrap, h]
    rfl
  constructor
  · intro hunfolds
    obtain ⟨parts, hparts, htree⟩ := hunfolds
    obtain rfl := Except.ok.inj (hlayers.symm.trans hparts)
    cases htree with
    | child hexpand hinside hrest =>
      cases hrest
      exact ⟨_, ⟨_, hexpand, hinside⟩, rfl⟩
  · intro hbelow
    obtain ⟨below, ⟨parts, hexpand, hinside⟩, rfl⟩ := hbelow
    exact ⟨_, hlayers, .child hexpand hinside .nil⟩

theorem withinLimits_wrapper {inner outer : Limits} {size : Nat} (tree : Forest Node)
    (hdepth : outer.maxDepth = inner.maxDepth + 1)
    (hinflated : outer.maxTotalInflated = inner.maxTotalInflated + size)
    (hentries : outer.maxEntries = inner.maxEntries)
    (hroom : outer.maxTotalInflated < wordMax) :
    WithinLimits outer (.child false size tree .nil) ↔ WithinLimits inner tree := by
  have hcost : min (size + tree.totalCost) wordMax ≤ outer.maxTotalInflated ↔
      min tree.totalCost wordMax ≤ inner.maxTotalInflated := by omega
  have hheight : max (tree.height + 1) 0 ≤ outer.maxDepth ↔ tree.height ≤ inner.maxDepth := by omega
  constructor
  · intro h
    obtain ⟨hd, hn, hc⟩ := h
    simp only [Forest.height, Forest.totalCount, Forest.totalCost, Bool.toNat_false, Nat.zero_add,
      Nat.add_zero] at hd hn hc
    exact ⟨hheight.mp hd, hentries ▸ hn, hcost.mp hc⟩
  · intro h
    obtain ⟨hd, hn, hc⟩ := h
    refine ⟨hheight.mpr hd, ?_, ?_⟩
    · simpa [Forest.totalCount, hentries] using hn
    · simpa [Forest.totalCost] using hcost.mpr hc

theorem resolve_peeled {B : Backends} {outer inner : Bytes} {name : Option String}
    {format : Format} (limits raised : Limits) {nodes : List Node}
    (hpeel : peelBytes B outer name = .ok (.peeled format inner))
    (hdepth : raised.maxDepth = limits.maxDepth + 1)
    (hinflated : raised.maxTotalInflated = limits.maxTotalInflated + inner.length)
    (hentries : raised.maxEntries = limits.maxEntries)
    (hroom : raised.maxTotalInflated < wordMax) :
    resolve B outer name raised = .ok nodes ↔
      resolve B inner (stripCompressionExt name) limits = .ok nodes := by
  have hlimits := fun tree => withinLimits_wrapper tree hdepth hinflated hentries hroom
  simp only [resolve_eq_ok, layerTree_wrapper hpeel]
  constructor
  · intro h
    obtain ⟨_, ⟨tree, htree, rfl⟩, hwithin, rfl⟩ := h
    exact ⟨tree, htree, (hlimits tree).mp hwithin, by simp [Forest.notes]⟩
  · intro h
    obtain ⟨tree, htree, hwithin, rfl⟩ := h
    exact ⟨_, ⟨tree, htree, rfl⟩, (hlimits tree).mpr hwithin, by simp [Forest.notes]⟩

theorem resolve_wrapper {B : Backends} {outer inner : Bytes} {name ext : String}
    {format : Format} (limits raised : Limits) {nodes : List Node} (hext : WrapperExt ext)
    (hpeel : peelBytes B outer (some (name ++ ext)) = .ok (.peeled format inner))
    (hdepth : raised.maxDepth = limits.maxDepth + 1)
    (hinflated : raised.maxTotalInflated = limits.maxTotalInflated + inner.length)
    (hentries : raised.maxEntries = limits.maxEntries)
    (hroom : raised.maxTotalInflated < wordMax) :
    resolve B outer (some (name ++ ext)) raised = .ok nodes ↔
      resolve B inner (some name) limits = .ok nodes := by
  have hname : stripCompressionExt (some (name ++ ext)) = some name :=
    congrArg some (stripExt_append name hext)
  rw [resolve_peeled limits raised hpeel hdepth hinflated hentries hroom, hname]

/-- An image inside any stack of bare wrappers resolves to what it resolves to by itself,
under limits raised by the levels and the decoded lengths of the stack. -/
theorem resolve_wrapped {B : Backends} {data outer : Bytes} {name outerName : String}
    {sizes : List Nat} (limits raised : Limits)
    (hwrapped : Wrapped B data name sizes outer outerName)
    (hdepth : raised.maxDepth = limits.maxDepth + sizes.length)
    (hinflated : raised.maxTotalInflated = limits.maxTotalInflated + sizes.sum)
    (hentries : raised.maxEntries = limits.maxEntries)
    (hroom : raised.maxTotalInflated < wordMax) (nodes : List Node) :
    resolve B outer (some outerName) raised = .ok nodes ↔
      resolve B data (some name) limits = .ok nodes := by
  induction hwrapped generalizing raised with
  | bare =>
    have hwithin : ∀ tree, WithinLimits raised tree ↔ WithinLimits limits tree := by
      intro tree
      simp only [List.length_nil, List.sum_nil, Nat.add_zero] at hdepth hinflated
      constructor
      · intro h
        obtain ⟨hd, hn, hc⟩ := h
        exact ⟨hdepth ▸ hd, hentries ▸ hn, hinflated ▸ hc⟩
      · intro h
        obtain ⟨hd, hn, hc⟩ := h
        exact ⟨hdepth ▸ hd, hentries ▸ hn, hinflated ▸ hc⟩
    simp only [resolve_eq_ok, hwithin]
  | @layer sizes inner innerName outer ext hinner hext hformat hfeed hlen ih =>
    simp only [List.length_cons, List.sum_cons] at hdepth hinflated
    have hpeel := peelBytes_eq_peeled.mpr ⟨rfl, hformat, hfeed, hlen⟩
    -- what is left of the raised limits below this layer
    have hd := raised.maxDepth_le
    have hc := raised.maxTotalInflated_le
    let below : Limits :=
      { limits with
        maxDepth := limits.maxDepth + sizes.length
        maxTotalInflated := limits.maxTotalInflated + sizes.sum
        maxDepth_le := by omega
        maxTotalInflated_le := by omega }
    rw [resolve_wrapper below raised hext hpeel (by simp only [below]; omega)
      (by simp only [below]; omega) hentries hroom]
    exact ih below rfl rfl rfl (by simp only [below]; omega)

/-- The gzip member of the byte `A` inside a bzip2 stream. -/
def gzipBzip2 : Bytes := [
  0x42, 0x5A, 0x68, 0x39, 0x31, 0x41, 0x59, 0x26, 0x53, 0x59, 0xD5, 0x77, 0x70, 0x6C, 0x00, 0x00,
  0x06, 0xE0, 0xE2, 0xF4, 0x40, 0x00, 0x00, 0x88, 0x00, 0x00, 0x08, 0x00, 0x01, 0x08, 0x20, 0x00,
  0x00, 0xA0, 0x00, 0x22, 0x0C, 0x53, 0x46, 0x9E, 0x84, 0x0D, 0x03, 0x41, 0x50, 0xA8, 0x85, 0x80,
  0xF7, 0xC5, 0xE0, 0x2D, 0xBD, 0x17, 0x72, 0x45, 0x38, 0x50, 0x90, 0xD5, 0x77, 0x70, 0x6C]

def nestedReaders : Backends :=
  { gzipReaders with
    bzDecoder := fun data =>
      if data = gzipBzip2 then Feed.eof gzipA else ⟨[], some "bzip2: bz2 header missing"⟩ }

theorem nested_wrapped :
    Wrapped nestedReaders [0x41] "a" [21, 1] gzipBzip2 ("a" ++ ".GZ" ++ ".bz2") := by
  have hgzip : Wrapped nestedReaders [0x41] "a" [1] gzipA ("a" ++ ".GZ") :=
    .layer .bare (.inl (by decide)) (by decide) (by decide) (by decide)
  exact .layer hgzip (.inr (by decide)) (by decide) (by decide) (by decide)

theorem resolve_wrapped_nested :
    resolve nestedReaders gzipBzip2 (some ("a" ++ ".GZ" ++ ".bz2"))
      { maxDepth := 2, maxTotalInflated := 22, maxEntries := 0, maxIndexBytes := 0 } =
        .ok [.file "a" [0x41]] :=
  (resolve_wrapped
    { maxDepth := 0, maxTotalInflated := 0, maxEntries := 0, maxIndexBytes := 0 }
    { maxDepth := 2, maxTotalInflated := 22, maxEntries := 0, maxIndexBytes := 0 }
    nested_wrapped rfl rfl rfl (by decide) _).mpr (by decide +kernel)

end ArchiveCore
