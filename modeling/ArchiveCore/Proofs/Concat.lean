import ArchiveCore.Core.Reassemble
import ArchiveCore.Framework.Calls
import ArchiveCore.Proofs.Handles

/-!
# The stitched image is a cursor over the concatenation

Each segment's handle stands at a position of its own; the invariant only says which bytes
it serves and where they lie. Every read seeks the handle first, so the positions left
behind by earlier reads do not matter. Where a position lies depends on the lengths alone.
-/

namespace ArchiveCore

open Framework

/-- The segments have these lengths and lie one after another from zero on, their end being
a word. -/
structure Laid (segs : List ConcatSeg) (lens : List Nat) : Prop where
  length : segs.length = lens.length
  seg : ∀ i seg, segs[i]? = some seg → lens[i]? = some seg.len ∧ seg.start = runStart lens i
  word : lens.sum ≤ wordMax

theorem Laid.seg_end {segs : List ConcatSeg} {lens : List Nat} (h : Laid segs lens) {i : Nat}
    {seg : ConcatSeg} (hseg : segs[i]? = some seg) :
    seg.start + seg.len = runStart lens (i + 1) ∧ seg.start + seg.len ≤ wordMax := by
  obtain ⟨hlen, hstart⟩ := h.seg i seg hseg
  have hend : seg.start + seg.len = runStart lens (i + 1) := by rw [hstart, runStart_succ hlen]
  exact ⟨hend, hend ▸ (runStart_le lens (i + 1)).trans h.word⟩

theorem Laid.before {segs : List ConcatSeg} {lens : List Nat} (h : Laid segs lens) {i : Nat}
    (hi : i < segs.length) (pos : Nat) :
    segs[i]?.any (fun s => decide (wrapAdd s.start s.len ≤ pos)) = true ↔
      runStart lens (i + 1) ≤ pos := by
  obtain ⟨hend, hword⟩ := h.seg_end (List.getElem?_eq_getElem hi)
  rw [List.getElem?_eq_getElem hi, Option.any_some, decide_eq_true_eq, wrapAdd_eq hword, hend]

theorem Laid.segAt_eq {c : ConcatSource} {lens : List Nat} (h : Laid c.segs lens) {pos : Nat}
    (hpos : pos < lens.sum) :
    ∃ i seg, c.segAt pos = some i ∧ c.segs[i]? = some seg ∧ runStart lens i ≤ pos ∧
      pos < runStart lens (i + 1) := by
  have hpart : Partitioned
      (fun i => c.segs[i]?.any (fun s => decide (wrapAdd s.start s.len ≤ pos))) c.segs.length := by
    intro i j hij hj hjtrue
    have hle := (h.before hj pos).mp hjtrue
    exact (h.before (hij.trans_lt hj) pos).mpr ((runStart_mono lens (by omega)).trans hle)
  obtain ⟨hbound, hlow, hhigh⟩ := partitionPoint_spec hpart
  rw [ConcatSource.segAt]
  generalize partitionPoint (fun s => decide (wrapAdd s.start s.len ≤ pos)) c.segs = i at *
  have hstart : runStart lens i ≤ pos := by
    cases i with
    | zero => exact Nat.zero_le pos
    | succ i => exact (h.before (by omega) pos).mp (hlow i (by omega))
  have hi : i < c.segs.length := by
    by_contra hnot
    have hlast : i = lens.length := by
      have := h.length
      omega
    rw [hlast, runStart_length] at hstart
    omega
  have hend : ¬ runStart lens (i + 1) ≤ pos := by
    rw [← h.before hi pos, hhigh i le_rfl hi]
    exact Bool.false_ne_true
  exact ⟨i, _, if_pos hi, List.getElem?_eq_getElem hi, hstart, Nat.lt_of_not_le hend⟩

theorem forall_set_source {segs : List ConcatSeg} {i : Nat} {seg : ConcatSeg}
    {source : PeeledSource} {P : Nat → ConcatSeg → Prop} (hseg : segs[i]? = some seg)
    (hall : ∀ j other, segs[j]? = some other → P j other) (hone : P i { seg with source }) :
    ∀ j other, (segs.set i { seg with source })[j]? = some other → P j other := by
  intro j other hj
  by_cases hij : i = j
  · subst hij
    rw [List.getElem?_set_self (List.getElem?_eq_some_iff.mp hseg).1] at hj
    exact Option.some.inj hj ▸ hone
  · rw [List.getElem?_set_ne hij] at hj
    exact hall j other hj

theorem Laid.set {segs : List ConcatSeg} {lens : List Nat} (h : Laid segs lens) {i : Nat}
    {seg : ConcatSeg} (hseg : segs[i]? = some seg) (source : PeeledSource) :
    Laid (segs.set i { seg with source }) lens where
  length := by rw [List.length_set, h.length]
  seg := forall_set_source hseg h.seg (h.seg i seg hseg)
  word := h.word

theorem place_end (sources : List PeeledSource) {start : Nat} (hstart : start ≤ wordMax) :
    (ConcatSource.place start sources).2 = satAdd start (sources.map PeeledSource.len).sum := by
  induction sources generalizing start with
  | nil => exact (satAdd_zero hstart).symm
  | cons source sources ih =>
    rw [List.map_cons, List.sum_cons, ← satAdd_assoc]
    exact ih (satAdd_le_wordMax _ _)

theorem new_total (sources : List PeeledSource) :
    (ConcatSource.new sources).total = min (sources.map PeeledSource.len).sum wordMax := by
  have hend := place_end sources (Nat.zero_le wordMax)
  rwa [satAdd, Nat.zero_add] at hend

theorem place_spec (start : Nat) (sources : List PeeledSource)
    (hword : start + (sources.map PeeledSource.len).sum ≤ wordMax) :
    (ConcatSource.place start sources).1.length = sources.length ∧
      ∀ i seg, (ConcatSource.place start sources).1[i]? = some seg →
        sources[i]? = some seg.source ∧ seg.len = seg.source.len ∧
          seg.start = start + runStart (sources.map PeeledSource.len) i := by
  induction sources generalizing start with
  | nil => simp [ConcatSource.place]
  | cons source sources ih =>
    rw [List.map_cons, List.sum_cons] at hword
    rw [List.map_cons]
    obtain ⟨hlength, hsegs⟩ := ih (start + source.len) (by omega)
    simp only [ConcatSource.place, satAdd_eq (by omega : start + source.len ≤ wordMax),
      List.length_cons, hlength]
    refine ⟨trivial, ?_⟩
    intro i seg hi
    cases i with
    | zero =>
      obtain rfl := Option.some.inj hi
      exact ⟨rfl, rfl, rfl⟩
    | succ i =>
      obtain ⟨hsource, hlen, hstart⟩ := hsegs i seg hi
      refine ⟨hsource, hlen, ?_⟩
      rw [hstart, runStart_cons, Nat.add_assoc]

theorem laid_new {sources : List PeeledSource}
    (hword : (sources.map PeeledSource.len).sum ≤ wordMax) :
    Laid (ConcatSource.new sources).segs (sources.map PeeledSource.len) ∧
      (ConcatSource.new sources).total = (sources.map PeeledSource.len).sum ∧
      ∀ (i : Nat) (seg : ConcatSeg), (ConcatSource.new sources).segs[i]? = some seg →
        sources[i]? = some seg.source := by
  obtain ⟨hlength, hsegs⟩ := place_spec 0 sources (by omega)
  have htotal := new_total sources
  rw [Nat.min_eq_left hword] at htotal
  refine ⟨⟨by rw [List.length_map]; exact hlength, ?_, hword⟩, htotal, fun i seg hi => (hsegs i seg hi).1⟩
  intro i seg hi
  obtain ⟨hsource, hlen, hstart⟩ := hsegs i seg hi
  exact ⟨by rw [List.getElem?_map, hsource, Option.map_some, hlen], by rw [hstart, Nat.zero_add]⟩

/-- The segments serve `chunks`, laid out by their lengths, and the position is within them. -/
structure Served (holds : PeeledSource → Bytes → Prop) (c : ConcatSource) (chunks : List Bytes) :
    Prop where
  laid : Laid c.segs (chunks.map List.length)
  seg : ∀ (i : Nat) (seg : ConcatSeg), c.segs[i]? = some seg →
    ∃ b, chunks[i]? = some b ∧ holds seg.source b
  total : c.total = chunks.flatten.length
  pos : c.pos ≤ chunks.flatten.length

section Served

variable {holds : PeeledSource → Bytes → Prop} {c : ConcatSource} {chunks : List Bytes}

theorem Served.word (h : Served holds c chunks) : chunks.flatten.length ≤ wordMax := by
  rw [List.length_flatten]
  exact h.laid.word

theorem Served.segAt_eq (h : Served holds c chunks) {pos : Nat}
    (hpos : pos < chunks.flatten.length) :
    ∃ i seg b, c.segAt pos = some i ∧ c.segs[i]? = some seg ∧ chunks[i]? = some b ∧
      seg.len = b.length ∧ seg.start = offset chunks i ∧ holds seg.source b ∧
      offset chunks i ≤ pos ∧ pos < offset chunks i + b.length := by
  rw [List.length_flatten] at hpos
  obtain ⟨i, seg, hat, hseg, hlow, hhigh⟩ := h.laid.segAt_eq hpos
  obtain ⟨b, hb, hholds⟩ := h.seg i seg hseg
  obtain ⟨hlen, hstart⟩ := h.laid.seg i seg hseg
  rw [List.getElem?_map, hb] at hlen
  rw [← offset_eq_runStart] at hlow hhigh hstart
  rw [offset_succ hb] at hhigh
  exact ⟨i, seg, b, hat, hseg, hb, (Option.some.inj hlen).symm, hstart, hholds, hlow, hhigh⟩

theorem readSegment_eq (hserves : PeeledSource.readSeek.Serves holds) {seg : ConcatSeg} {b : Bytes}
    (pos want : Nat) (hlen : seg.len = b.length) (hholds : holds seg.source b)
    (hlow : seg.start ≤ pos) (hhigh : pos < seg.start + b.length)
    (hword : seg.start + b.length ≤ wordMax) (hwant : 0 < want) :
    ∃ n source, ConcatSource.readSegment seg pos want =
        .ok ((b.drop (pos - seg.start)).take n, { seg with source }) ∧
      0 < n ∧ n ≤ want ∧ n ≤ b.length - (pos - seg.start) ∧ holds source b := by
  have hlocal : wrapSub pos seg.start = pos - seg.start := wrapSub_eq hlow (by omega)
  have havail : wrapSub seg.len (pos - seg.start) = b.length - (pos - seg.start) := by
    rw [hlen]
    exact wrapSub_eq (by omega) (by omega)
  have hplace : (UInt64.ofNat (pos - seg.start)).toNat = pos - seg.start :=
    toNat_ofNat_word (by omega)
  obtain ⟨p, source, hseek, hread⟩ :=
    hserves seg.source b (UInt64.ofNat (pos - seg.start)) hholds (by rw [hplace]; omega)
  rw [hplace] at hread
  obtain ⟨n, source', hread, hn, hle, hholds'⟩ :=
    hread (min want (b.length - (pos - seg.start))) (by omega) (Nat.min_le_right _ _)
  refine ⟨n, source', ?_, hn, by omega, by omega, hholds'⟩
  simp only [ConcatSource.readSegment, hlocal, havail, bind_eq_ok, pure_eq_ok]
  exact ⟨_, hseek, _, hread, rfl⟩

theorem Served.advance (h : Served holds c chunks) {i pos : Nat} {seg : ConcatSeg}
    {source : PeeledSource} {b : Bytes} (hseg : c.segs[i]? = some seg) (hb : chunks[i]? = some b)
    (hholds : holds source b) (hpos : pos ≤ chunks.flatten.length) :
    Served holds { c with segs := c.segs.set i { seg with source }, pos } chunks where
  laid := h.laid.set hseg source
  seg := forall_set_source hseg h.seg ⟨b, hb, hholds⟩
  total := h.total
  pos := hpos

theorem Served.moved (h : Served holds c chunks) {pos : Nat} (hpos : pos ≤ chunks.flatten.length) :
    Served holds { c with pos } chunks :=
  ⟨h.laid, h.seg, h.total, hpos⟩

theorem Served.read (hserves : PeeledSource.readSeek.Serves holds) (h : Served holds c chunks)
    {want : Nat} (hwant : 0 < want) (hpos : c.pos < chunks.flatten.length) :
    ∃ n c', c.read want = .ok ((⟨chunks.flatten, c.pos⟩ : Cursor UInt8).rest.take n, c') ∧
      0 < n ∧ n ≤ want ∧ n ≤ (⟨chunks.flatten, c.pos⟩ : Cursor UInt8).rest.length ∧
      (∀ j, offset chunks j ≤ c.pos ∨ c.pos + n ≤ offset chunks j) ∧ c'.pos = c.pos + n ∧
      Served holds c' chunks := by
  have htotal := h.total
  have hword := h.word
  have hdone : ¬ (want = 0 ∨ c.total ≤ c.pos) := by omega
  obtain ⟨i, seg, b, hat, hseg, hb, hlen, hstart, hholds, hlow, hhigh⟩ := h.segAt_eq hpos
  have hend := offset_succ hb
  have hfit := offset_le chunks (i + 1)
  obtain ⟨n, source, hread, hn, hle, havail, hholds'⟩ :=
    readSegment_eq hserves c.pos want hlen hholds (by omega) (by omega) (by omega) hwant
  have hrun : (b.drop (c.pos - seg.start)).take n =
      (⟨chunks.flatten, c.pos⟩ : Cursor UInt8).rest.take n := by
    rw [Cursor.rest, drop_flatten hb hlow hhigh.le, hstart, List.take_append_of_le_length]
    rw [List.length_drop]
    omega
  have hcount : ((b.drop (c.pos - seg.start)).take n).length = n := by
    rw [List.length_take, List.length_drop]
    omega
  have hsat : satAdd c.pos n = c.pos + n := satAdd_eq (by omega)
  refine ⟨n, { c with segs := c.segs.set i { seg with source }, pos := c.pos + n }, ?_, hn, hle,
    ?_, ?_, rfl, h.advance hseg hb hholds' (by omega)⟩
  · simp only [ConcatSource.read, hdone, if_false, hat, hseg, bind_eq_ok, pure_eq_ok]
    exact ⟨_, hread, by rw [hcount, hsat, hrun]⟩
  · change n ≤ (chunks.flatten.drop c.pos).length
    rw [List.length_drop]
    omega
  · intro j
    rcases Nat.lt_or_ge i j with hij | hij
    · right
      have hnext := offset_mono chunks hij
      rw [Nat.succ_eq_add_one] at hnext
      omega
    · left
      exact (offset_mono chunks hij).trans hlow

theorem Served.read_done (h : Served holds c chunks) {want : Nat}
    (hdone : want = 0 ∨ c.pos = chunks.flatten.length) : c.read want = .ok ([], c) := by
  rw [ConcatSource.read, if_pos]
  rw [h.total]
  exact hdone.imp_right Eq.ge

theorem Served.seek_refused (h : Served holds c chunks) {origin : SeekFrom}
    (hc : (⟨chunks.flatten, c.pos⟩ : Cursor UInt8).seek origin = none) :
    ∃ e, c.seek origin = .error e := by
  obtain ⟨e, he⟩ := seekTarget_of_refused h.word (h.pos.trans h.word) hc
  have hseek : seekTarget c.total c.pos origin = .error e := by
    rw [h.total]
    exact he
  exact ⟨e, by simp [ConcatSource.seek, hseek]⟩

theorem Served.seek_moved (h : Served holds c chunks) {origin : SeekFrom} {c' : Cursor UInt8}
    (hc : (⟨chunks.flatten, c.pos⟩ : Cursor UInt8).seek origin = some c') :
    ∃ pos ≤ chunks.flatten.length, c.seek origin = .ok (pos, { c with pos }) ∧
      c' = ⟨chunks.flatten, pos⟩ := by
  obtain ⟨target, htarget, rfl⟩ := seekTarget_of_moved h.word (h.pos.trans h.word) hc
  refine ⟨min target chunks.flatten.length, Nat.min_le_right _ _, ?_, rfl⟩
  simp only [ConcatSource.seek, h.total, bind_eq_ok, pure_eq_ok]
  exact ⟨target, htarget, rfl⟩

theorem served_new {sources : List PeeledSource}
    (hholds : List.Forall₂ (fun source b => holds source b ∧ source.len = b.length) sources chunks)
    (hword : chunks.flatten.length ≤ wordMax) : Served holds (ConcatSource.new sources) chunks := by
  have hlens : sources.map PeeledSource.len = chunks.map List.length := by
    rw [← List.forall₂_eq_eq_eq, List.forall₂_map_left_iff, List.forall₂_map_right_iff]
    exact hholds.imp fun _ _ h => h.2
  rw [List.length_flatten] at hword
  obtain ⟨hlaid, htotal, hsegs⟩ := laid_new (hlens ▸ hword)
  rw [hlens] at hlaid htotal
  refine ⟨hlaid, ?_, by rw [htotal, List.length_flatten], Nat.zero_le _⟩
  intro i seg hi
  have hsource := hsegs i seg hi
  obtain ⟨hlt, -⟩ := List.getElem?_eq_some_iff.mp hsource
  have hboth := hholds.get hlt (hholds.length_eq ▸ hlt)
  exact ⟨_, List.getElem?_eq_getElem (hholds.length_eq ▸ hlt),
    by simpa [(List.getElem?_eq_some_iff.mp hsource).2] using hboth.1⟩

end Served

/-- The handle shows `b`, wherever it stands in it. -/
def Shows (source : PeeledSource) (b : Bytes) : Prop := ∃ pos, View source ⟨b, pos⟩

theorem serves_shows : PeeledSource.readSeek.Serves Shows := by
  intro source b place h hplace
  obtain ⟨p, hview⟩ := h
  have hword : (place.toNat : Int) ≤ wordMax := by exact_mod_cast toNat_le_wordMax place
  have hseek : (⟨b, p⟩ : Cursor UInt8).seek (.start place) = some ⟨b, place.toNat⟩ := by
    simp [Cursor.seek, SeekFrom.target, hword, hplace.le]
  have hnot : NotPastEnd ⟨b, p⟩ (.start place) := by
    left
    simp only [SeekFrom.target]
    omega
  obtain ⟨source', hsource, hview'⟩ := view_refines.move hview ⟨trivial, hnot⟩ hseek
  refine ⟨_, source', hsource, ?_⟩
  intro want hwant _
  obtain ⟨n, source'', hread, hle, hprogress, hview''⟩ := view_refines.read want hview'
  exact ⟨n, source'', hread, hprogress hwant, hle, _, hview''⟩

/-- The segments hold `chunks`, each placed at its offset. -/
structure Stitched (c : ConcatSource) (chunks : List Bytes) : Prop where
  length : c.segs.length = chunks.length
  seg : ∀ i seg, c.segs[i]? = some seg → ∃ b pos, chunks[i]? = some b ∧ seg.len = b.length ∧
    seg.start = offset chunks i ∧ View seg.source ⟨b, pos⟩
  total : c.total = chunks.flatten.length
  word : chunks.flatten.length ≤ wordMax
  pos : c.pos ≤ chunks.flatten.length

theorem stitched_iff {c : ConcatSource} {chunks : List Bytes} :
    Stitched c chunks ↔ Served Shows c chunks := by
  constructor
  · intro h
    refine ⟨⟨by rw [List.length_map, h.length], ?_, List.length_flatten ▸ h.word⟩, ?_, h.total, h.pos⟩
    · intro i seg hi
      obtain ⟨b, p, hb, hlen, hstart, -⟩ := h.seg i seg hi
      exact ⟨by rw [List.getElem?_map, hb, Option.map_some, hlen],
        by rw [hstart, offset_eq_runStart]⟩
    · intro i seg hi
      obtain ⟨b, p, hb, -, -, hview⟩ := h.seg i seg hi
      exact ⟨b, hb, p, hview⟩
  · intro h
    refine ⟨by rw [h.laid.length, List.length_map], ?_, h.total, h.word, h.pos⟩
    intro i seg hi
    obtain ⟨b, hb, p, hview⟩ := h.seg i seg hi
    obtain ⟨hlen, hstart⟩ := h.laid.seg i seg hi
    rw [List.getElem?_map, hb] at hlen
    exact ⟨b, p, hb, (Option.some.inj hlen).symm, by rw [hstart, offset_eq_runStart], hview⟩

/-- The stitched image, at a cursor. -/
def ConcatView (c : ConcatSource) (cursor : Cursor UInt8) : Prop :=
  ∃ chunks, Stitched c chunks ∧ cursor = ⟨chunks.flatten, c.pos⟩

theorem ConcatView.len {c : ConcatSource} {cursor : Cursor UInt8} (h : ConcatView c cursor) :
    c.len = cursor.items.length := by
  obtain ⟨chunks, hstitched, rfl⟩ := h
  exact hstitched.total

theorem concat_refines : ConcatSource.readSeek.Refines ConcatView fun _ _ => True where
  read := by
    intro c _ want h
    obtain ⟨chunks, h, rfl⟩ := h
    have hserved := stitched_iff.mp h
    by_cases hdone : want = 0 ∨ c.pos = chunks.flatten.length
    · have hnone : (⟨chunks.flatten, c.pos⟩ : Cursor UInt8).rest.take want = [] := by
        rcases hdone with rfl | hend
        · exact List.take_zero
        · rw [Cursor.rest, List.drop_eq_nil_of_le hend.ge, List.take_nil]
      refine ⟨want, c, ?_, le_rfl, id, ?_⟩
      · rw [hnone]
        exact hserved.read_done hdone
      · rw [hnone]
        exact ⟨chunks, h, rfl⟩
    · have hpos := h.pos
      obtain ⟨n, c', hread, hn, hle, hleft, -, hmoved, hserved'⟩ :=
        hserved.read serves_shows (by omega : 0 < want) (by omega)
      refine ⟨n, c', hread, hle, fun _ => hn, chunks, stitched_iff.mpr hserved', ?_⟩
      rw [List.length_take, Nat.min_eq_left hleft, Cursor.advance, hmoved]
  refuse := by
    intro c _ origin h _ hc
    obtain ⟨chunks, h, rfl⟩ := h
    exact (stitched_iff.mp h).seek_refused hc
  move := by
    intro c _ c' origin h _ hc
    obtain ⟨chunks, h, rfl⟩ := h
    have hserved := stitched_iff.mp h
    obtain ⟨pos, hpos, hseek, rfl⟩ := hserved.seek_moved hc
    exact ⟨_, hseek, chunks, stitched_iff.mpr (hserved.moved hpos), rfl⟩

theorem concat_new {sources : List PeeledSource} {chunks : List Bytes}
    (hholds : List.Forall₂ PeeledSource.Holds sources chunks)
    (hword : chunks.flatten.length ≤ wordMax) :
    ConcatView (ConcatSource.new sources) (Cursor.start chunks.flatten) :=
  ⟨chunks, stitched_iff.mpr (served_new (hholds.imp fun _ _ h => ⟨⟨0, h⟩, h.len⟩) hword), rfl⟩

end ArchiveCore
