import ArchiveCore.Proofs.Concat

/-!
# Single calls on a stitched source

Whatever the segments are, as long as each can be read at any place of its bytes, the
stitched source answers every sequence of calls as a cursor over the concatenation may. A
read stops at the end of a segment, and a segment of no bytes is never read.
-/

namespace ArchiveCore

open Framework

/-- The ends of the segments are words, and short of the end a segment is found whose start
can be taken from the position and the offset in it from its length. -/
structure ConcatSource.Exact (c : ConcatSource) : Prop where
  ends : ∀ seg ∈ c.segs, seg.start + seg.len ≤ wordMax
  found : c.pos < c.total → ∃ i seg, c.segAt c.pos = some i ∧ c.segs[i]? = some seg ∧
    seg.start ≤ c.pos ∧ c.pos - seg.start ≤ seg.len

theorem Laid.exact {c : ConcatSource} {lens : List Nat} (h : Laid c.segs lens)
    (htotal : c.total = lens.sum) : c.Exact where
  ends := by
    intro seg hseg
    obtain ⟨i, hi⟩ := List.mem_iff_getElem?.mp hseg
    exact (h.seg_end hi).2
  found := by
    intro hpos
    obtain ⟨i, seg, hat, hseg, hlow, hhigh⟩ := h.segAt_eq (htotal ▸ hpos)
    have hstart := (h.seg i seg hseg).2
    have hend := (h.seg_end hseg).1
    exact ⟨i, seg, hat, hseg, by omega, by omega⟩

section Served

variable {holds : PeeledSource → Bytes → Prop} {chunks : List Bytes}

theorem Served.brings (hserves : PeeledSource.readSeek.Serves holds) {c : ConcatSource}
    (h : Served holds c chunks) (want : Nat) :
    ∃ n c', c.read want = .ok ((⟨chunks.flatten, c.pos⟩ : Cursor UInt8).rest.take n, c') ∧
      Cursor.WithinChunk chunks ⟨chunks.flatten, c.pos⟩ want n ∧ c'.pos = c.pos + n ∧
      Served holds c' chunks := by
  by_cases hdone : want = 0 ∨ c.pos = chunks.flatten.length
  · refine ⟨0, c, h.read_done hdone, ⟨Nat.zero_le _, Nat.zero_le _, by simpa using hdone, ?_⟩, rfl, h⟩
    intro i
    exact Nat.le_total _ _
  · have hpos := h.pos
    obtain ⟨n, c', hread, hn, hle, hleft, huncut, hmoved, hserved⟩ :=
      h.read hserves (by omega : 0 < want) (by omega)
    refine ⟨n, c', hread, ⟨hle, hleft, ?_, huncut⟩, hmoved, hserved⟩
    simp only [hdone, iff_false]
    omega

theorem served_answers (hserves : PeeledSource.readSeek.Serves holds) :
    ConcatSource.readSeek.Answers
      (fun c cursor => Served holds c chunks ∧ cursor = ⟨chunks.flatten, c.pos⟩)
      (Cursor.WithinChunk chunks) := by
  apply ReadSeek.Answers.of_calls
  · intro c cursor origin h hc
    obtain ⟨hserved, rfl⟩ := h
    exact hserved.seek_refused hc
  · intro c cursor cursor' origin h hc
    obtain ⟨hserved, rfl⟩ := h
    obtain ⟨pos, hpos, hseek, rfl⟩ := hserved.seek_moved hc
    exact ⟨_, hseek, hserved.moved hpos, rfl⟩
  · intro c cursor want h
    obtain ⟨hserved, rfl⟩ := h
    obtain ⟨n, c', hread, hwithin, hmoved, hserved'⟩ := hserved.brings hserves want
    exact ⟨n, c', hread, hwithin, hserved', by rw [Cursor.advance, hmoved]⟩

end Served

/-- Sources that serve `chunks` stitch into a cursor over their concatenation, and no state
it reaches needs an arm that is out of range. -/
theorem concat_bounded_cursor {holds : PeeledSource → Bytes → Prop} {sources : List PeeledSource}
    {chunks : List Bytes} (hserves : PeeledSource.readSeek.Serves holds)
    (hholds : List.Forall₂ (fun source b => holds source b ∧ source.len = b.length) sources chunks)
    (hword : chunks.flatten.length ≤ wordMax) (calls : List Call) :
    (Cursor.start chunks.flatten).Run (Cursor.WithinChunk chunks) calls
        (ConcatSource.readSeek.answers (ConcatSource.new sources) calls) ∧
      (ConcatSource.readSeek.after (ConcatSource.new sources) calls).Exact := by
  have hnew : Served holds (ConcatSource.new sources) chunks := served_new hholds hword
  refine ⟨(served_answers hserves).run ⟨hnew, rfl⟩ calls, ?_⟩
  obtain ⟨cursor, hserved, -⟩ := (served_answers hserves).after ⟨hnew, rfl⟩ calls
  exact hserved.laid.exact (hserved.total.trans List.length_flatten)

/-- Windows over two bytes, none and one, read across the boundary. -/
theorem concat_bounded_cursor_windows :
    (Cursor.start [0x41, 0x42, 0x43]).Run
        (Cursor.WithinChunk [[0x41, 0x42], [], [0x43]]) [.seek (.start 1), .read 4, .read 4, .read 4]
        (ConcatSource.readSeek.answers
          (ConcatSource.new [.inPlace ⟨[0x41, 0x42], 0, 2, 0⟩, .inPlace ⟨[], 0, 0, 0⟩,
            .inPlace ⟨[0x43], 0, 1, 0⟩]) [.seek (.start 1), .read 4, .read 4, .read 4]) := by
  have hwindow : ∀ b : Bytes, b.length ≤ wordMax →
      Shows (.inPlace ⟨b, 0, b.length, 0⟩) b ∧
        (PeeledSource.inPlace ⟨b, 0, b.length, 0⟩).len = b.length := by
    intro b hb
    have hvalid : SubRange.Valid ⟨b, 0, b.length, 0⟩ := ⟨by simp, by simpa using hb, Nat.zero_le _⟩
    have hview := Clamped.window hvalid
    rw [SubRange.window, List.drop_zero, List.take_length] at hview
    exact ⟨⟨0, .inl hview⟩, rfl⟩
  have hall := concat_bounded_cursor serves_shows
    (.cons (hwindow [0x41, 0x42] (by decide)) (.cons (hwindow [] (by decide))
      (.cons (hwindow [0x43] (by decide)) .nil))) (by decide)
    [.seek (.start 1), .read 4, .read 4, .read 4]
  exact hall.1

end ArchiveCore
