import ArchiveCore.Framework.Calls
import ArchiveCore.Proofs.Handles

/-!
# A window is a bounded cursor over its bytes

The window and the position stay where a read needs them through every sequence of calls,
so a read always brings all that is left, as far as its buffer goes.
-/

namespace ArchiveCore

open Framework

namespace SubRange

def readSeek : ReadSeek SubRange UInt8 IoError := ⟨read, seek⟩

/-- What is left can be subtracted, and the range a read copies lies inside the bytes, so
that the guard on the copy is not taken. -/
structure Guarded (w : SubRange) : Prop where
  left : w.pos ≤ w.len
  range : ∀ want, satAdd w.start w.pos + min (w.len - w.pos) want ≤ w.data.length

/-- A valid window at the position of a cursor over its bytes. -/
def At (w : SubRange) (c : Cursor UInt8) : Prop := w.Valid ∧ c = ⟨w.window, w.pos⟩

theorem Valid.guarded {w : SubRange} (h : w.Valid) : w.Guarded where
  left := h.pos
  range := by
    intro want
    have hpos := h.pos
    have hfits := h.fits
    have hword := h.word
    rw [satAdd_eq (by omega)]
    omega

theorem Valid.moved {w : SubRange} (h : w.Valid) {pos : Nat} (hpos : pos ≤ w.len) :
    At { w with pos } ⟨w.window, pos⟩ :=
  ⟨⟨h.fits, h.word, hpos⟩, rfl⟩

theorem answers_full : readSeek.Answers At Cursor.Full := by
  apply ReadSeek.Answers.of_calls
  · intro w c origin h hc
    obtain ⟨hvalid, rfl⟩ := h
    exact hvalid.seek_refused hc
  · intro w c c' origin h hc
    obtain ⟨hvalid, rfl⟩ := h
    obtain ⟨pos, hpos, hseek, rfl⟩ := hvalid.seek_moved hc
    exact ⟨_, hseek, hvalid.moved hpos⟩
  · intro w c want h
    obtain ⟨hvalid, rfl⟩ := h
    have hpos := hvalid.pos
    have hleft : (⟨w.window, w.pos⟩ : Cursor UInt8).rest.length = w.len - w.pos := by
      rw [Cursor.rest, List.length_drop, hvalid.window_length]
    have hcount : ((w.window.drop w.pos).take want).length = min (w.len - w.pos) want := by
      rw [List.length_take, ← hleft, Cursor.rest, Nat.min_comm]
    refine ⟨min (w.len - w.pos) want, { w with pos := w.pos + min (w.len - w.pos) want }, ?_, ?_, ?_⟩
    · have htake : (w.window.drop w.pos).take want =
          (w.window.drop w.pos).take (min (w.len - w.pos) want) := by
        rw [List.take_eq_take_iff, List.length_drop, hvalid.window_length]
        omega
      change w.read want = _
      rw [read_eq hvalid, hcount, htake]
      rfl
    · rw [Cursor.Full, hleft]
    · apply hvalid.moved
      omega

end SubRange

/-- A window is made exactly within the cap and inside the buffer, whose length is a word,
and every sequence of calls on it is answered by the cursor over its bytes. -/
theorem window_bounded_cursor (data : Bytes) (hdata : data.length ≤ wordMax)
    (offset len cap : Nat) :
    ((∃ w, SubRange.newShared data offset len cap = .ok w) ↔
        len ≤ cap ∧ offset + len ≤ data.length) ∧
      ∀ w, SubRange.newShared data offset len cap = .ok w → ∀ calls,
        (Cursor.start ((data.drop offset).take len)).Run Cursor.Full calls
            (SubRange.readSeek.answers w calls) ∧
          (SubRange.readSeek.after w calls).Guarded := by
  constructor
  · constructor
    · intro h
      obtain ⟨w, hw⟩ := h
      obtain ⟨hcap, -, hfits, -⟩ := SubRange.newShared_eq_ok.mp hw
      exact ⟨hcap, hfits⟩
    · intro h
      obtain ⟨hcap, hfits⟩ := h
      exact ⟨_, SubRange.newShared_eq_ok.mpr ⟨hcap, hfits.trans hdata, hfits, rfl⟩⟩
  · intro w hw calls
    obtain ⟨-, hword, hfits, rfl⟩ := SubRange.newShared_eq_ok.mp hw
    have hat : SubRange.At ⟨data, offset, len, 0⟩ (Cursor.start ((data.drop offset).take len)) :=
      ⟨⟨hfits, hword, Nat.zero_le _⟩, rfl⟩
    refine ⟨SubRange.answers_full.run hat calls, ?_⟩
    obtain ⟨c, hvalid, -⟩ := SubRange.answers_full.after hat calls
    exact hvalid.guarded

theorem window_bounded_cursor_tail :
    ∃ w, SubRange.newShared [0x41, 0x42, 0x43] 1 2 2 = .ok w ∧
      (Cursor.start [0x42, 0x43]).Run Cursor.Full [.seek (.start 9), .seek (.current (-1)), .read 5]
        (SubRange.readSeek.answers w [.seek (.start 9), .seek (.current (-1)), .read 5]) := by
  have hall := window_bounded_cursor [0x41, 0x42, 0x43] (by decide) 1 2 2
  obtain ⟨w, hw⟩ := hall.1.mpr ⟨by decide, by decide⟩
  exact ⟨w, hw, (hall.2 w hw _).1⟩

end ArchiveCore
