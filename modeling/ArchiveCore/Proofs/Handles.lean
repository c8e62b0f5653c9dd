import ArchiveCore.Core.Execute
import ArchiveCore.Core.Images

/-!
# What a peeled handle holds

A handle over `b` is a window whose bytes are `b`, a zip entry that reads `b` at every
position, or a temp file containing `b`. The first two behave as a cursor over `b` under
every seek; the temp file does so as long as no seek goes past its end.
-/

namespace ArchiveCore

open Framework

/-- The entry is a faithful positioned reader of `b`; a read may come back short. -/
structure StoredZipEntry.Faithful (entry : StoredZipEntry) (b : Bytes) : Prop where
  len : entry.len.toNat = b.length
  readAt : ∀ pos want, pos ≤ b.length → ∃ n, entry.readAt pos want = .ok ((b.drop pos).take n) ∧
    n ≤ want ∧ (0 < want → 0 < n)

theorem StoredZipEntry.over_faithful {b : Bytes} (h : b.length ≤ wordMax) :
    (StoredZipEntry.over b).Faithful b where
  len := toNat_ofNat_word h
  readAt := fun _ want _ => ⟨want, rfl, le_rfl, id⟩

/-- The bytes a window shows. -/
def SubRange.window (w : SubRange) : Bytes := (w.data.drop w.start).take w.len

/-- The window lies inside its bytes and the position inside the window. -/
structure SubRange.Valid (w : SubRange) : Prop where
  fits : w.start + w.len ≤ w.data.length
  word : w.start + w.len ≤ wordMax
  pos : w.pos ≤ w.len

theorem SubRange.Valid.window_length {w : SubRange} (h : w.Valid) : w.window.length = w.len := by
  have := h.fits
  simp only [SubRange.window, List.length_take, List.length_drop]
  omega

theorem SubRange.newShared_eq_ok {data : Bytes} {offset len cap : Nat} {w : SubRange} :
    SubRange.newShared data offset len cap = .ok w ↔
      len ≤ cap ∧ offset + len ≤ wordMax ∧ offset + len ≤ data.length ∧
        w = { data, start := offset, len, pos := 0 } := by
  have hfilter : (checkedAdd offset len).filter (fun e => decide (e ≤ data.length)) =
      if offset + len ≤ wordMax ∧ offset + len ≤ data.length then some (offset + len) else none := by
    by_cases hword : offset + len ≤ wordMax <;> by_cases hfits : offset + len ≤ data.length <;>
      simp [checkedAdd, hword, hfits, Option.filter]
  rw [SubRange.newShared, hfilter]
  by_cases hcap : cap < len
  · simp [hcap]
  · by_cases hin : offset + len ≤ wordMax ∧ offset + len ≤ data.length
    · simp [hcap, hin, Nat.le_of_not_gt hcap, eq_comm]
    · simp only [hcap, if_false, hin, reduceCtorEq, false_iff]
      intro h
      obtain ⟨-, hword, hfits, -⟩ := h
      exact hin ⟨hword, hfits⟩

theorem seekTarget_eq {len pos : Nat} (hlen : len ≤ wordMax) (hpos : pos ≤ wordMax)
    (origin : SeekFrom) :
    seekTarget len pos origin =
      if 0 ≤ origin.target len pos ∧ origin.target len pos ≤ wordMax then
        .ok (origin.target len pos).toNat
      else .error (.invalidInput "seek position out of range") := by
  have hoffset : ∀ base : Nat, base ≤ wordMax → ∀ off : Int64,
      offsetFrom base off =
        if 0 ≤ (base + off.toInt : Int) ∧ (base + off.toInt : Int) ≤ wordMax then
          .ok (base + off.toInt : Int).toNat
        else .error (.invalidInput "seek position out of range") := by
    intro base hbase off
    have hlow := off.le_toInt
    have hhigh := off.toInt_lt
    rw [offsetFrom]
    by_cases hsign : 0 ≤ off.toInt
    · simp only [hsign, if_true, checkedAdd]
      by_cases hfit : base + off.toInt.toNat ≤ wordMax
      · rw [if_pos hfit, if_pos (by omega)]
        exact congrArg Except.ok (by omega)
      · rw [if_neg hfit, if_neg (by omega)]
    · simp only [hsign, if_false, checkedSub]
      by_cases hfit : off.toInt.natAbs ≤ base
      · rw [if_pos hfit, if_pos (by omega)]
        exact congrArg Except.ok (by omega)
      · rw [if_neg hfit, if_neg (by omega)]
  cases origin with
  | start o =>
    have hword : (o.toNat : Int) ≤ wordMax := by exact_mod_cast toNat_le_wordMax o
    simp [seekTarget, SeekFrom.target, hword]
  | fromEnd o => exact hoffset len hlen o
  | current o => exact hoffset pos hpos o

/-- A window or a zip entry over the items of a cursor, at its position. -/
inductive Clamped : PeeledSource → Cursor UInt8 → Prop
  | window {w : SubRange} (h : w.Valid) : Clamped (.inPlace w) ⟨w.window, w.pos⟩
  | entry {z : ZranBacked} {b : Bytes} (hentry : z.entry.Faithful b) (hlen : z.len = b.length)
      (hpos : z.pos ≤ b.length) : Clamped (.zran z) ⟨b, z.pos⟩

/-- A temp file over the items of a cursor, at its position. -/
inductive Spilled : PeeledSource → Cursor UInt8 → Prop
  | file {t : TempBacked} (hlen : t.len = t.inner.bytes.length) (hmax : t.len ≤ fileMax)
      (hpos : t.inner.pos ≤ t.len) : Spilled (.temp t) ⟨t.inner.bytes, t.inner.pos⟩

/-- The seeks a temp file treats as the clamping handles do. -/
def NotPastEnd (c : Cursor UInt8) (origin : SeekFrom) : Prop :=
  origin.target c.items.length c.pos ≤ c.items.length ∨
    (wordMax : Int) < origin.target c.items.length c.pos

theorem SubRange.read_eq {w : SubRange} (h : w.Valid) (want : Nat) :
    w.read want = .ok ((w.window.drop w.pos).take want,
      { w with pos := w.pos + ((w.window.drop w.pos).take want).length }) := by
  obtain ⟨hfits, hword, hpos⟩ := h
  have hremaining : wrapSub w.len w.pos = w.len - w.pos := wrapSub_eq hpos (by omega)
  have hstart : satAdd w.start w.pos = w.start + w.pos := satAdd_eq (by omega)
  have hchunk : (w.window.drop w.pos).take want =
      (w.data.drop (w.start + w.pos)).take (min (w.len - w.pos) want) := by
    rw [SubRange.window, List.drop_take, List.take_take, List.drop_drop, Nat.min_comm]
  have hcount : ((w.data.drop (w.start + w.pos)).take (min (w.len - w.pos) want)).length =
      min (w.len - w.pos) want := by
    rw [List.length_take, List.length_drop]
    omega
  rw [SubRange.read, hremaining, hstart, hchunk, hcount]
  by_cases hzero : w.len - w.pos = 0 ∨ want = 0
  · have hnone : min (w.len - w.pos) want = 0 := by omega
    simp [hzero, hnone]
  · have hin : w.start + w.pos + min (w.len - w.pos) want ≤ w.data.length := by omega
    simp only [hzero, if_false, hin, if_true]
    rw [wrapAdd_eq (by omega)]

theorem SubRange.Valid.len_le {w : SubRange} (h : w.Valid) : w.len ≤ wordMax :=
  (Nat.le_add_left _ _).trans h.word

theorem seekTarget_of_refused {c : Cursor UInt8} {origin : SeekFrom}
    (hlen : c.items.length ≤ wordMax) (hpos : c.pos ≤ wordMax) (h : c.seek origin = none) :
    ∃ e, seekTarget c.items.length c.pos origin = .error e := by
  simp only [Cursor.seek, ite_eq_right_iff, reduceCtorEq, imp_false] at h
  exact ⟨_, by rw [seekTarget_eq hlen hpos, if_neg h]⟩

theorem seekTarget_of_moved {c c' : Cursor UInt8} {origin : SeekFrom}
    (hlen : c.items.length ≤ wordMax) (hpos : c.pos ≤ wordMax) (h : c.seek origin = some c') :
    ∃ target, seekTarget c.items.length c.pos origin = .ok target ∧
      c' = ⟨c.items, min target c.items.length⟩ := by
  simp only [Cursor.seek, Option.ite_none_right_eq_some, Option.some.injEq] at h
  obtain ⟨hin, rfl⟩ := h
  exact ⟨_, by rw [seekTarget_eq hlen hpos, if_pos hin], rfl⟩

theorem SubRange.Valid.seek_refused {w : SubRange} (h : w.Valid) {origin : SeekFrom}
    (hc : (⟨w.window, w.pos⟩ : Cursor UInt8).seek origin = none) :
    ∃ e, w.seek origin = .error e := by
  obtain ⟨e, he⟩ := seekTarget_of_refused (h.window_length ▸ h.len_le) (h.pos.trans h.len_le) hc
  rw [h.window_length] at he
  exact ⟨e, by simp [SubRange.seek, he]⟩

theorem SubRange.Valid.seek_moved {w : SubRange} (h : w.Valid) {origin : SeekFrom}
    {c : Cursor UInt8} (hc : (⟨w.window, w.pos⟩ : Cursor UInt8).seek origin = some c) :
    ∃ pos ≤ w.len, w.seek origin = .ok (pos, { w with pos }) ∧ c = ⟨w.window, pos⟩ := by
  obtain ⟨target, htarget, rfl⟩ :=
    seekTarget_of_moved (h.window_length ▸ h.len_le) (h.pos.trans h.len_le) hc
  rw [h.window_length] at htarget ⊢
  exact ⟨min target w.len, Nat.min_le_right _ _, by simp [SubRange.seek, htarget], rfl⟩

theorem Clamped.window_at {w : SubRange} (hw : w.Valid) {pos : Nat} (hpos : pos ≤ w.len) :
    Clamped (.inPlace { w with pos }) ⟨w.window, pos⟩ :=
  .window (w := { w with pos }) ⟨hw.fits, hw.word, hpos⟩

theorem Clamped.entry_at {z : ZranBacked} {b : Bytes} (hentry : z.entry.Faithful b)
    (hlen : z.len = b.length) {pos : Nat} (hpos : pos ≤ b.length) :
    Clamped (.zran { z with pos }) ⟨b, pos⟩ :=
  .entry (z := { z with pos }) hentry hlen hpos

theorem StoredZipEntry.Faithful.length_le {entry : StoredZipEntry} {b : Bytes}
    (h : entry.Faithful b) : b.length ≤ wordMax :=
  h.len ▸ toNat_le_wordMax entry.len

/-- Windows and zip entries cannot be told from a cursor. -/
theorem clamped_refines : PeeledSource.readSeek.Refines Clamped fun _ _ => True where
  read := by
    intro s c want h
    cases h with
    | @window w hw =>
      have hlen := hw.window_length
      have hpos := hw.pos
      refine ⟨want, .inPlace { w with pos := w.pos + ((w.window.drop w.pos).take want).length },
        ?_, le_rfl, id, Clamped.window_at hw ?_⟩
      · simp [PeeledSource.readSeek, PeeledSource.read, SubRange.read_eq hw, Cursor.rest]
      · simp only [List.length_take, List.length_drop]
        omega
    | @entry z b hentry hlen hpos =>
      obtain ⟨n, hread, hn, hprogress⟩ := hentry.readAt z.pos want hpos
      have hword := hentry.length_le
      have hend : z.pos + ((b.drop z.pos).take n).length ≤ b.length := by
        simp only [List.length_take, List.length_drop]
        omega
      refine ⟨n, .zran { z with pos := z.pos + ((b.drop z.pos).take n).length }, ?_, hn, hprogress,
        Clamped.entry_at hentry hlen hend⟩
      have hsat := satAdd_eq (hend.trans hword)
      simp [PeeledSource.readSeek, PeeledSource.read, ZranBacked.read, hread, Except.mapError,
        Cursor.rest, hsat, -List.length_take]
  refuse := by
    intro s c origin h _ hc
    cases h with
    | @window w hw =>
      obtain ⟨e, he⟩ := hw.seek_refused hc
      exact ⟨e, by simp [PeeledSource.readSeek, PeeledSource.seek, he]⟩
    | @entry z b hentry hlen hpos =>
      obtain ⟨e, he⟩ := seekTarget_of_refused hentry.length_le (hpos.trans hentry.length_le) hc
      rw [← hlen] at he
      exact ⟨e, by simp [PeeledSource.readSeek, PeeledSource.seek, ZranBacked.seek, he]⟩
  move := by
    intro s c c' origin h _ hc
    cases h with
    | @window w hw =>
      obtain ⟨pos, hpos, hseek, rfl⟩ := hw.seek_moved hc
      exact ⟨_, by simp [PeeledSource.readSeek, PeeledSource.seek, hseek],
        Clamped.window_at hw hpos⟩
    | @entry z b hentry hlen hpos =>
      obtain ⟨target, htarget, rfl⟩ :=
        seekTarget_of_moved hentry.length_le (hpos.trans hentry.length_le) hc
      have htarget' : seekTarget b.length z.pos origin = .ok target := htarget
      exact ⟨_, by simp [PeeledSource.readSeek, PeeledSource.seek, ZranBacked.seek, hlen, htarget'],
        Clamped.entry_at hentry hlen (Nat.min_le_right _ _)⟩

theorem Spilled.file_at {t : TempBacked} (hlen : t.len = t.inner.bytes.length)
    (hmax : t.len ≤ fileMax) {pos : Nat} (hpos : pos ≤ t.len) :
    Spilled (.temp { t with inner := ⟨t.inner.bytes, pos⟩ }) ⟨t.inner.bytes, pos⟩ :=
  .file (t := { t with inner := ⟨t.inner.bytes, pos⟩ }) hlen hmax hpos

/-- A temp file cannot be told from a cursor by seeks that stay within it. -/
theorem spilled_refines : PeeledSource.readSeek.Refines Spilled NotPastEnd where
  read := by
    intro s c want h
    cases h with
    | @file t hlen hmax hpos =>
      have hend : t.inner.pos + ((t.inner.bytes.drop t.inner.pos).take want).length ≤ t.len := by
        simp only [List.length_take, List.length_drop]
        omega
      refine ⟨want, _, ?_, le_rfl, id, Spilled.file_at hlen hmax hend⟩
      simp [PeeledSource.readSeek, PeeledSource.read, TempBacked.read, File.read, Cursor.rest]
  refuse := by
    intro s c origin h _ hc
    cases h with
    | @file t hlen hmax hpos =>
      simp only [Cursor.seek, ite_eq_right_iff, reduceCtorEq, imp_false] at hc
      have hfile : ¬ (0 ≤ origin.target t.inner.bytes.length t.inner.pos ∧
          origin.target t.inner.bytes.length t.inner.pos ≤ fileMax) := by
        have : fileMax ≤ wordMax := by decide
        omega
      exact ⟨.invalidInput "Invalid argument",
        by simp [PeeledSource.readSeek, PeeledSource.seek, TempBacked.seek, File.seek, hfile]⟩
  move := by
    intro s c c' origin h ha hc
    cases h with
    | @file t hlen hmax hpos =>
      simp only [Cursor.seek, Option.ite_none_right_eq_some, Option.some.injEq] at hc
      obtain ⟨hin, rfl⟩ := hc
      simp only [NotPastEnd] at ha
      have hfile : 0 ≤ origin.target t.inner.bytes.length t.inner.pos ∧
          origin.target t.inner.bytes.length t.inner.pos ≤ fileMax := by omega
      have hmin : min (origin.target t.inner.bytes.length t.inner.pos).toNat t.inner.bytes.length =
          (origin.target t.inner.bytes.length t.inner.pos).toNat := by omega
      rw [hmin]
      refine ⟨_, ?_, Spilled.file_at hlen hmax (by omega)⟩
      simp [PeeledSource.readSeek, PeeledSource.seek, TempBacked.seek, File.seek, hfile]

/-- Any handle, at a cursor. -/
def View (s : PeeledSource) (c : Cursor UInt8) : Prop := Clamped s c ∨ Spilled s c

theorem view_refines :
    PeeledSource.readSeek.Refines View fun c origin => True ∧ NotPastEnd c origin :=
  clamped_refines.or spilled_refines

/-- The handle stands at the start of `b`. -/
def PeeledSource.Holds (s : PeeledSource) (b : Bytes) : Prop := View s (Cursor.start b)

theorem View.len {s : PeeledSource} {c : Cursor UInt8} (h : View s c) : s.len = c.items.length := by
  rcases h with h | h
  · cases h with
    | window hw => exact hw.window_length.symm
    | entry _ hlen _ => exact hlen
  · cases h with
    | file hlen _ _ => exact hlen

theorem PeeledSource.Holds.len {s : PeeledSource} {b : Bytes} (h : s.Holds b) : s.len = b.length :=
  View.len h

theorem PeeledSource.Holds.drainsTo {s : PeeledSource} {b : Bytes} (h : s.Holds b) :
    PeeledSource.readSeek.DrainsTo s b :=
  view_refines.drainsTo h

end ArchiveCore
