import ArchiveCore.Framework.Positioned
import ArchiveCore.Proofs.Concat
import ArchiveCore.Proofs.Members

/-!
# How far reading a stitched source comes

Every read of a stitched source is a seek and a read of one handle, whatever reads came
before. So reading it on ends without an error exactly when the handles, one after another,
can each be read over their whole length, up to the end of the list or to a handle that comes
up empty short of its length.
-/

namespace ArchiveCore

open Framework

namespace PeeledSource

/-- Seek to an offset and read from there. -/
def readFrom (source : PeeledSource) (off want : Nat) : Except IoError Bytes := do
  let (_, source) ← source.seek (.start (UInt64.ofNat off))
  let (chunk, _) ← source.read want
  return chunk

/-- The same handle at its start. -/
def rewound : PeeledSource → PeeledSource
  | inPlace w => inPlace { w with pos := 0 }
  | zran z => zran { z with pos := 0 }
  | temp t => temp { t with inner := { t.inner with pos := 0 } }

/-- The handle can be read over its whole length without an error. -/
def ReadsThrough (source : PeeledSource) : Prop := Reaches source.readFrom source.len source.len

/-- The handle can be read to an offset short of its length where nothing comes. -/
def BreaksOff (source : PeeledSource) : Prop := ComesShort source.readFrom source.len

variable {source other : PeeledSource}

theorem seek_rewound {origin : SeekFrom} {pos : Nat} (h : source.seek origin = .ok (pos, other)) :
    other.rewound = source.rewound := by
  cases source <;>
    simp only [seek, SubRange.seek, ZranBacked.seek, TempBacked.seek, File.seek, bind_eq_ok,
      pure_eq_ok, Prod.exists, Prod.mk.injEq] at h
  case inPlace w =>
    obtain ⟨_, _, ⟨_, _, _, rfl⟩, _, rfl⟩ := h
    rfl
  case zran z =>
    obtain ⟨_, _, ⟨_, _, _, rfl⟩, _, rfl⟩ := h
    rfl
  case temp t =>
    obtain ⟨_, _, ⟨_, _, hfile, _, rfl⟩, _, rfl⟩ := h
    split at hfile
    · obtain ⟨-, rfl⟩ := Prod.mk.inj (Except.ok.inj hfile)
      rfl
    · cases hfile

theorem read_rewound {want : Nat} {chunk : Bytes} (h : source.read want = .ok (chunk, other)) :
    other.rewound = source.rewound ∧ chunk.length ≤ want := by
  cases source <;>
    simp only [read, SubRange.read, ZranBacked.read, TempBacked.read, File.read, bind_eq_ok,
      pure_eq_ok, mapError_eq_ok, Prod.exists, Prod.mk.injEq] at h
  case inPlace w =>
    obtain ⟨_, _, hwindow, rfl, rfl⟩ := h
    split at hwindow
    · obtain ⟨rfl, rfl⟩ := Prod.mk.inj (Except.ok.inj hwindow)
      exact ⟨rfl, Nat.zero_le _⟩
    · split at hwindow
      · obtain ⟨rfl, rfl⟩ := Prod.mk.inj (Except.ok.inj hwindow)
        exact ⟨rfl, (List.length_take_le _ _).trans (Nat.min_le_right _ _)⟩
      · obtain ⟨rfl, rfl⟩ := Prod.mk.inj (Except.ok.inj hwindow)
        exact ⟨rfl, Nat.zero_le _⟩
  case zran z =>
    obtain ⟨_, _, ⟨_, hread, rfl, rfl⟩, rfl, rfl⟩ := h
    exact ⟨rfl, z.entry.readAt_le _ _ _ hread⟩
  case temp t =>
    obtain ⟨_, _, ⟨_, _, hfile, rfl, rfl⟩, rfl, rfl⟩ := h
    obtain ⟨rfl, rfl⟩ := Prod.mk.inj (Except.ok.inj hfile)
    exact ⟨rfl, List.length_take_le _ _⟩

theorem readFrom_rewound (source : PeeledSource) (off want : Nat) :
    source.rewound.readFrom off want = source.readFrom off want := by
  cases source <;> rfl

theorem readFrom_eq_ok {off want : Nat} {chunk : Bytes} :
    source.readFrom off want = .ok chunk ↔ ∃ pos moved other,
      source.seek (.start (UInt64.ofNat off)) = .ok (pos, moved) ∧
        moved.read want = .ok (chunk, other) := by
  simp [readFrom]

theorem readFrom_le {off want : Nat} {chunk : Bytes} (h : source.readFrom off want = .ok chunk) :
    chunk.length ≤ want := by
  obtain ⟨pos, moved, other, -, hread⟩ := readFrom_eq_ok.mp h
  exact (read_rewound hread).2

theorem readsThrough_of_whole {b : Bytes} (hlen : source.len = b.length)
    (hwhole : source.readFrom 0 b.length = .ok b) : source.ReadsThrough := by
  rw [ReadsThrough, hlen]
  cases b with
  | nil => exact .start
  | cons x xs =>
    have hfit : 0 + (x :: xs).length ≤ (x :: xs).length := by rw [Nat.zero_add]
    have hnext := Reaches.start.next hfit hwhole (List.cons_ne_nil x xs)
    rwa [Nat.zero_add] at hnext

theorem not_breaksOff {b : Bytes} (hlen : source.len = b.length)
    (hshows : ∀ off want chunk, off + want ≤ b.length → source.readFrom off want = .ok chunk →
      chunk = (b.drop off).take want) : ¬ source.BreaksOff := by
  intro h
  obtain ⟨off, want, -, hwant, hfit, hread⟩ := h
  rw [hlen] at hfit
  have hnone := congrArg List.length (hshows off want [] hfit hread)
  rw [List.length_take, List.length_drop, List.length_nil] at hnone
  omega

theorem readFrom_window {w : SubRange} (h : w.Valid) {off want : Nat} (hfit : off + want ≤ w.len) :
    (inPlace w).readFrom off want = .ok ((w.window.drop off).take want) := by
  have hword := h.word
  have hplace : (UInt64.ofNat off).toNat = off := toNat_ofNat_word (by omega)
  have hmoved : SubRange.Valid { w with pos := off } := ⟨h.fits, h.word, by simp; omega⟩
  have hpos : min off w.len = off := by omega
  have hread := SubRange.read_eq hmoved want
  simp only [readFrom, seek, SubRange.seek, seekTarget, hplace, read, bind, Except.bind, pure,
    Except.pure, hpos, hread]
  rfl

theorem readFrom_entry {z : ZranBacked} (hlen : z.len ≤ wordMax) {off want : Nat}
    (hfit : off + want ≤ z.len) {chunk : Bytes} :
    (zran z).readFrom off want = .ok chunk ↔ z.entry.readAt off want = .ok chunk := by
  have hplace : (UInt64.ofNat off).toNat = off := toNat_ofNat_word (by omega)
  have hpos : min off z.len = off := by omega
  simp [readFrom, seek, ZranBacked.seek, seekTarget, hplace, hpos, read, ZranBacked.read]

theorem readFrom_spilled {b : Bytes} (hb : b.length ≤ wordMax) {off want : Nat} {chunk : Bytes}
    (hfit : off + want ≤ b.length) :
    (temp (.holding b)).readFrom off want = .ok chunk ↔
      off ≤ fileMax ∧ chunk = (b.drop off).take want := by
  have hplace : (UInt64.ofNat off).toNat = off := toNat_ofNat_word (by omega)
  have hin : (0 : Int) ≤ off ∧ (off : Int) ≤ fileMax ↔ off ≤ fileMax := by omega
  simp only [readFrom, seek, TempBacked.seek, TempBacked.holding, File.seek, SeekFrom.target, hplace,
    hin]
  by_cases hoff : off ≤ fileMax
  · simp [hoff, read, TempBacked.read, File.read, bind, Except.bind, pure, Except.pure, eq_comm]
  · simp [hoff, bind, Except.bind]

theorem window_readsThrough {w : SubRange} (h : w.Valid) : (inPlace w).ReadsThrough := by
  have hlen := h.window_length
  refine readsThrough_of_whole hlen.symm ((readFrom_window h (by omega)).trans ?_)
  rw [List.drop_zero, List.take_length]

theorem window_not_breaksOff {w : SubRange} (h : w.Valid) : ¬ (inPlace w).BreaksOff := by
  have hlen := h.window_length
  refine not_breaksOff hlen.symm fun off want chunk hfit hread => ?_
  rw [readFrom_window h (by omega)] at hread
  exact (Except.ok.inj hread).symm

theorem spilled_readsThrough {b : Bytes} (hb : b.length ≤ wordMax) :
    (temp (.holding b)).ReadsThrough :=
  readsThrough_of_whole rfl ((readFrom_spilled hb (by omega)).mpr ⟨Nat.zero_le _, by simp⟩)

theorem spilled_not_breaksOff {b : Bytes} (hb : b.length ≤ wordMax) :
    ¬ (temp (.holding b)).BreaksOff :=
  not_breaksOff rfl fun _ _ _ hfit hread => ((readFrom_spilled hb hfit).mp hread).2

theorem entry_readsThrough_iff {z : ZranBacked} (hlen : z.len ≤ wordMax) :
    (zran z).ReadsThrough ↔ Reaches z.entry.readAt z.len z.len :=
  ⟨fun h => h.congr fun _ _ _ hfit => (readFrom_entry hlen hfit).mp,
    fun h => h.congr fun _ _ _ hfit => (readFrom_entry hlen hfit).mpr⟩

theorem entry_breaksOff_iff {z : ZranBacked} (hlen : z.len ≤ wordMax) :
    (zran z).BreaksOff ↔ ComesShort z.entry.readAt z.len :=
  ⟨fun h => h.congr fun _ _ _ hfit => (readFrom_entry hlen hfit).mp,
    fun h => h.congr fun _ _ _ hfit => (readFrom_entry hlen hfit).mpr⟩

end PeeledSource

/-- Where the handle at a position starts in the stitched source. -/
def handleStart (handles : List PeeledSource) (i : Nat) : Nat :=
  runStart (handles.map PeeledSource.len) i

theorem handleStart_succ {handles : List PeeledSource} {i : Nat} {handle : PeeledSource}
    (h : handles[i]? = some handle) :
    handleStart handles (i + 1) = handleStart handles i + handle.len :=
  runStart_succ (by rw [List.getElem?_map, h, Option.map_some])

theorem handleStart_le_of_lt (handles : List PeeledSource) {i j : Nat} (h : i < j) :
    handleStart handles (i + 1) ≤ handleStart handles j :=
  runStart_mono _ h

theorem handleStart_le (handles : List PeeledSource) (i : Nat) :
    handleStart handles i ≤ (handles.map PeeledSource.len).sum :=
  runStart_le _ i

theorem handleStart_of_none {handles : List PeeledSource} {i j : Nat} (h : handles[i]? = none)
    (hij : i ≤ j) : handleStart handles j = (handles.map PeeledSource.len).sum := by
  have hlen : (handles.map PeeledSource.len).length ≤ j := by
    rw [List.length_map]
    exact (List.getElem?_eq_none_iff.mp h).trans hij
  rw [handleStart, runStart, List.take_of_length_le hlen]

/-- The segments are the handles, wherever each of them stands, laid out by their lengths. -/
structure Resumed (c : ConcatSource) (handles : List PeeledSource) : Prop where
  laid : Laid c.segs (handles.map PeeledSource.len)
  seg : ∀ (i : Nat) (seg : ConcatSeg), c.segs[i]? = some seg →
    ∃ handle, handles[i]? = some handle ∧ seg.source.rewound = handle.rewound
  total : c.total = (handles.map PeeledSource.len).sum

theorem resumed_new {handles : List PeeledSource}
    (hword : (handles.map PeeledSource.len).sum ≤ wordMax) :
    Resumed (ConcatSource.new handles) handles := by
  obtain ⟨hlaid, htotal, hsegs⟩ := laid_new hword
  exact ⟨hlaid, fun i seg hi => ⟨_, hsegs i seg hi, rfl⟩, htotal⟩

section

variable {c : ConcatSource} {handles : List PeeledSource} {want : Nat}

theorem Resumed.segAt_eq (h : Resumed c handles) {pos : Nat} (hpos : pos < c.total) :
    ∃ i seg handle, c.segAt pos = some i ∧ c.segs[i]? = some seg ∧ handles[i]? = some handle ∧
      seg.source.rewound = handle.rewound ∧ seg.len = handle.len ∧
      seg.start = handleStart handles i ∧ handleStart handles i ≤ pos ∧
      pos < handleStart handles i + handle.len := by
  rw [h.total] at hpos
  obtain ⟨i, seg, hat, hseg, hlow, hhigh⟩ := h.laid.segAt_eq hpos
  obtain ⟨handle, hhandle, hsame⟩ := h.seg i seg hseg
  obtain ⟨hlen, hstart⟩ := h.laid.seg i seg hseg
  rw [List.getElem?_map, hhandle] at hlen
  exact ⟨i, seg, handle, hat, hseg, hhandle, hsame, (Option.some.inj hlen).symm, hstart, hlow,
    (handleStart_succ hhandle) ▸ hhigh⟩

theorem readSegment_resumed {seg : ConcatSeg} {handle : PeeledSource} {pos : Nat} (want : Nat)
    (hsame : seg.source.rewound = handle.rewound) (hlen : seg.len = handle.len)
    (hlow : seg.start ≤ pos) (hhigh : pos < seg.start + handle.len)
    (hword : seg.start + handle.len ≤ wordMax) :
    (∀ chunk seg', ConcatSource.readSegment seg pos want = .ok (chunk, seg') →
      handle.readFrom (pos - seg.start) (min want (handle.len - (pos - seg.start))) = .ok chunk ∧
        ∃ source, seg' = { seg with source } ∧ source.rewound = handle.rewound) ∧
      ∀ chunk, handle.readFrom (pos - seg.start) (min want (handle.len - (pos - seg.start))) =
          .ok chunk →
        ∃ seg', ConcatSource.readSegment seg pos want = .ok (chunk, seg') := by
  have hlocal : wrapSub pos seg.start = pos - seg.start := wrapSub_eq hlow (by omega)
  have havail : wrapSub seg.len (pos - seg.start) = handle.len - (pos - seg.start) := by
    rw [hlen]
    exact wrapSub_eq (by omega) (by omega)
  have hread : ∀ off n, handle.readFrom off n = seg.source.readFrom off n := by
    intro off n
    rw [← PeeledSource.readFrom_rewound, ← hsame, PeeledSource.readFrom_rewound]
  simp only [hread, PeeledSource.readFrom_eq_ok, ConcatSource.readSegment, hlocal, havail,
    bind_eq_ok, pure_eq_ok, Prod.exists, Prod.mk.injEq]
  constructor
  · intro chunk seg' hok
    obtain ⟨p, moved, hseek, _, source, hchunk, rfl, rfl⟩ := hok
    have hkept := (PeeledSource.read_rewound hchunk).1.trans (PeeledSource.seek_rewound hseek)
    exact ⟨⟨p, moved, source, hseek, hchunk⟩, source, rfl, hkept.trans hsame⟩
  · intro chunk hok
    obtain ⟨p, moved, source, hseek, hchunk⟩ := hok
    exact ⟨_, p, moved, hseek, _, source, hchunk, rfl, rfl⟩

theorem exists_handle (h : Resumed c handles) {pos : Nat} (hpos : pos < c.total) :
    ∃ (i : Nat) (handle : PeeledSource), handles[i]? = some handle ∧ handleStart handles i ≤ pos ∧
      pos < handleStart handles i + handle.len := by
  obtain ⟨i, _, handle, -, -, hhandle, -, -, -, hlow, hhigh⟩ := h.segAt_eq hpos
  exact ⟨i, handle, hhandle, hlow, hhigh⟩

theorem handle_unique {i j pos : Nat} {handle other : PeeledSource}
    (hi : handles[i]? = some handle) (hj : handles[j]? = some other)
    (hlow : handleStart handles i ≤ pos) (hhigh : pos < handleStart handles i + handle.len)
    (hlow' : handleStart handles j ≤ pos) (hhigh' : pos < handleStart handles j + other.len) :
    i = j := by
  rw [← handleStart_succ hi] at hhigh
  rw [← handleStart_succ hj] at hhigh'
  rcases Nat.lt_trichotomy i j with hlt | heq | hgt
  · have hafter := handleStart_le_of_lt handles hlt
    omega
  · exact heq
  · have hbefore := handleStart_le_of_lt handles hgt
    omega

/-- A read inside a handle is one of that handle, from the position on and no further than
the handle goes. -/
theorem Resumed.read (h : Resumed c handles) {i : Nat} {handle : PeeledSource}
    (hhandle : handles[i]? = some handle) (hlow : handleStart handles i ≤ c.pos)
    (hhigh : c.pos < handleStart handles i + handle.len) (hwant : 0 < want) :
    (∀ chunk c', c.read want = .ok (chunk, c') →
      handle.readFrom (c.pos - handleStart handles i)
          (min want (handle.len - (c.pos - handleStart handles i))) = .ok chunk ∧
        c'.pos = c.pos + chunk.length ∧ Resumed c' handles) ∧
    ∀ chunk, handle.readFrom (c.pos - handleStart handles i)
        (min want (handle.len - (c.pos - handleStart handles i))) = .ok chunk →
      ∃ c', c.read want = .ok (chunk, c') := by
  have hend := handleStart_le handles (i + 1)
  rw [handleStart_succ hhandle, ← h.total] at hend
  have hpos : c.pos < c.total := by omega
  obtain ⟨j, seg, other, hat, hseg, hother, hsame, hlen, hstart, hlow', hhigh'⟩ := h.segAt_eq hpos
  obtain rfl := handle_unique hhandle hother hlow hhigh hlow' hhigh'
  obtain rfl := Option.some.inj (hhandle.symm.trans hother)
  have hword := (h.laid.seg_end hseg).2
  rw [hlen] at hword
  rw [← hstart] at hlow hhigh ⊢
  obtain ⟨hbrings, hreads⟩ := readSegment_resumed want hsame hlen hlow hhigh hword
  have hdone : ¬ (want = 0 ∨ c.total ≤ c.pos) := by omega
  simp only [ConcatSource.read, hdone, if_false, hat, hseg, bind_eq_ok, pure_eq_ok, Prod.exists,
    Prod.mk.injEq]
  constructor
  · intro chunk c' hok
    obtain ⟨chunk, seg', hsegment, rfl, rfl⟩ := hok
    obtain ⟨hread, source, rfl, hkept⟩ := hbrings chunk seg' hsegment
    have hcount := PeeledSource.readFrom_le hread
    refine ⟨hread, satAdd_eq (by omega), h.laid.set hseg source, ?_, h.total⟩
    exact forall_set_source hseg h.seg ⟨handle, hhandle, hkept⟩
  · intro chunk hread
    obtain ⟨seg', hsegment⟩ := hreads chunk hread
    exact ⟨_, chunk, seg', hsegment, rfl, rfl⟩

theorem ConcatSource.read_end (hpos : c.total ≤ c.pos) : c.read want = .ok ([], c) :=
  if_pos (.inr hpos)

/-- Up to a position, each handle was read as far as it lies before it. -/
def ReadUpTo (handles : List PeeledSource) (pos : Nat) : Prop :=
  ∀ (i : Nat) handle, handles[i]? = some handle → handleStart handles i ≤ pos →
    Reaches handle.readFrom handle.len (min (pos - handleStart handles i) handle.len)

/-- The handles before `k` can be read through, and the one at `k`, if there is one, breaks off. -/
def EndsAt (handles : List PeeledSource) (k : Nat) : Prop :=
  (∀ i < k, ∀ handle, handles[i]? = some handle → handle.ReadsThrough) ∧
    ∀ handle, handles[k]? = some handle → handle.BreaksOff

theorem readUpTo_zero (handles : List PeeledSource) : ReadUpTo handles 0 := by
  intro i handle _ _
  rw [Nat.zero_sub, Nat.zero_min]
  exact .start

theorem ReadUpTo.readsThrough {pos i : Nat} {handle : PeeledSource} (h : ReadUpTo handles pos)
    (hhandle : handles[i]? = some handle) (hpos : handleStart handles (i + 1) ≤ pos) :
    handle.ReadsThrough := by
  rw [handleStart_succ hhandle] at hpos
  have hread := h i handle hhandle (by omega)
  rwa [Nat.min_eq_right (by omega)] at hread

theorem ReadUpTo.next {pos i n : Nat} {handle : PeeledSource} {chunk : Bytes}
    (h : ReadUpTo handles pos) (hhandle : handles[i]? = some handle)
    (hlow : handleStart handles i ≤ pos) (hfit : pos + n ≤ handleStart handles i + handle.len)
    (hread : handle.readFrom (pos - handleStart handles i) n = .ok chunk) (hsome : chunk ≠ []) :
    ReadUpTo handles (pos + chunk.length) := by
  have hcount := PeeledSource.readFrom_le hread
  intro j other hother hstart
  rcases Nat.lt_trichotomy j i with hlt | rfl | hgt
  · -- handles before the one read from lie behind already
    have hbefore := handleStart_le_of_lt handles hlt
    have hthrough := h.readsThrough hother (hbefore.trans hlow)
    rw [handleStart_succ hother] at hbefore
    rwa [Nat.min_eq_right (by omega)]
  · obtain rfl := Option.some.inj (hhandle.symm.trans hother)
    have hreached := h j handle hhandle hlow
    rw [Nat.min_eq_left (by omega)] at hreached ⊢
    have hnext := hreached.next (by omega) hread hsome
    rwa [show pos + chunk.length - handleStart handles j =
      pos - handleStart handles j + chunk.length by omega]
  · -- and handles after it at most begin at the new position
    have hafter := handleStart_le_of_lt handles hgt
    rw [handleStart_succ hhandle] at hafter
    rw [show pos + chunk.length - handleStart handles j = 0 by omega, Nat.zero_min]
    exact .start

theorem Resumed.endsAt {sizes : List Nat} {b : Bytes} (h : Resumed c handles)
    (hupto : ReadUpTo handles c.pos) (hsizes : ∀ size ∈ sizes, 0 < size)
    (hread : ConcatSource.readSeek.readToEnd sizes c = some (.ok b)) :
    ∃ k, EndsAt handles k := by
  induction sizes generalizing c b with
  | nil => cases hread
  | cons size sizes ih =>
    have hsize := hsizes size (by simp)
    by_cases hpos : c.pos < c.total
    · obtain ⟨i, handle, hhandle, hlow, hhigh⟩ := exists_handle h hpos
      obtain ⟨hbrings, -⟩ := h.read hhandle hlow hhigh hsize
      rcases ReadSeek.readToEnd_cons_eq_ok.mp hread with
        ⟨c', hok, -⟩ | ⟨chunk, rest, c', hok, hsome, hrest, -⟩
      · obtain ⟨hempty, -⟩ := hbrings [] c' hok
        refine ⟨i, fun j hj other hother => ?_, fun other hother => ?_⟩
        · exact hupto.readsThrough hother ((handleStart_le_of_lt handles hj).trans hlow)
        · obtain rfl := Option.some.inj (hhandle.symm.trans hother)
          have hreached := hupto i handle hhandle hlow
          rw [Nat.min_eq_left (by omega)] at hreached
          exact ⟨_, _, hreached, by omega, by omega, hempty⟩
      · obtain ⟨hbrought, hmoved, hresumed⟩ := hbrings chunk c' hok
        refine ih hresumed ?_ (fun n hn => hsizes n (List.mem_cons_of_mem _ hn)) hrest
        rw [hmoved]
        exact hupto.next hhandle hlow (by omega) hbrought hsome
    · refine ⟨handles.length, fun i hi handle hhandle => ?_, fun handle hhandle => ?_⟩
      · have hend := handleStart_le handles (i + 1)
        rw [← h.total] at hend
        exact hupto.readsThrough hhandle (hend.trans (Nat.le_of_not_lt hpos))
      · simp at hhandle

/-- Wherever the handles stand, reading on from a position can end without an error. -/
def EndsFrom (handles : List PeeledSource) (pos : Nat) : Prop :=
  ∀ c, Resumed c handles → c.pos = pos → ∃ b, ConcatSource.readSeek.ReadsOut c b

theorem EndsFrom.back {i off n : Nat} {handle : PeeledSource} {chunk : Bytes}
    (hhandle : handles[i]? = some handle) (hfit : off + n ≤ handle.len)
    (hread : handle.readFrom off n = .ok chunk) (hsome : chunk ≠ [])
    (h : EndsFrom handles (handleStart handles i + (off + chunk.length))) :
    EndsFrom handles (handleStart handles i + off) := by
  intro c hresumed hpos
  have hcount := PeeledSource.readFrom_le hread
  have hchunk := List.length_pos_of_ne_nil hsome
  obtain ⟨hbrings, hreads⟩ := hresumed.read hhandle (by omega) (by omega) (by omega : 0 < n)
  have hoff : c.pos - handleStart handles i = off := by omega
  rw [hoff, Nat.min_eq_left (by omega)] at hbrings hreads
  obtain ⟨c', hok⟩ := hreads chunk hread
  obtain ⟨-, hmoved, hresumed'⟩ := hbrings chunk c' hok
  obtain ⟨b, hb⟩ := h c' hresumed' (by omega)
  exact ⟨_, hb.next (by omega) hok hsome⟩

theorem EndsFrom.back_reached {i off : Nat} {handle : PeeledSource}
    (hhandle : handles[i]? = some handle) (hreached : Reaches handle.readFrom handle.len off)
    (h : EndsFrom handles (handleStart handles i + off)) :
    EndsFrom handles (handleStart handles i) := by
  induction hreached with
  | start => exact h
  | next _ hfit hread hsome ih => exact ih (.back hhandle hfit hread hsome h)

theorem endsFrom_end : EndsFrom handles (handles.map PeeledSource.len).sum := by
  intro c hresumed hpos
  exact ⟨_, ReadSeek.readsOut_nil Nat.one_pos
    (ConcatSource.read_end (hresumed.total.trans hpos.symm).le)⟩

theorem endsFrom_breaksOff {i : Nat} {handle : PeeledSource} (hhandle : handles[i]? = some handle)
    (h : handle.BreaksOff) : EndsFrom handles (handleStart handles i) := by
  obtain ⟨off, n, hreached, hn, hfit, hread⟩ := h
  refine .back_reached hhandle hreached fun c hresumed hpos => ?_
  obtain ⟨-, hreads⟩ := hresumed.read hhandle (by omega) (by omega) hn
  have hoff : c.pos - handleStart handles i = off := by omega
  rw [hoff, Nat.min_eq_left (by omega)] at hreads
  obtain ⟨c', hok⟩ := hreads [] hread
  exact ⟨_, ReadSeek.readsOut_nil hn hok⟩

theorem EndsAt.endsFrom {k : Nat} (h : EndsAt handles k) : EndsFrom handles (handleStart handles k) := by
  cases hhandle : handles[k]? with
  | some handle => exact endsFrom_breaksOff hhandle (h.2 handle hhandle)
  | none =>
    rw [handleStart_of_none hhandle le_rfl]
    exact endsFrom_end

theorem EndsAt.endsFrom_zero {k : Nat} (h : EndsAt handles k) {j : Nat} (hj : j ≤ k)
    (hends : EndsFrom handles (handleStart handles j)) : EndsFrom handles 0 := by
  induction j with
  | zero => exact hends
  | succ j ih =>
    refine ih (by omega) ?_
    cases hhandle : handles[j]? with
    | some handle =>
      rw [handleStart_succ hhandle] at hends
      exact .back_reached hhandle (h.1 j hj handle hhandle) hends
    | none =>
      rw [handleStart_of_none hhandle (Nat.le_succ j)] at hends
      rwa [handleStart_of_none hhandle le_rfl]

/-- Handles whose lengths add up to a word can be read stitched to an end without an error
exactly when they can be read through one after another, to the end of the list or to one
that breaks off. -/
theorem readsOut_new_iff (hword : (handles.map PeeledSource.len).sum ≤ wordMax) :
    (∃ b, ConcatSource.readSeek.ReadsOut (ConcatSource.new handles) b) ↔ ∃ k, EndsAt handles k := by
  have hnew := resumed_new hword
  constructor
  · intro h
    obtain ⟨b, sizes, hsizes, hread⟩ := h
    exact hnew.endsAt (readUpTo_zero handles) hsizes hread
  · intro h
    obtain ⟨k, hends⟩ := h
    exact hends.endsFrom_zero le_rfl hends.endsFrom _ hnew rfl

end

end ArchiveCore
