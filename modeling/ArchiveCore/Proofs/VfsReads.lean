import ArchiveCore.Core.Vfs
import ArchiveCore.Core.Images

/-!
# Reading a source whole

The loop of `read_all` keeps the buffer filled with the content up to its offset and goes on
to the length the source declares, unless a read fails or brings nothing. A read that brings
nothing ends the loop without an error, so what was read so far passes for the whole source.
The buffer has the declared length, and a length no buffer can have is a panic.
-/

namespace ArchiveCore

open Framework

variable {σ : Type} {src : ImageSource σ} {content : Bytes} {s : σ} {buf : Bytes} {off : Nat}

theorem fillFrom_spec (hshows : src.Shows content)
    (h : FilledTo content src.len.toNat buf off) :
    (∃ e, fillFrom src s buf off = .error e ∧ src.Fails e ∧ ¬ src.Stalls src.len.toNat s off) ∨
      ∃ buf' off', fillFrom src s buf off = .ok (buf', off') ∧
        FilledTo content src.len.toNat buf' off' ∧
        (src.Stalls src.len.toNat s off ↔ off' < src.len.toNat) := by
  fun_induction fillFrom src s buf off with
  | case1 s buf off hoff hout =>
    have hlen := h.length
    omega
  | case2 s buf off hoff _ e s' hread =>
    have hfails : src.Fails e := ⟨s, off, _, s', hread⟩
    rw [h.length] at hread
    exact .inl ⟨e, rfl, hfails, Positioned.not_stalls_of_error hread⟩
  | case3 s buf off hoff _ chunk s' hread hchunk =>
    rw [h.length, List.length_eq_zero_iff.mp hchunk] at hread
    exact .inr ⟨buf, off, rfl, h, iff_of_true (.here hoff hread) hoff⟩
  | case4 s buf off hoff _ chunk s' hread hchunk ih =>
    have hstep := h.step hshows hread
    have hsum : satAdd off chunk.length = off + chunk.length :=
      satAdd_eq (hstep.within.trans (toNat_le_wordMax src.len))
    rw [h.length] at hread
    rw [hsum] at ih ⊢
    rw [Positioned.stalls_iff_of_ok hoff hread fun hnil => hchunk (by rw [hnil, List.length_nil])]
    exact ih hstep
  | case5 s buf off hoff =>
    have hend := Nat.le_of_not_lt hoff
    exact .inr ⟨buf, off, rfl, h, iff_of_false (Positioned.not_stalls_of_le hend) hoff⟩

theorem fillFrom_error {e : VfsError} (h : fillFrom src s buf off = .error e) : src.Fails e := by
  fun_induction fillFrom src s buf off with
  | case1 | case3 | case5 => cases h
  | case2 s buf off _ _ e' s' hread => exact Except.error.inj h ▸ ⟨s, off, _, s', hread⟩
  | case4 _ _ _ _ _ _ _ _ _ ih => exact ih h

theorem readWhole_error {e : VfsError} (h : readWhole src s = .error e) : src.Fails e := by
  rcases bind_eq_error.mp h with h | ⟨_, -, h⟩
  · exact fillFrom_error h
  · cases h

theorem readWhole_spec (hshows : src.Shows content) :
    (∃ e, readWhole src s = .error e ∧ src.Fails e ∧ ¬ src.Stalls src.len.toNat s 0) ∨
      ∃ n, readWhole src s = .ok (content.take n) ∧ n ≤ content.length ∧ n ≤ src.len.toNat ∧
        (src.Stalls src.len.toNat s 0 ↔ n < src.len.toNat) := by
  rcases fillFrom_spec (s := s) hshows (.start content 0 src.len.toNat) with
    ⟨e, hfill, hfails, hgoes⟩ | ⟨buf, off, hfill, hfilled, hstalls⟩
  · refine .inl ⟨e, ?_, hfails, hgoes⟩
    simp only [readWhole, hfill, bind, Except.bind]
  · refine .inr ⟨off, ?_, hfilled.shown, hfilled.within, hstalls⟩
    simp only [readWhole, hfill, bind, Except.bind, hfilled.front]
    rfl

theorem readAll_eq_ok {result : Except VfsError Bytes} :
    readAll src s = .ok result ↔ src.len.toNat ≤ isizeMax ∧ readWhole src s = result := by
  rw [readAll]
  by_cases hlen : isizeMax < src.len.toNat
  · simp [hlen]
  · simp [hlen, Nat.le_of_not_lt hlen]

theorem open'_eq_ok {B : Backends} {result : Except VfsError ArchiveContents} :
    ArchiveOpener.open' B src s = .ok result ↔
      src.len.toNat ≤ isizeMax ∧ (readWhole src s >>= openBytes B) = result := by
  simp only [ArchiveOpener.open', bind_eq_ok, readAll_eq_ok, pure_eq_ok]
  constructor
  · intro h
    obtain ⟨_, ⟨hlen, rfl⟩, rfl⟩ := h
    exact ⟨hlen, rfl⟩
  · intro h
    obtain ⟨hlen, rfl⟩ := h
    exact ⟨_, ⟨hlen, rfl⟩, rfl⟩

theorem readWhole_whole (hshows : src.Shows content) (hgoes : ¬ src.Stalls src.len.toNat s 0)
    {b : Bytes} (hread : readWhole src s = .ok b) :
    src.len.toNat ≤ content.length ∧ b = content.take src.len.toNat := by
  rcases readWhole_spec (s := s) hshows with ⟨e, herr, -, -⟩ | ⟨n, hok, hn, hle, hshort⟩
  · rw [herr] at hread
    cases hread
  · obtain rfl := Except.ok.inj (hok.symm.trans hread)
    have hwhole : n = src.len.toNat :=
      Nat.le_antisymm hle (Nat.le_of_not_lt fun hless => hgoes (hshort.mpr hless))
    exact ⟨hwhole ▸ hn, hwhole ▸ rfl⟩

theorem readWhole_short (hshows : src.Shows content) (hstalls : src.Stalls src.len.toNat s 0) :
    ∃ b, readWhole src s = .ok b ∧ b.length < src.len.toNat := by
  rcases readWhole_spec (s := s) hshows with ⟨e, -, -, hgoes⟩ | ⟨n, hread, hn, -, hshort⟩
  · exact absurd hstalls hgoes
  · refine ⟨content.take n, hread, ?_⟩
    rw [List.length_take, Nat.min_eq_left hn]
    exact hshort.mp hstalls

theorem bytesSource_shows (b : BytesSource) : b.imageSource.Shows b.bytes := by
  intro s off want chunk s' hread
  obtain ⟨hchunk, -⟩ := Prod.mk.inj hread
  have hchunk := Except.ok.inj hchunk
  by_cases hend : b.bytes.length ≤ off
  · rw [BytesSource.readAt, if_pos hend] at hchunk
    exact ⟨0, Nat.zero_le _, by rw [← hchunk, List.take_zero]⟩
  · rw [BytesSource.readAt, if_neg hend] at hchunk
    refine ⟨min (b.bytes.drop off).length want, ?_, hchunk.symm⟩
    rw [List.length_drop]
    omega

theorem not_stalls_bytesSource (b : BytesSource) :
    ¬ b.imageSource.Stalls b.bytes.length () 0 := by
  refine Positioned.not_stalls_of_keeps (I := fun _ => True) (fun _ _ _ _ _ _ _ => trivial) ?_ trivial
  intro s off s' _ hoff hread
  obtain ⟨hchunk, -⟩ := Prod.mk.inj hread
  have hlen := congrArg List.length (Except.ok.inj hchunk)
  rw [BytesSource.readAt, if_neg (Nat.not_le_of_lt hoff)] at hlen
  simp only [List.length_take, List.length_drop, List.length_nil] at hlen
  omega

theorem readAll_bytesSource {b : BytesSource} (h : b.bytes.length ≤ isizeMax) :
    readAll b.imageSource () = .ok (.ok b.bytes) := by
  have hword : isizeMax ≤ wordMax := by decide
  have hlen : b.imageSource.len.toNat = b.bytes.length := toNat_ofNat_word (h.trans hword)
  have hgoes : ¬ b.imageSource.Stalls b.imageSource.len.toNat () 0 := by
    rw [hlen]
    exact not_stalls_bytesSource b
  rw [readAll_eq_ok, hlen]
  refine ⟨h, ?_⟩
  rcases readWhole_spec (s := ()) (bytesSource_shows b) with ⟨e, -, hfails, -⟩ | ⟨n, hread, -⟩
  · obtain ⟨s, off, want, s', hfails⟩ := hfails
    cases hfails
  · obtain ⟨-, hwhole⟩ := readWhole_whole (bytesSource_shows b) hgoes hread
    rw [hread, hwhole, hlen, List.take_length]

/-- Bytes with a schedule of how much a read brings; once it is over, a read brings what it
is asked for. -/
def scheduled (data : Bytes) : ImageSource (List Nat) where
  readAt := fun schedule off want =>
    (.ok ((data.drop off).take (min want (schedule.head?.getD want))), schedule.tail)
  len := UInt64.ofNat data.length

theorem scheduled_shows (data : Bytes) : (scheduled data).Shows data := by
  intro schedule off want chunk schedule' hread
  obtain ⟨hchunk, -⟩ := Prod.mk.inj hread
  refine ⟨min (min want (schedule.head?.getD want)) (data.length - off), by omega, ?_⟩
  rw [← Except.ok.inj hchunk, ← List.length_drop, ← List.take_eq_take_min]

theorem not_stalls_scheduled {data : Bytes} {schedule : List Nat} (h : ∀ n ∈ schedule, 0 < n) :
    ¬ (scheduled data).Stalls data.length schedule off := by
  refine Positioned.not_stalls_of_keeps (I := fun ns => ∀ n ∈ ns, 0 < n) ?_ ?_ h
  · intro ns off want chunk ns' hns hread n hn
    obtain ⟨-, rfl⟩ := Prod.mk.inj hread
    exact hns n (List.mem_of_mem_tail hn)
  · intro ns off ns' hns hoff hread
    obtain ⟨hchunk, -⟩ := Prod.mk.inj hread
    have hlen := congrArg List.length (Except.ok.inj hchunk)
    cases ns with
    | nil =>
      simp only [List.head?_nil, Option.getD_none, List.length_take, List.length_drop,
        List.length_nil] at hlen
      omega
    | cons n ns =>
      have hn := hns n List.mem_cons_self
      simp only [List.head?_cons, Option.getD_some, List.length_take, List.length_drop,
        List.length_nil] at hlen
      omega

/-- The call returns, and what is worked on is the whole source or nothing of it. -/
structure AllOrNothing (src : ImageSource σ) (s : σ) (content : Bytes) : Prop where
  returns : ∃ result, readAll src s = .ok result
  read : ∀ b, readAll src s = .ok (.ok b) →
    src.len.toNat ≤ content.length ∧ b = content.take src.len.toNat
  opened : ∀ B contents, ArchiveOpener.open' B src s = .ok (.ok contents) →
    src.len.toNat ≤ content.length ∧ openBytes B (content.take src.len.toNat) = .ok contents

/-- Reading is all or nothing exactly where the declared length can be allocated and no read
brings nothing before it is reached. -/
theorem readAll_allOrNothing_iff (h : src.Shows content) :
    AllOrNothing src s content ↔
      src.len.toNat ≤ isizeMax ∧ ¬ src.Stalls src.len.toNat s 0 := by
  constructor
  · intro hall
    obtain ⟨_, hreturns⟩ := hall.returns
    obtain ⟨hfits, -⟩ := readAll_eq_ok.mp hreturns
    refine ⟨hfits, fun hstalls => ?_⟩
    obtain ⟨b, hread, hless⟩ := readWhole_short h hstalls
    obtain ⟨hlen, rfl⟩ := hall.read b (readAll_eq_ok.mpr ⟨hfits, hread⟩)
    rw [List.length_take, Nat.min_eq_left hlen] at hless
    exact Nat.lt_irrefl _ hless
  · intro hrun
    obtain ⟨hfits, hgoes⟩ := hrun
    refine ⟨⟨_, readAll_eq_ok.mpr ⟨hfits, rfl⟩⟩, fun b hread => ?_, fun B contents hopen => ?_⟩
    · exact readWhole_whole h hgoes (readAll_eq_ok.mp hread).2
    · obtain ⟨b, hread, hopen⟩ := bind_eq_ok.mp (open'_eq_ok.mp hopen).2
      obtain ⟨hlen, rfl⟩ := readWhole_whole h hgoes hread
      exact ⟨hlen, hopen⟩

/-- A first read of two bytes and a second of three, then the rest. -/
theorem readAll_allOrNothing_gzipA :
    AllOrNothing (scheduled gzipA) [2, 3] gzipA ∧
      readAll (scheduled gzipA) [2, 3] = .ok (.ok gzipA) ∧
      ArchiveOpener.open' gzipReaders (scheduled gzipA) [2, 3] = .ok (.ok (.stream ⟨[0x41]⟩)) := by
  refine ⟨(readAll_allOrNothing_iff (scheduled_shows gzipA)).mpr ⟨by decide, ?_⟩, by decide +kernel,
    by decide +kernel⟩
  exact not_stalls_scheduled (by decide)

/-- A source of nothing that declares `len` bytes. -/
def declaring (len : UInt64) : ImageSource Unit where
  readAt := fun _ _ _ => (.ok [], ())
  len := len

/-- The tar of one file and after it a file `b` of one byte. -/
def twoFileTar : Bytes :=
  oneFileTar.take 1024 ++
    (0x62 :: List.replicate 99 0x00 ++
      [0x30, 0x30, 0x30, 0x30, 0x36, 0x34, 0x34, 0x00, 0x30, 0x30, 0x30, 0x30, 0x30, 0x30, 0x30, 0x00,
        0x30, 0x30, 0x30, 0x30, 0x30, 0x30, 0x30, 0x00] ++
      List.replicate 10 0x30 ++ [0x31, 0x00] ++ List.replicate 11 0x30 ++
      [0x00, 0x30, 0x30, 0x36, 0x31, 0x30, 0x30, 0x00, 0x20, 0x30] ++ List.replicate 100 0x00 ++
      [0x75, 0x73, 0x74, 0x61, 0x72, 0x00, 0x30, 0x30] ++ List.replicate 247 0x00 ++
      0x42 :: List.replicate 1535 0x00)

/-- Readers of that tar, which without its second file is a tar as well. -/
def twoFileReaders : Backends :=
  { Backends.inert with
    tarEntries := fun feed =>
      if feed = Feed.eof twoFileTar then
        .ok [.ok ⟨"a", .ok 1, false, Feed.eof [0x41]⟩, .ok ⟨"b", .ok 1, false, Feed.eof [0x42]⟩]
      else if feed = Feed.eof (twoFileTar.take 1024) then
        .ok [.ok ⟨"a", .ok 1, false, Feed.eof [0x41]⟩]
      else .error "failed to read entire block" }

/-- A read of the first file's 1024 bytes and then one of nothing: the tar opens without its
second file. A declared length no buffer can have ends the call before its first read. -/
theorem twoFileTar_opens_short :
    ((scheduled twoFileTar).Shows twoFileTar ∧
      readAll (scheduled twoFileTar) [1024, 0] = .ok (.ok (twoFileTar.take 1024)) ∧
      ArchiveOpener.open' twoFileReaders (scheduled twoFileTar) [1024, 0] =
        .ok (.ok (.members [⟨[0x61], ⟨[0x41]⟩⟩])) ∧
      openBytes twoFileReaders twoFileTar =
        .ok (.members [⟨[0x61], ⟨[0x41]⟩⟩, ⟨[0x62], ⟨[0x42]⟩⟩]) ∧
      ¬ AllOrNothing (scheduled twoFileTar) [1024, 0] twoFileTar) ∧
    (declaring 0xFFFFFFFFFFFFFFFF).Shows [] ∧
      readAll (declaring 0xFFFFFFFFFFFFFFFF) () = .error .capacityOverflow ∧
      ¬ AllOrNothing (declaring 0xFFFFFFFFFFFFFFFF) () [] := by
  have hread : readAll (scheduled twoFileTar) [1024, 0] = .ok (.ok (twoFileTar.take 1024)) := by
    decide +kernel
  have hopen : ArchiveOpener.open' twoFileReaders (scheduled twoFileTar) [1024, 0] =
      .ok (.ok (.members [⟨[0x61], ⟨[0x41]⟩⟩])) := by
    rw [ArchiveOpener.open', hread]
    decide +kernel
  have hpanics : readAll (declaring 0xFFFFFFFFFFFFFFFF) () = .error .capacityOverflow :=
    if_pos (by decide)
  refine ⟨⟨scheduled_shows twoFileTar, hread, hopen, by decide +kernel, fun hall => ?_⟩, ?_,
    hpanics, fun hall => ?_⟩
  · have hwhole := congrArg List.length (hall.read _ hread).2
    revert hwhole
    decide +kernel
  · intro s off want chunk s' hread
    obtain ⟨hchunk, -⟩ := Prod.mk.inj hread
    exact ⟨0, Nat.zero_le _, (Except.ok.inj hchunk).symm⟩
  · obtain ⟨result, hreturns⟩ := hall.returns
    cases hpanics.symm.trans hreturns

end ArchiveCore
