import ArchiveCore.Core.Images
import ArchiveCore.Proofs.CappedCopies
import ArchiveCore.Proofs.Routes

/-!
# The cap of the caller on a streamed member

Tar and zip members are copied under the cap the caller gives and under no other. A 7z member
is decoded in memory first, under a cap of its own, and that cap is the one it fails with.
-/

namespace ArchiveCore

open Framework

/-- A stored member comes whole within the cap, and past it the cap is named, on a stream, on
a spill and, at the cap of a read, in memory. -/
structure CallerCapOnly (B : Backends) (format : Format) (data : Bytes) (a : Archive)
    (index : Nat) (b : Bytes) (cap : Nat) : Prop where
  fits : b.length ≤ cap → ∀ out : ByteSink, out.hasRoom b.length →
    a.streamMember B index out cap = (out.append b, .ok b.length)
  exceeds : cap < b.length → ∀ out : ByteSink, out.hasRoom (cap + 1) →
    (a.streamMember B index out cap).2 = .error (.tooLarge cap)
  spills : b.length ≤ cap → B.temp.Healthy →
    spillMemberToTemp B format data index cap = .ok (.holding b)
  exceedsSpill : cap < b.length → B.temp.Healthy →
    spillMemberToTemp B format data index cap = .error (.tooLarge cap)
  read : cap = maxInflated →
    a.read B index = if cap < b.length then .error (.tooLarge cap) else .ok b

/-- A 7z member over the cap of reads in memory, asked for under another cap. -/
def MemoryCapped (a : Archive) (b : Bytes) (cap : Nat) : Prop :=
  (∃ reader, a.backend = .sevenZip reader) ∧ maxInflated < b.length ∧ cap ≠ maxInflated

section

variable {B : Backends} {format : Format} {data : Bytes} {a : Archive} {index : Nat}
  {b : Bytes}

theorem streamMember_of_not_sevenZip (cap : Nat) (hb : ∀ reader, a.backend ≠ .sevenZip reader)
    (hindex : index < a.entries.length) (hstores : a.Stores B index b) :
    ∃ fail, (∀ out, a.streamMember B index out cap = copyCapped fail (Feed.eof b) out cap) ∧
      a.read B index = readCapped fail maxInflated (Feed.eof b) := by
  rw [Archive.Stores] at hstores
  cases hback : a.backend with
  | sevenZip reader => exact absurd hback (hb reader)
  | tar compressed outer =>
    simp only [hback] at hstores
    obtain ⟨items, entry, hitems, hget, hcontents⟩ := hstores
    have hnth : nthTarEntry B compressed outer index = .ok entry := by
      simp [nthTarEntry, hitems, hget]
    refine ⟨.read "tar", fun out => ?_, ?_⟩
    · simp [Archive.streamMember, hindex, hback, streamTarMember, hnth, hcontents]
    · simp [Archive.read, hindex, hback, extractTarMemberStreaming_eq hnth, hcontents]
  | zip z =>
    simp only [hback] at hstores
    obtain ⟨zf, hzf, hcontents⟩ := hstores
    refine ⟨.read "zip", fun out => ?_, ?_⟩
    · simp [Archive.streamMember, hindex, hback, streamZipMember, hzf, hcontents]
    · simp only [Archive.read, List.getElem?_eq_getElem hindex, hback, readZipMember, hzf, ← hcontents]
      rfl

theorem read7zMember_of_stores {reader : SevenZReader} (hb : a.backend = .sevenZip reader)
    (hopen : Archive.openWithFormat B format data = .ok (some a)) (hstores : a.Stores B index b) :
    ∃ f, a.entries[index]? = some (sevenZListing f) ∧ read7zMember reader f.name f.size =
      if maxInflated < b.length then .error (.tooLarge maxInflated) else .ok b := by
  simp only [Archive.Stores, hb] at hstores
  obtain ⟨f, hget, hsize, hread⟩ := hstores
  refine ⟨f, ?_, ?_⟩
  · rw [(Archive.openWithFormat_sevenZip hopen hb).2, List.getElem?_map, hget]
    rfl
  · by_cases hlen : maxInflated < b.length
    · simp [read7zMember, hsize, hlen]
    · rw [if_neg hlen]
      exact read7zMember_eq_ok.mpr ⟨by omega, hread, by omega⟩

theorem read_of_sevenZip {reader : SevenZReader} (hb : a.backend = .sevenZip reader)
    (hopen : Archive.openWithFormat B format data = .ok (some a)) (hstores : a.Stores B index b) :
    a.read B index = if maxInflated < b.length then .error (.tooLarge maxInflated) else .ok b := by
  obtain ⟨f, hentry, hmember⟩ := read7zMember_of_stores hb hopen hstores
  simp only [Archive.read, hentry, hb]
  exact hmember

theorem streamMember_of_large (cap : Nat) {reader : SevenZReader} (hb : a.backend = .sevenZip reader)
    (hopen : Archive.openWithFormat B format data = .ok (some a)) (hstores : a.Stores B index b)
    (hlen : maxInflated < b.length) (out : ByteSink) :
    a.streamMember B index out cap = (out, .error (.tooLarge maxInflated)) := by
  obtain ⟨f, hentry, hmember⟩ := read7zMember_of_stores hb hopen hstores
  simp [Archive.streamMember, hentry, hb, sevenZListing, hmember, hlen]

theorem streamMember_of_small (cap : Nat) {reader : SevenZReader} (hb : a.backend = .sevenZip reader)
    (hopen : Archive.openWithFormat B format data = .ok (some a)) (hstores : a.Stores B index b)
    (hlen : b.length ≤ maxInflated) (out : ByteSink) :
    (cap < b.length → a.streamMember B index out cap = (out, .error (.tooLarge cap))) ∧
      (b.length ≤ cap → out.hasRoom b.length →
        a.streamMember B index out cap = (out.append b, .ok b.length)) := by
  obtain ⟨f, hentry, hmember⟩ := read7zMember_of_stores hb hopen hstores
  rw [if_neg (Nat.not_lt_of_le hlen)] at hmember
  simp only [Archive.streamMember, hentry, hb, sevenZListing, hmember]
  constructor
  · intro hlt
    rw [if_pos hlt]
  · intro hle hroom
    rw [if_neg (Nat.not_lt_of_le hle), Sink.writeAll_of_hasRoom hroom]

theorem spillMemberToTemp_of_stream (cap : Nat) (htemp : B.temp.Healthy)
    (hopen : Archive.openWithFormat B format data = .ok (some a)) :
    spillMemberToTemp B format data index cap =
      (a.streamMember B index B.temp.file cap).2.map fun n =>
        ⟨⟨(a.streamMember B index B.temp.file cap).1.written, 0⟩, n⟩ := by
  rw [spillMemberToTemp, hopen]
  simp only [spill, htemp.create, htemp.flush, htemp.rewind, bind, Except.bind, Except.mapError]
  cases (a.streamMember B index B.temp.file cap).2 <;> rfl

theorem callerCapOnly_of_stream {cap : Nat} (hopen : Archive.openWithFormat B format data = .ok (some a))
    (hfits : b.length ≤ cap → ∀ out : ByteSink, out.hasRoom b.length →
      a.streamMember B index out cap = (out.append b, .ok b.length))
    (hexceeds : cap < b.length → ∀ out : ByteSink, out.hasRoom (cap + 1) →
      (a.streamMember B index out cap).2 = .error (.tooLarge cap))
    (hread : cap = maxInflated →
      a.read B index = if cap < b.length then .error (.tooLarge cap) else .ok b) :
    CallerCapOnly B format data a index b cap where
  fits := hfits
  exceeds := hexceeds
  spills := by
    intro hle htemp
    rw [spillMemberToTemp_of_stream _ htemp hopen, hfits hle _ (htemp.takes _).room]
    rfl
  exceedsSpill := by
    intro hlt htemp
    rw [spillMemberToTemp_of_stream _ htemp hopen, hexceeds hlt _ (htemp.takes _).room]
    rfl
  read := hread

theorem callerCapOnly_of_not_sevenZip {cap : Nat} (hb : ∀ reader, a.backend ≠ .sevenZip reader)
    (hopen : Archive.openWithFormat B format data = .ok (some a)) (hindex : index < a.entries.length)
    (hstores : a.Stores B index b) (hcap : cap < wordMax) :
    CallerCapOnly B format data a index b cap := by
  obtain ⟨fail, hstream, hread⟩ := streamMember_of_not_sevenZip cap hb hindex hstores
  apply callerCapOnly_of_stream hopen
  · intro hle out hroom
    rw [hstream]
    exact (copyCapped_eq_ok hcap.le).mpr ⟨b, copied_of_lt hcap, hle, hroom, rfl, rfl⟩
  · intro hlt out hroom
    rw [hstream]
    exact copyCapped_tooLarge hcap hlt hroom
  · rintro rfl
    rw [hread]
    by_cases hlen : maxInflated < b.length
    · rw [if_pos hlen]
      exact readCapped_tooLarge hcap hlen
    · rw [if_neg hlen]
      exact (readCapped_eq_ok hcap).mpr ⟨rfl, by omega⟩

theorem callerCapOnly_of_small {cap : Nat} {reader : SevenZReader} (hb : a.backend = .sevenZip reader)
    (hopen : Archive.openWithFormat B format data = .ok (some a)) (hstores : a.Stores B index b)
    (hlen : b.length ≤ maxInflated) : CallerCapOnly B format data a index b cap := by
  have hstream := streamMember_of_small cap hb hopen hstores hlen
  apply callerCapOnly_of_stream hopen
  · intro hle out hroom
    exact (hstream out).2 hle hroom
  · intro hlt out _
    rw [(hstream out).1 hlt]
  · rintro rfl
    exact read_of_sevenZip hb hopen hstores

theorem callerCapOnly_iff_of_large {cap : Nat} {reader : SevenZReader}
    (hb : a.backend = .sevenZip reader)
    (hopen : Archive.openWithFormat B format data = .ok (some a)) (hstores : a.Stores B index b)
    (hlen : maxInflated < b.length) :
    CallerCapOnly B format data a index b cap ↔ cap = maxInflated := by
  constructor
  · intro honly
    have hroom : ∀ n, (Sink.buffer "" : ByteSink).hasRoom n := by simp [Sink.hasRoom, Sink.buffer]
    have hstream := streamMember_of_large cap hb hopen hstores hlen (Sink.buffer "")
    rcases Nat.lt_or_ge cap b.length with hlt | hle
    · have hnamed := honly.exceeds hlt _ (hroom _)
      rw [hstream] at hnamed
      exact (ArchiveError.tooLarge.inj (Except.error.inj hnamed)).symm
    · have hwhole := honly.fits hle _ (hroom _)
      rw [hstream] at hwhole
      cases hwhole
  · rintro rfl
    apply callerCapOnly_of_stream hopen
    · intro hle
      omega
    · intro _ out _
      rw [streamMember_of_large _ hb hopen hstores hlen]
    · intro _
      exact read_of_sevenZip hb hopen hstores

/-- A stored member answers to the cap of the caller alone, save a 7z member that is too
large to be decoded in memory. -/
theorem callerCapOnly_iff {cap : Nat} (hopen : Archive.openWithFormat B format data = .ok (some a))
    (hindex : index < a.entries.length) (hstores : a.Stores B index b) (hcap : cap < wordMax) :
    CallerCapOnly B format data a index b cap ↔ ¬ MemoryCapped a b cap := by
  by_cases hb : ∃ reader, a.backend = .sevenZip reader
  · obtain ⟨reader, hseven⟩ := hb
    rcases Nat.lt_or_ge maxInflated b.length with hlen | hlen
    · rw [callerCapOnly_iff_of_large hseven hopen hstores hlen, MemoryCapped]
      simp [hseven, hlen]
    · have hsmall : ¬ MemoryCapped a b cap := fun hcapped => hcapped.2.1.not_ge hlen
      exact iff_of_true (callerCapOnly_of_small hseven hopen hstores hlen) hsmall
  · have hother : ∀ reader, a.backend ≠ .sevenZip reader := fun reader hr => hb ⟨reader, hr⟩
    have honly := callerCapOnly_of_not_sevenZip hother hopen hindex hstores hcap
    exact iff_of_true honly fun hcapped => hb hcapped.1

end

/-- One byte more than 4 GiB. -/
def bigPayload : Bytes := List.replicate 4294967297 0

/-- One file `a` with that payload, stored as it is. -/
def bigSevenZip : Bytes :=
  [0x37, 0x7A, 0xBC, 0xAF, 0x27, 0x1C, 0x00, 0x04, 0x03, 0x4D, 0x33, 0xF7, 0x01, 0x00, 0x00, 0x00,
    0x01, 0x00, 0x00, 0x00, 0x2E, 0x00, 0x00, 0x00, 0x00, 0x00, 0x00, 0x00, 0xF4, 0xC8, 0xDC, 0x09] ++
    bigPayload ++
  [0x01, 0x04, 0x06, 0x00, 0x01, 0x09, 0xF1, 0x01, 0x00, 0x00, 0x00, 0x00, 0x07, 0x0B, 0x01, 0x00,
    0x01, 0x01, 0x00, 0x0C, 0xF1, 0x01, 0x00, 0x00, 0x00, 0x00, 0x08, 0x0A, 0x01, 0xFF, 0x12, 0xD9,
    0x41, 0x00, 0x00, 0x05, 0x01, 0x11, 0x05, 0x00, 0x61, 0x00, 0x00, 0x00, 0x00, 0x00]

def bigReader : SevenZReader where
  files := [⟨"a", 4294967297, false⟩]
  readFile := fun name => if name = "a" then .ok bigPayload else .error "FileNotFound"

def bigReaders : Backends :=
  { Backends.inert with
    sevenZip := fun data => if data = bigSevenZip then .ok bigReader else .error "BadSignature" }

def bigArchive : Archive := ⟨.sevenZip, [⟨"a", 4294967297, false⟩], .sevenZip bigReader⟩

theorem bigSevenZip_opens :
    Archive.openWithFormat bigReaders .sevenZip bigSevenZip = .ok (some bigArchive) := by
  have hseven : bigReaders.sevenZip bigSevenZip = .ok bigReader := by
    simp only [bigReaders, if_true]
  exact Archive.openWithFormat_of_sevenZip hseven

theorem bigPayload_length : bigPayload.length = maxInflated + 1 := by
  have hcount : maxInflated + 1 = 4294967297 := by decide
  rw [hcount, bigPayload, List.length_replicate]

theorem bigSevenZip_stores : bigArchive.Stores bigReaders 0 bigPayload := by
  have hsize : (4294967297 : UInt64).toNat = bigPayload.length := by
    rw [bigPayload_length]
    decide
  exact ⟨_, rfl, hsize, rfl⟩

/-- A payload of exactly the cap fails with a lower cap that the caller did not give. -/
theorem bigSevenZip_capped :
    Archive.openWithFormat bigReaders .sevenZip bigSevenZip = .ok (some bigArchive) ∧
      bigArchive.Stores bigReaders 0 bigPayload ∧ bigPayload.length = maxInflated + 1 ∧
      (bigArchive.streamMember bigReaders 0 (Sink.buffer "") (maxInflated + 1)).2 =
        .error (.tooLarge maxInflated) ∧
      ¬ CallerCapOnly bigReaders .sevenZip bigSevenZip bigArchive 0 bigPayload (maxInflated + 1) := by
  have hlen : maxInflated < bigPayload.length := by
    rw [bigPayload_length]
    exact Nat.lt_succ_self _
  have hstream := streamMember_of_large (maxInflated + 1) rfl bigSevenZip_opens bigSevenZip_stores
    hlen (Sink.buffer "")
  have herror : (bigArchive.streamMember bigReaders 0 (Sink.buffer "") (maxInflated + 1)).2 =
      .error (.tooLarge maxInflated) := by
    rw [hstream]
  refine ⟨bigSevenZip_opens, bigSevenZip_stores, bigPayload_length, herror, ?_⟩
  intro honly
  have hfits := honly.fits bigPayload_length.le (Sink.buffer "") (by simp [Sink.hasRoom, Sink.buffer])
  rw [hfits] at herror
  cases herror

theorem callerCapOnly_deflateZip :
    ∃ a, Archive.openWithFormat deflateReaders .zip deflateZip = .ok (some a) ∧
      CallerCapOnly deflateReaders .zip deflateZip a 0 (List.replicate 8 0x61) 4 := by
  refine ⟨_, Archive.openWithFormat_zipReaders deflateZip [deflateZipFile], ?_⟩
  refine (callerCapOnly_iff (Archive.openWithFormat_zipReaders _ _) (by decide)
    ⟨deflateZipFile, rfl, rfl⟩ (by decide)).mpr ?_
  intro hcapped
  obtain ⟨⟨reader, hb⟩, -⟩ := hcapped
  cases hb

end ArchiveCore
