import ArchiveCore.Core.Reassemble

/-!
# What extracting one member delivers

`Archive.memberFeed` is the reader behind position `index`, whatever the backend. Reading
into memory, streaming into a sink and spilling to a temp file are drains of that one
reader, each under its own cap.
-/

namespace ArchiveCore

open Framework

/-- The reader at a position. A 7z member is decoded in one piece first. -/
def Archive.memberFeed (B : Backends) (a : Archive) (index : Nat) : Except ArchiveError ByteFeed :=
  match a.entries[index]? with
  | none => .error (.indexOutOfRange index a.entries.length)
  | some entry =>
    match a.backend with
    | .tar compressed outer => (nthTarEntry B compressed outer index).map TarEntry.contents
    | .zip archive => ((archive.byIndex index).mapError (.read "zip")).map ZipFile.contents
    | .sevenZip reader => (read7zMember reader entry.name entry.size).map Feed.eof

/-- The archive stores `b` at position `index` and decodes it as such. -/
def Archive.Stores (B : Backends) (a : Archive) (index : Nat) (b : Bytes) : Prop :=
  match a.backend with
  | .tar compressed outer => ∃ items entry, B.tarEntries (tarStream B compressed outer) = .ok items ∧
      items[index]? = some (.ok entry) ∧ entry.contents = Feed.eof b
  | .zip archive => ∃ zf, archive.byIndex index = .ok zf ∧ zf.contents = Feed.eof b
  | .sevenZip reader => ∃ f, reader.files[index]? = some f ∧ f.size.toNat = b.length ∧
      reader.readFile f.name = .ok b

theorem Archive.openWithFormat_unique {B : Backends} {format : Format} {data : Bytes} {a a' : Archive}
    (h : openWithFormat B format data = .ok (some a))
    (h' : openWithFormat B format data = .ok (some a')) : a = a' :=
  Option.some.inj (Except.ok.inj (h.symm.trans h'))

theorem read7zMember_eq_ok {reader : SevenZReader} {name : String} {size : UInt64} {b : Bytes} :
    read7zMember reader name size = .ok b ↔
      size.toNat ≤ maxInflated ∧ reader.readFile name = .ok b ∧ b.length ≤ maxInflated := by
  rw [read7zMember]
  by_cases hsize : maxInflated < size.toNat
  · simp [hsize]
  · simp only [hsize, if_false, bind_eq_ok, mapError_eq_ok]
    constructor
    · intro h
      obtain ⟨out, hout, h⟩ := h
      by_cases hlen : maxInflated < out.length
      · simp [hlen] at h
      · rw [if_neg hlen] at h
        obtain rfl := Except.ok.inj h
        exact ⟨Nat.le_of_not_lt hsize, hout, Nat.le_of_not_lt hlen⟩
    · intro h
      obtain ⟨-, hout, hlen⟩ := h
      exact ⟨b, hout, if_neg (Nat.not_lt_of_le hlen)⟩

namespace Archive

variable {B : Backends} {a : Archive} {index cap : Nat}

theorem open_readCapped_eq_ok {σ : Type} {opened : Except ArchiveError σ} {contents : σ → ByteFeed}
    {fail : String → ArchiveError} {b : Bytes} :
    (do let s ← opened; readCapped fail maxInflated (contents s)) = .ok b ↔
      opened.map contents = .ok (Feed.eof b) ∧ b.length ≤ maxInflated := by
  simp only [bind_eq_ok, readCapped_eq_ok maxInflated_lt_wordMax, map_eq_ok]
  constructor
  · intro h
    obtain ⟨s, hs, hfeed, hlen⟩ := h
    exact ⟨⟨s, hs, hfeed⟩, hlen⟩
  · intro h
    obtain ⟨⟨s, hs, hfeed⟩, hlen⟩ := h
    exact ⟨s, hs, hfeed, hlen⟩

theorem read_eq_ok {b : Bytes} :
    a.read B index = .ok b ↔ a.memberFeed B index = .ok (Feed.eof b) ∧ b.length ≤ maxInflated := by
  rw [read, memberFeed]
  cases a.entries[index]? with
  | none => simp
  | some entry =>
    cases a.backend with
    | tar compressed outer => exact open_readCapped_eq_ok
    | zip archive => exact open_readCapped_eq_ok
    | sevenZip reader =>
      simp only [map_eq_ok, read7zMember_eq_ok]
      constructor
      · intro h
        obtain ⟨hsize, hfile, hlen⟩ := h
        exact ⟨⟨b, ⟨hsize, hfile, hlen⟩, rfl⟩, hlen⟩
      · intro h
        obtain ⟨⟨b', h, heq⟩, -⟩ := h
        obtain rfl := congrArg Feed.items heq
        exact h

/-- What streaming a member sees of its reader; a 7z member is in memory by then. -/
def streamed (a : Archive) (cap : Nat) (feed : ByteFeed) : ByteFeed :=
  match a.backend with
  | .sevenZip _ => feed
  | _ => copied cap feed

theorem streamed_of_lt (hcap : cap < wordMax) (feed : ByteFeed) : a.streamed cap feed = feed := by
  rw [streamed]
  cases a.backend <;> simp [copied_of_lt hcap]

theorem streamed_wordMax (hb : ∀ reader, a.backend ≠ .sevenZip reader) (feed : ByteFeed) :
    a.streamed wordMax feed = Feed.eof [] := by
  rw [streamed]
  split
  · rename_i reader hr
    exact absurd hr (hb reader)
  · exact copied_wordMax

/-- Streaming a member within its cap writes exactly what it sees of the member's reader. -/
theorem streamMember_eq_ok (hcap : cap ≤ wordMax) {out out' : ByteSink} {n : Nat} :
    a.streamMember B index out cap = (out', .ok n) ↔
      ∃ feed b, a.memberFeed B index = .ok feed ∧ a.streamed cap feed = Feed.eof b ∧
        b.length ≤ cap ∧ out.hasRoom b.length ∧ out' = out.append b ∧ n = b.length := by
  -- the two streaming backends copy a reader
  have hcopy : ∀ (reader : Except ArchiveError ByteFeed) (fail : String → ArchiveError),
      (match reader with
        | .error e => (out, .error e)
        | .ok feed => copyCapped fail feed out cap) = (out', .ok n) ↔
      ∃ feed b, reader = .ok feed ∧ copied cap feed = Feed.eof b ∧ b.length ≤ cap ∧
        out.hasRoom b.length ∧ out' = out.append b ∧ n = b.length := by
    intro reader fail
    cases reader with
    | error e => simp
    | ok feed => simp [copyCapped_eq_ok hcap]
  rw [streamMember, memberFeed]
  cases a.entries[index]? with
  | none => simp
  | some entry =>
    cases hb : a.backend with
    | tar compressed outer =>
      simp only [streamed, hb]
      rw [← hcopy _ (.read "tar")]
      cases h : nthTarEntry B compressed outer index <;> simp [streamTarMember, h, Except.map]
    | zip archive =>
      simp only [streamed, hb]
      rw [← hcopy _ (.read "zip")]
      cases h : archive.byIndex index <;> simp [streamZipMember, h, Except.map, Except.mapError]
    | sevenZip reader =>
      simp only [streamed, hb]
      cases h : read7zMember reader entry.name entry.size with
      | error e => simp [Except.map]
      | ok bytes =>
        have heof : ∀ b : Bytes, (Feed.eof bytes : ByteFeed) = Feed.eof b ↔ bytes = b :=
          fun b => ⟨congrArg Feed.items, congrArg Feed.eof⟩
        by_cases hlen : cap < bytes.length
        · simp [heof, hlen, Except.map]
        · by_cases hroom : out.hasRoom bytes.length
          · simp [heof, hlen, hroom, Sink.writeAll_of_hasRoom hroom, Except.map,
              Nat.le_of_not_lt hlen, eq_comm]
          · simp [heof, hlen, hroom, Sink.writeAll, Except.map]

end Archive

/-- The volume takes a file of `n` bytes. -/
structure TempVolume.Takes (temp : TempVolume) (n : Nat) : Prop where
  create : temp.create = .ok ()
  room : temp.file.hasRoom n
  flush : temp.flush = .ok ()
  rewind : temp.rewind = .ok ()

/-- A temp file holding `b`, rewound. -/
def TempBacked.holding (b : Bytes) : TempBacked := ⟨⟨b, 0⟩, b.length⟩

theorem TempVolume.Healthy.takes {temp : TempVolume} (h : temp.Healthy) (n : Nat) : temp.Takes n where
  create := h.create
  room := by
    intro room hroom
    simp [TempVolume.file, h.room] at hroom
  flush := h.flush
  rewind := h.rewind

theorem spill_eq_ok {B : Backends} {fill : ByteSink → ByteSink × Except ArchiveError Nat}
    {t : TempBacked} :
    spill B fill = .ok t ↔
      B.temp.create = .ok () ∧ B.temp.flush = .ok () ∧ B.temp.rewind = .ok () ∧
        ∃ out n, fill B.temp.file = (out, .ok n) ∧ t = ⟨⟨out.written, 0⟩, n⟩ := by
  simp only [spill, bind_eq_ok, mapError_eq_ok, pure_eq_ok]
  constructor
  · intro h
    obtain ⟨_, hcreate, n, hfill, _, hflush, _, hrewind, rfl⟩ := h
    exact ⟨hcreate, hflush, hrewind, _, n, Prod.ext rfl hfill, rfl⟩
  · intro h
    obtain ⟨hcreate, hflush, hrewind, out, n, hfill, rfl⟩ := h
    exact ⟨(), hcreate, n, by rw [hfill], (), hflush, (), hrewind, by rw [hfill]⟩

theorem spillMemberToTemp_eq_ok {B : Backends} {format : Format} {data : Bytes} {index cap : Nat}
    (hcap : cap ≤ wordMax) {t : TempBacked} :
    spillMemberToTemp B format data index cap = .ok t ↔
      ∃ archive feed b, Archive.openWithFormat B format data = .ok (some archive) ∧
        archive.memberFeed B index = .ok feed ∧ archive.streamed cap feed = Feed.eof b ∧
        b.length ≤ cap ∧ B.temp.Takes b.length ∧ t = .holding b := by
  rw [spillMemberToTemp, bind_eq_ok]
  constructor
  · intro h
    obtain ⟨opened, hopen, h⟩ := h
    cases opened with
    | none => cases h
    | some archive =>
      obtain ⟨hcreate, hflush, hrewind, out, n, hfill, rfl⟩ := spill_eq_ok.mp h
      obtain ⟨feed, b, hfeed, hb, hlen, hroom, rfl, rfl⟩ :=
        (Archive.streamMember_eq_ok hcap).mp hfill
      exact ⟨archive, feed, b, hopen, hfeed, hb, hlen, ⟨hcreate, hroom, hflush, hrewind⟩, rfl⟩
  · intro h
    obtain ⟨archive, feed, b, hopen, hfeed, hb, hlen, htakes, rfl⟩ := h
    refine ⟨some archive, hopen, spill_eq_ok.mpr ⟨htakes.create, htakes.flush, htakes.rewind, ?_⟩⟩
    exact ⟨B.temp.file.append b, b.length, (Archive.streamMember_eq_ok hcap).mpr
      ⟨feed, b, hfeed, hb, hlen, htakes.room, rfl, rfl⟩, rfl⟩

theorem spillWrapperToTemp_eq_ok {B : Backends} {data : Bytes} {codec : Codec} {cap : Nat}
    (hcap : cap ≤ wordMax) {t : TempBacked} :
    spillWrapperToTemp B data codec cap = .ok t ↔
      ∃ b, copied cap (codecReader B codec data) = Feed.eof b ∧ b.length ≤ cap ∧
        B.temp.Takes b.length ∧ t = .holding b := by
  rw [spillWrapperToTemp, spill_eq_ok]
  simp only [copyCapped_eq_ok hcap]
  constructor
  · intro h
    obtain ⟨hcreate, hflush, hrewind, out, n, ⟨b, hb, hlen, hroom, rfl, rfl⟩, rfl⟩ := h
    exact ⟨b, hb, hlen, ⟨hcreate, hroom, hflush, hrewind⟩, rfl⟩
  · intro h
    obtain ⟨b, hb, hlen, htakes, rfl⟩ := h
    exact ⟨htakes.create, htakes.flush, htakes.rewind, _, _, ⟨b, hb, hlen, htakes.room, rfl, rfl⟩, rfl⟩

end ArchiveCore
