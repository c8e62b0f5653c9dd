import ArchiveCore.Core.Archive

/-!
# Capped copies are exact below the largest cap

A copy or a drain reads one byte past its cap, so that what is over the cap is told from what
just fits, and a stream that fits has been followed to its end. At the largest word one past
the cap is zero: nothing is read, and the empty result passes for the whole stream.
-/

namespace ArchiveCore

open Framework

/-- What a capped copy owes its caller: success exactly on a stream that ends within the cap
and fits the sink, with all of it written; the cap named when it is exceeded; the failure of
the reader or of the sink otherwise. -/
structure ExactCopy (fail : String → ArchiveError) (reader : ByteFeed) (out : ByteSink)
    (cap : Nat) : Prop where
  succeeds : ∀ out' n, copyCapped fail reader out cap = (out', .ok n) ↔
    reader.ending = none ∧ reader.items.length ≤ cap ∧ out.hasRoom reader.items.length ∧
      out' = out.append reader.items ∧ n = reader.items.length
  /-- The end of file was reached: an error in its place is an error of the copy. -/
  driven : ∀ out' n, copyCapped fail reader out cap = (out', .ok n) →
    ∀ e, (copyCapped fail ⟨reader.items, some e⟩ out cap).2 = .error (fail e)
  tooLarge : cap < reader.items.length → out.hasRoom (cap + 1) →
    (copyCapped fail reader out cap).2 = .error (.tooLarge cap)
  broken : reader.items.length ≤ cap → out.hasRoom reader.items.length →
    ∀ e, reader.ending = some e → (copyCapped fail reader out cap).2 = .error (fail e)
  full : ¬ out.hasRoom (min reader.items.length (cap + 1)) →
    (copyCapped fail reader out cap).2 = .error (fail out.fault)

/-- The same of a tar member extracted into memory; `entry` is the member found. -/
structure ExactExtraction (B : Backends) (compressed : Bytes) (outer : Format) (index : Nat)
    (entry : TarEntry) (cap : Nat) : Prop where
  succeeds : ∀ b, extractTarMemberStreaming B compressed outer index cap = .ok b ↔
    entry.contents = Feed.eof b ∧ b.length ≤ cap
  driven : ∀ b, extractTarMemberStreaming B compressed outer index cap = .ok b →
    ∀ B' entry' e, nthTarEntry B' compressed outer index = .ok entry' →
      entry'.contents = ⟨b, some e⟩ →
      extractTarMemberStreaming B' compressed outer index cap = .error (.read "tar" e)
  tooLarge : cap < entry.contents.items.length →
    extractTarMemberStreaming B compressed outer index cap = .error (.tooLarge cap)
  broken : entry.contents.items.length ≤ cap → ∀ e, entry.contents.ending = some e →
    extractTarMemberStreaming B compressed outer index cap = .error (.read "tar" e)

section

variable {fail : String → ArchiveError} {reader : ByteFeed} {out : ByteSink} {cap : Nat}

theorem copyCapped_of_copy_error {e : String}
    (h : ((reader.take (wrapAdd cap 1)).copy out).2 = .error e) :
    (copyCapped fail reader out cap).2 = .error (fail e) := by
  rw [copyCapped]
  split
  · rename_i out' e' hcopy
    rw [hcopy] at h
    rw [Except.error.inj h]
  · rename_i out' n hcopy
    rw [hcopy] at h
    cases h

theorem copyCapped_tooLarge (hcap : cap < wordMax) (hlen : cap < reader.items.length)
    (hroom : out.hasRoom (cap + 1)) :
    (copyCapped fail reader out cap).2 = .error (.tooLarge cap) := by
  obtain ⟨xs, htake, hxs⟩ := Feed.take_succ_beyond hlen
  have hcopy : (reader.take (wrapAdd cap 1)).copy out = (out.append xs, .ok (cap + 1)) := by
    rw [wrapAdd_eq hcap, htake]
    exact Feed.copy_eq_ok.mpr ⟨rfl, by simpa [hxs] using hroom, rfl, by simp [hxs]⟩
  simp [copyCapped, hcopy]

theorem copyCapped_broken (hcap : cap < wordMax) (hlen : reader.items.length ≤ cap)
    (hroom : out.hasRoom reader.items.length) {e : String} (he : reader.ending = some e) :
    (copyCapped fail reader out cap).2 = .error (fail e) := by
  apply copyCapped_of_copy_error
  rw [wrapAdd_eq hcap, Feed.take_of_length_lt (by omega)]
  exact Feed.copy_of_ending hroom he

theorem copyCapped_full (hcap : cap < wordMax)
    (hroom : ¬ out.hasRoom (min reader.items.length (cap + 1))) :
    (copyCapped fail reader out cap).2 = .error (fail out.fault) := by
  apply copyCapped_of_copy_error
  apply Feed.copy_of_not_hasRoom
  rw [wrapAdd_eq hcap]
  by_cases hlen : cap < reader.items.length
  · obtain ⟨xs, htake, hxs⟩ := Feed.take_succ_beyond hlen
    rw [Nat.min_eq_right hlen] at hroom
    rwa [htake, Feed.eof_items, hxs]
  · rw [Nat.min_eq_left (by omega)] at hroom
    rwa [Feed.take_of_length_lt (by omega)]

theorem copyCapped_wordMax :
    copyCapped fail reader out wordMax = (out.append [], .ok 0) :=
  (copyCapped_eq_ok le_rfl).mpr ⟨[], copied_wordMax, Nat.zero_le _, by simp [Sink.hasRoom], rfl, rfl⟩

theorem exactCopy_of_lt (hcap : cap < wordMax) : ExactCopy fail reader out cap where
  succeeds := by
    intro out' n
    rw [copyCapped_eq_ok hcap.le, copied_of_lt hcap]
    constructor
    · intro h
      obtain ⟨b, rfl, h⟩ := h
      exact ⟨rfl, h⟩
    · intro h
      obtain ⟨hend, h⟩ := h
      exact ⟨reader.items, Feed.eq_eof hend, h⟩
  driven := by
    intro out' n h e
    obtain ⟨b, hb, hlen, hroom, -⟩ := (copyCapped_eq_ok hcap.le).mp h
    rw [copied_of_lt hcap] at hb
    subst hb
    exact copyCapped_broken hcap hlen hroom rfl
  tooLarge := copyCapped_tooLarge hcap
  broken := fun hlen hroom _ he => copyCapped_broken hcap hlen hroom he
  full := copyCapped_full hcap

theorem not_exactCopy_wordMax : ¬ ExactCopy fail reader out wordMax := by
  intro h
  have hdriven := h.driven _ _ copyCapped_wordMax ""
  rw [copyCapped_wordMax] at hdriven
  cases hdriven

end

section

variable {B : Backends} {compressed : Bytes} {outer : Format} {index cap : Nat} {entry : TarEntry}

theorem extractTarMemberStreaming_eq (h : nthTarEntry B compressed outer index = .ok entry) :
    extractTarMemberStreaming B compressed outer index cap =
      readCapped (.read "tar") cap entry.contents := by
  rw [extractTarMemberStreaming, h]
  rfl

theorem readCapped_tooLarge {fail : String → ArchiveError} {reader : ByteFeed}
    (hcap : cap < wordMax) (hlen : cap < reader.items.length) :
    readCapped fail cap reader = .error (.tooLarge cap) := by
  obtain ⟨xs, htake, hxs⟩ := Feed.take_succ_beyond hlen
  have hread : (reader.take (wrapAdd cap 1)).readToEnd = .ok xs := by
    rw [wrapAdd_eq hcap]
    exact Feed.readToEnd_eq_ok.mpr htake
  simp [readCapped, hread, hxs, Except.mapError, bind, Except.bind]

theorem readCapped_broken {fail : String → ArchiveError} {reader : ByteFeed}
    (hcap : cap < wordMax) (hlen : reader.items.length ≤ cap) {e : String}
    (he : reader.ending = some e) : readCapped fail cap reader = .error (fail e) := by
  have hread : (reader.take (wrapAdd cap 1)).readToEnd = .error e := by
    rw [wrapAdd_eq hcap, Feed.take_of_length_lt (by omega), Feed.readToEnd, he]
  simp [readCapped, hread, Except.mapError, bind, Except.bind]

theorem exactExtraction_of_lt (hcap : cap < wordMax)
    (h : nthTarEntry B compressed outer index = .ok entry) :
    ExactExtraction B compressed outer index entry cap where
  succeeds := by
    intro b
    rw [extractTarMemberStreaming_eq h]
    exact readCapped_eq_ok hcap
  driven := by
    intro b hb B' entry' e h' hcontents
    rw [extractTarMemberStreaming_eq h] at hb
    obtain ⟨-, hlen⟩ := (readCapped_eq_ok hcap).mp hb
    rw [extractTarMemberStreaming_eq h', hcontents]
    exact readCapped_broken hcap hlen rfl
  tooLarge := by
    intro hlen
    rw [extractTarMemberStreaming_eq h]
    exact readCapped_tooLarge hcap hlen
  broken := by
    intro hlen e he
    rw [extractTarMemberStreaming_eq h]
    exact readCapped_broken hcap hlen he

/-- The same readers, save that every tar has one member at `index`. -/
def Backends.withTarEntry (B : Backends) (index : Nat) (entry : TarEntry) : Backends :=
  { B with tarEntries := fun _ => .ok (List.replicate index (.error "") ++ [.ok entry]) }

theorem nthTarEntry_withTarEntry (B : Backends) (compressed : Bytes) (outer : Format)
    (index : Nat) (entry : TarEntry) :
    nthTarEntry (B.withTarEntry index entry) compressed outer index = .ok entry := by
  simp [nthTarEntry, Backends.withTarEntry, Except.mapError, bind, Except.bind]

theorem not_exactExtraction_wordMax (h : nthTarEntry B compressed outer index = .ok entry) :
    ¬ ExactExtraction B compressed outer index entry wordMax := by
  intro hexact
  have hempty : ∀ {B' : Backends} {entry' : TarEntry},
      nthTarEntry B' compressed outer index = .ok entry' →
        extractTarMemberStreaming B' compressed outer index wordMax = .ok [] := by
    intro B' entry' h'
    rw [extractTarMemberStreaming_eq h', readCapped, wrapAdd_wordMax_one, Feed.take_zero]
    rfl
  have hother := nthTarEntry_withTarEntry B compressed outer index ⟨"", .ok 0, false, ⟨[], some ""⟩⟩
  have hdriven := hexact.driven [] (hempty h) _ _ "" hother rfl
  rw [hempty hother] at hdriven
  cases hdriven

/-- Copying under a cap and extracting under a cap are exact at every cap but the largest
word, and at that one they never are. -/
theorem capped_exact_iff (fail : String → ArchiveError) (reader : ByteFeed) (out : ByteSink)
    (hcap : cap ≤ wordMax) (h : nthTarEntry B compressed outer index = .ok entry) :
    (ExactCopy fail reader out cap ↔ cap < wordMax) ∧
      (ExactExtraction B compressed outer index entry cap ↔ cap < wordMax) := by
  rcases Nat.lt_or_eq_of_le hcap with hlt | rfl
  · simp [hlt, exactCopy_of_lt hlt, exactExtraction_of_lt hlt h]
  · simp [not_exactCopy_wordMax, not_exactExtraction_wordMax h]

end

/-- A gzip stream of one byte, copied under the largest cap: no error, and nothing written. -/
theorem capped_truncates :
    copyCapped (.decode "gzip") (Feed.eof [0x41]) (Sink.buffer "") wordMax =
        (Sink.buffer "", .ok 0) ∧
      ¬ ExactCopy (.decode "gzip") (Feed.eof [0x41]) (Sink.buffer "") wordMax :=
  ⟨copyCapped_wordMax, not_exactCopy_wordMax⟩

theorem capped_exact_one :
    ExactCopy (.decode "gzip") (Feed.eof [0x41]) (Sink.buffer "") 1 ∧
      ExactExtraction (Backends.inert.withTarEntry 0 ⟨"a", .ok 1, false, Feed.eof [0x41]⟩) [] .tar 0
        ⟨"a", .ok 1, false, Feed.eof [0x41]⟩ 1 := by
  have hboth := capped_exact_iff (.decode "gzip") (Feed.eof [0x41]) (Sink.buffer "")
    (by decide : 1 ≤ wordMax)
    (nthTarEntry_withTarEntry Backends.inert [] .tar 0 ⟨"a", .ok 1, false, Feed.eof [0x41]⟩)
  exact ⟨hboth.1.mpr (by decide), hboth.2.mpr (by decide)⟩

end ArchiveCore
