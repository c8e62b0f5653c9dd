import ArchiveCore.Proofs.SegmentReads

/-!
# What an extraction leaves behind

Streaming a member adds a front part of it to the sink, one byte past the cap at most, however
it ends. A seekable handle is backed by the bytes it was handed, by one copy of them, or by one
spill within the cap, and its seek index holds no more than the gate lets pass.
-/

namespace ArchiveCore

open Framework

/-- What a stream has written when it stops, with or without an error. -/
structure WritesFront (feed : Except ArchiveError ByteFeed) (out : ByteSink) (cap : Nat)
    (result : ByteSink × Except ArchiveError Nat) (front : Bytes) : Prop where
  appended : result.1 = out.append front
  bounded : front.length ≤ cap + 1
  member : ∀ reader, feed = .ok reader → front <+: reader.items
  untouched : ∀ e, feed = .error e → front = []
  reported : ∀ n, result.2 = .ok n → n = front.length ∧ n ≤ cap

section

variable {B : Backends} {a : Archive} {index cap : Nat} {out : ByteSink}

theorem wrapAdd_le (m n : Nat) : wrapAdd m n ≤ m + n := Nat.mod_le _ _

theorem writesFront_of_error {e : ArchiveError} :
    WritesFront (.error e) out cap (out, .error e) [] where
  appended := by simp [Sink.append]
  bounded := Nat.zero_le _
  member := by simp
  untouched := fun _ _ => rfl
  reported := by simp

theorem copyCapped_writes (fail : String → ArchiveError) (reader : ByteFeed) (out : ByteSink)
    (cap : Nat) : ∃ front, WritesFront (.ok reader) out cap (copyCapped fail reader out cap) front := by
  obtain ⟨front, hfront, hwritten, hcount⟩ := (reader.take (wrapAdd cap 1)).exists_copy_append out
  rw [Feed.take_items] at hfront
  refine ⟨front, ?_, ?_, ?_, by simp, ?_⟩
  · rw [copyCapped]
    split <;> simp_all
  · have hlen := hfront.length_le
    have hwrap := wrapAdd_le cap 1
    rw [List.length_take] at hlen
    omega
  · rintro _ ⟨⟩
    exact hfront.trans (List.take_prefix _ _)
  · intro n hn
    rw [copyCapped] at hn
    split at hn
    · cases hn
    · rename_i h
      rw [h] at hcount
      split_ifs at hn with hover
      obtain rfl := Except.ok.inj hn
      exact ⟨hcount _ rfl, Nat.le_of_not_lt hover⟩

theorem WritesFront.map {σ : Type} {opened : Except ArchiveError σ} {contents : σ → ByteFeed}
    {result : ByteSink × Except ArchiveError Nat}
    (hfail : ∀ e, opened = .error e → result = (out, .error e))
    (hcopy : ∀ s, opened = .ok s → ∃ front, WritesFront (.ok (contents s)) out cap result front) :
    ∃ front, WritesFront (opened.map contents) out cap result front := by
  cases opened with
  | error e =>
    rw [hfail e rfl]
    exact ⟨[], writesFront_of_error⟩
  | ok s => exact hcopy s rfl

theorem writeAll_writes (bytes : Bytes) (out : ByteSink) (cap : Nat) :
    ∃ front, WritesFront (.ok (Feed.eof bytes)) out cap
      (if cap < bytes.length then (out, .error (.tooLarge cap))
      else
        match out.writeAll bytes with
        | (out, .error e) => (out, .error (.read "7z" e))
        | (out, .ok ()) => (out, .ok bytes.length)) front := by
  by_cases hover : cap < bytes.length
  · rw [if_pos hover]
    exact ⟨[], by simp [Sink.append], Nat.zero_le _, fun _ _ => List.nil_prefix, by simp, by simp⟩
  · rw [if_neg hover]
    obtain ⟨front, hfront, hwritten, hwhole⟩ := out.exists_writeAll_append bytes
    have hlen := hfront.length_le
    refine ⟨front, ?_, by omega, ?_, by simp, ?_⟩
    · split <;> simp_all
    · rintro _ ⟨⟩
      exact hfront
    · intro n hn
      split at hn
      · cases hn
      · rename_i h
        rw [h] at hwhole
        obtain rfl := Except.ok.inj hn
        exact ⟨by rw [hwhole rfl], Nat.le_of_not_lt hover⟩

/-- Streaming a member adds a front part of it to the sink and nothing else, whatever the
outcome: one byte past the cap at most, nothing where it has no reader, and on success as many
bytes as are reported. -/
theorem streamMember_writes (B : Backends) (a : Archive) (index : Nat) (out : ByteSink) (cap : Nat) :
    ∃ front, WritesFront (a.memberFeed B index) out cap (a.streamMember B index out cap) front := by
  rw [Archive.memberFeed, Archive.streamMember]
  cases hentry : a.entries[index]? with
  | none => exact ⟨[], writesFront_of_error⟩
  | some entry =>
    cases a.backend with
    | tar compressed outer =>
      refine WritesFront.map (fun e h => by simp only [streamTarMember, h]) fun entry h => ?_
      simp only [streamTarMember, h]
      exact copyCapped_writes _ _ _ _
    | zip archive =>
      refine WritesFront.map (fun e h => ?_) fun zf h => ?_
      · obtain ⟨e', he', rfl⟩ := mapError_eq_error.mp h
        simp only [streamZipMember, he']
      · rw [mapError_eq_ok] at h
        simp only [streamZipMember, h]
        exact copyCapped_writes _ _ _ _
    | sevenZip reader =>
      refine WritesFront.map (fun e h => by simp only [h]) fun bytes h => ?_
      simp only [h]
      exact writeAll_writes bytes out cap

end

/-- The bytes a handle keeps in a temp file. -/
def PeeledSource.tempBytes : PeeledSource → Nat
  | inPlace _ => 0
  | zran z => z.archive.length
  | temp t => t.inner.bytes.length

/-- What a handle may be backed by: the bytes handed in, a copy of them with a seek index that
the listed size of the member has room in, or a spill within the cap. -/
inductive Backed (B : Backends) (data : Bytes) (limits : Limits) : PeeledSource → Prop
  | shared {w} : w.data = data → Backed B data limits (.inPlace w)
  | indexed {z archive listed} :
      z.archive = data → Archive.openWithFormat B .zip data = .ok (some archive) →
      listed ∈ archive.entries → B.openEntry data listed.name = .ok z.entry →
      listed.size.toNat ≤ limits.maxIndexBytes / zranCheckpointBytes * zranCheckpointInterval →
      Backed B data limits (.zran z)
  | spilled {t} :
      t.inner.bytes.length = t.len → t.len ≤ limits.maxTotalInflated → Backed B data limits (.temp t)

section

variable {B : Backends} {data : Bytes} {limits : Limits}

theorem Backed.tempBytes_le {source : PeeledSource} (h : Backed B data limits source) :
    source.tempBytes ≤ max limits.maxTotalInflated data.length := by
  cases h with
  | shared => exact Nat.zero_le _
  | indexed harchive =>
    rw [PeeledSource.tempBytes, harchive]
    exact le_max_right _ _
  | spilled hlen hcap =>
    rw [PeeledSource.tempBytes, hlen]
    exact hcap.trans (le_max_left _ _)

theorem size_le_of_estimate {size most : Nat} (hsize : size ≤ wordMax)
    (h : estimateZranIndexBytes size ≤ most) :
    size ≤ most / zranCheckpointBytes * zranCheckpointInterval := by
  have hcheckpoints : max ((size + zranCheckpointInterval - 1) / zranCheckpointInterval) 1 *
      zranCheckpointBytes ≤ wordMax := by
    simp only [zranCheckpointInterval, zranCheckpointBytes, wordMax] at hsize ⊢
    omega
  rw [estimateZranIndexBytes, satMul, min_eq_left hcheckpoints] at h
  have hcount := (Nat.le_div_iff_mul_le (by decide)).mpr h
  have hceil := (le_max_left _ 1).trans hcount
  have hspan := Nat.mul_le_mul_right zranCheckpointInterval hceil
  refine le_trans ?_ hspan
  simp only [zranCheckpointInterval]
  omega

theorem backed_of_executeMemberAccess {format : Format} {archive : Archive} {index : Nat}
    {nm : String} {access : Access} {source : PeeledSource}
    (hopen : Archive.openWithFormat B format data = .ok (some archive))
    (hfile : (index, nm) ∈ fileMembers archive.entries)
    (h : executeMemberAccess B format data index nm access limits = .ok source) :
    Backed B data limits source := by
  rcases executeMemberAccess_eq_ok.mp h with
    ⟨offset, len, hroute, rfl⟩ | ⟨entry, hroute, rfl⟩ | ⟨b, hroute, rfl⟩
  · exact .shared rfl
  · obtain ⟨-, rfl, ⟨size, hsize, hgate⟩, -, -, -, hentry⟩ := hroute
    obtain ⟨archive', listed', hopen', hlisted', rfl⟩ := memberUncompressedSize_eq_ok.mp hsize
    obtain ⟨listed, hlisted, -, rfl⟩ := mem_fileMembers.mp hfile
    obtain rfl := Archive.openWithFormat_unique hopen hopen'
    obtain rfl := Option.some.inj (hlisted.symm.trans hlisted')
    have hword : listed.size.toNat ≤ wordMax := Nat.le_of_lt_succ listed.size.toNat_lt
    exact .indexed rfl hopen (List.mem_of_getElem? hlisted) hentry (size_le_of_estimate hword hgate)
  · exact .spilled rfl hroute.capped

/-- Each seekable handle is backed by the bytes handed in, by one copy of them or by one spill
within the cap, so a whole set takes no more temp space than that for each of its segments. -/
theorem seekable_footprint (B : Backends) (data : Bytes) (name : Option String) (limits : Limits) :
    (∀ source, peelArchiveSeekable B data name limits = .ok (.inner source) →
      Backed B data limits source ∧
        source.tempBytes ≤ max limits.maxTotalInflated data.length) ∧
    ∀ ss, segmentSources B data limits = .ok (some ss) →
      (∀ source ∈ ss.sources, Backed B data limits source) ∧
        (ss.sources.map PeeledSource.tempBytes).sum ≤
          ss.sources.length * max limits.maxTotalInflated data.length := by
  constructor
  · intro source h
    have hbacked : Backed B data limits source := by
      rcases peelArchiveSeekable_eq_inner.mp h with
        ⟨codec, access, t, -, ht, rfl⟩ | ⟨format, index, nm, access, hplan, hsource⟩
      · obtain ⟨b, -, hlen, -, rfl⟩ := (spillWrapperToTemp_eq_ok limits.maxTotalInflated_le).mp ht
        exact .spilled rfl hlen
      · obtain ⟨archive, hopen, hfiles, -⟩ := member_of_detect hplan
        exact backed_of_executeMemberAccess hopen (hfiles ▸ List.mem_singleton_self _) hsource
    exact ⟨hbacked, hbacked.tempBytes_le⟩
  · intro ss hss
    obtain ⟨members, hplan, hsources⟩ := segmentSources_eq_some.mp hss
    obtain ⟨archive, hopen, hset⟩ := plannedSet_of_detect hplan
    have hbacked : ∀ source ∈ ss.sources, Backed B data limits source := by
      intro source hsource
      obtain ⟨i, hi, rfl⟩ := List.mem_iff_getElem.mp hsource
      obtain ⟨seg, hget, hseg⟩ := getElem?_of_mapM_eq_ok hsources i (List.getElem?_eq_getElem hi)
      exact backed_of_executeMemberAccess hopen (hset.file_mem (List.mem_of_getElem? hget)) hseg
    refine ⟨hbacked, ?_⟩
    have hsum := List.sum_le_card_nsmul (ss.sources.map PeeledSource.tempBytes)
      (max limits.maxTotalInflated data.length) (by
        intro n hn
        obtain ⟨source, hsource, rfl⟩ := List.mem_map.mp hn
        exact (hbacked source hsource).tempBytes_le)
    simpa using hsum

end

end ArchiveCore
