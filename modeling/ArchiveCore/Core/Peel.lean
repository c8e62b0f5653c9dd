import ArchiveCore.Core.Detect
import ArchiveCore.Core.Error
import ArchiveCore.Framework.Outcome

/-!
# Peeling one bare compression layer

Every extraction of the crate drains or copies a reader one byte past a cap and fails when
that byte arrives. `readCapped` and `copyCapped` are the two shapes of that loop; each
function of the source is one of them at its own reader, cap and error. The cap plus one is
a 64-bit addition that wraps, as it does in a release build.
-/

namespace ArchiveCore

open Framework

/-- In-memory cap on one decompression, 4 GiB. -/
def maxInflated : Nat := 4 <<< 30

/-- Drain a reader into memory, capped. -/
def readCapped (fail : String → ArchiveError) (cap : Nat) (reader : ByteFeed) :
    Except ArchiveError Bytes := do
  let out ← (reader.take (wrapAdd cap 1)).readToEnd.mapError fail
  if cap < out.length then .error (.tooLarge cap) else .ok out

/-- Copy a reader into a sink, capped; the result is the number of bytes written. -/
def copyCapped (fail : String → ArchiveError) (reader : ByteFeed) (out : ByteSink) (cap : Nat) :
    ByteSink × Except ArchiveError Nat :=
  match (reader.take (wrapAdd cap 1)).copy out with
  | (out, .error e) => (out, .error (fail e))
  | (out, .ok n) => (out, if cap < n then .error (.tooLarge cap) else .ok n)

def decodeGzip (B : Backends) (data : Bytes) : Except ArchiveError Bytes :=
  readCapped (.decode "gzip") maxInflated (B.gzDecoder data)

def decodeBzip2 (B : Backends) (data : Bytes) : Except ArchiveError Bytes :=
  readCapped (.decode "bzip2") maxInflated (B.bzDecoder data)

inductive PeelOutcome
  | notPacked
  | peeled (format : Format) (inner : Bytes)
deriving DecidableEq

/-- Peel one bare gzip or bzip2 layer; archives are member lists and are left alone. -/
def peelBytes (B : Backends) (data : Bytes) (name : Option String) :
    Except ArchiveError PeelOutcome :=
  match sniff name data with
  | .gzip => do return .peeled .gzip (← decodeGzip B data)
  | .bzip2 => do return .peeled .bzip2 (← decodeBzip2 B data)
  | _ => .ok .notPacked

variable {fail : String → ArchiveError} {reader : ByteFeed} {cap : Nat}

theorem readCapped_eq_ok (hcap : cap < wordMax) {b : Bytes} :
    readCapped fail cap reader = .ok b ↔ reader = Feed.eof b ∧ b.length ≤ cap := by
  rw [← Feed.take_succ_within, readCapped, wrapAdd_eq hcap]
  simp only [bind_eq_ok, mapError_eq_ok, Feed.readToEnd_eq_ok]
  constructor
  · intro h
    obtain ⟨out, htake, h⟩ := h
    by_cases hlen : cap < out.length
    · rw [if_pos hlen] at h
      cases h
    · rw [if_neg hlen] at h
      obtain rfl := Except.ok.inj h
      exact ⟨htake, Nat.le_of_not_lt hlen⟩
  · intro h
    obtain ⟨htake, hlen⟩ := h
    exact ⟨b, htake, if_neg (Nat.not_lt_of_le hlen)⟩

/-- What a capped copy sees of its reader. At the largest word the limit wraps to zero, so
nothing is read and nothing is reported. -/
def copied (cap : Nat) (reader : ByteFeed) : ByteFeed :=
  if cap = wordMax then Feed.eof [] else reader

theorem copied_of_lt (hcap : cap < wordMax) : copied cap reader = reader := if_neg hcap.ne

@[simp] theorem copied_wordMax : copied wordMax reader = Feed.eof [] := if_pos rfl

theorem take_wrapAdd_one (hcap : cap ≤ wordMax) :
    reader.take (wrapAdd cap 1) = (copied cap reader).take (cap + 1) := by
  rcases Nat.lt_or_eq_of_le hcap with hlt | rfl
  · rw [copied_of_lt hlt, wrapAdd_eq hlt]
  · rw [wrapAdd_wordMax_one, Feed.take_zero, copied_wordMax, Feed.take_of_length_lt (by simp)]

theorem copyCapped_eq_ok (hcap : cap ≤ wordMax) {out out' : ByteSink} {n : Nat} :
    copyCapped fail reader out cap = (out', .ok n) ↔
      ∃ b, copied cap reader = Feed.eof b ∧ b.length ≤ cap ∧ out.hasRoom b.length ∧
        out' = out.append b ∧ n = b.length := by
  rw [copyCapped, take_wrapAdd_one hcap]
  generalize copied cap reader = reader
  by_cases hlen : cap < reader.items.length
  · obtain ⟨xs, htake, hxs⟩ := Feed.take_succ_beyond hlen
    constructor
    · intro h
      split at h
      · cases h
      · rename_i out₁ m hcopy
        obtain ⟨-, -, -, hm⟩ := Feed.copy_eq_ok.mp hcopy
        rw [htake, Feed.eof_items] at hm
        simp [hm, hxs] at h
    · intro h
      obtain ⟨b, rfl, hle, -⟩ := h
      rw [Feed.eof_items] at hlen
      omega
  · rw [Feed.take_of_length_lt (by omega)]
    constructor
    · intro h
      split at h
      · cases h
      · rename_i out₁ m hcopy
        obtain ⟨hend, hroom, rfl, rfl⟩ := Feed.copy_eq_ok.mp hcopy
        rw [if_neg hlen] at h
        obtain ⟨rfl, hn⟩ := Prod.mk.inj h
        exact ⟨reader.items, Feed.eq_eof hend, Nat.le_of_not_lt hlen, hroom, rfl,
          (Except.ok.inj hn).symm⟩
    · intro h
      obtain ⟨b, rfl, -, hroom, rfl, rfl⟩ := h
      rw [Feed.copy_eq_ok.mpr ⟨rfl, hroom, rfl, rfl⟩]
      exact congrArg (Prod.mk _) (if_neg hlen)

/-- The decoder a bare wrapper format is peeled with. -/
def wrapperFeed (B : Backends) (format : Format) (data : Bytes) : ByteFeed :=
  if format = .bzip2 then B.bzDecoder data else B.gzDecoder data

theorem maxInflated_lt_wordMax : maxInflated < wordMax := by decide

/-- A layer is peeled exactly when it sniffs as a bare wrapper and its decoder ends in end
of file within the cap. -/
theorem peelBytes_eq_peeled {B : Backends} {data inner : Bytes} {name : Option String}
    {format : Format} :
    peelBytes B data name = .ok (.peeled format inner) ↔
      sniff name data = format ∧ format.isCompressionWrapper = true ∧
        wrapperFeed B format data = Feed.eof inner ∧ inner.length ≤ maxInflated := by
  rw [peelBytes]
  cases hf : sniff name data <;>
    simp only [bind_eq_ok, pure_eq_ok, decodeGzip, decodeBzip2,
      readCapped_eq_ok maxInflated_lt_wordMax, Except.ok.injEq, reduceCtorEq, false_iff,
      PeelOutcome.peeled.injEq]
  case gzip =>
    constructor
    · intro h
      obtain ⟨b, hb, rfl, rfl⟩ := h
      exact ⟨rfl, rfl, hb⟩
    · intro h
      obtain ⟨rfl, -, hb⟩ := h
      exact ⟨inner, hb, rfl, rfl⟩
  case bzip2 =>
    constructor
    · intro h
      obtain ⟨b, hb, rfl, rfl⟩ := h
      exact ⟨rfl, rfl, hb⟩
    · intro h
      obtain ⟨rfl, -, hb⟩ := h
      exact ⟨inner, hb, rfl, rfl⟩
  all_goals
    intro h
    obtain ⟨rfl, hwrap, -⟩ := h
    cases hwrap

theorem peelBytes_ne_notPacked {B : Backends} {data : Bytes} {name : Option String}
    (h : (sniff name data).isCompressionWrapper = true) :
    peelBytes B data name ≠ .ok .notPacked := by
  rw [peelBytes]
  cases hf : sniff name data <;> simp [hf, Format.isCompressionWrapper] at h ⊢

end ArchiveCore
