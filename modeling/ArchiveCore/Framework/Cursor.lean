import ArchiveCore.Framework.Word

/-!
# Seekable readers and the cursor they refine

A seekable reader is a state with a `read` that may come back short and a `seek`. Its
meaning is a `Cursor`: a list and a position in it. A reader that refines the cursor on a
set of seeks cannot be told from it by any sequence of those seeks and exact reads, so two
readers that refine the same cursor cannot be told from each other.
-/

namespace Framework

/-- The origin and offset of a seek. -/
inductive SeekFrom
  | start (offset : UInt64)
  | fromEnd (offset : Int64)
  | current (offset : Int64)
deriving DecidableEq

/-- The position a seek asks for, as an exact integer. -/
def SeekFrom.target (len pos : Nat) : SeekFrom → Int
  | .start offset => offset.toNat
  | .fromEnd offset => len + offset.toInt
  | .current offset => pos + offset.toInt

structure ReadSeek (σ α ε : Type) where
  read : σ → Nat → Except ε (List α × σ)
  seek : σ → SeekFrom → Except ε (Nat × σ)

/-- One request of a consumer. -/
inductive Request
  | seek (origin : SeekFrom)
  | readExact (want : Nat)
deriving DecidableEq

/-- What the consumer sees of one request. -/
inductive Seen (α : Type)
  | position (pos : Nat)
  | refused
  | filled (xs : List α)
  | endOfData
  | failed
deriving DecidableEq

variable {σ α ε : Type}

namespace ReadSeek

/-- Read until `want` elements have come or a read brings none. -/
def readExact (R : ReadSeek σ α ε) (s : σ) (want : Nat) (got : List α) : Seen α × σ :=
  if want = 0 then (.filled got, s)
  else
    match R.read s want with
    | .error _ => (.failed, s)
    | .ok ([], s) => (.endOfData, s)
    | .ok (x :: xs, s) => readExact R s (want - (xs.length + 1)) (got ++ x :: xs)
termination_by want

def step (R : ReadSeek σ α ε) (s : σ) : Request → Seen α × σ
  | .seek origin =>
    match R.seek s origin with
    | .error _ => (.refused, s)
    | .ok (pos, s) => (.position pos, s)
  | .readExact want => R.readExact s want []

def trace (R : ReadSeek σ α ε) (s : σ) : List Request → List (Seen α)
  | [] => []
  | request :: requests => (R.step s request).1 :: R.trace (R.step s request).2 requests

/-- Read with buffers of the given sizes until a read brings nothing; `none` when the
buffers run out first. -/
def readToEnd (R : ReadSeek σ α ε) : List Nat → σ → Option (Except ε (List α))
  | [], _ => none
  | size :: sizes, s =>
    match R.read s size with
    | .error e => some (.error e)
    | .ok ([], _) => some (.ok [])
    | .ok (x :: xs, s) => (R.readToEnd sizes s).map (Except.map (x :: xs ++ ·))

/-- However the reads are cut, reading on from `s` comes to the end with exactly `xs`. -/
def DrainsTo (R : ReadSeek σ α ε) (s : σ) (xs : List α) : Prop :=
  ∀ sizes : List Nat, (∀ size ∈ sizes, 0 < size) → xs.length < sizes.length →
    R.readToEnd sizes s = some (.ok xs)

/-- Cut in some way, the reads from `s` on come to the end with `xs` and none of them fails. -/
def ReadsOut (R : ReadSeek σ α ε) (s : σ) (xs : List α) : Prop :=
  ∃ sizes : List Nat, (∀ size ∈ sizes, 0 < size) ∧ R.readToEnd sizes s = some (.ok xs)

end ReadSeek

/-- A list and a position in it. -/
structure Cursor (α : Type) where
  items : List α
  pos : Nat

namespace Cursor

/-- The cursor at the start of a list. -/
def start (xs : List α) : Cursor α := ⟨xs, 0⟩

def rest (c : Cursor α) : List α := c.items.drop c.pos

def advance (c : Cursor α) (n : Nat) : Cursor α := { c with pos := c.pos + n }

/-- A bounded seek: a target that is negative or no word is refused, and one past the end
stops at the end. -/
def seek (c : Cursor α) (origin : SeekFrom) : Option (Cursor α) :=
  let target := origin.target c.items.length c.pos
  if 0 ≤ target ∧ target ≤ wordMax then
    some { c with pos := min target.toNat c.items.length }
  else none

def step (c : Cursor α) : Request → Seen α × Cursor α
  | .seek origin =>
    match c.seek origin with
    | none => (.refused, c)
    | some c => (.position c.pos, c)
  | .readExact want =>
    if want ≤ c.rest.length then (.filled (c.rest.take want), c.advance want)
    else (.endOfData, c.advance c.rest.length)

def trace (c : Cursor α) : List Request → List (Seen α)
  | [] => []
  | request :: requests => (c.step request).1 :: (c.step request).2.trace requests

/-- Every seek of the sequence, made at the position the cursor has by then, is admitted. -/
def Admits (admits : Cursor α → SeekFrom → Prop) (c : Cursor α) : List Request → Prop
  | [] => True
  | request :: requests =>
    (∀ origin, request = .seek origin → admits c origin) ∧
      (c.step request).2.Admits admits requests

@[simp] theorem advance_rest (c : Cursor α) (n : Nat) : (c.advance n).rest = c.rest.drop n := by
  simp [rest, advance, List.drop_drop]

theorem advance_advance (c : Cursor α) (m n : Nat) :
    (c.advance m).advance n = c.advance (m + n) := by
  simp [advance, Nat.add_assoc]

theorem step_readExact_cursor (c : Cursor α) (want : Nat) :
    (c.step (.readExact want)).2 = c.advance (min want c.rest.length) := by
  by_cases h : want ≤ c.rest.length
  · simp [step, h]
  · simp [step, h, Nat.min_eq_right (Nat.le_of_not_le h)]

theorem admits_true (c : Cursor α) (requests : List Request) :
    c.Admits (fun _ _ => True) requests := by
  induction requests generalizing c with
  | nil => trivial
  | cons request requests ih => exact ⟨fun _ _ => trivial, ih _⟩

end Cursor

namespace ReadSeek

/-- `view` relates states of the reader to cursors so that every read brings a run of what
the cursor has next, empty only at its end or into an empty buffer, and every admitted
seek does what the cursor does. -/
structure Refines (R : ReadSeek σ α ε) (view : σ → Cursor α → Prop)
    (admits : Cursor α → SeekFrom → Prop) : Prop where
  read {s : σ} {c : Cursor α} (want : Nat) (h : view s c) :
    ∃ n s', R.read s want = .ok (c.rest.take n, s') ∧ n ≤ want ∧ (0 < want → 0 < n) ∧
      view s' (c.advance (c.rest.take n).length)
  refuse {s : σ} {c : Cursor α} {origin : SeekFrom} (h : view s c) (ha : admits c origin)
    (hc : c.seek origin = none) : ∃ e, R.seek s origin = .error e
  move {s : σ} {c c' : Cursor α} {origin : SeekFrom} (h : view s c) (ha : admits c origin)
    (hc : c.seek origin = some c') : ∃ s', R.seek s origin = .ok (c'.pos, s') ∧ view s' c'

variable {R : ReadSeek σ α ε} {view : σ → Cursor α → Prop}
  {admits : Cursor α → SeekFrom → Prop}

/-- Two kinds of state of one reader, each a cursor, on the seeks both admit. -/
theorem Refines.or {view' : σ → Cursor α → Prop} {admits' : Cursor α → SeekFrom → Prop}
    (h : R.Refines view admits) (h' : R.Refines view' admits') :
    R.Refines (fun s c => view s c ∨ view' s c) fun c origin =>
      admits c origin ∧ admits' c origin where
  read := by
    intro s c want hview
    rcases hview with hs | hs
    · obtain ⟨n, s', hread, hn, hpos, hs'⟩ := h.read want hs
      exact ⟨n, s', hread, hn, hpos, .inl hs'⟩
    · obtain ⟨n, s', hread, hn, hpos, hs'⟩ := h'.read want hs
      exact ⟨n, s', hread, hn, hpos, .inr hs'⟩
  refuse := by
    rintro s c origin (hs | hs) ⟨ha, ha'⟩ hc
    · exact h.refuse hs ha hc
    · exact h'.refuse hs ha' hc
  move := by
    rintro s c c' origin (hs | hs) ⟨ha, ha'⟩ hc
    · obtain ⟨s', hseek, hs'⟩ := h.move hs ha hc
      exact ⟨s', hseek, .inl hs'⟩
    · obtain ⟨s', hseek, hs'⟩ := h'.move hs ha' hc
      exact ⟨s', hseek, .inr hs'⟩

theorem Refines.read_cases (hR : R.Refines view admits) {s : σ} {c : Cursor α} {want : Nat}
    (h : view s c) (hwant : 0 < want) :
    (c.rest = [] ∧ ∃ s', R.read s want = .ok ([], s') ∧ view s' c) ∨
      ∃ x xs s', R.read s want = .ok (x :: xs, s') ∧ xs.length + 1 ≤ want ∧
        c.rest = x :: xs ++ (c.advance (xs.length + 1)).rest ∧
        view s' (c.advance (xs.length + 1)) := by
  obtain ⟨n, s', hread, hn, hpos, hview⟩ := hR.read want h
  cases hrest : c.rest with
  | nil =>
    rw [hrest, List.take_nil] at hread hview
    exact .inl ⟨rfl, s', hread, hview⟩
  | cons y ys =>
    obtain ⟨n, rfl⟩ : ∃ k, n = k + 1 := ⟨n - 1, by have := hpos hwant; omega⟩
    have htake : c.rest.take (n + 1) = y :: ys.take n := by rw [hrest, List.take_succ_cons]
    have hlen : (ys.take n).length ≤ n := List.length_take_le n ys
    refine .inr ⟨y, ys.take n, s', by rw [hread, htake], by omega, ?_, ?_⟩
    · have hdrop : ys.drop (ys.take n).length = ys.drop n := by
        rw [List.length_take]
        rcases Nat.le_total n ys.length with hle | hle
        · rw [Nat.min_eq_left hle]
        · rw [Nat.min_eq_right hle, List.drop_eq_nil_of_le hle, List.drop_eq_nil_of_le le_rfl]
      rw [Cursor.advance_rest, hrest, List.drop_succ_cons, hdrop, List.cons_append,
        List.take_append_drop]
    · simpa only [htake, List.length_cons] using hview

theorem Refines.readExact (hR : R.Refines view admits) {s : σ} {c : Cursor α} (want : Nat)
    (got : List α) (h : view s c) :
    ∃ s', view s' (c.step (.readExact want)).2 ∧
      R.readExact s want got =
        (if want ≤ c.rest.length then .filled (got ++ c.rest.take want) else .endOfData, s') := by
  induction want using Nat.strong_induction_on generalizing s c got with
  | _ want ih =>
    by_cases hzero : want = 0
    · subst hzero
      exact ⟨s, by simpa [Cursor.step_readExact_cursor, Cursor.advance] using h,
        by simp [ReadSeek.readExact]⟩
    · rw [ReadSeek.readExact, if_neg hzero]
      rcases hR.read_cases h (Nat.pos_of_ne_zero hzero) with
        ⟨hrest, s', hread, hview⟩ | ⟨x, xs, s', hread, hle, hrest, hview⟩
      · refine ⟨s', ?_, by simp [hread, hrest, hzero]⟩
        simpa [Cursor.step_readExact_cursor, hrest, Cursor.advance] using hview
      · obtain ⟨s'', hview', hexact⟩ := ih (want - (xs.length + 1)) (by omega) (got ++ x :: xs) hview
        have hlen := congrArg List.length hrest
        simp only [List.length_append, List.length_cons] at hlen
        have hfit : want - (xs.length + 1) ≤ (c.advance (xs.length + 1)).rest.length ↔
            want ≤ c.rest.length := by omega
        have hend : xs.length + 1 + min (want - (xs.length + 1))
            (c.advance (xs.length + 1)).rest.length = min want c.rest.length := by omega
        refine ⟨s'', ?_, ?_⟩
        · rwa [Cursor.step_readExact_cursor, Cursor.advance_advance, hend,
            ← Cursor.step_readExact_cursor] at hview'
        · rw [hread]
          simp only [hexact, hfit]
          congr 2
          have hsplit : (x :: xs).length ≤ want := by simpa using hle
          conv_rhs => rw [hrest, List.take_append, List.take_of_length_le hsplit]
          rw [List.length_cons, List.append_assoc]

theorem Refines.step (hR : R.Refines view admits) {s : σ} {c : Cursor α} (request : Request)
    (h : view s c) (ha : ∀ origin, request = .seek origin → admits c origin) :
    (R.step s request).1 = (c.step request).1 ∧
      view (R.step s request).2 (c.step request).2 := by
  cases request with
  | seek origin =>
    cases hc : c.seek origin with
    | none =>
      obtain ⟨e, he⟩ := hR.refuse h (ha origin rfl) hc
      simpa [ReadSeek.step, Cursor.step, hc, he] using h
    | some c' =>
      obtain ⟨s', hs, hview⟩ := hR.move h (ha origin rfl) hc
      simpa [ReadSeek.step, Cursor.step, hc, hs] using hview
  | readExact want =>
    obtain ⟨s', hview, hexact⟩ := hR.readExact want [] h
    simp only [ReadSeek.step, hexact, List.nil_append]
    refine ⟨?_, hview⟩
    by_cases hfit : want ≤ c.rest.length <;> simp [Cursor.step, hfit]

theorem Refines.trace (hR : R.Refines view admits) {s : σ} {c : Cursor α}
    (requests : List Request) (h : view s c) (ha : c.Admits admits requests) :
    R.trace s requests = c.trace requests := by
  induction requests generalizing s c with
  | nil => rfl
  | cons request requests ih =>
    obtain ⟨hseen, hview⟩ := hR.step request h ha.1
    rw [ReadSeek.trace, Cursor.trace, hseen, ih hview ha.2]

/-- A reader that shows its first seek outside the admitted ones cannot be told from its
cursor by exactly the sequences without such a seek. -/
theorem Refines.trace_eq_iff (hR : R.Refines view admits)
    (hshows : ∀ s c origin, view s c → ¬ admits c origin →
      (R.step s (.seek origin)).1 ≠ (c.step (.seek origin)).1)
    {s : σ} {c : Cursor α} (requests : List Request) (h : view s c) :
    R.trace s requests = c.trace requests ↔ c.Admits admits requests := by
  refine ⟨fun htrace => ?_, hR.trace requests h⟩
  induction requests generalizing s c with
  | nil => trivial
  | cons request requests ih =>
    obtain ⟨hseen, hrest⟩ := List.cons.inj htrace
    have ha : ∀ origin, request = .seek origin → admits c origin := by
      rintro origin rfl
      by_contra hnot
      exact hshows s c origin h hnot hseen
    exact ⟨ha, ih (hR.step request h ha).2 hrest⟩

theorem Refines.drainsTo (hR : R.Refines view admits) {s : σ} {c : Cursor α} (h : view s c) :
    R.DrainsTo s c.rest := by
  intro sizes hpos hlen
  induction sizes generalizing s c with
  | nil => simp at hlen
  | cons size sizes ih =>
    rcases hR.read_cases h (hpos size (by simp)) with
      ⟨hrest, s', hread, -⟩ | ⟨x, xs, s', hread, -, hrest, hview⟩
    · simp [ReadSeek.readToEnd, hread, hrest]
    · have htail := congrArg List.length hrest
      simp only [List.length_append, List.length_cons] at htail hlen
      have hrec := ih hview (fun n hn => hpos n (List.mem_cons_of_mem _ hn)) (by omega)
      rw [ReadSeek.readToEnd, hread]
      simp only [hrec, Option.map_some]
      rw [hrest]
      rfl

theorem DrainsTo.unique {s : σ} {xs ys : List α} (h : R.DrainsTo s xs) (h' : R.DrainsTo s ys) :
    xs = ys := by
  have hones : ∀ size ∈ List.replicate (max xs.length ys.length + 1) 1, 0 < size := by simp
  have hxs := h _ hones (by simp only [List.length_replicate]; omega)
  have hys := h' _ hones (by simp only [List.length_replicate]; omega)
  exact Except.ok.inj (Option.some.inj (hxs.symm.trans hys))

theorem DrainsTo.readsOut {s : σ} {xs : List α} (h : R.DrainsTo s xs) : R.ReadsOut s xs := by
  have hones : ∀ size ∈ List.replicate (xs.length + 1) 1, 0 < size := by simp
  exact ⟨_, hones, h _ hones (by simp)⟩

theorem readToEnd_cons_eq_ok {s : σ} {size : Nat} {sizes : List Nat} {xs : List α} :
    R.readToEnd (size :: sizes) s = some (.ok xs) ↔
      (∃ s', R.read s size = .ok ([], s') ∧ xs = []) ∨
        ∃ chunk rest s', R.read s size = .ok (chunk, s') ∧ chunk ≠ [] ∧
          R.readToEnd sizes s' = some (.ok rest) ∧ xs = chunk ++ rest := by
  rw [readToEnd]
  cases hread : R.read s size with
  | error e => simp
  | ok brought =>
    obtain ⟨chunk, s'⟩ := brought
    cases chunk with
    | nil => simp [eq_comm]
    | cons y ys =>
      cases hrest : R.readToEnd sizes s' with
      | none => simp [hrest]
      | some result => cases result <;> simp [hrest, Except.map, eq_comm]

theorem readsOut_nil {s s' : σ} {size : Nat} (hsize : 0 < size)
    (hread : R.read s size = .ok ([], s')) : R.ReadsOut s [] :=
  ⟨[size], by simpa using hsize, readToEnd_cons_eq_ok.mpr (.inl ⟨s', hread, rfl⟩)⟩

theorem ReadsOut.next {s s' : σ} {size : Nat} {chunk xs : List α} (h : R.ReadsOut s' xs)
    (hsize : 0 < size) (hread : R.read s size = .ok (chunk, s')) (hsome : chunk ≠ []) :
    R.ReadsOut s (chunk ++ xs) := by
  obtain ⟨sizes, hsizes, hrest⟩ := h
  exact ⟨size :: sizes, List.forall_mem_cons.mpr ⟨hsize, hsizes⟩,
    readToEnd_cons_eq_ok.mpr (.inr ⟨chunk, xs, s', hread, hsome, hrest, rfl⟩)⟩

end ReadSeek

end Framework
