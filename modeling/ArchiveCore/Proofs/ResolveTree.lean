import ArchiveCore.Core.Resolve
import ArchiveCore.Framework.GuardedWalk

/-!
# Resolution is a guarded walk of the layer tree

`layers` says what one item unwraps to, with no depth and no budget in it. The recursion of
the crate is the guarded walk over `layers`, so it succeeds exactly on the layer trees that
lie within the limits.
-/

namespace ArchiveCore

open Framework

/-- A stream or member with the name it is sniffed under. -/
abbrev Item := Bytes × Option String

/-- A peeled stream as the one part of its wrapper. -/
def peeledPart (name : Option String) (inner : Bytes) : Part Item Node ArchiveError :=
  ⟨false, .ok (.inr (inner.length, (inner, stripCompressionExt name)))⟩

/-- An archive entry: a directory is a note, a file a child that has to be read first. -/
def entryPart (B : Backends) (archive : Archive) (member : ArchiveEntry × Nat) :
    Part Item Node ArchiveError where
  counted := true
  content :=
    if member.1.isDir then .ok (.inl (.dir member.1.name))
    else do
      let bytes ← archive.read B member.2
      return .inr (bytes.length, (bytes, some member.1.name))

/-- What one item unwraps to. -/
def layers (B : Backends) (item : Item) : Except ArchiveError (List (Part Item Node ArchiveError)) :=
  match sniff item.2 item.1 with
  | .gzip => do return [peeledPart item.2 (← decodeGzip B item.1)]
  | .bzip2 => do return [peeledPart item.2 (← decodeBzip2 B item.1)]
  | .unknown => .ok [⟨false, .ok (.inl (leaf item.2 item.1))⟩]
  | format => do
    match ← Archive.open' B item.1 item.2 with
    | some archive => return archive.entries.zipIdx.map (entryPart B archive)
    | none =>
      .error (.openError "archive" (format.debug ++ " sniffed as an archive but did not open"))

/-- The unguarded layer tree of an item. -/
def LayerTree (B : Backends) (item : Item) (tree : Forest Node) : Prop :=
  Unfolds (layers B) item tree

/-- The trail of an error, one layer further down. -/
def extendChain (chain : String) (item : Item) : String :=
  chain ++ " -> " ++ item.2.getD "<peeled>"

/-- The limits as the bounds of a walk. -/
def Limits.guard (limits : Limits) : Guard String ArchiveError where
  maxDepth := limits.maxDepth
  maxCost := limits.maxTotalInflated
  maxCount := limits.maxEntries
  tooDeep := .depthExceeded limits.maxDepth
  tooCostly := .totalInflatedExceeded limits.maxTotalInflated
  tooMany := .tooManyEntries limits.maxEntries
  maxCost_le := limits.maxTotalInflated_le
  maxCount_le := limits.maxEntries_le

def Budget.usage (budget : Budget) : Usage := ⟨budget.totalInflated, budget.entries⟩

@[simp] theorem Budget.usage_inj {a b : Budget} : a.usage = b.usage ↔ a = b := by
  cases a
  cases b
  simp [Budget.usage]

/-- A run of the recursion as a run of the walk. -/
def walked (result : Except ArchiveError (Budget × List Node)) :
    Except ArchiveError (Usage × List Node) :=
  result.map fun r => (r.1.usage, r.2)

@[simp] theorem walked_ok (budget : Budget) (out : List Node) :
    walked (.ok (budget, out)) = .ok (budget.usage, out) := rfl

@[simp] theorem walked_error (e : ArchiveError) : walked (.error e) = .error e := rfl

theorem walked_bind {α : Type} (x : Except ArchiveError α)
    (f : α → Except ArchiveError (Budget × List Node)) :
    walked (x >>= f) = x >>= fun a => walked (f a) := by
  cases x <;> rfl

theorem bind_addEntry (budget : Budget) (limits : Limits) {α : Type}
    (f : Usage → Except ArchiveError α) :
    (budget.addEntry limits >>= fun budget => f budget.usage) =
      limits.guard.chargeCount true budget.usage >>= f := by
  by_cases h : limits.maxEntries < satAdd budget.entries 1 <;>
    simp [Budget.addEntry, Guard.chargeCount, Budget.usage, Limits.guard, h, bind, Except.bind]

theorem bind_addInflated (budget : Budget) (n : Nat) (limits : Limits) {α : Type}
    (f : Usage → Except ArchiveError α) :
    (budget.addInflated n limits >>= fun budget => f budget.usage) =
      limits.guard.chargeCost n budget.usage >>= f := by
  by_cases h : limits.maxTotalInflated < satAdd budget.totalInflated n <;>
    simp [Budget.addInflated, Guard.chargeCost, Budget.usage, Limits.guard, h, bind, Except.bind]

theorem walked_bind_walked (x : Except ArchiveError (Budget × List Node)) {α : Type}
    (f : Usage → List Node → Except ArchiveError α) :
    (x >>= fun r => f r.1.usage r.2) = walked x >>= fun r => f r.1 r.2 := by
  cases x <;> rfl

theorem resolveMembers_eq_walkParts {B : Backends} {limits : Limits} {archive : Archive}
    {chain : String}
    {recurse : Bytes → Option String → String → Budget → List Node →
      Except ArchiveError (Budget × List Node)}
    {visit : Item → Usage → List Node → Except ArchiveError (Usage × List Node)}
    (hrecurse : ∀ item budget out,
      walked (recurse item.1 item.2 (extendChain chain item) budget out) =
        visit item budget.usage out)
    (members : List (ArchiveEntry × Nat)) (budget : Budget) (out : List Node) :
    walked (resolveMembers B limits archive chain recurse members budget out) =
      limits.guard.walkParts visit (members.map (entryPart B archive)) budget.usage out := by
  induction members generalizing budget out with
  | nil => rfl
  | cons member members ih =>
    obtain ⟨entry, i⟩ := member
    rw [resolveMembers, walked_bind, List.map_cons, Guard.walkParts]
    cases hdir : entry.isDir with
    | true =>
      simp only [if_true, ih, entryPart, hdir]
      exact bind_addEntry budget limits fun u =>
        limits.guard.walkParts visit (members.map (entryPart B archive)) u
          (out ++ [.dir entry.name])
    | false =>
      simp only [Bool.false_eq_true, if_false, walked_bind, ih, entryPart, hdir, bind_assoc,
        pure_bind]
      rw [← bind_addEntry]
      congr 1
      funext budget
      congr 1
      funext bytes
      have hchild : ∀ budget : Budget,
          (recurse bytes (some entry.name) (chain ++ " -> " ++ entry.name) budget out >>=
            fun r => limits.guard.walkParts visit (members.map (entryPart B archive))
              r.1.usage r.2) =
          (visit (bytes, some entry.name) budget.usage out >>=
            fun r => limits.guard.walkParts visit (members.map (entryPart B archive)) r.1 r.2) := by
        intro budget
        rw [← hrecurse (bytes, some entry.name)]
        exact walked_bind_walked _ _
      simp only [hchild]
      exact bind_addInflated budget bytes.length limits fun u =>
        visit (bytes, some entry.name) u out >>= fun r =>
          limits.guard.walkParts visit (members.map (entryPart B archive)) r.1 r.2

theorem layers_of_wrapper {B : Backends} {data : Bytes} {name : Option String}
    (h : (sniff name data).isCompressionWrapper = true) :
    layers B (data, name) = peelBytes B data name >>= fun
      | .notPacked => .ok [⟨false, .ok (.inl (leaf name data))⟩]
      | .peeled _ inner => .ok [peeledPart name inner] := by
  rw [layers, peelBytes]
  cases hf : sniff name data <;> simp_all [Format.isCompressionWrapper] <;> rfl

theorem layers_of_archive {B : Backends} {data : Bytes} {name : Option String}
    (h : (sniff name data).isArchive = true) :
    layers B (data, name) = Archive.open' B data name >>= fun
      | some archive => .ok (archive.entries.zipIdx.map (entryPart B archive))
      | none =>
        .error (.openError "archive"
          ((sniff name data).debug ++ " sniffed as an archive but did not open")) := by
  rw [layers]
  cases hf : sniff name data <;> simp_all [Format.isArchive] <;> rfl

theorem layers_of_unknown {B : Backends} {data : Bytes} {name : Option String}
    (h : sniff name data = .unknown) :
    layers B (data, name) = .ok [⟨false, .ok (.inl (leaf name data))⟩] := by
  rw [layers, h]

/-- What the parts of an item can be. -/
theorem layers_cases {B : Backends} {item : Item} {parts : List (Part Item Node ArchiveError)}
    (h : layers B item = .ok parts) :
    (∃ format inner, peelBytes B item.1 item.2 = .ok (.peeled format inner) ∧
      parts = [peeledPart item.2 inner]) ∨
    (sniff item.2 item.1 = .unknown ∧ parts = [⟨false, .ok (.inl (leaf item.2 item.1))⟩]) ∨
    ∃ archive, Archive.open' B item.1 item.2 = .ok (some archive) ∧
      parts = archive.entries.zipIdx.map (entryPart B archive) := by
  obtain ⟨data, name⟩ := item
  cases hwrap : (sniff name data).isCompressionWrapper with
  | true =>
    rw [layers_of_wrapper hwrap, bind_eq_ok] at h
    obtain ⟨outcome, hpeel, h⟩ := h
    cases outcome with
    | notPacked => exact absurd hpeel (peelBytes_ne_notPacked hwrap)
    | peeled format inner => exact .inl ⟨format, inner, hpeel, (Except.ok.inj h).symm⟩
  | false =>
    cases harch : (sniff name data).isArchive with
    | true =>
      rw [layers_of_archive harch, bind_eq_ok] at h
      obtain ⟨opened, hopen, h⟩ := h
      cases opened with
      | none => cases h
      | some archive => exact .inr (.inr ⟨archive, hopen, (Except.ok.inj h).symm⟩)
    | false =>
      have hunknown := Format.eq_unknown hwrap harch
      rw [layers_of_unknown hunknown] at h
      exact .inr (.inl ⟨hunknown, (Except.ok.inj h).symm⟩)

theorem entryPart_eq_note {B : Backends} {archive : Archive} {member : ArchiveEntry × Nat}
    {node : Node} :
    (entryPart B archive member).content = .ok (.inl node) ↔
      member.1.isDir = true ∧ node = .dir member.1.name := by
  cases hdir : member.1.isDir with
  | true => simp [entryPart, hdir, eq_comm]
  | false => simp [entryPart, hdir]

theorem entryPart_eq_child {B : Backends} {archive : Archive} {member : ArchiveEntry × Nat} {cost : Nat}
    {child : Item} :
    (entryPart B archive member).content = .ok (.inr (cost, child)) ↔
      member.1.isDir = false ∧ ∃ bytes, archive.read B member.2 = .ok bytes ∧
        cost = bytes.length ∧ child = (bytes, some member.1.name) := by
  cases hdir : member.1.isDir with
  | true => simp [entryPart, hdir]
  | false =>
    simp only [entryPart, hdir, Bool.false_eq_true, if_false, bind_eq_ok, pure_eq_ok,
      Sum.inr.injEq, Prod.mk.injEq, true_and]
    grind

/-- The recursion of the crate is the guarded walk of the layer tree, errors included. -/
theorem resolveInto_eq_walk {B : Backends} {limits : Limits} (data : Bytes)
    (name : Option String) (depth : Nat) (chain : String) (budget : Budget) (out : List Node) :
    walked (resolveInto B limits data name depth chain budget out) =
      limits.guard.walk (layers B) extendChain depth chain (data, name) budget.usage out := by
  -- on the levels still allowed below this depth
  induction hlevels : limits.maxDepth + 1 - depth generalizing data name depth chain budget out with
  | zero =>
    have hdeep : limits.maxDepth < depth := by omega
    rw [resolveInto, if_pos hdeep, Guard.walk]
    simp [Limits.guard, hdeep]
  | succ levels ih =>
    have hdepth : ¬ limits.maxDepth < depth := by omega
    have hguard : ¬ limits.guard.maxDepth < depth := hdepth
    rw [resolveInto, if_neg hdepth, Guard.walk, if_neg hguard]
    have hrecurse : ∀ (item : Item) budget out,
        walked (resolveInto B limits item.1 item.2 (depth + 1) (extendChain chain item) budget out) =
          limits.guard.walk (layers B) extendChain (depth + 1) (extendChain chain item) item
            budget.usage out :=
      fun item budget out => ih item.1 item.2 (depth + 1) _ budget out (by omega)
    by_cases hwrap : (sniff name data).isCompressionWrapper = true
    · rw [if_pos hwrap, layers_of_wrapper hwrap, walked_bind, bind_assoc]
      congr 1
      funext outcome
      cases outcome with
      | notPacked => rfl
      | peeled format inner =>
        have hpart := limits.guard.walkParts_child
          (fun item => limits.guard.walk (layers B) extendChain (depth + 1)
            (extendChain chain item) item)
          inner.length (inner, stripCompressionExt name) budget.usage out
        apply Eq.trans _ hpart.symm
        simp only [walked_bind, ← bind_addInflated, ← hrecurse]
        rfl
    · rw [if_neg hwrap]
      by_cases harch : (sniff name data).isArchive = true
      · rw [if_pos harch, layers_of_archive harch, walked_bind, bind_assoc]
        congr 1
        funext opened
        cases opened with
        | none => rfl
        | some archive => exact resolveMembers_eq_walkParts hrecurse _ _ _
      · have hunknown := Format.eq_unknown (Bool.not_eq_true _ ▸ hwrap) (Bool.not_eq_true _ ▸ harch)
        rw [if_neg harch, layers_of_unknown hunknown]
        rfl

/-- A tree inside the bounds; the sums are those of counters that stop at the largest word. -/
structure WithinLimits (limits : Limits) (tree : Forest Node) : Prop where
  depth : tree.height ≤ limits.maxDepth
  entries : min tree.totalCount wordMax ≤ limits.maxEntries
  inflated : min tree.totalCost wordMax ≤ limits.maxTotalInflated

theorem walked_eq_ok {result : Except ArchiveError (Budget × List Node)} {budget : Budget}
    {nodes : List Node} : walked result = .ok (budget.usage, nodes) ↔ result = .ok (budget, nodes) := by
  cases result with
  | error e => simp
  | ok r => simp [walked, Except.map, Prod.ext_iff]

theorem resolveInto_eq_ok {B : Backends} {data : Bytes} {name : Option String} {limits : Limits}
    {budget : Budget} {nodes : List Node} :
    resolveInto B limits data name 0 (name.getD "<input>") ⟨0, 0⟩ [] = .ok (budget, nodes) ↔
      ∃ tree, LayerTree B (data, name) tree ∧ WithinLimits limits tree ∧
        budget.usage = Usage.after ⟨0, 0⟩ tree ∧ nodes = tree.notes := by
  have hstart : limits.guard.Within (⟨0, 0⟩ : Budget).usage := ⟨Nat.zero_le _, Nat.zero_le _⟩
  have hwithin : ∀ tree : Forest Node,
      0 + tree.height ≤ limits.maxDepth ∧ limits.guard.Within (Usage.after ⟨0, 0⟩ tree) ↔
        WithinLimits limits tree := by
    intro tree
    simp only [Guard.Within, Usage.after, Usage.plus, satAdd, Limits.guard, Nat.zero_add]
    constructor
    · intro h
      exact ⟨h.1, h.2.2, h.2.1⟩
    · intro h
      obtain ⟨hdepth, hentries, hinflated⟩ := h
      exact ⟨hdepth, hinflated, hentries⟩
  rw [← walked_eq_ok, resolveInto_eq_walk, Guard.walk_eq_ok hstart]
  constructor
  · intro h
    obtain ⟨tree, htree, hdepth, hused, hbudget, hnodes⟩ := h
    exact ⟨tree, htree, (hwithin tree).mp ⟨hdepth, hused⟩, hbudget, hnodes⟩
  · intro h
    obtain ⟨tree, htree, hlimits, hbudget, hnodes⟩ := h
    obtain ⟨hdepth, hused⟩ := (hwithin tree).mpr hlimits
    exact ⟨tree, htree, hdepth, hused, hbudget, hnodes⟩

theorem resolve_eq_ok {B : Backends} {data : Bytes} {name : Option String} {limits : Limits}
    {nodes : List Node} :
    resolve B data name limits = .ok nodes ↔
      ∃ tree, LayerTree B (data, name) tree ∧ WithinLimits limits tree ∧ nodes = tree.notes := by
  have hrun : resolve B data name limits = .ok nodes ↔ ∃ budget,
      resolveInto B limits data name 0 (name.getD "<input>") ⟨0, 0⟩ [] = .ok (budget, nodes) := by
    rw [resolve]
    cases resolveInto B limits data name 0 (name.getD "<input>") ⟨0, 0⟩ [] with
    | error e => simp [bind, Except.bind]
    | ok r => simp [bind, Except.bind, pure, Except.pure, Prod.ext_iff]
  simp only [hrun, resolveInto_eq_ok]
  constructor
  · intro h
    obtain ⟨budget, tree, htree, hlimits, -, hnodes⟩ := h
    exact ⟨tree, htree, hlimits, hnodes⟩
  · intro h
    obtain ⟨tree, htree, hlimits, hnodes⟩ := h
    exact ⟨⟨_, _⟩, tree, htree, hlimits, rfl, hnodes⟩

/-- Resolution succeeds exactly when the one layer tree of the input is there and within
every limit, and then it lists the leaves and directories of that tree in order. -/
theorem resolve_exact (B : Backends) (data : Bytes) (name : Option String) (limits : Limits)
    (nodes : List Node) :
    resolve B data name limits = .ok nodes ↔
      ∃ tree, (LayerTree B (data, name) tree ∧ ∀ other, LayerTree B (data, name) other → other = tree) ∧
        tree.height ≤ limits.maxDepth ∧
        min tree.totalCount wordMax ≤ limits.maxEntries ∧
        min tree.totalCost wordMax ≤ limits.maxTotalInflated ∧
        nodes = tree.notes := by
  rw [resolve_eq_ok]
  constructor
  · intro h
    obtain ⟨tree, htree, ⟨hdepth, hentries, hinflated⟩, hnodes⟩ := h
    exact ⟨tree, ⟨htree, fun other hother => hother.unique htree⟩, hdepth, hentries, hinflated, hnodes⟩
  · intro h
    obtain ⟨tree, ⟨htree, -⟩, hdepth, hentries, hinflated, hnodes⟩ := h
    exact ⟨tree, htree, ⟨hdepth, hentries, hinflated⟩, hnodes⟩

end ArchiveCore
