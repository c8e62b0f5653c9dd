import ArchiveCore.Framework.Outcome
import ArchiveCore.Framework.Word

/-!
# Guarded walks over lazily expanded trees

An item expands to a list of parts: a note for the output, or a child item with a cost.
The guarded walk visits a tree depth first while it bounds the nesting, the accumulated
cost and the number of counted parts, and stops with an error at the first excess. It is
compared with the unguarded tree: the walk succeeds exactly on the items whose tree exists,
is finite and lies within every bound, and then it brings the notes of the tree in order.
-/

namespace Framework

/-- One part of an expanded item; fetching its content may fail. -/
structure Part (ι ν ε : Type) where
  counted : Bool
  content : Except ε (ν ⊕ (Nat × ι))

/-- The parts of an item, each child with the tree it expands to. -/
inductive Forest (ν : Type)
  | nil
  | note (counted : Bool) (out : ν) (rest : Forest ν)
  | child (counted : Bool) (cost : Nat) (inner rest : Forest ν)

/-- What a walk has used up so far. -/
structure Usage where
  cost : Nat
  count : Nat
deriving DecidableEq

/-- The bounds of a walk and the errors it stops with. -/
structure Guard (κ ε : Type) where
  maxDepth : Nat
  maxCost : Nat
  maxCount : Nat
  tooDeep : κ → ε
  tooCostly : ε
  tooMany : ε
  maxCost_le : maxCost ≤ wordMax
  maxCount_le : maxCount ≤ wordMax

variable {ι ν ε κ : Type}

namespace Forest

/-- How many layers of children lie below. -/
def height : Forest ν → Nat
  | nil => 0
  | note _ _ rest => rest.height
  | child _ _ inner rest => max (inner.height + 1) rest.height

def totalCost : Forest ν → Nat
  | nil => 0
  | note _ _ rest => rest.totalCost
  | child _ cost inner rest => cost + (inner.totalCost + rest.totalCost)

def totalCount : Forest ν → Nat
  | nil => 0
  | note counted _ rest => counted.toNat + rest.totalCount
  | child counted _ inner rest => counted.toNat + (inner.totalCount + rest.totalCount)

/-- The notes from first to last. -/
def notes : Forest ν → List ν
  | nil => []
  | note _ out rest => out :: rest.notes
  | child _ _ inner rest => inner.notes ++ rest.notes

end Forest

/-- The tree below a list of parts: every fetch and every expansion in it succeeds. -/
inductive UnfoldsParts (expand : ι → Except ε (List (Part ι ν ε))) :
    List (Part ι ν ε) → Forest ν → Prop
  | nil : UnfoldsParts expand [] .nil
  | note {counted out parts rest} :
      UnfoldsParts expand parts rest →
      UnfoldsParts expand (⟨counted, .ok (.inl out)⟩ :: parts) (.note counted out rest)
  | child {counted cost item inside inner parts rest} :
      expand item = .ok inside → UnfoldsParts expand inside inner →
      UnfoldsParts expand parts rest →
      UnfoldsParts expand (⟨counted, .ok (.inr (cost, item))⟩ :: parts)
        (.child counted cost inner rest)

def Unfolds (expand : ι → Except ε (List (Part ι ν ε))) (item : ι) (tree : Forest ν) : Prop :=
  ∃ parts, expand item = .ok parts ∧ UnfoldsParts expand parts tree

theorem UnfoldsParts.unique {expand : ι → Except ε (List (Part ι ν ε))}
    {parts : List (Part ι ν ε)} {t u : Forest ν} (ht : UnfoldsParts expand parts t)
    (hu : UnfoldsParts expand parts u) : t = u := by
  induction ht generalizing u with
  | nil => cases hu; rfl
  | note _ ih =>
    cases hu with
    | note hrest => rw [ih hrest]
  | child hexpand _ _ ihin ihrest =>
    cases hu with
    | child hexpand' hin hrest =>
      obtain rfl := Except.ok.inj (hexpand.symm.trans hexpand')
      rw [ihin hin, ihrest hrest]

theorem Unfolds.unique {expand : ι → Except ε (List (Part ι ν ε))} {item : ι} {t u : Forest ν}
    (ht : Unfolds expand item t) (hu : Unfolds expand item u) : t = u := by
  obtain ⟨parts, hexpand, ht⟩ := ht
  obtain ⟨parts', hexpand', hu⟩ := hu
  obtain rfl := Except.ok.inj (hexpand.symm.trans hexpand')
  exact ht.unique hu

/-- The notes and the cost that one part brings. -/
inductive PartYield (expand : ι → Except ε (List (Part ι ν ε))) : Part ι ν ε → List ν × Nat → Prop
  | note {counted out} : PartYield expand ⟨counted, .ok (.inl out)⟩ ([out], 0)
  | child {counted cost item below} :
      Unfolds expand item below →
      PartYield expand ⟨counted, .ok (.inr (cost, item))⟩ (below.notes, cost + below.totalCost)

theorem UnfoldsParts.yields {expand : ι → Except ε (List (Part ι ν ε))}
    {parts : List (Part ι ν ε)} {tree : Forest ν} (h : UnfoldsParts expand parts tree) :
    ∃ yields, List.Forall₂ (PartYield expand) parts yields ∧
      tree.notes = yields.flatMap (·.1) ∧ tree.totalCost = (yields.map (·.2)).sum := by
  induction h with
  | nil => exact ⟨[], .nil, rfl, rfl⟩
  | @note counted out parts rest _ ih =>
    obtain ⟨yields, hyields, hnotes, hcost⟩ := ih
    refine ⟨([out], 0) :: yields, .cons .note hyields, ?_, ?_⟩
    · simp [Forest.notes, hnotes]
    · simp [Forest.totalCost, hcost]
  | @child counted cost item inside inner parts rest hexpand hinner _ _ ih =>
    obtain ⟨yields, hyields, hnotes, hcost⟩ := ih
    refine ⟨(inner.notes, cost + inner.totalCost) :: yields,
      .cons (.child ⟨inside, hexpand, hinner⟩) hyields, ?_, ?_⟩
    · simp [Forest.notes, hnotes]
    · simp [Forest.totalCost, hcost, Nat.add_assoc]

theorem UnfoldsParts.forall_notes {expand : ι → Except ε (List (Part ι ν ε))} {P : ν → Prop}
    (hexpand : ∀ item parts, expand item = .ok parts →
      ∀ counted out, ⟨counted, .ok (.inl out)⟩ ∈ parts → P out)
    {parts : List (Part ι ν ε)} {tree : Forest ν} (h : UnfoldsParts expand parts tree)
    (hparts : ∀ counted out, ⟨counted, .ok (.inl out)⟩ ∈ parts → P out) :
    ∀ out ∈ tree.notes, P out := by
  induction h with
  | nil =>
    intro out hout
    cases hout
  | @note counted first parts rest _ ih =>
    have hrest := ih fun counted out hmem => hparts counted out (List.mem_cons_of_mem _ hmem)
    rw [Forest.notes, List.forall_mem_cons]
    exact ⟨hparts counted first List.mem_cons_self, hrest⟩
  | @child counted cost item inside inner parts rest hitem _ _ ihinner ihrest =>
    have hrest := ihrest fun counted out hmem => hparts counted out (List.mem_cons_of_mem _ hmem)
    rw [Forest.notes, List.forall_mem_append]
    exact ⟨ihinner (hexpand item inside hitem), hrest⟩

theorem Unfolds.forall_notes {expand : ι → Except ε (List (Part ι ν ε))} {P : ν → Prop}
    (hexpand : ∀ item parts, expand item = .ok parts →
      ∀ counted out, ⟨counted, .ok (.inl out)⟩ ∈ parts → P out)
    {root : ι} {tree : Forest ν} (h : Unfolds expand root tree) : ∀ out ∈ tree.notes, P out := by
  obtain ⟨parts, hroot, hunfold⟩ := h
  exact hunfold.forall_notes hexpand (hexpand root parts hroot)

/-- The items of the tree below `root`, at every level. -/
inductive Below (expand : ι → Except ε (List (Part ι ν ε))) (root : ι) : ι → Prop
  | root : Below expand root root
  | child {item parts counted cost inner} :
      Below expand root item → expand item = .ok parts →
      ⟨counted, .ok (.inr (cost, inner))⟩ ∈ parts → Below expand root inner

theorem UnfoldsParts.of_mem {expand : ι → Except ε (List (Part ι ν ε))}
    {parts : List (Part ι ν ε)} {tree : Forest ν} {counted : Bool} {cost : Nat} {inner : ι}
    (h : UnfoldsParts expand parts tree) (hmem : ⟨counted, .ok (.inr (cost, inner))⟩ ∈ parts) :
    ∃ below, Unfolds expand inner below ∧ below.notes <:+: tree.notes ∧
      below.totalCost ≤ tree.totalCost := by
  induction h with
  | nil => cases hmem
  | @note _ out _ rest _ ih =>
    cases hmem with
    | tail _ hmem =>
      obtain ⟨below, hbelow, hnotes, hcost⟩ := ih hmem
      exact ⟨below, hbelow, hnotes.trans (List.suffix_cons out rest.notes).isInfix, hcost⟩
  | @child _ _ _ inside first _ rest hexpand hinner _ _ ih =>
    cases hmem with
    | head =>
      refine ⟨first, ⟨inside, hexpand, hinner⟩, (List.prefix_append _ _).isInfix, ?_⟩
      simp only [Forest.totalCost]
      omega
    | tail _ hmem =>
      obtain ⟨below, hbelow, hnotes, hcost⟩ := ih hmem
      refine ⟨below, hbelow, hnotes.trans (List.suffix_append first.notes rest.notes).isInfix, ?_⟩
      simp only [Forest.totalCost]
      omega

theorem Unfolds.below {expand : ι → Except ε (List (Part ι ν ε))} {root item : ι}
    {tree : Forest ν} (h : Unfolds expand root tree) (hitem : Below expand root item) :
    ∃ below, Unfolds expand item below ∧ below.notes <:+: tree.notes ∧
      below.totalCost ≤ tree.totalCost := by
  induction hitem with
  | root => exact ⟨tree, h, List.infix_rfl, le_rfl⟩
  | child _ hexpand hmem ih =>
    obtain ⟨outer, ⟨parts, hparts, houter⟩, hnotes, hcost⟩ := ih
    obtain rfl := Except.ok.inj (hexpand.symm.trans hparts)
    obtain ⟨below, hbelow, hnotes', hcost'⟩ := houter.of_mem hmem
    exact ⟨below, hbelow, hnotes'.trans hnotes, hcost'.trans hcost⟩

namespace Usage

/-- Saturating addition of both counters. -/
def plus (u : Usage) (cost count : Nat) : Usage :=
  ⟨satAdd u.cost cost, satAdd u.count count⟩

def after (u : Usage) (tree : Forest ν) : Usage := u.plus tree.totalCost tree.totalCount

theorem plus_plus (u : Usage) (a b m n : Nat) : (u.plus a m).plus b n = u.plus (a + b) (m + n) := by
  simp [plus, satAdd_assoc]

theorem after_note (u : Usage) (counted : Bool) (out : ν) (rest : Forest ν) :
    u.after (.note counted out rest) = (u.plus 0 counted.toNat).after rest := by
  simp [after, plus_plus, Forest.totalCost, Forest.totalCount]

theorem after_child (u : Usage) (counted : Bool) (cost : Nat) (inner rest : Forest ν) :
    u.after (.child counted cost inner rest) =
      (((u.plus 0 counted.toNat).plus cost 0).after inner).after rest := by
  simp [after, plus_plus, Forest.totalCost, Forest.totalCount, Nat.add_assoc]

end Usage

namespace Guard

/-- The usage is within the bounds. -/
def Within (g : Guard κ ε) (u : Usage) : Prop := u.cost ≤ g.maxCost ∧ u.count ≤ g.maxCount

/-- Count a part that is to be counted. -/
def chargeCount (g : Guard κ ε) (counted : Bool) (u : Usage) : Except ε Usage :=
  if counted then
    let count := satAdd u.count 1
    if g.maxCount < count then .error g.tooMany else .ok { u with count }
  else .ok u

def chargeCost (g : Guard κ ε) (cost : Nat) (u : Usage) : Except ε Usage :=
  let cost := satAdd u.cost cost
  if g.maxCost < cost then .error g.tooCostly else .ok { u with cost }

/-- Visit the parts of an item from first to last; `visit` walks a child. -/
def walkParts (g : Guard κ ε) (visit : ι → Usage → List ν → Except ε (Usage × List ν)) :
    List (Part ι ν ε) → Usage → List ν → Except ε (Usage × List ν)
  | [], u, out => .ok (u, out)
  | part :: parts, u, out => do
    let u ← g.chargeCount part.counted u
    match ← part.content with
    | .inl note => g.walkParts visit parts u (out ++ [note])
    | .inr (cost, item) => do
      let u ← g.chargeCost cost u
      let (u, out) ← visit item u out
      g.walkParts visit parts u out

/-- Walk the tree below an item that lies at `depth`; `trail` names the way to it. -/
def walk (g : Guard κ ε) (expand : ι → Except ε (List (Part ι ν ε))) (extend : κ → ι → κ)
    (depth : Nat) (trail : κ) (item : ι) (u : Usage) (out : List ν) : Except ε (Usage × List ν) :=
  if g.maxDepth < depth then .error (g.tooDeep trail)
  else do
    let parts ← expand item
    g.walkParts (fun child => g.walk expand extend (depth + 1) (extend trail child) child)
      parts u out
termination_by g.maxDepth + 1 - depth

theorem walkParts_child (g : Guard κ ε)
    (visit : ι → Usage → List ν → Except ε (Usage × List ν)) (cost : Nat) (item : ι) (u : Usage)
    (out : List ν) :
    g.walkParts visit [⟨false, .ok (.inr (cost, item))⟩] u out =
      g.chargeCost cost u >>= fun u => visit item u out := by
  have hdone : ∀ u : Usage, (visit item u out >>= fun r => g.walkParts visit [] r.1 r.2) =
      visit item u out := by
    intro u
    cases visit item u out <;> rfl
  simp only [walkParts, chargeCount, Bool.false_eq_true, if_false]
  exact congrArg (g.chargeCost cost u >>= ·) (funext hdone)

variable {g : Guard κ ε}

theorem Within.le_wordMax {u : Usage} (h : g.Within u) : u.cost ≤ wordMax ∧ u.count ≤ wordMax :=
  ⟨h.1.trans g.maxCost_le, h.2.trans g.maxCount_le⟩

theorem Within.plus_zero {u : Usage} (h : g.Within u) : u.plus 0 0 = u := by
  simp [Usage.plus, h.le_wordMax.1, h.le_wordMax.2]

theorem within_of_plus {u : Usage} {a b m n : Nat} (h : g.Within ((u.plus a m).plus b n)) :
    g.Within (u.plus a m) :=
  ⟨(le_satAdd (satAdd_le_wordMax _ _)).trans h.1, (le_satAdd (satAdd_le_wordMax _ _)).trans h.2⟩

theorem chargeCount_eq_ok {counted : Bool} {u u' : Usage} (hu : g.Within u) :
    g.chargeCount counted u = .ok u' ↔
      u' = u.plus 0 counted.toNat ∧ g.Within (u.plus 0 counted.toNat) := by
  have hcost : satAdd u.cost 0 = u.cost := satAdd_zero hu.le_wordMax.1
  cases counted with
  | false => simp [chargeCount, hu.plus_zero, hu, eq_comm]
  | true =>
    by_cases h : g.maxCount < satAdd u.count 1
    · simp [chargeCount, Within, Usage.plus, h]
    · simp [chargeCount, Within, Usage.plus, hcost, h, hu.1, Nat.le_of_not_gt h, eq_comm]

theorem chargeCost_eq_ok {cost : Nat} {u u' : Usage} (hu : g.Within u) :
    g.chargeCost cost u = .ok u' ↔ u' = u.plus cost 0 ∧ g.Within (u.plus cost 0) := by
  have hcount : satAdd u.count 0 = u.count := satAdd_zero hu.le_wordMax.2
  by_cases h : g.maxCost < satAdd u.cost cost
  · simp [chargeCost, Within, Usage.plus, h]
  · simp [chargeCost, Within, Usage.plus, hcount, h, hu.2, Nat.le_of_not_gt h, eq_comm]

/-- The walk of one child does what its tree says. -/
def Visits (g : Guard κ ε) (expand : ι → Except ε (List (Part ι ν ε))) (depth : Nat)
    (visit : ι → Usage → List ν → Except ε (Usage × List ν)) : Prop :=
  ∀ item u out u' out', g.Within u →
    (visit item u out = .ok (u', out') ↔
      ∃ tree, Unfolds expand item tree ∧ depth + tree.height ≤ g.maxDepth ∧
        g.Within (u.after tree) ∧ u' = u.after tree ∧ out' = out ++ tree.notes)

theorem walkParts_note_eq_ok {visit : ι → Usage → List ν → Except ε (Usage × List ν)}
    {counted : Bool} {note : ν} {parts : List (Part ι ν ε)} {u : Usage} {out : List ν}
    {r : Usage × List ν} (hu : g.Within u) :
    g.walkParts visit (⟨counted, .ok (.inl note)⟩ :: parts) u out = .ok r ↔
      g.Within (u.plus 0 counted.toNat) ∧
        g.walkParts visit parts (u.plus 0 counted.toNat) (out ++ [note]) = .ok r := by
  simp only [walkParts, bind_eq_ok, chargeCount_eq_ok hu]
  constructor
  · intro h
    obtain ⟨_, ⟨rfl, hcount⟩, _, hcontent, hrest⟩ := h
    obtain rfl := Except.ok.inj hcontent
    exact ⟨hcount, hrest⟩
  · intro h
    exact ⟨_, ⟨rfl, h.1⟩, _, rfl, h.2⟩

theorem walkParts_inr_eq_ok {visit : ι → Usage → List ν → Except ε (Usage × List ν)}
    {counted : Bool} {cost : Nat} {item : ι} {parts : List (Part ι ν ε)} {u : Usage}
    {out : List ν} {r : Usage × List ν} (hu : g.Within u) :
    g.walkParts visit (⟨counted, .ok (.inr (cost, item))⟩ :: parts) u out = .ok r ↔
      g.Within (u.plus 0 counted.toNat) ∧ g.Within ((u.plus 0 counted.toNat).plus cost 0) ∧
        ∃ u' out', visit item ((u.plus 0 counted.toNat).plus cost 0) out = .ok (u', out') ∧
          g.walkParts visit parts u' out' = .ok r := by
  simp only [walkParts, bind_eq_ok, chargeCount_eq_ok hu]
  constructor
  · intro h
    obtain ⟨_, ⟨rfl, hcount⟩, _, hcontent, hrest⟩ := h
    obtain rfl := Except.ok.inj hcontent
    simp only [bind_eq_ok, chargeCost_eq_ok hcount] at hrest
    obtain ⟨_, ⟨rfl, hcost⟩, ⟨u', out'⟩, hvisit, hrest⟩ := hrest
    exact ⟨hcount, hcost, u', out', hvisit, hrest⟩
  · intro h
    obtain ⟨hcount, hcost, u', out', hvisit, hrest⟩ := h
    refine ⟨_, ⟨rfl, hcount⟩, _, rfl, ?_⟩
    simp only [bind_eq_ok, chargeCost_eq_ok hcount]
    exact ⟨_, ⟨rfl, hcost⟩, _, hvisit, hrest⟩

theorem walkParts_error_ne_ok {visit : ι → Usage → List ν → Except ε (Usage × List ν)}
    {counted : Bool} {e : ε} {parts : List (Part ι ν ε)} {u : Usage} {out : List ν}
    {r : Usage × List ν} : g.walkParts visit (⟨counted, .error e⟩ :: parts) u out ≠ .ok r := by
  simp [walkParts, bind_eq_ok]

theorem walkParts_eq_ok {expand : ι → Except ε (List (Part ι ν ε))} {depth : Nat}
    {visit : ι → Usage → List ν → Except ε (Usage × List ν)} (hdepth : depth ≤ g.maxDepth)
    (hvisit : g.Visits expand (depth + 1) visit) (parts : List (Part ι ν ε)) {u u' : Usage}
    {out out' : List ν} (hu : g.Within u) :
    g.walkParts visit parts u out = .ok (u', out') ↔
      ∃ tree, UnfoldsParts expand parts tree ∧ depth + tree.height ≤ g.maxDepth ∧
        g.Within (u.after tree) ∧ u' = u.after tree ∧ out' = out ++ tree.notes := by
  induction parts generalizing u out with
  | nil =>
    have hzero : u.after (.nil : Forest ν) = u := hu.plus_zero
    constructor
    · intro h
      obtain ⟨rfl, rfl⟩ := Prod.mk.inj (Except.ok.inj h)
      exact ⟨.nil, .nil, hdepth, by rwa [hzero], hzero.symm, (List.append_nil _).symm⟩
    · intro h
      obtain ⟨tree, hunfold, -, -, rfl, rfl⟩ := h
      cases hunfold
      simp [walkParts, hzero, Forest.notes]
  | cons part parts ih =>
    constructor
    · intro h
      rcases part with ⟨counted, e | note | ⟨cost, item⟩⟩
      · exact absurd h walkParts_error_ne_ok
      · obtain ⟨hu₁, hrest⟩ := (walkParts_note_eq_ok hu).mp h
        obtain ⟨tree, hunfold, hheight, hwithin, rfl, rfl⟩ := (ih hu₁).mp hrest
        rw [← Usage.after_note u counted note tree] at hwithin ⊢
        exact ⟨.note counted note tree, .note hunfold, hheight, hwithin, rfl, by simp [Forest.notes]⟩
      · obtain ⟨hu₁, hu₂, u₃, out₃, hchild, hwalk⟩ := (walkParts_inr_eq_ok hu).mp h
        obtain ⟨inner, ⟨inside, hexpand, hinner⟩, hheight, hu₃, rfl, rfl⟩ :=
          (hvisit item _ _ _ _ hu₂).mp hchild
        obtain ⟨rest, hrest, hheight', hwithin, rfl, rfl⟩ := (ih hu₃).mp hwalk
        rw [← Usage.after_child u counted cost inner rest] at hwithin ⊢
        have hheights : depth + (Forest.child counted cost inner rest).height ≤ g.maxDepth := by
          simp only [Forest.height]
          omega
        exact ⟨.child counted cost inner rest, .child hexpand hinner hrest, hheights, hwithin, rfl,
          by simp [Forest.notes]⟩
    · intro h
      obtain ⟨tree, hunfold, hheight, hwithin, rfl, rfl⟩ := h
      cases hunfold with
      | @note counted note _ rest hrest =>
        rw [Usage.after_note] at hwithin
        have hu₁ : g.Within (u.plus 0 counted.toNat) := within_of_plus hwithin
        have hnotes : out ++ (Forest.note counted note rest).notes = out ++ [note] ++ rest.notes := by
          simp [Forest.notes]
        exact (walkParts_note_eq_ok hu).mpr ⟨hu₁, (ih hu₁).mpr
          ⟨rest, hrest, hheight, hwithin, u.after_note counted note rest, hnotes⟩⟩
      | @child counted cost item inside inner _ rest hexpand hinner hrest =>
        simp only [Forest.height] at hheight
        rw [Usage.after_child] at hwithin
        have hu₃ := within_of_plus hwithin
        have hu₂ := within_of_plus hu₃
        have hu₁ := within_of_plus hu₂
        have hchild := (hvisit item _ out _ _ hu₂).mpr
          ⟨inner, ⟨inside, hexpand, hinner⟩, by omega, hu₃, rfl, rfl⟩
        have hnotes : out ++ (Forest.child counted cost inner rest).notes =
            out ++ inner.notes ++ rest.notes := by simp [Forest.notes]
        have hwalk := (ih hu₃).mpr
          ⟨rest, hrest, by omega, hwithin, u.after_child counted cost inner rest, hnotes⟩
        exact (walkParts_inr_eq_ok hu).mpr ⟨hu₁, hu₂, _, _, hchild, hwalk⟩

/-- A guarded walk succeeds exactly when the unguarded tree exists and lies within the
bounds; it has then charged the tree and brought its notes. -/
theorem walk_eq_ok {expand : ι → Except ε (List (Part ι ν ε))} {extend : κ → ι → κ}
    {depth : Nat} {trail : κ} {item : ι} {u u' : Usage} {out out' : List ν} (hu : g.Within u) :
    g.walk expand extend depth trail item u out = .ok (u', out') ↔
      ∃ tree, Unfolds expand item tree ∧ depth + tree.height ≤ g.maxDepth ∧
        g.Within (u.after tree) ∧ u' = u.after tree ∧ out' = out ++ tree.notes := by
  -- on the levels still allowed below this depth
  induction hlevels : g.maxDepth + 1 - depth generalizing depth trail item u out u' out' with
  | zero =>
    rw [walk, if_pos (by omega)]
    constructor
    · intro h
      cases h
    · intro h
      obtain ⟨tree, -, hheight, -⟩ := h
      omega
  | succ levels ih =>
    have hdepth : depth ≤ g.maxDepth := by omega
    rw [walk, if_neg (by omega), bind_eq_ok]
    have hvisit : g.Visits expand (depth + 1)
        (fun child => g.walk expand extend (depth + 1) (extend trail child) child) :=
      fun child v out v' out' hv => ih hv (by omega)
    simp only [walkParts_eq_ok hdepth hvisit _ hu]
    constructor
    · intro h
      obtain ⟨parts, hexpand, tree, hunfold, hrest⟩ := h
      exact ⟨tree, ⟨parts, hexpand, hunfold⟩, hrest⟩
    · intro h
      obtain ⟨tree, ⟨parts, hexpand, hunfold⟩, hrest⟩ := h
      exact ⟨parts, hexpand, tree, hunfold, hrest⟩

end Guard

end Framework
