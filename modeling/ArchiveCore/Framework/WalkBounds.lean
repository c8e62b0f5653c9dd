import ArchiveCore.Framework.WalkMachine

/-!
# What a guarded walk has done wherever it stops

Each invariant is kept by the one step of the machine: the counters are the exact totals,
every task lies at the end of its trail, the items opened are paid for by the levels and the
counted parts, their sizes by the costs, and what was done and what is left make up the tree.
-/

namespace Framework

variable {ι ν ε κ : Type}

/-- `LevelAt expand extend trail root d way item`: the item lies `d` levels below the root
and `way` is the trail to it. -/
inductive LevelAt (expand : ι → Except ε (List (Part ι ν ε))) (extend : κ → ι → κ) (trail : κ)
    (root : ι) : Nat → κ → ι → Prop
  | root : LevelAt expand extend trail root 0 trail root
  | child {depth way item parts counted cost inner} :
      LevelAt expand extend trail root depth way item → expand item = .ok parts →
      ⟨counted, .ok (.inr (cost, inner))⟩ ∈ parts →
      LevelAt expand extend trail root (depth + 1) (extend way inner) inner

section

variable {expand : ι → Except ε (List (Part ι ν ε))} {extend : κ → ι → κ} {trail way : κ}
  {root item inner : ι} {parts : List (Part ι ν ε)} {tree below : Forest ν} {counted : Bool}
  {cost depth : Nat} {out : ν}

theorem UnfoldsParts.measures_of_mem (h : UnfoldsParts expand parts tree)
    (hmem : ⟨counted, .ok (.inr (cost, inner))⟩ ∈ parts) (hbelow : Unfolds expand inner below) :
    below.height + 1 ≤ tree.height ∧ below.totalCount ≤ tree.totalCount := by
  induction h with
  | nil => cases hmem
  | note _ ih =>
    cases hmem with
    | tail _ hmem =>
      obtain ⟨hheight, hcount⟩ := ih hmem
      exact ⟨hheight, hcount.trans (Nat.le_add_left _ _)⟩
  | @child _ _ _ inside first _ rest hexpand hfirst _ _ ih =>
    simp only [Forest.height, Forest.totalCount]
    cases hmem with
    | head =>
      obtain rfl := hbelow.unique ⟨inside, hexpand, hfirst⟩
      omega
    | tail _ hmem =>
      obtain ⟨hheight, hcount⟩ := ih hmem
      omega

theorem Unfolds.level (h : Unfolds expand root tree)
    (hitem : LevelAt expand extend trail root depth way item) :
    ∃ below, Unfolds expand item below ∧ below.notes <:+: tree.notes ∧
      depth + below.height ≤ tree.height ∧ below.totalCount ≤ tree.totalCount ∧
      below.totalCost ≤ tree.totalCost := by
  induction hitem with
  | root => exact ⟨tree, h, List.infix_rfl, Nat.le_of_eq (Nat.zero_add _), le_rfl, le_rfl⟩
  | child _ hexpand hmem ih =>
    obtain ⟨outer, ⟨parts, hparts, houter⟩, hnotes, hheight, hcount, hcost⟩ := ih
    obtain rfl := Except.ok.inj (hexpand.symm.trans hparts)
    obtain ⟨below, hbelow, hnotes', hcost'⟩ := houter.of_mem hmem
    obtain ⟨hheight', hcount'⟩ := houter.measures_of_mem hmem hbelow
    exact ⟨below, hbelow, hnotes'.trans hnotes, by omega, hcount'.trans hcount,
      hcost'.trans hcost⟩

theorem UnfoldsParts.mem_notes (h : UnfoldsParts expand parts tree)
    (hmem : ⟨counted, .ok (.inl out)⟩ ∈ parts) : out ∈ tree.notes := by
  induction h with
  | nil => cases hmem
  | note _ ih =>
    cases hmem with
    | head => exact List.mem_cons_self
    | tail _ hmem => exact List.mem_cons_of_mem _ (ih hmem)
  | child _ _ _ _ ih =>
    cases hmem with
    | tail _ hmem => exact List.mem_append_right _ (ih hmem)

/-- `out` is a note among the parts of an item on some level. -/
def NotedAt (expand : ι → Except ε (List (Part ι ν ε))) (extend : κ → ι → κ) (trail : κ)
    (root : ι) (out : ν) : Prop :=
  ∃ depth way item parts counted, LevelAt expand extend trail root depth way item ∧
    expand item = .ok parts ∧ ⟨counted, .ok (.inl out)⟩ ∈ parts

theorem UnfoldsParts.notedAt {all : List (Part ι ν ε)} (h : UnfoldsParts expand parts tree)
    (hlevel : LevelAt expand extend trail root depth way item) (hall : expand item = .ok all)
    (hparts : parts ⊆ all) (hout : out ∈ tree.notes) : NotedAt expand extend trail root out := by
  induction h generalizing depth way item all with
  | nil => cases hout
  | @note counted first parts rest _ ih =>
    obtain ⟨hfirst, hrest⟩ := List.cons_subset.mp hparts
    rcases List.mem_cons.mp hout with rfl | hout
    · exact ⟨depth, way, item, all, counted, hlevel, hall, hfirst⟩
    · exact ih hlevel hall hrest hout
  | child hexpand _ _ ihinner ih =>
    obtain ⟨hfirst, hrest⟩ := List.cons_subset.mp hparts
    rcases List.mem_append.mp hout with hout | hout
    · exact ihinner (.child hlevel hall hfirst) hexpand (List.Subset.refl _) hout
    · exact ih hlevel hall hrest hout

theorem Unfolds.mem_notes_iff (h : Unfolds expand root tree) (extend : κ → ι → κ) (trail : κ) :
    out ∈ tree.notes ↔ NotedAt expand extend trail root out := by
  constructor
  · intro hout
    obtain ⟨parts, hparts, hunfold⟩ := h
    exact hunfold.notedAt .root hparts (List.Subset.refl _) hout
  · rintro ⟨depth, way, item, parts, counted, hlevel, hitem, hmem⟩
    obtain ⟨below, ⟨parts', hparts', hbelow⟩, hnotes, -⟩ := h.level hlevel
    obtain rfl := Except.ok.inj (hitem.symm.trans hparts')
    exact hnotes.subset (hbelow.mem_notes hmem)

end

/-- The counters of the walk are the exact totals, stopped at the largest word. -/
structure WalkState.Counted (g : Guard κ ε) (s : WalkState ι ν ε κ) : Prop where
  within : g.Within s.usage
  cost : s.usage.cost = min s.inflated wordMax
  count : s.usage.count = min s.entries wordMax

namespace Task

/-- The task lies on a level of the tree, at the end of its trail. -/
def Located (g : Guard κ ε) (expand : ι → Except ε (List (Part ι ν ε))) (extend : κ → ι → κ)
    (trail : κ) (root : ι) : Task ι ν ε κ → Prop
  | .item depth way target =>
    depth ≤ g.maxDepth + 1 ∧ LevelAt expand extend trail root depth way target
  | .part depth way piece =>
    depth ≤ g.maxDepth ∧ ∃ outer parts, LevelAt expand extend trail root depth way outer ∧
      expand outer = .ok parts ∧ piece ∈ parts

/-- The items the task can still open before a counted part is taken. -/
def potential (maxDepth : Nat) : Task ι ν ε κ → Nat
  | .item depth _ _ => maxDepth + 1 - depth
  | .part depth _ piece => if piece.counted then 0 else maxDepth - depth

/-- The size of an item that is to be opened. -/
def size (size : ι → Nat) : Task ι ν ε κ → Nat
  | .item _ _ target => size target
  | .part _ _ _ => 0

/-- The tree below a task. -/
def Unfolds (expand : ι → Except ε (List (Part ι ν ε))) : Task ι ν ε κ → Forest ν → Prop
  | .item _ _ target, tree => Framework.Unfolds expand target tree
  | .part _ _ piece, tree => UnfoldsParts expand [piece] tree

def depth : Task ι ν ε κ → Nat
  | .item depth _ _ => depth
  | .part depth _ _ => depth

end Task

/-- Of the parts of one item at most one is not counted. -/
def Narrow (expand : ι → Except ε (List (Part ι ν ε))) : Prop :=
  ∀ item parts, expand item = .ok parts → (parts.filter fun part => !part.counted).length ≤ 1

/-- A child costs at least its size. -/
def Priced (expand : ι → Except ε (List (Part ι ν ε))) (size : ι → Nat) : Prop :=
  ∀ item parts counted cost child, expand item = .ok parts →
    ⟨counted, .ok (.inr (cost, child))⟩ ∈ parts → size child ≤ cost

theorem UnfoldsParts.length_notes_le {expand : ι → Except ε (List (Part ι ν ε))}
    {parts : List (Part ι ν ε)} {tree : Forest ν} (hnarrow : Narrow expand)
    (h : UnfoldsParts expand parts tree) :
    tree.notes.length ≤ tree.totalCount + (parts.filter fun part => !part.counted).length := by
  induction h with
  | nil => exact Nat.zero_le _
  | @note counted out parts rest _ ih =>
    cases counted <;>
      simp only [Forest.notes, Forest.totalCount, List.length_cons, List.filter_cons, Bool.toNat,
        Bool.not_true, Bool.not_false, Bool.false_eq_true, if_true, if_false, cond] <;>
      omega
  | @child counted cost item inside inner parts rest hexpand _ _ ihinner ih =>
    have hinside := hnarrow item inside hexpand
    cases counted <;>
      simp only [Forest.notes, Forest.totalCount, List.length_cons, List.length_append,
        List.filter_cons, Bool.toNat, Bool.not_true, Bool.not_false, Bool.false_eq_true, if_true,
        if_false, cond] <;>
      omega

/-- The weight of the notes among some parts. -/
def noteWeight (weight : ν → Nat) (parts : List (Part ι ν ε)) : Nat :=
  (parts.map fun part =>
    match part.content with
    | .ok (.inl note) => weight note
    | _ => 0).sum

theorem UnfoldsParts.weight_notes_le {expand : ι → Except ε (List (Part ι ν ε))}
    {weight : ν → Nat} {size : ι → Nat} {parts : List (Part ι ν ε)} {tree : Forest ν}
    (hpriced : Priced expand size)
    (hnotes : ∀ item parts, expand item = .ok parts → noteWeight weight parts ≤ size item)
    (h : UnfoldsParts expand parts tree)
    (hparts : ∀ counted cost child, ⟨counted, .ok (.inr (cost, child))⟩ ∈ parts → size child ≤ cost) :
    (tree.notes.map weight).sum ≤ tree.totalCost + noteWeight weight parts := by
  induction h with
  | nil => exact Nat.zero_le _
  | @note counted out parts rest _ ih =>
    have hrest := ih fun counted cost child hmem =>
      hparts counted cost child (List.mem_cons_of_mem _ hmem)
    simp only [Forest.notes, Forest.totalCost, noteWeight, List.map_cons, List.sum_cons] at hrest ⊢
    omega
  | @child counted cost item inside inner parts rest hexpand _ _ ihinner ih =>
    have hitem : size item ≤ cost := hparts counted cost item List.mem_cons_self
    have hown := hnotes item inside hexpand
    have hinner := ihinner fun counted cost child hmem =>
      hpriced item inside counted cost child hexpand hmem
    have hrest := ih fun counted cost child hmem =>
      hparts counted cost child (List.mem_cons_of_mem _ hmem)
    simp only [Forest.notes, Forest.totalCost, noteWeight, List.map_append, List.sum_append,
      List.map_cons, List.sum_cons] at hrest hinner hown ⊢
    omega

namespace Guard

variable {g : Guard κ ε} {expand : ι → Except ε (List (Part ι ν ε))} {extend : κ → ι → κ}
  {trail : κ} {root : ι} {s s' : WalkState ι ν ε κ}

theorem counted_start (g : Guard κ ε) (trail : κ) (root : ι) :
    (WalkState.start 0 trail root ⟨0, 0⟩ [] : WalkState ι ν ε κ).Counted g where
  within := ⟨Nat.zero_le _, Nat.zero_le _⟩
  cost := rfl
  count := rfl

theorem counted_next (hs : s.Counted g) (h : g.next expand extend s = .ok s') : s'.Counted g := by
  obtain ⟨hwithin, hcost, hcount⟩ := hs
  rcases next_cases h with ⟨-, rfl⟩ | ⟨_, _, _, _, _, -, -, -, rfl⟩ |
    ⟨_, _, counted, _, usage, _, -, hcharge, rfl⟩ |
    ⟨_, _, counted, cost, _, usage, usage', _, -, hcharge, hcharge', rfl⟩
  · exact ⟨hwithin, hcost, hcount⟩
  · exact ⟨hwithin, hcost, hcount⟩
  · obtain ⟨rfl, hwithin'⟩ := (chargeCount_eq_ok hwithin).mp hcharge
    refine ⟨hwithin', ?_, ?_⟩
    · simp only [WalkState.noted, Usage.plus, satAdd]
      omega
    · simp only [WalkState.noted, Usage.plus, satAdd]
      omega
  · obtain ⟨rfl, hwithin'⟩ := (chargeCount_eq_ok hwithin).mp hcharge
    obtain ⟨rfl, hwithin''⟩ := (chargeCost_eq_ok hwithin').mp hcharge'
    refine ⟨hwithin'', ?_, ?_⟩
    · simp only [WalkState.descended, Usage.plus, satAdd]
      omega
    · simp only [WalkState.descended, Usage.plus, satAdd]
      omega

/-- Every task is located. -/
def AllLocated (g : Guard κ ε) (expand : ι → Except ε (List (Part ι ν ε))) (extend : κ → ι → κ)
    (trail : κ) (root : ι) (s : WalkState ι ν ε κ) : Prop :=
  ∀ task ∈ s.todo, task.Located g expand extend trail root

theorem located_start (trail : κ) (root : ι) (u : Usage) (out : List ν) :
    g.AllLocated expand extend trail root (WalkState.start 0 trail root u out) := by
  intro task htask
  obtain rfl := List.mem_singleton.mp htask
  exact ⟨Nat.zero_le _, .root⟩

theorem located_next (hs : g.AllLocated expand extend trail root s)
    (h : g.next expand extend s = .ok s') : g.AllLocated expand extend trail root s' := by
  rcases next_cases h with ⟨-, rfl⟩ | ⟨depth, way, item, parts, todo, htodo, hdepth, hitem, rfl⟩ |
    ⟨_, _, _, _, _, _, htodo, -, rfl⟩ |
    ⟨depth, way, counted, cost, item, _, _, todo, htodo, -, -, rfl⟩
  · exact hs
  · rw [AllLocated, htodo, List.forall_mem_cons] at hs
    obtain ⟨⟨-, hlevel⟩, hrest⟩ := hs
    refine List.forall_mem_append.mpr ⟨?_, hrest⟩
    intro task htask
    obtain ⟨part, hpart, rfl⟩ := List.mem_map.mp htask
    exact ⟨hdepth, item, parts, hlevel, hitem, hpart⟩
  · rw [AllLocated, htodo, List.forall_mem_cons] at hs
    exact hs.2
  · rw [AllLocated, htodo, List.forall_mem_cons] at hs
    obtain ⟨⟨hdepth, outer, parts, hlevel, houter, hpart⟩, hrest⟩ := hs
    exact List.forall_mem_cons.mpr
      ⟨⟨Nat.succ_le_succ hdepth, .child hlevel houter hpart⟩, hrest⟩

/-- The items opened and still to be opened are paid for by the levels of the root and those
of each counted part. -/
def OpeningsPaid (g : Guard κ ε) (s : WalkState ι ν ε κ) : Prop :=
  s.opened.length + (s.todo.map (Task.potential g.maxDepth)).sum ≤
    (g.maxDepth + 1) + g.maxDepth * s.entries

theorem sum_potential_parts (maxDepth depth : Nat) (way : κ) (parts : List (Part ι ν ε)) :
    ((parts.map (Task.part depth way)).map (Task.potential maxDepth)).sum =
      (parts.filter fun part => !part.counted).length * (maxDepth - depth) := by
  induction parts with
  | nil => simp
  | cons part parts ih =>
    rw [List.map_cons, List.map_cons, List.sum_cons, ih]
    cases hcounted : part.counted <;>
      simp [Task.potential, hcounted, Nat.add_mul, Nat.add_comm]

theorem openings_start (trail : κ) (root : ι) (u : Usage) (out : List ν) :
    g.OpeningsPaid (WalkState.start 0 trail root u out) := by
  simp [OpeningsPaid, WalkState.start, Task.potential]

theorem openings_next (hnarrow : Narrow expand) (hs : g.OpeningsPaid s)
    (h : g.next expand extend s = .ok s') : g.OpeningsPaid s' := by
  rcases next_cases h with ⟨-, rfl⟩ | ⟨depth, way, item, parts, todo, htodo, hdepth, hitem, rfl⟩ |
    ⟨_, _, counted, _, _, _, htodo, -, rfl⟩ |
    ⟨depth, way, counted, cost, item, _, _, todo, htodo, -, -, rfl⟩
  · exact hs
  · rw [OpeningsPaid, htodo, List.map_cons, List.sum_cons, Task.potential] at hs
    have hparts : (parts.filter fun part => !part.counted).length * (g.maxDepth - depth) ≤
        g.maxDepth - depth :=
      (Nat.mul_le_mul_right _ (hnarrow item parts hitem)).trans_eq (Nat.one_mul _)
    simp only [OpeningsPaid, WalkState.expanded, List.length_append, List.length_singleton,
      List.map_append, List.sum_append, sum_potential_parts]
    omega
  · rw [OpeningsPaid, htodo, List.map_cons, List.sum_cons] at hs
    have hentries : g.maxDepth * s.entries ≤ g.maxDepth * (s.entries + counted.toNat) :=
      Nat.mul_le_mul_left _ (Nat.le_add_right _ _)
    simp only [OpeningsPaid, WalkState.noted]
    omega
  · rw [OpeningsPaid, htodo, List.map_cons, List.sum_cons, Task.potential] at hs
    simp only [OpeningsPaid, WalkState.descended, List.map_cons, List.sum_cons, Task.potential]
    cases counted with
    | false =>
      simp only [Bool.false_eq_true, if_false, Bool.toNat_false, Nat.add_zero] at hs ⊢
      omega
    | true =>
      simp only [if_true, Bool.toNat_true, Nat.mul_add] at hs ⊢
      omega

/-- The sizes of the items opened and to be opened are paid for by the root and the costs. -/
def SizesPaid (size : ι → Nat) (root : ι) (s : WalkState ι ν ε κ) : Prop :=
  (s.opened.map size).sum + (s.todo.map (Task.size size)).sum ≤ size root + s.inflated

theorem sum_size_parts (size : ι → Nat) (depth : Nat) (way : κ) (parts : List (Part ι ν ε)) :
    ((parts.map (Task.part depth way)).map (Task.size size)).sum = 0 := by
  induction parts with
  | nil => rfl
  | cons part parts ih => simpa [Task.size] using ih

theorem sizes_start (size : ι → Nat) (trail : κ) (root : ι) (u : Usage) (out : List ν) :
    SizesPaid size root (WalkState.start 0 trail root u out : WalkState ι ν ε κ) := by
  simp [SizesPaid, WalkState.start, Task.size]

theorem sizes_next {size : ι → Nat} (hpriced : Priced expand size)
    (hlocated : g.AllLocated expand extend trail root s) (hs : SizesPaid size root s)
    (h : g.next expand extend s = .ok s') : SizesPaid size root s' := by
  rcases next_cases h with ⟨-, rfl⟩ | ⟨depth, way, item, parts, todo, htodo, -, -, rfl⟩ |
    ⟨_, _, _, _, _, _, htodo, -, rfl⟩ |
    ⟨depth, way, counted, cost, item, _, _, todo, htodo, -, -, rfl⟩
  · exact hs
  · rw [SizesPaid, htodo, List.map_cons, List.sum_cons, Task.size] at hs
    simp only [SizesPaid, WalkState.expanded, List.map_append, List.sum_append, sum_size_parts,
      List.map_singleton, List.sum_singleton]
    omega
  · rw [SizesPaid, htodo, List.map_cons, List.sum_cons] at hs
    simp only [SizesPaid, WalkState.noted]
    omega
  · rw [AllLocated, htodo, List.forall_mem_cons] at hlocated
    obtain ⟨⟨-, outer, parts, -, houter, hpart⟩, -⟩ := hlocated
    have hcost : size item ≤ cost := hpriced outer parts counted cost item houter hpart
    rw [SizesPaid, htodo, List.map_cons, List.sum_cons, Task.size] at hs
    simp only [SizesPaid, WalkState.descended, List.map_cons, List.sum_cons, Task.size]
    omega

/-- A task with the tree below it, which reaches no deeper than `height`. -/
def Task.Fits (expand : ι → Except ε (List (Part ι ν ε))) (height : Nat) (task : Task ι ν ε κ)
    (tree : Forest ν) : Prop :=
  task.Unfolds expand tree ∧ task.depth + tree.height ≤ height

/-- What was done and what is left to do make up the tree. -/
def Remains (expand : ι → Except ε (List (Part ι ν ε))) (tree : Forest ν)
    (s : WalkState ι ν ε κ) : Prop :=
  ∃ trees, List.Forall₂ (Task.Fits expand tree.height) s.todo trees ∧
    s.entries + (trees.map Forest.totalCount).sum = tree.totalCount ∧
    s.inflated + (trees.map Forest.totalCost).sum = tree.totalCost

theorem exists_trees_of_parts {parts : List (Part ι ν ε)} {tree : Forest ν}
    (h : UnfoldsParts expand parts tree) (depth height : Nat) (way : κ)
    (hheight : depth + tree.height ≤ height) :
    ∃ trees, List.Forall₂ (Task.Fits expand height) (parts.map (.part depth way)) trees ∧
      (trees.map Forest.totalCount).sum = tree.totalCount ∧
      (trees.map Forest.totalCost).sum = tree.totalCost := by
  induction h with
  | nil => exact ⟨[], .nil, rfl, rfl⟩
  | @note counted out parts rest _ ih =>
    obtain ⟨trees, hfits, hcount, hcost⟩ := ih hheight
    have hdepth : depth + (Forest.note counted out .nil).height ≤ height := by
      simp only [Forest.height] at hheight ⊢
      omega
    refine ⟨.note counted out .nil :: trees, .cons ⟨.note .nil, hdepth⟩ hfits, ?_, ?_⟩
    · simp [Forest.totalCount, hcount]
    · simp [Forest.totalCost, hcost]
  | @child counted cost item inside inner parts rest hexpand hinner _ _ ih =>
    simp only [Forest.height] at hheight
    obtain ⟨trees, hfits, hcount, hcost⟩ := ih (by omega)
    have hdepth : depth + (Forest.child counted cost inner .nil).height ≤ height := by
      simp only [Forest.height]
      omega
    refine ⟨.child counted cost inner .nil :: trees,
      .cons ⟨.child hexpand hinner .nil, hdepth⟩ hfits, ?_, ?_⟩
    · simp [Forest.totalCount, hcount, Nat.add_assoc]
    · simp [Forest.totalCost, hcost, Nat.add_assoc]

theorem remains_start {tree : Forest ν} (h : Unfolds expand root tree) (trail : κ) (u : Usage)
    (out : List ν) : Remains expand tree (WalkState.start 0 trail root u out) := by
  refine ⟨[tree], .cons ⟨h, Nat.le_of_eq (Nat.zero_add _)⟩ .nil, ?_, ?_⟩
  · simp [WalkState.start]
  · simp [WalkState.start]

theorem remains_next {tree : Forest ν} (hs : Remains expand tree s)
    (h : g.next expand extend s = .ok s') : Remains expand tree s' := by
  obtain ⟨trees, hfits, hcount, hcost⟩ := hs
  rcases next_cases h with ⟨-, rfl⟩ | ⟨depth, way, item, parts, todo, htodo, -, hitem, rfl⟩ |
    ⟨_, _, counted, _, _, todo, htodo, -, rfl⟩ |
    ⟨depth, way, counted, cost, item, _, _, todo, htodo, -, -, rfl⟩
  · exact ⟨trees, hfits, hcount, hcost⟩
  · rw [htodo] at hfits
    cases hfits with
    | @cons _ first _ rest hfirst hrest =>
      obtain ⟨⟨parts', hparts', hunfold⟩, hheight⟩ := hfirst
      obtain rfl := Except.ok.inj (hitem.symm.trans hparts')
      obtain ⟨inner, hinner, hinnerCount, hinnerCost⟩ :=
        exists_trees_of_parts hunfold depth tree.height way hheight
      refine ⟨inner ++ rest, List.rel_append hinner hrest, ?_, ?_⟩
      · simp only [List.map_append, List.sum_append, hinnerCount]
        simpa [WalkState.expanded] using hcount
      · simp only [List.map_append, List.sum_append, hinnerCost]
        simpa [WalkState.expanded] using hcost
  · rw [htodo] at hfits
    cases hfits with
    | cons hfirst hrest =>
      obtain ⟨hunfold, -⟩ := hfirst
      cases hunfold with
      | note hnil =>
        cases hnil
        refine ⟨_, hrest, ?_, ?_⟩
        · simp only [List.map_cons, List.sum_cons, Forest.totalCount] at hcount
          simp only [WalkState.noted]
          omega
        · simpa [Forest.totalCost, WalkState.noted] using hcost
  · rw [htodo] at hfits
    cases hfits with
    | @cons _ first _ rest hfirst hrest =>
      obtain ⟨hunfold, hheight⟩ := hfirst
      cases hunfold with
      | @child _ _ _ inside inner _ _ hexpand hinner hnil =>
        cases hnil
        simp only [Task.depth, Forest.height] at hheight
        have hdepth : depth + 1 + inner.height ≤ tree.height := by omega
        refine ⟨inner :: rest, .cons ⟨⟨inside, hexpand, hinner⟩, hdepth⟩ hrest, ?_, ?_⟩
        · simp only [List.map_cons, List.sum_cons, Forest.totalCount] at hcount
          simp only [WalkState.descended, List.map_cons, List.sum_cons]
          omega
        · simp only [List.map_cons, List.sum_cons, Forest.totalCost] at hcost
          simp only [WalkState.descended, List.map_cons, List.sum_cons]
          omega

/-- Where an error of the walk comes from: a bound, or an item or part within the levels. -/
inductive ErrorAt (g : Guard κ ε) (expand : ι → Except ε (List (Part ι ν ε))) (extend : κ → ι → κ)
    (trail : κ) (root : ι) : ε → Prop
  | tooMany : ErrorAt g expand extend trail root g.tooMany
  | tooCostly : ErrorAt g expand extend trail root g.tooCostly
  | tooDeep {way item} :
      LevelAt expand extend trail root (g.maxDepth + 1) way item →
      ErrorAt g expand extend trail root (g.tooDeep way)
  | expand {depth way item e} :
      depth ≤ g.maxDepth → LevelAt expand extend trail root depth way item →
      expand item = .error e → ErrorAt g expand extend trail root e
  | fetch {depth way item parts counted e} :
      depth ≤ g.maxDepth → LevelAt expand extend trail root depth way item →
      expand item = .ok parts → ⟨counted, .error e⟩ ∈ parts →
      ErrorAt g expand extend trail root e

theorem errorAt_of_next {e : ε} (hs : g.AllLocated expand extend trail root s)
    (h : g.next expand extend s = .error e) : ErrorAt g expand extend trail root e := by
  rcases next_error h with ⟨depth, way, item, todo, htodo, hitem⟩ | ⟨depth, way, part, todo, htodo, hpart⟩
  · rw [AllLocated, htodo, List.forall_mem_cons] at hs
    obtain ⟨⟨hlevels, hlevel⟩, -⟩ := hs
    rcases hitem with ⟨hdeep, rfl⟩ | ⟨hdepth, hexpand⟩
    · obtain rfl : depth = g.maxDepth + 1 := Nat.le_antisymm hlevels hdeep
      exact .tooDeep hlevel
    · exact .expand hdepth hlevel hexpand
  · rw [AllLocated, htodo, List.forall_mem_cons] at hs
    obtain ⟨⟨hdepth, outer, parts, hlevel, houter, hmem⟩, -⟩ := hs
    rcases hpart with ⟨-, -, rfl⟩ | hcontent | ⟨cost, item, usage, -, -, -, rfl⟩
    · exact .tooMany
    · obtain ⟨counted, content⟩ := part
      obtain rfl : content = .error e := hcontent
      exact .fetch hdepth hlevel houter hmem
    · exact .tooCostly

theorem walk_error {u : Usage} {out : List ν} {e : ε}
    (h : g.walk expand extend 0 trail root u out = .error e) :
    ErrorAt g expand extend trail root e := by
  obtain ⟨s, hrun, hs⟩ : g.Ends expand extend (.start 0 trail root u out) [] (.error e) :=
    h ▸ walk_ends (s := .start 0 trail root u out) rfl
  have hlocated : g.AllLocated expand extend trail root s :=
    hrun.preserves (fun _ _ hs h => located_next hs h) (located_start trail root u out)
  exact errorAt_of_next hlocated hs

/-- The bounds that a whole tree goes beyond, with the error of each. -/
inductive Excess (g : Guard κ ε) (expand : ι → Except ε (List (Part ι ν ε))) (extend : κ → ι → κ)
    (trail : κ) (root : ι) (tree : Forest ν) : ε → Prop
  | tooMany : g.maxCount < min tree.totalCount wordMax → Excess g expand extend trail root tree g.tooMany
  | tooCostly : g.maxCost < min tree.totalCost wordMax → Excess g expand extend trail root tree g.tooCostly
  | tooDeep {way item} :
      g.maxDepth < tree.height → LevelAt expand extend trail root (g.maxDepth + 1) way item →
      Excess g expand extend trail root tree (g.tooDeep way)

theorem excess_of_next {e : ε} {tree : Forest ν} (hcounted : s.Counted g)
    (hlocated : g.AllLocated expand extend trail root s) (hremains : Remains expand tree s)
    (h : g.next expand extend s = .error e) : Excess g expand extend trail root tree e := by
  obtain ⟨trees, hfits, hcount, hcost⟩ := hremains
  rcases next_error h with ⟨depth, way, item, todo, htodo, hitem⟩ |
    ⟨depth, way, ⟨counted, content⟩, todo, htodo, hpart⟩
  · rw [AllLocated, htodo, List.forall_mem_cons] at hlocated
    obtain ⟨⟨hlevels, hlevel⟩, -⟩ := hlocated
    rw [htodo] at hfits
    cases hfits with
    | cons hfirst _ =>
      obtain ⟨⟨parts, hparts, -⟩, hheight⟩ := hfirst
      rcases hitem with ⟨hdeep, rfl⟩ | ⟨-, hexpand⟩
      · obtain rfl : depth = g.maxDepth + 1 := Nat.le_antisymm hlevels hdeep
        refine .tooDeep ?_ hlevel
        simp only [Task.depth] at hheight
        omega
      · rw [hparts] at hexpand
        cases hexpand
  · rw [htodo] at hfits
    cases hfits with
    | @cons _ first _ rest hfirst _ =>
      obtain ⟨hunfold, -⟩ := hfirst
      rw [List.map_cons, List.sum_cons] at hcount hcost
      rcases hpart with ⟨hcharged, hexcess, rfl⟩ | hcontent | ⟨cost, item, usage, hcontent, hcharge, hexcess, rfl⟩
      · -- the part at hand is counted in its own tree
        have hfirst : 1 ≤ first.totalCount := by
          simp only at hcharged
          subst hcharged
          cases hunfold <;> simp [Forest.totalCount]
        have hwhole : s.entries + 1 ≤ tree.totalCount := by omega
        rw [hcounted.count] at hexcess
        exact .tooMany (hexcess.trans_le (satAdd_min_le hwhole))
      · simp only at hcontent
        subst hcontent
        cases hunfold
      · simp only at hcontent hcharge
        subst hcontent
        obtain ⟨rfl, -⟩ := (chargeCount_eq_ok hcounted.within).mp hcharge
        have hfirst : cost ≤ first.totalCost := by
          cases hunfold
          simp only [Forest.totalCost]
          omega
        have hwhole : s.inflated + cost ≤ tree.totalCost := by omega
        rw [Usage.plus, hcounted.cost, satAdd_zero (Nat.min_le_right _ _)] at hexcess
        exact .tooCostly (hexcess.trans_le (satAdd_min_le hwhole))

/-- Where the tree is there, a walk fails only with a bound the tree goes beyond. -/
theorem walk_error_of_unfolds {tree : Forest ν} {e : ε} (htree : Unfolds expand root tree)
    (h : g.walk expand extend 0 trail root ⟨0, 0⟩ [] = .error e) :
    Excess g expand extend trail root tree e := by
  obtain ⟨s, hrun, hs⟩ : g.Ends expand extend (.start 0 trail root ⟨0, 0⟩ []) [] (.error e) :=
    h ▸ walk_ends (s := .start 0 trail root ⟨0, 0⟩ []) rfl
  have hcounted : s.Counted g :=
    hrun.preserves (fun _ _ hs h => counted_next hs h) (counted_start g trail root)
  have hlocated : g.AllLocated expand extend trail root s :=
    hrun.preserves (fun _ _ hs h => located_next hs h) (located_start trail root _ _)
  have hremains : Remains expand tree s :=
    hrun.preserves (fun _ _ hs h => remains_next hs h) (remains_start htree trail _ _)
  exact excess_of_next hcounted hlocated hremains hs

theorem exists_openings {size : ι → Nat} (hnarrow : Narrow expand) (hpriced : Priced expand size)
    (g : Guard κ ε) (extend : κ → ι → κ) (trail : κ) (root : ι) :
    ∃ (seen : List ι) (entries inflated : Nat),
      min entries wordMax ≤ g.maxCount ∧ min inflated wordMax ≤ g.maxCost ∧
      seen.length ≤ (g.maxDepth + 1) + g.maxDepth * entries ∧
      (seen.map size).sum ≤ size root + inflated ∧
      ∀ expand' : ι → Except ε (List (Part ι ν ε)), (∀ item ∈ seen, expand' item = expand item) →
        g.walk expand' extend 0 trail root ⟨0, 0⟩ [] = g.walk expand extend 0 trail root ⟨0, 0⟩ [] := by
  have hwalk : g.Ends expand extend (.start 0 trail root ⟨0, 0⟩ []) []
      (g.walk expand extend 0 trail root ⟨0, 0⟩ []) :=
    walk_ends (s := .start 0 trail root ⟨0, 0⟩ []) rfl
  obtain ⟨s, hrun, hcongr⟩ := hwalk.congr
  have hcounted : s.Counted g :=
    hrun.preserves (fun _ _ hs h => counted_next hs h) (counted_start g trail root)
  have hopened : g.OpeningsPaid s :=
    hrun.preserves (fun _ _ hs h => openings_next hnarrow hs h) (openings_start trail root _ _)
  have hsizes : g.AllLocated expand extend trail root s ∧ SizesPaid size root s :=
    hrun.preserves (P := fun s => g.AllLocated expand extend trail root s ∧ SizesPaid size root s)
      (fun _ _ hs h => ⟨located_next hs.1 h, sizes_next hpriced hs.1 hs.2 h⟩)
      ⟨located_start trail root _ _, sizes_start size trail root _ _⟩
  -- the item asked for last is the first task
  have hlast : (g.asked s).length ≤ (s.todo.map (Task.potential g.maxDepth)).sum ∧
      ((g.asked s).map size).sum ≤ (s.todo.map (Task.size size)).sum := by
    rw [asked]
    cases s.todo with
    | nil => simp
    | cons task todo =>
      cases task with
      | part depth way part => simp
      | item depth way item =>
        by_cases hdeep : g.maxDepth < depth
        · simp [hdeep]
        · simp only [hdeep, if_false, List.length_singleton, List.map_cons, List.sum_cons,
            Task.potential, Task.size, List.map_nil, List.sum_nil]
          omega
  obtain ⟨hcost, hcount⟩ := hcounted.within
  refine ⟨s.opened ++ g.asked s, s.entries, s.inflated, hcounted.count ▸ hcount,
    hcounted.cost ▸ hcost, ?_, ?_, ?_⟩
  · rw [OpeningsPaid] at hopened
    rw [List.length_append]
    omega
  · have hpaid := hsizes.2
    rw [SizesPaid] at hpaid
    rw [List.map_append, List.sum_append]
    omega
  · intro expand' hsame
    exact (walk_ends (s := .start 0 trail root ⟨0, 0⟩ []) rfl : g.Ends expand' extend _ [] _).unique
      (hcongr expand' hsame)

end Guard

end Framework
