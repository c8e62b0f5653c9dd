import ArchiveCore.Framework.GuardedWalk
import Mathlib.Logic.Relation

/-!
# Guarded walks one step at a time

The recursion of a guarded walk as a machine with a list of what is still to do. A step
either expands an item or takes one part; next to the usage the walk is charged for, the
state records exactly what was done. What every step preserves holds wherever a walk ends,
also where it ends with an error.
-/

namespace Framework

variable {ι ν ε κ : Type}

/-- What is still to do: an item to expand, or a part of an item that was. -/
inductive Task (ι ν ε κ : Type)
  | item (depth : Nat) (trail : κ) (item : ι)
  | part (depth : Nat) (trail : κ) (part : Part ι ν ε)

/-- `opened` are the expanded items, `entries` and `inflated` the exact totals so far. -/
structure WalkState (ι ν ε κ : Type) where
  todo : List (Task ι ν ε κ)
  usage : Usage
  out : List ν
  opened : List ι
  entries : Nat
  inflated : Nat

namespace WalkState

/-- Before the first step. -/
def start (depth : Nat) (trail : κ) (root : ι) (u : Usage) (out : List ν) : WalkState ι ν ε κ where
  todo := [.item depth trail root]
  usage := u
  out := out
  opened := []
  entries := 0
  inflated := 0

/-- The item is expanded and its parts come next. -/
def expanded (s : WalkState ι ν ε κ) (depth : Nat) (trail : κ) (item : ι)
    (parts : List (Part ι ν ε)) (todo : List (Task ι ν ε κ)) : WalkState ι ν ε κ :=
  { s with todo := parts.map (.part depth trail) ++ todo, opened := s.opened ++ [item] }

/-- A part was a note. -/
def noted (s : WalkState ι ν ε κ) (counted : Bool) (usage : Usage) (note : ν)
    (todo : List (Task ι ν ε κ)) : WalkState ι ν ε κ :=
  { s with todo, usage, out := s.out ++ [note], entries := s.entries + counted.toNat }

/-- A part was a child, which comes next. -/
def descended (s : WalkState ι ν ε κ) (depth : Nat) (trail : κ) (counted : Bool) (cost : Nat)
    (usage : Usage) (item : ι) (todo : List (Task ι ν ε κ)) : WalkState ι ν ε κ :=
  { s with
    todo := .item depth trail item :: todo
    usage
    entries := s.entries + counted.toNat
    inflated := s.inflated + cost }

end WalkState

namespace Guard

/-- One step; nothing is left to do at the end of a walk. -/
def next (g : Guard κ ε) (expand : ι → Except ε (List (Part ι ν ε))) (extend : κ → ι → κ)
    (s : WalkState ι ν ε κ) : Except ε (WalkState ι ν ε κ) :=
  match s.todo with
  | [] => .ok s
  | .item depth trail item :: todo =>
    if g.maxDepth < depth then .error (g.tooDeep trail)
    else do
      let parts ← expand item
      return s.expanded depth trail item parts todo
  | .part depth trail part :: todo => do
    let usage ← g.chargeCount part.counted s.usage
    match ← part.content with
    | .inl note => return s.noted part.counted usage note todo
    | .inr (cost, item) => do
      let usage ← g.chargeCost cost usage
      return s.descended (depth + 1) (extend trail item) part.counted cost usage item todo

/-- Any number of steps. -/
def Runs (g : Guard κ ε) (expand : ι → Except ε (List (Part ι ν ε))) (extend : κ → ι → κ) :
    WalkState ι ν ε κ → WalkState ι ν ε κ → Prop :=
  Relation.ReflTransGen fun s s' => g.next expand extend s = .ok s'

variable {g : Guard κ ε} {expand : ι → Except ε (List (Part ι ν ε))} {extend : κ → ι → κ}
  {s s' : WalkState ι ν ε κ}

/-- All that a step can do. -/
theorem next_cases (h : g.next expand extend s = .ok s') :
    (s.todo = [] ∧ s' = s) ∨
    (∃ depth trail item parts todo, s.todo = .item depth trail item :: todo ∧
      depth ≤ g.maxDepth ∧ expand item = .ok parts ∧ s' = s.expanded depth trail item parts todo) ∨
    (∃ depth trail counted note usage todo,
      s.todo = .part depth trail ⟨counted, .ok (.inl note)⟩ :: todo ∧
      g.chargeCount counted s.usage = .ok usage ∧ s' = s.noted counted usage note todo) ∨
    ∃ depth trail counted cost item usage usage' todo,
      s.todo = .part depth trail ⟨counted, .ok (.inr (cost, item))⟩ :: todo ∧
      g.chargeCount counted s.usage = .ok usage ∧ g.chargeCost cost usage = .ok usage' ∧
      s' = s.descended (depth + 1) (extend trail item) counted cost usage' item todo := by
  rw [next] at h
  cases htodo : s.todo with
  | nil =>
    rw [htodo] at h
    exact .inl ⟨rfl, (Except.ok.inj h).symm⟩
  | cons task todo =>
    rw [htodo] at h
    cases task with
    | item depth trail item =>
      simp only at h
      by_cases hdepth : g.maxDepth < depth
      · rw [if_pos hdepth] at h
        cases h
      · rw [if_neg hdepth] at h
        simp only [bind_eq_ok, pure_eq_ok] at h
        obtain ⟨parts, hparts, rfl⟩ := h
        exact .inr (.inl ⟨depth, trail, item, parts, todo, rfl, Nat.le_of_not_lt hdepth, hparts, rfl⟩)
    | part depth trail part =>
      obtain ⟨counted, content⟩ := part
      simp only [bind_eq_ok] at h
      obtain ⟨usage, hcount, fetched, rfl, h⟩ := h
      cases fetched with
      | inl note =>
        simp only [pure_eq_ok] at h
        exact .inr (.inr (.inl ⟨depth, trail, counted, note, usage, todo, rfl, hcount, h.symm⟩))
      | inr child =>
        simp only [bind_eq_ok, pure_eq_ok] at h
        obtain ⟨usage', hcost, h⟩ := h
        exact .inr (.inr (.inr ⟨depth, trail, counted, child.1, child.2, usage, usage', todo, rfl,
          hcount, hcost, h.symm⟩))

theorem chargeCount_eq_error {counted : Bool} {u : Usage} {e : ε} :
    g.chargeCount counted u = .error e ↔
      counted = true ∧ g.maxCount < satAdd u.count 1 ∧ e = g.tooMany := by
  cases counted with
  | false => simp [chargeCount]
  | true =>
    by_cases h : g.maxCount < satAdd u.count 1 <;> simp [chargeCount, h, eq_comm]

theorem chargeCost_eq_error {cost : Nat} {u : Usage} {e : ε} :
    g.chargeCost cost u = .error e ↔ g.maxCost < satAdd u.cost cost ∧ e = g.tooCostly := by
  by_cases h : g.maxCost < satAdd u.cost cost <;> simp [chargeCost, h, eq_comm]

theorem next_error {e : ε} (h : g.next expand extend s = .error e) :
    (∃ depth trail item todo, s.todo = .item depth trail item :: todo ∧
      ((g.maxDepth < depth ∧ e = g.tooDeep trail) ∨
        (depth ≤ g.maxDepth ∧ expand item = .error e))) ∨
    ∃ depth trail part todo, s.todo = .part depth trail part :: todo ∧
      ((part.counted = true ∧ g.maxCount < satAdd s.usage.count 1 ∧ e = g.tooMany) ∨
        part.content = .error e ∨
        ∃ cost item usage, part.content = .ok (.inr (cost, item)) ∧
          g.chargeCount part.counted s.usage = .ok usage ∧
          g.maxCost < satAdd usage.cost cost ∧ e = g.tooCostly) := by
  rw [next] at h
  cases htodo : s.todo with
  | nil =>
    rw [htodo] at h
    cases h
  | cons task todo =>
    rw [htodo] at h
    cases task with
    | item depth trail item =>
      refine .inl ⟨depth, trail, item, todo, rfl, ?_⟩
      simp only at h
      by_cases hdepth : g.maxDepth < depth
      · rw [if_pos hdepth] at h
        exact .inl ⟨hdepth, (Except.error.inj h).symm⟩
      · rw [if_neg hdepth, bind_eq_error] at h
        rcases h with hitem | ⟨parts, -, h⟩
        · exact .inr ⟨Nat.le_of_not_lt hdepth, hitem⟩
        · exact absurd h pure_ne_error
    | part depth trail part =>
      refine .inr ⟨depth, trail, part, todo, rfl, ?_⟩
      simp only [bind_eq_error] at h
      rcases h with hcount | ⟨usage, hcount, hcontent | ⟨fetched, hcontent, h⟩⟩
      · exact .inl (chargeCount_eq_error.mp hcount)
      · exact .inr (.inl hcontent)
      · cases fetched with
        | inl note => exact absurd h pure_ne_error
        | inr child =>
          simp only [bind_eq_error] at h
          rcases h with hcost | ⟨usage', -, h⟩
          · exact .inr (.inr ⟨child.1, child.2, usage, hcontent, hcount,
              chargeCost_eq_error.mp hcost⟩)
          · exact absurd h pure_ne_error

/-- What every step preserves holds throughout a run. -/
theorem Runs.preserves {P : WalkState ι ν ε κ → Prop}
    (hstep : ∀ s s', P s → g.next expand extend s = .ok s' → P s')
    (h : g.Runs expand extend s s') (hs : P s) : P s' := by
  induction h with
  | refl => exact hs
  | tail _ hlast ih => exact hstep _ _ ih hlast

/-- The machine does from `s` on what a recursive walk brings, with `todo` left over. -/
def Ends (g : Guard κ ε) (expand : ι → Except ε (List (Part ι ν ε))) (extend : κ → ι → κ)
    (s : WalkState ι ν ε κ) (todo : List (Task ι ν ε κ)) (r : Except ε (Usage × List ν)) : Prop :=
  ∃ s', g.Runs expand extend s s' ∧
    match r with
    | .ok (u, out) => s'.todo = todo ∧ s'.usage = u ∧ s'.out = out
    | .error e => g.next expand extend s' = .error e

theorem Ends.of_error {todo : List (Task ι ν ε κ)} {e : ε}
    (h : g.next expand extend s = .error e) : g.Ends expand extend s todo (.error e) :=
  ⟨s, .refl, h⟩

theorem Ends.of_next {todo : List (Task ι ν ε κ)} {r : Except ε (Usage × List ν)}
    (h : g.next expand extend s = .ok s') (hends : g.Ends expand extend s' todo r) :
    g.Ends expand extend s todo r := by
  obtain ⟨last, hrun, hlast⟩ := hends
  exact ⟨last, .head h hrun, hlast⟩

theorem Ends.bind {mid todo : List (Task ι ν ε κ)} {r : Except ε (Usage × List ν)}
    {f : Usage × List ν → Except ε (Usage × List ν)} (h : g.Ends expand extend s mid r)
    (hrest : ∀ s' : WalkState ι ν ε κ, s'.todo = mid →
      g.Ends expand extend s' todo (f (s'.usage, s'.out))) :
    g.Ends expand extend s todo (r >>= f) := by
  obtain ⟨s', hrun, hs'⟩ := h
  cases r with
  | error e => exact ⟨s', hrun, hs'⟩
  | ok r =>
    obtain ⟨u, out⟩ := r
    obtain ⟨htodo, rfl, rfl⟩ := hs'
    obtain ⟨last, hrun', hlast⟩ := hrest s' htodo
    exact ⟨last, hrun.trans hrun', hlast⟩

theorem walkParts_ends {depth : Nat} {trail : κ}
    {visit : ι → Usage → List ν → Except ε (Usage × List ν)}
    (hvisit : ∀ child (s : WalkState ι ν ε κ) todo,
      s.todo = .item (depth + 1) (extend trail child) child :: todo →
        g.Ends expand extend s todo (visit child s.usage s.out))
    (parts : List (Part ι ν ε)) {s : WalkState ι ν ε κ} {todo : List (Task ι ν ε κ)}
    (hs : s.todo = parts.map (.part depth trail) ++ todo) :
    g.Ends expand extend s todo (g.walkParts visit parts s.usage s.out) := by
  induction parts generalizing s with
  | nil => exact ⟨s, .refl, hs, rfl, rfl⟩
  | cons part parts ih =>
    rw [List.map_cons, List.cons_append] at hs
    rw [walkParts]
    cases hcount : g.chargeCount part.counted s.usage with
    | error e => exact .of_error (by rw [next, hs]; simp only [hcount]; rfl)
    | ok usage =>
      rcases hcontent : part.content with e | note | ⟨cost, item⟩
      · exact .of_error (by rw [next, hs]; simp only [hcount, hcontent]; rfl)
      · have hnext : g.next expand extend s =
            .ok (s.noted part.counted usage note (parts.map (.part depth trail) ++ todo)) := by
          rw [next, hs]
          simp only [hcount, hcontent]
          rfl
        exact .of_next hnext (ih rfl)
      · cases hcost : g.chargeCost cost usage with
        | error e =>
          have hnext : g.next expand extend s = .error e := by
            rw [next, hs]
            simp only [hcount, hcontent, bind, Except.bind, hcost]
          simp only [bind, Except.bind, hcost]
          exact .of_error hnext
        | ok usage' =>
          have hnext : g.next expand extend s =
              .ok (s.descended (depth + 1) (extend trail item) part.counted cost usage' item
                (parts.map (.part depth trail) ++ todo)) := by
            rw [next, hs]
            simp only [hcount, hcontent, bind, Except.bind, hcost]
            rfl
          have hchild := hvisit item (s.descended (depth + 1) (extend trail item) part.counted cost
            usage' item (parts.map (.part depth trail) ++ todo)) _ rfl
          simp only [bind, Except.bind, hcost]
          exact .of_next hnext (hchild.bind fun s' hs' => ih hs')

/-- The machine ends as the recursive walk does, at every level and with any errors. -/
theorem walk_ends {depth : Nat} {trail : κ} {item : ι} {s : WalkState ι ν ε κ}
    {todo : List (Task ι ν ε κ)} (hs : s.todo = .item depth trail item :: todo) :
    g.Ends expand extend s todo (g.walk expand extend depth trail item s.usage s.out) := by
  -- on the levels still allowed below this depth
  induction hlevels : g.maxDepth + 1 - depth generalizing depth trail item s todo with
  | zero =>
    have hdeep : g.maxDepth < depth := by omega
    rw [walk, if_pos hdeep]
    exact .of_error (by rw [next, hs]; simp only [hdeep, if_true])
  | succ levels ih =>
    have hdepth : ¬ g.maxDepth < depth := by omega
    rw [walk, if_neg hdepth]
    cases hitem : expand item with
    | error e => exact .of_error (by rw [next, hs]; simp only [hdepth, if_false, hitem]; rfl)
    | ok parts =>
      have hnext : g.next expand extend s = .ok (s.expanded depth trail item parts todo) := by
        rw [next, hs]
        simp only [hdepth, if_false, hitem]
        rfl
      exact .of_next hnext
        (walkParts_ends (fun child s todo hs => ih hs (by omega)) parts rfl)

theorem Runs.eq_of_todo (hs : s.todo = []) (h : g.Runs expand extend s s') : s' = s := by
  induction h with
  | refl => rfl
  | tail _ hlast ih =>
    subst ih
    rw [next, hs] at hlast
    exact (Except.ok.inj hlast).symm

theorem Runs.eq_of_error {e : ε} (hs : g.next expand extend s = .error e)
    (h : g.Runs expand extend s s') : s' = s := by
  induction h with
  | refl => rfl
  | tail _ hlast ih =>
    subst ih
    rw [hs] at hlast
    cases hlast

theorem Ends.unique {r r' : Except ε (Usage × List ν)} (h : g.Ends expand extend s [] r)
    (h' : g.Ends expand extend s [] r') : r = r' := by
  obtain ⟨t, hrun, ht⟩ := h
  obtain ⟨t', hrun', ht'⟩ := h'
  have hstuck : ∀ {t t' : WalkState ι ν ε κ} {r : Except ε (Usage × List ν)},
      (match r with
        | .ok (u, out) => t.todo = [] ∧ t.usage = u ∧ t.out = out
        | .error e => g.next expand extend t = .error e) →
      g.Runs expand extend t t' → t' = t := by
    intro t t' r ht hrun
    cases r with
    | error e => exact hrun.eq_of_error ht
    | ok r => exact hrun.eq_of_todo ht.1
  have hsame : t' = t := by
    have hfunctional : Relator.RightUnique fun s s' => g.next expand extend s = .ok s' :=
      fun _ _ _ h h' => Except.ok.inj (h.symm.trans h')
    rcases Relation.ReflTransGen.total_of_right_unique hfunctional hrun hrun' with hle | hle
    · exact hstuck ht hle
    · exact (hstuck ht' hle).symm
  subst hsame
  have hdone : t'.todo = [] → g.next expand extend t' = .ok t' := by
    intro htodo
    rw [next, htodo]
  cases r with
  | error e =>
    cases r' with
    | error e' => rw [ht] at ht'; exact congrArg _ (Except.error.inj ht')
    | ok r' => rw [hdone ht'.1] at ht; cases ht
  | ok r =>
    cases r' with
    | error e' => rw [hdone ht.1] at ht'; cases ht'
    | ok r' =>
      obtain ⟨-, husage, hout⟩ := ht
      obtain ⟨-, husage', hout'⟩ := ht'
      rw [← Prod.mk.eta (p := r), ← Prod.mk.eta (p := r'), ← husage, ← hout, ← husage', ← hout']

/-- The item that the next step expands. -/
def asked (g : Guard κ ε) (s : WalkState ι ν ε κ) : List ι :=
  match s.todo with
  | .item depth _ item :: _ => if g.maxDepth < depth then [] else [item]
  | _ => []

theorem next_congr {expand' : ι → Except ε (List (Part ι ν ε))}
    (h : ∀ item ∈ g.asked s, expand' item = expand item) :
    g.next expand' extend s = g.next expand extend s := by
  rw [next, next]
  cases htodo : s.todo with
  | nil => rfl
  | cons task todo =>
    cases task with
    | item depth trail item =>
      by_cases hdeep : g.maxDepth < depth
      · simp only [hdeep, if_true]
      · have hitem : expand' item = expand item := h item (by simp [asked, htodo, hdeep])
        simp only [hitem]
    | part depth trail part => rfl

theorem mem_opened_of_next (h : g.next expand extend s = .ok s') {item : ι} :
    (item ∈ s.opened → item ∈ s'.opened) ∧ (item ∈ g.asked s → item ∈ s'.opened) := by
  rcases next_cases h with ⟨htodo, rfl⟩ | ⟨_, _, _, _, _, htodo, hdepth, -, rfl⟩ |
    ⟨_, _, _, _, _, _, htodo, -, rfl⟩ | ⟨_, _, _, _, _, _, _, _, htodo, -, -, rfl⟩
  · simp [asked, htodo]
  · simp +contextual [asked, htodo, Nat.not_lt_of_le hdepth, WalkState.expanded]
  · simp [asked, htodo, WalkState.noted]
  · simp [asked, htodo, WalkState.descended]

theorem Runs.congr {expand' : ι → Except ε (List (Part ι ν ε))}
    (h : g.Runs expand extend s s') (hopened : ∀ item ∈ s'.opened, expand' item = expand item) :
    g.Runs expand' extend s s' := by
  induction h with
  | refl => exact .refl
  | tail _ hlast ih =>
    refine .tail (ih fun item hitem => hopened item ((mem_opened_of_next hlast).1 hitem)) ?_
    rw [next_congr fun item hitem => hopened item ((mem_opened_of_next hlast).2 hitem)]
    exact hlast

theorem Ends.congr {r : Except ε (Usage × List ν)} (h : g.Ends expand extend s [] r) :
    ∃ s', g.Runs expand extend s s' ∧ ∀ expand' : ι → Except ε (List (Part ι ν ε)),
      (∀ item ∈ s'.opened ++ g.asked s', expand' item = expand item) →
        g.Ends expand' extend s [] r := by
  obtain ⟨s', hrun, hs'⟩ := h
  refine ⟨s', hrun, fun expand' hsame => ⟨s', ?_, ?_⟩⟩
  · exact hrun.congr fun item hitem => hsame item (List.mem_append_left _ hitem)
  · cases r with
    | error e =>
      simp only
      rw [next_congr fun item hitem => hsame item (List.mem_append_right _ hitem)]
      exact hs'
    | ok r => exact hs'

end Guard

end Framework
