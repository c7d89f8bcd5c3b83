import Mathlib.Data.Prod.Lex
import GrammarLookahead.Proofs.Analysis.Depths
import GrammarLookahead.Proofs.Report.CheckerContract

/-!
The comparison of the branches of a decision. A pair of branches is recorded exactly when the
branches conflict, and what is recorded of it are the sequences that both branches see at the
largest depth. Main statements: `Linked.mem_ambiguities` and `Linked.ambiguities_sorted`.
-/

namespace GrammarLookahead

section

variable {α : Type} {r : α → α → Prop} {xs : List α} {x y : α}

theorem orderedPairs_map {β : Type} (f : α → β) (xs : List α) :
    orderedPairs (xs.map f) = (orderedPairs xs).map (Prod.map f f) := by
  induction xs with
  | nil => rfl
  | cons x xs ih =>
    simp only [List.map_cons, orderedPairs, List.map_append, List.map_map, ih]
    rfl

theorem forall_mem_orderedPairs : (∀ p ∈ orderedPairs xs, r p.1 p.2) ↔ xs.Pairwise r := by
  induction xs with
  | nil => simp [orderedPairs]
  | cons x xs ih =>
    rw [orderedPairs, List.forall_mem_append, ih, List.pairwise_cons, List.forall_mem_map]

theorem mem_of_mem_orderedPairs (h : (x, y) ∈ orderedPairs xs) : x ∈ xs ∧ y ∈ xs := by
  induction xs with
  | nil => cases h
  | cons z xs ih =>
    rcases List.mem_append.1 h with h | h
    · obtain ⟨z', hz', heq⟩ := List.mem_map.1 h
      obtain ⟨rfl, rfl⟩ := Prod.mk.inj heq
      exact ⟨List.mem_cons_self, List.mem_cons_of_mem _ hz'⟩
    · exact (ih h).imp (List.mem_cons_of_mem _) (List.mem_cons_of_mem _)

/-- In an ordered list the pairs are those of an element and a greater one. -/
theorem mem_orderedPairs (hr : ∀ x y, r x y → ¬ r y x) (hxs : xs.Pairwise r) :
    (x, y) ∈ orderedPairs xs ↔ x ∈ xs ∧ y ∈ xs ∧ r x y := by
  constructor
  · intro h
    obtain ⟨hx, hy⟩ := mem_of_mem_orderedPairs h
    exact ⟨hx, hy, forall_mem_orderedPairs.2 hxs _ h⟩
  · rintro ⟨hx, hy, hxy⟩
    induction xs with
    | nil => cases hx
    | cons z xs ih =>
      obtain ⟨hz, hxs⟩ := List.pairwise_cons.1 hxs
      rw [orderedPairs, List.mem_append]
      rcases List.mem_cons.1 hx with rfl | hx'
      · rcases List.mem_cons.1 hy with rfl | hy'
        · exact absurd hxy (hr _ _ hxy)
        · exact Or.inl (List.mem_map_of_mem hy')
      · rcases List.mem_cons.1 hy with rfl | hy'
        · exact absurd hxy (hr _ _ (hz x hx'))
        · exact Or.inr (ih hxs hx' hy')

theorem orderedPairs_pairwise (hxs : xs.Pairwise r) : (orderedPairs xs).Pairwise (Prod.Lex r r) := by
  induction xs with
  | nil => exact .nil
  | cons x xs ih =>
    obtain ⟨hx, hxs⟩ := List.pairwise_cons.1 hxs
    rw [orderedPairs, List.pairwise_append]
    refine ⟨?_, ih hxs, ?_⟩
    · rw [List.pairwise_map]
      exact hxs.imp fun h => .right x h
    · intro p hp q hq
      obtain ⟨y, -, rfl⟩ := List.mem_map.1 hp
      exact .left _ _ (hx q.1 (mem_of_mem_orderedPairs hq).1)

end

/-- The place of a branch among the branches of a block: the alternatives in order, then the exit. -/
def Block.position (b : Block) : Branch → Nat
  | .alternative index => index
  | .exit => b.alternatives.length

theorem Block.branches_pairwise (b : Block) :
    b.branches.Pairwise fun x y => b.position x < b.position y := by
  rw [branches, List.pairwise_append]
  refine ⟨?_, ?_, ?_⟩
  · rw [List.pairwise_map]
    exact List.pairwise_lt_range
  · split
    · exact List.pairwise_singleton _ _
    · exact .nil
  · intro x hx y hy
    obtain ⟨index, hindex, rfl⟩ := List.mem_map.1 hx
    split at hy
    · rw [List.mem_singleton.1 hy]
      exact List.mem_range.1 hindex
    · cases hy

theorem Block.mem_orderedPairs {b : Block} {x y : Branch} : (x, y) ∈ orderedPairs b.branches ↔
    x ∈ b.branches ∧ y ∈ b.branches ∧ b.position x < b.position y :=
  GrammarLookahead.mem_orderedPairs (fun _ _ => Nat.lt_asymm) b.branches_pairwise

namespace Grammar

variable {g : Grammar} {id : BlockId} {b : Block} {depth deeper : Nat} {x y : Branch}
  {ucd : Unicode} {settings : Settings} {s : TokenSeq}

/-- The sequences that two branches of a block share at a depth. -/
noncomputable def shared (g : Grammar) (id : BlockId) (depth : Nat) (x y : Branch) :
    OrderedSet TokenSeq :=
  (g.branchLookahead id depth x).complete.filter (· ∈ (g.branchLookahead id depth y).complete)

/-- Two branches of a block that a parser cannot tell apart, and that no option settles. -/
structure Conflict (g : Grammar) (id : BlockId) (b : Block) (x y : Branch) : Prop where
  first_mem : x ∈ b.branches
  second_mem : y ∈ b.branches
  before : b.position x < b.position y
  shares : ∃ s, s ∈ g.shared id g.maxDepth x y
  unsettled : b.greedy.isSome = true → x ≠ .exit ∧ y ≠ .exit

/-- What is recorded of two branches that conflict. -/
noncomputable def ambiguityOf (g : Grammar) (settings : Settings) (id : BlockId) (b : Block)
    (x y : Branch) : Ambiguity where
  block := id
  rule := b.rule
  first := x
  second := y
  depth := g.maxDepth
  overlap := ⟨g.maxDepth, (g.shared id g.maxDepth x y).take settings.maxEvidence, ∅⟩
  overlapSize := (g.shared id g.maxDepth x y).size

theorem mem_shared : s ∈ g.shared id depth x y ↔
    s ∈ (g.branchLookahead id depth x).complete ∧ s ∈ (g.branchLookahead id depth y).complete := by
  simp [shared]

/-- A pair is recorded if the branches share something and no option settles it. -/
theorem recorded_iff :
    ¬ ((g.shared id g.maxDepth x y).isEmpty ||
        (g.ambiguityOf settings id b x y).involvesExit && b.greedy.isSome) = true ↔
      (∃ s, s ∈ g.shared id g.maxDepth x y) ∧
        (b.greedy.isSome = true → x ≠ .exit ∧ y ≠ .exit) := by
  have hexit : (g.ambiguityOf settings id b x y).involvesExit = true ↔ x = .exit ∨ y = .exit := by
    rw [Ambiguity.involvesExit, Bool.or_eq_true, decide_eq_true_iff, decide_eq_true_iff]
    rfl
  rw [Bool.or_eq_true, OrderedSet.isEmpty_iff, Bool.and_eq_true, hexit]
  cases b.greedy.isSome <;> simp

namespace Linked

variable (hg : g.Linked)
include hg

/-- What can be seen from a branch is complete. -/
theorem branchLookahead_closed (hpos : 1 ≤ depth) :
    (g.branchLookahead id depth x).Closed depth := by
  cases hx : g.branchTarget? id x with
  | none =>
    rw [branchLookahead, hx]
    exact ⟨rfl, rfl, fun s hs => absurd hs OrderedSet.not_mem_empty⟩
  | some n =>
    rw [branchLookahead_of_target hx]
    exact hg.lookahead_closed hpos

theorem mem_branchLookahead (hpos : 1 ≤ depth) {n : ElementId} (hn : g.branchTarget? id x = some n)
    {m : Member} :
    m ∈ g.branchLookahead id depth x ↔ g.Sees (some (.element n)) depth .everywhere m := by
  rw [branchLookahead_of_target hn]
  exact @Grammar.Linked.mem_lookahead g m hg (.element n depth .everywhere) hpos

theorem isDisjoint_branches (hpos : 1 ≤ depth) :
    (g.branchLookahead id depth x).isDisjoint (g.branchLookahead id depth y) = true ↔
      ∀ s, s ∉ g.shared id depth x y := by
  rw [(hg.branchLookahead_closed hpos).isDisjoint_iff (hg.branchLookahead_closed hpos)]
  simp [mem_shared]

theorem intersection_branches (hpos : 1 ≤ depth) :
    (g.branchLookahead id depth x).intersection (g.branchLookahead id depth y) =
      ⟨depth, g.shared id depth x y, ∅⟩ :=
  (hg.branchLookahead_closed hpos).intersection_eq (hg.branchLookahead_closed hpos)

theorem shared_closed (id : BlockId) (x y : Branch) (hpos : 1 ≤ depth) :
    LookaheadSet.Closed depth ⟨depth, g.shared id depth x y, ∅⟩ := by
  rw [← hg.intersection_branches hpos]
  exact (hg.branchLookahead_closed hpos).intersection (hg.branchLookahead_closed hpos)

/-- What branches share far ahead, cut off, they share less far ahead. -/
theorem clip_mem_shared (hpos : 1 ≤ depth) (hle : depth ≤ deeper)
    (hs : s ∈ g.shared id deeper x y) : TokenSeq.clip depth s ∈ g.shared id depth x y := by
  have hclip : ∀ branch : Branch, s ∈ (g.branchLookahead id deeper branch).complete →
      TokenSeq.clip depth s ∈ (g.branchLookahead id depth branch).complete := by
    intro branch hs
    cases htarget : g.branchTarget? id branch with
    | none =>
      rw [branchLookahead, htarget] at hs
      exact absurd hs OrderedSet.not_mem_empty
    | some n =>
      rw [branchLookahead_of_target htarget] at hs ⊢
      exact hg.clip_mem_lookahead hpos hle (LookaheadSet.mem_complete.2 hs)
  obtain ⟨hx, hy⟩ := mem_shared.1 hs
  exact mem_shared.2 ⟨hclip x hx, hclip y hy⟩

theorem ambiguity?_branches (hpos : 1 ≤ g.maxDepth) :
    Comparison.ambiguity? settings id b g.maxDepth
        (⟨x, g.branchLookahead id g.maxDepth x⟩, ⟨y, g.branchLookahead id g.maxDepth y⟩) =
      if (g.shared id g.maxDepth x y).isEmpty ||
          (g.ambiguityOf settings id b x y).involvesExit && b.greedy.isSome then none
      else some (g.ambiguityOf settings id b x y) := by
  have hcap := (hg.shared_closed id x y hpos).cap_eq settings.maxEvidence
  have hempty : LookaheadSet.isEmpty ⟨g.maxDepth, g.shared id g.maxDepth x y, ∅⟩ =
      (g.shared id g.maxDepth x y).isEmpty := Bool.and_true _
  simp only [Comparison.ambiguity?, hg.intersection_branches hpos, hcap, hempty]
  rfl

theorem ambiguities_eq (hpos : 1 ≤ g.maxDepth) :
    (g.findingsAt ucd settings id b).ambiguities = (orderedPairs b.branches).filterMap fun p =>
      if (g.shared id g.maxDepth p.1 p.2).isEmpty ||
          (g.ambiguityOf settings id b p.1 p.2).involvesExit && b.greedy.isSome then none
      else some (g.ambiguityOf settings id b p.1 p.2) := by
  rw [findingsAt, Comparison.ambiguities, branchesAt, orderedPairs_map, List.filterMap_map]
  exact List.filterMap_congr fun p _ => hg.ambiguity?_branches hpos

/-- Recorded are the pairs of branches that conflict. -/
theorem mem_ambiguities (hpos : 1 ≤ g.maxDepth) {a : Ambiguity} :
    a ∈ (g.findingsAt ucd settings id b).ambiguities ↔
      ∃ x y, g.Conflict id b x y ∧ a = g.ambiguityOf settings id b x y := by
  rw [hg.ambiguities_eq hpos, List.mem_filterMap]
  constructor
  · rintro ⟨⟨x, y⟩, hmem, ha⟩
    obtain ⟨hx, hy, hbefore⟩ := Block.mem_orderedPairs.1 hmem
    obtain ⟨hrecorded, ha⟩ := Option.ite_none_left_eq_some.1 ha
    obtain ⟨hshares, hunsettled⟩ := recorded_iff.1 hrecorded
    exact ⟨x, y, ⟨hx, hy, hbefore, hshares, hunsettled⟩, (Option.some.inj ha).symm⟩
  · rintro ⟨x, y, hconflict, rfl⟩
    have hmem := Block.mem_orderedPairs.2
      ⟨hconflict.first_mem, hconflict.second_mem, hconflict.before⟩
    refine ⟨(x, y), hmem, ?_⟩
    rw [if_neg (recorded_iff.2 ⟨hconflict.shares, hconflict.unsettled⟩)]

/-- They are recorded in lexicographic order of the positions of the branches. -/
theorem ambiguities_sorted (hpos : 1 ≤ g.maxDepth) :
    (g.findingsAt ucd settings id b).ambiguities.Pairwise fun a a' =>
      Prod.Lex (· < ·) (· < ·) (b.position a.first, b.position a.second)
        (b.position a'.first, b.position a'.second) := by
  rw [hg.ambiguities_eq hpos, List.pairwise_filterMap]
  refine (orderedPairs_pairwise b.branches_pairwise).imp fun {p q} hpq a ha a' ha' => ?_
  obtain ⟨-, ha⟩ := Option.ite_none_left_eq_some.1 ha
  obtain ⟨-, ha'⟩ := Option.ite_none_left_eq_some.1 ha'
  rw [← Option.some.inj ha, ← Option.some.inj ha']
  cases hpq with
  | left _ _ h => exact .left _ _ h
  | right _ h => exact .right _ h

end Linked

end Grammar

end GrammarLookahead
