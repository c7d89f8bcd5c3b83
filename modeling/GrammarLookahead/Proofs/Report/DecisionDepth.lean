import Mathlib.Order.Bounds.Defs
import GrammarLookahead.Proofs.Report.BranchComparison
import GrammarLookahead.Proofs.Report.CheckSession

/-!
The depth of a decision. Branches that overlap somewhere overlap at every smaller depth, so a
decision is recorded at the least depth that tells its branches apart, and they stay apart up to the
largest depth. There the ambiguities are looked for: unless an option settles them, a decision is
deterministic exactly when it has none. Main statement: `Description.decisions_agree`.
-/

namespace GrammarLookahead

namespace Grammar

variable {g : Grammar} {id : BlockId} {b : Block} {depth deeper : Nat}

/-- A depth tells the branches of a block apart. -/
def Apart (g : Grammar) (id : BlockId) (b : Block) (depth : Nat) : Prop :=
  b.branches.Pairwise fun x y =>
    (g.branchLookahead id depth x).isDisjoint (g.branchLookahead id depth y) = true

theorem tellsApart_iff : g.tellsApart id b depth = true ↔ g.Apart id b depth := by
  rw [tellsApart, pairwiseDisjoint_iff, branchesAt, List.map_map, List.pairwise_map]
  rfl

namespace Linked

variable (hg : g.Linked)
include hg

/-- Branches that overlap overlap at every smaller depth. -/
theorem isDisjoint_of_le (hpos : 1 ≤ depth) (hle : depth ≤ deeper) {x y : Branch}
    (h : (g.branchLookahead id depth x).isDisjoint (g.branchLookahead id depth y) = true) :
    (g.branchLookahead id deeper x).isDisjoint (g.branchLookahead id deeper y) = true := by
  rw [hg.isDisjoint_branches hpos] at h
  rw [hg.isDisjoint_branches (Nat.le_trans hpos hle)]
  exact fun s hs => h _ (hg.clip_mem_shared hpos hle hs)

theorem apart_of_le (hpos : 1 ≤ depth) (hle : depth ≤ deeper) (h : g.Apart id b depth) :
    g.Apart id b deeper :=
  h.imp (hg.isDisjoint_of_le hpos hle)

theorem not_apart_of_conflict (hpos : 1 ≤ g.maxDepth) {x y : Branch}
    (h : g.Conflict id b x y) : ¬ g.Apart id b g.maxDepth := by
  rw [Apart, ← forall_mem_orderedPairs]
  intro hapart
  have hmem := Block.mem_orderedPairs.2 ⟨h.first_mem, h.second_mem, h.before⟩
  obtain ⟨s, hs⟩ := h.shares
  exact (hg.isDisjoint_branches hpos).1 (hapart _ hmem) s hs

/-- Where no option settles a conflict, branches are told apart exactly if nothing is recorded. -/
theorem ambiguities_eq_nil (hpos : 1 ≤ g.maxDepth) (hgreedy : b.greedy = none) :
    (g.findingsAt ucd settings id b).ambiguities = [] ↔ g.Apart id b g.maxDepth := by
  rw [List.eq_nil_iff_forall_not_mem]
  constructor
  · intro hnone
    rw [Apart, ← forall_mem_orderedPairs]
    rintro ⟨x, y⟩ hmem
    obtain ⟨hx, hy, hbefore⟩ := Block.mem_orderedPairs.1 hmem
    rw [hg.isDisjoint_branches hpos]
    intro s hs
    refine hnone _ ((hg.mem_ambiguities hpos).2 ⟨x, y, ⟨hx, hy, hbefore, ⟨s, hs⟩, ?_⟩, rfl⟩)
    simp [hgreedy]
  · intro hapart a ha
    obtain ⟨x, y, hconflict, -⟩ := (hg.mem_ambiguities hpos).1 ha
    exact hg.not_apart_of_conflict hpos hconflict hapart

end Linked

end Grammar

/-- A decision at a block as a parser generator may rely on it. -/
structure Decision.Summarizes (g : Grammar) (id : BlockId) (b : Block) (decision : Decision) :
    Prop where
  block : decision.block = id
  rule : decision.rule = b.rule
  kind : decision.kind = b.kind
  branches : decision.branches =
    b.branches.map fun branch => ⟨branch, g.branchLookahead id decision.depth branch⟩
  deterministic : decision.deterministic = true ↔ g.Apart id b g.maxDepth
  least : decision.deterministic = true →
    IsLeast {depth | 1 ≤ depth ∧ depth ≤ g.maxDepth ∧ g.Apart id b depth} decision.depth
  stays : decision.deterministic = true →
    ∀ depth, decision.depth ≤ depth → depth ≤ g.maxDepth → g.Apart id b depth
  largest : decision.deterministic = false → decision.depth = g.maxDepth

/-- A report as far as a block is concerned, beside what queries say of the branches of the block:
the decision and the ambiguities agree with each other and with the lookahead at every depth. -/
structure Report.AgreesOn (g : Grammar) (m : Memory) (id : BlockId) (b : Block) (r : Report) :
    Prop where
  answers : ∀ depth, 1 ≤ depth → depth ≤ g.maxDepth → ∀ branch ∈ b.branches,
    (g.lookBranch depth id branch m).1 = .ok (g.branchLookahead id depth branch)
  overlaps : ∀ x ∈ b.branches, ∀ y ∈ b.branches, ∀ depth deeper,
    1 ≤ depth → depth ≤ deeper → deeper ≤ g.maxDepth →
      (g.branchLookahead id deeper x).isDisjoint (g.branchLookahead id deeper y) = false →
        (g.branchLookahead id depth x).isDisjoint (g.branchLookahead id depth y) = false
  decision : ∃ decision, r.decision? id = some decision ∧ decision.Summarizes g id b ∧
    (b.greedy = none → (decision.deterministic = true ↔ r.ambiguitiesIn id = []))

namespace Grammar

variable {g : Grammar} {ucd : Unicode} {id : BlockId} {b : Block}

/-- No smaller depth tells the branches of a block apart, and the depth itself does unless it is the
largest one. -/
theorem decisionDepth_spec (g : Grammar) (id : BlockId) (b : Block) :
    (∀ depth, 1 ≤ depth → depth < g.decisionDepth id b → ¬ g.Apart id b depth) ∧
      (g.decisionDepth id b = g.maxDepth ∨ g.Apart id b (g.decisionDepth id b)) := by
  unfold decisionDepth settledDepth
  cases hfind : (List.range' 1 (g.maxDepth - 1)).find? (g.tellsApart id b) with
  | none =>
    rw [List.find?_range'_eq_none] at hfind
    refine ⟨fun depth hpos hlt hapart => ?_, Or.inl rfl⟩
    rw [Option.getD_none] at hlt
    have hnot := hfind depth hpos (by omega)
    rw [tellsApart_iff.2 hapart] at hnot
    cases hnot
  | some found =>
    obtain ⟨hfound, -, hbefore⟩ := List.find?_range'_eq_some.1 hfind
    refine ⟨fun depth hpos hlt hapart => ?_, Or.inr (tellsApart_iff.1 hfound)⟩
    have hnot := hbefore depth hpos hlt
    rw [tellsApart_iff.2 hapart] at hnot
    cases hnot

theorem Linked.decisionAt_summarizes (hg : g.Linked) (hpos : 1 ≤ g.maxDepth) (id : BlockId)
    (b : Block) : (g.decisionAt id b (g.decisionDepth id b)).Summarizes g id b := by
  obtain ⟨hbefore, hreached⟩ := g.decisionDepth_spec id b
  obtain ⟨hdepth, hle⟩ := decisionDepth_mem hpos id b
  exact {
    block := rfl
    rule := rfl
    kind := rfl
    branches := rfl
    deterministic := by
      -- Either a smaller depth was found, or the decision is made at the largest one.
      refine tellsApart_iff.trans ⟨hg.apart_of_le hdepth hle, fun h => ?_⟩
      rcases hreached with heq | hapart
      · rwa [heq]
      · exact hapart
    least := fun h => by
      refine ⟨⟨hdepth, hle, tellsApart_iff.1 h⟩, fun depth hmem => ?_⟩
      exact Nat.le_of_not_lt fun hlt => hbefore depth hmem.1 hlt hmem.2.2
    stays := fun h depth hge _ => hg.apart_of_le hdepth hge (tellsApart_iff.1 h)
    largest := fun h => by
      refine hreached.resolve_right fun hapart => ?_
      rw [← tellsApart_iff] at hapart
      exact Bool.false_ne_true (h.symm.trans hapart) }

/-- A block without options has no ambiguities exactly if its decision, if it is one, is
deterministic. -/
theorem Linked.findings_ambiguities_eq_nil (hg : g.Linked) (hpos : 1 ≤ g.maxDepth)
    (ucd : Unicode) (settings : Settings)
    (hgreedy : ∀ b, g.block? id = some b → b.greedy = none) :
    (g.findings ucd settings id).ambiguities = [] ↔
      ∀ decision ∈ (g.findings ucd settings id).decisions, decision.deterministic = true := by
  rcases g.findings_cases ucd settings id with ⟨-, hnone⟩ | ⟨b, hb, -, hsome⟩
  · simp [hnone]
  · have hsummarizes := hg.decisionAt_summarizes hpos id b
    rw [hsome, hg.ambiguities_eq_nil hpos (hgreedy b hb), ← hsummarizes.deterministic]
    simp [findingsAt]

/-- Queries about the branches of a block are answered. -/
theorem Linked.lookBranch_answer (hg : g.Linked) {m : Memory} (hm : m.Faithful g)
    (hb : g.block? id = some b) {branch : Branch} (hbranch : branch ∈ b.branches) {depth : Nat}
    (hpos : 1 ≤ depth) (hle : depth ≤ g.maxDepth) :
    (g.lookBranch depth id branch m).1 = .ok (g.branchLookahead id depth branch) := by
  obtain ⟨a, m', hrun, rfl, -⟩ := lookBranch_succeeds hg hm hb hbranch hpos hle
  rw [hrun]

end Grammar

/-- On a built grammar, whatever was asked and checked before, the decision reported for a block that
was checked agrees with the lookahead of its branches at every depth and with the ambiguities
reported for it; without options, a grammar is deterministic exactly if all its decisions are and no
rule is left-recursive. -/
theorem Description.decisions_agree {ucd : Unicode} {d : Description} {g : Grammar}
    (h : d.build ucd = .ok g) (settings : Settings) :
    (∀ (activities : List Activity) (checks : List CheckRequest) (id : BlockId) (b : Block),
      g.block? id = some b → b.isDecision = true →
      id ∈ checks.flatMap (CheckRequest.blocks g) →
      (g.report (checkSession g ucd settings (history g ucd activities) checks)).AgreesOn g
        (history g ucd activities) id b) ∧
    ((∀ id b, g.block? id = some b → b.greedy = none) →
      ((g.analyze ucd settings).isDeterministic = true ↔
        (∀ decision ∈ (g.analyze ucd settings).decisions, decision.deterministic = true) ∧
          (g.analyze ucd settings).leftRecursive = [])) := by
  have hg := d.linked_of_build h
  have hpos := d.maxDepth_pos h
  constructor
  · intro activities checks id b hb hdecision hid
    have hm := history_faithful hg hpos ucd activities
    have hchecked := checkSession_hasChecked hg hpos hm ucd settings checks
    have hsummarizes := hg.decisionAt_summarizes hpos id b
    refine ⟨fun depth hpos hle branch hbranch => hg.lookBranch_answer hm hb hbranch hpos hle, ?_,
      _, ?_, hsummarizes, fun hgreedy => ?_⟩
    · intro x _ y _ depth deeper hpos hle _ hoverlap
      rw [Bool.eq_false_iff] at hoverlap ⊢
      exact mt (hg.isDisjoint_of_le hpos hle) hoverlap
    · rw [hchecked.decision?_report, if_pos hid, Grammar.findings_of_isDecision hb hdecision]
      rfl
    · rw [hchecked.ambiguitiesIn_report, if_pos hid, Grammar.findings_of_isDecision hb hdecision,
        hg.ambiguities_eq_nil hpos hgreedy, hsummarizes.deterministic]
  · intro hgreedy
    -- Ambiguities and decisions are listed block by block, so they can be compared block by block.
    have hchecked := checkSession_hasChecked hg hpos (session_faithful hg []) ucd settings [.all]
    have hambiguities : (g.analyze ucd settings).ambiguities = [] ↔
        ∀ decision ∈ (g.analyze ucd settings).decisions, decision.deterministic = true := by
      have heqa : (g.analyze ucd settings).ambiguities = _ := hchecked.ambiguities
      have heqd : (g.analyze ucd settings).decisions = _ := hchecked.decisions
      rw [heqa, heqd, List.flatMap_eq_nil_iff, List.forall_mem_flatMap]
      exact forall₂_congr fun id _ => hg.findings_ambiguities_eq_nil hpos ucd settings (hgreedy id)
    rw [Report.isDeterministic, Bool.and_eq_true, List.isEmpty_iff, List.isEmpty_iff, hambiguities]

/-- Both alternatives begin with the same token. -/
theorem loopOrPair_conflict {b : Block} (hb : loopOrPair.layout.block? ⟨0⟩ = some b) :
    loopOrPair.layout.Conflict ⟨0⟩ b (.alternative 0) (.alternative 1) := by
  have hg := loopOrPair.linked_of_build loopOrPair_build
  have hsees : ∀ branch n, loopOrPair.layout.branchTarget? ⟨0⟩ branch = some n →
      loopOrPair.layout.Sees (some (.element n)) 1 .everywhere (.complete [⟨1⟩]) →
      [⟨1⟩] ∈ (loopOrPair.layout.branchLookahead ⟨0⟩ 1 branch).complete := fun _ _ hn =>
    (hg.mem_branchLookahead (Nat.le_refl 1) hn).2
  have hloop : loopOrPair.layout.Sees (some (.element ⟨3⟩)) 1 .everywhere (.complete [⟨1⟩]) :=
    .lastToken rfl (List.mem_singleton_self _) (Or.inl rfl)
  have hfirst := hsees (.alternative 0) ⟨1⟩ rfl
    (.entered rfl (Or.inr rfl) (.branch rfl List.mem_cons_self hloop))
  have hsecond := hsees (.alternative 1) ⟨4⟩ rfl
    (.lastToken rfl (List.mem_singleton_self _) (Or.inl rfl))
  obtain rfl := Option.some.inj hb
  exact ⟨by decide, by decide, by decide, ⟨_, Grammar.mem_shared.2 ⟨hfirst, hsecond⟩⟩, by decide⟩

/-- The choice around a loop is a decision that one token of lookahead leaves open, and no option
settles anything. -/
theorem loopOrPair_agrees :
    loopOrPair.build .ascii = .ok loopOrPair.layout ∧
      (∃ decision, (loopOrPair.layout.report (checkSession loopOrPair.layout .ascii {}
          (history loopOrPair.layout .ascii [.query (.ask (.rule 1 "s"))])
          [.block ⟨0⟩])).decision? ⟨0⟩ = some decision ∧ decision.deterministic = false ∧
          decision.depth = 1) ∧
      ((loopOrPair.layout.analyze .ascii {}).isDeterministic = true ↔
        (∀ decision ∈ (loopOrPair.layout.analyze .ascii {}).decisions,
          decision.deterministic = true) ∧
          (loopOrPair.layout.analyze .ascii {}).leftRecursive = []) := by
  have hg := loopOrPair.linked_of_build loopOrPair_build
  have hgreedy : ∀ b ∈ loopOrPair.layout.blocks.toList, b.greedy = none := by decide
  refine ⟨loopOrPair_build, ?_, ?_⟩
  · obtain ⟨decision, hdecision, hsummarizes, -⟩ :=
      ((Description.decisions_agree loopOrPair_build {}).1 [.query (.ask (.rule 1 "s"))]
        [.block ⟨0⟩] ⟨0⟩ _ rfl rfl (by decide)).decision
    have hnot := hg.not_apart_of_conflict (Nat.le_refl 1) (loopOrPair_conflict rfl)
    rw [← hsummarizes.deterministic, Bool.not_eq_true] at hnot
    exact ⟨decision, hdecision, hnot, hsummarizes.largest hnot⟩
  · exact (Description.decisions_agree loopOrPair_build {}).2 fun id b hb =>
      hgreedy b (Array.mem_toList_iff.2 (Array.mem_of_getElem? hb))

end GrammarLookahead
