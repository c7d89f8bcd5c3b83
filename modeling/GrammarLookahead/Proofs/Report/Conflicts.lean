import GrammarLookahead.Proofs.Report.DecisionDepth

/-!
The ambiguities and the diagnostics of a block. Reported are exactly the pairs of branches that
conflict, in lexicographic order of their positions and each with the evidence that the decision of
the block holds; warned of are the alternatives that nothing predicts and then the ambiguities. Main
statement: `Description.conflicts_reported`.
-/

namespace GrammarLookahead

variable {g : Grammar} {ucd : Unicode} {settings : Settings} {id : BlockId} {b : Block}
  {branch : Branch}

theorem filterMap_guard {α β : Type} (p : α → Bool) (f : α → β) (xs : List α) :
    (xs.filterMap fun x => if p x then some (f x) else none) = (xs.filter p).map f := by
  induction xs with
  | nil => rfl
  | cons x xs ih =>
    rw [List.filterMap_cons, List.filter_cons, ih]
    split <;> simp_all

theorem Decision.Summarizes.lookahead? {decision : Decision} (h : decision.Summarizes g id b)
    (hbranch : branch ∈ b.branches) :
    decision.lookahead? branch = some (g.branchLookahead id decision.depth branch) := by
  have hfind : b.branches.find? (fun x => x = branch) = some branch := by
    cases hfind : b.branches.find? (fun x => x = branch) with
    | none => simpa using List.find?_eq_none.1 hfind branch hbranch
    | some x =>
      have hx := List.find?_some hfind
      rw [of_decide_eq_true hx]
  rw [Decision.lookahead?, h.branches, List.find?_map]
  change ((b.branches.find? fun x => x = branch).map _).map _ = _
  rw [hfind]
  rfl

namespace Grammar

/-- The alternatives of a block that nothing predicts. -/
noncomputable def unpredicted (g : Grammar) (id : BlockId) (b : Block) : List Nat :=
  (List.range b.alternatives.length).filter fun index =>
    (g.branchLookahead id g.maxDepth (.alternative index)).isEmpty

theorem unreachable_branchesAt (hb : g.block? id = some b) :
    Comparison.unreachable g id b (g.branchesAt id b g.maxDepth) =
      (g.unpredicted id b).map
        (.unreachableAlternative (g.ruleNameOf id) id (g.describeBlock id)) := by
  have hname : g.ruleNameOf id = g.ruleName b.rule := by rw [ruleNameOf, hb, Option.elim_some]
  rw [Comparison.unreachable, branchesAt, List.filterMap_map, Block.branches, List.filterMap_append,
    List.filterMap_map, unpredicted, ← filterMap_guard, hname]
  split
  · exact List.append_nil _
  · exact List.append_nil _

end Grammar

/-- The ambiguities of a block that are warned of. -/
def Report.warnedOf (r : Report) (settings : Settings) (id : BlockId) : List Ambiguity :=
  (r.ambiguitiesIn id).filter fun a => !a.involvesExit || settings.warnExitAmbiguities

theorem Comparison.filterMap_warning? {found : List Ambiguity} (hfound : ∀ a ∈ found, a.block = id) :
    found.filterMap (Comparison.warning? g ucd settings) =
      (found.filter fun a => !a.involvesExit || settings.warnExitAmbiguities).map fun a =>
        .ambiguity (g.ruleNameOf id) id (g.describeBlock id) a.first.display a.second.display
          (a.overlap.display ucd g.vocabulary) a.involvesExit := by
  rw [← filterMap_guard]
  refine List.filterMap_congr fun a ha => ?_
  rw [warning?, hfound a ha]
  cases a.involvesExit <;> cases settings.warnExitAmbiguities <;> rfl

theorem Grammar.findingsAt_diagnostics (hb : g.block? id = some b) :
    (g.findingsAt ucd settings id b).diagnostics =
      (if settings.reportUnreachable then
        (g.unpredicted id b).map (.unreachableAlternative (g.ruleNameOf id) id (g.describeBlock id))
      else []) ++
      ((g.findingsAt ucd settings id b).ambiguities.filter fun a =>
          !a.involvesExit || settings.warnExitAmbiguities).map fun a =>
        .ambiguity (g.ruleNameOf id) id (g.describeBlock id) a.first.display a.second.display
          (a.overlap.display ucd g.vocabulary) a.involvesExit := by
  have hfound : ∀ a ∈ (g.findingsAt ucd settings id b).ambiguities, a.block = id := fun a =>
    Comparison.block_of_mem_ambiguities
  rw [← Comparison.filterMap_warning? hfound, ← unreachable_branchesAt hb]
  rfl

/-- A conflict keeps the decision of its block from being deterministic. The decision is then made at
the largest depth, where it holds what the branches share. -/
theorem Decision.Summarizes.backs_conflict {decision : Decision} (h : decision.Summarizes g id b)
    (hg : g.Linked) (hpos : 1 ≤ g.maxDepth) {x y : Branch} (hconflict : g.Conflict id b x y) :
    decision.deterministic = false ∧ ∀ branch, branch = x ∨ branch = y →
      ∃ lookahead, decision.lookahead? branch = some lookahead ∧
        ∀ s ∈ g.shared id g.maxDepth x y, s ∈ lookahead.complete := by
  have hnot : decision.deterministic = false := by
    rw [← Bool.not_eq_true, h.deterministic]
    exact hg.not_apart_of_conflict hpos hconflict
  have hshared : ∀ branch, branch = x ∨ branch = y → branch ∈ b.branches ∧
      ∀ s ∈ g.shared id g.maxDepth x y, s ∈ (g.branchLookahead id g.maxDepth branch).complete := by
    rintro branch (rfl | rfl)
    · exact ⟨hconflict.first_mem, fun s hs => (Grammar.mem_shared.1 hs).1⟩
    · exact ⟨hconflict.second_mem, fun s hs => (Grammar.mem_shared.1 hs).2⟩
  refine ⟨hnot, fun branch hbranch => ⟨_, h.lookahead? (hshared branch hbranch).1, ?_⟩⟩
  rw [h.largest hnot]
  exact (hshared branch hbranch).2

/-- A report as far as the conflicts of a block are concerned, beside what queries say of its
branches. -/
structure Report.AccountsFor (g : Grammar) (ucd : Unicode) (m : Memory) (settings : Settings)
    (id : BlockId) (b : Block) (r : Report) : Prop where
  answers : ∀ branch ∈ b.branches,
    (g.lookBranch g.maxDepth id branch m).1 = .ok (g.branchLookahead id g.maxDepth branch)
  sorted : (r.ambiguitiesIn id).Pairwise fun a a' =>
    Prod.Lex (· < ·) (· < ·) (b.position a.first, b.position a.second)
      (b.position a'.first, b.position a'.second)
  found : ∀ x y, (∃ a ∈ r.ambiguitiesIn id, a.first = x ∧ a.second = y) ↔ g.Conflict id b x y
  recorded : ∀ a ∈ r.ambiguitiesIn id, a = g.ambiguityOf settings id b a.first a.second
  capped : ∀ a ∈ r.ambiguitiesIn id, a.overlap.size = min settings.maxEvidence a.overlapSize
  /-- The decision of the block holds the evidence. -/
  backed : ∀ a ∈ r.ambiguitiesIn id, ∃ decision, r.decision? id = some decision ∧
    decision.deterministic = false ∧ ∀ branch, branch = a.first ∨ branch = a.second →
      ∃ lookahead, decision.lookahead? branch = some lookahead ∧
        ∀ s ∈ a.overlap.complete, s ∈ lookahead.complete
  diagnostics : r.diagnostics.filter (·.block = some id) =
    (if settings.reportUnreachable then
      (g.unpredicted id b).map (.unreachableAlternative (g.ruleNameOf id) id (g.describeBlock id))
    else []) ++
    (r.warnedOf settings id).map fun a =>
      .ambiguity (g.ruleNameOf id) id (g.describeBlock id) a.first.display a.second.display
        (a.overlap.display ucd g.vocabulary) a.involvesExit
  codes : (r.diagnostics.filter (·.block = some id)).map (·.code) =
    (if settings.reportUnreachable then (g.unpredicted id b).map fun _ => some "W0003" else []) ++
      (r.warnedOf settings id).map fun a => if a.involvesExit then some "W0002" else some "W0001"

/-- On a built grammar, whatever was asked and checked before, the report accounts for the conflicts
of every decision that was checked. -/
theorem Description.conflicts_reported {ucd : Unicode} {d : Description} (h : d.build ucd = .ok g)
    (activities : List Activity) (settings : Settings) (checks : List CheckRequest)
    (hb : g.block? id = some b) (hdecision : b.isDecision = true)
    (hid : id ∈ checks.flatMap (CheckRequest.blocks g)) :
    (g.report (checkSession g ucd settings (history g ucd activities) checks)).AccountsFor g ucd
      (history g ucd activities) settings id b := by
  have hg := d.linked_of_build h
  have hpos := d.maxDepth_pos h
  have hm := history_faithful hg hpos ucd activities
  have hchecked := checkSession_hasChecked hg hpos hm ucd settings checks
  have hsummarizes := hg.decisionAt_summarizes hpos id b
  have hfindings : g.findings ucd settings id = g.findingsAt ucd settings id b :=
    Grammar.findings_of_isDecision hb hdecision
  have hambiguities := hchecked.ambiguitiesIn_report id
  have hdecisions := hchecked.decision?_report id
  have hdiagnostics := hchecked.diagnostics_report id
  rw [if_pos hid, hfindings] at hambiguities hdecisions hdiagnostics
  rw [Grammar.findingsAt_diagnostics hb, ← hambiguities] at hdiagnostics
  have hmem : ∀ {a}, a ∈ (g.report
      (checkSession g ucd settings (history g ucd activities) checks)).ambiguitiesIn id ↔
        ∃ x y, g.Conflict id b x y ∧ a = g.ambiguityOf settings id b x y := by
    intro a
    rw [hambiguities, hg.mem_ambiguities hpos]
  exact {
    answers := fun branch hbranch => hg.lookBranch_answer hm hb hbranch hpos (Nat.le_refl _)
    sorted := by
      rw [hambiguities]
      exact hg.ambiguities_sorted hpos
    found := fun x y => by
      constructor
      · rintro ⟨a, ha, rfl, rfl⟩
        obtain ⟨x, y, hconflict, rfl⟩ := hmem.1 ha
        exact hconflict
      · exact fun hconflict => ⟨_, hmem.2 ⟨x, y, hconflict, rfl⟩, rfl, rfl⟩
    recorded := fun a ha => by
      obtain ⟨x, y, -, rfl⟩ := hmem.1 ha
      rfl
    capped := fun a ha => by
      obtain ⟨x, y, -, rfl⟩ := hmem.1 ha
      exact List.length_take
    backed := fun a ha => by
      obtain ⟨x, y, hconflict, rfl⟩ := hmem.1 ha
      obtain ⟨hnot, hbacked⟩ := hsummarizes.backs_conflict hg hpos hconflict
      refine ⟨_, hdecisions, hnot, fun branch hbranch => ?_⟩
      obtain ⟨lookahead, hlookahead, hshared⟩ := hbacked branch hbranch
      exact ⟨lookahead, hlookahead, fun s hs => hshared s (List.mem_of_mem_take hs)⟩
    diagnostics := hdiagnostics
    codes := by
      rw [hdiagnostics, List.map_append, List.map_map, apply_ite (List.map _), List.map_map]
      rfl }

/-- The choice around a loop is checked with all of the grammar, after another checker was at work,
and the conflict of its alternatives is reported. -/
theorem loopOrPair_conflicts :
    loopOrPair.build .ascii = .ok loopOrPair.layout ∧
      ∃ a ∈ (loopOrPair.layout.report (checkSession loopOrPair.layout .ascii {}
        (history loopOrPair.layout .ascii [.checks {} [.block ⟨1⟩]]) [.all])).ambiguitiesIn ⟨0⟩,
          a.first = .alternative 0 ∧ a.second = .alternative 1 :=
  ⟨loopOrPair_build, ((Description.conflicts_reported loopOrPair_build [.checks {} [.block ⟨1⟩]] {}
    [.all] rfl rfl (by decide)).found _ _).2 (loopOrPair_conflict rfl)⟩

end GrammarLookahead
