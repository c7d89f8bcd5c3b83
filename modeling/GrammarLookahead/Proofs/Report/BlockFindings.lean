import GrammarLookahead.Proofs.Analysis.Session
import GrammarLookahead.Report.Checker

/-!
What a check of one block records. The findings of a block are determined by the least lookahead of
its branches and by the settings: on a built grammar a check that is not refused adds exactly these
findings, whatever the analysis was asked before. Main statements: `checkBlock_of_none`,
`checkBlock_of_mem` and `checkBlock_of_not_mem`.
-/

namespace GrammarLookahead

section Succeeds

variable {σ α β : Type} {s : σ} {x : ExceptT QueryError (StateM σ) α}
  {f : α → ExceptT QueryError (StateM σ) β} {post post' : α → σ → Prop} {next : β → σ → Prop}

/-- A computation succeeds with a result and a state of which something holds. -/
def Succeeds (x : ExceptT QueryError (StateM σ) α) (s : σ) (post : α → σ → Prop) : Prop :=
  ∃ a s', x s = (.ok a, s') ∧ post a s'

theorem bind_eq :
    (x >>= f) s =
      match x s with
      | (.ok a, s') => f a s'
      | (.error e, s') => (.error e, s') := by
  change (ExceptT.bindCont f (x s).1) (x s).2 = _
  rcases x s with ⟨e | a, s'⟩
  · rfl
  · rfl

namespace Succeeds

theorem pure {a : α} (h : post a s) : Succeeds (Pure.pure a) s post := ⟨a, s, rfl, h⟩

theorem bind (hx : Succeeds x s post) (hf : ∀ a s', post a s' → Succeeds (f a) s' next) :
    Succeeds (x >>= f) s next := by
  obtain ⟨a, s', hx, hpost⟩ := hx
  obtain ⟨b, t, hf, hnext⟩ := hf a s' hpost
  refine ⟨b, t, ?_, hnext⟩
  rw [bind_eq, hx]
  exact hf

theorem modify {change : σ → σ} {post : PUnit → σ → Prop} (h : post ⟨⟩ (change s)) :
    Succeeds (modifyThe σ change) s post :=
  ⟨⟨⟩, change s, rfl, h⟩

theorem get_bind {f : σ → ExceptT QueryError (StateM σ) β} (h : Succeeds (f s) s next) :
    Succeeds (MonadState.get >>= f) s next := by
  obtain ⟨b, t, hf, hnext⟩ := h
  exact ⟨b, t, by rw [bind_eq]; exact hf, hnext⟩

theorem modify_bind {change : σ → σ} {f : PUnit → ExceptT QueryError (StateM σ) β}
    (h : Succeeds (f ⟨⟩) (change s) next) : Succeeds (modifyThe σ change >>= f) s next := by
  obtain ⟨b, t, hf, hnext⟩ := h
  exact ⟨b, t, by rw [bind_eq]; exact hf, hnext⟩

theorem mono (hx : Succeeds x s post) (h : ∀ a s', post a s' → post' a s') :
    Succeeds x s post' := by
  obtain ⟨a, s', hx, hpost⟩ := hx
  exact ⟨a, s', hx, h a s' hpost⟩

theorem toCheck {α : Type} {q : Query α} {c : Checker} {post : α → Memory → Prop}
    (h : Succeeds q c.memory post) :
    Succeeds q.toCheck c fun a c' => ∃ m, post a m ∧ c' = { c with memory := m } := by
  obtain ⟨a, m, hq, hpost⟩ := h
  refine ⟨a, { c with memory := m }, ?_, m, hpost, rfl⟩
  unfold Query.toCheck
  rw [hq]

end Succeeds

end Succeeds

variable {g : Grammar} {m : Memory} {id : BlockId} {b : Block} {depth : Nat} {branch : Branch}
  {n : ElementId}

/-- A decision is a block with several branches. -/
theorem Block.isDecision_iff : b.isDecision = true ↔ 2 ≤ b.branches.length := by
  cases halternatives : b.alternatives with
  | nil => simp [isDecision, branches, halternatives]
  | cons a as =>
    cases hexit : b.kind.hasExitBranch with
    | false => simp [isDecision, branches, halternatives, hexit, Nat.one_le_iff_ne_zero,
        Nat.pos_iff_ne_zero]
    | true => simp [isDecision, branches, halternatives, hexit]

/-- The query for a branch. -/
def Question.ofBranch (depth : Nat) (block : BlockId) : Branch → Question
  | .alternative index => .alternative depth block index
  | .exit => .exit depth block

namespace Grammar

/-- The element that a branch of a block begins at. -/
def branchTarget? (g : Grammar) (block : BlockId) : Branch → Option ElementId
  | .alternative index => (g.block? block).bind fun b => b.alternatives[index]?.map (·.first)
  | .exit => (g.block? block).map g.exitTarget

theorem lookBranch_eq_ask :
    g.lookBranch depth id branch = (Question.ofBranch depth id branch).ask g := by
  cases branch <;> rfl

theorem key?_ofBranch (hn : g.branchTarget? id branch = some n) :
    (Question.ofBranch depth id branch).key? g = some (.element n depth .everywhere) := by
  cases branch with
  | alternative index =>
    obtain ⟨b, hb, hn⟩ := Option.bind_eq_some_iff.1 hn
    obtain ⟨a, ha, rfl⟩ := Option.map_eq_some_iff.1 hn
    simp [Question.ofBranch, Question.key?, hb, ha]
  | exit =>
    obtain ⟨b, hb, rfl⟩ := Option.map_eq_some_iff.1 hn
    simp [Question.ofBranch, Question.key?, hb]

theorem branchTarget?_of_mem (hb : g.block? id = some b) (hbranch : branch ∈ b.branches) :
    ∃ n, g.branchTarget? id branch = some n := by
  cases branch with
  | alternative index =>
    have hlt : index < b.alternatives.length := by
      rw [Block.branches, List.mem_append] at hbranch
      rcases hbranch with h | h
      · obtain ⟨i, hi, heq⟩ := List.mem_map.1 h
        obtain rfl := Branch.alternative.inj heq
        exact List.mem_range.1 hi
      · split at h <;> simp at h
    exact ⟨b.alternatives[index].first, by simp [branchTarget?, hb, hlt]⟩
  | exit => exact ⟨g.exitTarget b, by simp [branchTarget?, hb]⟩

variable (g)

/-- What can be seen from a branch of a block. -/
noncomputable def branchLookahead (id : BlockId) (depth : Nat) (branch : Branch) : LookaheadSet :=
  (g.branchTarget? id branch).elim (.empty depth) fun n => g.lookahead (.element n depth .everywhere)

/-- The branches of a block, each with what can be seen from it. -/
noncomputable def branchesAt (id : BlockId) (b : Block) (depth : Nat) : List BranchLookahead :=
  b.branches.map fun branch => ⟨branch, g.branchLookahead id depth branch⟩

variable {g}

theorem branchLookahead_of_target (hn : g.branchTarget? id branch = some n) :
    g.branchLookahead id depth branch = g.lookahead (.element n depth .everywhere) := by
  rw [branchLookahead, hn, Option.elim_some]

section

variable (hg : g.Linked)
include hg

theorem lookBranch_succeeds (hm : m.Faithful g) (hb : g.block? id = some b)
    (hbranch : branch ∈ b.branches) (hpos : 1 ≤ depth) (hle : depth ≤ g.maxDepth) :
    Succeeds (g.lookBranch depth id branch) m fun a m' =>
      a = g.branchLookahead id depth branch ∧ Memory.Asked g m m' := by
  obtain ⟨n, hn⟩ := branchTarget?_of_mem hb hbranch
  have hkey : (Question.ofBranch depth id branch).key? g = _ := key?_ofBranch hn
  have hanswer := hm.answer hg hkey hpos hle
  rw [lookBranch_eq_ask, branchLookahead_of_target hn]
  exact ⟨_, _, Prod.ext hanswer rfl, rfl, Memory.Asked.ask m _⟩

theorem lookBranches_succeeds (hm : m.Faithful g) (hb : g.block? id = some b) (hpos : 1 ≤ depth)
    (hle : depth ≤ g.maxDepth) :
    Succeeds (g.lookBranches depth id b.branches) m fun entries m' =>
      entries = g.branchesAt id b depth ∧ Memory.Asked g m m' := by
  have hall : ∀ (branches : List Branch) (m : Memory), m.Faithful g →
      (∀ branch ∈ branches, branch ∈ b.branches) →
      Succeeds (g.lookBranches depth id branches) m fun entries m' =>
        entries = branches.map (fun branch => BranchLookahead.mk branch
            (g.branchLookahead id depth branch)) ∧
          Memory.Asked g m m' := by
    intro branches
    induction branches with
    | nil => exact fun m _ _ => .pure ⟨rfl, .refl m⟩
    | cons branch branches ih =>
      intro m hm hbranches
      have hfirst : Succeeds (do return BranchLookahead.mk branch (← g.lookBranch depth id branch)) m
          fun entry m' => entry = ⟨branch, g.branchLookahead id depth branch⟩ ∧
            Memory.Asked g m m' := by
        apply (lookBranch_succeeds hg hm hb (hbranches branch (by simp)) hpos hle).bind
        rintro a m' ⟨rfl, hasked⟩
        exact .pure ⟨rfl, hasked⟩
      unfold lookBranches
      rw [List.mapM_cons]
      apply hfirst.bind
      rintro entry m' ⟨rfl, hasked⟩
      have hrest := ih m' (hasked.faithful hm hg) fun branch h => hbranches branch (by simp [h])
      apply hrest.bind
      rintro entries m'' ⟨rfl, hasked'⟩
      exact .pure ⟨rfl, hasked.trans hasked'⟩
  exact hall b.branches m hm fun _ hbranch => hbranch

end

variable (g)

/-- Whether a depth tells the branches of a block apart. -/
noncomputable def tellsApart (id : BlockId) (b : Block) (depth : Nat) : Bool :=
  pairwiseDisjoint ((g.branchesAt id b depth).map (·.lookahead))

/-- The first of several depths that tells the branches of a block apart, or else the largest
depth. -/
noncomputable def settledDepth (id : BlockId) (b : Block) (depths : List Nat) : Nat :=
  (depths.find? (g.tellsApart id b)).getD g.maxDepth

/-- The depth at which the decision at a block is made. -/
noncomputable def decisionDepth (id : BlockId) (b : Block) : Nat :=
  g.settledDepth id b (List.range' 1 (g.maxDepth - 1))

/-- The decision at a block, made at a depth. -/
noncomputable def decisionAt (id : BlockId) (b : Block) (depth : Nat) : Decision :=
  ⟨id, b.rule, b.kind, depth, g.tellsApart id b depth, g.branchesAt id b depth⟩

end Grammar

/-- What a check of a block records. -/
structure Findings where
  decisions : List Decision := []
  ambiguities : List Ambiguity := []
  diagnostics : Diagnostics := []

namespace Grammar

/-- The findings of a block that is a decision. -/
noncomputable def findingsAt (g : Grammar) (ucd : Unicode) (settings : Settings) (id : BlockId)
    (b : Block) : Findings :=
  let atMax := g.branchesAt id b g.maxDepth
  let found := Comparison.ambiguities settings id b g.maxDepth atMax
  { decisions := [g.decisionAt id b (g.decisionDepth id b)]
    ambiguities := found
    diagnostics := Comparison.diagnostics g ucd settings id b atMax found }

/-- The findings of a block. -/
noncomputable def findings (g : Grammar) (ucd : Unicode) (settings : Settings) (id : BlockId) :
    Findings :=
  (g.block? id).elim {} fun b => if b.isDecision then g.findingsAt ucd settings id b else {}

end Grammar

/-- The checker once a block with some findings is checked. -/
def Checker.record (c : Checker) (id : BlockId) (found : Findings) (m : Memory) : Checker where
  memory := m
  checked := id :: c.checked
  decisions := c.decisions ++ found.decisions
  ambiguities := c.ambiguities ++ found.ambiguities
  diagnostics := c.diagnostics ++ found.diagnostics

variable {ucd : Unicode} {settings : Settings} {c : Checker}

theorem Comparison.block_of_mem_ambiguities {branches : List BranchLookahead} {a : Ambiguity}
    (ha : a ∈ Comparison.ambiguities settings id b depth branches) : a.block = id := by
  obtain ⟨pair, -, ha⟩ := List.mem_filterMap.1 ha
  simp only [ambiguity?, Option.ite_none_left_eq_some, Option.some.injEq] at ha
  rw [← ha.2]

namespace Grammar

theorem findings_of_single (hb : g.block? id = some b) (h : ¬ b.isDecision = true) :
    g.findings ucd settings id = {} := by
  rw [findings, hb, Option.elim_some, if_neg h]

theorem findings_of_isDecision (hb : g.block? id = some b) (h : b.isDecision = true) :
    g.findings ucd settings id = g.findingsAt ucd settings id b := by
  rw [findings, hb, Option.elim_some, if_pos h]

/-- Only the decisions among the blocks have findings. -/
theorem findings_cases (g : Grammar) (ucd : Unicode) (settings : Settings) (id : BlockId) :
    (g.block? id).any Block.isDecision = false ∧ g.findings ucd settings id = {} ∨
      ∃ b, g.block? id = some b ∧ b.isDecision = true ∧
        g.findings ucd settings id = g.findingsAt ucd settings id b := by
  cases hb : g.block? id with
  | none => exact Or.inl ⟨rfl, by simp [findings, hb]⟩
  | some b =>
    cases h : b.isDecision with
    | false => exact Or.inl ⟨h, findings_of_single hb (by simp [h])⟩
    | true => exact Or.inr ⟨b, rfl, h, findings_of_isDecision hb h⟩

theorem block_of_mem_ambiguities {a : Ambiguity}
    (ha : a ∈ (g.findings ucd settings id).ambiguities) :
    a.block = id := by
  rcases g.findings_cases ucd settings id with ⟨-, hnone⟩ | ⟨b, -, -, hsome⟩
  · rw [hnone] at ha
    cases ha
  · rw [hsome] at ha
    exact Comparison.block_of_mem_ambiguities ha

/-- The diagnostics of a block are warnings about it. -/
theorem warning_of_mem_diagnostics {d : Diagnostic}
    (hd : d ∈ (g.findings ucd settings id).diagnostics) :
    d.block = some id ∧ d.isError = false := by
  rcases g.findings_cases ucd settings id with ⟨-, hnone⟩ | ⟨b, -, -, hsome⟩
  · rw [hnone] at hd
    cases hd
  · rw [hsome] at hd
    rcases List.mem_append.1 hd with hd | hd
    · split at hd
      · obtain ⟨⟨branch, lookahead⟩, -, hd⟩ := List.mem_filterMap.1 hd
        cases branch with
        | exit => cases hd
        | alternative index =>
          obtain ⟨-, hd⟩ := Option.ite_none_right_eq_some.1 hd
          rw [← Option.some.inj hd]
          exact ⟨rfl, rfl⟩
      · cases hd
    · obtain ⟨a, ha, hd⟩ := List.mem_filterMap.1 hd
      obtain ⟨-, hd⟩ := Option.ite_none_left_eq_some.1 hd
      rw [← Option.some.inj hd, ← Comparison.block_of_mem_ambiguities ha]
      exact ⟨rfl, rfl⟩

theorem map_block_decisions (g : Grammar) (ucd : Unicode) (settings : Settings) (id : BlockId) :
    (g.findings ucd settings id).decisions.map (·.block) =
      if (g.block? id).any Block.isDecision then [id] else [] := by
  rcases g.findings_cases ucd settings id with ⟨hno, hnone⟩ | ⟨b, hb, hdecision, hsome⟩
  · rw [hnone, hno]
    rfl
  · have hyes : (g.block? id).any Block.isDecision = true := by rw [hb]; exact hdecision
    rw [hsome, if_pos hyes]
    rfl

theorem block_of_mem_decisions {decision : Decision}
    (hd : decision ∈ (g.findings ucd settings id).decisions) : decision.block = id := by
  have hmem := List.mem_map_of_mem (f := Decision.block) hd
  rw [map_block_decisions] at hmem
  split at hmem
  · exact List.mem_singleton.1 hmem
  · cases hmem

theorem checkBlock_of_none (hb : g.block? id = none) :
    g.checkBlock ucd settings id c = (.error (.unknownNode (.block id)), c) := by
  unfold checkBlock
  rw [hb]
  rfl

theorem checkBlock_of_mem (hb : g.block? id = some b) (hchecked : id ∈ c.checked) :
    g.checkBlock ucd settings id c = (.ok (), c) := by
  unfold checkBlock
  rw [hb]
  simp only [bind_eq]
  change (ite (id ∈ c.checked) _ _ : Check Unit) c = _
  rw [if_pos hchecked]
  rfl

section

variable (hg : g.Linked)
include hg

theorem separate_succeeds (hm : m.Faithful g) (hb : g.block? id = some b) {depths : List Nat}
    (hdepths : ∀ depth ∈ depths, 1 ≤ depth ∧ depth ≤ g.maxDepth) :
    Succeeds (g.separate id b (g.branchesAt id b g.maxDepth) depths) m fun decision m' =>
      decision = g.decisionAt id b (g.settledDepth id b depths) ∧ Memory.Asked g m m' := by
  induction depths generalizing m with
  | nil => exact .pure ⟨rfl, .refl m⟩
  | cons depth depths ih =>
    obtain ⟨hpos, hle⟩ := hdepths depth (by simp)
    rw [separate, settledDepth, List.find?_cons]
    apply (lookBranches_succeeds hg hm hb hpos hle).bind
    rintro entries m' ⟨rfl, hasked⟩
    split
    · rename_i hapart
      have htells : g.tellsApart id b depth = true := hapart
      rw [htells]
      refine .pure ⟨?_, hasked⟩
      rw [decisionAt, Option.getD_some, htells]
    · rename_i hapart
      have htells : g.tellsApart id b depth = false := Bool.eq_false_iff.2 hapart
      rw [htells]
      have hdeeper := ih (hasked.faithful hm hg) fun depth h => hdepths depth (by simp [h])
      exact hdeeper.mono fun decision m'' h => ⟨h.1, hasked.trans h.2⟩

theorem compareBranches_succeeds (ucd : Unicode) (settings : Settings) (hc : c.memory.Faithful g)
    (hb : g.block? id = some b) (h : b.isDecision = true) (hpos : 1 ≤ g.maxDepth) :
    Succeeds (g.compareBranches ucd settings id b) c fun _ c' => ∃ m, Memory.Asked g c.memory m ∧
      c' = { c.record id (g.findings ucd settings id) m with checked := c.checked } := by
  have hdepths : ∀ depth ∈ List.range' 1 (g.maxDepth - 1), 1 ≤ depth ∧ depth ≤ g.maxDepth := by
    intro depth hdepth
    rw [List.mem_range'_1] at hdepth
    omega
  have hmax := lookBranches_succeeds hg hc hb hpos (Nat.le_refl _)
  apply hmax.toCheck.bind
  rintro atMax c₁ ⟨m₁, ⟨rfl, hasked⟩, rfl⟩
  apply Succeeds.modify_bind
  have hdecision := separate_succeeds hg (hasked.faithful hc hg) hb hdepths
  apply hdecision.toCheck.bind
  rintro decision c₃ ⟨m₃, ⟨rfl, hasked₃⟩, rfl⟩
  refine .modify ⟨m₃, hasked.trans hasked₃, ?_⟩
  rw [findings_of_isDecision hb h]
  rfl

/-- A block that was not checked before adds its findings. -/
theorem checkBlock_of_not_mem (ucd : Unicode) (settings : Settings) (hc : c.memory.Faithful g)
    (hpos : 1 ≤ g.maxDepth) (hb : g.block? id = some b) (hchecked : id ∉ c.checked) :
    ∃ m, Memory.Asked g c.memory m ∧
      g.checkBlock ucd settings id c = (.ok (), c.record id (g.findings ucd settings id) m) := by
  have hcheck : Succeeds (g.checkBlock ucd settings id) c fun _ c' => ∃ m,
      Memory.Asked g c.memory m ∧ c' = c.record id (g.findings ucd settings id) m := by
    unfold checkBlock
    rw [hb]
    apply Succeeds.get_bind
    rw [if_neg hchecked]
    apply Succeeds.modify_bind
    split
    · rename_i hlen
      refine .pure ⟨c.memory, .refl _, ?_⟩
      have hsingle : ¬ b.isDecision = true := by
        rw [Block.isDecision_iff]
        exact Nat.not_le_of_lt hlen
      rw [findings_of_single hb hsingle]
      simp [Checker.record]
    · rename_i hlen
      have hdecision : b.isDecision = true := Block.isDecision_iff.2 (Nat.le_of_not_lt hlen)
      exact compareBranches_succeeds hg ucd settings hc hb hdecision hpos
  obtain ⟨⟨⟩, c', hrun, m, hasked, rfl⟩ := hcheck
  exact ⟨m, hasked, hrun⟩

end

end Grammar

end GrammarLookahead
