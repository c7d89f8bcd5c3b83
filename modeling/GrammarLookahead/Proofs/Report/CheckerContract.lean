import GrammarLookahead.Proofs.Report.BlockFindings

/-!
What a checker records. On a built grammar no check fails, a decision holds the least lookahead of
every branch at its depth, and an alternative is called unreachable only if nothing can be seen from
it at the largest depth. Main statement: `checkSession_extends`.
-/

namespace GrammarLookahead

variable {g : Grammar} {m : Memory} {id : BlockId} {b : Block} {depth : Nat}

namespace Grammar

/-- The lookahead of a branch as it is to be recorded. -/
def Foretells (g : Grammar) (depth : Nat) (id : BlockId) (entry : BranchLookahead) : Prop :=
  ∃ n, g.branchTarget? id entry.branch = some n ∧
    entry.lookahead = g.lookahead (.element n depth .everywhere)

/-- The branches of a block, each with its lookahead at a depth. -/
structure ForetellsAll (g : Grammar) (depth : Nat) (id : BlockId) (branches : List Branch)
    (entries : List BranchLookahead) : Prop where
  branches_eq : entries.map (·.branch) = branches
  lookahead : ∀ entry ∈ entries, g.Foretells depth id entry

theorem foretellsAll_branchesAt (hb : g.block? id = some b) (depth : Nat) :
    g.ForetellsAll depth id b.branches (g.branchesAt id b depth) where
  branches_eq := by
    rw [branchesAt, List.map_map]
    exact List.map_id _
  lookahead entry hentry := by
    obtain ⟨branch, hbranch, rfl⟩ := List.mem_map.1 hentry
    obtain ⟨n, hn⟩ := branchTarget?_of_mem hb hbranch
    exact ⟨n, hn, branchLookahead_of_target hn⟩

/-- A decision as it is to be recorded: the branches of its block at a depth in range, and whether
they are told apart there. -/
structure Settles (g : Grammar) (decision : Decision) : Prop where
  block : ∃ b, g.block? decision.block = some b ∧ 2 ≤ b.branches.length ∧
    g.ForetellsAll decision.depth decision.block b.branches decision.branches
  pos : 1 ≤ decision.depth
  le : decision.depth ≤ g.maxDepth
  deterministic : decision.deterministic = pairwiseDisjoint (decision.branches.map (·.lookahead))

theorem decisionDepth_mem (hpos : 1 ≤ g.maxDepth) (id : BlockId) (b : Block) :
    1 ≤ g.decisionDepth id b ∧ g.decisionDepth id b ≤ g.maxDepth := by
  unfold decisionDepth settledDepth
  cases hfind : (List.range' 1 (g.maxDepth - 1)).find? (g.tellsApart id b) with
  | none => exact ⟨hpos, Nat.le_refl _⟩
  | some depth =>
    have hmem := List.mem_of_find?_eq_some hfind
    rw [List.mem_range'_1] at hmem
    rw [Option.getD_some]
    omega

/-- The decisions among the findings of a block are as they are to be recorded. -/
theorem settles_of_mem_findings {ucd : Unicode} {settings : Settings} (hpos : 1 ≤ g.maxDepth)
    {decision : Decision}
    (hd : decision ∈ (g.findings ucd settings id).decisions) : g.Settles decision := by
  rcases g.findings_cases ucd settings id with ⟨-, hnone⟩ | ⟨b, hb, hdecision, hsome⟩
  · rw [hnone] at hd
    cases hd
  · rw [hsome] at hd
    obtain rfl := List.mem_singleton.1 hd
    obtain ⟨hpos', hle⟩ := decisionDepth_mem hpos id b
    exact ⟨⟨b, hb, Block.isDecision_iff.1 hdecision, foretellsAll_branchesAt hb _⟩, hpos', hle, rfl⟩

end Grammar

/-- Nothing can be seen from an alternative, however far one looks ahead. -/
def Grammar.Unreached (g : Grammar) (id : BlockId) (index : Nat) : Prop :=
  ∃ n, g.branchTarget? id (.alternative index) = some n ∧
    (g.lookahead (.element n g.maxDepth .everywhere)).isEmpty = true

/-- A diagnostic of a check: it reports no left recursion, and it calls an alternative unreachable
only if it is. -/
structure Diagnostic.Justified (g : Grammar) (d : Diagnostic) : Prop where
  code : d.code ≠ some "E0001"
  unreachable : d.code = some "W0003" → ∃ id index, g.Unreached id index ∧
    d = .unreachableAlternative (g.ruleNameOf id) id (g.describeBlock id) index

/-- A checker that has asked further questions and recorded further findings. -/
structure Checker.Extends (g : Grammar) (c c' : Checker) : Prop where
  memory : Memory.Asked g c.memory c'.memory
  decisions : ∀ d ∈ c'.decisions, d ∈ c.decisions ∨ g.Settles d
  diagnostics : ∀ d ∈ c'.diagnostics, d ∈ c.diagnostics ∨ d.Justified g

namespace Checker.Extends

variable {c₁ c₂ c₃ : Checker}

theorem refl (c : Checker) : Extends g c c := ⟨.refl _, fun _ => Or.inl, fun _ => Or.inl⟩

theorem trans (h : Extends g c₁ c₂) (k : Extends g c₂ c₃) : Extends g c₁ c₃ where
  memory := h.memory.trans k.memory
  decisions d hd := (k.decisions d hd).elim (h.decisions d) Or.inr
  diagnostics d hd := (k.diagnostics d hd).elim (h.diagnostics d) Or.inr

theorem of_asked {c : Checker} {m : Memory} (h : Memory.Asked g c.memory m) :
    Extends g c { c with memory := m } :=
  ⟨h, fun _ => Or.inl, fun _ => Or.inl⟩

end Checker.Extends

theorem Comparison.justified_diagnostics {ucd : Unicode} {settings : Settings}
    (hb : g.block? id = some b)
    {atMax : List BranchLookahead} (hmax : g.ForetellsAll g.maxDepth id b.branches atMax)
    {found : List Ambiguity} :
    ∀ d ∈ Comparison.diagnostics g ucd settings id b atMax found, d.Justified g := by
  intro d hd
  rw [diagnostics, List.mem_append] at hd
  rcases hd with hd | hd
  · split at hd
    · obtain ⟨⟨branch, lookahead⟩, hentry, hd⟩ := List.mem_filterMap.1 hd
      obtain ⟨n, hn, hlook⟩ := hmax.lookahead _ hentry
      simp only at hn hlook hd
      cases branch with
      | exit => simp at hd
      | alternative index =>
        simp only [Option.ite_none_right_eq_some, Option.some.injEq] at hd
        obtain ⟨hempty, rfl⟩ := hd
        refine ⟨by simp [Diagnostic.unreachableAlternative], fun _ => ?_⟩
        refine ⟨id, index, ⟨n, hn, hlook ▸ hempty⟩, ?_⟩
        unfold Grammar.ruleNameOf
        rw [hb, Option.elim_some]
    · simp at hd
  · obtain ⟨a, -, hd⟩ := List.mem_filterMap.1 hd
    rw [warning?] at hd
    split at hd
    · simp at hd
    · obtain rfl := Option.some.inj hd
      have hcode : ∀ code : String, code ≠ "W0001" → code ≠ "W0002" →
          (Diagnostic.ambiguity (g.ruleNameOf a.block) a.block (g.describeBlock a.block)
            a.first.display a.second.display (a.overlap.display ucd g.vocabulary)
            a.involvesExit).code ≠ some code := by
        intro code hfirst hsecond
        simp only [Diagnostic.ambiguity]
        split
        · simpa using Ne.symm hsecond
        · simpa using Ne.symm hfirst
      exact ⟨hcode _ (by decide) (by decide), fun h => absurd h (hcode _ (by decide) (by decide))⟩

namespace Grammar

variable (hg : g.Linked) {ucd : Unicode} {settings : Settings} {c : Checker}
include hg

omit hg in
/-- The diagnostics among the findings of a block are justified. -/
theorem justified_of_mem_findings {d : Diagnostic}
    (hd : d ∈ (g.findings ucd settings id).diagnostics) : d.Justified g := by
  rcases g.findings_cases ucd settings id with ⟨-, hnone⟩ | ⟨b, hb, -, hsome⟩
  · rw [hnone] at hd
    cases hd
  · rw [hsome] at hd
    exact Comparison.justified_diagnostics hb (foretellsAll_branchesAt hb _) d hd

theorem checkBlock_extends (hc : c.memory.Faithful g) (hpos : 1 ≤ g.maxDepth) :
    c.Extends g (g.checkBlock ucd settings id c).2 := by
  cases hb : g.block? id with
  | none =>
    rw [checkBlock_of_none hb]
    exact .refl c
  | some b =>
    by_cases hchecked : id ∈ c.checked
    · rw [checkBlock_of_mem hb hchecked]
      exact .refl c
    · obtain ⟨m, hasked, hrun⟩ := checkBlock_of_not_mem hg ucd settings hc hpos hb hchecked
      rw [hrun]
      refine ⟨hasked, fun d hd => ?_, fun d hd => ?_⟩
      · exact (List.mem_append.1 hd).imp_right (settles_of_mem_findings hpos)
      · exact (List.mem_append.1 hd).imp_right justified_of_mem_findings

omit hg in
theorem lookRule_extends (depth : Nat) (name : String) :
    c.Extends g ((g.lookRule depth name).toCheck c).2 :=
  .of_asked (.ask c.memory (.rule depth name))

/-- Steps one after the other extend a checker if each step does. -/
theorem foldl_extends {ι : Type} {step : Checker → ι → Checker} (items : List ι)
    (h : ∀ item ∈ items, ∀ c : Checker, c.memory.Faithful g → c.Extends g (step c item))
    (hc : c.memory.Faithful g) :
    c.Extends g (items.foldl step c) ∧ ∀ item ∈ items, ∃ c₁, c.Extends g c₁ ∧
      (step c₁ item).Extends g (items.foldl step c) := by
  induction items generalizing c with
  | nil => exact ⟨.refl c, by simp⟩
  | cons item items ih =>
    have hfirst := h item (by simp) c hc
    obtain ⟨hrest, hitems⟩ := ih (fun item hitem => h item (by simp [hitem]))
      (hfirst.memory.faithful hc hg)
    refine ⟨hfirst.trans hrest, List.forall_mem_cons.2 ⟨⟨c, .refl c, hrest⟩, ?_⟩⟩
    intro item' hitem'
    obtain ⟨c₁, hbefore, hafter⟩ := hitems item' hitem'
    exact ⟨c₁, hfirst.trans hbefore, hafter⟩

omit hg in
/-- Attempts one after the other never fail. -/
theorem forM_attempt {ι α : Type} (check : ι → Check α) (items : List ι) (c : Checker) :
    (items.forM fun item => (check item).attempt) c =
      (.ok (), items.foldl (fun c item => (check item c).2) c) := by
  induction items generalizing c with
  | nil => rfl
  | cons item items ih =>
    unfold List.forM
    rw [bind_eq]
    exact ih (check item c).2

omit hg in
/-- A check of the whole grammar asks for every rule and then checks every decision. -/
theorem checkAll_eq (ucd : Unicode) (settings : Settings) (c : Checker) :
    g.checkAll ucd settings c = (.ok (),
      g.decisions.foldl (fun c id => (g.checkBlock ucd settings id c).2)
        (g.rules.toList.foldl (fun c rule => ((g.lookRule g.maxDepth rule.name).toCheck c).2)
          c)) := by
  unfold checkAll
  rw [bind_eq, forM_attempt]
  exact forM_attempt _ _ _

/-- A check of the whole grammar asks questions and records what it is to record; it asks for every
rule. -/
theorem checkAll_contract (ucd : Unicode) (settings : Settings) (hc : c.memory.Faithful g)
    (hpos : 1 ≤ g.maxDepth) :
    c.Extends g (g.checkAll ucd settings c).2 ∧
      ∀ rule ∈ g.rules.toList, ∃ c₁, c.Extends g c₁ ∧
        ((g.lookRule g.maxDepth rule.name).toCheck c₁).2.Extends g
          (g.checkAll ucd settings c).2 := by
  rw [checkAll_eq]
  obtain ⟨hrules, hasked⟩ := foldl_extends hg g.rules.toList
    (fun rule _ c _ => lookRule_extends g.maxDepth rule.name) hc
  obtain ⟨hdecisions, -⟩ := foldl_extends hg g.decisions
    (fun id _ c hc => checkBlock_extends hg hc hpos) (hrules.memory.faithful hc hg)
  refine ⟨hrules.trans hdecisions, fun rule hrule => ?_⟩
  obtain ⟨c₁, hbefore, hafter⟩ := hasked rule hrule
  exact ⟨c₁, hbefore, hafter.trans hdecisions⟩

theorem checkAll_extends (ucd : Unicode) (settings : Settings) (hc : c.memory.Faithful g)
    (hpos : 1 ≤ g.maxDepth) :
    c.Extends g (g.checkAll ucd settings c).2 :=
  (checkAll_contract hg ucd settings hc hpos).1

theorem checkAll_asks (ucd : Unicode) (settings : Settings) (hc : c.memory.Faithful g)
    (hpos : 1 ≤ g.maxDepth) {rule : Rule} (hrule : rule ∈ g.rules.toList) :
    ∃ m, Memory.Asked g c.memory m ∧
      Memory.Asked g ((Question.rule g.maxDepth rule.name).ask g m).2
        (g.checkAll ucd settings c).2.memory := by
  obtain ⟨c₁, hbefore, hafter⟩ := (checkAll_contract hg ucd settings hc hpos).2 rule hrule
  exact ⟨c₁.memory, hbefore.memory, hafter.memory⟩

end Grammar

/-- What a checker may be told to check. -/
inductive CheckRequest where
  | all
  | block (id : BlockId)
  deriving DecidableEq, Repr

/-- The checker after a request; a refusal is passed over. -/
def CheckRequest.run (g : Grammar) (ucd : Unicode) (settings : Settings) (c : Checker) :
    CheckRequest → Checker
  | all => (g.checkAll ucd settings c).2
  | block id => (g.checkBlock ucd settings id c).2

/-- The checker after a number of requests, begun with what an analysis remembers. -/
def checkSession (g : Grammar) (ucd : Unicode) (settings : Settings) (m : Memory)
    (requests : List CheckRequest) : Checker :=
  requests.foldl (CheckRequest.run g ucd settings) { memory := m }

theorem checkSession_extends (hg : g.Linked) (hpos : 1 ≤ g.maxDepth) (hm : m.Faithful g)
    (ucd : Unicode) (settings : Settings) (requests : List CheckRequest) :
    Checker.Extends g { memory := m } (checkSession g ucd settings m requests) := by
  refine (Grammar.foldl_extends hg requests (fun request _ c hc => ?_) hm).1
  cases request with
  | all => exact Grammar.checkAll_extends hg ucd settings hc hpos
  | block id => exact Grammar.checkBlock_extends hg hc hpos

end GrammarLookahead
