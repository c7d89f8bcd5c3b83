import Std.Data.String.ToNat
import GrammarLookahead.Proofs.LookaheadSet.Overlap
import GrammarLookahead.Proofs.Parsing.Foresight
import GrammarLookahead.Proofs.Report.DecisionDepth

/-!
No viable parse is missed. Whenever a derivation takes a branch, the lookahead of this branch holds
the upcoming tokens; a deterministic decision therefore leads to the branch that is taken, and an
alternative that is reported as unreachable is never taken. Main statement:
`Description.branch_predicted`.
-/

namespace GrammarLookahead

namespace Grammar

variable {g : Grammar} {s t : Stance} {id : BlockId} {branch : Branch}

/-- A derivation that takes a branch goes on at the element that the branch begins at. -/
theorem Step.target (h : g.Step s (.take id branch) t) :
    ∃ n, g.branchTarget? id branch = some n ∧ t.node = .element n := by
  cases h with
  | @alternative _ blk index a _ hb ha => exact ⟨a.first, by simp [branchTarget?, hb, ha], rfl⟩
  | @skip _ blk _ hb _ => exact ⟨g.exitTarget blk, by simp [branchTarget?, hb], rfl⟩
  | @leave _ _ _ blk _ _ _ hb _ => exact ⟨g.exitTarget blk, by simp [branchTarget?, hb], rfl⟩

/-- A branch that a derivation takes is one that a parser has to choose from, as soon as the block
has branches at all. -/
theorem Step.mem_branches (h : g.Step s (.take id branch) t) {b : Block}
    (hb : g.block? id = some b) (hne : b.branches ≠ []) : branch ∈ b.branches := by
  have hexit : b.kind.hasExitBranch = true → Branch.exit ∈ b.branches := by
    intro hkind
    have halternatives : b.alternatives.isEmpty = false := by
      rw [Bool.eq_false_iff]
      intro hempty
      rw [List.isEmpty_iff] at hempty
      exact hne (by simp [Block.branches, hempty])
    simp [Block.branches, hkind, halternatives]
  have hkinds : ∀ kind : BlockKind, kind.canSkip = true ∨ kind.isLoop = true →
      kind.hasExitBranch = true := by
    rintro (_ | _ | _ | _ | _) <;> decide
  cases h with
  | @alternative _ blk index a _ hb' ha =>
    obtain rfl : b = blk := Option.some.inj (hb.symm.trans hb')
    have hlt : index < b.alternatives.length := (List.getElem?_eq_some_iff.1 ha).1
    unfold Block.branches
    rw [List.mem_append]
    exact Or.inl (List.mem_map_of_mem (List.mem_range.2 hlt))
  | @skip _ blk _ hb' hskip =>
    obtain rfl : b = blk := Option.some.inj (hb.symm.trans hb')
    exact hexit (hkinds _ (Or.inl hskip))
  | @leave _ _ _ blk _ _ _ hb' hloop =>
    obtain rfl : b = blk := Option.some.inj (hb.symm.trans hb')
    exact hexit (hkinds _ (Or.inr hloop))

variable {r : Rule} {target : RuleId} {before after : List Move}

/-- The tokens that a derivation reads behind a choice can be seen from the branch it takes. -/
theorem Linked.shows_branch (hg : g.Linked) (hr : g.rule? target = some r)
    (hentry : r.entry = true ∨ r.callers.isEmpty = true)
    (h : g.Derives r (before ++ .take id branch :: after)) :
    ∃ s t n, g.Step s (.take id branch) t ∧ g.branchTarget? id branch = some n ∧
      g.Shows (some (.element n)) .everywhere (.complete (Move.emitted after ++ [.eof])) := by
  rw [← List.singleton_append, ← List.append_assoc] at h
  obtain ⟨t, hbefore, -, hshows⟩ := hg.shows_of_derives hr hentry h
  obtain ⟨s, -, hlast⟩ := hbefore.append_inv
  cases hlast with
  | cons hstep hnil =>
    cases hnil
    obtain ⟨n, hn, hnode⟩ := hstep.target
    exact ⟨s, t, n, hstep, hn, hnode ▸ hshows⟩

end Grammar

/-- Two branches of a deterministic decision have no complete lookahead in common. -/
theorem Grammar.Settles.apart {g : Grammar} {decision : Decision} (h : g.Settles decision)
    (hdet : decision.deterministic = true) {a b : BranchLookahead} (ha : a ∈ decision.branches)
    (hb : b ∈ decision.branches) (hne : a.branch ≠ b.branch) {s : TokenSeq}
    (hs : s ∈ a.lookahead.complete) : s ∉ b.lookahead.complete := by
  have hpairs : decision.branches.Pairwise fun a b =>
      ∀ s : TokenSeq, s ∈ a.lookahead.complete → s ∉ b.lookahead.complete := by
    have hdisjoint := pairwiseDisjoint_iff.1 (h.deterministic.symm.trans hdet)
    rw [List.pairwise_map] at hdisjoint
    exact hdisjoint.imp fun hab s hs hs' =>
      LookaheadSet.isDisjoint_iff.1 hab (.complete s) (Or.inl ⟨hs, hs'⟩)
  have hsymm : Std.Symm fun a b : BranchLookahead =>
      ∀ s : TokenSeq, s ∈ a.lookahead.complete → s ∉ b.lookahead.complete :=
    ⟨fun a b hab s hs hs' => hab s hs' hs⟩
  exact hpairs.forall ha hb (fun heq => hne (congrArg _ heq)) s hs

/-- The number of an alternative can be read off the warning that it is unreachable. -/
theorem Diagnostic.unreachableAlternative_inj {rule rule' location : String} {b : BlockId}
    {i j : Nat} (h : unreachableAlternative rule b location i =
      unreachableAlternative rule' b location j) : i = j := by
  have hmessage := congrArg Diagnostic.message h
  simp only [unreachableAlternative, String.append_left_inj, String.append_right_inj] at hmessage
  have hsucc : i + 1 = j + 1 := Nat.repr_injective hmessage
  exact Nat.succ.inj hsucc

/-- A decision that says of a branch that it sees some tokens and, if the decision is deterministic,
says so of no other branch. -/
def Decision.Predicts (decision : Decision) (branch : Branch) (w : TokenSeq) : Prop :=
  (∃ entry ∈ decision.branches, entry.branch = branch ∧ w ∈ entry.lookahead.complete) ∧
    (decision.deterministic = true → ∀ entry ∈ decision.branches, entry.branch ≠ branch →
      w ∉ entry.lookahead.complete)

section Reports

variable {g : Grammar} {n : ElementId} {branch : Branch} {w : TokenSeq}

theorem Grammar.Settles.predicts {decision : Decision} (h : g.Settles decision)
    (hbranch : ∀ b, g.block? decision.block = some b → b.branches ≠ [] → branch ∈ b.branches)
    (hn : g.branchTarget? decision.block branch = some n)
    (hw : w ∈ (g.lookahead (.element n decision.depth .everywhere)).complete) :
    decision.Predicts branch w := by
  obtain ⟨b, hb, hlen, hall⟩ := h.block
  have hne : b.branches ≠ [] := by
    intro hnil
    rw [hnil] at hlen
    exact absurd hlen (by decide)
  have hmem := hbranch b hb hne
  rw [← hall.branches_eq] at hmem
  obtain ⟨entry, hentry, rfl⟩ := List.mem_map.1 hmem
  obtain ⟨n', hn', hlook⟩ := hall.lookahead entry hentry
  obtain rfl : n = n' := Option.some.inj (hn.symm.trans hn')
  rw [← hlook] at hw
  refine ⟨⟨entry, hentry, rfl, hw⟩, fun hdet other hother hother' => ?_⟩
  exact h.apart hdet hentry hother (Ne.symm hother') hw

/-- An alternative from which something can be seen is not reported as unreachable. -/
theorem Checker.Extends.reachable {m : Memory} {c : Checker} (h : Extends g { memory := m } c)
    {id : BlockId} {index : Nat} (hn : g.branchTarget? id (.alternative index) = some n)
    (hw : w ∈ (g.lookahead (.element n g.maxDepth .everywhere)).complete) :
    Diagnostic.unreachableAlternative (g.ruleNameOf id) id (g.describeBlock id) index ∉
      (g.report c).diagnostics := by
  intro hdiag
  rcases List.mem_append.1 hdiag with hdiag | hdiag
  · have hjustified := (h.diagnostics _ hdiag).resolve_left (by simp)
    obtain ⟨id', index', ⟨n', hn', hempty⟩, heq⟩ := hjustified.unreachable rfl
    obtain rfl : id = id' := Option.some.inj (congrArg Diagnostic.block heq)
    obtain rfl := Diagnostic.unreachableAlternative_inj heq
    obtain rfl : n = n' := Option.some.inj (hn.symm.trans hn')
    exact LookaheadSet.not_mem_of_isEmpty hempty (LookaheadSet.mem_complete.2 hw)
  · obtain ⟨rule, -, heq⟩ := List.mem_map.1 hdiag
    have hcode := congrArg Diagnostic.code heq
    simp [Diagnostic.leftRecursion, Diagnostic.unreachableAlternative] at hcode

end Reports

/-- A viable parse is not missed. Wherever a derivation from a rule at which a parser may be started
takes a branch of a block, the lookahead of the branch holds the upcoming tokens at every depth,
whatever the analysis was asked before. In every report, the decision of the block says so of the
branch that is taken and, if it is deterministic, of no other one, and an alternative that is taken
is not called unreachable. -/
theorem Description.branch_predicted {ucd : Unicode} {d : Description} {g : Grammar}
    (h : d.build ucd = .ok g)
    {target : RuleId} {r : Rule} (hr : g.rule? target = some r)
    (hentry : r.entry = true ∨ r.callers.isEmpty = true) {before after : List Move} {id : BlockId}
    {branch : Branch} (hderives : g.Derives r (before ++ .take id branch :: after))
    (requests : List Request) :
    (∀ depth, 1 ≤ depth → depth ≤ g.maxDepth →
      ∃ a, (g.lookBranch depth id branch (session g requests)).1 = .ok a ∧
        TokenSeq.clip depth (Move.emitted after ++ [.eof]) ∈ a.complete) ∧
    ∀ (settings : Settings) (checks : List CheckRequest),
      let report := g.report (checkSession g ucd settings (session g requests) checks)
      (∀ decision ∈ report.decisions, decision.block = id →
        decision.Predicts branch
          (TokenSeq.clip decision.depth (Move.emitted after ++ [.eof]))) ∧
      ∀ index, branch = .alternative index →
        Diagnostic.unreachableAlternative (g.ruleNameOf id) id (g.describeBlock id) index ∉
          report.diagnostics := by
  have hg := d.linked_of_build h
  have hmax : 1 ≤ g.maxDepth := by
    obtain ⟨hfault, rfl⟩ := d.build_eq_ok.1 h
    exact (d.of_fault?_eq_none hfault).1.1
  obtain ⟨s, t, n, hstep, hn, hshows⟩ := hg.shows_branch hr hentry hderives
  have hseen : ∀ depth, 1 ≤ depth → TokenSeq.clip depth (Move.emitted after ++ [.eof]) ∈
      (g.lookahead (.element n depth .everywhere)).complete := by
    intro depth hpos
    exact (@Grammar.Linked.mem_lookahead g _ hg (.element n depth .everywhere) hpos).2
      (hshows depth hpos)
  have hm := session_faithful hg requests
  constructor
  · intro depth hpos hle
    rw [Grammar.lookBranch_eq_ask]
    exact ⟨_, hm.answer hg (Grammar.key?_ofBranch hn) hpos hle, hseen depth hpos⟩
  · intro settings checks
    have hextends := checkSession_extends hg hmax hm ucd settings checks
    constructor
    · rintro decision hdecision rfl
      have hsettles := (hextends.decisions decision hdecision).resolve_left (by simp)
      exact hsettles.predicts (fun b => hstep.mem_branches) hn (hseen _ hsettles.pos)
    · rintro index rfl
      exact hextends.reachable hn (hseen _ hmax)

/-- Words of `x`, each read by a rule of its own: `s : item* ; item : x`. -/
def itemWords : Description where
  maxDepth := 2
  declarations :=
    [.rule
        { name := "s", entry := true, alternatives := [[.block .zeroOrMore none [[.call "item"]]]] },
      .rule { name := "item", alternatives := [[.token "x"]] }]

theorem itemWords_build : itemWords.build .ascii = .ok itemWords.layout := rfl

/-- The moves that read one item, from the choice to enter the loop on. -/
def itemMoves : List Move :=
  [.call, .take ⟨2⟩ (.alternative 0), .read ⟨1⟩, .back, .take ⟨1⟩ .exit]

theorem itemWords_derives :
    itemWords.layout.Derives ⟨"s", ⟨0⟩, ⟨0⟩, [], true⟩
      ([.take ⟨0⟩ (.alternative 0), .enter] ++ .take ⟨1⟩ (.alternative 0) :: itemMoves) := by
  refine .cons (.alternative rfl rfl) (.cons (.enter rfl (Or.inr rfl)) ?_)
  refine .cons (.alternative rfl rfl) (.cons (.call rfl rfl rfl) ?_)
  refine .cons (.alternative rfl rfl) (.cons (.read rfl (List.mem_singleton_self _) rfl) ?_)
  exact .cons (.back rfl rfl rfl) (.cons (.leave rfl rfl rfl rfl) .nil)

namespace Grammar.Sees

variable {g : Grammar} {id : ElementId} {e : Element} {depth : Nat} {c : Context} {m : Member}

/-- What is seen from a token begins with the token. -/
theorem head?_of_terminal {t : TokenId} (h : g.Sees (some (.element id)) depth c m)
    (he : g.element? id = some e) (hk : e.kind = .terminal t) : m.tokens.head? = some t := by
  have htokens : g.tokensOf e.kind = [t] := by
    rw [hk]
    rfl
  cases h with
  | lastToken he' ht =>
    obtain rfl := Option.some.inj (he.symm.trans he')
    rw [htokens] at ht
    obtain rfl := List.mem_singleton.1 ht
    rfl
  | @token _ _ _ _ _ m he' ht =>
    obtain rfl := Option.some.inj (he.symm.trans he')
    rw [htokens] at ht
    obtain rfl := List.mem_singleton.1 ht
    cases m <;> rfl
  | _ => grind

/-- What is seen from a call begins with a token if everything that is seen from the rule does. -/
theorem head?_of_reference {t : TokenId} {name : String} {target : RuleId} {r : Rule}
    (h : g.Sees (some (.element id)) depth c m) (he : g.element? id = some e)
    (hk : e.kind = .reference name target) (hr : g.rule? target = some r)
    (hrule : ∀ n, g.Sees (some (.block r.block)) depth .callSite n → n.tokens.head? = some t) :
    m.tokens.head? = some t := by
  have htokens : g.tokensOf e.kind = [] := by
    rw [hk]
    rfl
  cases h with
  | called he' hk' hr' h' =>
    obtain rfl := Option.some.inj (he.symm.trans he')
    cases hk.symm.trans hk'
    obtain rfl := Option.some.inj (hr.symm.trans hr')
    exact hrule _ h'
  | @returned _ _ _ _ _ _ _ p n he' hk' hr' hp =>
    obtain rfl := Option.some.inj (he.symm.trans he')
    cases hk.symm.trans hk'
    obtain rfl := Option.some.inj (hr.symm.trans hr')
    have hhead : p.head? = some t := hrule _ hp
    obtain ⟨p, rfl⟩ := List.head?_eq_some_iff.1 hhead
    cases n <;> rfl
  | _ => grind

/-- Behind a rule that nothing calls there is only the end of input. -/
theorem eq_of_ruleEnd {target : RuleId} {r : Rule}
    (h : g.Sees (some (.element id)) depth .everywhere m) (he : g.element? id = some e)
    (hk : e.kind = .ruleEnd target) (hr : g.rule? target = some r) (hcallers : r.callers = []) :
    m = .complete [.eof] := by
  have htokens : g.tokensOf e.kind = [] := by
    rw [hk]
    rfl
  cases h with
  | endOfInput => rfl
  | followed he' hk' hr' hsite =>
    obtain rfl := Option.some.inj (he.symm.trans he')
    cases hk.symm.trans hk'
    obtain rfl := Option.some.inj (hr.symm.trans hr')
    rw [hcallers] at hsite
    cases hsite
  | _ => grind

end Grammar.Sees

/-- Upon `x` the loop is entered, and left at the end of input. -/
theorem itemWords_apart :
    itemWords.layout.Apart ⟨1⟩ itemWords.layout.blocks[1] itemWords.layout.maxDepth := by
  have hg := itemWords.linked_of_build itemWords_build
  have hitem : ∀ {m}, itemWords.layout.Sees (some (.element ⟨3⟩)) 2 .everywhere m →
      m.tokens.head? = some ⟨1⟩ := by
    intro m h
    refine h.head?_of_reference rfl rfl rfl fun n hn => ?_
    cases hn with
    | branch hb hentry hn =>
      obtain rfl := Option.some.inj hb
      obtain rfl := List.mem_singleton.1 hentry
      exact hn.head?_of_terminal rfl rfl
  have hdisjoint : (itemWords.layout.branchLookahead ⟨1⟩ 2 (.alternative 0)).isDisjoint
      (itemWords.layout.branchLookahead ⟨1⟩ 2 .exit) = true := by
    refine (hg.isDisjoint_branches (by decide)).2 fun s hs => ?_
    obtain ⟨hfirst, hexit⟩ := Grammar.mem_shared.1 hs
    have hsees := (hg.mem_branchLookahead (by decide) (n := ⟨3⟩) rfl).1
      (LookaheadSet.mem_complete.2 hfirst)
    have hsees' := (hg.mem_branchLookahead (by decide) (n := ⟨0⟩) rfl).1
      (LookaheadSet.mem_complete.2 hexit)
    have hhead := hitem hsees
    rw [hsees'.eq_of_ruleEnd rfl rfl rfl rfl] at hhead
    cases hhead
  exact List.pairwise_pair.2 hdisjoint

/-- Before the item, two tokens ahead, the loop is entered upon `x` and the end of input. The
decision of the loop is deterministic and says so too, and the loop is not called unreachable. -/
theorem itemWords_predicted :
    itemWords.build .ascii = .ok itemWords.layout ∧
      (∃ a, (itemWords.layout.lookBranch 2 ⟨1⟩ (.alternative 0) (session itemWords.layout [])).1 =
          .ok a ∧ [⟨1⟩, .eof] ∈ a.complete) ∧
      (∃ decision ∈ (itemWords.layout.analyze .ascii {}).decisions, decision.block = ⟨1⟩ ∧
        decision.deterministic = true ∧ decision.Predicts (.alternative 0)
          (TokenSeq.clip decision.depth [⟨1⟩, .eof])) ∧
      Diagnostic.unreachableAlternative "s" ⟨1⟩ (itemWords.layout.describeBlock ⟨1⟩) 0 ∉
        (itemWords.layout.analyze .ascii {}).diagnostics := by
  have hg := itemWords.linked_of_build itemWords_build
  obtain ⟨hlook, hreport⟩ := Description.branch_predicted itemWords_build
    (show itemWords.layout.rule? ⟨0⟩ = _ from rfl) (Or.inl rfl) itemWords_derives []
  obtain ⟨hpredicts, hreachable⟩ := hreport {} [.all]
  refine ⟨itemWords_build, hlook 2 (by decide) (by decide), ?_, hreachable 0 rfl⟩
  have hmem := (itemWords.mem_decisions_analyze itemWords_build {}).2
    ⟨⟨1⟩, itemWords.layout.blocks[1], rfl, by decide, rfl⟩
  have hsummarizes := hg.decisionAt_summarizes (by decide) ⟨1⟩ itemWords.layout.blocks[1]
  exact ⟨_, hmem, rfl, hsummarizes.deterministic.2 itemWords_apart, hpredicts _ hmem rfl⟩

end GrammarLookahead
