import Mathlib.Data.List.Perm.Subperm
import GrammarLookahead.Proofs.Grammar.Alternatives

/-!
What the text of a description lists: its calls and its nested blocks, each with its place. The graph
lists the same by number, and following any of its alternatives ends at the terminator of the block,
whether or not the description is sound. Main statements: `Description.calls_layout`,
`Description.nestedBlocks_layout` and `Description.walk_eq_none`.
-/

namespace GrammarLookahead

/-- A call of a rule in the text of a rule. -/
structure Call where
  callee : String
  caller : String
  deriving DecidableEq, Repr

/-- A nested block: the rule that it lies in, the number of the alternative of the enclosing block
that contains it, and how many alternatives it has itself. -/
structure NestedBlock where
  rule : String
  alternative : Nat
  branches : Nat
  deriving DecidableEq, Repr

namespace Phrase

mutual

/-- The calls of a phrase in the order of the text. -/
def calls (caller : String) : Phrase → List Call
  | .token _ | .notToken _ | .wildcard => []
  | .call callee => [⟨callee, caller⟩]
  | .block _ _ alternatives => callsOfAlternatives caller alternatives

def callsOfSequence (caller : String) : List Phrase → List Call
  | [] => []
  | p :: ps => p.calls caller ++ callsOfSequence caller ps

def callsOfAlternatives (caller : String) : List (List Phrase) → List Call
  | [] => []
  | ps :: rest => callsOfSequence caller ps ++ callsOfAlternatives caller rest

end

mutual

/-- The nested blocks of a phrase of an alternative, each before those inside it. -/
def nestedBlocks (rule : String) (alternative : Nat) : Phrase → List NestedBlock
  | .token _ | .notToken _ | .wildcard | .call _ => []
  | .block _ _ alternatives =>
    ⟨rule, alternative, alternatives.length⟩ :: nestedBlocksOfAlternatives rule 0 alternatives

def nestedBlocksOfSequence (rule : String) (alternative : Nat) : List Phrase → List NestedBlock
  | [] => []
  | p :: ps => p.nestedBlocks rule alternative ++ nestedBlocksOfSequence rule alternative ps

/-- The nested blocks of alternatives, the first of which has a number. -/
def nestedBlocksOfAlternatives (rule : String) (alternative : Nat) :
    List (List Phrase) → List NestedBlock
  | [] => []
  | ps :: rest =>
    nestedBlocksOfSequence rule alternative ps ++
      nestedBlocksOfAlternatives rule (alternative + 1) rest

end

end Phrase

namespace Description

/-- The calls of a description in the order of its text. -/
def calls (d : Description) : List Call :=
  d.rules.flatMap fun r => Phrase.callsOfAlternatives r.name r.alternatives

/-- The nested blocks of a description in the order of its text. -/
def nestedBlocks (d : Description) : List NestedBlock :=
  d.rules.flatMap fun r => Phrase.nestedBlocksOfAlternatives r.name 0 r.alternatives

end Description

namespace Grammar

variable (g : Grammar)

/-- The call that an element stands for. -/
def call? (e : Element) : Option Call :=
  match e.kind with
  | .reference name _ => some ⟨name, g.ruleNameOf e.block⟩
  | _ => none

/-- The calls of a graph in the order of their elements. -/
def calls : List Call := g.elements.toList.filterMap g.call?

/-- A block that lies inside an alternative. -/
def nestedBlock? (id : BlockId) (b : Block) : Option NestedBlock :=
  if b.kind = .rule then none
  else
    let (parent, alternative) := g.ownerPosition id b
    some ⟨g.ruleNameOf parent, alternative, b.alternatives.length⟩

/-- The nested blocks among blocks that are numbered from a number on. -/
def nestedBlocksFrom (start : Nat) (blocks : List Block) : List NestedBlock :=
  (blocks.zipIdx start).filterMap fun (b, i) => g.nestedBlock? ⟨i⟩ b

/-- The nested blocks of a graph in the order of their numbers. -/
def nestedBlocks : List NestedBlock := g.nestedBlocksFrom 0 g.blocks.toList

variable {g}

theorem nestedBlocksFrom_append {start : Nat} (a b : List Block) :
    g.nestedBlocksFrom start (a ++ b) =
      g.nestedBlocksFrom start a ++ g.nestedBlocksFrom (start + a.length) b := by
  rw [nestedBlocksFrom, List.zipIdx_append, List.filterMap_append]
  rfl

theorem nestedBlocksFrom_cons {start : Nat} (b : Block) (blocks : List Block) :
    g.nestedBlocksFrom start (b :: blocks) =
      (g.nestedBlock? ⟨start⟩ b).toList ++ g.nestedBlocksFrom (start + 1) blocks := by
  cases h : g.nestedBlock? ⟨start⟩ b <;> simp [nestedBlocksFrom, h]

end Grammar

namespace Description

open Layout

variable {d : Description} {site : Site} {start : Position} {part : Part} {next : ElementId}
  {p : Phrase} {ps : List Phrase} {pss : List (List Phrase)}

/-- The block around a part belongs to the rule that the part occurs in. -/
theorem Occurs.ruleNameOf (h : d.Occurs site start part) :
    d.layout.ruleNameOf site.block = d.layout.ruleName site.rule := by
  obtain ⟨b, hb, hrule, -⟩ := h.block
  rw [Grammar.ruleNameOf, hb, Option.elim_some, hrule]

mutual

theorem calls_phrase (site : Site) (start : Position) (next : ElementId) :
    ∀ p : Phrase, d.Occurs site start (.phrase next p) →
      (Layout.phrase d.names site next start p).elements.filterMap d.layout.call? =
        p.calls (d.layout.ruleName site.rule)
  | .token _, _ | .notToken _, _ | .wildcard, _ => rfl
  | .call callee, h => congrArg (fun caller => [Call.mk callee caller]) h.ruleNameOf
  | .block repetition _ pss, h => by
    have hrest := calls_choice _ (start.skip 2 1) pss h.inner.choice
    rw [Layout.phrase, elements_append, List.filterMap_append, hrest]
    cases repetition <;> rfl

theorem calls_sequence (site : Site) (start : Position) :
    ∀ ps : List Phrase, d.Occurs site start (.sequence ps) →
      (Layout.sequence d.names site start ps).elements.filterMap d.layout.call? =
        Phrase.callsOfSequence (d.layout.ruleName site.rule) ps
  | [], _ => rfl
  | p :: ps, h => by
    have hphrase := calls_phrase site start _ p h.phrase
    have hrest := calls_sequence site (start.afterPhrase p) ps h.phrases
    rw [Layout.sequence, elements_append, List.filterMap_append, hphrase, hrest]
    rfl

theorem calls_choice (site : Site) (start : Position) :
    ∀ pss : List (List Phrase), d.Occurs site start (.choice pss) →
      (Layout.choice d.names site start pss).elements.filterMap d.layout.call? =
        Phrase.callsOfAlternatives (d.layout.ruleName site.rule) pss
  | [], _ => rfl
  | ps :: rest, h => by
    have hsequence := calls_sequence site start ps h.alternative
    have hrest := calls_choice site (start.afterSequence ps) rest h.alternatives
    rw [Layout.choice, elements_append, List.filterMap_append, hsequence, hrest]
    rfl

end

/-- The calls of a description are the references of its graph, in the order of their numbers. -/
theorem calls_layout (d : Description) : d.layout.calls = d.calls := by
  refine rules_induction (motive := fun id start rs =>
    (Layout.rules d.names id start rs).elements.filterMap d.layout.call? =
      rs.flatMap fun r => Phrase.callsOfAlternatives r.name r.alternatives)
    (fun _ _ => rfl) fun id start r rs hr hrule hplaced hrest => ?_
  have hcontents := Occurs.rule hr hrule hplaced
  have hname : d.layout.ruleName ⟨id⟩ = r.name := by rw [Grammar.ruleName, hrule, Option.elim_some]
  have hcalls := calls_choice _ (start.skip 1 1) r.alternatives hcontents.choice
  rw [hname] at hcalls
  rw [Layout.rules, elements_append, List.filterMap_append, hrest, Layout.rule, elements_append,
    List.filterMap_append, hcalls]
  rfl

theorem length_blockAlternatives (terminator : ElementId) (pss : List (List Phrase)) (start : Nat) :
    (blockAlternatives terminator start pss).length = pss.length := by
  induction pss generalizing start with
  | nil => rfl
  | cons ps rest ih => exact congrArg (· + 1) (ih _)

variable (d) in
/-- The alternative with a number of the block at a site lists an element. -/
def ListedAt (site : Site) (alternative : Nat) (id : ElementId) : Prop :=
  ∃ b a, d.layout.block? site.block = some b ∧ b.alternatives[alternative]? = some a ∧
    id ∈ a.elements

/-- The owner of a nested block is found in the alternative that lists it, and in no earlier one. -/
theorem Occurs.ownerPosition {repetition : Repetition} {greedy : Option Bool} {alternative : Nat}
    (h : d.Occurs site start (.phrase next (.block repetition greedy pss))) {b : Block}
    (hb : d.layout.block? ⟨start.block⟩ = some b)
    (hlisted : d.ListedAt site alternative ⟨start.element⟩) :
    d.layout.ownerPosition ⟨start.block⟩ b = (site.block, alternative) := by
  obtain ⟨outer, a, houter, ha, hmem⟩ := hlisted
  obtain ⟨hlt, rfl⟩ := List.getElem?_eq_some_iff.1 ha
  obtain rfl := Option.some.inj (hb.symm.trans h.placed.of_block.2.2.1)
  have hapart := (List.nodup_flatMap.1 (nodup_listedIn houter)).2
  have hfound : outer.alternatives.findIdx?
      (fun a => (⟨start.element⟩ : ElementId) ∈ a.elements) = some alternative := by
    refine List.findIdx?_eq_some_iff_getElem.2 ⟨hlt, by simpa using hmem, fun j hj => ?_⟩
    have hdisjoint := List.pairwise_iff_getElem.1 hapart j alternative (Nat.lt_trans hj hlt) hlt hj
    simpa using fun hmem' => hdisjoint hmem' hmem
  simp only [Grammar.ownerPosition, h.element, Option.elim_some, houter]
  exact Prod.ext rfl (congrArg (Option.getD · 0) hfound)

/-- The nested block of a phrase, as the graph has it. -/
theorem Occurs.nestedBlock?_eq {repetition : Repetition} {greedy : Option Bool} {alternative : Nat}
    (h : d.Occurs site start (.phrase next (.block repetition greedy pss))) {b : Block}
    (hb : d.layout.block? ⟨start.block⟩ = some b)
    (hlisted : d.ListedAt site alternative ⟨start.element⟩) :
    d.layout.nestedBlock? ⟨start.block⟩ b =
      some ⟨d.layout.ruleName site.rule, alternative, pss.length⟩ := by
  have hposition := h.ownerPosition hb hlisted
  obtain rfl := Option.some.inj (hb.symm.trans h.placed.of_block.2.2.1)
  rw [Grammar.nestedBlock?, if_neg BlockKind.noConfusion, hposition, ← h.ruleNameOf,
    length_blockAlternatives]

mutual

theorem nestedBlocks_phrase (site : Site) (start : Position) (next : ElementId)
    (alternative : Nat) : ∀ p : Phrase, d.Occurs site start (.phrase next p) →
      d.ListedAt site alternative ⟨start.element⟩ →
      d.layout.nestedBlocksFrom start.block (Layout.phrase d.names site next start p).blocks =
        p.nestedBlocks (d.layout.ruleName site.rule) alternative
  | .token _, _, _ | .notToken _, _, _ | .wildcard, _, _ | .call _, _, _ => rfl
  | .block _ _ pss, h, hlisted => by
    have hcontents := h.inner
    obtain ⟨b, hb, -, -, halternatives⟩ := hcontents.contents
    have hrest := nestedBlocks_choice _ (start.skip 2 1) 0 pss hcontents.choice
      ⟨b, hb, halternatives⟩
    have hself := h.nestedBlock?_eq h.placed.of_block.2.2.1 hlisted
    show d.layout.nestedBlocksFrom start.block (_ :: (Layout.choice d.names _ _ pss).blocks) = _
    rw [Grammar.nestedBlocksFrom_cons, hself]
    exact congrArg (_ :: ·) hrest

theorem nestedBlocks_sequence (site : Site) (start : Position) (alternative : Nat) :
    ∀ ps : List Phrase, d.Occurs site start (.sequence ps) →
      (∀ id ∈ sequenceElements start.element ps, d.ListedAt site alternative id) →
      d.layout.nestedBlocksFrom start.block (Layout.sequence d.names site start ps).blocks =
        Phrase.nestedBlocksOfSequence (d.layout.ruleName site.rule) alternative ps
  | [], _, _ => rfl
  | p :: ps, h, hlisted => by
    obtain ⟨hfirst, hothers⟩ := List.forall_mem_cons.1 hlisted
    have hphrase := nestedBlocks_phrase site start _ alternative p h.phrase hfirst
    have hrest := nestedBlocks_sequence site (start.afterPhrase p) alternative ps h.phrases hothers
    rw [Layout.sequence, blocks_append, Grammar.nestedBlocksFrom_append, hphrase,
      (length_phrase _ _ _ _ p).2]
    exact congrArg _ hrest

theorem nestedBlocks_choice (site : Site) (start : Position) (alternative : Nat) :
    ∀ pss : List (List Phrase), d.Occurs site start (.choice pss) →
      (∃ b, d.layout.block? site.block = some b ∧ b.alternatives.drop alternative =
        blockAlternatives site.terminator start.element pss) →
      d.layout.nestedBlocksFrom start.block (Layout.choice d.names site start pss).blocks =
        Phrase.nestedBlocksOfAlternatives (d.layout.ruleName site.rule) alternative pss
  | [], _, _ => rfl
  | ps :: rest, h, hlisted => by
    obtain ⟨b, hb, hdrop⟩ := hlisted
    have hat := congrArg (·[0]?) hdrop
    rw [List.getElem?_drop] at hat
    have hfirst : ∀ id ∈ sequenceElements start.element ps, d.ListedAt site alternative id :=
      fun id hid => ⟨b, _, hb, hat, hid⟩
    have hothers : b.alternatives.drop (alternative + 1) =
        blockAlternatives site.terminator (start.afterSequence ps).element rest := by
      rw [← List.tail_drop, hdrop]
      rfl
    have hsequence := nestedBlocks_sequence site start alternative ps h.alternative hfirst
    have hrest := nestedBlocks_choice site (start.afterSequence ps) (alternative + 1) rest
      h.alternatives ⟨b, hb, hothers⟩
    rw [Layout.choice, blocks_append, Grammar.nestedBlocksFrom_append, hsequence,
      (length_sequence _ _ _ ps).2]
    exact congrArg _ hrest

end

/-- The nested blocks of a description are those of its graph, in the order of their numbers. -/
theorem nestedBlocks_layout (d : Description) : d.layout.nestedBlocks = d.nestedBlocks := by
  refine rules_induction (motive := fun id start rs =>
    d.layout.nestedBlocksFrom start.block (Layout.rules d.names id start rs).blocks =
      rs.flatMap fun r => Phrase.nestedBlocksOfAlternatives r.name 0 r.alternatives)
    (fun _ _ => rfl) fun id start r rs hr hrule hplaced hrest => ?_
  have hcontents := Occurs.rule hr hrule hplaced
  obtain ⟨b, hb, -, -, halternatives⟩ := hcontents.contents
  have hname : d.layout.ruleName ⟨id⟩ = r.name := by rw [Grammar.ruleName, hrule, Option.elim_some]
  have hblocks := nestedBlocks_choice _ (start.skip 1 1) 0 r.alternatives hcontents.choice
    ⟨b, hb, halternatives⟩
  rw [hname] at hblocks
  rw [Layout.rules, blocks_append, Grammar.nestedBlocksFrom_append, (length_rule _ _ _ r).2]
  refine congrArg₂ (· ++ ·) ?_ hrest
  rw [Layout.rule, blocks_append, Grammar.nestedBlocksFrom_append]
  exact hblocks

/-- A sequence leads to the terminator of its block within as many steps as it has phrases. -/
theorem Occurs.walk_sequence (h : d.Occurs site start (.sequence ps)) {budget : Nat}
    (hbudget : ps.length ≤ budget) :
    d.layout.walk site.block site.terminator budget
      ((sequenceElements start.element ps).headD site.terminator) = none := by
  induction ps generalizing start budget with
  | nil => rw [sequenceElements, List.headD_nil, Grammar.walk, if_pos rfl]
  | cons p ps ih =>
    obtain ⟨budget, rfl⟩ : ∃ n, budget = n + 1 := Nat.exists_eq_add_one.2 (by
      rw [List.length_cons] at hbudget
      omega)
    obtain ⟨kind, hkind, hend⟩ := h.terminator
    have helement := h.phrase.element
    have hne : (⟨start.element⟩ : ElementId) ≠ site.terminator := fun heq => by
      rw [heq, hend, Option.some.injEq, Element.mk.injEq] at helement
      rw [helement.1, isTerminator_phraseKind] at hkind
      exact Bool.false_ne_true hkind
    have hrest := ih h.phrases (Nat.le_of_succ_le_succ hbudget)
    rw [headD_sequenceElements] at hrest
    rw [sequenceElements, List.headD_cons, Grammar.walk, if_neg hne, helement]
    simp only [isTerminator_phraseKind, ne_eq, not_true_eq_false, Bool.false_eq_true, or_self,
      if_false]
    exact hrest

theorem length_sequenceElements (n : Nat) (ps : List Phrase) :
    (sequenceElements n ps).length = ps.length := by
  induction ps generalizing n with
  | nil => rfl
  | cons p ps ih => exact congrArg (· + 1) (ih _)

/-- A sequence of a block has no more phrases than the graph has elements. -/
theorem Occurs.length_sequence_le (h : d.Occurs site start (.sequence ps)) :
    ps.length ≤ d.layout.elements.size := by
  have hnodup := nodup_of_ascending (sequenceElements_ascending ps start.element).1
  have hsub : sequenceElements start.element ps ⊆ d.layout.elementIds := fun id hid => by
    obtain ⟨start', next, p, hp, rfl⟩ := h.of_mem_sequence hid
    have hlt := (Array.getElem?_eq_some_iff.1 hp.element).1
    exact List.mem_map.2 ⟨_, List.mem_range.2 hlt, rfl⟩
  have hle := (hnodup.subperm hsub).length_le
  rwa [length_sequenceElements, Grammar.elementIds, List.length_map, List.length_range] at hle

/-- Following an alternative of a block ends at its terminator, within the budget that the elements
of the graph allow. -/
theorem walk_eq_none {id : BlockId} {b : Block} (hb : d.layout.block? id = some b) :
    ∀ a ∈ b.alternatives, d.layout.walk id b.terminator d.layout.elements.size a.first = none := by
  obtain ⟨site, start, pss, hp, rfl⟩ := d.occurs_block hb
  obtain ⟨b', hb', -, hterminator, halternatives⟩ := hp.contents
  obtain rfl := Option.some.inj (hb.symm.trans hb')
  have hchoice := hp.choice
  rw [halternatives, hterminator]
  clear hp hb hb' halternatives hterminator
  induction pss generalizing start with
  | nil => exact fun a ha => absurd ha List.not_mem_nil
  | cons ps rest ih =>
    intro a ha
    rcases List.mem_cons.1 ha with rfl | ha
    · exact hchoice.alternative.walk_sequence hchoice.alternative.length_sequence_le
    · exact ih _ hchoice.alternatives a ha

end Description

end GrammarLookahead
