import GrammarLookahead.Grammar.Build

/-!
Where the nodes of a description stand in its graph. Nodes that are laid out one after the other
stand one after the other, so every phrase, alternative and rule of a description is found in the
graph from the position on at which it was laid out.
-/

namespace GrammarLookahead

namespace Layout

@[simp] theorem elements_append (a b : Nodes) : (a ++ b).elements = a.elements ++ b.elements := rfl

@[simp] theorem blocks_append (a b : Nodes) : (a ++ b).blocks = a.blocks ++ b.blocks := rfl

mutual

theorem length_phrase (names : Names) (site : Site) (next : ElementId) (start : Position) :
    ∀ p : Phrase, (phrase names site next start p).elements.length = p.elementCount ∧
      (phrase names site next start p).blocks.length = p.blockCount
  | .token _ | .notToken _ | .wildcard | .call _ => ⟨rfl, rfl⟩
  | .block repetition greedy alternatives => by
    have h := length_choice names ⟨site.rule, ⟨start.block⟩, ⟨start.element + 1⟩⟩ (start.skip 2 1)
      alternatives
    simp only [phrase, Phrase.elementCount, Phrase.blockCount, elements_append, blocks_append,
      List.length_append, h.1, h.2]
    simp

theorem length_sequence (names : Names) (site : Site) (start : Position) :
    ∀ ps : List Phrase,
      (sequence names site start ps).elements.length = Phrase.elementCountOfSequence ps ∧
        (sequence names site start ps).blocks.length = Phrase.blockCountOfSequence ps
  | [] => ⟨rfl, rfl⟩
  | p :: ps => by
    have hp := length_phrase names site
      (if ps.isEmpty then site.terminator else ⟨(start.afterPhrase p).element⟩) start p
    have hps := length_sequence names site (start.afterPhrase p) ps
    simp only [sequence, Phrase.elementCountOfSequence, Phrase.blockCountOfSequence,
      elements_append, blocks_append, List.length_append, hp.1, hp.2, hps.1, hps.2, and_self]

theorem length_choice (names : Names) (site : Site) (start : Position) :
    ∀ pss : List (List Phrase),
      (choice names site start pss).elements.length = Phrase.elementCountOfAlternatives pss ∧
        (choice names site start pss).blocks.length = Phrase.blockCountOfAlternatives pss
  | [] => ⟨rfl, rfl⟩
  | ps :: rest => by
    have hps := length_sequence names site start ps
    have hrest := length_choice names site (start.afterSequence ps) rest
    simp only [choice, Phrase.elementCountOfAlternatives, Phrase.blockCountOfAlternatives,
      elements_append, blocks_append, List.length_append, hps.1, hps.2, hrest.1, hrest.2,
      and_self]

end

theorem length_rule (names : Names) (id : RuleId) (start : Position) (r : RuleDescription) :
    (rule names id start r).elements.length =
        1 + Phrase.elementCountOfAlternatives r.alternatives ∧
      (rule names id start r).blocks.length = 1 + Phrase.blockCountOfAlternatives r.alternatives := by
  have h := length_choice names ⟨id, ⟨start.block⟩, ⟨start.element⟩⟩ (start.skip 1 1) r.alternatives
  simp only [rule, elements_append, blocks_append, List.length_append, h.1, h.2]
  simp

theorem length_rules_cons (names : Names) (id : Nat) (start : Position) (r : RuleDescription)
    (rs : List RuleDescription) :
    (rules names id start (r :: rs)).elements.length =
        1 + Phrase.elementCountOfAlternatives r.alternatives +
          (rules names (id + 1) (start.afterRule r) rs).elements.length ∧
      (rules names id start (r :: rs)).blocks.length =
        1 + Phrase.blockCountOfAlternatives r.alternatives +
          (rules names (id + 1) (start.afterRule r) rs).blocks.length := by
  obtain ⟨helements, hblocks⟩ := length_rule names ⟨id⟩ start r
  rw [← helements, ← hblocks, ← List.length_append, ← List.length_append]
  exact ⟨rfl, rfl⟩

/-- Nodes that stand in a grammar one after the other, from a position on. -/
structure Placed (g : Grammar) (start : Position) (nodes : Nodes) : Prop where
  element : ∀ {i : Nat} {e : Element},
    nodes.elements[i]? = some e → g.element? ⟨start.element + i⟩ = some e
  block : ∀ {i : Nat} {b : Block}, nodes.blocks[i]? = some b → g.block? ⟨start.block + i⟩ = some b

namespace Placed

variable {g : Grammar} {start : Position} {a b : Nodes}

theorem left (h : Placed g start (a ++ b)) : Placed g start a where
  element hi := h.element (by
    rw [elements_append, List.getElem?_append_left (List.getElem?_eq_some_iff.1 hi).1, hi])
  block hi := h.block (by
    rw [blocks_append, List.getElem?_append_left (List.getElem?_eq_some_iff.1 hi).1, hi])

theorem right (h : Placed g start (a ++ b)) {m n : Nat} (hm : a.elements.length = m)
    (hn : a.blocks.length = n) : Placed g (start.skip m n) b where
  element {i e} hi := by
    have := h.element (i := m + i) (e := e) (by
      rw [elements_append, List.getElem?_append_right (by omega), hm, Nat.add_sub_cancel_left, hi])
    rwa [← Nat.add_assoc] at this
  block {i e} hi := by
    have := h.block (i := n + i) (b := e) (by
      rw [blocks_append, List.getElem?_append_right (by omega), hn, Nat.add_sub_cancel_left, hi])
    rwa [← Nat.add_assoc] at this

/-- The first phrase of a sequence and the phrases behind it. -/
theorem of_sequence_cons {names : Names} {site : Site} {p : Phrase} {ps : List Phrase}
    (h : Placed g start (sequence names site start (p :: ps))) :
    Placed g start (phrase names site
        (if ps.isEmpty then site.terminator else ⟨(start.afterPhrase p).element⟩) start p) ∧
      Placed g (start.afterPhrase p) (sequence names site (start.afterPhrase p) ps) := by
  have hlen := length_phrase names site
    (if ps.isEmpty then site.terminator else ⟨(start.afterPhrase p).element⟩) start p
  exact ⟨h.left, h.right hlen.1 hlen.2⟩

/-- The first alternative of a choice and the alternatives behind it. -/
theorem of_choice_cons {names : Names} {site : Site} {ps : List Phrase}
    {rest : List (List Phrase)} (h : Placed g start (choice names site start (ps :: rest))) :
    Placed g start (sequence names site start ps) ∧
      Placed g (start.afterSequence ps) (choice names site (start.afterSequence ps) rest) := by
  have hlen := length_sequence names site start ps
  exact ⟨h.left, h.right hlen.1 hlen.2⟩

/-- The two elements and the block of a nested block, and its contents. -/
theorem of_block {names : Names} {site : Site} {next : ElementId} {repetition : Repetition}
    {greedy : Option Bool} {alternatives : List (List Phrase)}
    (h : Placed g start (phrase names site next start (.block repetition greedy alternatives))) :
    g.element? ⟨start.element⟩ =
        some ⟨ownerKind repetition ⟨start.block⟩, next, site.block⟩ ∧
      g.element? ⟨start.element + 1⟩ = some ⟨.blockEnd ⟨start.block⟩, none, ⟨start.block⟩⟩ ∧
      g.block? ⟨start.block⟩ = some ⟨.nested repetition,
        blockAlternatives ⟨start.element + 1⟩ (start.element + 2) alternatives,
        ⟨start.element + 1⟩, site.rule, some ⟨start.element⟩, greedy⟩ ∧
      Placed g (start.skip 2 1)
        (choice names ⟨site.rule, ⟨start.block⟩, ⟨start.element + 1⟩⟩ (start.skip 2 1)
          alternatives) :=
  ⟨h.left.element (i := 0) rfl, h.left.element (i := 1) rfl, h.left.block (i := 0) rfl,
    h.right rfl rfl⟩

/-- The terminator and the block of a rule, and its contents. -/
theorem of_rule {names : Names} {id : RuleId} {r : RuleDescription}
    (h : Placed g start (rule names id start r)) :
    g.element? ⟨start.element⟩ = some ⟨.ruleEnd id, none, ⟨start.block⟩⟩ ∧
      g.block? ⟨start.block⟩ = some ⟨.rule,
        blockAlternatives ⟨start.element⟩ (start.element + 1) r.alternatives, ⟨start.element⟩, id,
        none, r.greedy⟩ ∧
      Placed g (start.skip 1 1)
        (choice names ⟨id, ⟨start.block⟩, ⟨start.element⟩⟩ (start.skip 1 1) r.alternatives) :=
  ⟨h.left.element (i := 0) rfl, h.left.block (i := 0) rfl, h.right rfl rfl⟩

/-- The first rule and the rules behind it. -/
theorem of_rules_cons {names : Names} {id : Nat} {r : RuleDescription} {rs : List RuleDescription}
    (h : Placed g start (rules names id start (r :: rs))) :
    Placed g start (rule names ⟨id⟩ start r) ∧
      Placed g (start.afterRule r) (rules names (id + 1) (start.afterRule r) rs) := by
  have hlen := length_rule names ⟨id⟩ start r
  exact ⟨h.left, h.right hlen.1 hlen.2⟩

end Placed

theorem length_ruleTable (elements : List Element) :
    ∀ (rs : List RuleDescription) (id : Nat) (start : Position),
      (ruleTable elements id start rs).length = rs.length
  | [], _, _ => rfl
  | r :: rs, id, start => congrArg (· + 1) (length_ruleTable elements rs (id + 1) (start.afterRule r))

/-- Every rule of the table is the rule of the description with its number, and its nodes are in
place. -/
theorem placed_ruleTable {g : Grammar} {names : Names} {elements : List Element} :
    ∀ (rs : List RuleDescription) (id : Nat) (start : Position),
      Placed g start (rules names id start rs) → ∀ {i : Nat} {rule : Rule},
      (ruleTable elements id start rs)[i]? = some rule → ∃ r start', rs[i]? = some r ∧
        rule = ⟨r.name, ⟨start'.block⟩, ⟨start'.element⟩, callers elements ⟨id + i⟩, r.entry⟩ ∧
        Placed g start' (Layout.rule names ⟨id + i⟩ start' r)
  | [], _, _, _, i, _, hrule => by simp [ruleTable] at hrule
  | r :: rs, id, start, hp, i, rule, hrule => by
    obtain ⟨hfirst, hrest⟩ := hp.of_rules_cons
    cases i with
    | zero => exact ⟨r, start, rfl, (Option.some.inj hrule).symm, hfirst⟩
    | succ i =>
      obtain ⟨r', start', hr, heq, hplaced⟩ :=
        placed_ruleTable rs (id + 1) (start.afterRule r) hrest hrule
      rw [Nat.add_assoc, Nat.add_comm 1 i] at heq hplaced
      exact ⟨r', start', hr, heq, hplaced⟩

end Layout

namespace Description

variable (d : Description)

/-- The names that the layout of a description refers to. -/
def names : Layout.Names := ⟨d.vocabulary, d.rules.map (·.name)⟩

/-- The nodes of a description in the order of their numbers. -/
def nodes : Layout.Nodes := Layout.rules d.names 0 ⟨0, 0⟩ d.rules

theorem element?_layout (id : ElementId) : d.layout.element? id = d.nodes.elements[id.index]? := by
  simp [Grammar.element?, layout, nodes, names]

theorem block?_layout (id : BlockId) : d.layout.block? id = d.nodes.blocks[id.index]? := by
  simp [Grammar.block?, layout, nodes, names]

theorem rule?_layout (id : RuleId) :
    d.layout.rule? id = (Layout.ruleTable d.nodes.elements 0 ⟨0, 0⟩ d.rules)[id.index]? := by
  simp [Grammar.rule?, layout, nodes, names]

/-- Every node of a description stands in its graph. -/
theorem placed_nodes : Layout.Placed d.layout ⟨0, 0⟩ d.nodes where
  element {i e} h := by rw [element?_layout]; simpa using h
  block {i b} h := by rw [block?_layout]; simpa using h

/-- Every rule of the graph is the rule of the description with its number, and its nodes are in
place. -/
theorem placed_rule {id : RuleId} {rule : Rule} (h : d.layout.rule? id = some rule) :
    ∃ r start, d.rules[id.index]? = some r ∧
      rule = ⟨r.name, ⟨start.block⟩, ⟨start.element⟩, Layout.callers d.nodes.elements id, r.entry⟩ ∧
      Layout.Placed d.layout start (Layout.rule d.names id start r) := by
  rw [rule?_layout] at h
  obtain ⟨r, start, hr, heq, hplaced⟩ :=
    Layout.placed_ruleTable d.rules 0 ⟨0, 0⟩ d.placed_nodes h
  rw [Nat.zero_add] at heq hplaced
  exact ⟨r, start, hr, heq, hplaced⟩

end Description

end GrammarLookahead
