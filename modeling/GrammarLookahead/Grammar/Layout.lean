import GrammarLookahead.Grammar.Graph

/-!
The layout of a description as a graph. Nodes are numbered in the order of the text: a rule's
terminator and block come before its contents, and a nested block takes its owner, then its
terminator, then its contents. The element behind a phrase is known from the number of elements
that the phrase takes, so every node is written once, complete with its links. The numbers of rules,
blocks, elements and tokens are assumed to stay below 2 ^ 32, the range of a handle.
-/

namespace GrammarLookahead

namespace Phrase

mutual

/-- The number of elements that a phrase takes. -/
def elementCount : Phrase → Nat
  | .token _ | .notToken _ | .wildcard | .call _ => 1
  | .block _ _ alternatives => 2 + elementCountOfAlternatives alternatives

def elementCountOfSequence : List Phrase → Nat
  | [] => 0
  | p :: ps => p.elementCount + elementCountOfSequence ps

def elementCountOfAlternatives : List (List Phrase) → Nat
  | [] => 0
  | ps :: rest => elementCountOfSequence ps + elementCountOfAlternatives rest

end

mutual

/-- The number of blocks that a phrase takes. -/
def blockCount : Phrase → Nat
  | .token _ | .notToken _ | .wildcard | .call _ => 0
  | .block _ _ alternatives => 1 + blockCountOfAlternatives alternatives

def blockCountOfSequence : List Phrase → Nat
  | [] => 0
  | p :: ps => p.blockCount + blockCountOfSequence ps

def blockCountOfAlternatives : List (List Phrase) → Nat
  | [] => 0
  | ps :: rest => blockCountOfSequence ps + blockCountOfAlternatives rest

end

end Phrase

namespace Layout

/-- The numbers that the next element and the next block take. -/
structure Position where
  element : Nat
  block : Nat
  deriving DecidableEq, Repr

namespace Position

/-- The position behind a number of elements and blocks. -/
def skip (p : Position) (elements blocks : Nat) : Position :=
  ⟨p.element + elements, p.block + blocks⟩

def afterPhrase (p : Position) (phrase : Phrase) : Position :=
  p.skip phrase.elementCount phrase.blockCount

def afterSequence (p : Position) (phrases : List Phrase) : Position :=
  p.skip (Phrase.elementCountOfSequence phrases) (Phrase.blockCountOfSequence phrases)

def afterRule (p : Position) (r : RuleDescription) : Position :=
  p.skip (1 + Phrase.elementCountOfAlternatives r.alternatives)
    (1 + Phrase.blockCountOfAlternatives r.alternatives)

end Position

/-- Nodes with consecutive numbers. -/
structure Nodes where
  elements : List Element
  blocks : List Block

instance : Append Nodes := ⟨fun a b => ⟨a.elements ++ b.elements, a.blocks ++ b.blocks⟩⟩

/-- The names that phrases refer to. -/
structure Names where
  vocabulary : Vocabulary
  rules : List String

/-- The handle of the first rule of a name. A name without a rule gets the handle behind all
rules, which no rule has. -/
def Names.rule (names : Names) (name : String) : RuleId := ⟨names.rules.idxOf name⟩

/-- The block whose alternatives are being laid out. -/
structure Site where
  rule : RuleId
  block : BlockId
  terminator : ElementId

/-- The elements of a sequence whose first element has the given number. -/
def sequenceElements (start : Nat) : List Phrase → List ElementId
  | [] => []
  | p :: ps => ⟨start⟩ :: sequenceElements (start + p.elementCount) ps

/-- The alternatives of a block whose contents begin with the given number. -/
def blockAlternatives (terminator : ElementId) (start : Nat) : List (List Phrase) → List Alternative
  | [] => []
  | ps :: rest =>
    let elements := sequenceElements start ps
    ⟨elements, elements.headD terminator⟩ ::
      blockAlternatives terminator (start + Phrase.elementCountOfSequence ps) rest

/-- The element that stands for a block in the alternative around it. -/
def ownerKind (repetition : Repetition) (block : BlockId) : ElementKind :=
  if repetition.isLoop then .loop block else .nested block

mutual

/-- Lays out one phrase, followed by the element `next`. -/
def phrase (names : Names) (site : Site) (next : ElementId) (start : Position) : Phrase → Nodes
  | .token name => ⟨[⟨.terminal (names.vocabulary.idOf name), next, site.block⟩], []⟩
  | .notToken name => ⟨[⟨.notTerminal (names.vocabulary.idOf name), next, site.block⟩], []⟩
  | .wildcard => ⟨[⟨.wildcard, next, site.block⟩], []⟩
  | .call rule => ⟨[⟨.reference rule (names.rule rule), next, site.block⟩], []⟩
  | .block repetition greedy alternatives =>
    let inner : Site := ⟨site.rule, ⟨start.block⟩, ⟨start.element + 1⟩⟩
    ⟨[⟨ownerKind repetition inner.block, next, site.block⟩,
        ⟨.blockEnd inner.block, none, inner.block⟩],
      [⟨.nested repetition,
          blockAlternatives inner.terminator (start.element + 2) alternatives,
          inner.terminator, site.rule, some ⟨start.element⟩, greedy⟩]⟩ ++
      choice names inner (start.skip 2 1) alternatives

/-- Lays out the phrases of one alternative, the last followed by the terminator of the block. -/
def sequence (names : Names) (site : Site) (start : Position) : List Phrase → Nodes
  | [] => ⟨[], []⟩
  | p :: ps =>
    let rest := start.afterPhrase p
    phrase names site (if ps.isEmpty then site.terminator else ⟨rest.element⟩) start p ++
      sequence names site rest ps

/-- Lays out the alternatives of a block. -/
def choice (names : Names) (site : Site) (start : Position) : List (List Phrase) → Nodes
  | [] => ⟨[], []⟩
  | ps :: rest => sequence names site start ps ++ choice names site (start.afterSequence ps) rest

end

/-- Lays out one rule. -/
def rule (names : Names) (id : RuleId) (start : Position) (r : RuleDescription) : Nodes :=
  let site : Site := ⟨id, ⟨start.block⟩, ⟨start.element⟩⟩
  ⟨[⟨.ruleEnd id, none, site.block⟩],
    [⟨.rule, blockAlternatives site.terminator (start.element + 1) r.alternatives,
        site.terminator, id, none, r.greedy⟩]⟩ ++
    choice names site (start.skip 1 1) r.alternatives

/-- Lays out rules one after the other, the first with the given number. -/
def rules (names : Names) (id : Nat) (start : Position) : List RuleDescription → Nodes
  | [] => ⟨[], []⟩
  | r :: rs => rule names ⟨id⟩ start r ++ rules names (id + 1) (start.afterRule r) rs

/-- The references among elements numbered from zero that call a rule. -/
def callers (elements : List Element) (rule : RuleId) : List ElementId :=
  elements.zipIdx.filterMap fun (e, i) =>
    if e.kind.target? = some rule then some ⟨i⟩ else none

/-- The rules with their links, given all elements. -/
def ruleTable (elements : List Element) (id : Nat) (start : Position) :
    List RuleDescription → List Rule
  | [] => []
  | r :: rs =>
    ⟨r.name, ⟨start.block⟩, ⟨start.element⟩, callers elements ⟨id⟩, r.entry⟩ ::
      ruleTable elements (id + 1) (start.afterRule r) rs

end Layout

namespace Description

/-- The vocabulary of a description: its token names in order of first use. -/
def vocabulary (d : Description) : Vocabulary := Vocabulary.internAll {} d.tokenNames

/-- The graph of a description, whether or not the description is sound. -/
def layout (d : Description) : Grammar :=
  let names : Layout.Names := ⟨d.vocabulary, d.rules.map (·.name)⟩
  let nodes := Layout.rules names 0 ⟨0, 0⟩ d.rules
  { maxDepth := d.maxDepth
    vocabulary := d.vocabulary
    rules := (Layout.ruleTable nodes.elements 0 ⟨0, 0⟩ d.rules).toArray
    blocks := nodes.blocks.toArray
    elements := nodes.elements.toArray }

end Description

end GrammarLookahead
