import GrammarLookahead.Grammar.Description
import GrammarLookahead.Vocabulary

/-!
The graph of a grammar: numbered rules, blocks and elements that refer to each other by handle. An
element points at the element behind it in its sequence, the last one at the terminator of its
block, and a terminator at nothing: where it leads depends on the block it ends.
-/

namespace GrammarLookahead

/-- What a block is a choice for. -/
inductive BlockKind where
  /-- The alternatives of a rule. -/
  | rule
  /-- A block inside an alternative. -/
  | nested (repetition : Repetition)
  deriving DecidableEq, Repr

namespace BlockKind

def isLoop : BlockKind → Bool
  | .rule => false
  | .nested r => r.isLoop

def canSkip : BlockKind → Bool
  | .rule => false
  | .nested r => r.canSkip

def hasExitBranch : BlockKind → Bool
  | .rule => false
  | .nested r => r.hasExitBranch

/-- How a diagnostic calls a block of this kind. -/
def describe : BlockKind → String
  | .rule => "rule block"
  | .nested .once => "subrule"
  | .nested .optional => "optional block"
  | .nested .zeroOrMore => "(...)* loop"
  | .nested .oneOrMore => "(...)+ loop"

end BlockKind

/-- What an element stands for. -/
inductive ElementKind where
  | terminal (token : TokenId)
  | wildcard
  | notTerminal (token : TokenId)
  | reference (name : String) (target : RuleId)
  /-- A block that control passes through at most once. -/
  | nested (block : BlockId)
  /-- A block that control may pass through again and again. -/
  | loop (block : BlockId)
  /-- The terminator of a block inside an alternative. -/
  | blockEnd (block : BlockId)
  /-- The terminator of a rule. -/
  | ruleEnd (rule : RuleId)
  deriving DecidableEq, Repr

namespace ElementKind

def isTerminator : ElementKind → Bool
  | .blockEnd _ | .ruleEnd _ => true
  | _ => false

/-- The rule that a reference calls. -/
def target? : ElementKind → Option RuleId
  | .reference _ target => some target
  | _ => none

end ElementKind

/-- A place in a grammar. `block` is the block whose alternative holds it or that it ends. -/
structure Element where
  kind : ElementKind
  next : Option ElementId
  block : BlockId
  deriving DecidableEq, Repr

/-- A sequence of elements; an empty one begins at the terminator of its block. -/
structure Alternative where
  elements : List ElementId
  first : ElementId
  deriving DecidableEq, Repr

def Alternative.isEmpty (a : Alternative) : Bool := a.elements.isEmpty

/-- A choice between alternatives that all end at one terminator. -/
structure Block where
  kind : BlockKind
  alternatives : List Alternative
  terminator : ElementId
  rule : RuleId
  /-- The element that stands for the block in the alternative around it. -/
  owner : Option ElementId
  greedy : Option Bool
  deriving DecidableEq, Repr

/-- Whether a parser has to choose at the block. -/
def Block.isDecision (b : Block) : Bool :=
  1 < b.alternatives.length || (b.kind.hasExitBranch && !b.alternatives.isEmpty)

structure Rule where
  name : String
  block : BlockId
  terminator : ElementId
  /-- The references that call the rule, in ascending order. -/
  callers : List ElementId
  entry : Bool
  deriving DecidableEq, Repr

/-- A linked grammar. -/
structure Grammar where
  maxDepth : Nat
  vocabulary : Vocabulary
  rules : Array Rule
  blocks : Array Block
  elements : Array Element

namespace Grammar

def rule? (g : Grammar) (id : RuleId) : Option Rule := g.rules[id.index]?

def block? (g : Grammar) (id : BlockId) : Option Block := g.blocks[id.index]?

def element? (g : Grammar) (id : ElementId) : Option Element := g.elements[id.index]?

/-- Whether a node belongs to the grammar. -/
def contains (g : Grammar) : Node → Bool
  | .element id => id.index < g.elements.size
  | .block id => id.index < g.blocks.size

def ruleIds (g : Grammar) : List RuleId := (List.range g.rules.size).map fun i => ⟨i⟩

def blockIds (g : Grammar) : List BlockId := (List.range g.blocks.size).map fun i => ⟨i⟩

def elementIds (g : Grammar) : List ElementId := (List.range g.elements.size).map fun i => ⟨i⟩

/-- The first rule of a name. -/
def ruleNamed? (g : Grammar) (name : String) : Option RuleId :=
  (g.rules.findIdx? fun r => r.name = name).map fun i => ⟨i⟩

/-- The element behind an element in its sequence. -/
def next? (g : Grammar) (id : ElementId) : Option ElementId := (g.element? id).bind (·.next)

/-- Where control goes on once a block inside an alternative is left. -/
def exit? (g : Grammar) (b : Block) : Option ElementId := b.owner.bind g.next?

/-- The element control reaches when a block is left; for a rule that is its terminator. -/
def exitTarget (g : Grammar) (b : Block) : ElementId := (g.exit? b).getD b.terminator

/-- The blocks at which a parser has to choose, in ascending order. -/
def decisions (g : Grammar) : List BlockId :=
  g.blockIds.filter fun id => (g.block? id).any Block.isDecision

/-- The name of a rule; a rule outside the grammar has the empty name. -/
def ruleName (g : Grammar) (id : RuleId) : String := (g.rule? id).elim "" (·.name)

/-- The name of the rule that a block belongs to. -/
def ruleNameOf (g : Grammar) (id : BlockId) : String :=
  (g.block? id).elim "" fun b => g.ruleName b.rule

/-- A block as diagnostics call it, such as `subrule b1 of rule 's'`. -/
def describeBlock (g : Grammar) (id : BlockId) : String :=
  (g.block? id).elim "" fun b => s!"{b.kind.describe} {id.shortName} of rule '{g.ruleName b.rule}'"

end Grammar

end GrammarLookahead
