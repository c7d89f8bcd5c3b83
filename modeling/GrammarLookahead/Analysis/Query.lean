import GrammarLookahead.Analysis.Search

/-!
Queries about the lookahead of a grammar. A query with arguments that make no sense for the
grammar is refused and leaves the memory of the analysis as it was.
-/

namespace GrammarLookahead

/-- Why a query is refused. -/
inductive QueryError where
  | depthOutOfRange (depth maxDepth : Nat)
  | unknownRule (name : String)
  | unknownNode (node : Node)
  | unknownAlternative (block : BlockId) (alternative : Nat)
  /-- The computation could not go on; on a built grammar it always can. -/
  | breakdown (reason : Breakdown)
  deriving DecidableEq, Repr

def QueryError.message : QueryError → String
  | .depthOutOfRange depth maxDepth => s!"lookahead depth {depth} is out of range 1..={maxDepth}"
  | .unknownRule name => s!"unknown rule '{name}'"
  | .unknownNode node => s!"node {node.longName} does not exist in the grammar"
  | .unknownAlternative block alternative =>
    s!"block {block.shortName} has no alternative {alternative}"
  | .breakdown reason => reason.message

/-- A computation that asks queries and remembers what they found. -/
abbrev Query := ExceptT QueryError (StateM Memory)

namespace Grammar

variable (g : Grammar)

/-- Refuses a depth that the grammar is not analyzed with. -/
def checkDepth (depth : Nat) : Except QueryError Unit :=
  if depth = 0 ∨ g.maxDepth < depth then .error (.depthOutOfRange depth g.maxDepth) else .ok ()

/-- Refuses a node that is not part of the grammar. -/
def checkNode (node : Node) : Except QueryError Unit :=
  if g.contains node then .ok () else .error (.unknownNode node)

/-- The block of a handle that is part of the grammar. -/
def blockFor (id : BlockId) : Except QueryError Block :=
  (g.block? id).elim (.error (.unknownNode (.block id))) .ok

/-- The rule of a name that the grammar defines. -/
def ruleFor (name : String) : Except QueryError Rule :=
  ((g.ruleNamed? name).bind g.rule?).elim (.error (.unknownRule name)) .ok

/-- Answers a key from the memory or by a search. -/
def ask (key : Key) : Query LookaheadSet := fun m =>
  let s := m.countQuery.search g key
  (s.outcome.mapError .breakdown, s.memory)

/-- The lookahead at a node. Behind the end of a rule it goes on with whatever follows the rule at
any of its calls. -/
def look (depth : Nat) (node : Node) : Query LookaheadSet := do
  g.checkDepth depth
  g.checkNode node
  g.ask ⟨node, depth, .everywhere⟩

/-- The lookahead of one alternative of a block, counted from zero. -/
def lookAlternative (depth : Nat) (block : BlockId) (alternative : Nat) : Query LookaheadSet := do
  let b ← g.blockFor block
  match b.alternatives[alternative]? with
  | none => throw (.unknownAlternative block alternative)
  | some a => g.look depth (.element a.first)

/-- The lookahead behind a block. -/
def lookExit (depth : Nat) (block : BlockId) : Query LookaheadSet := do
  let b ← g.blockFor block
  g.look depth (.element (g.exitTarget b))

/-- What a rule can begin with, as seen from a call: where the rule can end early, the rest is left
open. -/
def lookRule (depth : Nat) (name : String) : Query LookaheadSet := do
  let rule ← g.ruleFor name
  g.checkDepth depth
  g.ask (.block rule.block depth .callSite)

/-- Everything that can follow a rule. -/
def lookFollow (depth : Nat) (name : String) : Query LookaheadSet := do
  let rule ← g.ruleFor name
  g.checkDepth depth
  g.ask (.element rule.terminator depth .everywhere)

end Grammar

end GrammarLookahead
