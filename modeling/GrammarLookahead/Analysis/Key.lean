import GrammarLookahead.Handle

/-!
Keys: the questions that lookahead is computed for. A key asks what can be seen from a node, how
many tokens ahead, and what lies behind the end of a rule.
-/

namespace GrammarLookahead

/-- What lies behind the end of a rule. -/
inductive Context where
  /-- Whatever follows the rule at any of its calls. -/
  | everywhere
  /-- Nothing known: the call that entered the rule decides. -/
  | callSite
  deriving DecidableEq, Hashable, Repr

/-- A question about the lookahead at a node. -/
structure Key where
  node : Node
  depth : Nat
  context : Context
  deriving DecidableEq, Hashable, Repr

namespace Key

def element (id : ElementId) (depth : Nat) (context : Context) : Key :=
  ⟨.element id, depth, context⟩

def block (id : BlockId) (depth : Nat) (context : Context) : Key := ⟨.block id, depth, context⟩

end Key

end GrammarLookahead
