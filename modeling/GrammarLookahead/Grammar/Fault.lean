/-!
The faults of grammar descriptions, each with the text that reports it.
-/

namespace GrammarLookahead

/-- Why an alternative never reaches the terminator of its block. -/
inductive DeadEndReason where
  /-- It holds a block with nothing to choose from. -/
  | emptyBlock
  /-- Its elements lead into another block. -/
  | leavesBlock
  /-- Its elements lead back to themselves. -/
  | loopsBack
  /-- Its elements end before the terminator. -/
  | stopsEarly
  deriving DecidableEq, Repr

def DeadEndReason.message : DeadEndReason → String
  | .emptyBlock => "contains a block with no alternatives"
  | .leavesBlock => "sequence leaves its block"
  | .loopsBack => "sequence loops back on itself"
  | .stopsEarly => "sequence stops before the terminator"

/-- Why a description is no grammar. -/
inductive GrammarFault where
  /-- The maximum lookahead depth is not in `1..=255`. -/
  | invalidMaxDepth (depth : Nat)
  /-- The name of a rule is no identifier. -/
  | invalidRuleName (name : String)
  /-- An earlier rule has the same name. -/
  | duplicateRule (name : String)
  /-- A rule calls a rule that is never defined. -/
  | unresolvedRule (name caller : String)
  /-- A rule has no alternatives. -/
  | emptyRule (name : String)
  /-- An alternative, counted from zero, does not lead to the terminator of its block. -/
  | deadEnd (rule : String) (alternative : Nat) (reason : DeadEndReason)
  deriving DecidableEq, Repr

def GrammarFault.message : GrammarFault → String
  | .invalidMaxDepth depth => s!"invalid maximum lookahead depth {depth}: expected 1..=255"
  | .invalidRuleName name => s!"invalid rule name '{name}'"
  | .duplicateRule name => s!"rule '{name}' is defined more than once"
  | .unresolvedRule name caller => s!"rule '{caller}' references undefined rule '{name}'"
  | .emptyRule name => s!"rule '{name}' has no alternatives"
  | .deadEnd rule alternative reason =>
    s!"alternative {alternative} of a block in rule '{rule}' never reaches its terminator: " ++
      reason.message

end GrammarLookahead
