import GrammarLookahead.Analysis.Memory
import GrammarLookahead.Grammar.Graph
import GrammarLookahead.Report.Diagnostic

/-!
The findings of a report: for each decision the branches with their lookahead, and for each pair of
branches that cannot be told apart the lookahead that they share.
-/

namespace GrammarLookahead

/-- A way out of a decision. -/
inductive Branch where
  /-- An alternative, counted from zero. -/
  | alternative (index : Nat)
  /-- Passing by an optional block or leaving a loop. -/
  | exit
  deriving DecidableEq, Repr

namespace Branch

/-- A branch as diagnostics call it; alternatives are counted from one. -/
def display : Branch → String
  | .alternative index => s!"alternative {index + 1}"
  | .exit => "the exit branch"

/-- The number of an alternative, counted from zero. -/
def index? : Branch → Option Nat
  | .alternative index => some index
  | .exit => none

end Branch

/-- The branches of a block: its alternatives in order, then its exit if it competes. -/
def Block.branches (b : Block) : List Branch :=
  (List.range b.alternatives.length).map .alternative ++
    if b.kind.hasExitBranch && !b.alternatives.isEmpty then [.exit] else []

/-- A branch and its lookahead. -/
structure BranchLookahead where
  branch : Branch
  lookahead : LookaheadSet
  deriving DecidableEq, Repr

/-- Two branches that share lookahead; a parser prefers the first. -/
structure Ambiguity where
  block : BlockId
  rule : RuleId
  first : Branch
  second : Branch
  depth : Nat
  /-- The first members of what the branches share. -/
  overlap : LookaheadSet
  /-- The number of all members that the branches share. -/
  overlapSize : Nat
  deriving DecidableEq, Repr

def Ambiguity.involvesExit (a : Ambiguity) : Bool := a.first = .exit || a.second = .exit

/-- What a parser generator needs to know about a decision. -/
structure Decision where
  block : BlockId
  rule : RuleId
  kind : BlockKind
  /-- The smallest depth that tells all branches apart, or the largest depth if none does. -/
  depth : Nat
  /-- Whether the branches are told apart at `depth`. -/
  deterministic : Bool
  branches : List BranchLookahead
  deriving DecidableEq, Repr

/-- The lookahead of one branch. -/
def Decision.lookahead? (d : Decision) (branch : Branch) : Option LookaheadSet :=
  (d.branches.find? (·.branch = branch)).map (·.lookahead)

/-- Everything found in a grammar. -/
structure Report where
  decisions : List Decision
  ambiguities : List Ambiguity
  diagnostics : Diagnostics
  leftRecursive : List RuleId
  work : Work
  deriving DecidableEq, Repr

namespace Report

variable (r : Report)

/-- Whether no branches overlap and no rule is left-recursive. -/
def isDeterministic : Bool := r.ambiguities.isEmpty && r.leftRecursive.isEmpty

def hasErrors : Bool := r.diagnostics.hasErrors

/-- The decision at a block. -/
def decision? (block : BlockId) : Option Decision := r.decisions.find? (·.block = block)

/-- The ambiguities at a block. -/
def ambiguitiesIn (block : BlockId) : List Ambiguity := r.ambiguities.filter (·.block = block)

end Report

end GrammarLookahead
