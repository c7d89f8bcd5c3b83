import GrammarLookahead.Analysis.Query
import GrammarLookahead.Report.Comparison

/-!
The checker goes through the decisions of a grammar, compares their branches and collects the
findings. A block is checked once, whatever comes later.
-/

namespace GrammarLookahead

/-- What a checker has found so far. -/
structure Checker where
  memory : Memory := {}
  /-- The blocks that need no further check. -/
  checked : List BlockId := []
  decisions : List Decision := []
  ambiguities : List Ambiguity := []
  diagnostics : Diagnostics := []

/-- A computation that checks blocks. -/
abbrev Check := ExceptT QueryError (StateM Checker)

/-- Asks a query on behalf of a checker. -/
def Query.toCheck {α : Type} (q : Query α) : Check α := fun c =>
  let (answer, memory) := q c.memory
  (answer, { c with memory })

/-- Keeps what a check has found and forgets how it ended. -/
def Check.attempt {α : Type} (check : Check α) : Check Unit := fun c => (.ok (), (check c).2)

namespace Grammar

variable (g : Grammar) (ucd : Unicode) (settings : Settings)

def lookBranch (depth : Nat) (block : BlockId) : Branch → Query LookaheadSet
  | .alternative index => g.lookAlternative depth block index
  | .exit => g.lookExit depth block

/-- The branches of a block with their lookahead at a depth. -/
def lookBranches (depth : Nat) (block : BlockId) (branches : List Branch) :
    Query (List BranchLookahead) :=
  branches.mapM fun branch => do return ⟨branch, ← g.lookBranch depth block branch⟩

/-- The first of several depths that tells the branches of a block apart, or else the largest
depth, for which the branches are given. -/
def separate (id : BlockId) (b : Block) (atMax : List BranchLookahead) : List Nat → Query Decision
  | [] =>
    return ⟨id, b.rule, b.kind, g.maxDepth, pairwiseDisjoint (atMax.map (·.lookahead)), atMax⟩
  | depth :: deeper => do
    let branches ← g.lookBranches depth id b.branches
    if pairwiseDisjoint (branches.map (·.lookahead)) then
      return ⟨id, b.rule, b.kind, depth, true, branches⟩
    else separate id b atMax deeper

/-- Compares the branches of a decision and records what comes of it. -/
def compareBranches (id : BlockId) (b : Block) : Check Unit := do
  let atMax ← (g.lookBranches g.maxDepth id b.branches).toCheck
  let found := Comparison.ambiguities settings id b g.maxDepth atMax
  modify fun c =>
    { c with
      ambiguities := c.ambiguities ++ found
      diagnostics := c.diagnostics ++ Comparison.diagnostics g ucd settings id b atMax found }
  let decision ← (g.separate id b atMax (List.range' 1 (g.maxDepth - 1))).toCheck
  modify fun c => { c with decisions := c.decisions ++ [decision] }

/-- Checks a block. A block with one branch is no decision, and a block that was checked before is
left alone. -/
def checkBlock (id : BlockId) : Check Unit := do
  match g.block? id with
  | none => throw (.unknownNode (.block id))
  | some b =>
    unless id ∈ (← get).checked do
      modify fun c => { c with checked := id :: c.checked }
      unless b.branches.length < 2 do
        g.compareBranches ucd settings id b

/-- Checks every rule, which shows left recursion, and every decision. -/
def checkAll : Check Unit := do
  g.rules.toList.forM fun rule => (g.lookRule g.maxDepth rule.name).toCheck.attempt
  g.decisions.forM fun id => (g.checkBlock ucd settings id).attempt

/-- The report of what a checker has found. -/
def report (c : Checker) : Report :=
  let leftRecursive := c.memory.leftRecursive.toList
  { decisions := c.decisions
    ambiguities := c.ambiguities
    diagnostics := c.diagnostics ++ leftRecursive.map fun r => .leftRecursion (g.ruleName r)
    leftRecursive
    work := c.memory.work }

/-- Checks all of a grammar. -/
def analyze : Report := g.report (g.checkAll ucd settings {}).2

end Grammar

/-- Checks grammars independently of each other. -/
def analyzeAll (ucd : Unicode) (settings : Settings) (grammars : List Grammar) : List Report :=
  grammars.map (·.analyze ucd settings)

end GrammarLookahead
