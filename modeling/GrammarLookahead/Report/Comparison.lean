import GrammarLookahead.LookaheadSet.Rendering
import GrammarLookahead.Report.Findings
import GrammarLookahead.Settings

/-!
The comparison of the branches of a decision, given their lookahead at one depth: which
alternatives can never be chosen, which pairs of branches overlap, and what is reported of them.
-/

namespace GrammarLookahead

/-- Every pair of an element and a later one, in lexicographic order of positions. -/
def orderedPairs {α : Type} : List α → List (α × α)
  | [] => []
  | x :: xs => xs.map (x, ·) ++ orderedPairs xs

/-- Whether no two sets overlap. -/
def pairwiseDisjoint : List LookaheadSet → Bool
  | [] => true
  | a :: as => as.all a.isDisjoint && pairwiseDisjoint as

namespace Comparison

variable (g : Grammar) (ucd : Unicode) (settings : Settings) (id : BlockId) (b : Block)

/-- A warning for each alternative with empty lookahead. -/
def unreachable (branches : List BranchLookahead) : Diagnostics :=
  branches.filterMap fun ⟨branch, lookahead⟩ =>
    match branch with
    | .alternative index =>
      if lookahead.isEmpty then
        some (.unreachableAlternative (g.ruleName b.rule) id (g.describeBlock id) index)
      else none
    | .exit => none

/-- The ambiguity of two branches, unless they are disjoint. An explicit greedy option settles
every conflict with the exit. -/
def ambiguity? (depth : Nat) (pair : BranchLookahead × BranchLookahead) : Option Ambiguity :=
  let shared := pair.1.lookahead.intersection pair.2.lookahead
  let found : Ambiguity :=
    { block := id
      rule := b.rule
      first := pair.1.branch
      second := pair.2.branch
      depth
      overlap := shared.cap settings.maxEvidence
      overlapSize := shared.size }
  if shared.isEmpty || (found.involvesExit && b.greedy.isSome) then none else some found

/-- The ambiguities of a block whose branches have the given lookahead. -/
def ambiguities (depth : Nat) (branches : List BranchLookahead) : List Ambiguity :=
  (orderedPairs branches).filterMap (ambiguity? settings id b depth)

/-- The warning for an ambiguity; it may be switched off for the exit. -/
def warning? (a : Ambiguity) : Option Diagnostic :=
  if a.involvesExit && !settings.warnExitAmbiguities then none
  else
    some (.ambiguity (g.ruleNameOf a.block) a.block (g.describeBlock a.block) a.first.display
      a.second.display (a.overlap.display ucd g.vocabulary) a.involvesExit)

/-- The diagnostics of a block whose branches have the given lookahead and ambiguities. -/
def diagnostics (branches : List BranchLookahead) (found : List Ambiguity) : Diagnostics :=
  (if settings.reportUnreachable then unreachable g id b branches else []) ++
    found.filterMap (warning? g ucd settings)

end Comparison

end GrammarLookahead
