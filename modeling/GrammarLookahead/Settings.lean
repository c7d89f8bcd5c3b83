/-!
The settings of a report. They shape what is reported and never what is analyzed: the lookahead
depth belongs to the grammar.
-/

namespace GrammarLookahead

structure Settings where
  /-- Warn of alternatives that overlap with the exit of their block. -/
  warnExitAmbiguities : Bool := true
  /-- The largest number of shared sequences kept as evidence of an ambiguity. -/
  maxEvidence : Nat := 8
  /-- Warn of alternatives whose lookahead is empty. -/
  reportUnreachable : Bool := true
  deriving DecidableEq, Repr

end GrammarLookahead
