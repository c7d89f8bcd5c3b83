import GrammarLookahead.Grammar.Layout
import GrammarLookahead.Grammar.Validation

/-!
Building a grammar from its description. The first fault is reported: the lookahead depth, then
the names of the rules, then references without a rule, then the shape of the graph.
-/

namespace GrammarLookahead

/-- The largest lookahead depth. -/
def maxSupportedDepth : Nat := 255

/-- The first rule name that is no identifier or that an earlier rule has. -/
def ruleNameFault (ucd : Unicode) (earlier : List String) : List String → Option GrammarFault
  | [] => none
  | name :: names =>
    if ¬ ucd.isIdentifier name then some (.invalidRuleName name)
    else if name ∈ earlier then some (.duplicateRule name)
    else ruleNameFault ucd (name :: earlier) names

namespace Grammar

/-- The first reference to a rule that the grammar does not have. -/
def unresolvedReference (g : Grammar) : Option GrammarFault :=
  g.elements.toList.findSome? fun e =>
    match e.kind with
    | .reference name target =>
      if (g.rule? target).isSome then none else some (.unresolvedRule name (g.ruleNameOf e.block))
    | _ => none

end Grammar

namespace Description

/-- The first fault of a description. -/
def fault? (ucd : Unicode) (d : Description) : Option GrammarFault :=
  if d.maxDepth = 0 ∨ maxSupportedDepth < d.maxDepth then some (.invalidMaxDepth d.maxDepth)
  else
    (ruleNameFault ucd [] (d.rules.map (·.name))).or
      (d.layout.unresolvedReference.or d.layout.fault?)

/-- The grammar of a description without faults. -/
def build (ucd : Unicode) (d : Description) : Except GrammarFault Grammar :=
  match d.fault? ucd with
  | some fault => .error fault
  | none => .ok d.layout

end Description

end GrammarLookahead
