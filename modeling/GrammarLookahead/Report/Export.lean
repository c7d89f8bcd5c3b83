import GrammarLookahead.Json.Library
import GrammarLookahead.LookaheadSet.Rendering
import GrammarLookahead.Report.Findings

/-!
Reports as JSON documents, for parser generators written in other languages. Tokens and rules are
named, an alternative is given by its number and the exit of a block by null.
-/

namespace GrammarLookahead

open Json (Value)

/-- The kind of a block as a report names it. -/
def BlockKind.exportName : BlockKind → String
  | .rule => "rule"
  | .nested .once => "subrule"
  | .nested .optional => "optional"
  | .nested .zeroOrMore => "zero_or_more"
  | .nested .oneOrMore => "one_or_more"

namespace Report

variable (ucd : Unicode) (g : Grammar)

def lookaheadValue (a : LookaheadSet) : Value := .ofList .string (a.render ucd g.vocabulary)

def branchValue (b : Branch) : Value := .ofOption .natural b.index?

def ruleValue (leftRecursive : List RuleId) (id : RuleId) (r : Rule) : Value :=
  .object [("name", .string r.name), ("entry", .bool r.entry),
    ("left_recursive", .bool (leftRecursive.contains id))]

def decisionValue (d : Decision) : Value :=
  .object [("block", .natural d.block.index), ("rule", .string (g.ruleName d.rule)),
    ("kind", .string d.kind.exportName), ("depth", .natural d.depth),
    ("deterministic", .bool d.deterministic),
    ("branches", .ofList
      (fun b => .object [("alternative", branchValue b.branch),
        ("lookahead", lookaheadValue ucd g b.lookahead)])
      d.branches)]

def ambiguityValue (a : Ambiguity) : Value :=
  .object [("block", .natural a.block.index), ("rule", .string (g.ruleName a.rule)),
    ("first", branchValue a.first), ("second", branchValue a.second),
    ("depth", .natural a.depth), ("overlap", lookaheadValue ucd g a.overlap),
    ("overlap_size", .natural a.overlapSize)]

def diagnosticValue (d : Diagnostic) : Value :=
  .object [("severity", .string d.severity.name), ("code", .ofOption .string d.code),
    ("message", .string d.message), ("rule", .ofOption .string d.rule),
    ("notes", .ofList .string d.notes)]

/-- A report with the names of the grammar it is about, as it is handed to a JSON library. -/
def toValue (r : Report) : Value :=
  .object [("max_k", .natural g.maxDepth), ("tokens", .ofList .string g.vocabulary.names),
    ("rules", .array (g.rules.toList.zipIdx.map fun (rule, i) =>
      ruleValue r.leftRecursive ⟨i⟩ rule)),
    ("decisions", .ofList (decisionValue ucd g) r.decisions),
    ("ambiguities", .ofList (ambiguityValue ucd g) r.ambiguities),
    ("diagnostics", .ofList diagnosticValue r.diagnostics)]

/-- A report as JSON text, one item on a line. -/
def toText? (json : Json.Library) (r : Report) : Option String := json.pretty? (r.toValue ucd g)

/-- A report as a JSON document. -/
def toDocument? (json : Json.Library) (r : Report) : Option Value :=
  json.document? (r.toValue ucd g)

end Report

end GrammarLookahead
