import GrammarLookahead.Handle

/-!
Diagnostics: what a report says about a grammar. A grammar with conflicts is still usable, so they
are no errors of the analysis; a parser resolves a conflict by taking the earlier branch.
-/

namespace GrammarLookahead

inductive Severity where
  | error
  | warning
  deriving DecidableEq, Repr

def Severity.name : Severity → String
  | .error => "error"
  | .warning => "warning"

/-- A message about a rule and, where it applies, a block. -/
structure Diagnostic where
  severity : Severity
  code : Option String := none
  message : String
  rule : Option String := none
  block : Option BlockId := none
  /-- Remarks, such as how a conflict is resolved. -/
  notes : List String := []
  deriving DecidableEq, Repr

namespace Diagnostic

def isError (d : Diagnostic) : Bool := d.severity = .error

/-- The message on one line, each note on a line of its own. -/
def display (d : Diagnostic) : String :=
  let code := d.code.elim "" fun c => "[" ++ c ++ "]"
  d.severity.name ++ code ++ ": " ++ d.message ++ String.join (d.notes.map ("\n  note: " ++ ·))

/-- A rule reaches itself without consuming a token. -/
def leftRecursion (rule : String) : Diagnostic where
  severity := .error
  code := "E0001"
  message := s!"rule '{rule}' is left-recursive: it can reach itself without consuming a token"
  rule := rule

/-- An alternative, counted from zero, has empty lookahead. -/
def unreachableAlternative (rule : String) (block : BlockId) (location : String)
    (alternative : Nat) : Diagnostic where
  severity := .warning
  code := "W0003"
  message :=
    s!"alternative {alternative + 1} of {location} can never be chosen: " ++
      "no token sequence predicts it"
  rule := rule
  block := block

/-- Two branches share lookahead. The evidence is what they share, as it is shown. -/
def ambiguity (rule : String) (block : BlockId) (location first second evidence : String)
    (involvesExit : Bool) : Diagnostic where
  severity := .warning
  code := if involvesExit then "W0002" else "W0001"
  message := s!"{location}: {first} and {second} are both predicted by {evidence}"
  rule := rule
  block := block
  notes := [s!"resolved in favour of {first}"]

end Diagnostic

/-- Diagnostics in the order in which they were found. -/
abbrev Diagnostics := List Diagnostic

namespace Diagnostics

variable (ds : Diagnostics)

/-- The diagnostics about a rule. -/
def forRule (rule : String) : Diagnostics := ds.filter fun d => d.rule = some rule

def count (severity : Severity) : Nat := ds.countP fun d => d.severity = severity

def hasErrors : Bool := ds.any Diagnostic.isError

/-- The gravest severity among the diagnostics. -/
def worst? : Option Severity :=
  if ds.hasErrors then some .error else if ds.isEmpty then none else some .warning

end Diagnostics

end GrammarLookahead
