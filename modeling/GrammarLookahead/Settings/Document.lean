import GrammarLookahead.Json.Value
import GrammarLookahead.Settings

/-!
Settings as JSON documents. An object gives settings by name, in any order and with other members
among them; an array gives them by position. What is not given takes its default.
-/

namespace GrammarLookahead.Settings

open Json (Value)

def bool? : Value → Option Bool
  | .bool b => some b
  | _ => none

/-- A natural number of at most 64 bits. -/
def count? : Value → Option Nat
  | .natural n => if n < UInt64.size then some n else none
  | _ => none

/-- A setting that may be missing. -/
def orDefault {α : Type} (read : Value → Option α) (default : α) : Option Value → Option α
  | none => some default
  | some v => read v

/-- Settings from the values that are given for them. -/
def ofParts? (warn most unreachable : Option Value) : Option Settings := do
  let d : Settings := {}
  return { warnExitAmbiguities := ← orDefault bool? d.warnExitAmbiguities warn
           maxEvidence := ← orDefault count? d.maxEvidence most
           reportUnreachable := ← orDefault bool? d.reportUnreachable unreachable }

/-- The value of a member, which may be missing but not be given twice. -/
def member? (name : String) (members : List (String × Value)) : Option (Option Value) :=
  match members.filter (·.1 = name) with
  | [] => some none
  | [m] => some (some m.2)
  | _ => none

/-- Settings from a document. -/
def ofValue? : Value → Option Settings
  | .array items => if items.length ≤ 3 then ofParts? items[0]? items[1]? items[2]? else none
  | .object members => do
    ofParts? (← member? "warn_exit_ambiguities" members) (← member? "max_evidence" members)
      (← member? "report_unreachable" members)
  | _ => none

def toValue (settings : Settings) : Value :=
  .object [("warn_exit_ambiguities", .bool settings.warnExitAmbiguities),
    ("max_evidence", .natural settings.maxEvidence),
    ("report_unreachable", .bool settings.reportUnreachable)]

end GrammarLookahead.Settings
