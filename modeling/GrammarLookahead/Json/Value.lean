/-!
JSON documents: what is exported, and what settings are read from.
-/

namespace GrammarLookahead.Json

inductive Value where
  | null
  | bool (b : Bool)
  | natural (n : Nat)
  /-- A number that is not spelled as a natural number, with its spelling. -/
  | number (literal : String)
  | string (text : String)
  | array (items : List Value)
  /-- Named members in the order in which they are written. -/
  | object (members : List (String × Value))
  deriving Repr

namespace Value

/-- A value that may be missing, as null. -/
def ofOption {α : Type} (f : α → Value) : Option α → Value
  | none => .null
  | some a => f a

def ofList {α : Type} (f : α → Value) (xs : List α) : Value := .array (xs.map f)

end Value

end GrammarLookahead.Json
