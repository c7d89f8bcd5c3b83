import GrammarLookahead.Json.Value

/-!
JSON libraries. A library writes documents as text, keeps them in memory in a form of its own and
reads them from text; how it does so is left open.
-/

namespace GrammarLookahead.Json

/-- The operations of a JSON library. An operation that fails gives nothing. -/
structure Library where
  /-- A document as text, one item on a line. -/
  pretty? : Value → Option String
  /-- A document as the library keeps it. -/
  document? : Value → Option Value
  /-- The document that a text spells, as the library keeps it. -/
  parse? : String → Option Value

end GrammarLookahead.Json
