/-!
Identifiers in the sense of Unicode Standard Annex #31, with `_` allowed at the start. Rule names
must be identifiers, and token names that are identifiers are shown without quotes. Which characters
have the properties that identifiers depend on is left open, as it changes from one version of
Unicode to the next.
-/

namespace GrammarLookahead

/-- What a version of the Unicode character database tells of the characters of identifiers. -/
structure Unicode where
  /-- The property XID_Start. -/
  xidStart : Char → Bool
  /-- The property XID_Continue. -/
  xidContinue : Char → Bool

namespace Unicode

variable (ucd : Unicode)

/-- The characters an identifier may begin with. -/
def isStart (c : Char) : Bool := c = '_' || ucd.xidStart c

/-- The characters an identifier may go on with. -/
def isContinue (c : Char) : Bool := ucd.xidContinue c

/-- Whether a name is an identifier; the empty name is none. -/
def isIdentifier (name : String) : Bool :=
  match name.toList with
  | [] => false
  | first :: rest => ucd.isStart first && rest.all ucd.isContinue

/-- The properties of the ASCII characters, with no other character in an identifier. -/
def ascii : Unicode where
  xidStart := Char.isAlpha
  xidContinue c := c.isAlphanum || c = '_'

end Unicode

end GrammarLookahead
