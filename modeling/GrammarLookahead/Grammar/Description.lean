/-!
The description of a grammar: rules as trees of alternatives, in the order in which they are
written down. `Grammar.Layout` turns a description into a linked graph.
-/

namespace GrammarLookahead

/-- How often control may pass through a block that stands inside an alternative. -/
inductive Repetition where
  /-- `( ... )` -/
  | once
  /-- `( ... )?` -/
  | optional
  /-- `( ... )*` -/
  | zeroOrMore
  /-- `( ... )+` -/
  | oneOrMore
  deriving DecidableEq, Repr

namespace Repetition

/-- Loops go back from their terminator to their alternatives. -/
def isLoop : Repetition → Bool
  | .zeroOrMore | .oneOrMore => true
  | .once | .optional => false

/-- Whether control may pass by the block on entry. -/
def canSkip : Repetition → Bool
  | .optional | .zeroOrMore => true
  | .once | .oneOrMore => false

/-- Whether leaving the block competes with its alternatives. -/
def hasExitBranch : Repetition → Bool
  | .once => false
  | .optional | .zeroOrMore | .oneOrMore => true

end Repetition

/-- One item of an alternative. -/
inductive Phrase where
  /-- The token of this name. -/
  | token (name : String)
  /-- Any token but the one of this name and the end of input. -/
  | notToken (name : String)
  /-- Any token but the end of input. -/
  | wildcard
  /-- Whatever the rule of this name matches. -/
  | call (rule : String)
  /-- A choice between alternatives. `greedy`, when given, settles whether to stay or to leave. -/
  | block (repetition : Repetition) (greedy : Option Bool) (alternatives : List (List Phrase))
  deriving Repr

/-- A rule: its name, whether a parser may be started at it, and its alternatives. -/
structure RuleDescription where
  name : String
  entry : Bool := false
  greedy : Option Bool := none
  alternatives : List (List Phrase)
  deriving Repr

/-- One entry of a description. -/
inductive Declaration where
  /-- Names a token ahead of its use. -/
  | token (name : String)
  | rule (rule : RuleDescription)
  deriving Repr

/-- A grammar to be analyzed with up to `maxDepth` tokens of lookahead. -/
structure Description where
  maxDepth : Nat
  declarations : List Declaration
  deriving Repr

mutual

/-- The token names of a phrase in order of use. -/
def Phrase.tokenNames : Phrase → List String
  | .token name | .notToken name => [name]
  | .wildcard | .call _ => []
  | .block _ _ alternatives => Phrase.tokenNamesOfAlternatives alternatives

def Phrase.tokenNamesOfSequence : List Phrase → List String
  | [] => []
  | p :: ps => p.tokenNames ++ Phrase.tokenNamesOfSequence ps

def Phrase.tokenNamesOfAlternatives : List (List Phrase) → List String
  | [] => []
  | ps :: rest => Phrase.tokenNamesOfSequence ps ++ Phrase.tokenNamesOfAlternatives rest

end

/-- The token names of a declaration in order of use. -/
def Declaration.tokenNames : Declaration → List String
  | .token name => [name]
  | .rule r => Phrase.tokenNamesOfAlternatives r.alternatives

namespace Description

/-- The rules in order. -/
def rules (d : Description) : List RuleDescription :=
  d.declarations.filterMap fun
    | .token _ => none
    | .rule r => some r

def tokenNames (d : Description) : List String := d.declarations.flatMap Declaration.tokenNames

end Description

end GrammarLookahead
