import GrammarLookahead.LookaheadSet.Basic
import GrammarLookahead.Vocabulary

/-!
The written form of lookahead: token names separated by blanks, an unfinished sequence closed by a
marker, and a set as its members between braces.
-/

namespace GrammarLookahead

namespace TokenSeq

/-- What an unfinished sequence ends in. -/
def epsilonMark : String := "<epsilon>"

/-- A complete sequence: its tokens separated by blanks. -/
def render (ucd : Unicode) (v : Vocabulary) (s : TokenSeq) : String :=
  " ".intercalate (s.map (v.display ucd))

/-- An unfinished sequence: its tokens and the marker, separated by blanks. -/
def renderUnfinished (ucd : Unicode) (v : Vocabulary) (p : TokenSeq) : String :=
  " ".intercalate (p.map (v.display ucd) ++ [epsilonMark])

end TokenSeq

namespace LookaheadSet

/-- Every member, complete ones first, each kind in ascending order. -/
def render (ucd : Unicode) (v : Vocabulary) (a : LookaheadSet) : List String :=
  a.complete.toList.map (TokenSeq.render ucd v) ++
    a.unfinished.toList.map (TokenSeq.renderUnfinished ucd v)

/-- The members between braces, such as `{ID "=", <epsilon>}`. -/
def display (ucd : Unicode) (v : Vocabulary) (a : LookaheadSet) : String :=
  "\x7b" ++ ", ".intercalate (a.render ucd v) ++ "\x7d"

end LookaheadSet

end GrammarLookahead
