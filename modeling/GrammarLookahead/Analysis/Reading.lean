import GrammarLookahead.Analysis.Key
import GrammarLookahead.LookaheadSet.Basic

/-!
Readings: computations that ask for the lookahead of keys one after the other. What a key stands
for is written once as a reading; a search may answer its questions with values that still grow,
and `Reading.eval` answers them from a fixed family of sets.
-/

namespace GrammarLookahead

/-- Why a computation of lookahead cannot go on. On a built grammar none of these arises. -/
inductive Breakdown where
  | missingNode (node : Node)
  | missingRule (rule : RuleId)
  /-- A token was to be read with no depth left. -/
  | noDepthLeft
  | shallowOperand (e : ShallowOperand)
  /-- The search did not end within its bound. -/
  | outOfSteps
  deriving DecidableEq, Repr

def Breakdown.message : Breakdown → String
  | .missingNode node => s!"node {node.longName} is missing"
  | .missingRule rule => s!"rule {rule.shortName} is missing"
  | .noDepthLeft => "no lookahead depth is left"
  | .shallowOperand e => e.message
  | .outOfSteps => "the search did not end"

/-- A computation that may ask for the lookahead of keys. -/
inductive Reading (α : Type) where
  | done (value : α)
  | ask (key : Key) (go : LookaheadSet → Reading α)
  | broken (reason : Breakdown)

namespace Reading

variable {α β : Type}

def bind : Reading α → (α → Reading β) → Reading β
  | .done a, f => f a
  | .ask key go, f => .ask key fun answer => (go answer).bind f
  | .broken reason, _ => .broken reason

instance : Monad Reading where
  pure := .done
  bind := bind

/-- Asks for one key. -/
def look (key : Key) : Reading LookaheadSet := .ask key .done

/-- The union of two sets, broken if the second is too shallow. -/
def join (a b : LookaheadSet) : Reading LookaheadSet :=
  match a.union b with
  | .ok c => .done c
  | .error e => .broken (.shallowOperand e)

/-- Joins what several readings yield, in order. -/
def joinAll (start : LookaheadSet) (parts : List (Reading LookaheadSet)) : Reading LookaheadSet :=
  parts.foldlM (fun a part => do join a (← part)) start

/-- The value of a reading whose questions a family of sets answers. -/
def eval (family : Key → LookaheadSet) : Reading α → Except Breakdown α
  | .done a => .ok a
  | .ask key go => (go (family key)).eval family
  | .broken reason => .error reason

end Reading

end GrammarLookahead
