import GrammarLookahead.Analysis.Reading
import GrammarLookahead.Grammar.Graph

/-!
What a key stands for, in terms of the keys one step further: a token is followed by what comes
behind it with one token less, a reference by the rule it calls, a block by its alternatives, and
the end of a rule by what follows its calls.
-/

namespace GrammarLookahead.Grammar

open LookaheadSet (empty epsilon ofSequences)

variable (g : Grammar)

/-- What is seen from the element behind a place; behind nothing, the rest is left open. -/
def ahead (next : Option ElementId) (depth : Nat) (context : Context) : Reading LookaheadSet :=
  match next with
  | some id => .look (.element id depth context)
  | none => .done (epsilon depth)

/-- One of several tokens, followed by what is seen behind them with one token less. The tokens
stand alone when nothing more is visible: at depth one and at the end of input. -/
def expandTokens (tokens : List TokenId) (next : Option ElementId) (depth : Nat)
    (context : Context) : Reading LookaheadSet :=
  if depth = 1 ∨ tokens.all TokenId.isEof then .done (ofSequences depth (tokens.map ([·])))
  else if depth = 0 then .broken .noDepthLeft
  else do
    let tail ← ahead next (depth - 1) context
    tokens.foldlM
      (fun a t => if t.isEof then .done (a.insert [t]) else .join a (tail.prepend t)) (empty depth)

/-- The rule that is called, continued behind the call wherever the rule can end early. -/
def expandReference (target : RuleId) (next : Option ElementId) (depth : Nat)
    (context : Context) : Reading LookaheadSet :=
  match g.rule? target with
  | none => .broken (.missingRule target)
  | some rule => do
    let head ← .look (.block rule.block depth .callSite)
    let tails ← head.missingDepths.toList.mapM fun d => do return (d, ← ahead next d context)
    return head.splice fun d => tails.lookup d

/-- Everything that follows a rule at its calls, and the end of input if a parser may be started
at the rule or nothing calls it. -/
def expandFollow (rule : RuleId) (depth : Nat) : Reading LookaheadSet :=
  match g.rule? rule with
  | none => .broken (.missingRule rule)
  | some r =>
    .joinAll (if r.entry ∨ r.callers.isEmpty then (empty depth).insert [.eof] else empty depth)
      (r.callers.map fun site => ahead (g.next? site) depth .everywhere)

/-- The alternatives of a block and, if control may pass it by, what is seen behind it. -/
def expandBlock (id : BlockId) (depth : Nat) (context : Context) : Reading LookaheadSet :=
  match g.block? id with
  | none => .broken (.missingNode (.block id))
  | some b =>
    let exits := if b.kind.canSkip then [g.exitTarget b] else []
    .joinAll (empty depth)
      ((b.alternatives.map (·.first) ++ exits).map fun e => .look (.element e depth context))

/-- What is seen behind a nested block and, if it is a loop, in its alternatives again. -/
def expandBlockEnd (id : BlockId) (depth : Nat) (context : Context) : Reading LookaheadSet :=
  match g.block? id with
  | none => .broken (.missingNode (.block id))
  | some b => do
    let exit ← .look (.element (g.exitTarget b) depth context)
    if b.kind.isLoop then .join exit (← .look (.block id depth context)) else return exit

def expandElement (id : ElementId) (depth : Nat) (context : Context) : Reading LookaheadSet :=
  match g.element? id with
  | none => .broken (.missingNode (.element id))
  | some e =>
    match e.kind with
    | .terminal t => expandTokens [t] e.next depth context
    | .wildcard => expandTokens g.vocabulary.matchable e.next depth context
    | .notTerminal t =>
      expandTokens (g.vocabulary.matchable.filter (· ≠ t)) e.next depth context
    | .reference _ target => g.expandReference target e.next depth context
    | .nested b | .loop b => .look (.block b depth context)
    | .blockEnd b => g.expandBlockEnd b depth context
    | .ruleEnd r =>
      match context with
      | .callSite => .done (epsilon depth)
      | .everywhere => g.expandFollow r depth

/-- What a key stands for. -/
def expand (key : Key) : Reading LookaheadSet :=
  match key.node with
  | .block id => g.expandBlock id key.depth key.context
  | .element id => g.expandElement id key.depth key.context

end GrammarLookahead.Grammar
