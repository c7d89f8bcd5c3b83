import Std.Data.HashMap
import GrammarLookahead.Analysis.Key
import GrammarLookahead.LookaheadSet.Basic

/-!
What an analysis keeps from one query to the next: finished results, the left-recursive rules met
so far, and counters of the work done.
-/

namespace GrammarLookahead

/-- The work done by an analysis. -/
structure Work where
  /-- Queries answered. -/
  queries : Nat := 0
  /-- Keys expanded; every round of a fixed point counts. -/
  expansions : Nat := 0
  /-- Keys answered without expansion, from finished results or from those of the current round. -/
  cacheHits : Nat := 0
  /-- Keys met again during their own expansion. -/
  cycleBreaks : Nat := 0
  /-- Rounds repeated because a provisional value had grown. -/
  fixpointIterations : Nat := 0
  deriving DecidableEq, Repr

structure Memory where
  cache : Std.HashMap Key LookaheadSet := {}
  /-- The rules found to reach themselves without consuming a token. -/
  leftRecursive : OrderedSet RuleId := .empty
  work : Work := {}

namespace Memory

/-- The number of finished results. -/
def cached (m : Memory) : Nat := m.cache.size

/-- Forgets results and left-recursive rules, but not the work done. -/
def clear (m : Memory) : Memory := { work := m.work }

def countQuery (m : Memory) : Memory :=
  { m with work := { m.work with queries := m.work.queries + 1 } }

def countExpansion (m : Memory) : Memory :=
  { m with work := { m.work with expansions := m.work.expansions + 1 } }

def countCacheHit (m : Memory) : Memory :=
  { m with work := { m.work with cacheHits := m.work.cacheHits + 1 } }

def countCycleBreak (m : Memory) : Memory :=
  { m with work := { m.work with cycleBreaks := m.work.cycleBreaks + 1 } }

def countFixpointIteration (m : Memory) : Memory :=
  { m with work := { m.work with fixpointIterations := m.work.fixpointIterations + 1 } }

/-- Keeps a finished result. -/
def finish (m : Memory) (key : Key) (result : LookaheadSet) : Memory :=
  { m with cache := m.cache.insert key result }

def addLeftRecursive (m : Memory) (rule : RuleId) : Memory :=
  { m with leftRecursive := m.leftRecursive.insert rule }

end Memory

end GrammarLookahead
