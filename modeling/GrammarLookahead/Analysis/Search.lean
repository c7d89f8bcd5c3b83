import GrammarLookahead.Analysis.Expansion
import GrammarLookahead.Analysis.Memory

/-!
The search for the least lookahead sets that agree with their expansions.

A search expands one key at a time, depth first, and suspends the expansion of a key while the
keys it asks for are expanded. A key that is met again while suspended is answered with its
provisional value, at first the empty set. The lowest suspended key of such a cycle repeats its
round until no provisional value has grown.

A result that was computed from a provisional value waits: it answers its key for the rest of the
round and is dropped when the round is repeated. Its floor is the number, counted from the bottom
of the stack, of the lowest suspended key it depends on. When the round of a key that depends on
nothing below has settled, its result and the results waiting for it are finished.
-/

namespace GrammarLookahead

/-- A round of expanding one key. -/
structure Round where
  key : Key
  /-- Whether the key was met again during the round. -/
  reentered : Bool := false
  /-- The number of the lowest suspended key whose provisional value the round depends on. -/
  floor : Option Nat := none
  /-- Whether a provisional value has grown that the round may have read before. -/
  unstable : Bool := false
  /-- The keys whose results wait for this round, in the order in which they were computed. -/
  waiting : List Key := []

/-- Notes that the round depends on the suspended key of a number. -/
def Round.lowerFloor (r : Round) (number : Nat) : Round :=
  { r with floor := some (r.floor.elim number (min number)) }

/-- A suspended round, and how it goes on with the answer it waits for. -/
structure Frame where
  round : Round
  resume : LookaheadSet → Reading LookaheadSet

def Frame.mapRound (f : Round → Round) (frame : Frame) : Frame :=
  { frame with round := f frame.round }

/-- What a search does next. -/
inductive Control where
  /-- Answers a key. -/
  | look (key : Key)
  /-- Goes on with a round. -/
  | run (round : Round) (reading : Reading LookaheadSet)
  /-- Hands an answer to the topmost suspended round, or out of the search if there is none. -/
  | answer (result : LookaheadSet)
  /-- Cannot go on. -/
  | broken (reason : Breakdown)

structure Search where
  control : Control
  /-- The suspended rounds, topmost first. -/
  stack : List Frame := []
  /-- Results that wait, with their floors. -/
  pending : Std.HashMap Key (LookaheadSet × Nat) := {}
  provisional : Std.HashMap Key LookaheadSet := {}
  memory : Memory

namespace Search

variable (g : Grammar) (s : Search)

/-- Applies a change to the topmost suspended round. -/
def mapTop (f : Round → Round) : Search :=
  { s with stack := s.stack.modifyHead (Frame.mapRound f) }

/-- Begins a round of expanding a key. -/
def begin (key : Key) : Search :=
  { s with control := .run { key } (g.expand key), memory := s.memory.countExpansion }

/-- Records the rule of a key that was met again if the key stands for the rule itself. -/
def noteLeftRecursion (m : Memory) (key : Key) : Memory :=
  match key.node, key.context with
  | .block id, .callSite =>
    match g.block? id with
    | some b => if b.kind = .rule then m.addLeftRecursive b.rule else m
    | none => m
  | _, _ => m

/-- Answers a suspended key, found at a position of the stack, with its provisional value. -/
def breakCycle (key : Key) (position : Nat) : Search :=
  let number := s.stack.length - 1 - position
  let marked := s.stack.modify position (Frame.mapRound fun r => { r with reentered := true })
  { { s with stack := marked }.mapTop (·.lowerFloor number) with
    control := .answer (s.provisional.getD key (.empty key.depth))
    memory := noteLeftRecursion g s.memory.countCycleBreak key }

/-- Answers a key: from the finished results, from those that wait, from its provisional value if
it is suspended, or else by expanding it. -/
def look (key : Key) : Search :=
  match s.memory.cache[key]? with
  | some result => { s with control := .answer result, memory := s.memory.countCacheHit }
  | none =>
    match s.pending[key]? with
    | some (result, floor) =>
      { s.mapTop (·.lowerFloor floor) with
        control := .answer result
        memory := s.memory.countCacheHit }
    | none =>
      match s.stack.findIdx? (·.round.key = key) with
      | some position => s.breakCycle g key position
      | none => s.begin g key

/-- Drops the results that wait for a round and begins the round again. -/
def again (round : Round) : Search :=
  { s with
    pending := round.waiting.foldl (·.erase ·) s.pending
    memory := s.memory.countFixpointIteration }.begin g round.key

/-- Finishes a result that waits. -/
def finishPending (key : Key) : Search :=
  match s.pending[key]? with
  | none => s
  | some (result, _) =>
    { s with
      pending := s.pending.erase key
      provisional := s.provisional.erase key
      memory := s.memory.finish key result }

/-- Finishes a round that depends on nothing below, together with the results waiting for it. -/
def commit (round : Round) (result : LookaheadSet) : Search :=
  let s := round.waiting.foldl finishPending s
  { s with
    control := .answer result
    provisional := s.provisional.erase round.key
    memory := s.memory.finish round.key result }

/-- Lets the result of a round wait for the suspended key of number `floor`, together with the
results that waited for the round. -/
def postpone (round : Round) (result : LookaheadSet) (unstable : Bool) (floor : Nat) : Search :=
  let lowered := round.waiting.foldl
    (fun p key => p.modify key fun (result, f) => (result, min f floor)) s.pending
  { s.mapTop fun below =>
      { below.lowerFloor floor with
        unstable := below.unstable || unstable
        waiting := below.waiting ++ round.waiting ++ [round.key] } with
    control := .answer result
    pending := lowered.insert round.key (result, floor)
    provisional := s.provisional.insert round.key result }

/-- Whether a result goes beyond the provisional value that was read for its key. -/
def grows (seed : Option LookaheadSet) (result : LookaheadSet) : Bool :=
  match seed with
  | none => !result.isEmpty
  | some seed => seed ≠ result

/-- Ends a round with its result. -/
def settle (round : Round) (result : LookaheadSet) : Search :=
  let grew := round.reentered && grows s.provisional[round.key]? result
  let unstable := round.unstable || grew
  let s :=
    if grew then { s with provisional := s.provisional.insert round.key result } else s
  match round.floor.filter (· < s.stack.length) with
  | some floor => s.postpone round result unstable floor
  | none => if unstable then s.again g round else s.commit round result

/-- One step of a search. -/
def step : Search :=
  match s.control with
  | .look key => s.look g key
  | .run round (.ask key resume) =>
    { s with control := .look key, stack := ⟨round, resume⟩ :: s.stack }
  | .run round (.done result) => s.settle g round result
  | .run _ (.broken reason) => { s with control := .broken reason }
  | .answer result =>
    match s.stack with
    | [] => s
    | frame :: below =>
      { s with control := .run frame.round (frame.resume result), stack := below }
  | .broken _ => s

/-- Whether a search has nothing left to do. -/
def isOver : Bool :=
  match s.control, s.stack with
  | .answer _, [] => true
  | .broken _, _ => true
  | _, _ => false

/-- Runs a search to its end, but at most for a number of steps. -/
def run : Nat → Search → Search
  | 0, s => s
  | n + 1, s => if s.isOver then s else run n (s.step g)

/-- What a search has come to. -/
def outcome : Except Breakdown LookaheadSet :=
  match s.control, s.stack with
  | .answer result, [] => .ok result
  | .broken reason, _ => .error reason
  | _, _ => .error .outOfSteps

/-- The number of keys with at most a depth. -/
def keyBound (depth : Nat) : Nat := 2 * depth * (g.elements.size + g.blocks.size)

/-- A bound on the members of a lookahead set of a depth. -/
def memberBound (depth : Nat) : Nat := 2 * Nat.pow (g.vocabulary.size + 1) depth

/-- A bound on the keys that one expansion asks for. -/
def readBound (depth : Nat) : Nat :=
  g.blocks.foldl (fun n b => n + b.alternatives.length) 0 + g.elements.size + depth + 2

/-- A bound on the steps of a search for a key of a depth. Each key is expanded at most once
between two repeated rounds, and every repeated round is due to a member that a provisional value
has gained. -/
def stepBound (depth : Nat) : Nat :=
  let keys := keyBound g depth
  (1 + keys * memberBound g depth) * (1 + keys) * (3 * readBound g depth + 3)

end Search

/-- The search for a key. -/
def Memory.search (m : Memory) (g : Grammar) (key : Key) : Search :=
  Search.run g (Search.stepBound g key.depth) { control := .look key, memory := m }

end GrammarLookahead
