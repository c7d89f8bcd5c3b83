import GrammarLookahead.Handle
import GrammarLookahead.OrderedSet

/-!
Lookahead sets: what can be seen from a point in a grammar, looking a bounded number of tokens
ahead. Complete members fill the depth or end at the end of input; unfinished members stop early
where the lookahead leaves the rule it started in, and whoever called the rule decides how they go
on.
-/

namespace GrammarLookahead

/-- A sequence of upcoming tokens. -/
abbrev TokenSeq := List TokenId

namespace TokenSeq

/-- Drops what stands behind the first end of input: nothing can follow it. -/
def cutAtEof : TokenSeq → TokenSeq
  | [] => []
  | t :: s => if t.isEof then [t] else t :: cutAtEof s

/-- The part of a sequence that a lookahead of the given depth sees. -/
def clip (depth : Nat) (s : TokenSeq) : TokenSeq := (cutAtEof s).take depth

end TokenSeq

/-- The token sequences that can be seen from a point, at most `depth` tokens long. -/
structure LookaheadSet where
  depth : Nat
  complete : OrderedSet TokenSeq
  unfinished : OrderedSet TokenSeq
  deriving DecidableEq, Repr

/-- A union was asked for with an operand that looks less far ahead than the set it joins. -/
structure ShallowOperand where
  operand : Nat
  target : Nat
  deriving DecidableEq, Repr

def ShallowOperand.message (e : ShallowOperand) : String :=
  s!"union of a depth {e.operand} set into a depth {e.target} set"

namespace LookaheadSet

/-- The set without members: nothing can be seen here. -/
def empty (depth : Nat) : LookaheadSet := ⟨depth, ∅, ∅⟩

/-- Adds a complete sequence, clipped to the depth. -/
def insert (a : LookaheadSet) (s : TokenSeq) : LookaheadSet :=
  { a with complete := a.complete.insert (TokenSeq.clip a.depth s) }

/-- Adds an unfinished sequence. One that fills the depth or holds the end of input is complete. -/
def insertUnfinished (a : LookaheadSet) (p : TokenSeq) : LookaheadSet :=
  if a.depth ≤ p.length ∨ p.any TokenId.isEof then a.insert p
  else { a with unfinished := a.unfinished.insert p }

/-- The set of given complete and unfinished sequences. Insertion begins with the last sequence, so
that members in ascending order are each put in front. -/
def ofMembers (depth : Nat) (complete unfinished : List TokenSeq) : LookaheadSet :=
  unfinished.foldr (fun p a => a.insertUnfinished p)
    (complete.foldr (fun s a => a.insert s) (empty depth))

/-- The set whose only member is the empty unfinished sequence. -/
def epsilon (depth : Nat) : LookaheadSet := (empty depth).insertUnfinished []

def singleton (depth : Nat) (s : TokenSeq) : LookaheadSet := (empty depth).insert s

def ofSequences (depth : Nat) (ss : List TokenSeq) : LookaheadSet := ofMembers depth ss []

/-- The number of members of both kinds. -/
def size (a : LookaheadSet) : Nat := a.complete.size + a.unfinished.size

def isEmpty (a : LookaheadSet) : Bool := a.complete.isEmpty && a.unfinished.isEmpty

/-- Whether some member depends on what follows the call. -/
def hasUnfinished (a : LookaheadSet) : Bool := !a.unfinished.isEmpty

/-- Whether the point may match nothing at all. -/
def isNullable (a : LookaheadSet) : Bool := [] ∈ a.unfinished

/-- Joins the members of another set as they are. -/
def addMembers (a b : LookaheadSet) : LookaheadSet :=
  { a with complete := a.complete ∪ b.complete, unfinished := a.unfinished ∪ b.unfinished }

/-- Joins the members of a set that looks at least as far ahead. -/
def absorb (a b : LookaheadSet) : LookaheadSet :=
  if b.depth = a.depth then a.addMembers b
  else a.addMembers (ofMembers a.depth b.complete.toList b.unfinished.toList)

/-- The union at the depth of the first set. The second has to look at least as far ahead: a short
complete sequence of a shallower set says nothing about the tokens behind it. -/
def union (a b : LookaheadSet) : Except ShallowOperand LookaheadSet :=
  if a.depth ≤ b.depth then .ok (a.absorb b) else .error ⟨b.depth, a.depth⟩

/-- Puts a token in front of every member; behind the end of input nothing is seen. -/
def prepend (a : LookaheadSet) (t : TokenId) : LookaheadSet :=
  if t.isEof then singleton (a.depth + 1) [t]
  else ofMembers (a.depth + 1) (a.complete.toList.map (t :: ·)) (a.unfinished.toList.map (t :: ·))

/-- How many tokens an unfinished member still lacks. -/
def missing (a : LookaheadSet) (p : TokenSeq) : Nat := a.depth - p.length

/-- The depths at which the unfinished members need a continuation. -/
def missingDepths (a : LookaheadSet) : OrderedSet Nat :=
  .ofList (a.unfinished.toList.map a.missing)

/-- An unfinished sequence continued with the members of its tail, or kept without a tail. -/
def continuations (depth : Nat) (p : TokenSeq) : Option LookaheadSet → LookaheadSet
  | none => ⟨depth, ∅, .ofList [p]⟩
  | some tail =>
    ofMembers depth (tail.complete.toList.map (p ++ ·)) (tail.unfinished.toList.map (p ++ ·))

/-- Continues every unfinished member with the tail for the number of tokens it lacks. -/
def splice (a : LookaheadSet) (tails : Nat → Option LookaheadSet) : LookaheadSet :=
  let continued := a.unfinished.toList.foldr
    (fun p r => (continuations a.depth p (tails (a.missing p))).addMembers r) (empty a.depth)
  { continued with complete := a.complete ∪ continued.complete }

/-- The sequences that begin with one of the given ones. -/
def extensions (starts ss : OrderedSet TokenSeq) : OrderedSet TokenSeq :=
  ss.filter fun s => starts.toList.any fun p => p.isPrefixOf s

/-- The members that both sets can see. Complete members are shared when they are equal; an
unfinished member shares whatever the other set has that begins with it. -/
def intersection (a b : LookaheadSet) : LookaheadSet :=
  let complete := a.complete.inter b.complete ∪
    (extensions a.unfinished b.complete ∪ extensions b.unfinished a.complete)
  let unfinished := extensions a.unfinished b.unfinished ∪ extensions b.unfinished a.unfinished
  ofMembers (max a.depth b.depth) complete.toList unfinished.toList

/-- Whether no member of one set can be seen by the other. -/
def isDisjoint (a b : LookaheadSet) : Bool :=
  (a.complete.inter b.complete).isEmpty &&
    ((a.unfinished.isEmpty && b.unfinished.isEmpty) || (a.intersection b).isEmpty)

/-- The same lookahead seen fewer tokens ahead. -/
def truncate (a : LookaheadSet) (depth : Nat) : LookaheadSet :=
  (empty (min depth a.depth)).absorb a

/-- The length of the longest member. -/
def longest (a : LookaheadSet) : Nat :=
  ((a.complete.toList ++ a.unfinished.toList).map List.length).foldl max 0

/-- Keeps the first members, complete ones first. -/
def cap (a : LookaheadSet) (most : Nat) : LookaheadSet :=
  if a.size ≤ most then a
  else ofMembers a.depth (a.complete.toList.take most)
    (a.unfinished.toList.take (most - a.complete.size))

theorem depth_insertUnfinished (a : LookaheadSet) (p : TokenSeq) :
    (a.insertUnfinished p).depth = a.depth := by
  unfold insertUnfinished
  split <;> rfl

theorem depth_ofMembers (depth : Nat) (complete unfinished : List TokenSeq) :
    (ofMembers depth complete unfinished).depth = depth := by
  unfold ofMembers
  induction unfinished with
  | nil =>
    induction complete with
    | nil => rfl
    | cons s ss ih => exact ih
  | cons p ps ih => exact (depth_insertUnfinished _ p).trans ih

end LookaheadSet

end GrammarLookahead
