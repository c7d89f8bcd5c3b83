import GrammarLookahead.Grammar.Fault
import GrammarLookahead.Grammar.Graph

/-!
Validation of a linked graph: every rule and every nested block has an alternative, and every
alternative leads through elements of its own block to the terminator of that block.
-/

namespace GrammarLookahead.Grammar

variable (g : Grammar)

/-- Follows a sequence of block `id` to the terminator for at most `budget` elements more. -/
def walk (id : BlockId) (terminator : ElementId) : Nat → ElementId → Option DeadEndReason
  | budget, current =>
    if current = terminator then none
    else
      match g.element? current with
      | none => some .leavesBlock
      | some e =>
        if e.block ≠ id ∨ e.kind.isTerminator then some .leavesBlock
        else
          match e.next, budget with
          | none, _ => some .stopsEarly
          | some _, 0 => some .loopsBack
          | some next, budget + 1 => walk id terminator budget next

/-- The first alternative of a block that does not lead to its terminator. -/
def sequenceFault (id : BlockId) (b : Block) : Option GrammarFault :=
  b.alternatives.zipIdx.findSome? fun (a, i) =>
    (g.walk id b.terminator g.elements.size a.first).map (.deadEnd (g.ruleNameOf id) i)

/-- The block around a nested block, and which of its alternatives holds the nested block. -/
def ownerPosition (id : BlockId) (b : Block) : BlockId × Nat :=
  match b.owner with
  | none => (id, 0)
  | some owner =>
    let parent := (g.element? owner).elim id (·.block)
    let alternatives := (g.block? parent).elim [] (·.alternatives)
    (parent, (alternatives.findIdx? fun a => owner ∈ a.elements).getD 0)

/-- The fault of a block, if it has one. -/
def blockFault (id : BlockId) (b : Block) : Option GrammarFault :=
  if b.kind ≠ .rule ∧ b.alternatives.isEmpty then
    let (parent, alternative) := g.ownerPosition id b
    some (.deadEnd (g.ruleNameOf parent) alternative .emptyBlock)
  else g.sequenceFault id b

/-- The first rule without alternatives. -/
def emptyRule : Option GrammarFault :=
  g.rules.toList.findSome? fun r =>
    match g.block? r.block with
    | some b => if b.alternatives.isEmpty then some (.emptyRule r.name) else none
    | none => none

/-- The first fault of the graph: rules without alternatives come before blocks. -/
def fault? : Option GrammarFault :=
  g.emptyRule.or (g.blocks.toList.zipIdx.findSome? fun (b, i) => g.blockFault ⟨i⟩ b)

end GrammarLookahead.Grammar
