import GrammarLookahead.Proofs.Grammar.Containment
import GrammarLookahead.Report.Findings

/-!
Derivations of a grammar, as runs of a parser that guesses: every call and return, every branch that
is taken and every repetition of a loop is a move of its own. A return goes back behind the call on
top of the stack, and on a built grammar this is always a call of the rule that has ended.
-/

namespace GrammarLookahead

/-- One move of a derivation. -/
inductive Move where
  /-- Reads a token. -/
  | read (token : TokenId)
  /-- Enters a rule through a reference. -/
  | call
  /-- Goes on behind the reference that entered the rule. -/
  | back
  /-- Enters a block that stands inside an alternative. -/
  | enter
  /-- Takes a branch of a block: an alternative, or the exit by skipping the block or leaving a
  loop. -/
  | take (block : BlockId) (branch : Branch)
  /-- Goes from the end of a loop to its alternatives again. -/
  | again
  /-- Goes on behind a block that is no loop. -/
  | close
  deriving DecidableEq, Repr

namespace Move

def token? : Move → Option TokenId
  | read token => some token
  | _ => none

/-- The tokens that moves read. -/
def emitted (moves : List Move) : TokenSeq := moves.filterMap token?

theorem emitted_append (moves moves' : List Move) :
    emitted (moves ++ moves') = emitted moves ++ emitted moves' := List.filterMap_append

end Move

/-- Where a derivation stands, and the references behind which it has to go on. -/
structure Stance where
  node : Node
  calls : List ElementId
  deriving DecidableEq, Repr

namespace Grammar

variable (g : Grammar)

/-- The moves that a grammar allows. -/
inductive Step : Stance → Move → Stance → Prop where
  | read {id n : ElementId} {e : Element} {t : TokenId} {calls : List ElementId}
      (he : g.element? id = some e) (ht : t ∈ g.tokensOf e.kind) (hn : e.next = some n) :
      Step ⟨.element id, calls⟩ (.read t) ⟨.element n, calls⟩
  | call {id : ElementId} {e : Element} {name : String} {target : RuleId} {r : Rule}
      {calls : List ElementId} (he : g.element? id = some e)
      (hk : e.kind = .reference name target) (hr : g.rule? target = some r) :
      Step ⟨.element id, calls⟩ .call ⟨.block r.block, id :: calls⟩
  | back {id site n : ElementId} {e : Element} {target : RuleId} {calls : List ElementId}
      (he : g.element? id = some e) (hk : e.kind = .ruleEnd target)
      (hn : g.next? site = some n) :
      Step ⟨.element id, site :: calls⟩ .back ⟨.element n, calls⟩
  | enter {id : ElementId} {e : Element} {b : BlockId} {calls : List ElementId}
      (he : g.element? id = some e) (hk : e.kind = .nested b ∨ e.kind = .loop b) :
      Step ⟨.element id, calls⟩ .enter ⟨.block b, calls⟩
  | alternative {b : BlockId} {blk : Block} {index : Nat} {a : Alternative}
      {calls : List ElementId} (hb : g.block? b = some blk)
      (ha : blk.alternatives[index]? = some a) :
      Step ⟨.block b, calls⟩ (.take b (.alternative index)) ⟨.element a.first, calls⟩
  | skip {b : BlockId} {blk : Block} {calls : List ElementId} (hb : g.block? b = some blk)
      (hskip : blk.kind.canSkip = true) :
      Step ⟨.block b, calls⟩ (.take b .exit) ⟨.element (g.exitTarget blk), calls⟩
  | leave {id : ElementId} {e : Element} {b : BlockId} {blk : Block} {calls : List ElementId}
      (he : g.element? id = some e) (hk : e.kind = .blockEnd b) (hb : g.block? b = some blk)
      (hloop : blk.kind.isLoop = true) :
      Step ⟨.element id, calls⟩ (.take b .exit) ⟨.element (g.exitTarget blk), calls⟩
  | again {id : ElementId} {e : Element} {b : BlockId} {blk : Block} {calls : List ElementId}
      (he : g.element? id = some e) (hk : e.kind = .blockEnd b) (hb : g.block? b = some blk)
      (hloop : blk.kind.isLoop = true) :
      Step ⟨.element id, calls⟩ .again ⟨.block b, calls⟩
  | close {id : ElementId} {e : Element} {b : BlockId} {blk : Block} {calls : List ElementId}
      (he : g.element? id = some e) (hk : e.kind = .blockEnd b) (hb : g.block? b = some blk)
      (hloop : blk.kind.isLoop = false) :
      Step ⟨.element id, calls⟩ .close ⟨.element (g.exitTarget blk), calls⟩

/-- Moves one after the other. -/
inductive Run : Stance → List Move → Stance → Prop where
  | nil {s : Stance} : Run s [] s
  | cons {s t u : Stance} {move : Move} {moves : List Move} (hstep : g.Step s move t)
      (hrest : Run t moves u) : Run s (move :: moves) u

/-- A derivation from a rule: it begins with the alternatives of the rule and ends at its
terminator, with every call returned. -/
def Derives (r : Rule) (moves : List Move) : Prop :=
  g.Run ⟨.block r.block, []⟩ moves ⟨.element r.terminator, []⟩

/-- Every call on the stack is a call of the rule that control is in. -/
def Nested : Node → List ElementId → Prop
  | _, [] => True
  | node, site :: calls =>
    (∃ target r, g.ruleOf? node = some target ∧ g.rule? target = some r ∧ site ∈ r.callers) ∧
      Nested (.element site) calls

variable {g} {s t u : Stance} {move : Move} {moves before after : List Move}

theorem Run.append_inv (h : g.Run s (before ++ after) u) :
    ∃ t, g.Run s before t ∧ g.Run t after u := by
  induction before generalizing s with
  | nil => exact ⟨s, .nil, h⟩
  | cons move before ih =>
    cases h with
    | cons hstep hrest =>
      obtain ⟨t, hbefore, hafter⟩ := ih hrest
      exact ⟨t, .cons hstep hbefore, hafter⟩

/-- Nesting depends on the rule of a node only. -/
theorem Nested.of_ruleOf?_eq {node node' : Node} {calls : List ElementId}
    (h : g.Nested node calls) (hrule : g.ruleOf? node' = g.ruleOf? node) :
    g.Nested node' calls := by
  cases calls with
  | nil => trivial
  | cons site calls =>
    unfold Nested
    rw [hrule]
    exact h

namespace Linked

variable (hg : g.Linked)
include hg

/-- One move keeps calls nested. -/
theorem nested_step (hstep : g.Step s move t) (h : g.Nested s.node s.calls) :
    g.Nested t.node t.calls := by
  cases hstep with
  | read he ht hn => exact h.of_ruleOf?_eq (hg.ruleOf?_next (by rw [next?, he]; exact hn))
  | @call id e name target r calls he hk hr =>
    refine ⟨⟨target, r, hg.ruleOf?_ruleBlock hr, hr, ?_⟩, h⟩
    exact ((hg.rule hr).callers id).2 ⟨e, he, by rw [hk, ElementKind.target?]⟩
  | back he hk hn =>
    obtain ⟨-, hcalls⟩ := h
    exact hcalls.of_ruleOf?_eq (hg.ruleOf?_next hn)
  | enter he hk => exact h.of_ruleOf?_eq (hg.ruleOf?_inner he hk)
  | alternative hb ha => exact h.of_ruleOf?_eq (hg.ruleOf?_first hb (List.mem_of_getElem? ha))
  | skip hb hskip => exact h.of_ruleOf?_eq (hg.ruleOf?_exitTarget hb)
  | leave he hk hb hloop =>
    exact h.of_ruleOf?_eq ((hg.ruleOf?_exitTarget hb).trans (hg.ruleOf?_blockEnd he hk).symm)
  | again he hk hb hloop => exact h.of_ruleOf?_eq (hg.ruleOf?_blockEnd he hk).symm
  | close he hk hb hloop =>
    exact h.of_ruleOf?_eq ((hg.ruleOf?_exitTarget hb).trans (hg.ruleOf?_blockEnd he hk).symm)

theorem nested_run (hrun : g.Run s moves t) (h : g.Nested s.node s.calls) :
    g.Nested t.node t.calls := by
  induction hrun with
  | nil => exact h
  | cons hstep hrest ih => exact ih (hg.nested_step hstep h)

/-- The call behind which a derivation goes on at the end of a rule is a call of that rule. -/
theorem caller_of_ruleEnd {id site : ElementId} {e : Element} {target : RuleId} {r : Rule}
    {calls : List ElementId} (h : g.Nested (.element id) (site :: calls))
    (he : g.element? id = some e) (hk : e.kind = .ruleEnd target) (hr : g.rule? target = some r) :
    site ∈ r.callers := by
  obtain ⟨⟨target', r', htarget, hr', hsite⟩, -⟩ := h
  have heq : target = target' := Option.some.inj ((hg.ruleOf?_ruleEnd he hk).symm.trans htarget)
  have hrule : r = r' := Option.some.inj (hr.symm.trans (heq ▸ hr'))
  rw [hrule]
  exact hsite

end Linked

end Grammar

end GrammarLookahead
