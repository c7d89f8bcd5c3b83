import GrammarLookahead.Proofs.Parsing.Derivation
import GrammarLookahead.Proofs.Parsing.Passage

/-!
Lookahead foresees derivations: at every point of a derivation from a rule at which a parser may be
started, the tokens that are still to be read, followed by the end of input, can be seen from there
at every depth. The tokens up to the end of the current rule are what its caller sees of it, which
is what a call passes on. Main statement: `Linked.shows_of_derives`.
-/

namespace GrammarLookahead.Grammar

variable (g : Grammar)

/-- The tokens that are still to be read can be seen from a node, up to the end of its rule from
inside the rule and all of them with what follows the rule anywhere, and the same holds behind
every call on the stack. -/
inductive Foreseen : Node → List ElementId → TokenSeq → Prop where
  | outermost {node : Node} {u : TokenSeq}
      (hhere : g.Shows (some node) .callSite (.unfinished u))
      (hall : g.Shows (some node) .everywhere (.complete (u ++ [.eof]))) : Foreseen node [] u
  | called {node : Node} {site n : ElementId} {calls : List ElementId} {u v : TokenSeq}
      (hhere : g.Shows (some node) .callSite (.unfinished u))
      (hall : g.Shows (some node) .everywhere (.complete (u ++ v ++ [.eof])))
      (hn : g.next? site = some n) (hrest : Foreseen (.element n) calls v) :
      Foreseen node (site :: calls) (u ++ v)

variable {g} {node node' : Node} {calls : List ElementId} {u w : TokenSeq}

namespace Foreseen

theorem everywhere (h : g.Foreseen node calls w) :
    g.Shows (some node) .everywhere (.complete (w ++ [.eof])) := by
  cases h with
  | outermost hhere hall => exact hall
  | called hhere hall hn hrest => exact hall

/-- What is seen from the end of a passage is seen from its beginning, behind its tokens. -/
theorem prepend (h : g.Foreseen node calls w)
    (hpass : ∀ c, g.Passes c (some node') u (some node)) : g.Foreseen node' calls (u ++ w) := by
  cases h with
  | outermost hhere hall =>
    have hall' := Shows.prepend (hpass .everywhere) hall
    rw [Member.prepend, ← List.append_assoc] at hall'
    exact .outermost (Shows.prepend (hpass .callSite) hhere) hall'
  | called hhere hall hn hrest =>
    have hall' := Shows.prepend (hpass .everywhere) hall
    rw [Member.prepend, ← List.append_assoc, ← List.append_assoc] at hall'
    rw [← List.append_assoc]
    exact .called (Shows.prepend (hpass .callSite) hhere) hall' hn hrest

end Foreseen

namespace Linked

variable (hg : g.Linked) {s t : Stance} {move : Move} {moves before after : List Move} {r : Rule}
include hg

/-- Before one move, what is still to be read can be seen if it can be seen after the move. -/
theorem foreseen_step (hstep : g.Step s move t) (hnested : g.Nested s.node s.calls)
    (h : g.Foreseen t.node t.calls w) :
    g.Foreseen s.node s.calls (Move.emitted [move] ++ w) := by
  cases hstep with
  | read he ht hn => exact h.prepend fun c => .token he ht hn
  | @call id e name target r calls he hk hr =>
    cases h with
    | called hhere hall hn hrest =>
      rw [next?, he, Option.bind_some] at hn
      exact hrest.prepend fun c => .reference he hk hr hn hhere
  | @back id site n e target calls he hk hn =>
    obtain ⟨r, hr, -⟩ := hg.ruleEnd he hk
    have hsite := hg.caller_of_ruleEnd hnested he hk hr
    refine .called (u := []) (Shows.ended he hk) (fun d hd => ?_) hn h
    refine .followed he hk hr hsite ?_
    rw [hn]
    exact h.everywhere d hd
  | enter he hk => exact h.prepend fun c => .of_sees fun hs => .entered he hk hs
  | @alternative b blk index a calls hb ha =>
    refine h.prepend fun c => .of_sees fun hs => .branch hb ?_ hs
    unfold entries
    rw [List.mem_append]
    exact Or.inl (List.mem_map_of_mem (List.mem_of_getElem? ha))
  | @skip b blk calls hb hskip =>
    refine h.prepend fun c => .of_sees fun hs => .branch hb ?_ hs
    unfold entries
    rw [if_pos hskip, List.mem_append]
    exact Or.inr (List.mem_singleton_self _)
  | leave he hk hb hloop => exact h.prepend fun c => .of_sees fun hs => .left he hk hb hs
  | again he hk hb hloop => exact h.prepend fun c => .of_sees fun hs => .repeated he hk hb hloop hs
  | close he hk hb hloop => exact h.prepend fun c => .of_sees fun hs => .left he hk hb hs

theorem foreseen_run (hrun : g.Run s moves t) (hnested : g.Nested s.node s.calls)
    (hend : g.Foreseen t.node t.calls []) : g.Foreseen s.node s.calls (Move.emitted moves) := by
  induction hrun with
  | nil => exact hend
  | @cons s t u move moves hstep hrest ih =>
    have hafter := ih (hg.nested_step hstep hnested) hend
    rw [← List.singleton_append, Move.emitted_append]
    exact hg.foreseen_step hstep hnested hafter

/-- At the end of a rule at which a parser may be started, the end of input is seen. -/
theorem foreseen_terminator {target : RuleId} (hr : g.rule? target = some r)
    (hentry : r.entry = true ∨ r.callers.isEmpty = true) :
    g.Foreseen (.element r.terminator) [] [] := by
  obtain ⟨e, he, hk, -⟩ := (hg.rule hr).terminator
  exact .outermost (Shows.ended he hk) (Shows.endOfInput he hk hr hentry)

/-- Wherever a derivation from a rule at which a parser may be started has come to, the rest of its
tokens and the end of input can be seen from there. -/
theorem shows_of_derives {target : RuleId} (hr : g.rule? target = some r)
    (hentry : r.entry = true ∨ r.callers.isEmpty = true) (h : g.Derives r (before ++ after)) :
    ∃ s, g.Run ⟨.block r.block, []⟩ before s ∧ g.Run s after ⟨.element r.terminator, []⟩ ∧
      g.Shows (some s.node) .everywhere (.complete (Move.emitted after ++ [.eof])) := by
  obtain ⟨s, hbefore, hafter⟩ := h.append_inv
  have hnested : g.Nested s.node s.calls := hg.nested_run hbefore trivial
  have hforeseen := hg.foreseen_run hafter hnested (hg.foreseen_terminator hr hentry)
  exact ⟨s, hbefore, hafter, hforeseen.everywhere⟩

end Linked

end GrammarLookahead.Grammar
