import GrammarLookahead.Proofs.Analysis.Equations

/-!
The rule that a node belongs to. Control leaves a rule through a reference or through its end only:
every other link stays inside the rule.
-/

namespace GrammarLookahead.Grammar

/-- The rule whose contents hold a node. -/
def ruleOf? (g : Grammar) : Node → Option RuleId
  | .block id => (g.block? id).map (·.rule)
  | .element id => (g.element? id).bind fun e => (g.block? e.block).map (·.rule)

variable {g : Grammar} {id n : ElementId} {e : Element} {b : BlockId} {blk : Block}

theorem ruleOf?_block (hb : g.block? b = some blk) : g.ruleOf? (.block b) = some blk.rule := by
  rw [ruleOf?, hb, Option.map_some]

/-- An element belongs to the rule of the block that it lies in. -/
theorem ruleOf?_element (he : g.element? id = some e) :
    g.ruleOf? (.element id) = g.ruleOf? (.block e.block) := by
  simp only [ruleOf?, he, Option.bind_some]

namespace Linked

variable (h : g.Linked)
include h

theorem ruleOf?_next (hn : g.next? id = some n) :
    g.ruleOf? (.element n) = g.ruleOf? (.element id) := by
  obtain ⟨e, he, hn⟩ := Option.bind_eq_some_iff.1 hn
  obtain ⟨e', he', hblock⟩ := (h.element he).next n hn
  rw [ruleOf?_element he, ruleOf?_element he', hblock]

theorem ruleOf?_inner (he : g.element? id = some e) (hk : e.kind = .nested b ∨ e.kind = .loop b) :
    g.ruleOf? (.block b) = g.ruleOf? (.element id) := by
  obtain ⟨inner, outer, hinner, houter, hrule, -⟩ := h.inner he hk
  rw [ruleOf?_element he, ruleOf?_block hinner, ruleOf?_block houter, hrule]

theorem ruleOf?_first (hb : g.block? b = some blk) {a : Alternative} (ha : a ∈ blk.alternatives) :
    g.ruleOf? (.element a.first) = g.ruleOf? (.block b) := by
  obtain ⟨e, he, rfl⟩ := (h.block hb).first a ha
  exact ruleOf?_element he

theorem ruleOf?_exitTarget (hb : g.block? b = some blk) :
    g.ruleOf? (.element (g.exitTarget blk)) = g.ruleOf? (.block b) := by
  cases hx : g.exit? blk with
  | some n =>
    obtain ⟨owner, howner, hn⟩ := Option.bind_eq_some_iff.1 hx
    obtain ⟨e, outer, he, houter, hrule⟩ := (h.block hb).owner owner howner
    rw [exitTarget, hx, Option.getD_some, h.ruleOf?_next hn, ruleOf?_element he,
      ruleOf?_block houter, ruleOf?_block hb, hrule]
  | none =>
    obtain ⟨e, he, rfl⟩ := (h.block hb).terminator
    unfold exitTarget
    rw [hx, Option.getD_none]
    exact ruleOf?_element he

theorem ruleOf?_blockEnd (he : g.element? id = some e) (hk : e.kind = .blockEnd b) :
    g.ruleOf? (.element id) = g.ruleOf? (.block b) := by
  have hkind := (h.element he).kind
  rw [hk] at hkind
  obtain rfl : e.block = b := hkind
  exact ruleOf?_element he

theorem ruleOf?_ruleBlock {target : RuleId} {r : Rule} (hr : g.rule? target = some r) :
    g.ruleOf? (.block r.block) = some target := by
  obtain ⟨blk, hb, -, hrule⟩ := (h.rule hr).block
  rw [ruleOf?_block hb, hrule]

theorem ruleOf?_ruleEnd (he : g.element? id = some e) {target : RuleId}
    (hk : e.kind = .ruleEnd target) : g.ruleOf? (.element id) = some target := by
  obtain ⟨r, hr, hblock⟩ := h.ruleEnd he hk
  rw [ruleOf?_element he, ← hblock]
  exact h.ruleOf?_ruleBlock hr

end Linked

end GrammarLookahead.Grammar
