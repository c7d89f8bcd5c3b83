import GrammarLookahead.Proofs.Grammar.Containment

/-!
Left recursion. A walk that consumes no token goes into blocks and into the rules that are called,
leaves blocks, and passes by a call of a rule that can be empty. A rule is left-recursive if such a
walk leads from its block back to it.
-/

namespace GrammarLookahead.Grammar

section Walks

variable (g : Grammar) (nullable : Rule → Prop)

/-- One step of a walk that consumes no token. -/
inductive LeftStep : Node → Node → Prop where
  | branch {id : BlockId} {b : Block} {n : ElementId} (hb : g.block? id = some b)
      (hn : n ∈ g.entries b) : LeftStep (.block id) (.element n)
  | call {id : ElementId} {e : Element} {name : String} {target : RuleId} {r : Rule}
      (he : g.element? id = some e) (hk : e.kind = .reference name target)
      (hr : g.rule? target = some r) : LeftStep (.element id) (.block r.block)
  | pass {id n : ElementId} {e : Element} {name : String} {target : RuleId} {r : Rule}
      (he : g.element? id = some e) (hk : e.kind = .reference name target)
      (hr : g.rule? target = some r) (hnullable : nullable r) (hn : e.next = some n) :
      LeftStep (.element id) (.element n)
  | inner {id : ElementId} {e : Element} {b : BlockId} (he : g.element? id = some e)
      (hk : e.kind = .nested b ∨ e.kind = .loop b) : LeftStep (.element id) (.block b)
  | exit {id : ElementId} {e : Element} {b : BlockId} {blk : Block}
      (he : g.element? id = some e) (hk : e.kind = .blockEnd b) (hb : g.block? b = some blk) :
      LeftStep (.element id) (.element (g.exitTarget blk))
  | again {id : ElementId} {e : Element} {b : BlockId} {blk : Block}
      (he : g.element? id = some e) (hk : e.kind = .blockEnd b) (hb : g.block? b = some blk)
      (hloop : blk.kind.isLoop = true) : LeftStep (.element id) (.block b)

/-- A walk of at least one step that consumes no token, with the nodes that it comes from. -/
inductive LeftWalk : Node → List Node → Node → Prop where
  | single {a b : Node} (h : LeftStep g nullable a b) : LeftWalk a [a] b
  | cons {a b c : Node} {nodes : List Node} (h : LeftStep g nullable a b)
      (hrest : LeftWalk b nodes c) : LeftWalk a (a :: nodes) c

/-- A rule that can reach itself without consuming a token. -/
def LeftRecursive (id : RuleId) : Prop :=
  ∃ r nodes, g.rule? id = some r ∧ g.LeftWalk nullable (.block r.block) nodes (.block r.block)

end Walks

/-- The block of the rule that a node belongs to. -/
def root? (g : Grammar) (node : Node) : Option Node :=
  ((g.ruleOf? node).bind g.rule?).map fun r => .block r.block

variable {g : Grammar} {nullable : Rule → Prop} {a b c n : Node} {nodes : List Node}

namespace LeftWalk

theorem trans {rest : List Node} (h : g.LeftWalk nullable a nodes b)
    (hrest : g.LeftWalk nullable b rest c) : g.LeftWalk nullable a (nodes ++ rest) c := by
  induction h with
  | single h => exact .cons h hrest
  | cons h _ ih => exact .cons h (ih hrest)

theorem snoc (h : g.LeftWalk nullable a nodes b) (hstep : g.LeftStep nullable b c) :
    g.LeftWalk nullable a (nodes ++ [b]) c :=
  h.trans (.single hstep)

/-- What every step keeps holds all the way if it holds at the beginning. -/
theorem forward {P : Node → Prop} (h : g.LeftWalk nullable a nodes b)
    (hstep : ∀ m n, g.LeftStep nullable m n → P m → P n) (ha : P a) :
    (∀ n ∈ nodes, P n) ∧ P b := by
  induction h with
  | single h => exact ⟨by simpa using ha, hstep _ _ h ha⟩
  | cons h _ ih =>
    obtain ⟨hnodes, hend⟩ := ih (hstep _ _ h ha)
    exact ⟨List.forall_mem_cons.2 ⟨ha, hnodes⟩, hend⟩

/-- What every step has from its end holds all the way if it holds at the end. -/
theorem backward {P : Node → Prop} (h : g.LeftWalk nullable a nodes b)
    (hstep : ∀ m n, g.LeftStep nullable m n → P n → P m) (hb : P b) : P a ∧ ∀ n ∈ nodes, P n := by
  induction h with
  | single h =>
    have ha := hstep _ _ h hb
    exact ⟨ha, by simpa using ha⟩
  | cons h _ ih =>
    obtain ⟨hnext, hnodes⟩ := ih hb
    have ha := hstep _ _ h hnext
    exact ⟨ha, List.forall_mem_cons.2 ⟨ha, hnodes⟩⟩

theorem start_mem (h : g.LeftWalk nullable a nodes b) : a ∈ nodes := by
  cases h with
  | single h => exact List.mem_singleton_self a
  | cons h hrest => exact List.mem_cons_self

/-- A walk splits at every node that it comes from. -/
theorem split (h : g.LeftWalk nullable a nodes b) (hn : n ∈ nodes) :
    (n = a ∨ ∃ before, g.LeftWalk nullable a before n) ∧ ∃ after, g.LeftWalk nullable n after b := by
  induction h with
  | @single a b h =>
    obtain rfl := List.mem_singleton.1 hn
    exact ⟨Or.inl rfl, _, .single h⟩
  | @cons a b c nodes h hrest ih =>
    rcases List.mem_cons.1 hn with rfl | hn
    · exact ⟨Or.inl rfl, _, .cons h hrest⟩
    · obtain ⟨hbefore, hafter⟩ := ih hn
      refine ⟨Or.inr ?_, hafter⟩
      rcases hbefore with rfl | ⟨before, hbefore⟩
      · exact ⟨_, .single h⟩
      · exact ⟨_, .cons h hbefore⟩

/-- A closed walk leads to each of its nodes and back. -/
theorem split_of_closed (h : g.LeftWalk nullable a nodes a) (hn : n ∈ nodes) :
    (∃ before, g.LeftWalk nullable a before n) ∧ ∃ after, g.LeftWalk nullable n after a := by
  obtain ⟨hbefore, hafter⟩ := h.split hn
  rcases hbefore with rfl | hbefore
  · exact ⟨⟨nodes, h⟩, hafter⟩
  · exact ⟨hbefore, hafter⟩

/-- On a walk, every node but the first comes from a node of the walk. -/
theorem exists_before (h : g.LeftWalk nullable a nodes b) :
    (∃ m ∈ nodes, g.LeftStep nullable m b) ∧
      ∀ n ∈ nodes, n = a ∨ ∃ m ∈ nodes, g.LeftStep nullable m n := by
  induction h with
  | @single a b h => exact ⟨⟨a, by simp, h⟩, by simp⟩
  | @cons a b c nodes h hrest ih =>
    obtain ⟨⟨m, hm, hlast⟩, hnodes⟩ := ih
    refine ⟨⟨m, by simp [hm], hlast⟩, fun n hn => ?_⟩
    rcases List.mem_cons.1 hn with rfl | hn
    · exact Or.inl rfl
    · rcases hnodes n hn with rfl | ⟨m', hm', hstep⟩
      · exact Or.inr ⟨a, by simp, h⟩
      · exact Or.inr ⟨m', by simp [hm'], hstep⟩

/-- On a closed walk, every node comes from a node of the walk. -/
theorem exists_before_of_closed (h : g.LeftWalk nullable a nodes a) (hn : n ∈ nodes) :
    ∃ m ∈ nodes, g.LeftStep nullable m n := by
  obtain ⟨hlast, hnodes⟩ := h.exists_before
  rcases hnodes n hn with rfl | hbefore
  · exact hlast
  · exact hbefore

end LeftWalk

theorem root?_congr (h : g.ruleOf? b = g.ruleOf? a) : g.root? b = g.root? a := by
  rw [root?, h, root?]

namespace Linked

variable (hg : g.Linked)
include hg

theorem root?_ruleBlock {id : RuleId} {r : Rule} (hr : g.rule? id = some r) :
    g.root? (.block r.block) = some (.block r.block) := by
  unfold root?
  rw [hg.ruleOf?_ruleBlock hr, Option.bind_some, hr, Option.map_some]

theorem ruleOf?_entry {id : BlockId} {blk : Block} {n : ElementId} (hb : g.block? id = some blk)
    (hn : n ∈ g.entries blk) : g.ruleOf? (.element n) = g.ruleOf? (.block id) := by
  rw [entries, List.mem_append] at hn
  rcases hn with hn | hn
  · obtain ⟨alternative, halternative, rfl⟩ := List.mem_map.1 hn
    exact hg.ruleOf?_first hb halternative
  · split at hn
    · rw [List.mem_singleton.1 hn]
      exact hg.ruleOf?_exitTarget hb
    · simp at hn

/-- A rule is entered through its block only. -/
theorem root?_leftStep (h : g.LeftStep nullable a b) :
    (∃ id r, g.rule? id = some r ∧ b = .block r.block) ∨ g.root? b = g.root? a := by
  cases h with
  | branch hb hn => exact Or.inr (root?_congr (hg.ruleOf?_entry hb hn))
  | call he hk hr => exact Or.inl ⟨_, _, hr, rfl⟩
  | pass he hk hr hnullable hn =>
    exact Or.inr (root?_congr (hg.ruleOf?_next (by rw [next?, he]; exact hn)))
  | inner he hk => exact Or.inr (root?_congr (hg.ruleOf?_inner he hk))
  | exit he hk hb =>
    exact Or.inr (root?_congr
      ((hg.ruleOf?_exitTarget hb).trans (hg.ruleOf?_blockEnd he hk).symm))
  | again he hk hb hloop => exact Or.inr (root?_congr (hg.ruleOf?_blockEnd he hk).symm)

/-- Only calls of a rule lead to its block. -/
theorem exists_caller {id : RuleId} {r : Rule} (hr : g.rule? id = some r)
    (h : g.LeftStep nullable a (.block r.block)) : ∃ site ∈ r.callers, a = .element site := by
  obtain ⟨b, hb, hkind, -⟩ := (hg.rule hr).block
  generalize hnode : Node.block r.block = node at h
  cases h with
  | branch => cases hnode
  | @call site e name target r' he hk hr' =>
    have htarget : id = target := by
      rw [← Option.some.injEq, ← hg.ruleOf?_ruleBlock hr, ← hg.ruleOf?_ruleBlock hr', hnode]
    refine ⟨site, ((hg.rule hr).callers site).2 ⟨e, he, ?_⟩, rfl⟩
    rw [hk, ElementKind.target?, htarget]
  | pass => cases hnode
  | inner he hk =>
    cases hnode
    obtain ⟨inner, -, hinner, -, -, hne⟩ := hg.inner he hk
    rw [hb] at hinner
    exact absurd (Option.some.inj hinner ▸ hkind) hne
  | exit => cases hnode
  | again he hk hblk hloop =>
    cases hnode
    rw [hb] at hblk
    rw [← Option.some.inj hblk, hkind] at hloop
    exact absurd hloop Bool.false_ne_true

/-- A rule is left-recursive exactly if a walk from its block comes to a call of it. -/
theorem leftRecursive_iff {id : RuleId} {r : Rule} (hr : g.rule? id = some r) :
    g.LeftRecursive nullable id ↔
      ∃ site ∈ r.callers, ∃ nodes, g.LeftWalk nullable (.block r.block) nodes (.element site) := by
  constructor
  · rintro ⟨r', nodes, hr', hwalk⟩
    obtain rfl := Option.some.inj (hr.symm.trans hr')
    obtain ⟨m, hm, hlast⟩ := hwalk.exists_before_of_closed hwalk.start_mem
    obtain ⟨site, hsite, rfl⟩ := hg.exists_caller hr hlast
    exact ⟨site, hsite, (hwalk.split_of_closed hm).1⟩
  · rintro ⟨site, hsite, nodes, hwalk⟩
    obtain ⟨e, he, htarget⟩ := ((hg.rule hr).callers site).1 hsite
    cases hk : e.kind with
    | reference name target =>
      rw [hk, ElementKind.target?, Option.some.injEq] at htarget
      exact ⟨r, _, hr, hwalk.snoc (.call he hk (htarget ▸ hr))⟩
    | _ =>
      rw [hk] at htarget
      cases htarget

/-- A walk from the block of a rule passes the blocks of all rules that it visits. -/
theorem exists_root_of_leftWalk {visited : List Node} (h : g.LeftWalk nullable a nodes b)
    (hvisited : ∀ n ∈ nodes, n ∈ visited)
    (ha : ∃ id r, g.rule? id = some r ∧ g.root? a = some (.block r.block) ∧
      .block r.block ∈ visited) :
    ∀ n ∈ nodes, ∃ id r, g.rule? id = some r ∧ g.root? n = some (.block r.block) ∧
      .block r.block ∈ visited := by
  induction h with
  | single h => simpa using ha
  | @cons a b c nodes h hrest ih =>
    have hnodes : ∀ n ∈ nodes, n ∈ visited := fun n hn => hvisited n (by simp [hn])
    refine List.forall_mem_cons.2 ⟨ha, ih hnodes ?_⟩
    rcases hg.root?_leftStep h with ⟨id, r, hr, rfl⟩ | hsame
    · exact ⟨id, r, hr, hg.root?_ruleBlock hr, hnodes _ hrest.start_mem⟩
    · rwa [hsame]

end Linked

end GrammarLookahead.Grammar
