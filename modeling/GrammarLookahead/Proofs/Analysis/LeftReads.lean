import GrammarLookahead.Proofs.Analysis.ExpansionReads
import GrammarLookahead.Proofs.Analysis.LeastSolution
import GrammarLookahead.Proofs.Grammar.LeftRecursion

/-!
Walks that consume no token, as the keys see them. Among the keys that are asked from calls and look
equally far ahead, one key is read for another exactly where such a walk has a step.
-/

namespace GrammarLookahead.Grammar

variable {g : Grammar} {nullable : Rule → Prop} {key q : Key} {depth : Nat} {F : Family}

variable (g) in
/-- A predicate that holds of the rules whose lookahead leaves everything open. -/
def TellsNullable (nullable : Rule → Prop) : Prop :=
  ∀ id r, g.rule? id = some r → ∀ d, 1 ≤ d →
    (.unfinished [] ∈ g.lookahead (.block r.block d .callSite) ↔ nullable r)

theorem Asks.context_eq (h : g.Asks F key q) (hcontext : key.context = .callSite) :
    q.context = .callSite := by
  cases h with
  | branch => exact hcontext
  | token => exact hcontext
  | call => rfl
  | returned => exact hcontext
  | inner => exact hcontext
  | exit => exact hcontext
  | again => exact hcontext
  | follower => exact hcontext

/-- A key that is asked from a call, and that looks as far ahead as the key it is read for, lies one
step of a walk without tokens further. -/
theorem Asks.leftStep (h : g.Asks g.lookahead key q) (hnullable : g.TellsNullable nullable)
    (hcontext : key.context = .callSite) (hpos : 1 ≤ key.depth) (hdepth : q.depth = key.depth) :
    g.LeftStep nullable key.node q.node := by
  cases h with
  | branch hb hn => exact .branch hb hn
  | @token id n e t d c he ht heof hn hd =>
    have hdepth : d = d + 1 := hdepth
    omega
  | call he hk hr => exact .call he hk hr
  | @returned id n e name target r d c p he hk hr hp hn =>
    have hdepth : d - p.length = d := hdepth
    have hpos : 1 ≤ d := hpos
    obtain rfl : p = [] := List.eq_nil_of_length_eq_zero (by omega)
    exact .pass he hk hr ((hnullable _ r hr d hpos).1 hp) hn
  | inner he hk => exact .inner he hk
  | exit he hk hb => exact .exit he hk hb
  | again he hk hb hloop => exact .again he hk hb hloop
  | follower => cases hcontext

/-- A key of the largest depth, asked from a call, is the key of a rule or is read for a key of the
same rule and depth. -/
theorem Asks.root?_eq (h : g.Asks F key q) (hg : g.Linked) (hcontext : q.context = .callSite)
    (hpos : 1 ≤ q.depth) (hdepth : key.depth ≤ q.depth) :
    (∃ id r, g.rule? id = some r ∧ q.node = .block r.block) ∨
      g.root? q.node = g.root? key.node ∧ key.context = .callSite ∧ key.depth = q.depth := by
  cases h with
  | branch hb hn => exact Or.inr ⟨root?_congr (hg.ruleOf?_entry hb hn), hcontext, rfl⟩
  | @token id n e t d c he ht heof hn hd =>
    have hdepth : d + 1 ≤ d := hdepth
    omega
  | call he hk hr => exact Or.inl ⟨_, _, hr, rfl⟩
  | @returned id n e name target r d c p he hk hr hp hn =>
    have hdepth : d ≤ d - p.length := hdepth
    have hsame : d = d - p.length := by omega
    have hnext : g.next? id = some n := by
      unfold next?
      rw [he]
      exact hn
    exact Or.inr ⟨root?_congr (hg.ruleOf?_next hnext), hcontext, hsame⟩
  | inner he hk => exact Or.inr ⟨root?_congr (hg.ruleOf?_inner he hk), hcontext, rfl⟩
  | exit he hk hb =>
    have hrule := (hg.ruleOf?_exitTarget hb).trans (hg.ruleOf?_blockEnd he hk).symm
    exact Or.inr ⟨root?_congr hrule, hcontext, rfl⟩
  | again he hk hb hloop =>
    exact Or.inr ⟨root?_congr (hg.ruleOf?_blockEnd he hk).symm, hcontext, rfl⟩
  | follower => cases hcontext

theorem LeftStep.hasKey {a b : Node} (h : g.LeftStep nullable a b) (hpos : 1 ≤ depth) :
    g.HasKey depth ⟨a, depth, .callSite⟩ := by
  have hnode : g.contains a = true := by
    cases h with
    | branch hb hn => exact contains_block.2 ⟨_, hb⟩
    | call he hk hr => exact contains_element.2 ⟨_, he⟩
    | pass he hk hr hempty hn => exact contains_element.2 ⟨_, he⟩
    | inner he hk => exact contains_element.2 ⟨_, he⟩
    | exit he hk hb => exact contains_element.2 ⟨_, he⟩
    | again he hk hb hloop => exact contains_element.2 ⟨_, he⟩
  exact ⟨hnode, hpos, Nat.le_refl _⟩

/-- Every step of a walk without tokens leads one step further, between keys of one depth that are
asked from calls. -/
theorem LeftStep.asks {a b : Node} (h : g.LeftStep nullable a b)
    (hnullable : g.TellsNullable nullable) (hpos : 1 ≤ depth) :
    g.Asks g.lookahead ⟨a, depth, .callSite⟩ ⟨b, depth, .callSite⟩ := by
  cases h with
  | branch hb hn => exact .branch hb hn
  | call he hk hr => exact .call he hk hr
  | @pass id n e name target r he hk hr hempty hn =>
    exact .returned he hk hr ((hnullable target r hr depth hpos).2 hempty) hn
  | inner he hk => exact .inner he hk
  | exit he hk hb => exact .exit he hk hb
  | again he hk hb hloop => exact .again he hk hb hloop

theorem LeftStep.mem_keysRead {a b : Node} (h : g.LeftStep nullable a b) (hg : g.Linked)
    (hnullable : g.TellsNullable nullable) (hpos : 1 ≤ depth) :
    (⟨b, depth, .callSite⟩ : Key) ∈ (g.expand ⟨a, depth, .callSite⟩).keysRead g.lookahead :=
  (h.asks hnullable hpos).mem_keysRead hg (hg.fits_lookahead depth) (h.hasKey hpos)

end GrammarLookahead.Grammar
