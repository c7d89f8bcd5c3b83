import GrammarLookahead.Proofs.Language.Residue
import GrammarLookahead.Proofs.Parsing.Passage

/-!
Lookahead inside a rule shows all of the language of the rule. Every word of a phrase is a passage
from the element where the phrase begins to the element behind it, and everything that a run through
a phrase emits before it stops is seen from where the phrase begins. Main statements:
`passes_alternatives` and `emits_alternatives`.
-/

namespace GrammarLookahead

open scoped Computability

namespace Grammar

variable {g : Grammar} {c : Context} {a b : Option Node} {w s : TokenSeq} {l k : Language TokenId}

/-- Passes through the body of a loop, each followed by a way back, are a passage. -/
theorem Passes.star (hbody : ∀ u ∈ l, g.Passes c a u b)
    (hback : g.Passes c b [] a) (hw : w ∈ l∗) : g.Passes c b w b := by
  obtain ⟨ws, rfl, hws⟩ := Language.mem_kstar.1 hw
  clear hw
  induction ws with
  | nil => exact .refl b
  | cons u ws ih =>
    have hrest := ih fun w hw => hws w (by simp [hw])
    exact (hback.trans (hbody u (hws u (by simp)))).trans hrest

/-- A run through one of several passages stops at their beginning or goes through. -/
theorem Emits.of_passes (h : ∀ w ∈ l, g.Passes c a w b) (hs : s ∈ 1 + l) : g.Emits c a s := by
  rcases hs with hs | hs
  · rw [show s = [] from hs]
    exact .nil _
  · exact (h s hs).full

/-- A run through a loop stops behind some rounds of it. -/
theorem Emits.star (hround : ∀ u ∈ l, g.Passes c a u a) (hlast : ∀ t ∈ k, g.Emits c a t)
    (hs : s ∈ l∗ * k) : g.Emits c a s := by
  obtain ⟨w, hw, t, ht, rfl⟩ := Language.mem_mul.1 hs
  exact (hlast t ht).prepend (.star hround (.refl _) hw)

end Grammar

namespace Layout

variable {g : Grammar} {names : Names} {ρ π : Meaning} {c : Context}

/-- The words of each rule are seen from the block that calls of the rule lead to. -/
def CallsShow (g : Grammar) (names : Names) (ρ : Meaning) : Prop :=
  ∀ name r, g.rule? (names.rule name) = some r → ∀ w ∈ ρ name,
    g.Shows (some (.block r.block)) .callSite (.unfinished w)

/-- What a run through rules emits is seen from the block that calls of the rule lead to. -/
def CallsEmit (g : Grammar) (names : Names) (π : Meaning) : Prop :=
  ∀ name r, g.rule? (names.rule name) = some r → ∀ s ∈ π name,
    g.Emits .callSite (some (.block r.block)) s

/-- The steps around the contents of a nested block. -/
structure BlockSteps (g : Grammar) (start : Position) (next : ElementId) (repetition : Repetition)
    (alternatives : List (List Phrase)) (c : Context) : Prop where
  enter : g.Passes c (some (.element ⟨start.element⟩)) [] (some (.block ⟨start.block⟩))
  choose : ∀ a ∈ blockAlternatives ⟨start.element + 1⟩ (start.element + 2) alternatives,
    g.Passes c (some (.block ⟨start.block⟩)) [] (some (.element a.first))
  leave : g.Passes c (some (.element ⟨start.element + 1⟩)) [] (some (.element next))
  skip : repetition.canSkip = true →
    g.Passes c (some (.block ⟨start.block⟩)) [] (some (.element next))
  back : repetition.isLoop = true →
    g.Passes c (some (.element ⟨start.element + 1⟩)) [] (some (.block ⟨start.block⟩))

theorem blockSteps {names : Names} {site : Site} {start : Position} {next : ElementId}
    {repetition : Repetition} {greedy : Option Bool} {alternatives : List (List Phrase)}
    (hp : Placed g start (phrase names site next start (.block repetition greedy alternatives)))
    (c : Context) : BlockSteps g start next repetition alternatives c := by
  obtain ⟨howner, hend, -, -⟩ := hp.of_block
  obtain ⟨blk, hb, hkind, halternatives, hexit⟩ := exitTarget_of_block hp
  constructor
  · refine .of_sees fun hs => .entered howner ?_ hs
    cases repetition
    · exact Or.inl rfl
    · exact Or.inl rfl
    · exact Or.inr rfl
    · exact Or.inr rfl
  · intro a ha
    refine .of_sees fun hs => .branch hb ?_ hs
    unfold Grammar.entries
    rw [halternatives, List.mem_append]
    exact Or.inl (List.mem_map_of_mem ha)
  · refine .of_sees fun hs => .left hend rfl hb ?_
    rwa [hexit]
  · intro hcan
    refine .of_sees fun hs => .branch hb ?_ hs
    unfold Grammar.entries
    rw [hkind, hexit, BlockKind.canSkip, if_pos hcan, List.mem_append]
    exact Or.inr (List.mem_singleton_self _)
  · intro hloop
    refine .of_sees fun hs => .repeated hend rfl hb ?_ hs
    rwa [hkind]

/-- The words of a block are passages through its contents, and around them. -/
theorem BlockSteps.passes {start : Position} {next : ElementId} {repetition : Repetition}
    {greedy : Option Bool} {alternatives : List (List Phrase)} {v : Vocabulary} {w : TokenSeq}
    (h : BlockSteps g start next repetition alternatives c)
    (hbody : ∀ u ∈ Phrase.wordsOfAlternatives v ρ alternatives,
      g.Passes c (some (.block ⟨start.block⟩)) u (some (.element ⟨start.element + 1⟩)))
    (hw : w ∈ (Phrase.block repetition greedy alternatives).words v ρ) :
    g.Passes c (some (.element ⟨start.element⟩)) w (some (.element next)) := by
  -- One pass through the contents, and one that is followed by repetitions.
  have honce : ∀ u ∈ Phrase.wordsOfAlternatives v ρ alternatives,
      g.Passes c (some (.block ⟨start.block⟩)) u (some (.element next)) := by
    intro u hu
    rw [← List.append_nil u]
    exact (hbody u hu).trans h.leave
  have hmany : repetition.isLoop = true →
      w ∈ Phrase.wordsOfAlternatives v ρ alternatives *
        (Phrase.wordsOfAlternatives v ρ alternatives)∗ →
      g.Passes c (some (.block ⟨start.block⟩)) w (some (.element next)) := by
    intro hloop hw
    obtain ⟨u, hu, r, hr, rfl⟩ := Language.mem_mul.1 hw
    rw [← List.append_nil (u ++ r)]
    exact ((hbody u hu).trans (.star hbody (h.back hloop) hr)).trans h.leave
  apply h.enter.trans
  cases repetition with
  | once => exact honce w hw
  | optional =>
    rcases hw with hw | hw
    · exact honce w hw
    · rw [show w = [] from hw]
      exact h.skip rfl
  | zeroOrMore =>
    change w ∈ (Phrase.wordsOfAlternatives v ρ alternatives)∗ at hw
    rw [← Language.one_add_self_mul_kstar_eq_kstar] at hw
    rcases hw with hw | hw
    · rw [show w = [] from hw]
      exact h.skip rfl
    · exact hmany rfl hw
  | oneOrMore => exact hmany rfl hw

mutual

theorem passes_phrase (hg : g.Linked) (hvoc : g.vocabulary = names.vocabulary)
    (hcalls : CallsShow g names ρ) (site : Site) (start : Position) (next : ElementId) :
    ∀ p : Phrase, Placed g start (phrase names site next start p) →
      ∀ w ∈ p.words names.vocabulary ρ,
        g.Passes c (some (.element ⟨start.element⟩)) w (some (.element next))
  | .token name, hp, w, hw => by
    obtain ⟨t, ht, rfl⟩ := hw
    exact .token (hp.element (i := 0) rfl) ht rfl
  | .notToken name, hp, w, hw => by
    obtain ⟨t, ht, rfl⟩ := hw
    refine .token (hp.element (i := 0) rfl) ?_ rfl
    rwa [Grammar.tokensOf, hvoc]
  | .wildcard, hp, w, hw => by
    obtain ⟨t, ht, rfl⟩ := hw
    refine .token (hp.element (i := 0) rfl) ?_ rfl
    rwa [Grammar.tokensOf, hvoc]
  | .call name, hp, w, hw => by
    have he := hp.element (i := 0) rfl
    obtain ⟨r, hr⟩ := hg.reference he rfl
    exact .reference he rfl hr rfl (hcalls name r hr w hw)
  | .block repetition greedy alternatives, hp, w, hw => by
    obtain ⟨-, -, -, hchoice⟩ := hp.of_block
    have hsteps := blockSteps hp c
    have hbody : ∀ u ∈ Phrase.wordsOfAlternatives names.vocabulary ρ alternatives,
        g.Passes c (some (.block ⟨start.block⟩)) u (some (.element ⟨start.element + 1⟩)) := by
      intro u hu
      obtain ⟨a, ha, hpass⟩ := passes_alternatives hg hvoc hcalls
        ⟨site.rule, ⟨start.block⟩, ⟨start.element + 1⟩⟩ (start.skip 2 1) alternatives hchoice u hu
      exact (hsteps.choose a ha).trans hpass
    exact hsteps.passes hbody hw

theorem passes_sequence (hg : g.Linked) (hvoc : g.vocabulary = names.vocabulary)
    (hcalls : CallsShow g names ρ) (site : Site) (start : Position) :
    ∀ ps : List Phrase, Placed g start (sequence names site start ps) →
      ∀ w ∈ Phrase.wordsOfSequence names.vocabulary ρ ps,
        g.Passes c (some (.element (entrance site start ps))) w (some (.element site.terminator))
  | [], _, w, hw => by
    rw [show w = [] from hw]
    exact .refl _
  | p :: ps, hp, w, hw => by
    obtain ⟨u, hu, v, hv, rfl⟩ := Language.mem_mul.1 hw
    obtain ⟨hfirst, hrest⟩ := hp.of_sequence_cons
    exact (passes_phrase hg hvoc hcalls site start _ p hfirst u hu).trans
      (passes_sequence hg hvoc hcalls site (start.afterPhrase p) ps hrest v hv)

theorem passes_alternatives (hg : g.Linked) (hvoc : g.vocabulary = names.vocabulary)
    (hcalls : CallsShow g names ρ) (site : Site) (start : Position) :
    ∀ pss : List (List Phrase), Placed g start (choice names site start pss) →
      ∀ w ∈ Phrase.wordsOfAlternatives names.vocabulary ρ pss,
        ∃ a ∈ blockAlternatives site.terminator start.element pss,
          g.Passes c (some (.element a.first)) w (some (.element site.terminator))
  | [], _, w, hw => absurd hw (Language.notMem_zero w)
  | ps :: rest, hp, w, hw => by
    obtain ⟨hfirst, hrest⟩ := hp.of_choice_cons
    rcases hw with hw | hw
    · have hpass := passes_sequence hg hvoc hcalls site start ps hfirst w hw
      refine ⟨_, List.mem_cons_self, ?_⟩
      cases ps with
      | nil => exact hpass
      | cons p ps => exact hpass
    · obtain ⟨a, ha, hpass⟩ := passes_alternatives hg hvoc hcalls site (start.afterSequence ps)
        rest hrest w hw
      exact ⟨a, List.mem_cons_of_mem _ ha, hpass⟩

end

mutual

theorem emits_phrase (hg : g.Linked) (hvoc : g.vocabulary = names.vocabulary)
    (hcalls : CallsShow g names ρ) (hruns : CallsEmit g names π) (site : Site) (start : Position)
    (next : ElementId) :
    ∀ p : Phrase, Placed g start (phrase names site next start p) →
      ∀ s ∈ p.prefixes names.vocabulary ρ π, g.Emits c (some (.element ⟨start.element⟩)) s
  | .token name, hp, s, hs =>
    .of_passes (passes_phrase hg hvoc hcalls site start next (.token name) hp) hs
  | .notToken name, hp, s, hs =>
    .of_passes (passes_phrase hg hvoc hcalls site start next (.notToken name) hp) hs
  | .wildcard, hp, s, hs =>
    .of_passes (passes_phrase hg hvoc hcalls site start next .wildcard hp) hs
  | .call name, hp, s, hs => by
    have he := hp.element (i := 0) rfl
    obtain ⟨r, hr⟩ := hg.reference he rfl
    intro d hd hfull
    exact .called he rfl hr (hruns name r hr s hs d hd hfull)
  | .block repetition greedy alternatives, hp, s, hs => by
    obtain ⟨-, -, -, hchoice⟩ := hp.of_block
    have hsteps := blockSteps hp c
    let inner : Site := ⟨site.rule, ⟨start.block⟩, ⟨start.element + 1⟩⟩
    have hbody : ∀ s ∈ Phrase.prefixesOfAlternatives names.vocabulary ρ π alternatives,
        g.Emits c (some (.block ⟨start.block⟩)) s := by
      intro s hs
      rcases emits_alternatives hg hvoc hcalls hruns inner (start.skip 2 1) alternatives hchoice s
        hs with rfl | ⟨a, ha, hemits⟩
      · exact .nil _
      · exact hemits.prepend (hsteps.choose a ha)
    have hround : repetition.isLoop = true →
        ∀ u ∈ Phrase.wordsOfAlternatives names.vocabulary ρ alternatives,
          g.Passes c (some (.block ⟨start.block⟩)) u (some (.block ⟨start.block⟩)) := by
      intro hloop u hu
      obtain ⟨a, ha, hpass⟩ := passes_alternatives hg hvoc hcalls inner (start.skip 2 1)
        alternatives hchoice u hu
      rw [← List.append_nil u]
      exact ((hsteps.choose a ha).trans hpass).trans (hsteps.back hloop)
    apply Grammar.Emits.prepend hsteps.enter
    cases repetition with
    | once => exact hbody s hs
    | optional => exact hbody s hs
    | zeroOrMore => exact .star (hround rfl) hbody hs
    | oneOrMore => exact .star (hround rfl) hbody hs

theorem emits_sequence (hg : g.Linked) (hvoc : g.vocabulary = names.vocabulary)
    (hcalls : CallsShow g names ρ) (hruns : CallsEmit g names π) (site : Site) (start : Position) :
    ∀ ps : List Phrase, Placed g start (sequence names site start ps) →
      ∀ s ∈ Phrase.prefixesOfSequence names.vocabulary ρ π ps,
        g.Emits c (some (.element (entrance site start ps))) s
  | [], _, s, hs => by
    rw [show s = [] from hs]
    exact .nil _
  | p :: ps, hp, s, hs => by
    obtain ⟨hfirst, hrest⟩ := hp.of_sequence_cons
    rcases hs with hs | hs
    · exact emits_phrase hg hvoc hcalls hruns site start _ p hfirst s hs
    · obtain ⟨u, hu, t, ht, rfl⟩ := Language.mem_mul.1 hs
      exact (emits_sequence hg hvoc hcalls hruns site (start.afterPhrase p) ps hrest t ht).prepend
        (passes_phrase hg hvoc hcalls site start _ p hfirst u hu)

theorem emits_alternatives (hg : g.Linked) (hvoc : g.vocabulary = names.vocabulary)
    (hcalls : CallsShow g names ρ) (hruns : CallsEmit g names π) (site : Site) (start : Position) :
    ∀ pss : List (List Phrase), Placed g start (choice names site start pss) →
      ∀ s ∈ Phrase.prefixesOfAlternatives names.vocabulary ρ π pss,
        s = [] ∨ ∃ a ∈ blockAlternatives site.terminator start.element pss,
          g.Emits c (some (.element a.first)) s
  | [], _, _, hs => Or.inl hs
  | ps :: rest, hp, s, hs => by
    obtain ⟨hfirst, hrest⟩ := hp.of_choice_cons
    rcases hs with hs | hs
    · have hemits := emits_sequence hg hvoc hcalls hruns site start ps hfirst s hs
      refine Or.inr ⟨_, List.mem_cons_self, ?_⟩
      cases ps with
      | nil => exact hemits
      | cons p ps => exact hemits
    · have hrest := emits_alternatives hg hvoc hcalls hruns site (start.afterSequence ps) rest hrest
        s hs
      apply hrest.imp_right
      intro h
      obtain ⟨a, ha, hemits⟩ := h
      exact ⟨a, List.mem_cons_of_mem _ ha, hemits⟩

end

end Layout

end GrammarLookahead
