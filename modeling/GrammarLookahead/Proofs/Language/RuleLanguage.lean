import GrammarLookahead.Proofs.Analysis.Session
import GrammarLookahead.Proofs.Language.Completeness
import GrammarLookahead.Proofs.Language.Soundness

/-!
The lookahead of a rule is its language up to the depth, as the description of the grammar gives it.
Main statement: `Description.lookRule_language`.
-/

namespace GrammarLookahead

namespace Description

variable {ucd : Unicode} {d : Description} {g : Grammar} {name : String} {rule : Rule}

/-- The rule that calls of a name lead to is the one that the description has under the name. -/
theorem exists_placed (h : d.layout.rule? (d.names.rule name) = some rule) :
    ∃ r start, d.ruleNamed? name = some r ∧ rule.block = ⟨start.block⟩ ∧
      Layout.Placed d.layout start (Layout.rule d.names (d.names.rule name) start r) := by
  obtain ⟨r, hr⟩ := exists_ruleNamed h
  obtain ⟨-, start, rule', hrule, hblock, hplaced⟩ := placed_ruleNamed hr
  obtain rfl := Option.some.inj (h.symm.trans hrule)
  exact ⟨r, start, hr, hblock, hplaced⟩

theorem callsLeave (d : Description) :
    Layout.CallsLeave d.layout d.names d.language d.prefixLanguage := by
  intro name rule hrule
  obtain ⟨r, start, hr, hblock, hplaced⟩ := exists_placed hrule
  refine ⟨r.greedy, r.alternatives, ?_, (language_eq hr).ge, (prefixLanguage_eq hr).ge⟩
  rw [hblock]
  exact .rule hplaced

/-- A rule begins with one of its alternatives. -/
theorem passes_ruleBlock {start : Layout.Position} {id : RuleId} {r : RuleDescription}
    (hp : Layout.Placed g start (Layout.rule d.names id start r)) {a : Alternative}
    (ha : a ∈ Layout.blockAlternatives ⟨start.element⟩ (start.element + 1) r.alternatives)
    (c : Context) : g.Passes c (some (.block ⟨start.block⟩)) [] (some (.element a.first)) := by
  obtain ⟨-, hb, -⟩ := hp.of_rule
  refine .of_sees fun hs => .branch hb ?_ hs
  unfold Grammar.entries
  rw [List.mem_append]
  exact Or.inl (List.mem_map_of_mem ha)

/-- Every word of a rule is seen from its block: what is seen there is closed under the
alternatives of the rules, and the languages are the least such meaning. -/
theorem callsShow (hg : d.layout.Linked) : Layout.CallsShow d.layout d.names d.language := by
  let ρ : Meaning := fun name => {w | ∀ rule, d.layout.rule? (d.names.rule name) = some rule →
    d.layout.Shows (some (.block rule.block)) .callSite (.unfinished w)}
  have hle : d.language ≤ ρ := by
    apply language_le
    intro name r hr w hw rule hrule
    obtain ⟨r', start, hr', hblock, hplaced⟩ := exists_placed hrule
    obtain rfl := Option.some.inj (hr.symm.trans hr')
    obtain ⟨hend, -, hchoice⟩ := hplaced.of_rule
    have hcalls : Layout.CallsShow d.layout d.names ρ := fun name r hr w hw => hw r hr
    obtain ⟨a, ha, hpass⟩ := Layout.passes_alternatives hg rfl hcalls
      ⟨d.names.rule name, ⟨start.block⟩, ⟨start.element⟩⟩ (start.skip 1 1) r.alternatives hchoice w hw
    have hshows := Grammar.Shows.prepend ((passes_ruleBlock hplaced ha .callSite).trans hpass)
      (Grammar.Shows.ended hend rfl)
    rw [hblock]
    simpa only [Member.prepend, List.nil_append, List.append_nil] using hshows
  exact fun name rule hrule w hw => hle name hw rule hrule

/-- Whatever a run through a rule emits is seen from its block. -/
theorem callsEmit (hg : d.layout.Linked) :
    Layout.CallsEmit d.layout d.names d.prefixLanguage := by
  let π : Meaning := fun name => {s | ∀ rule, d.layout.rule? (d.names.rule name) = some rule →
    d.layout.Emits .callSite (some (.block rule.block)) s}
  have hle : d.prefixLanguage ≤ π := by
    apply prefixLanguage_le
    intro name r hr s hs rule hrule
    obtain ⟨r', start, hr', hblock, hplaced⟩ := exists_placed hrule
    obtain rfl := Option.some.inj (hr.symm.trans hr')
    obtain ⟨-, -, hchoice⟩ := hplaced.of_rule
    have hruns : Layout.CallsEmit d.layout d.names π := fun name r hr s hs => hs r hr
    rw [hblock]
    rcases Layout.emits_alternatives hg rfl (callsShow hg) hruns
      ⟨d.names.rule name, ⟨start.block⟩, ⟨start.element⟩⟩ (start.skip 1 1) r.alternatives hchoice s hs
      with rfl | ⟨a, ha, hemits⟩
    · exact .nil _
    · exact hemits.prepend (passes_ruleBlock hplaced ha .callSite)
  exact fun name rule hrule s hs => hle name hs rule hrule

/-- What is seen from the block of a rule: its words as far as they leave room at the depth, and
what its runs emit as far as it fills the depth or reaches the end of input. -/
theorem mem_lookahead_ruleBlock (hg : d.layout.Linked)
    (hrule : d.layout.rule? (d.names.rule name) = some rule) {depth : Nat} (hpos : 1 ≤ depth) :
    (∀ w, w ∈ (d.layout.lookahead (.block rule.block depth .callSite)).unfinished ↔
      w ∈ d.language name ∧ w.length < depth ∧ TokenId.eof ∉ w) ∧
    ∀ s, s ∈ (d.layout.lookahead (.block rule.block depth .callSite)).complete ↔
      s ∈ d.prefixLanguage name ∧ (Member.complete s).WellFormed depth := by
  have hmem : ∀ m, m ∈ d.layout.lookahead (.block rule.block depth .callSite) ↔
      d.layout.Sees (some (.block rule.block)) depth .callSite m := fun m =>
    @Grammar.Linked.mem_lookahead _ m hg (.block rule.block depth .callSite) hpos
  obtain ⟨greedy, alternatives, hleaves, hwords, hprefixes⟩ := d.callsLeave name rule hrule
  have hexplains : ∀ m, d.layout.Sees (some (.block rule.block)) depth .callSite m →
      Phrase.Explains d.names.vocabulary d.language d.prefixLanguage
        [.block .once greedy alternatives] m := fun m hs =>
    Layout.explains_of_sees rfl d.callsLeave hs rfl rfl hleaves
  constructor
  · intro w
    rw [← LookaheadSet.mem_unfinished, hmem]
    constructor
    · intro hs
      exact ⟨hwords (hexplains _ hs).once_unfinished, hs.wellFormed hpos⟩
    · rintro ⟨hw, hwf⟩
      have hshows := callsShow hg name rule hrule w hw depth hpos
      have hwf : (Member.unfinished w).WellFormed depth := hwf
      rwa [hwf.clip_eq] at hshows
  · intro s
    rw [← LookaheadSet.mem_complete, hmem]
    constructor
    · intro hs
      exact ⟨hprefixes (hexplains _ hs).once_complete, hs.wellFormed hpos⟩
    · rintro ⟨hs, hwf⟩
      obtain ⟨hlen, heof, hfull⟩ := hwf
      have hclip : TokenSeq.clip depth s = s := TokenSeq.clip_of_le heof hlen
      have hemits := callsEmit hg name rule hrule s hs depth hpos
      rw [hclip] at hemits
      exact hemits (hfull.imp (fun h => h.ge) List.mem_of_getLast?)

/-- The lookahead of a rule is its language up to the depth, whatever the analysis was asked before:
the unfinished sequences are the words shorter than the depth, and the complete ones are what a run
through the rule emits that stops with the depth filled or upon its only end of input. -/
theorem lookRule_language (h : d.build ucd = .ok g) {r : RuleDescription} (hr : r ∈ d.rules)
    {depth : Nat} (hpos : 1 ≤ depth) (hle : depth ≤ g.maxDepth) (requests : List Request) :
    ∃ a, (g.lookRule depth r.name (session g requests)).1 = .ok a ∧
      (∀ w, w ∈ a.unfinished ↔
        w ∈ d.language r.name ∧ w.length < depth ∧ TokenId.eof ∉ w) ∧
      ∀ s, s ∈ a.complete ↔ s ∈ d.prefixLanguage r.name ∧
        (s.length = depth ∧ TokenId.eof ∉ s.dropLast ∨
          s.length ≤ depth ∧ s.getLast? = some TokenId.eof ∧ TokenId.eof ∉ s.dropLast) := by
  have hg := d.linked_of_build h
  have hnamed := ruleNamed?_of_mem h hr
  obtain ⟨-, rfl⟩ := d.build_eq_ok.1 h
  obtain ⟨hid, start, rule, hrule, -, -⟩ := placed_ruleNamed hnamed
  obtain ⟨hunfinished, hcomplete⟩ := mem_lookahead_ruleBlock hg hrule hpos
  refine ⟨d.layout.lookahead (.block rule.block depth .callSite), ?_, hunfinished, fun s => ?_⟩
  · have hkey := Question.key?_rule hid hrule depth
    exact (session_faithful hg requests).answer hg hkey hpos hle
  · rw [hcomplete s]
    refine and_congr_right fun _ => ⟨?_, ?_⟩
    · rintro ⟨hlen, heof, hfull | hlast⟩
      · exact Or.inl ⟨hfull, heof⟩
      · exact Or.inr ⟨hlen, hlast, heof⟩
    · rintro (⟨hlen, heof⟩ | ⟨hlen, hlast, heof⟩)
      · exact ⟨hlen.le, heof, Or.inl hlen⟩
      · exact ⟨hlen, heof, Or.inr hlast⟩

/-- Two tokens ahead, the words of `s : s x | ;` are seen as such, after any queries. -/
theorem leftRecursiveWords_language :
    leftRecursiveWords.build .ascii = .ok leftRecursiveWords.layout ∧
      ∃ a, (leftRecursiveWords.layout.lookRule 2 "s"
          (session leftRecursiveWords.layout [.ask (.rule 1 "s"), .clear])).1 = .ok a ∧
        (∀ w, w ∈ a.unfinished ↔
          w ∈ leftRecursiveWords.language "s" ∧ w.length < 2 ∧ TokenId.eof ∉ w) ∧
        ∀ s, s ∈ a.complete ↔ s ∈ leftRecursiveWords.prefixLanguage "s" ∧
          (s.length = 2 ∧ TokenId.eof ∉ s.dropLast ∨
            s.length ≤ 2 ∧ s.getLast? = some TokenId.eof ∧ TokenId.eof ∉ s.dropLast) :=
  ⟨leftRecursiveWords_build, lookRule_language leftRecursiveWords_build
    (List.mem_singleton_self _) (by decide) (by decide) [.ask (.rule 1 "s"), .clear]⟩

end Description

end GrammarLookahead
