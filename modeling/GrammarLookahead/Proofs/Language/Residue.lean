import GrammarLookahead.Proofs.Analysis.Equations
import GrammarLookahead.Proofs.Language.Words

/-!
What is left of a rule. Behind every node of a graph the description of its rule leaves a list of
phrases up to the end of the rule: the rest of the alternative and of the alternatives around it,
where a loop that control is inside of is left to be repeated any number of times. Each link of the
graph leads from one such list to another one.
-/

namespace GrammarLookahead.Layout

variable (g : Grammar) (names : Names)

/-- The element at which a sequence begins. -/
def entrance (site : Site) (start : Position) (ps : List Phrase) : ElementId :=
  if ps.isEmpty then site.terminator else ⟨start.element⟩

/-- What the end of a block leaves of the block itself: a loop may be repeated. -/
def repeated (repetition : Repetition) (greedy : Option Bool) (alternatives : List (List Phrase)) :
    List Phrase :=
  if repetition.isLoop then [.block .zeroOrMore greedy alternatives] else []

/-- What is left behind the contents of a block. -/
inductive Resumes : Site → List Phrase → Prop where
  | rule {id : RuleId} {start : Position} {r : RuleDescription}
      (hp : Placed g start (rule names id start r)) :
      Resumes ⟨id, ⟨start.block⟩, ⟨start.element⟩⟩ []
  | nested {site : Site} {start : Position} {repetition : Repetition} {greedy : Option Bool}
      {alternatives : List (List Phrase)} {ps rest : List Phrase}
      (hp : Placed g start (sequence names site start (.block repetition greedy alternatives :: ps)))
      (h : Resumes site rest) :
      Resumes ⟨site.rule, ⟨start.block⟩, ⟨start.element + 1⟩⟩
        (repeated repetition greedy alternatives ++ (ps ++ rest))

/-- The phrases that a node leaves of its rule. -/
inductive Leaves : Node → List Phrase → Prop where
  | sequence {site : Site} {start : Position} {ps rest : List Phrase}
      (hp : Placed g start (sequence names site start ps)) (h : Resumes g names site rest) :
      Leaves (.element (entrance site start ps)) (ps ++ rest)
  | block {site : Site} {start : Position} {repetition : Repetition} {greedy : Option Bool}
      {alternatives : List (List Phrase)} {ps rest : List Phrase}
      (hp : Placed g start
        (Layout.sequence names site start (.block repetition greedy alternatives :: ps)))
      (h : Resumes g names site rest) :
      Leaves (.block ⟨start.block⟩) (.block repetition greedy alternatives :: (ps ++ rest))
  | rule {id : RuleId} {start : Position} {r : RuleDescription}
      (hp : Placed g start (Layout.rule names id start r)) :
      Leaves (.block ⟨start.block⟩) [.block .once r.greedy r.alternatives]

/-- How the kind of an element goes with the phrases that it leaves, and what is left one link
further. -/
inductive Goes (e : Element) : List Phrase → Prop where
  | token {p : Phrase} {rest : List Phrase} {n : ElementId}
      (hwords : ∀ ρ, p.words names.vocabulary ρ = oneOf (g.tokensOf e.kind))
      (hprefixes : ∀ ρ π, p.prefixes names.vocabulary ρ π = 1 + oneOf (g.tokensOf e.kind))
      (hk : (∃ t, e.kind = .terminal t) ∨ e.kind = .wildcard ∨ ∃ t, e.kind = .notTerminal t)
      (hn : e.next = some n) (h : Leaves g names (.element n) rest) : Goes e (p :: rest)
  | call {name : String} {rest : List Phrase} {n : ElementId}
      (hk : e.kind = .reference name (names.rule name)) (hn : e.next = some n)
      (h : Leaves g names (.element n) rest) : Goes e (.call name :: rest)
  | block {b : BlockId} {ps : List Phrase} (hk : e.kind = .nested b ∨ e.kind = .loop b)
      (h : Leaves g names (.block b) ps) : Goes e ps
  | ruleEnd {id : RuleId} (hk : e.kind = .ruleEnd id) : Goes e []
  | blockEnd {b : BlockId} {blk : Block} {repetition : Repetition} {greedy : Option Bool}
      {alternatives : List (List Phrase)} {rest : List Phrase} (hk : e.kind = .blockEnd b)
      (hb : g.block? b = some blk) (hkind : blk.kind = .nested repetition)
      (hexit : Leaves g names (.element (g.exitTarget blk)) rest)
      (hagain : Leaves g names (.block b) (.block repetition greedy alternatives :: rest)) :
      Goes e (repeated repetition greedy alternatives ++ rest)

variable {g names} {site : Site} {start : Position} {ps rest : List Phrase} {repetition : Repetition}
  {greedy : Option Bool} {alternatives : List (List Phrase)} {id : ElementId} {e : Element}

/-- A nested block is left to the element behind it. -/
theorem exitTarget_of_block {next : ElementId}
    (hp : Placed g start (phrase names site next start (.block repetition greedy alternatives))) :
    ∃ blk, g.block? ⟨start.block⟩ = some blk ∧ blk.kind = .nested repetition ∧
      blk.alternatives = blockAlternatives ⟨start.element + 1⟩ (start.element + 2) alternatives ∧
      g.exitTarget blk = next := by
  obtain ⟨howner, -, hb, -⟩ := hp.of_block
  refine ⟨_, hb, rfl, rfl, ?_⟩
  simp [Grammar.exitTarget, Grammar.exit?, Grammar.next?, howner]

/-- The end of a nested block leaves what the element behind the block leaves, and the block again
where it is a loop. -/
theorem goes_blockEnd
    (hp : Placed g start (sequence names site start (.block repetition greedy alternatives :: ps)))
    (h : Resumes g names site rest) (hk : e.kind = .blockEnd ⟨start.block⟩) :
    Goes g names e (repeated repetition greedy alternatives ++ (ps ++ rest)) := by
  obtain ⟨hfirst, hrest⟩ := hp.of_sequence_cons
  obtain ⟨blk, hb, hkind, -, hexit⟩ := exitTarget_of_block hfirst
  refine .blockEnd hk hb hkind ?_ (.block hp h)
  rw [hexit]
  exact .sequence hrest h

/-- The first element of a sequence. -/
theorem goes_phrase {p : Phrase} (hp : Placed g start (sequence names site start (p :: ps)))
    (h : Resumes g names site rest) (hvoc : g.vocabulary = names.vocabulary)
    (he : g.element? ⟨start.element⟩ = some e) : Goes g names e (p :: (ps ++ rest)) := by
  obtain ⟨hfirst, hrest⟩ := hp.of_sequence_cons
  have hnext : Leaves g names (.element (entrance site (start.afterPhrase p) ps)) (ps ++ rest) :=
    .sequence hrest h
  have heq : ∀ {x : Element}, g.element? ⟨start.element⟩ = some x → e = x :=
    fun hx => Option.some.inj (he.symm.trans hx)
  cases p with
  | token name =>
    obtain rfl := heq (hfirst.element (i := 0) rfl)
    exact .token (fun _ => rfl) (fun _ _ => rfl) (Or.inl ⟨_, rfl⟩) rfl hnext
  | notToken name =>
    obtain rfl := heq (hfirst.element (i := 0) rfl)
    refine .token (fun ρ => ?_) (fun ρ π => ?_) (Or.inr (Or.inr ⟨_, rfl⟩)) rfl hnext
    · unfold Phrase.words Grammar.tokensOf
      rw [hvoc]
    · unfold Phrase.prefixes Grammar.tokensOf
      rw [hvoc]
  | wildcard =>
    obtain rfl := heq (hfirst.element (i := 0) rfl)
    refine .token (fun ρ => ?_) (fun ρ π => ?_) (Or.inr (Or.inl rfl)) rfl hnext
    · unfold Phrase.words Grammar.tokensOf
      rw [hvoc]
    · unfold Phrase.prefixes Grammar.tokensOf
      rw [hvoc]
  | call rule =>
    obtain rfl := heq (hfirst.element (i := 0) rfl)
    exact .call rfl rfl hnext
  | block repetition greedy alternatives =>
    obtain ⟨howner, -⟩ := hfirst.of_block
    obtain rfl := heq howner
    refine .block (b := ⟨start.block⟩) ?_ (.block hp h)
    cases repetition
    · exact Or.inl rfl
    · exact Or.inl rfl
    · exact Or.inr rfl
    · exact Or.inr rfl

/-- What an element leaves goes with its kind. -/
theorem Leaves.goes (h : Leaves g names (.element id) ps) (hvoc : g.vocabulary = names.vocabulary)
    (he : g.element? id = some e) : Goes g names e ps := by
  cases h with
  | @sequence site start ps rest hp h =>
    cases ps with
    | cons p ps => exact goes_phrase hp h hvoc he
    | nil =>
      cases h with
      | rule hp' =>
        obtain ⟨hend, -⟩ := hp'.of_rule
        obtain rfl : e = _ := Option.some.inj (he.symm.trans hend)
        exact .ruleEnd rfl
      | nested hp' h' =>
        obtain ⟨-, hend, -⟩ := hp'.of_sequence_cons.1.of_block
        obtain rfl : e = _ := Option.some.inj (he.symm.trans hend)
        exact goes_blockEnd hp' h' rfl

namespace Goes

variable {b : BlockId} {name : String} {target : RuleId} {t : TokenId}

theorem of_token (h : Goes g names e ps) (ht : t ∈ g.tokensOf e.kind) :
    ∃ p rest n, ps = p :: rest ∧ e.next = some n ∧ Leaves g names (.element n) rest ∧
      (∀ ρ, p.words names.vocabulary ρ = oneOf (g.tokensOf e.kind)) ∧
      ∀ ρ π, p.prefixes names.vocabulary ρ π = 1 + oneOf (g.tokensOf e.kind) := by
  cases h with
  | token hwords hprefixes hk hn h => exact ⟨_, _, _, rfl, hn, h, hwords, hprefixes⟩
  | call hk => simp [hk, Grammar.tokensOf] at ht
  | block hk => rcases hk with hk | hk <;> simp [hk, Grammar.tokensOf] at ht
  | ruleEnd hk => simp [hk, Grammar.tokensOf] at ht
  | blockEnd hk => simp [hk, Grammar.tokensOf] at ht

theorem of_reference (h : Goes g names e ps) (hk : e.kind = .reference name target) :
    ∃ rest n, ps = .call name :: rest ∧ target = names.rule name ∧ e.next = some n ∧
      Leaves g names (.element n) rest := by
  cases h with
  | token _ _ hk' => rcases hk' with ⟨t, hk'⟩ | hk' | ⟨t, hk'⟩ <;> simp [hk'] at hk
  | call hk' hn h =>
    obtain ⟨rfl, rfl⟩ := ElementKind.reference.inj (hk'.symm.trans hk)
    exact ⟨_, _, rfl, rfl, hn, h⟩
  | block hk' => rcases hk' with hk' | hk' <;> simp [hk'] at hk
  | ruleEnd hk' => simp [hk'] at hk
  | blockEnd hk' => simp [hk'] at hk

theorem of_inner (h : Goes g names e ps) (hk : e.kind = .nested b ∨ e.kind = .loop b) :
    Leaves g names (.block b) ps := by
  cases h with
  | token _ _ hk' => rcases hk' with ⟨t, hk'⟩ | hk' | ⟨t, hk'⟩ <;> simp [hk'] at hk
  | call hk' => simp [hk'] at hk
  | @block b' ps hk' h =>
    obtain rfl : b = b' := by rcases hk' with hk' | hk' <;> simp_all
    exact h
  | ruleEnd hk' => simp [hk'] at hk
  | blockEnd hk' => simp [hk'] at hk

theorem of_ruleEnd (h : Goes g names e ps) (hk : e.kind = .ruleEnd target) : ps = [] := by
  cases h with
  | token _ _ hk' => rcases hk' with ⟨t, hk'⟩ | hk' | ⟨t, hk'⟩ <;> simp [hk'] at hk
  | call hk' => simp [hk'] at hk
  | block hk' => rcases hk' with hk' | hk' <;> simp [hk'] at hk
  | ruleEnd _ => rfl
  | blockEnd hk' => simp [hk'] at hk

theorem of_blockEnd (h : Goes g names e ps) (hk : e.kind = .blockEnd b) {blk : Block}
    (hb : g.block? b = some blk) :
    ∃ repetition greedy alternatives rest,
      ps = repeated repetition greedy alternatives ++ rest ∧ blk.kind = .nested repetition ∧
      Leaves g names (.element (g.exitTarget blk)) rest ∧
      Leaves g names (.block b) (.block repetition greedy alternatives :: rest) := by
  cases h with
  | token _ _ hk' => rcases hk' with ⟨t, hk'⟩ | hk' | ⟨t, hk'⟩ <;> simp [hk'] at hk
  | call hk' => simp [hk'] at hk
  | block hk' => rcases hk' with hk' | hk' <;> simp [hk'] at hk
  | ruleEnd hk' => simp [hk'] at hk
  | blockEnd hk' hb' hkind hexit hagain =>
    obtain rfl := ElementKind.blockEnd.inj (hk'.symm.trans hk)
    obtain rfl := Option.some.inj (hb'.symm.trans hb)
    exact ⟨_, _, _, _, rfl, hkind, hexit, hagain⟩

end Goes

/-- The alternatives of a block, each followed by what is left behind the contents of the block. -/
theorem leaves_alternative (hp : Placed g start (choice names site start alternatives))
    (h : Resumes g names site rest) {a : Alternative}
    (ha : a ∈ blockAlternatives site.terminator start.element alternatives) :
    ∃ ps ∈ alternatives, Leaves g names (.element a.first) (ps ++ rest) := by
  induction alternatives generalizing start with
  | nil => simp [blockAlternatives] at ha
  | cons ps alternatives ih =>
    obtain ⟨hfirst, hrest⟩ := hp.of_choice_cons
    rcases List.mem_cons.1 ha with rfl | ha
    · have hleaves : Leaves g names (.element (entrance site start ps)) (ps ++ rest) :=
        .sequence hfirst h
      refine ⟨ps, by simp, ?_⟩
      cases ps with
      | nil => exact hleaves
      | cons p ps => exact hleaves
    · obtain ⟨ps', hps', hleaves⟩ := ih hrest ha
      exact ⟨ps', by simp [hps'], hleaves⟩

/-- What a block leaves begins with the block itself. Its alternatives leave the block to be
repeated if it is a loop, and an exit is there if the block may be skipped. -/
theorem Leaves.block_inv {b : BlockId} {blk : Block} (h : Leaves g names (.block b) ps)
    (hb : g.block? b = some blk) :
    ∃ repetition greedy alternatives rest, ps = .block repetition greedy alternatives :: rest ∧
      (blk.kind.canSkip = true → repetition.canSkip = true ∧
        Leaves g names (.element (g.exitTarget blk)) rest) ∧
      ∀ a ∈ blk.alternatives, ∃ qs ∈ alternatives, Leaves g names (.element a.first)
        (qs ++ (repeated repetition greedy alternatives ++ rest)) := by
  cases h with
  | @block site start repetition greedy alternatives ps rest hp h =>
    obtain ⟨hfirst, hrest⟩ := hp.of_sequence_cons
    obtain ⟨blk', hb', hkind, halternatives, hexit⟩ := exitTarget_of_block hfirst
    obtain rfl : blk = blk' := Option.some.inj (hb.symm.trans hb')
    obtain ⟨-, -, -, hchoice⟩ := hfirst.of_block
    refine ⟨repetition, greedy, alternatives, _, rfl, fun hskip => ?_, fun a ha => ?_⟩
    · rw [hkind] at hskip
      rw [hexit]
      exact ⟨hskip, .sequence hrest h⟩
    · rw [halternatives] at ha
      exact leaves_alternative hchoice (.nested hp h) ha
  | @rule id start r hp =>
    obtain ⟨-, hb', hchoice⟩ := hp.of_rule
    obtain rfl : blk = _ := Option.some.inj (hb.symm.trans hb')
    refine ⟨.once, r.greedy, r.alternatives, [], rfl, fun hskip => ?_, fun a ha => ?_⟩
    · simp [BlockKind.canSkip] at hskip
    · obtain ⟨qs, hqs, hleaves⟩ := leaves_alternative hchoice (.rule hp) ha
      exact ⟨qs, hqs, hleaves⟩

end GrammarLookahead.Layout
