import GrammarLookahead.Proofs.Grammar.Alternatives
import GrammarLookahead.Proofs.Grammar.NamedRules

/-!
A built grammar is a well-linked graph: every stored handle is in range, every alternative leads
through its elements to the terminator of its block, every element but the terminators is listed
once, nested blocks have one owner each, in a block of the same rule with a smaller number, and
references and callers agree. Main statement: `Description.wellLinked_of_build`.
-/

namespace GrammarLookahead

namespace Grammar

variable (g : Grammar)

/-- What an element refers to by its kind is in range. -/
def KindInRange : ElementKind → Prop
  | .terminal t | .notTerminal t => t.index < g.vocabulary.size
  | .wildcard => True
  | .reference _ target => target.index < g.rules.size
  | .nested id | .loop id | .blockEnd id => id.index < g.blocks.size
  | .ruleEnd id => id.index < g.rules.size

/-- Every stored handle is in range. -/
structure InRange : Prop where
  element : ∀ e ∈ g.elements, g.KindInRange e.kind ∧ e.block.index < g.blocks.size ∧
    ∀ n, e.next = some n → n.index < g.elements.size
  block : ∀ b ∈ g.blocks, b.terminator.index < g.elements.size ∧ b.rule.index < g.rules.size ∧
    (∀ o, b.owner = some o → o.index < g.elements.size) ∧
    ∀ a ∈ b.alternatives, a.first.index < g.elements.size ∧
      ∀ id ∈ a.elements, id.index < g.elements.size
  rule : ∀ r ∈ g.rules, r.block.index < g.blocks.size ∧ r.terminator.index < g.elements.size ∧
    ∀ site ∈ r.callers, site.index < g.elements.size

/-- The place of an element: only terminators have nothing behind them; any other element is listed
once, by an alternative of the block that it records. -/
structure ElementPlaced (id : ElementId) (e : Element) : Prop where
  next_none : e.next = none ↔ e.kind.isTerminator = true
  listed : e.kind.isTerminator = false → g.listed.count id = 1 ∧
    ∃ b, g.block? e.block = some b ∧ ∃ a ∈ b.alternatives, id ∈ a.elements
  terminates : e.kind.isTerminator = true → ∃ b, g.block? e.block = some b ∧ b.terminator = id
  reference : ∀ name target, e.kind = .reference name target →
    (∃ r, g.rule? target = some r ∧ r.name = name) ∧
      ∀ other r, g.rule? other = some r → r.name = name → other = target

/-- The owner of a nested block: the one element that stands for it, in a block of the same rule
with a smaller number. -/
structure OwnedBy (id : BlockId) (b : Block) (repetition : Repetition) (o : ElementId) : Prop where
  owner : b.owner = some o
  element : ∃ e, g.element? o = some e ∧
    e.kind = (if repetition.isLoop then .loop id else .nested id) ∧ e.block < id ∧
    ∃ outer, g.block? e.block = some outer ∧ outer.rule = b.rule
  alone : ∀ o' e', g.element? o' = some e' → e'.kind = .nested id ∨ e'.kind = .loop id → o' = o

/-- The place of a block: it has an alternative, each alternative leads to its terminator, which
ends no other block, and it is the block of its rule or has an owner. -/
structure BlockPlaced (id : BlockId) (b : Block) : Prop where
  nonempty : b.alternatives ≠ []
  leads : ∀ a ∈ b.alternatives, ∀ n, a.elements.length ≤ n →
    g.trail n a.first = a.elements ++ [b.terminator]
  terminator : g.element? b.terminator =
    some ⟨if b.kind = .rule then .ruleEnd b.rule else .blockEnd id, none, id⟩
  ends_alone : ∀ id' b', g.block? id' = some b' → b'.terminator = b.terminator → id' = id
  root : b.kind = .rule → b.owner = none ∧ ∃ r, g.rule? b.rule = some r ∧ r.block = id
  nested : ∀ repetition, b.kind = .nested repetition → ∃ o, g.OwnedBy id b repetition o
  exit : (g.exit? b).isSome = true ↔ b.kind ≠ .rule

/-- The place of a rule: its block and terminator belong to it, and its callers are the references
to it, in ascending order. -/
structure RulePlaced (id : RuleId) (r : Rule) : Prop where
  block : ∃ b, g.block? r.block = some b ∧ b.kind = .rule ∧ b.rule = id ∧
    b.terminator = r.terminator
  callers : ∀ site, site ∈ r.callers ↔
    ∃ e name, g.element? site = some e ∧ e.kind = .reference name id
  ascending : r.callers.Pairwise (· < ·)

/-- A graph all of whose handles are in range and whose nodes have their places. -/
structure WellLinked : Prop where
  inRange : g.InRange
  element : ∀ id e, g.element? id = some e → g.ElementPlaced id e
  block : ∀ id b, g.block? id = some b → g.BlockPlaced id b
  rule : ∀ id r, g.rule? id = some r → g.RulePlaced id r

variable {g}

theorem index_lt_of_element? {id : ElementId} {e : Element} (h : g.element? id = some e) :
    id.index < g.elements.size := (Array.getElem?_eq_some_iff.1 h).1

theorem index_lt_of_block? {id : BlockId} {b : Block} (h : g.block? id = some b) :
    id.index < g.blocks.size := (Array.getElem?_eq_some_iff.1 h).1

theorem index_lt_of_rule? {id : RuleId} {r : Rule} (h : g.rule? id = some r) :
    id.index < g.rules.size := (Array.getElem?_eq_some_iff.1 h).1

theorem element?_of_mem {e : Element} (h : e ∈ g.elements) : ∃ id, g.element? id = some e := by
  obtain ⟨i, hi⟩ := Array.mem_iff_getElem?.1 h
  exact ⟨⟨i⟩, hi⟩

theorem block?_of_mem {b : Block} (h : b ∈ g.blocks) : ∃ id, g.block? id = some b := by
  obtain ⟨i, hi⟩ := Array.mem_iff_getElem?.1 h
  exact ⟨⟨i⟩, hi⟩

theorem rule?_of_mem {r : Rule} (h : r ∈ g.rules) : ∃ id, g.rule? id = some r := by
  obtain ⟨i, hi⟩ := Array.mem_iff_getElem?.1 h
  exact ⟨⟨i⟩, hi⟩

end Grammar

namespace Description

open Layout

variable {ucd : Unicode} {d : Description} {g : Grammar} {site : Site} {start : Position}
  {next id : ElementId}
  {p : Phrase} {pss : List (List Phrase)} {e : Element}

/-- An element other than a terminator is the first one of a phrase. -/
theorem phrase_of_element (he : d.layout.element? id = some e) (hk : e.kind.isTerminator = false) :
    ∃ site start next p, d.Occurs site start (.phrase next p) ∧ id = ⟨start.element⟩ ∧
      e = ⟨phraseKind d.names start p, some next, site.block⟩ := by
  rcases d.occurs_element he with ⟨site, start, next, p, hp, rfl⟩ | ⟨site, start, pss, hp, rfl⟩
  · exact ⟨site, start, next, p, hp, rfl, Option.some.inj (he.symm.trans hp.element)⟩
  · obtain ⟨kind, hkind, hend⟩ := hp.terminator
    obtain rfl := Option.some.inj (he.symm.trans hend)
    exact absurd hkind (by simp [hk])

/-- A terminator ends a block. -/
theorem contents_of_element (he : d.layout.element? id = some e)
    (hk : e.kind.isTerminator = true) :
    ∃ site start pss, d.Occurs site start (.contents pss) ∧ id = site.terminator ∧
      e.block = site.block := by
  rcases d.occurs_element he with ⟨site, start, next, p, hp, rfl⟩ | ⟨site, start, pss, hp, rfl⟩
  · obtain rfl := Option.some.inj (he.symm.trans hp.element)
    simp [isTerminator_phraseKind] at hk
  · obtain ⟨kind, -, hend⟩ := hp.terminator
    obtain rfl := Option.some.inj (he.symm.trans hend)
    exact ⟨site, start, pss, hp, rfl, rfl⟩

/-- A reference leads to the first rule of its name, if there is one. -/
theorem target_of_reference {name : String} {target : RuleId} (he : d.layout.element? id = some e)
    (hk : e.kind = .reference name target) : target = d.names.rule name := by
  obtain ⟨site, start, next, p, -, -, rfl⟩ := phrase_of_element he (by rw [hk]; rfl)
  cases p with
  | call rule =>
    obtain ⟨rfl, rfl⟩ := ElementKind.reference.inj hk
    rfl
  | block repetition => cases repetition <;> cases hk
  | _ => cases hk

/-- A call leads to the one rule of the name that is called. -/
theorem rule_of_reference (h : d.build ucd = .ok g) {name : String} {target : RuleId}
    (he : g.element? id = some e) (hk : e.kind = .reference name target) :
    (∃ r, g.rule? target = some r ∧ r.name = name) ∧
      ∀ other r, g.rule? other = some r → r.name = name → other = target := by
  have hnames := fun other r (hr : g.rule? other = some r) => names_rule_of_rule? h hr
  obtain ⟨rule, hrule⟩ := resolved_of_build h he hk
  obtain ⟨-, rfl⟩ := build_eq_ok.1 h
  obtain rfl := target_of_reference he hk
  obtain ⟨r, hr⟩ := exists_ruleNamed hrule
  have hname : r.name = name := by simpa using List.find?_some hr
  obtain ⟨r', start', hr', rfl, -⟩ := d.placed_rule hrule
  obtain rfl := Option.some.inj (((d.ruleNamed?_eq name).symm.trans hr).symm.trans hr')
  refine ⟨⟨_, hrule, hname⟩, fun other r hr hsame => ?_⟩
  rw [← hnames other r hr, hsame]

theorem elementPlaced (h : d.build ucd = .ok g) (he : g.element? id = some e) :
    g.ElementPlaced id e := by
  have hlinked := (d.linked_of_build h).element he
  have hreference := fun name target (hk : e.kind = .reference name target) =>
    rule_of_reference h he hk
  obtain ⟨-, rfl⟩ := build_eq_ok.1 h
  refine ⟨hlinked.next_none, fun hk => ?_, fun hk => ?_, hreference⟩
  · obtain ⟨site, start, next, p, hp, rfl, rfl⟩ := phrase_of_element he hk
    obtain ⟨b, hb, a, ha, hmem⟩ := hp.listed
    refine ⟨List.count_eq_one_of_mem d.nodup_listed ?_, b, hb, a, ha, hmem⟩
    refine List.mem_flatMap.2 ⟨b, ?_, List.mem_flatMap.2 ⟨a, ha, hmem⟩⟩
    exact Array.mem_toList_iff.2 (Array.mem_of_getElem? hb)
  · obtain ⟨site, start, pss, hp, rfl, hblock⟩ := contents_of_element he hk
    obtain ⟨b, hb, -, hterminator⟩ := hp.block
    exact ⟨b, by rw [hblock, hb], hterminator⟩

/-- In a description that builds, no rule and no nested block is without alternatives. -/
theorem alternatives_ne_nil (h : d.build ucd = .ok g) {id : BlockId} {b : Block}
    (hb : g.block? id = some b) : b.alternatives ≠ [] := by
  have hlinked := (d.linked_of_build h).block hb
  obtain ⟨hfault, rfl⟩ := build_eq_ok.1 h
  have hnone := (of_fault?_eq_none hfault).2.2.2
  rw [Grammar.fault?, Option.or_eq_none_iff] at hnone
  obtain ⟨hrules, hblocks⟩ := hnone
  intro hempty
  by_cases hkind : b.kind = .rule
  · obtain ⟨r, hr, rfl⟩ := hlinked.rule hkind
    have hmem : r ∈ d.layout.rules.toList := Array.mem_toList_iff.2 (Array.mem_of_getElem? hr)
    have := List.findSome?_eq_none_iff.1 hrules r hmem
    simp [hb, hempty] at this
  · have hmem : (b, id.index) ∈ d.layout.blocks.toList.zipIdx := by
      rw [List.mk_mem_zipIdx_iff_getElem?, Array.getElem?_toList]
      exact hb
    have := List.findSome?_eq_none_iff.1 hblocks _ hmem
    simp [Grammar.blockFault, hkind, hempty] at this

/-- The terminator of a block names it, or its rule. -/
theorem Occurs.terminator_eq (h : d.Occurs site start (.contents pss)) {b : Block}
    (hb : d.layout.block? site.block = some b) : d.layout.element? b.terminator =
      some ⟨if b.kind = .rule then .ruleEnd b.rule else .blockEnd site.block, none, site.block⟩ := by
  cases h with
  | rule hr hrule hplaced =>
    obtain ⟨hend, hblock, -⟩ := hplaced.of_rule
    obtain rfl := Option.some.inj (hb.symm.trans hblock)
    exact hend
  | inner h =>
    obtain ⟨-, hend, hblock, -⟩ := h.placed.of_block
    obtain rfl := Option.some.inj (hb.symm.trans hblock)
    exact hend

theorem eq_of_ownerKind {repetition : Repetition} {id inner : BlockId}
    (h : ownerKind repetition id = .nested inner ∨ ownerKind repetition id = .loop inner) :
    id = inner := by
  unfold ownerKind at h
  split at h <;> simpa using h

/-- A nested block is owned by the one element that stands for it. -/
theorem Occurs.ownedBy {repetition : Repetition} {greedy : Option Bool}
    (h : d.Occurs site start (.phrase next (.block repetition greedy pss))) {b : Block}
    (hb : d.layout.block? ⟨start.block⟩ = some b) :
    d.layout.OwnedBy ⟨start.block⟩ b repetition ⟨start.element⟩ := by
  obtain ⟨-, -, hblock, -⟩ := h.placed.of_block
  obtain rfl := Option.some.inj (hb.symm.trans hblock)
  obtain ⟨outer, houter, hrule, -⟩ := h.block
  refine ⟨rfl, ⟨_, h.element, rfl, h.block_lt, outer, houter, hrule⟩, fun o e ho hk => ?_⟩
  have hnot : e.kind.isTerminator = false := by rcases hk with hk | hk <;> rw [hk] <;> rfl
  obtain ⟨site', start', next', p, hp, rfl, rfl⟩ := phrase_of_element ho hnot
  -- The element stands for the same block, which knows its owner.
  cases p with
  | block repetition' greedy' alternatives =>
    have hsame : (⟨start'.block⟩ : BlockId) = ⟨start.block⟩ := eq_of_ownerKind hk
    have hother := hp.placed.of_block.2.2.1
    rw [hsame, hblock, Option.some.injEq, Block.mk.injEq] at hother
    exact (Option.some.inj hother.2.2.2.2.1).symm
  | _ => rcases hk with hk | hk <;> cases hk

/-- A block is the block of its rule, or nested and owned. -/
theorem Occurs.root_or_owned (h : d.Occurs site start (.contents pss)) {b : Block}
    (hb : d.layout.block? site.block = some b) :
    b.kind = .rule ∧ b.owner = none ∨ ∃ repetition o next, b.kind = .nested repetition ∧
      d.layout.OwnedBy site.block b repetition o ∧ d.layout.next? o = some next := by
  cases h with
  | rule hr hrule hplaced =>
    obtain rfl := Option.some.inj (hb.symm.trans hplaced.of_rule.2.1)
    exact Or.inl ⟨rfl, rfl⟩
  | inner h =>
    have howned := h.ownedBy hb
    obtain rfl := Option.some.inj (hb.symm.trans h.placed.of_block.2.2.1)
    exact Or.inr ⟨_, _, _, rfl, howned, h.next?⟩

theorem blockPlaced (h : d.build ucd = .ok g) {id : BlockId} {b : Block}
    (hb : g.block? id = some b) : g.BlockPlaced id b := by
  have hnonempty := alternatives_ne_nil h hb
  have hrule := ((d.linked_of_build h).block hb).rule
  obtain ⟨-, rfl⟩ := build_eq_ok.1 h
  obtain ⟨site, start, pss, hp, rfl⟩ := d.occurs_block hb
  obtain ⟨b', hb', -, hterminator, halternatives⟩ := hp.contents
  obtain rfl := Option.some.inj (hb.symm.trans hb')
  have hend := hp.terminator_eq hb
  have hleads : ∀ a ∈ b.alternatives, ∀ n, a.elements.length ≤ n →
      d.layout.trail n a.first = a.elements ++ [b.terminator] := fun a ha n hn => by
    rw [hterminator]
    exact hp.choice.trail_choice (halternatives ▸ ha) hn
  have halone : ∀ id' b', d.layout.block? id' = some b' → b'.terminator = b.terminator →
      id' = site.block := fun id' b' hb' heq => by
    obtain ⟨site', start', pss', hp', rfl⟩ := d.occurs_block hb'
    have hend' := hp'.terminator_eq hb'
    rw [heq, hend, Option.some.injEq, Element.mk.injEq] at hend'
    exact hend'.2.2.symm
  rcases hp.root_or_owned hb with ⟨hkind, howner⟩ | ⟨repetition, o, next, hkind, howned, hnext⟩
  · refine ⟨hnonempty, hleads, hend, halone, fun hk => ⟨howner, hrule hk⟩, fun _ hk => ?_, ?_⟩
    · exact absurd (hkind.symm.trans hk) BlockKind.noConfusion
    · simp [Grammar.exit?, howner, hkind]
  · refine ⟨hnonempty, hleads, hend, halone, fun hk => ?_, fun repetition' hk => ?_, ?_⟩
    · exact absurd (hkind.symm.trans hk) BlockKind.noConfusion
    · obtain rfl := BlockKind.nested.inj (hkind.symm.trans hk)
      exact ⟨o, howned⟩
    · simp [Grammar.exit?, howned.owner, hnext, hkind]

theorem rulePlaced {id : RuleId} {r : Rule} (hr : d.layout.rule? id = some r) :
    d.layout.RulePlaced id r := by
  have hcallers := (ruleLinked hr).callers
  obtain ⟨r', start, hr', rfl, hplaced⟩ := d.placed_rule hr
  refine ⟨⟨_, hplaced.of_rule.2.1, rfl, rfl, rfl⟩, fun site => ?_, callers_ascending _ _⟩
  rw [hcallers]
  constructor
  · rintro ⟨e, he, htarget⟩
    cases hk : e.kind with
    | reference name target =>
      rw [hk] at htarget
      obtain rfl := Option.some.inj htarget
      exact ⟨e, name, he, hk⟩
    | _ => simp [hk, ElementKind.target?] at htarget
  · rintro ⟨e, name, he, hk⟩
    exact ⟨e, he, by rw [hk]; rfl⟩

/-- A part occurs in a rule of the graph. -/
theorem Occurs.rule? {part : Part} (h : d.Occurs site start part) :
    ∃ r, d.layout.rule? site.rule = some r := by
  induction h with
  | rule hr hrule hplaced => exact ⟨_, hrule⟩
  | _ => assumption

theorem kindInRange (h : d.build ucd = .ok g) (he : g.element? id = some e) :
    g.KindInRange e.kind := by
  have hlinked := (d.linked_of_build h).element he
  obtain ⟨b, hb⟩ := hlinked.block
  have hkind := hlinked.kind
  cases hk : e.kind with
  | terminal t =>
    rw [hk] at hkind
    exact hkind
  | wildcard => trivial
  | notTerminal t =>
    obtain ⟨-, rfl⟩ := build_eq_ok.1 h
    obtain ⟨site, start, next, p, hp, rfl, rfl⟩ := phrase_of_element he (by rw [hk]; rfl)
    cases p with
    | notToken name =>
      obtain rfl := ElementKind.notTerminal.inj hk
      exact Vocabulary.index_idOf_lt (mem_vocabulary_names (hp.tokenNames name
        (List.mem_singleton_self name)))
    | block repetition => cases repetition <;> cases hk
    | _ => cases hk
  | reference name target =>
    rw [hk] at hkind
    obtain ⟨r, hr⟩ := hkind
    exact Grammar.index_lt_of_rule? hr
  | nested id | loop id =>
    rw [hk] at hkind
    obtain ⟨inner, outer, hinner, -⟩ := hkind
    exact Grammar.index_lt_of_block? hinner
  | blockEnd id =>
    rw [hk] at hkind
    exact Grammar.index_lt_of_block? (hkind ▸ hb)
  | ruleEnd id =>
    rw [hk] at hkind
    obtain ⟨r, hr, -⟩ := hkind
    exact Grammar.index_lt_of_rule? hr

theorem inRange (h : d.build ucd = .ok g) : g.InRange := by
  have hg := d.linked_of_build h
  refine ⟨fun e he => ?_, fun b hb => ?_, fun r hr => ?_⟩
  · obtain ⟨id, he⟩ := Grammar.element?_of_mem he
    obtain ⟨b, hb⟩ := (hg.element he).block
    refine ⟨kindInRange h he, Grammar.index_lt_of_block? hb, fun n hn => ?_⟩
    obtain ⟨e', he', -⟩ := (hg.element he).next n hn
    exact Grammar.index_lt_of_element? he'
  · obtain ⟨id, hb⟩ := Grammar.block?_of_mem hb
    obtain ⟨end', hend, -⟩ := (hg.block hb).terminator
    have hfirst := (hg.block hb).first
    have howner := (hg.block hb).owner
    obtain ⟨-, rfl⟩ := build_eq_ok.1 h
    obtain ⟨site, start, pss, hp, rfl⟩ := d.occurs_block hb
    obtain ⟨b', hb', hrule, -⟩ := hp.block
    obtain rfl := Option.some.inj (hb.symm.trans hb')
    obtain ⟨r, hr⟩ := hp.rule?
    refine ⟨Grammar.index_lt_of_element? hend, Grammar.index_lt_of_rule? (hrule ▸ hr),
      fun o ho => ?_, fun a ha => ⟨?_, fun id hid => ?_⟩⟩
    · obtain ⟨e, outer, he, -⟩ := howner o ho
      exact Grammar.index_lt_of_element? he
    · obtain ⟨e, he, -⟩ := hfirst a ha
      exact Grammar.index_lt_of_element? he
    · obtain ⟨site', start', next, p, hp', -, rfl⟩ :=
        of_mem_listedIn hb (List.mem_flatMap.2 ⟨a, ha, hid⟩)
      exact Grammar.index_lt_of_element? hp'.element
  · obtain ⟨id, hr⟩ := Grammar.rule?_of_mem hr
    obtain ⟨⟨b, hb, -⟩, ⟨e, he, -⟩, hcallers, -⟩ := hg.rule hr
    refine ⟨Grammar.index_lt_of_block? hb, Grammar.index_lt_of_element? he, fun site hsite => ?_⟩
    obtain ⟨e', he', -⟩ := (hcallers site).1 hsite
    exact Grammar.index_lt_of_element? he'

/-- A built grammar is a well-linked graph. -/
theorem wellLinked_of_build (h : d.build ucd = .ok g) : g.WellLinked where
  inRange := inRange h
  element _ _ he := elementPlaced h he
  block _ _ hb := blockPlaced h hb
  rule _ _ hr := by
    obtain ⟨-, rfl⟩ := build_eq_ok.1 h
    exact rulePlaced hr

end Description

/-- `s : ( "a" s | ( "b" )* )? ;` -/
def nestedWords : Description where
  maxDepth := 1
  declarations :=
    [.rule
      { name := "s"
        entry := true
        alternatives := [[.block .optional none
          [[.token "a", .call "s"], [.block .zeroOrMore none [[.token "b"]]]]]] }]

theorem nestedWords_build : nestedWords.build .ascii = .ok nestedWords.layout := rfl

theorem nestedWords_wellLinked :
    nestedWords.build .ascii = .ok nestedWords.layout ∧ nestedWords.layout.WellLinked :=
  ⟨nestedWords_build, Description.wellLinked_of_build nestedWords_build⟩

end GrammarLookahead
