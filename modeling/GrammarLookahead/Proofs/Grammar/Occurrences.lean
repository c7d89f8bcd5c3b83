import GrammarLookahead.Proofs.Grammar.Placement

/-!
Where the parts of a description occur in its graph. A rule holds alternatives, an alternative holds
phrases, and a phrase may hold alternatives again. Every element of the graph is the first element
of a phrase or the terminator of a block, and every block holds the alternatives of a rule or of a
phrase; what holds of all nodes is proved by these cases. Main statements:
`Description.occurs_element` and `Description.occurs_block`.
-/

namespace GrammarLookahead

namespace Layout

/-- A part of the contents of a block. -/
inductive Part where
  /-- All alternatives of the block. -/
  | contents (alternatives : List (List Phrase))
  /-- The alternatives of the block from some alternative on. -/
  | choice (alternatives : List (List Phrase))
  /-- The phrases of an alternative from some phrase on. -/
  | sequence (phrases : List Phrase)
  /-- A phrase, and the element behind it. -/
  | phrase (next : ElementId) (phrase : Phrase)

/-- The nodes that a part takes. -/
def Part.nodes (names : Names) (site : Site) (start : Position) : Part → Nodes
  | contents alternatives => Layout.choice names site start alternatives
  | choice alternatives => Layout.choice names site start alternatives
  | sequence phrases => Layout.sequence names site start phrases
  | phrase next p => Layout.phrase names site next start p

def Part.tokenNames : Part → List String
  | contents alternatives => Phrase.tokenNamesOfAlternatives alternatives
  | choice alternatives => Phrase.tokenNamesOfAlternatives alternatives
  | sequence phrases => Phrase.tokenNamesOfSequence phrases
  | phrase _ p => p.tokenNames

/-- What the first element of a phrase stands for. -/
def phraseKind (names : Names) (start : Position) : Phrase → ElementKind
  | .token name => .terminal (names.vocabulary.idOf name)
  | .notToken name => .notTerminal (names.vocabulary.idOf name)
  | .wildcard => .wildcard
  | .call rule => .reference rule (names.rule rule)
  | .block repetition _ _ => ownerKind repetition ⟨start.block⟩

theorem isTerminator_phraseKind (names : Names) (start : Position) (p : Phrase) :
    (phraseKind names start p).isTerminator = false := by
  cases p with
  | block repetition => cases repetition <;> rfl
  | _ => rfl

end Layout

namespace Description

open Layout

variable (d : Description)

/-- Where the parts of a description occur: in which block, and from which position on. -/
inductive Occurs : Site → Position → Part → Prop
  | rule {i : Nat} {r : RuleDescription} {start : Position} (hr : d.rules[i]? = some r)
      (hrule : d.layout.rule? ⟨i⟩ = some ⟨r.name, ⟨start.block⟩, ⟨start.element⟩,
        callers d.nodes.elements ⟨i⟩, r.entry⟩)
      (hplaced : Placed d.layout start (Layout.rule d.names ⟨i⟩ start r)) :
      Occurs ⟨⟨i⟩, ⟨start.block⟩, ⟨start.element⟩⟩ (start.skip 1 1) (.contents r.alternatives)
  | inner {site : Site} {start : Position} {next : ElementId} {repetition : Repetition}
      {greedy : Option Bool} {alternatives : List (List Phrase)}
      (h : Occurs site start (.phrase next (.block repetition greedy alternatives))) :
      Occurs ⟨site.rule, ⟨start.block⟩, ⟨start.element + 1⟩⟩ (start.skip 2 1)
        (.contents alternatives)
  | choice {site : Site} {start : Position} {alternatives : List (List Phrase)}
      (h : Occurs site start (.contents alternatives)) : Occurs site start (.choice alternatives)
  | alternatives {site : Site} {start : Position} {ps : List Phrase} {rest : List (List Phrase)}
      (h : Occurs site start (.choice (ps :: rest))) :
      Occurs site (start.afterSequence ps) (.choice rest)
  | alternative {site : Site} {start : Position} {ps : List Phrase} {rest : List (List Phrase)}
      (h : Occurs site start (.choice (ps :: rest))) : Occurs site start (.sequence ps)
  | phrases {site : Site} {start : Position} {p : Phrase} {ps : List Phrase}
      (h : Occurs site start (.sequence (p :: ps))) :
      Occurs site (start.afterPhrase p) (.sequence ps)
  | phrase {site : Site} {start : Position} {p : Phrase} {ps : List Phrase}
      (h : Occurs site start (.sequence (p :: ps))) :
      Occurs site start
        (.phrase (if ps.isEmpty then site.terminator else ⟨(start.afterPhrase p).element⟩) p)

variable {d} {site : Site} {start : Position} {part : Part} {next : ElementId} {p : Phrase}
  {ps : List Phrase} {pss : List (List Phrase)}

/-- A part stands in the graph where it occurs. -/
theorem Occurs.placed (h : d.Occurs site start part) :
    Placed d.layout start (part.nodes d.names site start) := by
  induction h with
  | rule hr hrule hplaced => exact hplaced.of_rule.2.2
  | inner h ih => exact ih.of_block.2.2.2
  | choice h ih => exact ih
  | alternatives h ih => exact ih.of_choice_cons.2
  | alternative h ih => exact ih.of_choice_cons.1
  | phrases h ih => exact ih.of_sequence_cons.2
  | phrase h ih => exact ih.of_sequence_cons.1

/-- The first element of a phrase. -/
theorem Occurs.element (h : d.Occurs site start (.phrase next p)) : d.layout.element? ⟨start.element⟩ =
    some ⟨phraseKind d.names start p, some next, site.block⟩ := by
  have hplaced := h.placed
  cases p with
  | block repetition greedy alternatives => exact hplaced.of_block.1
  | _ => exact hplaced.element (i := 0) rfl

/-- The block around a part. -/
theorem Occurs.block (h : d.Occurs site start part) : ∃ b, d.layout.block? site.block = some b ∧
    b.rule = site.rule ∧ b.terminator = site.terminator := by
  induction h with
  | rule hr hrule hplaced => exact ⟨_, hplaced.of_rule.2.1, rfl, rfl⟩
  | inner h ih => exact ⟨_, h.placed.of_block.2.2.1, rfl, rfl⟩
  | _ => assumption

/-- The terminator of the block around a part. -/
theorem Occurs.terminator (h : d.Occurs site start part) : ∃ kind, kind.isTerminator = true ∧
    d.layout.element? site.terminator = some ⟨kind, none, site.block⟩ := by
  induction h with
  | rule hr hrule hplaced => exact ⟨_, rfl, hplaced.of_rule.1⟩
  | inner h ih => exact ⟨_, rfl, h.placed.of_block.2.1⟩
  | _ => assumption

/-- A block whose contents are known. -/
theorem Occurs.contents (h : d.Occurs site start (.contents pss)) :
    ∃ b, d.layout.block? site.block = some b ∧ b.rule = site.rule ∧
      b.terminator = site.terminator ∧
      b.alternatives = blockAlternatives site.terminator start.element pss := by
  cases h with
  | rule hr hrule hplaced => exact ⟨_, hplaced.of_rule.2.1, rfl, rfl, rfl⟩
  | inner h => exact ⟨_, h.placed.of_block.2.2.1, rfl, rfl, rfl⟩

/-- What stands behind a phrase lies in the same block. -/
theorem Occurs.behind (h : d.Occurs site start (.phrase next p)) :
    ∃ e, d.layout.element? next = some e ∧ e.block = site.block := by
  cases h with
  | @phrase _ _ _ ps h =>
    cases ps with
    | nil =>
      obtain ⟨kind, -, hend⟩ := h.terminator
      exact ⟨_, hend, rfl⟩
    | cons q qs => exact ⟨_, h.phrases.phrase.element, rfl⟩

/-- An alternative begins in its block or at the terminator. -/
theorem Occurs.first (h : d.Occurs site start (.choice pss)) :
    ∀ a ∈ blockAlternatives site.terminator start.element pss,
      ∃ e, d.layout.element? a.first = some e ∧ e.block = site.block := by
  induction pss generalizing start with
  | nil => exact fun a ha => absurd ha List.not_mem_nil
  | cons ps rest ih =>
    intro a ha
    rcases List.mem_cons.1 ha with rfl | ha
    · cases ps with
      | nil =>
        obtain ⟨kind, -, hend⟩ := h.terminator
        exact ⟨_, hend, rfl⟩
      | cons p ps => exact ⟨_, h.alternative.phrase.element, rfl⟩
    · exact ih h.alternatives a ha

/-- The tokens of a part belong to the description. -/
theorem Occurs.tokenNames (h : d.Occurs site start part) :
    ∀ name ∈ part.tokenNames, name ∈ d.tokenNames := by
  induction h with
  | rule hr hrule hplaced =>
    intro name hname
    obtain ⟨declaration, hd, heq⟩ := List.mem_filterMap.1 (List.mem_of_getElem? hr)
    cases declaration with
    | token name => cases heq
    | rule r =>
      obtain rfl := Option.some.inj heq
      exact List.mem_flatMap.2 ⟨_, hd, hname⟩
  | inner h ih => exact fun name hname => ih name hname
  | choice h ih => exact ih
  | alternatives h ih => exact fun name hname => ih name (List.mem_append_right _ hname)
  | alternative h ih => exact fun name hname => ih name (List.mem_append_left _ hname)
  | phrases h ih => exact fun name hname => ih name (List.mem_append_right _ hname)
  | phrase h ih => exact fun name hname => ih name (List.mem_append_left _ hname)

variable (d) in
/-- An element is the first one of a phrase or the terminator of a block. -/
def HasElement (id : ElementId) : Prop :=
  (∃ site start next p, d.Occurs site start (.phrase next p) ∧ id = ⟨start.element⟩) ∨
    ∃ site start pss, d.Occurs site start (.contents pss) ∧ id = site.terminator

variable (d) in
/-- A block has its contents somewhere. -/
def HasBlock (id : BlockId) : Prop :=
  ∃ site start pss, d.Occurs site start (.contents pss) ∧ id = site.block

variable (d) in
/-- A number of nodes from a position on, each of which has its place. -/
structure Covered (start : Position) (elements blocks : Nat) : Prop where
  element : ∀ i, i < elements → d.HasElement ⟨start.element + i⟩
  block : ∀ i, i < blocks → d.HasBlock ⟨start.block + i⟩

theorem Covered.append {m n m' n' : Nat} (h : d.Covered start m n)
    (k : d.Covered (start.skip m n) m' n') : d.Covered start (m + m') (n + n') where
  element i hi := by
    rcases Nat.lt_or_ge i m with hlt | hge
    · exact h.element i hlt
    · have := k.element (i - m) (by omega)
      rwa [Position.skip, show start.element + m + (i - m) = start.element + i by omega] at this
  block i hi := by
    rcases Nat.lt_or_ge i n with hlt | hge
    · exact h.block i hlt
    · have := k.block (i - n) (by omega)
      rwa [Position.skip, show start.block + n + (i - n) = start.block + i by omega] at this

theorem covered_none (start : Position) : d.Covered start 0 0 :=
  ⟨fun i hi => absurd hi (Nat.not_lt_zero i), fun i hi => absurd hi (Nat.not_lt_zero i)⟩

theorem covered_one (h : d.HasElement ⟨start.element⟩) : d.Covered start 1 0 where
  element i hi := by
    obtain rfl : i = 0 := by omega
    exact h
  block i hi := absurd hi (Nat.not_lt_zero i)

/-- The owner, the terminator and the number of a nested block. -/
theorem covered_owner (howner : d.HasElement ⟨start.element⟩)
    (hend : d.HasElement ⟨start.element + 1⟩) (hblock : d.HasBlock ⟨start.block⟩) :
    d.Covered start 2 1 where
  element i hi := by
    obtain rfl | rfl : i = 0 ∨ i = 1 := by omega
    · exact howner
    · exact hend
  block i hi := by
    obtain rfl : i = 0 := by omega
    exact hblock

mutual

theorem covered_phrase (site : Site) (start : Position) (next : ElementId) :
    ∀ p : Phrase, d.Occurs site start (.phrase next p) →
      d.Covered start p.elementCount p.blockCount
  | .token _, h | .notToken _, h | .wildcard, h | .call _, h =>
    covered_one (Or.inl ⟨site, start, next, _, h, rfl⟩)
  | .block _ _ alternatives, h => by
    have hcontents := h.inner
    have howner := covered_owner (Or.inl ⟨site, start, next, _, h, rfl⟩)
      (Or.inr ⟨_, _, _, hcontents, rfl⟩) ⟨_, _, _, hcontents, rfl⟩
    exact howner.append (covered_choice _ (start.skip 2 1) alternatives hcontents.choice)

theorem covered_sequence (site : Site) (start : Position) :
    ∀ ps : List Phrase, d.Occurs site start (.sequence ps) →
      d.Covered start (Phrase.elementCountOfSequence ps) (Phrase.blockCountOfSequence ps)
  | [], _ => covered_none start
  | p :: ps, h =>
    (covered_phrase site start _ p h.phrase).append
      (covered_sequence site (start.afterPhrase p) ps h.phrases)

theorem covered_choice (site : Site) (start : Position) :
    ∀ pss : List (List Phrase), d.Occurs site start (.choice pss) →
      d.Covered start (Phrase.elementCountOfAlternatives pss) (Phrase.blockCountOfAlternatives pss)
  | [], _ => covered_none start
  | ps :: rest, h =>
    (covered_sequence site start ps h.alternative).append
      (covered_choice site (start.afterSequence ps) rest h.alternatives)

end

/-- Goes through the rules of a description, each at the position where its nodes begin. -/
theorem rules_induction {motive : Nat → Position → List RuleDescription → Prop}
    (nil : ∀ id start, motive id start [])
    (cons : ∀ id start r rs, d.rules[id]? = some r →
      d.layout.rule? ⟨id⟩ = some ⟨r.name, ⟨start.block⟩, ⟨start.element⟩,
        callers d.nodes.elements ⟨id⟩, r.entry⟩ →
      Placed d.layout start (Layout.rule d.names ⟨id⟩ start r) →
      motive (id + 1) (start.afterRule r) rs → motive id start (r :: rs)) :
    motive 0 ⟨0, 0⟩ d.rules := by
  have hall : ∀ (rs : List RuleDescription) (id : Nat) (start : Position),
      (∀ i r, rs[i]? = some r → d.rules[id + i]? = some r) →
      (∀ i r, (ruleTable d.nodes.elements id start rs)[i]? = some r →
        d.layout.rule? ⟨id + i⟩ = some r) →
      Placed d.layout start (Layout.rules d.names id start rs) → motive id start rs := by
    intro rs
    induction rs with
    | nil => exact fun id start _ _ _ => nil id start
    | cons r rs ih =>
      intro id start hrules htable hp
      obtain ⟨hfirst, hrest⟩ := hp.of_rules_cons
      have hshift : ∀ i, id + (i + 1) = id + 1 + i := fun i => by omega
      refine cons id start r rs (hrules 0 r rfl) (htable 0 _ rfl) hfirst ?_
      exact ih (id + 1) (start.afterRule r) (fun i r' hi => hshift i ▸ hrules (i + 1) r' hi)
        (fun i r' hi => hshift i ▸ htable (i + 1) r' hi) hrest
  refine hall d.rules 0 ⟨0, 0⟩ (fun i r hi => ?_) (fun i r hi => ?_) d.placed_nodes
  · rwa [Nat.zero_add]
  · rw [rule?_layout, Nat.zero_add]
    exact hi

theorem covered_rule {i : Nat} {r : RuleDescription} (hr : d.rules[i]? = some r)
    (hrule : d.layout.rule? ⟨i⟩ = some ⟨r.name, ⟨start.block⟩, ⟨start.element⟩,
      callers d.nodes.elements ⟨i⟩, r.entry⟩)
    (hplaced : Placed d.layout start (Layout.rule d.names ⟨i⟩ start r)) :
    d.Covered start (1 + Phrase.elementCountOfAlternatives r.alternatives)
      (1 + Phrase.blockCountOfAlternatives r.alternatives) := by
  have hcontents := Occurs.rule hr hrule hplaced
  have hself : d.Covered start 1 1 := by
    refine ⟨fun i hi => ?_, fun i hi => ?_⟩
    · obtain rfl : i = 0 := by omega
      exact Or.inr ⟨_, _, _, hcontents, rfl⟩
    · obtain rfl : i = 0 := by omega
      exact ⟨_, _, _, hcontents, rfl⟩
  exact hself.append (covered_choice _ (start.skip 1 1) r.alternatives hcontents.choice)

theorem covered_nodes (d : Description) :
    d.Covered ⟨0, 0⟩ d.nodes.elements.length d.nodes.blocks.length := by
  refine rules_induction (motive := fun id start rs => d.Covered start
    (Layout.rules d.names id start rs).elements.length
    (Layout.rules d.names id start rs).blocks.length) (fun _ start => covered_none start) ?_
  intro id start r rs hr hrule hplaced hrest
  obtain ⟨helements, hblocks⟩ := length_rules_cons d.names id start r rs
  rw [helements, hblocks]
  exact (covered_rule hr hrule hplaced).append hrest

/-- Every element of the graph is the first one of a phrase or the terminator of a block. -/
theorem occurs_element {id : ElementId} {e : Element} (he : d.layout.element? id = some e) :
    d.HasElement id := by
  rw [element?_layout] at he
  have hlt := (List.getElem?_eq_some_iff.1 he).1
  simpa using d.covered_nodes.element id.index hlt

/-- Every block of the graph has its contents somewhere. -/
theorem occurs_block {id : BlockId} {b : Block} (hb : d.layout.block? id = some b) :
    d.HasBlock id := by
  rw [block?_layout] at hb
  have hlt := (List.getElem?_eq_some_iff.1 hb).1
  simpa using d.covered_nodes.block id.index hlt

end Description

end GrammarLookahead
