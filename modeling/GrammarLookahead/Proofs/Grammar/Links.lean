import GrammarLookahead.Proofs.Grammar.Interning
import GrammarLookahead.Proofs.Grammar.Occurrences

/-!
The links of a built grammar. Every handle that is stored in the graph leads to a node, and links
inside a rule stay inside it: only references and the ends of rules lead elsewhere. Main statement:
`Description.linked_of_build`.
-/

namespace GrammarLookahead

namespace Grammar

variable (g : Grammar)

/-- What the kind of an element refers to is there, and inside the same rule unless it is called. -/
def KindLinked (e : Element) : ElementKind → Prop
  | .terminal t => t.index < g.vocabulary.size
  | .wildcard | .notTerminal _ => True
  | .reference _ target => ∃ r, g.rule? target = some r
  | .nested id | .loop id =>
    ∃ inner outer, g.block? id = some inner ∧ g.block? e.block = some outer ∧
      inner.rule = outer.rule ∧ inner.kind ≠ .rule
  | .blockEnd id => e.block = id
  | .ruleEnd id => ∃ r, g.rule? id = some r ∧ r.block = e.block

/-- Links of an element: it lies in a block, what stands behind it lies in the same block, and only
terminators have nothing behind them. -/
structure ElementLinked (e : Element) : Prop where
  block : ∃ b, g.block? e.block = some b
  next : ∀ n, e.next = some n → ∃ e', g.element? n = some e' ∧ e'.block = e.block
  next_none : e.next = none ↔ e.kind.isTerminator = true
  kind : g.KindLinked e e.kind

/-- Links of a block: its alternatives begin in it, its terminator ends it, and a nested block has
an owner in the same rule. -/
structure BlockLinked (id : BlockId) (b : Block) : Prop where
  first : ∀ a ∈ b.alternatives, ∃ e, g.element? a.first = some e ∧ e.block = id
  terminator : ∃ e, g.element? b.terminator = some e ∧ e.block = id
  owner : ∀ o, b.owner = some o → ∃ e outer, g.element? o = some e ∧
    g.block? e.block = some outer ∧ outer.rule = b.rule
  rule : b.kind = .rule → ∃ r, g.rule? b.rule = some r ∧ r.block = id

/-- Links of a rule: its block and terminator belong to it, and its callers are the references to
it. -/
structure RuleLinked (id : RuleId) (r : Rule) : Prop where
  block : ∃ b, g.block? r.block = some b ∧ b.kind = .rule ∧ b.rule = id
  terminator : ∃ e, g.element? r.terminator = some e ∧ e.kind = .ruleEnd id ∧ e.block = r.block
  callers : ∀ site, site ∈ r.callers ↔ ∃ e, g.element? site = some e ∧ e.kind.target? = some id
  length_callers : r.callers.length ≤ g.elements.size

/-- A grammar all of whose links lead to where they should. -/
structure Linked : Prop where
  element : ∀ {id e}, g.element? id = some e → g.ElementLinked e
  block : ∀ {id b}, g.block? id = some b → g.BlockLinked id b
  rule : ∀ {id r}, g.rule? id = some r → g.RuleLinked id r

end Grammar

namespace Layout

theorem mem_callers {elements : List Element} {id : RuleId} {site : ElementId} :
    site ∈ callers elements id ↔
      ∃ e, elements[site.index]? = some e ∧ e.kind.target? = some id := by
  simp only [callers, List.mem_filterMap, Prod.exists, List.mem_zipIdx_iff_getElem?]
  constructor
  · rintro ⟨e, i, he, h⟩
    split at h
    · rename_i htarget
      obtain rfl := Option.some.inj h
      exact ⟨e, he, htarget⟩
    · simp at h
  · rintro ⟨e, he, htarget⟩
    exact ⟨e, site.index, he, by rw [if_pos htarget]⟩

theorem length_callers_le (elements : List Element) (id : RuleId) :
    (callers elements id).length ≤ elements.length := by
  have h := List.length_filterMap_le (fun (x : Element × Nat) =>
    if x.1.kind.target? = some id then some (⟨x.2⟩ : ElementId) else none) elements.zipIdx
  rwa [List.length_zipIdx] at h

end Layout

namespace Description

variable {ucd : Unicode} {d : Description} {g : Grammar}

theorem build_eq_ok : d.build ucd = .ok g ↔ d.fault? ucd = none ∧ d.layout = g := by
  unfold build
  cases d.fault? ucd <;> simp

/-- In a description that builds, the depth is in range, the names of the rules are in order, and
neither references nor the graph have a fault. -/
theorem of_fault?_eq_none (h : d.fault? ucd = none) :
    (1 ≤ d.maxDepth ∧ d.maxDepth ≤ maxSupportedDepth) ∧
      ruleNameFault ucd [] (d.rules.map (·.name)) = none ∧
      d.layout.unresolvedReference = none ∧ d.layout.fault? = none := by
  unfold fault? at h
  split at h
  · simp at h
  · rename_i hdepth
    rw [Option.or_eq_none_iff, Option.or_eq_none_iff] at h
    exact ⟨by omega, h⟩

/-- A grammar that is built looks at least one token ahead. -/
theorem maxDepth_pos (h : d.build ucd = .ok g) : 1 ≤ g.maxDepth := by
  obtain ⟨hfault, rfl⟩ := build_eq_ok.1 h
  exact (of_fault?_eq_none hfault).1.1

theorem maxDepth_le (h : d.build ucd = .ok g) : g.maxDepth ≤ maxSupportedDepth := by
  obtain ⟨hfault, rfl⟩ := build_eq_ok.1 h
  exact (of_fault?_eq_none hfault).1.2

/-- Every reference of a description that builds is resolved. -/
theorem resolved_of_build (h : d.build ucd = .ok g) {id : ElementId} {e : Element}
    {name : String} {target : RuleId} (he : g.element? id = some e)
    (hk : e.kind = .reference name target) : ∃ r, g.rule? target = some r := by
  obtain ⟨hfault, rfl⟩ := build_eq_ok.1 h
  have hres := (of_fault?_eq_none hfault).2.2.1
  rw [Grammar.unresolvedReference, List.findSome?_eq_none_iff] at hres
  have hmem : e ∈ d.layout.elements.toList := by
    rw [Grammar.element?] at he
    exact Array.mem_toList_iff.2 (Array.mem_of_getElem? he)
  have := hres e hmem
  rw [hk] at this
  cases hr : d.layout.rule? target with
  | none => simp [hr] at this
  | some r => exact ⟨r, rfl⟩

/-- Every token name belongs to the vocabulary. -/
theorem mem_vocabulary_names {name : String} (h : name ∈ d.tokenNames) :
    name ∈ d.vocabulary.names := by
  unfold vocabulary
  rw [Vocabulary.mem_names_internAll]
  exact Or.inr h

section

variable {site : Layout.Site} {start : Layout.Position} {next : ElementId} {p : Phrase}
  {pss : List (List Phrase)}

/-- The block that stands for a phrase. -/
theorem Occurs.inner_block {repetition : Repetition} {greedy : Option Bool}
    (h : d.Occurs site start (.phrase next (.block repetition greedy pss))) :
    ∃ inner outer, d.layout.block? ⟨start.block⟩ = some inner ∧
      d.layout.block? site.block = some outer ∧ inner.rule = outer.rule ∧ inner.kind ≠ .rule := by
  obtain ⟨outer, houter, hrule, -⟩ := h.block
  exact ⟨_, outer, h.placed.of_block.2.2.1, houter, hrule.symm, BlockKind.noConfusion⟩

/-- The first element of a phrase is linked. -/
theorem Occurs.phraseLinked (h : d.Occurs site start (.phrase next p))
    (hresolved : ∀ {id e name target}, d.layout.element? id = some e →
      e.kind = .reference name target → ∃ r, d.layout.rule? target = some r) :
    d.layout.ElementLinked ⟨Layout.phraseKind d.names start p, some next, site.block⟩ := by
  obtain ⟨b, hb, -⟩ := h.block
  refine ⟨⟨b, hb⟩, fun n hn => Option.some.inj hn ▸ h.behind, ?_, ?_⟩
  · simp [Layout.isTerminator_phraseKind]
  · cases p with
    | token name =>
      exact Vocabulary.index_idOf_lt (mem_vocabulary_names (h.tokenNames name (by
        simp [Layout.Part.tokenNames, Phrase.tokenNames])))
    | notToken name => trivial
    | wildcard => trivial
    | call rule => exact hresolved h.element rfl
    | block repetition greedy alternatives => cases repetition <;> exact h.inner_block

/-- The terminator of a block is linked. -/
theorem Occurs.terminatorLinked (h : d.Occurs site start (.contents pss)) :
    ∃ e, d.layout.element? site.terminator = some e ∧ d.layout.ElementLinked e := by
  cases h with
  | rule hr hrule hplaced =>
    obtain ⟨hend, hblock, -⟩ := hplaced.of_rule
    exact ⟨_, hend, ⟨_, hblock⟩, nofun, by simp [ElementKind.isTerminator], ⟨_, hrule, rfl⟩⟩
  | inner h =>
    obtain ⟨-, hend, hblock, -⟩ := h.placed.of_block
    exact ⟨_, hend, ⟨_, hblock⟩, nofun, by simp [ElementKind.isTerminator], rfl⟩

theorem Occurs.blockLinked (h : d.Occurs site start (.contents pss)) :
    ∃ b, d.layout.block? site.block = some b ∧ d.layout.BlockLinked site.block b := by
  have hfirst := h.choice.first
  obtain ⟨kind, -, hterminator⟩ := h.terminator
  cases h with
  | rule hr hrule hplaced =>
    exact ⟨_, hplaced.of_rule.2.1, hfirst, ⟨_, hterminator, rfl⟩, nofun, fun _ => ⟨_, hrule, rfl⟩⟩
  | inner h =>
    obtain ⟨outer, houter, hrule, -⟩ := h.block
    refine ⟨_, h.placed.of_block.2.2.1, hfirst, ⟨_, hterminator, rfl⟩, fun o ho => ?_, nofun⟩
    exact ⟨_, outer, Option.some.inj ho ▸ h.element, houter, hrule⟩

end

theorem ruleLinked {id : RuleId} {rule : Rule} (h : d.layout.rule? id = some rule) :
    d.layout.RuleLinked id rule := by
  obtain ⟨r, start, hr, rfl, hplaced⟩ := d.placed_rule h
  obtain ⟨hend, hblock, -⟩ := hplaced.of_rule
  refine ⟨⟨_, hblock, rfl, rfl⟩, ⟨_, hend, rfl, rfl⟩, fun site => ?_, ?_⟩
  · rw [element?_layout]
    exact Layout.mem_callers
  · have hsize : d.layout.elements.size = d.nodes.elements.length := List.size_toArray
    rw [hsize]
    exact Layout.length_callers_le d.nodes.elements id

/-- All links of a built grammar lead to where they should. -/
theorem linked_of_build (h : d.build ucd = .ok g) : g.Linked := by
  have hresolved : ∀ {id e name target}, g.element? id = some e → e.kind = .reference name target →
      ∃ r, g.rule? target = some r := fun he hk => resolved_of_build h he hk
  obtain ⟨-, rfl⟩ := build_eq_ok.1 h
  refine ⟨fun {id e} he => ?_, fun {id b} hb => ?_, ruleLinked⟩
  · rcases d.occurs_element he with ⟨site, start, next, p, hp, rfl⟩ | ⟨site, start, pss, hp, rfl⟩
    · obtain rfl := Option.some.inj (hp.element.symm.trans he)
      exact hp.phraseLinked hresolved
    · obtain ⟨e', he', hlinked⟩ := hp.terminatorLinked
      exact Option.some.inj (he'.symm.trans he) ▸ hlinked
  · obtain ⟨site, start, pss, hp, rfl⟩ := d.occurs_block hb
    obtain ⟨b', hb', hlinked⟩ := hp.blockLinked
    exact Option.some.inj (hb'.symm.trans hb) ▸ hlinked

end Description

end GrammarLookahead
