import GrammarLookahead.Proofs.Grammar.WellLinked

/-!
Reading a grammar back. Unfolding the graph of a description from its rules gives back the rules of
the description; its elements and blocks are numbered in the order in which a depth-first walk
comes to them; and its vocabulary lists the token names in the order of their first use. Main
statement: `Description.readBack_of_build`.
-/

namespace GrammarLookahead

def ElementKind.inner? : ElementKind → Option BlockId
  | .nested id | .loop id => some id
  | _ => none

namespace Node

def element? : Node → Option ElementId
  | .element id => some id
  | .block _ => none

def block? : Node → Option BlockId
  | .block id => some id
  | .element _ => none

end Node

namespace Grammar

variable {α : Type} (g : Grammar)

/-- Computes something of a block from the same of the blocks inside it. A block inside another one
has a larger number; for anything else the outside value stands. -/
def foldBlock (outside : α) (f : BlockId → (BlockId → α) → α) (id : BlockId) : α :=
  f id fun inner =>
    if _h : id < inner ∧ inner.index < g.blocks.size then foldBlock outside f inner else outside
termination_by g.blocks.size - id.index
decreasing_by
  have := Handle.lt_def.1 _h.1
  omega

/-- What a block is given for a block inside it. -/
def inside (outside : α) (f : BlockId → (BlockId → α) → α) (id inner : BlockId) : α :=
  if id < inner ∧ inner.index < g.blocks.size then g.foldBlock outside f inner else outside

theorem foldBlock_eq (outside : α) (f : BlockId → (BlockId → α) → α) (id : BlockId) :
    g.foldBlock outside f id = f id (g.inside outside f id) := by
  rw [foldBlock]
  rfl

/-- What an element stands for, given the alternatives of the block that it may stand for. -/
def readElement (contents : BlockId → Option (List (List Phrase))) (id : ElementId) :
    Option Phrase := do
  let e ← g.element? id
  match e.kind with
  | .terminal t => return .token (g.vocabulary.nameOf t)
  | .notTerminal t => return .notToken (g.vocabulary.nameOf t)
  | .wildcard => return .wildcard
  | .reference name target =>
    let r ← g.rule? target
    if r.name = name then return .call r.name else none
  | .nested inner | .loop inner =>
    let b ← g.block? inner
    match b.kind with
    | .nested repetition => return .block repetition b.greedy (← contents inner)
    | .rule => none
  | .blockEnd _ | .ruleEnd _ => none

/-- The alternatives of a block, given those of the blocks inside it. -/
def readAlternatives (id : BlockId) (contents : BlockId → Option (List (List Phrase))) :
    Option (List (List Phrase)) := do
  let b ← g.block? id
  b.alternatives.mapM fun a => a.elements.mapM (g.readElement contents)

def readBlock : BlockId → Option (List (List Phrase)) := g.foldBlock none g.readAlternatives

def readRule (r : Rule) : Option RuleDescription := do
  let b ← g.block? r.block
  return ⟨r.name, r.entry, b.greedy, ← g.readBlock r.block⟩

/-- The rules of a grammar as a description has them. -/
def readBack : Option (List RuleDescription) := g.rules.toList.mapM g.readRule

/-- An element, before the nodes of the block that it may stand for. -/
def preorderElement (contents : BlockId → List Node) (id : ElementId) : List Node :=
  .element id :: ((g.element? id).bind (·.kind.inner?)).elim [] contents

/-- A block and its terminator, before its contents. -/
def preorderNodes (id : BlockId) (contents : BlockId → List Node) : List Node :=
  (g.block? id).elim [] fun b =>
    .block id :: .element b.terminator ::
      b.alternatives.flatMap fun a => a.elements.flatMap (g.preorderElement contents)

/-- The nodes of a block in the order of a depth-first walk. -/
def preorderBlock : BlockId → List Node := g.foldBlock [] g.preorderNodes

/-- The nodes of all rules in the order of a depth-first walk. -/
def preorder : List Node := g.rules.toList.flatMap fun r => g.preorderBlock r.block

end Grammar

namespace Description

open Layout

variable {ucd : Unicode} {d : Description} {site : Site} {start : Position} {next : ElementId}
  {pss : List (List Phrase)}

/-- A block that stands for a phrase is inside the block around the phrase. -/
theorem Occurs.inside {α : Type} {repetition : Repetition} {greedy : Option Bool}
    (h : d.Occurs site start (.phrase next (.block repetition greedy pss))) (outside : α)
    (f : BlockId → (BlockId → α) → α) : d.layout.inside outside f site.block ⟨start.block⟩ =
      d.layout.foldBlock outside f ⟨start.block⟩ :=
  if_pos ⟨h.block_lt, Grammar.index_lt_of_block? h.placed.of_block.2.2.1⟩

/-- What is read of the elements of a block. -/
def readIn (d : Description) (id : BlockId) : ElementId → Option Phrase :=
  d.layout.readElement (d.layout.inside none d.layout.readAlternatives id)

theorem Occurs.readBlock_eq (h : d.Occurs site start (.contents pss)) :
    d.layout.readBlock site.block =
      (blockAlternatives site.terminator start.element pss).mapM fun a =>
        a.elements.mapM (d.readIn site.block) := by
  obtain ⟨b, hb, -, -, halternatives⟩ := h.contents
  rw [Grammar.readBlock, Grammar.foldBlock_eq, Grammar.readAlternatives, hb, ← halternatives]
  rfl

mutual

theorem read_phrase (hbuild : d.build ucd = .ok d.layout) (site : Site) (start : Position)
    (next : ElementId) : ∀ p : Phrase, d.Occurs site start (.phrase next p) →
      d.readIn site.block ⟨start.element⟩ = some p
  | .token name, h => by
    have hname := Vocabulary.nameOf_idOf (mem_vocabulary_names (h.tokenNames name (List.mem_singleton_self _)))
    rw [readIn, Grammar.readElement, h.element]
    exact congrArg (fun name => some (Phrase.token name)) hname
  | .notToken name, h => by
    have hname := Vocabulary.nameOf_idOf (mem_vocabulary_names (h.tokenNames name (List.mem_singleton_self _)))
    rw [readIn, Grammar.readElement, h.element]
    exact congrArg (fun name => some (Phrase.notToken name)) hname
  | .wildcard, h => by
    rw [readIn, Grammar.readElement, h.element]
    rfl
  | .call rule, h => by
    obtain ⟨⟨r, hr, hname⟩, -⟩ := rule_of_reference hbuild h.element rfl
    rw [readIn, Grammar.readElement, h.element]
    simp [phraseKind, hr, hname]
  | .block repetition greedy pss, h => by
    have hcontents := h.inner
    have hread := (h.inside none d.layout.readAlternatives).trans (hcontents.readBlock_eq.trans
      (read_choice hbuild _ (start.skip 2 1) pss hcontents.choice))
    have hblock := h.placed.of_block.2.2.1
    rw [readIn, Grammar.readElement, h.element]
    cases repetition <;> simp [phraseKind, ownerKind, Repetition.isLoop, hblock, hread]

theorem read_sequence (hbuild : d.build ucd = .ok d.layout) (site : Site) (start : Position) :
    ∀ ps : List Phrase, d.Occurs site start (.sequence ps) →
      (sequenceElements start.element ps).mapM (d.readIn site.block) = some ps
  | [], _ => rfl
  | p :: ps, h => by
    have hphrase := read_phrase hbuild site start _ p h.phrase
    have hrest := read_sequence hbuild site (start.afterPhrase p) ps h.phrases
    rw [sequenceElements, List.mapM_cons, hphrase]
    exact congrArg (Option.bind · fun ps => some (p :: ps)) hrest

theorem read_choice (hbuild : d.build ucd = .ok d.layout) (site : Site) (start : Position) :
    ∀ pss : List (List Phrase), d.Occurs site start (.choice pss) →
      (blockAlternatives site.terminator start.element pss).mapM
        (fun a => a.elements.mapM (d.readIn site.block)) = some pss
  | [], _ => rfl
  | ps :: rest, h => by
    have hsequence := read_sequence hbuild site start ps h.alternative
    have hrest := read_choice hbuild site (start.afterSequence ps) rest h.alternatives
    rw [blockAlternatives, List.mapM_cons, hsequence]
    exact congrArg (Option.bind · fun rest => some (ps :: rest)) hrest

end

theorem readBack_layout (hbuild : d.build ucd = .ok d.layout) :
    d.layout.readBack = some d.rules := by
  have hrules : (ruleTable d.nodes.elements 0 ⟨0, 0⟩ d.rules).mapM d.layout.readRule =
      some d.rules := by
    refine rules_induction (motive := fun id start rs =>
      (ruleTable d.nodes.elements id start rs).mapM d.layout.readRule = some rs)
      (fun _ _ => rfl) fun id start r rs hr hrule hplaced hrest => ?_
    have hcontents := Occurs.rule hr hrule hplaced
    have hread := hcontents.readBlock_eq.trans
      (read_choice hbuild _ (start.skip 1 1) r.alternatives hcontents.choice)
    have hrule : d.layout.readRule ⟨r.name, ⟨start.block⟩, ⟨start.element⟩,
        callers d.nodes.elements ⟨id⟩, r.entry⟩ = some r := by
      rw [Grammar.readRule, hplaced.of_rule.2.1, hread]
      rfl
    rw [ruleTable, List.mapM_cons, hrule]
    exact congrArg (Option.bind · fun rs => some (r :: rs)) hrest
  exact hrules

/-- Nodes whose elements and blocks have consecutive numbers from a position on. -/
structure Consecutive (start : Position) (elements blocks : Nat) (nodes : List Node) : Prop where
  element : nodes.filterMap Node.element? = (List.range' start.element elements).map fun i => ⟨i⟩
  block : nodes.filterMap Node.block? = (List.range' start.block blocks).map fun i => ⟨i⟩

theorem Consecutive.append {m n m' n' : Nat} {nodes nodes' : List Node}
    (h : Consecutive start m n nodes) (k : Consecutive (start.skip m n) m' n' nodes') :
    Consecutive start (m + m') (n + n') (nodes ++ nodes') := by
  constructor
  · rw [List.filterMap_append, h.element, k.element, ← List.map_append]
    exact congrArg _ List.range'_append_1
  · rw [List.filterMap_append, h.block, k.block, ← List.map_append]
    exact congrArg _ List.range'_append_1

/-- What a walk visits of the elements of a block. -/
def visitIn (d : Description) (id : BlockId) : ElementId → List Node :=
  d.layout.preorderElement (d.layout.inside [] d.layout.preorderNodes id)

theorem Occurs.preorderBlock_eq (h : d.Occurs site start (.contents pss)) :
    d.layout.preorderBlock site.block = [.block site.block, .element site.terminator] ++
      (blockAlternatives site.terminator start.element pss).flatMap fun a =>
        a.elements.flatMap (d.visitIn site.block) := by
  obtain ⟨b, hb, -, hterminator, halternatives⟩ := h.contents
  rw [Grammar.preorderBlock, Grammar.foldBlock_eq, Grammar.preorderNodes, hb, ← halternatives,
    ← hterminator]
  rfl

mutual

theorem visit_phrase (site : Site) (start : Position) (next : ElementId) :
    ∀ p : Phrase, d.Occurs site start (.phrase next p) →
      Consecutive start p.elementCount p.blockCount (d.visitIn site.block ⟨start.element⟩)
  | .token _, h | .notToken _, h | .wildcard, h | .call _, h => by
    rw [visitIn, Grammar.preorderElement, h.element]
    exact ⟨rfl, rfl⟩
  | .block repetition greedy pss, h => by
    have hcontents := h.inner
    have hvisit : d.visitIn site.block ⟨start.element⟩ =
        .element ⟨start.element⟩ :: d.layout.preorderBlock ⟨start.block⟩ := by
      rw [visitIn, Grammar.preorderElement, h.element, Grammar.preorderBlock, ← h.inside]
      cases repetition <;> rfl
    have hself : Consecutive start 2 1
        [.element ⟨start.element⟩, .block ⟨start.block⟩, .element ⟨start.element + 1⟩] :=
      ⟨rfl, rfl⟩
    rw [hvisit, hcontents.preorderBlock_eq]
    exact hself.append (visit_choice _ (start.skip 2 1) pss hcontents.choice)

theorem visit_sequence (site : Site) (start : Position) :
    ∀ ps : List Phrase, d.Occurs site start (.sequence ps) →
      Consecutive start (Phrase.elementCountOfSequence ps) (Phrase.blockCountOfSequence ps)
        ((sequenceElements start.element ps).flatMap (d.visitIn site.block))
  | [], _ => ⟨rfl, rfl⟩
  | p :: ps, h =>
    (visit_phrase site start _ p h.phrase).append
      (visit_sequence site (start.afterPhrase p) ps h.phrases)

theorem visit_choice (site : Site) (start : Position) :
    ∀ pss : List (List Phrase), d.Occurs site start (.choice pss) →
      Consecutive start (Phrase.elementCountOfAlternatives pss) (Phrase.blockCountOfAlternatives pss)
        ((blockAlternatives site.terminator start.element pss).flatMap fun a =>
          a.elements.flatMap (d.visitIn site.block))
  | [], _ => ⟨rfl, rfl⟩
  | ps :: rest, h =>
    (visit_sequence site start ps h.alternative).append
      (visit_choice site (start.afterSequence ps) rest h.alternatives)

end

theorem consecutive_layout (d : Description) :
    Consecutive ⟨0, 0⟩ d.nodes.elements.length d.nodes.blocks.length d.layout.preorder := by
  have hrules : Consecutive ⟨0, 0⟩ d.nodes.elements.length d.nodes.blocks.length
      ((ruleTable d.nodes.elements 0 ⟨0, 0⟩ d.rules).flatMap fun r =>
        d.layout.preorderBlock r.block) := by
    refine rules_induction (motive := fun id start rs => Consecutive start
      (Layout.rules d.names id start rs).elements.length
      (Layout.rules d.names id start rs).blocks.length
      ((ruleTable d.nodes.elements id start rs).flatMap fun r => d.layout.preorderBlock r.block))
      (fun _ _ => ⟨rfl, rfl⟩) fun id start r rs hr hrule hplaced hrest => ?_
    have hcontents := Occurs.rule hr hrule hplaced
    obtain ⟨helements, hblocks⟩ := length_rules_cons d.names id start r rs
    have hself : Consecutive start 1 1 [.block ⟨start.block⟩, .element ⟨start.element⟩] :=
      ⟨rfl, rfl⟩
    rw [helements, hblocks, ruleTable, List.flatMap_cons, hcontents.preorderBlock_eq]
    exact (hself.append (visit_choice _ (start.skip 1 1) r.alternatives hcontents.choice)).append
      hrest
  exact hrules

/-- A built grammar reads back as its description. Unfolded, it has the rules of the description; its
elements and blocks are numbered in the order of a depth-first walk; its vocabulary lists the end of
input and then the token names in the order of their first use; and the handle that a name had while
only some names were known is the one it has in the grammar, and keeps when more are added. -/
theorem readBack_of_build {g : Grammar} (h : d.build ucd = .ok g) :
    g.readBack = some d.rules ∧
      g.preorder.filterMap Node.element? = g.elementIds ∧
      g.preorder.filterMap Node.block? = g.blockIds ∧
      g.vocabulary.names = ("EOF" :: d.tokenNames).eraseDups ∧
      ∀ known unknown, d.tokenNames = known ++ unknown →
        ∀ name id, (Vocabulary.internAll {} known).get? name = some id → ∀ more,
          (g.vocabulary.internAll more).get? name = some id ∧
            (g.vocabulary.internAll more).nameOf id = name := by
  obtain ⟨-, rfl⟩ := build_eq_ok.1 h
  obtain ⟨helements, hblocks⟩ := d.consecutive_layout
  refine ⟨readBack_layout h, ?_, ?_, Vocabulary.names_internAll {} d.tokenNames, ?_⟩
  · rw [helements, Grammar.elementIds, List.range_eq_range']
    exact congrArg (fun n => (List.range' 0 n).map _) List.size_toArray.symm
  · rw [hblocks, Grammar.blockIds, List.range_eq_range']
    exact congrArg (fun n => (List.range' 0 n).map _) List.size_toArray.symm
  · intro known unknown hnames name id hid more
    have hvocabulary : d.layout.vocabulary.internAll more =
        (Vocabulary.internAll {} known).internAll (unknown ++ more) := by
      show (Vocabulary.internAll {} d.tokenNames).internAll more = _
      simp only [Vocabulary.internAll, hnames, List.foldl_append]
    rw [hvocabulary]
    exact Vocabulary.get?_internAll hid (unknown ++ more)

end Description

theorem nestedWords_readBack :
    nestedWords.build .ascii = .ok nestedWords.layout ∧
      nestedWords.layout.readBack = some nestedWords.rules ∧
      nestedWords.layout.preorder.filterMap Node.element? = nestedWords.layout.elementIds ∧
      nestedWords.layout.preorder.filterMap Node.block? = nestedWords.layout.blockIds ∧
      nestedWords.layout.vocabulary.names = ["EOF", "a", "b"] := by
  obtain ⟨hrules, helements, hblocks, hnames, -⟩ :=
    Description.readBack_of_build nestedWords_build
  exact ⟨nestedWords_build, hrules, helements, hblocks, hnames.trans (by decide)⟩

end GrammarLookahead
