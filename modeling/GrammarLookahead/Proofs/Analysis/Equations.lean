import Mathlib.Logic.Basic
import GrammarLookahead.Analysis.Expansion
import GrammarLookahead.Proofs.Grammar.Links
import GrammarLookahead.Proofs.LookaheadSet.Members

/-!
The equations that lookahead satisfies: the set of a key in terms of the sets of the keys one step
further, for any family of sets. A family is a solution if every key of the grammar satisfies its
equation, and the least solution is the one that lies below all others.
-/

namespace GrammarLookahead

/-- A set of lookahead for every key. -/
abbrev Family := Key → LookaheadSet

namespace Grammar

open LookaheadSet (empty epsilon singleton joinSets)

variable (g : Grammar)

/-- The tokens that an element reads by itself. -/
def tokensOf : ElementKind → List TokenId
  | .terminal t => [t]
  | .wildcard => g.vocabulary.matchable
  | .notTerminal t => g.vocabulary.matchable.filter (· ≠ t)
  | _ => []

/-- What a family shows from a place; behind the last element, the rest is left open. -/
def behind (F : Family) (place : Option Node) (depth : Nat) (context : Context) : LookaheadSet :=
  place.elim (epsilon depth) fun node => F ⟨node, depth, context⟩

/-- A token stands alone at the last depth and at the end of input; otherwise it stands in front of
what is seen behind it with one token less. -/
def tokenEquation (F : Family) (tokens : List TokenId) (next : Option Node) (depth : Nat)
    (context : Context) : LookaheadSet :=
  joinSets (empty depth) (tokens.map fun t =>
    if depth = 1 ∨ t.isEof then singleton depth [t]
    else (behind F next (depth - 1) context).prepend t)

/-- The set of the called rule, every unfinished member continued behind the call. -/
def referenceEquation (F : Family) (r : Rule) (next : Option Node) (depth : Nat)
    (context : Context) : LookaheadSet :=
  (F (.block r.block depth .callSite)).splice fun rest => some (behind F next rest context)

/-- Where control may go on from the beginning of a block. -/
def entries (b : Block) : List ElementId :=
  b.alternatives.map (·.first) ++ if b.kind.canSkip then [g.exitTarget b] else []

/-- The union of the alternatives, and of the exit where the block may be skipped. -/
def blockEquation (F : Family) (b : Block) (depth : Nat) (context : Context) : LookaheadSet :=
  joinSets (empty depth) ((g.entries b).map fun e => F (.element e depth context))

/-- The exit, and the block again where it is a loop. -/
def blockEndEquation (F : Family) (id : BlockId) (b : Block) (depth : Nat) (context : Context) :
    LookaheadSet :=
  joinSets (empty depth)
    (F (.element (g.exitTarget b) depth context) ::
      if b.kind.isLoop then [F (.block id depth context)] else [])

/-- What follows the calls of a rule, and the end of input if a parser may be started at the rule
or nothing calls it. -/
def followEquation (F : Family) (r : Rule) (depth : Nat) : LookaheadSet :=
  joinSets (if r.entry ∨ r.callers.isEmpty then singleton depth [.eof] else empty depth)
    (r.callers.map fun site => behind F ((g.next? site).map .element) depth .everywhere)

def elementEquation (F : Family) (e : Element) (depth : Nat) (context : Context) : LookaheadSet :=
  match e.kind with
  | .terminal _ | .wildcard | .notTerminal _ =>
    tokenEquation F (g.tokensOf e.kind) (e.next.map .element) depth context
  | .reference _ target =>
    (g.rule? target).elim (empty depth) fun r =>
      referenceEquation F r (e.next.map .element) depth context
  | .nested id | .loop id => F (.block id depth context)
  | .blockEnd id =>
    (g.block? id).elim (empty depth) fun b => g.blockEndEquation F id b depth context
  | .ruleEnd target =>
    match context with
    | .callSite => epsilon depth
    | .everywhere => (g.rule? target).elim (empty depth) fun r => g.followEquation F r depth

/-- The set of a key in terms of the sets that a family has for the keys one step further. -/
def equation (F : Family) (key : Key) : LookaheadSet :=
  match key.node with
  | .block id =>
    (g.block? id).elim (empty key.depth) fun b => g.blockEquation F b key.depth key.context
  | .element id =>
    (g.element? id).elim (empty key.depth) fun e => g.elementEquation F e key.depth key.context

/-- The keys of a grammar up to a depth. -/
structure HasKey (depth : Nat) (key : Key) : Prop where
  node : g.contains key.node = true
  pos : 1 ≤ key.depth
  le : key.depth ≤ depth

/-- A family that satisfies the equation of every key of the grammar. -/
def Solves (F : Family) : Prop := ∀ key, g.HasKey g.maxDepth key → F key = g.equation F key

/-- The solution that lies below all others. -/
structure LeastSolution (F : Family) : Prop where
  solves : g.Solves F
  least : ∀ G, g.Solves G → ∀ key, g.HasKey g.maxDepth key → F key ≤ G key

variable {g} {depth : Nat} {d : Nat} {context : Context}

theorem HasKey.mono {key : Key} {depth' : Nat} (h : g.HasKey depth key) (hd : depth ≤ depth') :
    g.HasKey depth' key :=
  ⟨h.node, h.pos, Nat.le_trans h.le hd⟩

theorem contains_element {id : ElementId} :
    g.contains (.element id) = true ↔ ∃ e, g.element? id = some e := by
  simp only [contains, decide_eq_true_eq, element?]
  constructor
  · intro h
    exact ⟨g.elements[id.index], Array.getElem?_eq_getElem h⟩
  · rintro ⟨e, he⟩
    exact (Array.getElem?_eq_some_iff.1 he).1

theorem contains_block {id : BlockId} :
    g.contains (.block id) = true ↔ ∃ b, g.block? id = some b := by
  simp only [contains, decide_eq_true_eq, block?]
  constructor
  · intro h
    exact ⟨g.blocks[id.index], Array.getElem?_eq_getElem h⟩
  · rintro ⟨b, hb⟩
    exact (Array.getElem?_eq_some_iff.1 hb).1

theorem contains_of_some {node : Node} (h : g.contains node = true) :
    ∀ n, some node = some n → g.contains n = true := by
  rintro n ⟨rfl⟩
  exact h

namespace Linked

variable (h : g.Linked)
include h

theorem contains_next {id n : ElementId} (hn : g.next? id = some n) :
    g.contains (.element n) = true := by
  obtain ⟨e, he, hn⟩ := Option.bind_eq_some_iff.1 hn
  obtain ⟨e', he', -⟩ := (h.element he).next n hn
  exact contains_element.2 ⟨e', he'⟩

theorem contains_behind {id : ElementId} {e : Element} (he : g.element? id = some e) :
    ∀ n, e.next.map .element = some n → g.contains n = true := by
  intro n hn
  obtain ⟨i, hi, rfl⟩ := Option.map_eq_some_iff.1 hn
  exact h.contains_next (by rw [next?, he]; exact hi)

theorem contains_site (site : ElementId) :
    ∀ n, (g.next? site).map .element = some n → g.contains n = true := by
  intro n hn
  obtain ⟨i, hi, rfl⟩ := Option.map_eq_some_iff.1 hn
  exact h.contains_next hi

/-- The rule that a reference calls is there. -/
theorem reference {id : ElementId} {e : Element} (he : g.element? id = some e) {name : String}
    {target : RuleId} (hk : e.kind = .reference name target) : ∃ r, g.rule? target = some r := by
  have hkind := (h.element he).kind
  rwa [hk] at hkind

/-- The block that a terminator ends is the one it lies in. -/
theorem blockEnd {id : ElementId} {e : Element} (he : g.element? id = some e) {b : BlockId}
    (hk : e.kind = .blockEnd b) : ∃ blk, g.block? b = some blk := by
  have hkind := (h.element he).kind
  rw [hk] at hkind
  obtain rfl : e.block = b := hkind
  exact (h.element he).block

theorem ruleEnd {id : ElementId} {e : Element} (he : g.element? id = some e) {target : RuleId}
    (hk : e.kind = .ruleEnd target) : ∃ r, g.rule? target = some r ∧ r.block = e.block := by
  have hkind := (h.element he).kind
  rwa [hk] at hkind

/-- A nested block lies in the rule of the element that stands for it. -/
theorem inner {id : ElementId} {e : Element} (he : g.element? id = some e) {b : BlockId}
    (hk : e.kind = .nested b ∨ e.kind = .loop b) : ∃ inner outer, g.block? b = some inner ∧
      g.block? e.block = some outer ∧ inner.rule = outer.rule ∧ inner.kind ≠ .rule := by
  have hkind := (h.element he).kind
  rcases hk with hk | hk
  · rwa [hk] at hkind
  · rwa [hk] at hkind

theorem contains_inner {id : ElementId} {e : Element} (he : g.element? id = some e) {b : BlockId}
    (hk : e.kind = .nested b ∨ e.kind = .loop b) : g.contains (.block b) = true := by
  obtain ⟨inner, -, hb, -⟩ := h.inner he hk
  exact contains_block.2 ⟨inner, hb⟩

theorem contains_exit {id : BlockId} {b : Block} (hb : g.block? id = some b) :
    g.contains (.element (g.exitTarget b)) = true := by
  cases hx : g.exit? b with
  | some n =>
    obtain ⟨owner, -, hn⟩ := Option.bind_eq_some_iff.1 hx
    unfold exitTarget
    rw [hx]
    exact h.contains_next hn
  | none =>
    obtain ⟨e, he, -⟩ := (h.block hb).terminator
    unfold exitTarget
    rw [hx]
    exact contains_element.2 ⟨e, he⟩

theorem contains_first {id : BlockId} {b : Block} (hb : g.block? id = some b) {a : Alternative}
    (ha : a ∈ b.alternatives) : g.contains (.element a.first) = true := by
  obtain ⟨e, he, -⟩ := (h.block hb).first a ha
  exact contains_element.2 ⟨e, he⟩

theorem contains_entry {id : BlockId} {b : Block} (hb : g.block? id = some b) {n : ElementId}
    (hn : n ∈ g.entries b) : g.contains (.element n) = true := by
  rw [entries, List.mem_append, List.mem_map] at hn
  rcases hn with ⟨a, ha, rfl⟩ | hn
  · exact h.contains_first hb ha
  · split at hn
    · rw [List.mem_singleton.1 hn]
      exact h.contains_exit hb
    · simp at hn

theorem contains_ruleBlock {id : RuleId} {r : Rule} (hr : g.rule? id = some r) :
    g.contains (.block r.block) = true := by
  obtain ⟨b, hb, -⟩ := (h.rule hr).block
  exact contains_block.2 ⟨b, hb⟩

end Linked

/-- A family that looks as far ahead as its keys ask and has well-formed members only. -/
structure Fits (g : Grammar) (depth : Nat) (F : Family) : Prop where
  depth_eq : ∀ key, g.HasKey depth key → (F key).depth = key.depth
  wellFormed : ∀ key, g.HasKey depth key → ∀ m ∈ F key, m.WellFormed key.depth

/-- One family lies below another one at every key up to a depth. -/
def Below (g : Grammar) (depth : Nat) (F G : Family) : Prop :=
  ∀ key, g.HasKey depth key → F key ≤ G key

variable {F G : Family} {place : Option Node}

theorem Below.refl (F : Family) : g.Below depth F F := fun _ _ => LookaheadSet.le_refl _

theorem Below.trans {H : Family} (h : g.Below depth F G) (k : g.Below depth G H) :
    g.Below depth F H :=
  fun key hkey => LookaheadSet.le_trans (h key hkey) (k key hkey)

/-- What lies below a family that fits does so as well. -/
theorem Fits.of_below (hG : g.Fits depth G) (h : g.Below depth F G) : g.Fits depth F where
  depth_eq key hkey := (h key hkey).1.trans (hG.depth_eq key hkey)
  wellFormed key hkey m hm := hG.wellFormed key hkey m ((h key hkey).2 m hm)

theorem depth_behind (hF : ∀ key, g.HasKey depth key → (F key).depth = key.depth) (hpos : 1 ≤ d)
    (hle : d ≤ depth) (hplace : ∀ n, place = some n → g.contains n = true) :
    (behind F place d context).depth = d := by
  cases place with
  | none => exact LookaheadSet.depth_epsilon
  | some n => exact hF _ ⟨hplace n rfl, hpos, hle⟩

theorem behind_mono (hFG : g.Below depth F G) (hpos : 1 ≤ d) (hle : d ≤ depth)
    (hplace : ∀ n, place = some n → g.contains n = true) :
    behind F place d context ≤ behind G place d context := by
  cases place with
  | none => exact LookaheadSet.le_refl _
  | some n => exact hFG _ ⟨hplace n rfl, hpos, hle⟩

theorem joinSets_mono {ι : Type} {a b : LookaheadSet} {f f' : ι → LookaheadSet} {xs : List ι}
    (hab : a ≤ b) (h : ∀ x ∈ xs, f x ≤ f' x) :
    joinSets a (xs.map f) ≤ joinSets b (xs.map f') := by
  refine ⟨by simp [hab.1], fun m hm => ?_⟩
  simp only [LookaheadSet.mem_joinSets, List.mem_map, exists_exists_and_eq_and] at hm ⊢
  rcases hm with hm | ⟨x, hx, hm⟩
  · exact Or.inl (hab.2 m hm)
  · exact Or.inr ⟨x, hx, (h x hx).2 m hm⟩

theorem tokenEquation_mono (hFG : g.Below depth F G) (hpos : 1 ≤ d) (hle : d ≤ depth)
    (hplace : ∀ n, place = some n → g.contains n = true) (tokens : List TokenId) :
    tokenEquation F tokens place d context ≤ tokenEquation G tokens place d context := by
  apply joinSets_mono (LookaheadSet.le_refl _)
  intro t _
  by_cases ht : d = 1 ∨ t.isEof
  · simp only [if_pos ht]
    exact LookaheadSet.le_refl _
  · simp only [if_neg ht]
    exact LookaheadSet.prepend_mono (behind_mono hFG (by omega) (by omega) hplace)

theorem referenceEquation_mono (hF : g.Fits depth F) (hFG : g.Below depth F G) (hpos : 1 ≤ d)
    (hle : d ≤ depth) {r : Rule} (hr : g.contains (.block r.block) = true)
    (hplace : ∀ n, place = some n → g.contains n = true) :
    referenceEquation F r place d context ≤ referenceEquation G r place d context := by
  have hkey : g.HasKey depth (.block r.block d .callSite) := ⟨hr, hpos, hle⟩
  refine LookaheadSet.splice_mono (hFG _ hkey) fun rest hrest => ⟨_, _, rfl, rfl, ?_⟩
  obtain ⟨p, hp, rfl⟩ := LookaheadSet.mem_missingDepths.1 hrest
  have hlen : p.length < d := (hF.wellFormed _ hkey _ hp).1
  have hdepth : (F (.block r.block d .callSite)).depth = d := hF.depth_eq _ hkey
  exact behind_mono hFG (by rw [LookaheadSet.missing, hdepth]; omega)
    (by rw [LookaheadSet.missing, hdepth]; omega) hplace

theorem Linked.blockEquation_mono (h : g.Linked) (hFG : g.Below depth F G) (hpos : 1 ≤ d)
    (hle : d ≤ depth) {id : BlockId} {b : Block} (hb : g.block? id = some b) :
    g.blockEquation F b d context ≤ g.blockEquation G b d context := by
  apply joinSets_mono (LookaheadSet.le_refl _)
  intro n hn
  exact hFG _ ⟨h.contains_entry hb hn, hpos, hle⟩

theorem Linked.blockEndEquation_mono (h : g.Linked) (hFG : g.Below depth F G) (hpos : 1 ≤ d)
    (hle : d ≤ depth) {id : BlockId} {b : Block} (hb : g.block? id = some b) :
    g.blockEndEquation F id b d context ≤ g.blockEndEquation G id b d context := by
  have hexit := hFG (.element (g.exitTarget b) d context) ⟨h.contains_exit hb, hpos, hle⟩
  have hagain := hFG (.block id d context) ⟨contains_block.2 ⟨b, hb⟩, hpos, hle⟩
  unfold blockEndEquation
  refine ⟨by simp, fun m hm => ?_⟩
  by_cases hloop : b.kind.isLoop
  · simp only [if_pos hloop, LookaheadSet.mem_joinSets, List.mem_cons] at hm ⊢
    simp only [exists_eq_or_imp] at hm ⊢
    exact hm.imp_right (Or.imp (hexit.2 m) (by simpa using hagain.2 m))
  · simp only [if_neg hloop, LookaheadSet.mem_joinSets, List.mem_singleton] at hm ⊢
    simp only [exists_eq_left] at hm ⊢
    exact hm.imp_right (hexit.2 m)

theorem Linked.followEquation_mono (h : g.Linked) (hFG : g.Below depth F G) (hpos : 1 ≤ d)
    (hle : d ≤ depth) (r : Rule) : g.followEquation F r d ≤ g.followEquation G r d := by
  apply joinSets_mono (LookaheadSet.le_refl _)
  intro site _
  exact behind_mono hFG hpos hle (h.contains_site site)

/-- Larger sets one step further give a larger set. -/
theorem Linked.equation_mono (h : g.Linked) (hF : g.Fits depth F) (hFG : g.Below depth F G) :
    g.Below depth (g.equation F) (g.equation G) := by
  rintro ⟨node, d, context⟩ ⟨hnode, hpos, hle⟩
  cases node with
  | block id =>
    obtain ⟨b, hb⟩ := contains_block.1 hnode
    simp only [equation, hb, Option.elim_some]
    exact h.blockEquation_mono hFG hpos hle hb
  | element id =>
    obtain ⟨e, he⟩ := contains_element.1 hnode
    have hnext := h.contains_behind he
    simp only [equation, he, Option.elim_some, elementEquation]
    cases hk : e.kind with
    | terminal t => exact tokenEquation_mono hFG hpos hle hnext _
    | wildcard => exact tokenEquation_mono hFG hpos hle hnext _
    | notTerminal t => exact tokenEquation_mono hFG hpos hle hnext _
    | reference name target =>
      obtain ⟨r, hr⟩ := h.reference he hk
      simp only [hr, Option.elim_some]
      exact referenceEquation_mono hF hFG hpos hle (h.contains_ruleBlock hr) hnext
    | nested b => exact hFG _ ⟨h.contains_inner he (Or.inl hk), hpos, hle⟩
    | loop b => exact hFG _ ⟨h.contains_inner he (Or.inr hk), hpos, hle⟩
    | blockEnd b =>
      obtain ⟨blk, hb⟩ := h.blockEnd he hk
      simp only [hb, Option.elim_some]
      exact h.blockEndEquation_mono hFG hpos hle hb
    | ruleEnd target =>
      cases context with
      | callSite => exact LookaheadSet.le_refl _
      | everywhere =>
        obtain ⟨r, hr, -⟩ := h.ruleEnd he hk
        simp only [hr, Option.elim_some]
        exact h.followEquation_mono hFG hpos hle r

/-- An equation looks as far ahead as its key asks if the blocks it mentions do. -/
theorem Linked.depth_equation (h : g.Linked) {key : Key} (hkey : g.HasKey depth key)
    (hblock : ∀ id c, g.contains (.block id) = true →
      (F (.block id key.depth c)).depth = key.depth) :
    (g.equation F key).depth = key.depth := by
  obtain ⟨node, d, context⟩ := key
  obtain ⟨hnode, hpos, hle⟩ := hkey
  cases node with
  | block id =>
    obtain ⟨b, hb⟩ := contains_block.1 hnode
    simp [equation, hb, blockEquation]
  | element id =>
    obtain ⟨e, he⟩ := contains_element.1 hnode
    simp only [equation, he, Option.elim_some, elementEquation]
    cases hk : e.kind with
    | terminal t => simp [tokenEquation]
    | wildcard => simp [tokenEquation]
    | notTerminal t => simp [tokenEquation]
    | reference name target =>
      obtain ⟨r, hr⟩ := h.reference he hk
      simpa [hr, referenceEquation] using hblock r.block .callSite (h.contains_ruleBlock hr)
    | nested b => exact hblock b context (h.contains_inner he (Or.inl hk))
    | loop b => exact hblock b context (h.contains_inner he (Or.inr hk))
    | blockEnd b =>
      obtain ⟨blk, hb⟩ := h.blockEnd he hk
      simp [hb, blockEndEquation]
    | ruleEnd target =>
      cases context with
      | callSite => exact LookaheadSet.depth_epsilon
      | everywhere =>
        obtain ⟨r, hr, -⟩ := h.ruleEnd he hk
        simp only [hr, Option.elim_some, followEquation, LookaheadSet.depth_joinSets]
        split
        · rfl
        · rfl

/-- A solution looks as far ahead as its keys ask. -/
theorem Solves.depth_eq (hF : g.Solves F) (h : g.Linked) {key : Key}
    (hkey : g.HasKey g.maxDepth key) : (F key).depth = key.depth := by
  rw [hF key hkey]
  apply h.depth_equation hkey
  intro id c hid
  obtain ⟨b, hb⟩ := contains_block.1 hid
  rw [hF (.block id key.depth c) ⟨hid, hkey.pos, hkey.le⟩]
  simp [equation, Key.block, hb, blockEquation]

variable {m : Member}

theorem equation_block {id : BlockId} {b : Block} (hb : g.block? id = some b) :
    g.equation F ⟨.block id, d, context⟩ = g.blockEquation F b d context := by
  simp [equation, hb]

theorem equation_element {id : ElementId} {e : Element} (he : g.element? id = some e) :
    g.equation F ⟨.element id, d, context⟩ = g.elementEquation F e d context := by
  simp [equation, he]

theorem elementEquation_of_mem_tokensOf {e : Element} {t : TokenId} (ht : t ∈ g.tokensOf e.kind) :
    g.elementEquation F e d context =
      tokenEquation F (g.tokensOf e.kind) (e.next.map .element) d context := by
  cases hk : e.kind with
  | terminal u => simp [elementEquation, hk]
  | wildcard => simp [elementEquation, hk]
  | notTerminal u => simp [elementEquation, hk]
  | _ => simp [hk, tokensOf] at ht

theorem mem_tokenEquation {tokens : List TokenId} :
    m ∈ tokenEquation F tokens place d context ↔
      ∃ t ∈ tokens, m ∈ if d = 1 ∨ t.isEof then singleton d [t]
        else (behind F place (d - 1) context).prepend t := by
  simp [tokenEquation]

theorem mem_referenceEquation {r : Rule} :
    m ∈ referenceEquation F r place d context ↔
      (∃ s, .complete s ∈ F (.block r.block d .callSite) ∧ m = .complete s) ∨
        ∃ p, .unfinished p ∈ F (.block r.block d .callSite) ∧
          ∃ n ∈ behind F place ((F (.block r.block d .callSite)).missing p) context,
            m = (n.prepend p).clip (F (.block r.block d .callSite)).depth := by
  simp only [referenceEquation, LookaheadSet.mem_splice, LookaheadSet.mem_continuations]

theorem mem_blockEquation {b : Block} :
    m ∈ g.blockEquation F b d context ↔ ∃ n ∈ g.entries b, m ∈ F (.element n d context) := by
  simp [blockEquation]

theorem mem_blockEndEquation {id : BlockId} {b : Block} :
    m ∈ g.blockEndEquation F id b d context ↔ m ∈ F (.element (g.exitTarget b) d context) ∨
      b.kind.isLoop = true ∧ m ∈ F (.block id d context) := by
  by_cases hloop : b.kind.isLoop
  · simp [blockEndEquation, hloop]
  · simp [blockEndEquation, hloop]

theorem mem_followEquation {r : Rule} :
    m ∈ g.followEquation F r d ↔
      ((r.entry = true ∨ r.callers.isEmpty = true) ∧ m = (Member.complete [.eof]).clip d) ∨
        ∃ site ∈ r.callers, m ∈ behind F ((g.next? site).map .element) d .everywhere := by
  simp only [followEquation, LookaheadSet.mem_joinSets, List.mem_map, exists_exists_and_eq_and]
  apply or_congr_left
  split
  · rename_i hentry
    rw [LookaheadSet.mem_singleton, and_iff_right hentry]
  · rename_i hentry
    exact iff_of_false LookaheadSet.not_mem_empty fun h => hentry h.1

end Grammar

end GrammarLookahead
