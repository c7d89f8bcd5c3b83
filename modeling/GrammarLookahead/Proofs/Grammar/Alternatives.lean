import Mathlib.Data.List.Nodup
import GrammarLookahead.Proofs.Grammar.Links

/-!
The elements of alternatives. An alternative lists the first elements of its phrases in ascending
order, following the elements from its first leads through them to the terminator of the block, and
no element is listed twice in the whole graph.
-/

namespace GrammarLookahead

namespace Grammar

variable (g : Grammar)

/-- The elements that control visits from an element on, going to the element behind it at most a
number of times. -/
def trail : Nat → ElementId → List ElementId
  | 0, id => [id]
  | n + 1, id => id :: (g.next? id).elim [] (trail n)

/-- The elements that the alternatives of a block list. -/
def listedIn (b : Block) : List ElementId := b.alternatives.flatMap (·.elements)

/-- The elements that the alternatives of all blocks list. -/
def listed : List ElementId := g.blocks.toList.flatMap listedIn

variable {g}

theorem trail_of_next?_eq_none {id : ElementId} (h : g.next? id = none) (n : Nat) :
    g.trail n id = [id] := by
  cases n with
  | zero => rfl
  | succ n => rw [trail, h, Option.elim_none]

theorem trail_of_next?_eq_some {id next : ElementId} (h : g.next? id = some next) (n : Nat) :
    g.trail (n + 1) id = id :: g.trail n next := by
  rw [trail, h, Option.elim_some]

end Grammar

namespace Layout

theorem elementCount_pos (p : Phrase) : 0 < p.elementCount := by
  cases p with
  | block repetition greedy alternatives =>
    rw [Phrase.elementCount]
    omega
  | _ => exact Nat.one_pos

theorem nodup_of_ascending {ids : List ElementId} (h : ids.Pairwise (· < ·)) : ids.Nodup := by
  refine h.imp fun {x y} hlt heq => ?_
  exact absurd (heq ▸ hlt : x < x) (Nat.lt_irrefl _)

/-- A sequence lists elements of its own stretch, in ascending order. -/
theorem sequenceElements_ascending (ps : List Phrase) (start : Nat) :
    (sequenceElements start ps).Pairwise (· < ·) ∧ ∀ id ∈ sequenceElements start ps,
      start ≤ id.index ∧ id.index < start + Phrase.elementCountOfSequence ps := by
  induction ps generalizing start with
  | nil => exact ⟨.nil, fun id hid => absurd hid List.not_mem_nil⟩
  | cons p ps ih =>
    obtain ⟨hpairwise, hbounds⟩ := ih (start + p.elementCount)
    have hpos := elementCount_pos p
    refine ⟨List.pairwise_cons.2 ⟨fun id hid => ?_, hpairwise⟩, fun id hid => ?_⟩
    · have hle := (hbounds id hid).1
      show start < id.index
      omega
    · rw [Phrase.elementCountOfSequence]
      rcases List.mem_cons.1 hid with rfl | hid
      · exact ⟨Nat.le_refl _, show start < _ by omega⟩
      · have := hbounds id hid
        omega

/-- The alternatives of a block list elements of their own stretch, in ascending order. -/
theorem blockAlternatives_ascending (terminator : ElementId) (pss : List (List Phrase))
    (start : Nat) :
    ((blockAlternatives terminator start pss).flatMap (·.elements)).Pairwise (· < ·) ∧
      ∀ id ∈ (blockAlternatives terminator start pss).flatMap (·.elements), start ≤ id.index := by
  induction pss generalizing start with
  | nil => exact ⟨.nil, fun id hid => absurd hid List.not_mem_nil⟩
  | cons ps rest ih =>
    obtain ⟨hpairwise, hbounds⟩ := ih (start + Phrase.elementCountOfSequence ps)
    obtain ⟨hfirst, hfirstBounds⟩ := sequenceElements_ascending ps start
    rw [blockAlternatives, List.flatMap_cons]
    refine ⟨List.pairwise_append.2 ⟨hfirst, hpairwise, fun a ha b hb => ?_⟩, fun id hid => ?_⟩
    · have ha := hfirstBounds a ha
      have hb := hbounds b hb
      rw [Handle.lt_def]
      omega
    · rcases List.mem_append.1 hid with hid | hid
      · exact (hfirstBounds id hid).1
      · have := hbounds id hid
        omega

/-- The callers of a rule are listed in ascending order. -/
theorem callers_ascending (elements : List Element) (rule : RuleId) :
    (callers elements rule).Pairwise (· < ·) := by
  have hindices : elements.zipIdx.Pairwise fun a b => a.2 < b.2 := by
    rw [← List.pairwise_map (f := Prod.snd), List.zipIdx_map_snd]
    exact List.pairwise_lt_range'
  refine hindices.filterMap _ fun a b hab id hid id' hid' => ?_
  obtain ⟨e, i⟩ := a
  obtain ⟨e', i'⟩ := b
  simp only [Option.ite_none_right_eq_some, Option.some.injEq] at hid hid'
  obtain ⟨-, rfl⟩ := hid
  obtain ⟨-, rfl⟩ := hid'
  exact hab

end Layout

namespace Description

open Layout

variable {d : Description} {site : Site} {start : Position} {part : Part} {next id : ElementId}
  {p : Phrase} {ps : List Phrase} {pss : List (List Phrase)}

theorem Occurs.next? (h : d.Occurs site start (.phrase next p)) :
    d.layout.next? ⟨start.element⟩ = some next := by
  rw [Grammar.next?, h.element]
  rfl

/-- What a sequence lists are the first elements of its phrases. -/
theorem Occurs.of_mem_sequence (h : d.Occurs site start (.sequence ps))
    (hid : id ∈ sequenceElements start.element ps) :
    ∃ start' next p, d.Occurs site start' (.phrase next p) ∧ id = ⟨start'.element⟩ := by
  induction ps generalizing start with
  | nil => exact absurd hid List.not_mem_nil
  | cons p ps ih =>
    rcases List.mem_cons.1 hid with rfl | hid
    · exact ⟨start, _, p, h.phrase, rfl⟩
    · exact ih h.phrases hid

/-- What the alternatives of a block list are the first elements of their phrases. -/
theorem Occurs.of_mem_choice (h : d.Occurs site start (.choice pss)) {a : Alternative}
    (ha : a ∈ blockAlternatives site.terminator start.element pss) (hid : id ∈ a.elements) :
    ∃ start' next p, d.Occurs site start' (.phrase next p) ∧ id = ⟨start'.element⟩ := by
  induction pss generalizing start with
  | nil => exact absurd ha List.not_mem_nil
  | cons ps rest ih =>
    rcases List.mem_cons.1 ha with rfl | ha
    · exact h.alternative.of_mem_sequence hid
    · exact ih h.alternatives ha

theorem headD_sequenceElements (n : Nat) (ps : List Phrase) (other : ElementId) :
    (sequenceElements n ps).headD other = if ps.isEmpty then other else ⟨n⟩ := by
  cases ps <;> rfl

/-- Following a sequence leads through its elements to the terminator. -/
theorem Occurs.trail_sequence (h : d.Occurs site start (.sequence ps)) {n : Nat}
    (hn : (sequenceElements start.element ps).length ≤ n) :
    d.layout.trail n ((sequenceElements start.element ps).headD site.terminator) =
      sequenceElements start.element ps ++ [site.terminator] := by
  induction ps generalizing start n with
  | nil =>
    obtain ⟨kind, -, hend⟩ := h.terminator
    have hnext : d.layout.next? site.terminator = none := by
      rw [Grammar.next?, hend]
      rfl
    exact Grammar.trail_of_next?_eq_none hnext n
  | cons p ps ih =>
    obtain ⟨n, rfl⟩ : ∃ m, n = m + 1 := ⟨n - 1, by simp [sequenceElements] at hn; omega⟩
    have hrest := ih h.phrases (Nat.le_of_succ_le_succ hn)
    rw [headD_sequenceElements] at hrest
    show d.layout.trail (n + 1) ⟨start.element⟩ = _
    rw [Grammar.trail_of_next?_eq_some h.phrase.next?, hrest]
    rfl

theorem Occurs.trail_choice (h : d.Occurs site start (.choice pss)) {a : Alternative}
    (ha : a ∈ blockAlternatives site.terminator start.element pss) {n : Nat}
    (hn : a.elements.length ≤ n) :
    d.layout.trail n a.first = a.elements ++ [site.terminator] := by
  induction pss generalizing start with
  | nil => exact absurd ha List.not_mem_nil
  | cons ps rest ih =>
    rcases List.mem_cons.1 ha with rfl | ha
    · exact h.alternative.trail_sequence hn
    · exact ih h.alternatives ha

/-- Whether a block lists the elements of a part. -/
def Listed (site : Site) (start : Position) (b : Block) : Part → Prop
  | .contents pss | .choice pss =>
    ∀ a ∈ blockAlternatives site.terminator start.element pss, a ∈ b.alternatives
  | .sequence ps => ∃ a ∈ b.alternatives, ∀ id ∈ sequenceElements start.element ps, id ∈ a.elements
  | .phrase _ _ => ∃ a ∈ b.alternatives, ⟨start.element⟩ ∈ a.elements

/-- The block around a part lists its elements. -/
theorem Occurs.listed (h : d.Occurs site start part) :
    ∃ b, d.layout.block? site.block = some b ∧ Listed site start b part := by
  induction h with
  | rule hr hrule hplaced => exact ⟨_, hplaced.of_rule.2.1, fun a ha => ha⟩
  | inner h => exact ⟨_, h.placed.of_block.2.2.1, fun a ha => ha⟩
  | choice h ih => exact ih
  | alternatives h ih =>
    obtain ⟨b, hb, hall⟩ := ih
    exact ⟨b, hb, fun a ha => hall a (List.mem_cons_of_mem _ ha)⟩
  | alternative h ih =>
    obtain ⟨b, hb, hall⟩ := ih
    exact ⟨b, hb, _, hall _ List.mem_cons_self, fun id hid => hid⟩
  | phrases h ih =>
    obtain ⟨b, hb, a, ha, hall⟩ := ih
    exact ⟨b, hb, a, ha, fun id hid => hall id (List.mem_cons_of_mem _ hid)⟩
  | phrase h ih =>
    obtain ⟨b, hb, a, ha, hall⟩ := ih
    exact ⟨b, hb, a, ha, hall _ List.mem_cons_self⟩

/-- Blocks inside the alternatives of a block have larger numbers. -/
theorem Occurs.block_lt (h : d.Occurs site start part) : site.block.index < start.block := by
  induction h with
  | rule | inner => exact Nat.lt_succ_self _
  | choice h ih => exact ih
  | alternatives h ih | phrases h ih => exact Nat.lt_of_lt_of_le ih (Nat.le_add_right _ _)
  | alternative h ih | phrase h ih => exact ih

/-- A listed element is the first one of a phrase of the block. -/
theorem of_mem_listedIn {id : BlockId} {b : Block} (hb : d.layout.block? id = some b)
    {x : ElementId} (hx : x ∈ Grammar.listedIn b) : ∃ site start next p,
      d.Occurs site start (.phrase next p) ∧ site.block = id ∧ x = ⟨start.element⟩ := by
  obtain ⟨site, start, pss, hp, rfl⟩ := d.occurs_block hb
  obtain ⟨b', hb', -, -, halternatives⟩ := hp.contents
  obtain rfl := Option.some.inj (hb.symm.trans hb')
  obtain ⟨a, ha, hx⟩ := List.mem_flatMap.1 hx
  rw [halternatives] at ha
  obtain ⟨start', next, p, hp', rfl⟩ := hp.choice.of_mem_choice ha hx
  exact ⟨site, start', next, p, hp', rfl, rfl⟩

theorem nodup_listedIn {id : BlockId} {b : Block} (hb : d.layout.block? id = some b) :
    (Grammar.listedIn b).Nodup := by
  obtain ⟨site, start, pss, hp, rfl⟩ := d.occurs_block hb
  obtain ⟨b', hb', -, -, halternatives⟩ := hp.contents
  obtain rfl := Option.some.inj (hb.symm.trans hb')
  have hascending := (blockAlternatives_ascending site.terminator pss start.element).1
  rw [← halternatives] at hascending
  exact nodup_of_ascending hascending

/-- Blocks list different elements, as each element records its block. -/
theorem nodup_listed (d : Description) : d.layout.listed.Nodup := by
  have hblock : ∀ (i : Nat) (hi : i < d.layout.blocks.toList.length),
      d.layout.block? ⟨i⟩ = some d.layout.blocks.toList[i] := fun i hi => by
    rw [Grammar.block?, ← Array.getElem?_toList, List.getElem?_eq_getElem hi]
  refine List.nodup_flatMap.2 ⟨fun b hb => ?_, ?_⟩
  · obtain ⟨i, hi, rfl⟩ := List.mem_iff_getElem.1 hb
    exact nodup_listedIn (hblock i hi)
  · refine List.pairwise_iff_getElem.2 fun i j hi hj hlt x hx hx' => ?_
    obtain ⟨site, start, next, p, hp, hsite, rfl⟩ := of_mem_listedIn (hblock i hi) hx
    obtain ⟨site', start', next', p', hp', hsite', heq⟩ := of_mem_listedIn (hblock j hj) hx'
    have helement := hp.element
    rw [heq, hp'.element, Option.some.injEq, Element.mk.injEq, hsite, hsite'] at helement
    have := congrArg Handle.index helement.2.2
    simp only at this
    omega

end Description

end GrammarLookahead
