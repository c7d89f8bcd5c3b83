import Mathlib.Algebra.Group.Nat.Defs
import GrammarLookahead.Proofs.Analysis.Equations

/-!
The least solution of the lookahead equations. `Grammar.Sees` says what a finite walk through the
grammar can see from a place, one rule for each summand of an equation; the sets of all that can be
seen form the least solution. Main statement: `Grammar.Linked.leastSolution_lookahead`.
-/

namespace GrammarLookahead

namespace Vocabulary

variable {v : Vocabulary} {t : TokenId}

theorem eof_mem_tokens : TokenId.eof ∈ v.tokens := mem_tokens.2 (by simp [TokenId.eof, size, names])

theorem mem_matchable : t ∈ v.matchable ↔ t ∈ v.tokens ∧ t.isEof = false := by
  simp [matchable]

/-- The sequences over a vocabulary of at most a length. -/
def sequences (v : Vocabulary) : Nat → List TokenSeq
  | 0 => [[]]
  | n + 1 => [] :: v.tokens.flatMap fun t => (sequences v n).map (t :: ·)

theorem mem_sequences {n : Nat} {s : TokenSeq} :
    s ∈ v.sequences n ↔ s.length ≤ n ∧ ∀ t ∈ s, t ∈ v.tokens := by
  induction n generalizing s with
  | zero =>
    cases s with
    | nil => simp [sequences]
    | cons t s => simp [sequences]
  | succ n ih =>
    cases s with
    | nil => simp [sequences]
    | cons t s =>
      simp only [sequences, List.mem_cons, List.mem_flatMap, List.mem_map, reduceCtorEq, false_or]
      constructor
      · rintro ⟨u, hu, r, hr, heq⟩
        obtain ⟨rfl, rfl⟩ := List.cons.inj heq
        obtain ⟨hlen, htokens⟩ := ih.1 hr
        refine ⟨by simpa using hlen, ?_⟩
        rintro w (rfl | hw)
        · exact hu
        · exact htokens w hw
      · rintro ⟨hlen, htokens⟩
        refine ⟨t, htokens t (Or.inl rfl), s, ih.2 ⟨by simpa using hlen, ?_⟩, rfl⟩
        exact fun w hw => htokens w (Or.inr hw)

theorem length_sequences_le (v : Vocabulary) (n : Nat) :
    (v.sequences n).length ≤ (v.size + 1) ^ n := by
  induction n with
  | zero => simp [sequences]
  | succ n ih =>
    have hlen : (v.sequences (n + 1)).length = v.size * (v.sequences n).length + 1 := by
      simp [sequences, List.length_flatMap, tokens, Function.comp_def, List.map_const']
    have hpos : 1 ≤ (v.size + 1) ^ n := Nat.one_le_pow _ _ (by omega)
    calc (v.sequences (n + 1)).length
        = v.size * (v.sequences n).length + 1 := hlen
      _ ≤ v.size * (v.size + 1) ^ n + (v.size + 1) ^ n :=
          Nat.add_le_add (Nat.mul_le_mul_left _ ih) hpos
      _ = (v.size + 1) ^ (n + 1) := by rw [Nat.pow_succ, Nat.mul_add_one, Nat.mul_comm]

end Vocabulary

namespace Grammar

open LookaheadSet (empty epsilon singleton joinSets)

variable (g : Grammar)

/-- What can be seen from a place by a finite walk, looking a number of tokens ahead. -/
inductive Sees : Option Node → Nat → Context → Member → Prop where
  | nothing {d : Nat} {c : Context} : Sees none d c (.unfinished [])
  | lastToken {id : ElementId} {e : Element} {t : TokenId} {d : Nat} {c : Context}
      (he : g.element? id = some e) (ht : t ∈ g.tokensOf e.kind) (hd : d = 1 ∨ t.isEof) :
      Sees (some (.element id)) d c (.complete [t])
  | token {id : ElementId} {e : Element} {t : TokenId} {d : Nat} {c : Context} {m : Member}
      (he : g.element? id = some e) (ht : t ∈ g.tokensOf e.kind) (heof : t.isEof = false)
      (hd : 1 ≤ d) (h : Sees (e.next.map .element) d c m) :
      Sees (some (.element id)) (d + 1) c (m.prepend [t])
  | called {id : ElementId} {e : Element} {name : String} {target : RuleId} {r : Rule} {d : Nat}
      {c : Context} {s : TokenSeq} (he : g.element? id = some e)
      (hk : e.kind = .reference name target) (hr : g.rule? target = some r)
      (h : Sees (some (.block r.block)) d .callSite (.complete s)) :
      Sees (some (.element id)) d c (.complete s)
  | returned {id : ElementId} {e : Element} {name : String} {target : RuleId} {r : Rule} {d : Nat}
      {c : Context} {p : TokenSeq} {m : Member} (he : g.element? id = some e)
      (hk : e.kind = .reference name target) (hr : g.rule? target = some r)
      (hp : Sees (some (.block r.block)) d .callSite (.unfinished p))
      (h : Sees (e.next.map .element) (d - p.length) c m) :
      Sees (some (.element id)) d c (m.prepend p)
  | entered {id : ElementId} {e : Element} {b : BlockId} {d : Nat} {c : Context} {m : Member}
      (he : g.element? id = some e) (hk : e.kind = .nested b ∨ e.kind = .loop b)
      (h : Sees (some (.block b)) d c m) : Sees (some (.element id)) d c m
  | left {id : ElementId} {e : Element} {b : BlockId} {blk : Block} {d : Nat} {c : Context}
      {m : Member} (he : g.element? id = some e) (hk : e.kind = .blockEnd b)
      (hb : g.block? b = some blk) (h : Sees (some (.element (g.exitTarget blk))) d c m) :
      Sees (some (.element id)) d c m
  | repeated {id : ElementId} {e : Element} {b : BlockId} {blk : Block} {d : Nat} {c : Context}
      {m : Member} (he : g.element? id = some e) (hk : e.kind = .blockEnd b)
      (hb : g.block? b = some blk) (hloop : blk.kind.isLoop = true)
      (h : Sees (some (.block b)) d c m) : Sees (some (.element id)) d c m
  | ended {id : ElementId} {e : Element} {target : RuleId} {d : Nat}
      (he : g.element? id = some e) (hk : e.kind = .ruleEnd target) :
      Sees (some (.element id)) d .callSite (.unfinished [])
  | endOfInput {id : ElementId} {e : Element} {target : RuleId} {r : Rule} {d : Nat}
      (he : g.element? id = some e) (hk : e.kind = .ruleEnd target) (hr : g.rule? target = some r)
      (hentry : r.entry = true ∨ r.callers.isEmpty = true) :
      Sees (some (.element id)) d .everywhere (.complete [.eof])
  | followed {id : ElementId} {e : Element} {target : RuleId} {r : Rule} {site : ElementId}
      {d : Nat} {m : Member} (he : g.element? id = some e) (hk : e.kind = .ruleEnd target)
      (hr : g.rule? target = some r) (hsite : site ∈ r.callers)
      (h : Sees ((g.next? site).map .element) d .everywhere m) :
      Sees (some (.element id)) d .everywhere m
  | branch {b : BlockId} {blk : Block} {n : ElementId} {d : Nat} {c : Context} {m : Member}
      (hb : g.block? b = some blk) (hn : n ∈ g.entries blk)
      (h : Sees (some (.element n)) d c m) : Sees (some (.block b)) d c m

variable {g} {place : Option Node} {d depth : Nat} {c : Context} {m : Member}

theorem Linked.tokensOf_subset (h : g.Linked) {id : ElementId} {e : Element}
    (he : g.element? id = some e) {t : TokenId} (ht : t ∈ g.tokensOf e.kind) :
    t ∈ g.vocabulary.tokens := by
  cases hk : e.kind with
  | terminal u =>
    have hkind := (h.element he).kind
    rw [hk] at hkind ht
    rw [List.mem_singleton.1 ht]
    exact Vocabulary.mem_tokens.2 hkind
  | wildcard =>
    rw [hk] at ht
    exact (Vocabulary.mem_matchable.1 ht).1
  | notTerminal u =>
    rw [hk] at ht
    exact (Vocabulary.mem_matchable.1 (List.mem_filter.1 ht).1).1
  | _ =>
    rw [hk] at ht
    simp [tokensOf] at ht

namespace Sees

theorem wellFormed (h : g.Sees place d c m) (hd : 1 ≤ d) : m.WellFormed d := by
  induction h with
  | nothing => exact ⟨hd, List.not_mem_nil⟩
  | @lastToken id e t d c he ht hlast =>
    refine ⟨hd, by simp, ?_⟩
    exact hlast.imp Eq.symm fun heof => by simpa [TokenId.isEof] using heof
  | @token id e t d c m he ht heof hd' h ih =>
    have hne : TokenId.eof ∉ [t] := by simpa [TokenId.isEof, eq_comm] using heof
    rw [Nat.add_comm]
    exact (ih hd').prepend hne hd'
  | called he hk hr h ih => exact ih hd
  | @returned id e name target r d c p m he hk hr hp h ihp ih =>
    obtain ⟨hlen, heof⟩ := ihp hd
    have hrest : 1 ≤ d - p.length := by omega
    have hwf := (ih hrest).prepend heof hrest
    rwa [Nat.add_sub_cancel' (Nat.le_of_lt hlen)] at hwf
  | entered he hk h ih => exact ih hd
  | left he hk hb h ih => exact ih hd
  | repeated he hk hb hloop h ih => exact ih hd
  | ended he hk => exact ⟨hd, List.not_mem_nil⟩
  | endOfInput he hk hr hentry => exact ⟨hd, by simp, Or.inr rfl⟩
  | followed he hk hr hsite h ih => exact ih hd
  | branch hb hn h ih => exact ih hd

theorem clip_eq (h : g.Sees place d c m) (hd : 1 ≤ d) : m.clip d = m :=
  (h.wellFormed hd).clip_eq

theorem clip_self (h : g.Sees place d c m) (hd : 1 ≤ d) : g.Sees place d c (m.clip d) :=
  (h.clip_eq hd).symm ▸ h

theorem tokens_subset (h : g.Sees place d c m) (hg : g.Linked) :
    ∀ t ∈ m.tokens, t ∈ g.vocabulary.tokens := by
  have hprepend : ∀ {p : TokenSeq} {m : Member}, (∀ t ∈ p, t ∈ g.vocabulary.tokens) →
      (∀ t ∈ m.tokens, t ∈ g.vocabulary.tokens) →
      ∀ t ∈ (m.prepend p).tokens, t ∈ g.vocabulary.tokens := by
    intro p m hp hm t ht
    have happ : (m.prepend p).tokens = p ++ m.tokens := by cases m <;> rfl
    rw [happ, List.mem_append] at ht
    exact ht.elim (hp t) (hm t)
  induction h with
  | nothing => simp [Member.tokens]
  | lastToken he ht _ =>
    intro t hmem
    rw [List.mem_singleton.1 hmem]
    exact hg.tokensOf_subset he ht
  | token he ht _ _ _ ih =>
    refine hprepend (fun t hmem => ?_) ih
    rw [List.mem_singleton.1 hmem]
    exact hg.tokensOf_subset he ht
  | called _ _ _ _ ih => exact ih
  | returned _ _ _ _ _ ihp ih => exact hprepend ihp ih
  | entered _ _ _ ih => exact ih
  | left _ _ _ _ ih => exact ih
  | repeated _ _ _ _ _ ih => exact ih
  | ended _ _ => simp [Member.tokens]
  | endOfInput _ _ _ _ =>
    intro t hmem
    rw [List.mem_singleton.1 hmem]
    exact Vocabulary.eof_mem_tokens
  | followed _ _ _ _ _ ih => exact ih
  | branch _ _ _ ih => exact ih

end Sees

open Classical in
/-- All that can be seen from the node of a key. -/
noncomputable def lookahead (g : Grammar) : Family := fun key =>
  let kept (f : TokenSeq → Member) := (g.vocabulary.sequences key.depth).filter fun s =>
    g.Sees (some key.node) key.depth key.context (f s)
  ⟨key.depth, .ofList (kept .complete), .ofList (kept .unfinished)⟩

@[simp] theorem depth_lookahead {key : Key} : (g.lookahead key).depth = key.depth := rfl

theorem WellFormed.length_le {m : Member} (h : m.WellFormed d) : m.tokens.length ≤ d := by
  cases m with
  | complete s => exact h.1
  | unfinished p => exact Nat.le_of_lt h.1

namespace Linked

variable (h : g.Linked)
include h

theorem sequences_of_sees (hpos : 1 ≤ d) (hs : g.Sees place d c m) :
    m.tokens ∈ g.vocabulary.sequences d :=
  Vocabulary.mem_sequences.2 ⟨WellFormed.length_le (hs.wellFormed hpos), hs.tokens_subset h⟩

theorem mem_lookahead {key : Key} (hpos : 1 ≤ key.depth) :
    m ∈ g.lookahead key ↔ g.Sees (some key.node) key.depth key.context m := by
  cases m with
  | complete s =>
    simp only [lookahead, LookaheadSet.mem_complete, OrderedSet.mem_ofList, List.mem_filter,
      decide_eq_true_eq]
    exact ⟨And.right, fun hs => ⟨h.sequences_of_sees hpos hs, hs⟩⟩
  | unfinished p =>
    simp only [lookahead, LookaheadSet.mem_unfinished, OrderedSet.mem_ofList, List.mem_filter,
      decide_eq_true_eq]
    exact ⟨And.right, fun hs => ⟨h.sequences_of_sees hpos hs, hs⟩⟩

theorem tokens_mem_sequences {key : Key} (hpos : 1 ≤ key.depth) (hm : m ∈ g.lookahead key) :
    m.tokens ∈ g.vocabulary.sequences key.depth :=
  h.sequences_of_sees hpos ((h.mem_lookahead hpos).1 hm)

theorem fits_lookahead (depth : Nat) : g.Fits depth g.lookahead where
  depth_eq _ _ := rfl
  wellFormed _ hkey _ hm := ((h.mem_lookahead hkey.pos).1 hm).wellFormed hkey.pos

theorem mem_behind_lookahead (hd : 1 ≤ d) :
    m ∈ behind g.lookahead place d c ↔ g.Sees place d c m := by
  cases place with
  | none =>
    have hclip : (Member.unfinished []).clip d = .unfinished [] :=
      Member.WellFormed.clip_eq ⟨hd, List.not_mem_nil⟩
    unfold behind
    rw [Option.elim_none, LookaheadSet.mem_epsilon, hclip]
    constructor
    · rintro rfl
      exact .nothing
    · intro hs
      cases hs
      rfl
  | some node => exact @mem_lookahead g m h ⟨node, d, c⟩ hd

section Shown

variable {id : ElementId} {e : Element}

theorem sees_of_mem_tokenEquation (he : g.element? id = some e) (hpos : 1 ≤ d)
    (hm : m ∈ tokenEquation g.lookahead (g.tokensOf e.kind) (e.next.map .element) d c) :
    g.Sees (some (.element id)) d c m := by
  obtain ⟨t, ht, hm⟩ := mem_tokenEquation.1 hm
  by_cases hlast : d = 1 ∨ t.isEof
  · have hs : g.Sees (some (.element id)) d c (.complete [t]) := .lastToken he ht hlast
    rw [if_pos hlast, LookaheadSet.mem_singleton, hs.clip_eq hpos] at hm
    exact hm ▸ hs
  · rw [if_neg hlast] at hm
    rw [not_or, Bool.not_eq_true] at hlast
    obtain ⟨n, hn, rfl⟩ := (LookaheadSet.mem_prepend hlast.2).1 hm
    obtain ⟨d, rfl⟩ : ∃ k, d = k + 1 := ⟨d - 1, by omega⟩
    have hd : 1 ≤ d := by omega
    have hdepth : (behind g.lookahead (e.next.map .element) d c).depth = d :=
      depth_behind (h.fits_lookahead d).depth_eq hd (Nat.le_refl d) (h.contains_behind he)
    have hs : g.Sees (some (.element id)) (d + 1) c (n.prepend [t]) :=
      .token he ht hlast.2 hd ((h.mem_behind_lookahead hd).1 hn)
    rw [Nat.add_sub_cancel, hdepth]
    exact hs.clip_self hpos

theorem sees_of_mem_referenceEquation {name : String} {target : RuleId} {r : Rule}
    (he : g.element? id = some e) (hk : e.kind = .reference name target)
    (hr : g.rule? target = some r) (hpos : 1 ≤ d)
    (hm : m ∈ referenceEquation g.lookahead r (e.next.map .element) d c) :
    g.Sees (some (.element id)) d c m := by
  rcases mem_referenceEquation.1 hm with ⟨s, hs, rfl⟩ | ⟨p, hp, n, hn, rfl⟩
  · exact .called he hk hr ((h.mem_lookahead hpos).1 hs)
  · have hp : g.Sees (some (.block r.block)) d .callSite (.unfinished p) :=
      (h.mem_lookahead hpos).1 hp
    have hlen : p.length < d := (hp.wellFormed hpos).1
    have hrest : 1 ≤ d - p.length := by omega
    have hs : g.Sees (some (.element id)) d c (n.prepend p) :=
      .returned he hk hr hp ((h.mem_behind_lookahead hrest).1 hn)
    rw [depth_lookahead]
    exact hs.clip_self hpos

theorem sees_of_mem_elementEquation (he : g.element? id = some e) (hpos : 1 ≤ d)
    (hm : m ∈ g.elementEquation g.lookahead e d c) : g.Sees (some (.element id)) d c m := by
  have hmem : ∀ {node : Node} {m : Member}, m ∈ g.lookahead ⟨node, d, c⟩ ↔
      g.Sees (some node) d c m := h.mem_lookahead hpos
  simp only [elementEquation] at hm
  cases hk : e.kind with
  | terminal t => exact h.sees_of_mem_tokenEquation he hpos (by simpa only [hk] using hm)
  | wildcard => exact h.sees_of_mem_tokenEquation he hpos (by simpa only [hk] using hm)
  | notTerminal t => exact h.sees_of_mem_tokenEquation he hpos (by simpa only [hk] using hm)
  | reference name target =>
    obtain ⟨r, hr⟩ := h.reference he hk
    simp only [hk, hr, Option.elim_some] at hm
    exact h.sees_of_mem_referenceEquation he hk hr hpos hm
  | nested b =>
    simp only [hk] at hm
    exact .entered he (Or.inl hk) (hmem.1 hm)
  | loop b =>
    simp only [hk] at hm
    exact .entered he (Or.inr hk) (hmem.1 hm)
  | blockEnd b =>
    obtain ⟨blk, hb⟩ := h.blockEnd he hk
    simp only [hk, hb, Option.elim_some, mem_blockEndEquation] at hm
    rcases hm with hm | ⟨hloop, hm⟩
    · exact .left he hk hb (hmem.1 hm)
    · exact .repeated he hk hb hloop (hmem.1 hm)
  | ruleEnd target =>
    obtain ⟨r, hr, -⟩ := h.ruleEnd he hk
    cases c with
    | callSite =>
      have hs : g.Sees (some (.element id)) d .callSite (.unfinished []) := .ended he hk
      simp only [hk, LookaheadSet.mem_epsilon, hs.clip_eq hpos] at hm
      exact hm ▸ hs
    | everywhere =>
      simp only [hk, hr, Option.elim_some, mem_followEquation] at hm
      rcases hm with ⟨hentry, rfl⟩ | ⟨site, hsite, hm⟩
      · exact (Sees.endOfInput he hk hr hentry).clip_self hpos
      · exact .followed he hk hr hsite ((h.mem_behind_lookahead hpos).1 hm)

end Shown

/-- Whatever the equations show, a walk can see. -/
theorem equation_lookahead_le : g.Below depth (g.equation g.lookahead) g.lookahead := by
  rintro ⟨node, d, c⟩ hkey
  refine ⟨h.depth_equation hkey fun _ _ _ => rfl, fun m hm => ?_⟩
  rw [h.mem_lookahead hkey.pos]
  cases node with
  | block id =>
    obtain ⟨b, hb⟩ := contains_block.1 hkey.node
    rw [equation_block hb, mem_blockEquation] at hm
    obtain ⟨n, hn, hm⟩ := hm
    have hd : 1 ≤ (Key.element n d c).depth := hkey.pos
    exact .branch hb hn ((h.mem_lookahead hd).1 hm)
  | element id =>
    obtain ⟨e, he⟩ := contains_element.1 hkey.node
    rw [equation_element he] at hm
    exact h.sees_of_mem_elementEquation he hkey.pos hm

/-- Whatever a walk can see belongs to every family that is closed under the equations. -/
theorem mem_of_sees {G : Family} (hdepth : ∀ key, g.HasKey depth key → (G key).depth = key.depth)
    (hG : g.Below depth (g.equation G) G) (hs : g.Sees place d c m) (hd : 1 ≤ d) (hle : d ≤ depth)
    (hplace : ∀ n, place = some n → g.contains n = true) : m ∈ behind G place d c := by
  have hclosed : ∀ {node : Node} {d : Nat} {c : Context} {m : Member}, 1 ≤ d → d ≤ depth →
      (∀ n, some node = some n → g.contains n = true) → m ∈ g.equation G ⟨node, d, c⟩ →
      m ∈ behind G (some node) d c :=
    fun hd hle hplace => (hG _ ⟨hplace _ rfl, hd, hle⟩).2 _
  induction hs with
  | nothing =>
    exact LookaheadSet.mem_epsilon.2 ((Sees.nothing (g := g) (c := .callSite)).clip_eq hd).symm
  | @lastToken id e t d c he ht hlast =>
    apply hclosed hd hle hplace
    rw [equation_element he, elementEquation_of_mem_tokensOf ht, mem_tokenEquation]
    refine ⟨t, ht, ?_⟩
    rw [if_pos hlast, LookaheadSet.mem_singleton]
    exact ((Sees.lastToken (c := c) he ht hlast).clip_eq hd).symm
  | @token id e t d c m he ht heof hd' hs ih =>
    apply hclosed hd hle hplace
    rw [equation_element he, elementEquation_of_mem_tokensOf ht, mem_tokenEquation]
    refine ⟨t, ht, ?_⟩
    have hlast : ¬ (d + 1 = 1 ∨ t.isEof) := by
      rw [heof, not_or]
      exact ⟨by omega, by simp⟩
    rw [if_neg hlast, LookaheadSet.mem_prepend heof, Nat.add_sub_cancel]
    refine ⟨m, ih hd' (by omega) (h.contains_behind he), ?_⟩
    rw [depth_behind hdepth hd' (by omega) (h.contains_behind he)]
    exact ((Sees.token he ht heof hd' hs).clip_eq hd).symm
  | @called id e name target r d c s he hk hr hs ih =>
    have hblock := contains_of_some (h.contains_ruleBlock hr)
    apply hclosed hd hle hplace
    simp only [equation_element he, elementEquation, hk, hr, Option.elim_some]
    exact mem_referenceEquation.2 (Or.inl ⟨s, ih hd hle hblock, rfl⟩)
  | @returned id e name target r d c p m he hk hr hp hs ihp ih =>
    have hblock := h.contains_ruleBlock hr
    have hdepth : (G (.block r.block d .callSite)).depth = d := hdepth _ ⟨hblock, hd, hle⟩
    have hlen : p.length < d := (hp.wellFormed hd).1
    apply hclosed hd hle hplace
    simp only [equation_element he, elementEquation, hk, hr, Option.elim_some]
    refine mem_referenceEquation.2 (Or.inr ⟨p, ihp hd hle (contains_of_some hblock), m, ?_, ?_⟩)
    · unfold LookaheadSet.missing
      rw [hdepth]
      exact ih (by omega) (by omega) (h.contains_behind he)
    · rw [hdepth]
      exact ((Sees.returned he hk hr hp hs).clip_eq hd).symm
  | @entered id e b d c m he hk hs ih =>
    have hb := ih hd hle (contains_of_some (h.contains_inner he hk))
    apply hclosed hd hle hplace
    rcases hk with hk | hk
    · simp only [equation_element he, elementEquation, hk]
      exact hb
    · simp only [equation_element he, elementEquation, hk]
      exact hb
  | @left id e b blk d c m he hk hb hs ih =>
    have hexit := contains_of_some (h.contains_exit hb)
    apply hclosed hd hle hplace
    simp only [equation_element he, elementEquation, hk, hb, Option.elim_some]
    exact mem_blockEndEquation.2 (Or.inl (ih hd hle hexit))
  | @repeated id e b blk d c m he hk hb hloop hs ih =>
    have hagain := contains_of_some (contains_block.2 ⟨blk, hb⟩)
    apply hclosed hd hle hplace
    simp only [equation_element he, elementEquation, hk, hb, Option.elim_some]
    exact mem_blockEndEquation.2 (Or.inr ⟨hloop, ih hd hle hagain⟩)
  | @ended id e target d he hk =>
    apply hclosed hd hle hplace
    simp only [equation_element he, elementEquation, hk]
    exact LookaheadSet.mem_epsilon.2 ((Sees.ended he hk).clip_eq hd).symm
  | @endOfInput id e target r d he hk hr hentry =>
    have hend := (Sees.endOfInput he hk hr hentry).clip_eq hd
    apply hclosed hd hle hplace
    simp only [equation_element he, elementEquation, hk, hr, Option.elim_some]
    exact mem_followEquation.2 (Or.inl ⟨hentry, hend.symm⟩)
  | @followed id e target r site d m he hk hr hsite hs ih =>
    apply hclosed hd hle hplace
    simp only [equation_element he, elementEquation, hk, hr, Option.elim_some]
    exact mem_followEquation.2 (Or.inr ⟨site, hsite, ih hd hle (h.contains_site site)⟩)
  | @branch b blk n d c m hb hn hs ih =>
    have hentry := contains_of_some (h.contains_entry hb hn)
    apply hclosed hd hle hplace
    rw [equation_block hb]
    exact mem_blockEquation.2 ⟨n, hn, ih hd hle hentry⟩

/-- The least lookahead lies below every family that is closed under the equations. -/
theorem lookahead_le {G : Family} (hdepth : ∀ key, g.HasKey depth key → (G key).depth = key.depth)
    (hG : g.Below depth (g.equation G) G) : g.Below depth g.lookahead G := by
  rintro ⟨node, d, c⟩ hkey
  refine ⟨(hdepth _ hkey).symm, fun m hm => ?_⟩
  show m ∈ behind G (some node) d c
  exact h.mem_of_sees hdepth hG ((h.mem_lookahead hkey.pos).1 hm) hkey.pos hkey.le
    (contains_of_some hkey.node)

/-- The least lookahead satisfies its equations: their right-hand sides form a closed family. -/
theorem equation_lookahead {key : Key} (hkey : g.HasKey depth key) :
    g.equation g.lookahead key = g.lookahead key := by
  have hle : g.Below depth (g.equation g.lookahead) g.lookahead := h.equation_lookahead_le
  have hfits : g.Fits depth (g.equation g.lookahead) := (h.fits_lookahead depth).of_below hle
  have hclosed := h.equation_mono hfits hle
  exact LookaheadSet.le_antisymm (hle key hkey) (h.lookahead_le hfits.depth_eq hclosed key hkey)

/-- What walks can see is the least solution of the lookahead equations. -/
theorem leastSolution_lookahead : g.LeastSolution g.lookahead where
  solves _ hkey := (h.equation_lookahead hkey).symm
  least G hG key hkey := by
    refine h.lookahead_le (fun _ hkey => hG.depth_eq h hkey) (fun key hkey => ?_) key hkey
    rw [← hG key hkey]
    exact LookaheadSet.le_refl _

end Linked

end Grammar

end GrammarLookahead
