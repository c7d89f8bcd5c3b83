import GrammarLookahead.Proofs.Analysis.LeastSolution
import GrammarLookahead.Proofs.LookaheadSet.Overlap

/-!
Lookahead at several depths. What is seen far ahead is seen, cut off, less far ahead, so that places
that see something in common at some depth do so at every smaller one. Where whatever follows a rule
counts, nothing is left open. Main statements: `Linked.clip_mem_lookahead` and
`Linked.lookahead_closed`.
-/

namespace GrammarLookahead.Grammar

variable {g : Grammar} {place : Option Node} {d depth : Nat} {c : Context} {m : Member}

/-- What a walk sees, it sees as far as a smaller depth allows when it looks less far ahead. -/
theorem Sees.clip (h : g.Sees place d c m) (hpos : 1 ≤ depth) (hle : depth ≤ d) :
    g.Sees place depth c (m.clip depth) := by
  induction h generalizing depth with
  | nothing => exact Sees.nothing.clip_self hpos
  | @lastToken id e t d c he ht hlast =>
    have hlast' : depth = 1 ∨ t.isEof := hlast.imp_left fun hone => by omega
    exact (Sees.lastToken he ht hlast').clip_self hpos
  | @token id e t d c m he ht heof hd h ih =>
    have htoken : TokenId.eof ∉ [t] := by simpa [TokenId.isEof, eq_comm] using heof
    by_cases hone : depth = 1
    · subst hone
      have hseen : g.Sees (some (.element id)) 1 c (.complete [t]) :=
        .lastToken he ht (Or.inl rfl)
      rw [Member.clip_prepend_of_full (Or.inl (by simp)),
        TokenSeq.clip_of_le (by simp) (by simp)]
      exact hseen
    · obtain ⟨rest, rfl⟩ : ∃ rest, depth = rest + 1 := ⟨depth - 1, by omega⟩
      rw [Member.clip_prepend htoken (by simp)]
      exact .token he ht heof (by omega) (ih (by omega) (by omega))
  | called he hk hr h ih => exact .called he hk hr (ih hpos hle)
  | @returned id e name target r d c p m he hk hr hp h ihp ih =>
    have hcalled := ihp hpos hle
    have heof : TokenId.eof ∉ p := (hp.wellFormed (by omega)).2
    by_cases hfull : depth ≤ p.length
    · -- The called rule alone fills the smaller depth.
      rw [Member.clip, if_pos (Or.inl hfull)] at hcalled
      rw [Member.clip_prepend_of_full (Or.inl hfull)]
      exact .called he hk hr hcalled
    · rw [Member.clip, if_neg (not_or.2 ⟨hfull, heof⟩)] at hcalled
      rw [Member.clip_prepend heof (by omega)]
      exact .returned he hk hr hcalled (ih (by omega) (by omega))
  | entered he hk h ih => exact .entered he hk (ih hpos hle)
  | left he hk hb h ih => exact .left he hk hb (ih hpos hle)
  | repeated he hk hb hloop h ih => exact .repeated he hk hb hloop (ih hpos hle)
  | ended he hk => exact (Sees.ended he hk).clip_self hpos
  | endOfInput he hk hr hentry => exact (Sees.endOfInput he hk hr hentry).clip_self hpos
  | followed he hk hr hsite h ih => exact .followed he hk hr hsite (ih hpos hle)
  | branch hb hn h ih => exact .branch hb hn (ih hpos hle)

namespace Linked

variable (hg : g.Linked)
include hg

theorem next_isSome {id : ElementId} {e : Element} (he : g.element? id = some e)
    (hk : e.kind.isTerminator = false) : e.next.isSome = true := by
  rw [Option.isSome_iff_ne_none]
  intro hnone
  rw [(hg.element he).next_none.1 hnone] at hk
  exact Bool.noConfusion hk

/-- Something stands behind every call. -/
theorem next?_caller_isSome {id : RuleId} {r : Rule} (hr : g.rule? id = some r) {site : ElementId}
    (hsite : site ∈ r.callers) : (g.next? site).isSome = true := by
  obtain ⟨e, he, htarget⟩ := ((hg.rule hr).callers site).1 hsite
  rw [next?, he, Option.bind_some]
  apply hg.next_isSome he
  cases hk : e.kind with
  | reference => rfl
  | _ =>
    rw [hk] at htarget
    cases htarget

/-- Where whatever follows a rule counts, a walk never comes to a place that leaves the rest open. -/
theorem complete_of_sees (h : g.Sees place d c m) (hplace : place.isSome = true)
    (hc : c = .everywhere) : ∃ s, m = .complete s := by
  have hprepend : ∀ {u : TokenSeq} {m : Member}, (∃ s, m = .complete s) →
      ∃ s, m.prepend u = .complete s := by
    rintro u m ⟨s, rfl⟩
    exact ⟨u ++ s, rfl⟩
  induction h with
  | nothing => cases hplace
  | lastToken => exact ⟨_, rfl⟩
  | @token id e t d c m he ht heof hd h ih =>
    refine hprepend (ih ?_ hc)
    rw [Option.isSome_map]
    apply hg.next_isSome he
    cases hk : e.kind with
    | blockEnd => simp [hk, tokensOf] at ht
    | ruleEnd => simp [hk, tokensOf] at ht
    | _ => rfl
  | called => exact ⟨_, rfl⟩
  | returned he hk hr hp h ihp ih =>
    refine hprepend (ih ?_ hc)
    rw [Option.isSome_map]
    exact hg.next_isSome he (by rw [hk]; rfl)
  | entered he hk h ih => exact ih rfl hc
  | left he hk hb h ih => exact ih rfl hc
  | repeated he hk hb hloop h ih => exact ih rfl hc
  | ended he hk => cases hc
  | endOfInput => exact ⟨_, rfl⟩
  | followed he hk hr hsite h ih =>
    refine ih ?_ hc
    rw [Option.isSome_map]
    exact hg.next?_caller_isSome hr hsite
  | branch hb hn h ih => exact ih rfl hc

variable {node : Node}

/-- Sets that look less far ahead hold the members of deeper sets, cut off. -/
theorem clip_mem_lookahead (hpos : 1 ≤ depth) (hle : depth ≤ d) (hm : m ∈ g.lookahead ⟨node, d, c⟩) :
    m.clip depth ∈ g.lookahead ⟨node, depth, c⟩ := by
  have hd : 1 ≤ (Key.mk node d c).depth := Nat.le_trans hpos hle
  have hdepth : 1 ≤ (Key.mk node depth c).depth := hpos
  exact (hg.mem_lookahead hdepth).2 (((hg.mem_lookahead hd).1 hm).clip hpos hle)

/-- Where whatever follows a rule counts, no member of lookahead is unfinished. -/
theorem lookahead_closed (hpos : 1 ≤ d) : (g.lookahead ⟨node, d, .everywhere⟩).Closed d := by
  have hd : 1 ≤ (Key.mk node d .everywhere).depth := hpos
  refine ⟨rfl, OrderedSet.ext fun p => ?_, fun s hs => ?_⟩
  · refine iff_of_false (fun hp => ?_) OrderedSet.not_mem_empty
    have hseen := (hg.mem_lookahead hd).1 (LookaheadSet.mem_unfinished.2 hp)
    obtain ⟨s, hs⟩ := hg.complete_of_sees hseen rfl rfl
    cases hs
  · have hseen := (hg.mem_lookahead hd).1 (LookaheadSet.mem_complete.2 hs)
    exact Member.complete.inj (hseen.wellFormed hpos).clip_eq

end Linked

end GrammarLookahead.Grammar
