import GrammarLookahead.Proofs.Analysis.LeastSolution

/-!
Passages between places of a grammar. From where a passage begins, a walk sees the tokens of the
passage as far as the depth allows and, where depth is left, whatever is seen from its end. Passages
are put together one behind the other, and a call is passed with the words that the called rule
shows up to its end.
-/

namespace GrammarLookahead.Grammar

variable (g : Grammar)

/-- Tokens that are seen from a place as soon as they fill the depth or reach the end of input. -/
def Emits (c : Context) (a : Option Node) (u : TokenSeq) : Prop :=
  ∀ d, 1 ≤ d → d ≤ u.length ∨ TokenId.eof ∈ u → g.Sees a d c (.complete (TokenSeq.clip d u))

/-- A passage from one place to another one that reads some tokens. -/
structure Passes (c : Context) (a : Option Node) (u : TokenSeq) (b : Option Node) : Prop where
  /-- Tokens that fill the depth or reach the end of input are all that is seen. -/
  full : g.Emits c a u
  /-- Otherwise the tokens stand in front of what is seen from the end. -/
  through : ∀ d m, u.length < d → TokenId.eof ∉ u → g.Sees b (d - u.length) c m →
    g.Sees a d c (m.prepend u)

/-- Whatever the depth, a walk from a place sees as much of a member as the depth allows. -/
def Shows (place : Option Node) (c : Context) (m : Member) : Prop :=
  ∀ d, 1 ≤ d → g.Sees place d c (m.clip d)

variable {g} {a b e : Option Node} {c : Context} {u v : TokenSeq} {m : Member}
  {id n : ElementId} {x : Element}

namespace Emits

theorem nil (a : Option Node) : g.Emits c a [] := by
  intro d hd hfull
  rcases hfull with hlen | heof
  · exact absurd hlen (by simp only [List.length_nil]; omega)
  · exact absurd heof List.not_mem_nil

/-- What is emitted behind a passage is emitted from its beginning, behind its tokens. -/
theorem prepend (h : g.Passes c a u b) (hv : g.Emits c b v) : g.Emits c a (u ++ v) := by
  intro d hd hfull
  by_cases hu : d ≤ u.length ∨ TokenId.eof ∈ u
  · rw [TokenSeq.clip_append_of_full hu]
    exact h.full d hd hu
  · rw [not_or] at hu
    rw [TokenSeq.clip_append hu.2 (by omega)]
    refine h.through d (.complete _) (by omega) hu.2 (hv _ (by omega) ?_)
    rw [List.length_append, List.mem_append, or_iff_right hu.2] at hfull
    exact hfull.imp_left (by omega)

end Emits

namespace Passes

/-- A step that reads nothing. -/
theorem of_sees (h : ∀ {d m}, g.Sees b d c m → g.Sees a d c m) : g.Passes c a [] b where
  full := .nil a
  through d m _ _ hs := by
    rw [Member.prepend_nil]
    exact h hs

theorem refl (a : Option Node) : g.Passes c a [] a := of_sees id

theorem trans (h : g.Passes c a u b) (k : g.Passes c b v e) : g.Passes c a (u ++ v) e where
  full := k.full.prepend h
  through d m hlen heof hs := by
    rw [List.length_append] at hlen hs
    rw [List.mem_append, not_or] at heof
    rw [Member.prepend_append]
    refine h.through d _ (by omega) heof.1 (k.through _ m (by omega) heof.2 ?_)
    rwa [Nat.sub_sub]

/-- A token leads to what stands behind its element. -/
theorem token {t : TokenId} (hx : g.element? id = some x) (ht : t ∈ g.tokensOf x.kind)
    (hn : x.next = some n) : g.Passes c (some (.element id)) [t] (some (.element n)) where
  full d hd hfull := by
    have hclip : TokenSeq.clip d [t] = [t] := TokenSeq.clip_of_le (by simp) (by simpa using hd)
    rw [hclip]
    refine .lastToken hx ht (hfull.imp (fun hlen => ?_) fun heof => ?_)
    · rw [List.length_singleton] at hlen
      omega
    · simpa [TokenId.isEof, eq_comm] using heof
  through d m hlen heof hs := by
    rw [List.length_singleton] at hlen hs
    obtain ⟨d, rfl⟩ : ∃ k, d = k + 1 := ⟨d - 1, by omega⟩
    exact .token hx ht (by simpa [TokenId.isEof, eq_comm] using heof) (by omega)
      (by rwa [hn])

/-- A reference leads to what stands behind it with any word that the called rule shows. -/
theorem reference {name : String} {target : RuleId} {r : Rule} (hx : g.element? id = some x)
    (hk : x.kind = .reference name target) (hr : g.rule? target = some r)
    (hn : x.next = some n) (h : g.Shows (some (.block r.block)) .callSite (.unfinished u)) :
    g.Passes c (some (.element id)) u (some (.element n)) where
  full d hd hfull := by
    have hcalled := h d hd
    rw [Member.clip, if_pos hfull] at hcalled
    exact .called hx hk hr hcalled
  through d m hlen heof hs := by
    have hcalled := h d (by omega)
    rw [Member.clip, if_neg (not_or.2 ⟨by omega, heof⟩)] at hcalled
    exact .returned hx hk hr hcalled (by rwa [hn])

end Passes

namespace Shows

theorem prepend (h : g.Passes c a u b) (hm : g.Shows b c m) : g.Shows a c (m.prepend u) := by
  intro d hd
  by_cases hfull : d ≤ u.length ∨ TokenId.eof ∈ u
  · rw [Member.clip_prepend_of_full hfull]
    exact h.full d hd hfull
  · rw [not_or] at hfull
    rw [Member.clip_prepend hfull.2 (by omega)]
    exact h.through d _ (by omega) hfull.2 (hm _ (by omega))

theorem ended {target : RuleId} (hx : g.element? id = some x) (hk : x.kind = .ruleEnd target) :
    g.Shows (some (.element id)) .callSite (.unfinished []) := by
  intro d hd
  exact (Grammar.Sees.ended hx hk).clip_self hd

theorem endOfInput {target : RuleId} {r : Rule} (hx : g.element? id = some x)
    (hk : x.kind = .ruleEnd target) (hr : g.rule? target = some r)
    (hentry : r.entry = true ∨ r.callers.isEmpty = true) :
    g.Shows (some (.element id)) .everywhere (.complete [.eof]) := by
  intro d hd
  exact (Grammar.Sees.endOfInput hx hk hr hentry).clip_self hd

end Shows

end GrammarLookahead.Grammar
