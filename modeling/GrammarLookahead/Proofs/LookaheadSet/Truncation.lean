import GrammarLookahead.Proofs.LookaheadSet.Meaning
import GrammarLookahead.Proofs.LookaheadSet.Splicing

/-!
Looking less far ahead. Truncation goes together with every other operation, so that lookahead may
be compared at different depths: what differs in a few tokens differs in more. Only splicing may see
less when it comes first, since an unfinished member that nothing follows is lost unless it was cut
before. Main statement: `LookaheadSet.truncation_coherent`.
-/

namespace GrammarLookahead

/-- Cutting a member off cuts off what it may turn out to be. -/
theorem Member.Allows.clip {m : Member} {s : TokenSeq} (h : m.Allows s) (depth : Nat) :
    (m.clip depth).Allows (TokenSeq.clip depth s) := by
  cases m with
  | complete s' =>
    obtain rfl : s' = s := h
    rfl
  | unfinished p =>
    obtain ⟨r, rfl⟩ := h
    by_cases hfull : depth ≤ p.length ∨ TokenId.eof ∈ p
    · rw [Member.clip, if_pos hfull]
      exact (TokenSeq.clip_append_of_full hfull r).symm
    · rw [Member.clip, if_neg hfull]
      rw [not_or, Nat.not_le] at hfull
      rw [TokenSeq.clip_append hfull.2 (Nat.le_of_lt hfull.1)]
      exact List.prefix_append p _

/-- Every member may turn out to be its own tokens. -/
theorem Member.allows_tokens (m : Member) : m.Allows m.tokens := by
  cases m with
  | complete s => rfl
  | unfinished p => exact List.prefix_rfl

namespace LookaheadSet

variable {a b c : LookaheadSet} {tails : Nat → Option LookaheadSet} {m n : Member} {s : TokenSeq}
  {depth shorter lost : Nat}

theorem addMembers_comm (h : a.depth = b.depth) : a.addMembers b = b.addMembers a := by
  apply ext
  · simpa using h
  · intro m
    simp [or_comm]

theorem addMembers_assoc : (a.addMembers b).addMembers c = a.addMembers (b.addMembers c) := by
  apply ext
  · simp
  · intro m
    simp [or_assoc]

theorem addMembers_self : a.addMembers a = a := by
  apply ext
  · simp
  · intro m
    simp

theorem addMembers_empty : a.addMembers (empty depth) = a := by
  apply ext
  · simp
  · intro m
    simp

theorem union_comm (h : a.depth = b.depth) : a.union b = b.union a := by
  rw [union_of_depth_eq h.symm, union_of_depth_eq h, addMembers_comm h]

theorem union_self : a.union a = .ok a := by
  rw [union_of_depth_eq rfl, addMembers_self]

theorem union_empty : a.union (empty a.depth) = .ok a := by
  rw [union_of_depth_eq depth_empty, addMembers_empty]

theorem empty_union : (empty a.depth).union a = .ok a := by
  rw [union_comm depth_empty, union_empty]

theorem union_assoc (hab : a.depth = b.depth) (hbc : b.depth = c.depth) :
    ∃ u v w, a.union b = .ok u ∧ b.union c = .ok v ∧ u.union c = .ok w ∧ a.union v = .ok w := by
  refine ⟨_, _, _, union_of_depth_eq hab.symm, union_of_depth_eq hbc.symm,
    union_of_depth_eq (hab.trans hbc).symm, ?_⟩
  have hv : (b.addMembers c).depth = a.depth := hab.symm
  rw [union_of_depth_eq hv, addMembers_assoc]

theorem Normal.truncate_truncate (ha : a.Normal) :
    (a.truncate depth).truncate shorter = a.truncate (min depth shorter) := by
  apply ext
  · simp only [depth_truncate]
    omega
  · intro m
    have hle : min shorter (min depth a.depth) ≤ min depth a.depth := Nat.min_le_right _ _
    have hmin : min shorter (min depth a.depth) = min (min depth shorter) a.depth := by omega
    rw [mem_truncate (ha.truncate depth), mem_truncate ha, depth_truncate]
    constructor
    · rintro ⟨k, hk, rfl⟩
      obtain ⟨n, hn, rfl⟩ := (mem_truncate ha).1 hk
      exact ⟨n, hn, by rw [Member.clip_clip hle, hmin]⟩
    · rintro ⟨n, hn, rfl⟩
      exact ⟨_, (mem_truncate ha).2 ⟨n, hn, rfl⟩, by rw [Member.clip_clip hle, hmin]⟩

/-- Only what the shallower set can see of a deeper one is joined. -/
theorem Normal.absorb_truncate (hb : b.Normal) (hle : a.depth ≤ b.depth) :
    a.absorb (b.truncate a.depth) = a.absorb b := by
  apply ext
  · simp
  · intro m
    have hmin : min a.depth b.depth = a.depth := Nat.min_eq_left hle
    rw [mem_absorb (hb.truncate a.depth), mem_absorb hb]
    apply or_congr_right
    constructor
    · rintro ⟨k, hk, rfl⟩
      obtain ⟨n, hn, rfl⟩ := (mem_truncate hb).1 hk
      exact ⟨n, hn, by rw [hmin, Member.clip_clip (Nat.le_refl _)]⟩
    · rintro ⟨n, hn, rfl⟩
      exact ⟨_, (mem_truncate hb).2 ⟨n, hn, rfl⟩, by rw [hmin, Member.clip_clip (Nat.le_refl _)]⟩

theorem Normal.addMembers_truncate (ha : a.Normal) (hb : b.Normal) (hdepth : a.depth = b.depth) :
    (a.addMembers b).truncate depth = (a.truncate depth).addMembers (b.truncate depth) := by
  apply ext
  · simp
  · intro m
    rw [mem_addMembers, mem_truncate (ha.addMembers hb hdepth), mem_truncate ha, mem_truncate hb,
      ← hdepth]
    simp only [mem_addMembers, depth_addMembers, or_and_right, exists_or]

theorem Normal.prepend_truncate (ha : a.Normal) (t : TokenId) :
    (a.prepend t).truncate (depth + 1) = (a.truncate depth).prepend t := by
  have hmin : min (depth + 1) (a.depth + 1) = min depth a.depth + 1 := by omega
  apply ext
  · simp [hmin]
  · intro m
    rw [mem_truncate normal_prepend, depth_prepend, hmin]
    by_cases heof : t.isEof
    · have hclip : ((Member.complete [t]).clip (a.depth + 1)).clip (min depth a.depth + 1) =
          (Member.complete [t]).clip (min depth a.depth + 1) := Member.clip_clip (by omega)
      rw [prepend_eof heof, prepend_eof heof, depth_truncate]
      simp only [mem_singleton, exists_eq_left, hclip]
    · have heof : t.isEof = false := by simpa using heof
      have htoken : TokenId.eof ∉ [t] := TokenSeq.eof_not_mem_token heof
      have hclip : ∀ n : Member, (n.prepend [t]).clip (min depth a.depth + 1) =
          (n.clip (min depth a.depth)).prepend [t] := fun n => by
        rw [Member.clip_prepend htoken (by simp)]
        rfl
      rw [(ha.truncate depth).mem_prepend heof]
      constructor
      · rintro ⟨k, hk, rfl⟩
        obtain ⟨n, hn, rfl⟩ := (ha.mem_prepend heof).1 hk
        exact ⟨_, (mem_truncate ha).2 ⟨n, hn, rfl⟩, hclip n⟩
      · rintro ⟨k, hk, rfl⟩
        obtain ⟨n, hn, rfl⟩ := (mem_truncate ha).1 hk
        exact ⟨_, (ha.mem_prepend heof).2 ⟨n, hn, rfl⟩, (hclip n).symm⟩

/-- The tails for a set that was cut off by some tokens, themselves cut off by as many. -/
def cutTails (tails : Nat → Option LookaheadSet) (lost r : Nat) : Option LookaheadSet :=
  (tails (r + lost)).map (·.truncate r)

theorem Fitting.cutTails (h : Fitting tails) (lost : Nat) : Fitting (cutTails tails lost) := by
  intro r tail htail
  obtain ⟨tail, hsome, rfl⟩ := Option.map_eq_some_iff.1 htail
  obtain ⟨hdepth, hnormal⟩ := h _ tail hsome
  refine ⟨?_, hnormal.truncate r⟩
  rw [depth_truncate, hdepth]
  omega

theorem mem_tailAt_cutTails {r : Nat} (ht : Fitting tails) (h : (tails (r + lost)).isSome) :
    m ∈ tailAt (cutTails tails lost) r ↔ ∃ n ∈ tailAt tails (r + lost), m = n.clip r := by
  obtain ⟨tail, htail⟩ := Option.isSome_iff_exists.1 h
  obtain ⟨hdepth, hnormal⟩ := ht _ tail htail
  have hmin : min r tail.depth = r := by omega
  simp [tailAt, cutTails, htail, mem_truncate hnormal, hmin]

/-- What a member becomes after it was cut off is what it becomes before, cut off. One that fills
the smaller depth is there even if nothing follows it. -/
theorem Normal.becomes_clip (ha : a.Normal) (ht : Fitting tails) (hsupplies : Supplies tails a)
    (hle : depth ≤ a.depth) (hn : n ∈ a) :
    (n.clip depth).Becomes (cutTails tails (a.depth - depth)) depth m ↔
      (∃ k, n.Becomes tails a.depth k ∧ m = k.clip depth) ∨
        ∃ p, n = .unfinished p ∧ depth ≤ p.length ∧ m = .complete (TokenSeq.clip depth p) := by
  cases n with
  | complete s => simp [Member.clip, Member.Becomes]
  | unfinished p =>
    obtain ⟨hlength, heof⟩ : p.length < a.depth ∧ TokenId.eof ∉ p := ha _ hn
    by_cases hfull : depth ≤ p.length
    · rw [Member.clip, if_pos (Or.inl hfull)]
      constructor
      · exact fun hm => Or.inr ⟨p, rfl, hfull, hm⟩
      · rintro (⟨_, ⟨j, -, rfl⟩, rfl⟩ | ⟨_, ⟨⟩, -, hm⟩)
        · exact Member.clip_prepend_of_full (Or.inl hfull) j
        · exact hm
    · have hmissing : depth - p.length + (a.depth - depth) = a.missing p := by
        unfold missing
        omega
      have htail : (tails (depth - p.length + (a.depth - depth))).isSome :=
        hmissing ▸ hsupplies _ (missing_mem hn)
      have hclip : ∀ j : Member, (j.prepend p).clip depth = (j.clip (depth - p.length)).prepend p :=
        Member.clip_prepend heof (by omega)
      rw [Member.clip, if_neg (not_or.2 ⟨hfull, heof⟩)]
      change (∃ k ∈ tailAt (cutTails tails _) (depth - p.length), m = k.prepend p) ↔
        (∃ k, (∃ j ∈ tailAt tails (a.missing p), k = j.prepend p) ∧ m = k.clip depth) ∨ _
      simp only [mem_tailAt_cutTails ht htail, hmissing]
      constructor
      · rintro ⟨_, ⟨j, hj, rfl⟩, rfl⟩
        exact Or.inl ⟨_, ⟨j, hj, rfl⟩, (hclip j).symm⟩
      · rintro (⟨_, ⟨j, hj, rfl⟩, rfl⟩ | ⟨_, ⟨⟩, hlong, -⟩)
        · exact ⟨_, ⟨j, hj, rfl⟩, hclip j⟩
        · exact absurd hlong hfull

theorem Normal.mem_truncate_splice (ha : a.Normal) (ht : Fitting tails) (hle : depth ≤ a.depth) :
    m ∈ (a.splice tails).truncate depth ↔
      ∃ n ∈ a, ∃ k, n.Becomes tails a.depth k ∧ m = k.clip depth := by
  rw [mem_truncate (ha.splice tails), depth_splice, Nat.min_eq_left hle]
  constructor
  · rintro ⟨k, hk, rfl⟩
    obtain ⟨n, hn, hbecomes⟩ := (ha.mem_splice ht).1 hk
    exact ⟨n, hn, k, hbecomes, rfl⟩
  · rintro ⟨n, hn, k, hbecomes, rfl⟩
    exact ⟨k, (ha.mem_splice ht).2 ⟨n, hn, hbecomes⟩, rfl⟩

section Splice

variable (ha : a.Normal) (ht : Fitting tails) (hsupplies : Supplies tails a)
  (hle : depth ≤ a.depth)
include ha ht hsupplies hle

theorem Normal.mem_splice_truncate :
    m ∈ (a.truncate depth).splice (cutTails tails (a.depth - depth)) ↔
      ∃ n ∈ a, (∃ k, n.Becomes tails a.depth k ∧ m = k.clip depth) ∨
        ∃ p, n = .unfinished p ∧ depth ≤ p.length ∧ m = .complete (TokenSeq.clip depth p) := by
  rw [(ha.truncate depth).mem_splice (ht.cutTails _), depth_truncate, Nat.min_eq_left hle]
  constructor
  · rintro ⟨k, hk, hm⟩
    obtain ⟨n, hn, rfl⟩ := (mem_truncate ha).1 hk
    rw [Nat.min_eq_left hle] at hm
    exact ⟨n, hn, (ha.becomes_clip ht hsupplies hle hn).1 hm⟩
  · rintro ⟨n, hn, hm⟩
    refine ⟨_, (mem_truncate ha).2 ⟨n, hn, rfl⟩, ?_⟩
    rw [Nat.min_eq_left hle]
    exact (ha.becomes_clip ht hsupplies hle hn).2 hm

theorem Normal.truncate_splice_le :
    (a.splice tails).truncate depth ≤
      (a.truncate depth).splice (cutTails tails (a.depth - depth)) := by
  refine ⟨by simp, fun m hm => ?_⟩
  obtain ⟨n, hn, hbecomes⟩ := (ha.mem_truncate_splice ht hle).1 hm
  exact (ha.mem_splice_truncate ht hsupplies hle).2 ⟨n, hn, Or.inl hbecomes⟩

/-- Nothing is lost where every unfinished member is followed by something. -/
theorem Normal.truncate_splice (hsome : ∀ r ∈ a.missingDepths, ∃ k, k ∈ tailAt tails r) :
    (a.splice tails).truncate depth =
      (a.truncate depth).splice (cutTails tails (a.depth - depth)) := by
  apply le_antisymm (ha.truncate_splice_le ht hsupplies hle)
  refine ⟨by simp, fun m hm => ?_⟩
  rw [ha.mem_truncate_splice ht hle]
  obtain ⟨n, hn, hm⟩ := (ha.mem_splice_truncate ht hsupplies hle).1 hm
  rcases hm with hm | ⟨p, rfl, hfull, rfl⟩
  · exact ⟨n, hn, hm⟩
  · obtain ⟨k, hk⟩ := hsome _ (missing_mem hn)
    exact ⟨_, hn, k.prepend p, ⟨k, hk, rfl⟩, (Member.clip_prepend_of_full (Or.inl hfull) k).symm⟩

end Splice

theorem Normal.admits_truncate (ha : a.Normal) (h : a.Admits s) (depth : Nat) :
    (a.truncate depth).Admits (TokenSeq.clip (min depth a.depth) s) := by
  obtain ⟨m, hm, hallows⟩ := h
  exact ⟨_, (mem_truncate ha).2 ⟨m, hm, rfl⟩, hallows.clip _⟩

/-- Sets that are told apart in a few tokens are told apart in more. -/
theorem Normal.isDisjoint_of_truncate (ha : a.Normal) (hb : b.Normal) (hdepth : a.depth = b.depth)
    (h : (a.truncate depth).isDisjoint (b.truncate depth) = true) : a.isDisjoint b = true := by
  rw [isDisjoint_iff] at h ⊢
  intro m hm
  obtain ⟨hadmita, hadmitb⟩ := exists_shares_allows.1 ⟨m, hm, m.allows_tokens⟩
  have hcuta := ha.admits_truncate hadmita depth
  have hcutb := hb.admits_truncate hadmitb depth
  rw [← hdepth] at hcutb
  obtain ⟨k, hk, -⟩ := exists_shares_allows.2 ⟨hcuta, hcutb⟩
  exact h k hk

/-- Truncation agrees with every other operation. Unions at one depth may be grouped and ordered at
will, and deeper operands may be truncated first; truncation never asks for a shallow operand, and
goes together with itself, unions and tokens in front. After splicing it leaves no more than before,
and as much if something follows every unfinished member. Sets whose truncations are told apart are
told apart. -/
theorem truncation_coherent :
    (∀ a b c : LookaheadSet, a.depth = b.depth → b.depth = c.depth →
      a.union b = b.union a ∧ a.union a = .ok a ∧
      a.union (empty a.depth) = .ok a ∧ (empty a.depth).union a = .ok a ∧
      ∃ u v w, a.union b = .ok u ∧ b.union c = .ok v ∧ u.union c = .ok w ∧ a.union v = .ok w) ∧
    (∀ a b : LookaheadSet, Built b → a.depth ≤ b.depth →
      ∃ u, a.union b = .ok u ∧ a.union (b.truncate a.depth) = .ok u) ∧
    (∀ (a : LookaheadSet) d, (empty (min d a.depth)).union a = .ok (a.truncate d)) ∧
    (∀ a d₁ d₂, Built a → (a.truncate d₁).truncate d₂ = a.truncate (min d₁ d₂)) ∧
    (∀ a b d, Built a → Built b → a.depth = b.depth →
      ∃ u, a.union b = .ok u ∧ (a.truncate d).union (b.truncate d) = .ok (u.truncate d)) ∧
    (∀ a t d, Built a → (a.prepend t).truncate (d + 1) = (a.truncate d).prepend t) ∧
    (∀ a tails d, Built a → BuiltTails tails → Supplies tails a → d ≤ a.depth →
      (a.splice tails).truncate d ≤
        (a.truncate d).splice (fun r => (tails (r + a.depth - d)).map (·.truncate r)) ∧
      ((∀ r ∈ a.missingDepths, ∀ tail, tails r = some tail → tail.isEmpty = false) →
        (a.splice tails).truncate d =
          (a.truncate d).splice fun r => (tails (r + a.depth - d)).map (·.truncate r))) ∧
    ∀ a b d, Built a → Built b → a.depth = b.depth →
      (a.truncate d).isDisjoint (b.truncate d) = true → a.isDisjoint b = true := by
  refine ⟨fun a b c hab hbc => ?_, fun a b hb hle => ?_, fun a d => union_eq (Nat.min_le_right _ _),
    fun a d₁ d₂ ha => ha.normal.truncate_truncate, fun a b d ha hb hdepth => ?_,
    fun a t d ha => ha.normal.prepend_truncate t, fun a tails d ha htails hsupplies hle => ?_,
    fun a b d ha hb hdepth => ha.normal.isDisjoint_of_truncate hb.normal hdepth⟩
  · exact ⟨union_comm hab, union_self, union_empty, empty_union, union_assoc hab hbc⟩
  · have hdepth : a.depth ≤ (b.truncate a.depth).depth := by
      rw [depth_truncate]
      omega
    exact ⟨_, union_eq hle, by rw [union_eq hdepth, hb.normal.absorb_truncate hle]⟩
  · refine ⟨_, union_of_depth_eq hdepth.symm, ?_⟩
    rw [union_of_depth_eq (by simp [hdepth]), ha.normal.addMembers_truncate hb.normal hdepth]
  · have hcut : (fun r => (tails (r + a.depth - d)).map (·.truncate r)) =
        cutTails tails (a.depth - d) := by
      funext r
      rw [cutTails, Nat.add_sub_assoc hle]
    rw [hcut]
    refine ⟨ha.normal.truncate_splice_le htails.fitting hsupplies hle, fun hnonempty => ?_⟩
    refine ha.normal.truncate_splice htails.fitting hsupplies hle fun r hr => ?_
    have htail := hnonempty r hr _ (hsupplies.eq_tailAt hr)
    rw [← Bool.not_eq_true, isEmpty_iff_forall] at htail
    simpa using htail

/-- Cut off behind its first token, the item goes on with the end of input as before, and is still
told apart from other items. -/
theorem openItem_truncated :
    ∃ tails : Nat → Option LookaheadSet,
      tails = (fun r => some (singleton r [.eof])) ∧ BuiltTails tails ∧ Supplies tails openItem ∧
      (openItem.splice tails).truncate 1 =
        (openItem.truncate 1).splice
          (fun r => (tails (r + openItem.depth - 1)).map (·.truncate r)) ∧
      ((openItem.splice tails).truncate 1).isDisjoint ((singleton 2 [⟨6⟩, ⟨6⟩]).truncate 1) = true ∧
      (openItem.splice tails).isDisjoint (singleton 2 [⟨6⟩, ⟨6⟩]) = true := by
  have htails : BuiltTails fun r => some (singleton r [.eof]) := by
    rintro r tail htail
    cases htail
    exact ⟨rfl, .singleton r _⟩
  obtain ⟨-, -, -, -, -, -, hsplice, hdisjoint⟩ := truncation_coherent
  obtain ⟨-, heq⟩ := hsplice openItem _ 1 built_openItem htails (fun _ _ => rfl) (by decide)
  have hapart : ((openItem.splice fun r => some (singleton r [.eof])).truncate 1).isDisjoint
      ((singleton 2 [⟨6⟩, ⟨6⟩]).truncate 1) = true := by decide
  refine ⟨_, rfl, htails, fun _ _ => rfl, heq ?_, hapart,
    hdisjoint _ _ 1 ?_ (.singleton _ _) ?_ hapart⟩
  · rintro r - tail htail
    cases htail
    rfl
  · exact .splice built_openItem fun r tail htail => (htails r tail htail).2
  · exact depth_splice

end LookaheadSet

end GrammarLookahead
