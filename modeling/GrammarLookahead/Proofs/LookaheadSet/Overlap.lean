import GrammarLookahead.Proofs.LookaheadSet.Members
import GrammarLookahead.Report.Comparison

/-!
What two lookahead sets have in common. Sets are told apart exactly when they share nothing, and
their intersection holds what they share. Sets whose members are all complete share the members that
they both have. Main statements: `LookaheadSet.isDisjoint_iff` and
`LookaheadSet.Closed.intersection_eq`.
-/

namespace GrammarLookahead

namespace LookaheadSet

variable {a b : LookaheadSet} {m : Member} {depth : Nat}

/-- What both sets can see: a complete member of both, or a member of one of them with which an
unfinished member of the other can go on. -/
def Shares (a b : LookaheadSet) : Member → Prop
  | .complete s =>
    s ∈ a.complete ∧ s ∈ b.complete ∨
      (s ∈ b.complete ∧ ∃ p ∈ a.unfinished, p <+: s) ∨
        s ∈ a.complete ∧ ∃ p ∈ b.unfinished, p <+: s
  | .unfinished q =>
    (q ∈ b.unfinished ∧ ∃ p ∈ a.unfinished, p <+: q) ∨
      q ∈ a.unfinished ∧ ∃ p ∈ b.unfinished, p <+: q

theorem mem_extensions {starts ss : OrderedSet TokenSeq} {s : TokenSeq} :
    s ∈ extensions starts ss ↔ s ∈ ss ∧ ∃ p ∈ starts, p <+: s := by
  simp [extensions, List.any_eq_true]

theorem mem_intersection :
    m ∈ a.intersection b ↔ ∃ n, a.Shares b n ∧ m = n.clip (max a.depth b.depth) := by
  simp only [intersection, mem_ofMembers, OrderedSet.mem_toList, OrderedSet.mem_union,
    OrderedSet.mem_inter, mem_extensions]
  constructor
  · rintro (⟨s, hs, rfl⟩ | ⟨p, hp, rfl⟩)
    · exact ⟨.complete s, hs, rfl⟩
    · exact ⟨.unfinished p, hp, rfl⟩
  · rintro ⟨n, hn, rfl⟩
    cases n with
    | complete s => exact Or.inl ⟨s, hn, rfl⟩
    | unfinished p => exact Or.inr ⟨p, hn, rfl⟩

theorem isEmpty_iff_forall : a.isEmpty = true ↔ ∀ m, ¬ m ∈ a := by
  constructor
  · exact fun h m => not_mem_of_isEmpty h
  · intro h
    rw [isEmpty_iff]
    exact ext rfl fun m => iff_of_false (h m) not_mem_empty

theorem isEmpty_intersection : (a.intersection b).isEmpty = true ↔ ∀ n, ¬ a.Shares b n := by
  rw [isEmpty_iff_forall]
  constructor
  · exact fun h n hn => h _ (mem_intersection.2 ⟨n, hn, rfl⟩)
  · intro h m hm
    obtain ⟨n, hn, -⟩ := mem_intersection.1 hm
    exact h n hn

/-- The short cut for sets without unfinished members agrees with the intersection. -/
theorem isDisjoint_iff : a.isDisjoint b = true ↔ ∀ n, ¬ a.Shares b n := by
  rw [isDisjoint, Bool.and_eq_true, Bool.or_eq_true, Bool.and_eq_true, isEmpty_intersection,
    OrderedSet.isEmpty_iff, OrderedSet.isEmpty_iff, OrderedSet.isEmpty_iff]
  simp only [OrderedSet.mem_inter]
  constructor
  · rintro ⟨hboth, ⟨ha, hb⟩ | hnone⟩ n hn
    · cases n with
      | complete s =>
        rcases hn with hn | ⟨-, p, hp, -⟩ | ⟨-, p, hp, -⟩
        · exact hboth s hn
        · exact ha p hp
        · exact hb p hp
      | unfinished q =>
        rcases hn with ⟨-, p, hp, -⟩ | ⟨-, p, hp, -⟩
        · exact ha p hp
        · exact hb p hp
    · exact hnone n hn
  · exact fun h => ⟨fun s hs => h (.complete s) (Or.inl hs), Or.inr h⟩

/-- A set at a depth that leaves nothing open, with members as the depth allows. -/
structure Closed (depth : Nat) (a : LookaheadSet) : Prop where
  depth_eq : a.depth = depth
  unfinished_eq : a.unfinished = ∅
  clip_eq : ∀ s ∈ a.complete, TokenSeq.clip depth s = s

namespace Closed

variable (ha : a.Closed depth) (hb : b.Closed depth)
include ha

/-- The first members of a set, up to a number. -/
theorem cap_eq (most : Nat) : a.cap most = ⟨depth, a.complete.take most, ∅⟩ := by
  have hsize : a.size = a.complete.size := by
    rw [size, ha.unfinished_eq]
    rfl
  rw [cap, hsize]
  split
  · rename_i hle
    have htake : a.complete.take most = a.complete := by
      rw [← OrderedSet.toList_inj]
      exact List.take_of_length_le hle
    rw [htake, ← ha.depth_eq, ← ha.unfinished_eq]
  · rw [ha.unfinished_eq, ha.depth_eq]
    refine ext (depth_ofMembers _ _ _) fun m => ?_
    rw [mem_ofMembers]
    have hclip : ∀ s ∈ a.complete.toList.take most,
        (Member.complete s).clip depth = .complete s := fun s hs =>
      congrArg Member.complete (ha.clip_eq s (List.mem_of_mem_take hs))
    constructor
    · rintro (⟨s, hs, rfl⟩ | ⟨p, hp, rfl⟩)
      · rw [hclip s hs]
        exact hs
      · simp [EmptyCollection.emptyCollection, OrderedSet.empty] at hp
    · intro hm
      cases m with
      | complete s => exact Or.inl ⟨s, hm, (hclip s hm).symm⟩
      | unfinished p => exact absurd hm OrderedSet.not_mem_empty

include hb

theorem shares_iff :
    a.Shares b m ↔ ∃ s, m = .complete s ∧ s ∈ a.complete ∧ s ∈ b.complete := by
  cases m with
  | complete s => simp [Shares, ha.unfinished_eq, hb.unfinished_eq]
  | unfinished p => simp [Shares, ha.unfinished_eq, hb.unfinished_eq]

theorem isDisjoint_iff : a.isDisjoint b = true ↔ ∀ s ∈ a.complete, s ∉ b.complete := by
  rw [LookaheadSet.isDisjoint_iff]
  constructor
  · exact fun h s hs hs' => h _ ((ha.shares_iff hb).2 ⟨s, rfl, hs, hs'⟩)
  · intro h n hn
    obtain ⟨s, -, hs, hs'⟩ := (ha.shares_iff hb).1 hn
    exact h s hs hs'

theorem mem_intersection_iff :
    m ∈ a.intersection b ↔ ∃ s, m = .complete s ∧ s ∈ a.complete ∧ s ∈ b.complete := by
  rw [mem_intersection, ha.depth_eq, hb.depth_eq, Nat.max_self]
  constructor
  · rintro ⟨n, hn, rfl⟩
    obtain ⟨s, rfl, hs, hs'⟩ := (ha.shares_iff hb).1 hn
    exact ⟨s, congrArg Member.complete (ha.clip_eq s hs), hs, hs'⟩
  · rintro ⟨s, rfl, hs, hs'⟩
    exact ⟨.complete s, (ha.shares_iff hb).2 ⟨s, rfl, hs, hs'⟩,
      congrArg Member.complete (ha.clip_eq s hs).symm⟩

theorem intersection_eq :
    a.intersection b = ⟨depth, a.complete.filter (· ∈ b.complete), ∅⟩ := by
  refine ext ?_ fun m => ?_
  · rw [intersection, depth_ofMembers, ha.depth_eq, hb.depth_eq, Nat.max_self]
  · rw [ha.mem_intersection_iff hb]
    cases m with
    | complete s => simp
    | unfinished p => simp

theorem intersection : (a.intersection b).Closed depth := by
  rw [ha.intersection_eq hb]
  exact ⟨rfl, rfl, fun s hs => ha.clip_eq s (OrderedSet.mem_filter.1 hs).1⟩

end Closed

end LookaheadSet

theorem pairwiseDisjoint_iff {sets : List LookaheadSet} :
    pairwiseDisjoint sets = true ↔ sets.Pairwise fun a b => a.isDisjoint b = true := by
  induction sets with
  | nil => simp [pairwiseDisjoint]
  | cons a sets ih => simp [pairwiseDisjoint, ih]

end GrammarLookahead
