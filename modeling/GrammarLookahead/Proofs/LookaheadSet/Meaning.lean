import Mathlib.Data.Set.BooleanAlgebra
import Mathlib.Order.CompletePartialOrder
import Mathlib.Tactic.Tauto
import GrammarLookahead.Proofs.LookaheadSet.Construction

/-!
What lookahead sets stand for. A complete member stands for itself and an unfinished one for every
complete sequence that begins with it. The intersection of two sets stands for exactly what both
stand for, and sets are told apart exactly when they stand for nothing in common. Main statement:
`LookaheadSet.intersection_exact`.
-/

namespace GrammarLookahead

namespace TokenSeq

variable {s p : TokenSeq}

theorem getLast?_eq_eof (h : TokenId.eof ∈ s) (hlast : TokenId.eof ∉ s.dropLast) :
    s.getLast? = some TokenId.eof := by
  rcases List.eq_nil_or_concat s with rfl | ⟨r, t, rfl⟩
  · simp at h
  · simp_all

/-- Nothing goes on behind the end of input. -/
theorem eq_of_prefix_of_eof (h : p <+: s) (heof : TokenId.eof ∈ p) (hs : TokenId.eof ∉ s.dropLast) :
    p = s := by
  obtain ⟨r, rfl⟩ := h
  by_cases hnil : r = []
  · simp [hnil]
  · rw [List.dropLast_append_of_ne_nil hnil] at hs
    exact absurd (List.mem_append_left _ heof) hs

end TokenSeq

namespace Member

variable {depth : Nat} {m : Member} {s : TokenSeq}

/-- A complete member fills the depth or ends at the end of input, an unfinished one is shorter, and
nothing stands behind the end of input. -/
def Proper (depth : Nat) : Member → Prop
  | complete s => (complete s).WellFormed depth
  | unfinished p => p.length < depth ∧ TokenId.eof ∉ p.dropLast

/-- A member may turn out to be a sequence: a complete member is it, an unfinished one begins it. -/
def Allows : Member → TokenSeq → Prop
  | complete s', s => s' = s
  | unfinished p, s => p <+: s

theorem WellFormed.proper (h : m.WellFormed depth) : m.Proper depth := by
  cases m with
  | complete s => exact h
  | unfinished p => exact ⟨h.1, fun heof => h.2 (List.dropLast_subset p heof)⟩

theorem Proper.full (h : m.Proper depth) : m.Full depth := by
  cases m with
  | complete s => exact h.2.2
  | unfinished p => trivial

/-- Keeping a member in a set does not change what it may turn out to be. -/
theorem Proper.allows_clip (h : m.Proper depth) (hs : (complete s).WellFormed depth) :
    (m.clip depth).Allows s ↔ m.Allows s := by
  cases m with
  | complete s' =>
    have hwf : (complete s').WellFormed depth := h
    rw [hwf.clip_eq]
  | unfinished p =>
    by_cases heof : TokenId.eof ∈ p
    · have hclip : (unfinished p).clip depth = complete p := by
        rw [clip, if_pos (Or.inr heof), TokenSeq.clip_of_le h.2 h.1.le]
      rw [hclip]
      constructor
      · rintro rfl
        exact List.prefix_rfl
      · exact fun hbegins => TokenSeq.eq_of_prefix_of_eof hbegins heof hs.2.1
    · have hnormal : (unfinished p).Normal depth := ⟨h.1, heof⟩
      rw [hnormal.clip_eq]

/-- The input may end behind an unfinished member. -/
theorem Proper.exists_allowed (h : m.Proper depth) :
    ∃ s, (complete s).WellFormed depth ∧ m.Allows s := by
  cases m with
  | complete s => exact ⟨s, h, rfl⟩
  | unfinished p =>
    by_cases heof : TokenId.eof ∈ p
    · exact ⟨p, ⟨h.1.le, h.2, Or.inr (TokenSeq.getLast?_eq_eof heof h.2)⟩, List.prefix_rfl⟩
    · refine ⟨p ++ [.eof], ⟨?_, ?_, ?_⟩, List.prefix_append p _⟩
      · simpa using Nat.succ_le_of_lt h.1
      · simpa using heof
      · simp

end Member

namespace LookaheadSet

variable {a b c : LookaheadSet} {m : Member} {s q : TokenSeq}

def Proper (a : LookaheadSet) : Prop := ∀ m ∈ a, m.Proper a.depth

/-- Some unfinished member begins a sequence. -/
def Opens (a : LookaheadSet) (s : TokenSeq) : Prop := ∃ p ∈ a.unfinished, p <+: s

/-- Some member may turn out to be a sequence. -/
def Admits (a : LookaheadSet) (s : TokenSeq) : Prop := ∃ m ∈ a, m.Allows s

/-- What a set stands for: its complete members, and every complete sequence for its depth that
begins with an unfinished one. -/
def meaning (a : LookaheadSet) : Set TokenSeq :=
  {s | s ∈ a.complete ∨ (Member.complete s).WellFormed a.depth ∧ ∃ p ∈ a.unfinished, p <+: s}

theorem admits_iff : a.Admits s ↔ s ∈ a.complete ∨ a.Opens s := by
  constructor
  · rintro ⟨m, hm, hallows⟩
    cases m with
    | complete s' =>
      obtain rfl : s' = s := hallows
      exact Or.inl hm
    | unfinished p => exact Or.inr ⟨p, hm, hallows⟩
  · rintro (hs | ⟨p, hp, hbegins⟩)
    · exact ⟨.complete s, hs, rfl⟩
    · exact ⟨.unfinished p, hp, hbegins⟩

theorem Proper.mem_meaning (ha : a.Proper) :
    s ∈ a.meaning ↔ (Member.complete s).WellFormed a.depth ∧ a.Admits s := by
  rw [admits_iff]
  constructor
  · rintro (hs | ⟨hwf, hopen⟩)
    · exact ⟨ha (.complete s) hs, Or.inl hs⟩
    · exact ⟨hwf, Or.inr hopen⟩
  · rintro ⟨hwf, hs | hopen⟩
    · exact Or.inl hs
    · exact Or.inr ⟨hwf, hopen⟩

theorem shares_complete :
    a.Shares b (.complete s) ↔
      (s ∈ a.complete ∨ s ∈ b.complete) ∧ a.Admits s ∧ b.Admits s := by
  have hunfold : a.Shares b (.complete s) ↔ s ∈ a.complete ∧ s ∈ b.complete ∨
      (s ∈ b.complete ∧ a.Opens s) ∨ s ∈ a.complete ∧ b.Opens s := Iff.rfl
  rw [hunfold, admits_iff, admits_iff]
  tauto

theorem shares_unfinished :
    a.Shares b (.unfinished q) ↔
      (q ∈ a.unfinished ∨ q ∈ b.unfinished) ∧ a.Opens q ∧ b.Opens q := by
  have hself : ∀ {a : LookaheadSet}, q ∈ a.unfinished → a.Opens q := fun h =>
    ⟨q, h, List.prefix_rfl⟩
  constructor
  · rintro (⟨hq, hopen⟩ | ⟨hq, hopen⟩)
    · exact ⟨Or.inr hq, hopen, hself hq⟩
    · exact ⟨Or.inl hq, hself hq, hopen⟩
  · rintro ⟨hq | hq, hopena, hopenb⟩
    · exact Or.inr ⟨hq, hopenb⟩
    · exact Or.inl ⟨hq, hopena⟩

theorem shares_comm : a.Shares b m ↔ b.Shares a m := by
  cases m with
  | complete s => simp only [shares_complete, or_comm, and_comm]
  | unfinished q => simp only [shares_unfinished, or_comm, and_comm]

theorem Opens.trans (h : a.Opens q) (hbegins : q <+: s) : a.Opens s := by
  obtain ⟨p, hp, hpq⟩ := h
  exact ⟨p, hp, hpq.trans hbegins⟩

/-- Of two beginnings of one sequence, the longer one is shared. -/
theorem exists_shares_unfinished :
    (∃ q, a.Shares b (.unfinished q) ∧ q <+: s) ↔ a.Opens s ∧ b.Opens s := by
  constructor
  · rintro ⟨q, hshares, hbegins⟩
    obtain ⟨-, hopena, hopenb⟩ := shares_unfinished.1 hshares
    exact ⟨hopena.trans hbegins, hopenb.trans hbegins⟩
  · rintro ⟨⟨p, hp, hps⟩, ⟨q, hq, hqs⟩⟩
    rcases List.prefix_or_prefix_of_prefix hps hqs with hpq | hqp
    · exact ⟨q, Or.inl ⟨hq, p, hp, hpq⟩, hqs⟩
    · exact ⟨p, Or.inr ⟨hp, q, hq, hqp⟩, hps⟩

/-- A sequence that a shared member may turn out to be is one that both sets admit. -/
theorem exists_shares_allows :
    (∃ m, a.Shares b m ∧ m.Allows s) ↔ a.Admits s ∧ b.Admits s := by
  constructor
  · rintro ⟨m, hshares, hallows⟩
    cases m with
    | complete s' =>
      obtain rfl : s' = s := hallows
      exact (shares_complete.1 hshares).2
    | unfinished q =>
      obtain ⟨hopena, hopenb⟩ := exists_shares_unfinished.1 ⟨q, hshares, hallows⟩
      exact ⟨admits_iff.2 (Or.inr hopena), admits_iff.2 (Or.inr hopenb)⟩
  · rintro ⟨hadmita, hadmitb⟩
    by_cases hcomplete : s ∈ a.complete ∨ s ∈ b.complete
    · exact ⟨.complete s, shares_complete.2 ⟨hcomplete, hadmita, hadmitb⟩, rfl⟩
    · rw [not_or] at hcomplete
      obtain ⟨q, hshares, hbegins⟩ := exists_shares_unfinished.2
        ⟨(admits_iff.1 hadmita).resolve_left hcomplete.1,
          (admits_iff.1 hadmitb).resolve_left hcomplete.2⟩
      exact ⟨.unfinished q, hshares, hbegins⟩

@[simp] theorem depth_intersection : (a.intersection b).depth = max a.depth b.depth :=
  depth_ofMembers _ _ _

theorem intersection_comm (a b : LookaheadSet) : a.intersection b = b.intersection a := by
  apply ext
  · simp [Nat.max_comm]
  · intro m
    simp only [mem_intersection, shares_comm (a := a), Nat.max_comm]

theorem isDisjoint_eq_isEmpty (a b : LookaheadSet) :
    a.isDisjoint b = (a.intersection b).isEmpty :=
  Bool.eq_iff_iff.2 (isDisjoint_iff.trans isEmpty_intersection.symm)

section Proper

variable (ha : a.Proper) (hb : b.Proper) (hdepth : a.depth = b.depth)
include ha hb hdepth

theorem Proper.wellFormed_intersection (hm : m ∈ a.intersection b) : m.WellFormed a.depth := by
  have hmax : (a.intersection b).depth = a.depth := by simp [hdepth]
  have hfull := Full.intersection (fun m hm => (ha m hm).full) (fun m hm => (hb m hm).full) hdepth
  rw [Member.wellFormed_iff, ← hmax]
  exact ⟨normal_intersection m hm, hfull m hm⟩

theorem Proper.admits_intersection (hs : (Member.complete s).WellFormed a.depth) :
    (a.intersection b).Admits s ↔ a.Admits s ∧ b.Admits s := by
  have hproper : ∀ n, a.Shares b n → n.Proper a.depth := fun n hn =>
    hn.mem.elim (ha n) fun h => hdepth ▸ hb n h
  rw [← exists_shares_allows]
  constructor
  · rintro ⟨m, hm, hallows⟩
    obtain ⟨n, hn, rfl⟩ := mem_intersection.1 hm
    rw [← hdepth, Nat.max_self, (hproper n hn).allows_clip hs] at hallows
    exact ⟨n, hn, hallows⟩
  · rintro ⟨n, hn, hallows⟩
    refine ⟨_, mem_intersection.2 ⟨n, hn, rfl⟩, ?_⟩
    rwa [← hdepth, Nat.max_self, (hproper n hn).allows_clip hs]

theorem Proper.meaning_intersection :
    (a.intersection b).meaning = a.meaning ∩ b.meaning := by
  have hmax : (a.intersection b).depth = a.depth := by simp [hdepth]
  have hinter : (a.intersection b).Proper := fun m hm =>
    hmax ▸ (ha.wellFormed_intersection hb hdepth hm).proper
  ext s
  rw [Set.mem_inter_iff, hinter.mem_meaning, ha.mem_meaning, hb.mem_meaning, hmax, ← hdepth]
  constructor
  · rintro ⟨hwf, hadmits⟩
    obtain ⟨hadmita, hadmitb⟩ := (ha.admits_intersection hb hdepth hwf).1 hadmits
    exact ⟨⟨hwf, hadmita⟩, hwf, hadmitb⟩
  · rintro ⟨⟨hwf, hadmita⟩, -, hadmitb⟩
    exact ⟨hwf, (ha.admits_intersection hb hdepth hwf).2 ⟨hadmita, hadmitb⟩⟩

theorem Proper.isDisjoint_iff_meaning :
    a.isDisjoint b = true ↔ Disjoint a.meaning b.meaning := by
  rw [isDisjoint_iff, Set.disjoint_left]
  constructor
  · intro hnone s hsa hsb
    rw [ha.mem_meaning] at hsa
    rw [hb.mem_meaning] at hsb
    obtain ⟨n, hn, -⟩ := exists_shares_allows.2 ⟨hsa.2, hsb.2⟩
    exact hnone n hn
  · intro hdisjoint n hn
    have hproper : n.Proper a.depth := hn.mem.elim (ha n) fun h => hdepth ▸ hb n h
    obtain ⟨s, hwf, hallows⟩ := hproper.exists_allowed
    obtain ⟨hadmita, hadmitb⟩ := exists_shares_allows.1 ⟨n, hn, hallows⟩
    apply hdisjoint (ha.mem_meaning.2 ⟨hwf, hadmita⟩)
    exact hb.mem_meaning.2 ⟨hdepth ▸ hwf, hadmitb⟩

end Proper

section Normal

variable (ha : a.Normal) (hb : b.Normal) (hdepth : a.depth = b.depth)
include ha hb hdepth

theorem Normal.mem_intersection : m ∈ a.intersection b ↔ a.Shares b m := by
  have hclip : ∀ n, a.Shares b n → n.clip a.depth = n := fun n hn =>
    hn.mem.elim (fun h => (ha n h).clip_eq) fun h => hdepth ▸ (hb n h).clip_eq
  rw [LookaheadSet.mem_intersection, ← hdepth, Nat.max_self, Member.exists_clip_iff hclip,
    exists_eq_right']

theorem Normal.admits_intersection : (a.intersection b).Admits s ↔ a.Admits s ∧ b.Admits s := by
  rw [← exists_shares_allows]
  simp only [Admits, ha.mem_intersection hb hdepth]

theorem Normal.opens_intersection : (a.intersection b).Opens s ↔ a.Opens s ∧ b.Opens s := by
  rw [← exists_shares_unfinished]
  simp only [Opens, ← mem_unfinished, ha.mem_intersection hb hdepth]

theorem Normal.intersection_assoc (hc : c.Normal) (hdepth' : b.depth = c.depth) :
    (a.intersection b).intersection c = a.intersection (b.intersection c) := by
  have hleft : (a.intersection b).depth = c.depth := by simp [hdepth, hdepth']
  have hright : a.depth = (b.intersection c).depth := by simp [hdepth, hdepth']
  apply ext
  · simp [Nat.max_assoc]
  · intro m
    rw [normal_intersection.mem_intersection hc hleft,
      ha.mem_intersection normal_intersection hright]
    cases m with
    | complete s =>
      simp only [shares_complete, ← mem_complete, ha.mem_intersection hb hdepth,
        hb.mem_intersection hc hdepth', ha.admits_intersection hb hdepth,
        hb.admits_intersection hc hdepth']
      tauto
    | unfinished q =>
      simp only [shares_unfinished, ← mem_unfinished, ha.mem_intersection hb hdepth,
        hb.mem_intersection hc hdepth', ha.opens_intersection hb hdepth,
        hb.opens_intersection hc hdepth']
      tauto

end Normal

theorem Normal.intersection_self (ha : a.Normal) : a.intersection a = a := by
  apply ext
  · simp
  · intro m
    rw [ha.mem_intersection ha rfl]
    constructor
    · exact fun hm => hm.mem.elim id id
    · intro hm
      cases m with
      | complete s => exact Or.inl ⟨hm, hm⟩
      | unfinished p => exact Or.inl ⟨hm, p, hm, List.prefix_rfl⟩

/-- The intersection of proper sets of one depth stands for exactly what both stand for, and they
are told apart exactly when that is nothing. Sets of any depths are told apart exactly when their
intersection is empty, whichever comes first; for sets of one depth that operations build,
intersections may be grouped at will and a set meets itself in itself. -/
theorem intersection_exact :
    (∀ a b : LookaheadSet, a.Proper → b.Proper → a.depth = b.depth →
      (a.intersection b).depth = a.depth ∧
      (∀ m ∈ a.intersection b, m.WellFormed a.depth) ∧
      (a.intersection b).meaning = a.meaning ∩ b.meaning ∧
      (a.isDisjoint b = true ↔ Disjoint a.meaning b.meaning)) ∧
    (∀ a b : LookaheadSet, a.isDisjoint b = (a.intersection b).isEmpty ∧
      a.intersection b = b.intersection a) ∧
    (∀ a b c, Built a → Built b → Built c → a.depth = b.depth → b.depth = c.depth →
      (a.intersection b).intersection c = a.intersection (b.intersection c)) ∧
    ∀ a, Built a → a.intersection a = a := by
  refine ⟨fun a b ha hb hdepth => ?_, fun a b => ?_, fun a b c ha hb hc hab hbc => ?_,
    fun a ha => ?_⟩
  · exact ⟨by simp [hdepth], fun m hm => ha.wellFormed_intersection hb hdepth hm,
      ha.meaning_intersection hb hdepth, ha.isDisjoint_iff_meaning hb hdepth⟩
  · exact ⟨isDisjoint_eq_isEmpty a b, intersection_comm a b⟩
  · exact ha.normal.intersection_assoc hb.normal hab hc.normal hbc
  · exact ha.normal.intersection_self

theorem proper_of_built (ha : Built a) (hfull : a.Full) : a.Proper := fun m hm =>
  (Member.wellFormed_iff.2 ⟨ha.normal m hm, hfull m hm⟩).proper

/-- The item may go on with the end of input, and has that in common with a sequence that does. -/
theorem openItem_intersection :
    openItem.Proper ∧ (singleton 2 [⟨1⟩, .eof]).Proper ∧
      openItem.depth = (singleton 2 [⟨1⟩, .eof]).depth ∧
      (openItem.intersection (singleton 2 [⟨1⟩, .eof])).meaning =
        openItem.meaning ∩ (singleton 2 [⟨1⟩, .eof]).meaning ∧
      ¬ Disjoint openItem.meaning (singleton 2 [⟨1⟩, .eof]).meaning ∧
      (openItem.intersection (singleton 2 [⟨1⟩, .eof])).intersection openItem =
        openItem.intersection ((singleton 2 [⟨1⟩, .eof]).intersection openItem) ∧
      openItem.intersection openItem = openItem := by
  obtain ⟨hexact, -, hassoc, hself⟩ := intersection_exact
  have hitem := proper_of_built built_openItem full_openItem
  have hend : (singleton 2 [⟨1⟩, .eof]).Proper := by
    apply proper_of_built (.singleton _ _)
    intro m hm
    rw [mem_singleton] at hm
    rw [hm]
    exact TokenSeq.full_clip (Or.inr (by simp))
  obtain ⟨-, -, hmeaning, hdisjoint⟩ := hexact _ _ hitem hend rfl
  refine ⟨hitem, hend, rfl, hmeaning, fun h => ?_,
    hassoc _ _ _ built_openItem (.singleton _ _) built_openItem rfl rfl, hself _ built_openItem⟩
  exact absurd (hdisjoint.2 h) (by decide)

end LookaheadSet

end GrammarLookahead
