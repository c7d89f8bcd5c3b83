import GrammarLookahead.Proofs.LookaheadSet.Overlap

/-!
How lookahead sets come about. Whatever operations build a set, its members are as its depth
allows, and the order and repetition of insertions leave no trace. Operands whose complete members
fill their depth or end at the end of input give such results. Main statement:
`LookaheadSet.members_of_built`.
-/

namespace GrammarLookahead

theorem TokenId.isEof_iff {t : TokenId} : t.isEof = true ↔ TokenId.eof = t := by
  simp [isEof, eq_comm]

namespace TokenSeq

/-- A sequence fills a depth or ends at the end of input. -/
def Full (depth : Nat) (s : TokenSeq) : Prop := s.length = depth ∨ s.getLast? = some TokenId.eof

variable {depth deeper : Nat} {s u : TokenSeq}

@[simp] theorem clip_nil : clip depth [] = [] := by simp [clip, cutAtEof]

@[simp] theorem clip_zero : clip 0 s = [] := by simp [clip]

theorem clip_cons {t : TokenId} :
    clip (depth + 1) (t :: s) = if t.isEof then [t] else t :: clip depth s := by
  rw [clip, cutAtEof]
  split <;> simp [clip]

theorem eof_not_mem_token {t : TokenId} (ht : t.isEof = false) : TokenId.eof ∉ [t] := by
  rw [List.mem_singleton, ← TokenId.isEof_iff, ht]
  exact Bool.false_ne_true

theorem length_clip_le : (clip depth s).length ≤ depth := by
  unfold clip
  simp only [List.length_take]
  omega

/-- Nothing stands behind the end of input in a clipped sequence. -/
theorem not_mem_dropLast_clip : TokenId.eof ∉ (clip depth s).dropLast := by
  induction s generalizing depth with
  | nil => simp
  | cons t s ih =>
    cases depth with
    | zero => simp
    | succ depth =>
      rw [clip_cons]
      by_cases ht : t.isEof
      · simp [ht]
      · by_cases hnil : clip depth s = []
        · simp [ht, hnil]
        · have hne : TokenId.eof ≠ t := mt TokenId.isEof_iff.2 ht
          simp [ht, List.dropLast_cons_of_ne_nil hnil, hne, ih]

/-- Clipping keeps all that a smaller depth sees. -/
theorem clip_clip (h : depth ≤ deeper) : clip depth (clip deeper s) = clip depth s := by
  have hcut : cutAtEof (clip deeper s) = clip deeper s :=
    cutAtEof_of_not_mem_dropLast not_mem_dropLast_clip
  unfold clip at hcut ⊢
  rw [hcut, List.take_take, Nat.min_eq_left h]

/-- A sequence that reaches the depth or holds the end of input is clipped to a full one. -/
theorem full_clip (h : depth ≤ s.length ∨ TokenId.eof ∈ s) : Full depth (clip depth s) := by
  induction s generalizing depth with
  | nil =>
    have hzero : depth = 0 := by simpa using h
    simp [Full, hzero]
  | cons t s ih =>
    cases depth with
    | zero => simp [Full]
    | succ depth =>
      rw [clip_cons]
      by_cases ht : t.isEof
      · simp [Full, ht, TokenId.isEof_iff.1 ht]
      · have hne : TokenId.eof ≠ t := mt TokenId.isEof_iff.2 ht
        have hrest : depth ≤ s.length ∨ TokenId.eof ∈ s := by simpa [hne] using h
        rcases ih hrest with hlength | hlast
        · simp [Full, ht, hlength]
        · simp [Full, ht, List.getLast?_cons, hlast]

theorem Full.append (h : Full depth s) : Full (u.length + depth) (u ++ s) := by
  rcases h with hlength | hlast
  · simp [Full, hlength]
  · simp [Full, hlast]

end TokenSeq

namespace Member

/-- A complete member fills the depth or ends at the end of input. -/
def Full (depth : Nat) : Member → Prop
  | complete s => TokenSeq.Full depth s
  | unfinished _ => True

variable {depth deeper : Nat} {m : Member} {u : TokenSeq}

theorem wellFormed_iff : m.WellFormed depth ↔ m.Normal depth ∧ m.Full depth := by
  cases m with
  | complete s => simp [WellFormed, Normal, Full, TokenSeq.Full, and_assoc]
  | unfinished p => simp [WellFormed, Normal, Full]

theorem normal_clip : (m.clip depth).Normal depth := by
  have hcomplete : ∀ s, (complete (TokenSeq.clip depth s)).Normal depth := fun _ =>
    ⟨TokenSeq.length_clip_le, TokenSeq.not_mem_dropLast_clip⟩
  cases m with
  | complete s => exact hcomplete s
  | unfinished p =>
    by_cases hfull : depth ≤ p.length ∨ TokenId.eof ∈ p
    · rw [clip, if_pos hfull]
      exact hcomplete p
    · rw [clip, if_neg hfull]
      rwa [not_or, Nat.not_le] at hfull

/-- Clipping keeps all that a smaller depth sees. -/
theorem clip_clip (h : depth ≤ deeper) : (m.clip deeper).clip depth = m.clip depth := by
  cases m with
  | complete s => simp [clip, TokenSeq.clip_clip h]
  | unfinished p =>
    by_cases hfull : deeper ≤ p.length ∨ TokenId.eof ∈ p
    · have hclipped : depth ≤ p.length ∨ TokenId.eof ∈ p := hfull.imp_left (Nat.le_trans h)
      simp [clip, hfull, hclipped, TokenSeq.clip_clip h]
    · rw [clip, if_neg hfull]

/-- Where clipping changes nothing, it may be left out. -/
theorem exists_clip_iff {P : Member → Prop} {f : Member → Member}
    (h : ∀ n, P n → (f n).clip depth = f n) :
    (∃ n, P n ∧ m = (f n).clip depth) ↔ ∃ n, P n ∧ m = f n := by
  apply exists_congr
  intro n
  apply and_congr_right
  intro hn
  rw [h n hn]

theorem Full.clip (h : m.Full deeper) (hle : depth ≤ deeper) : (m.clip depth).Full depth := by
  cases m with
  | complete s =>
    apply TokenSeq.full_clip
    rcases h with hlength | hlast
    · exact Or.inl (by omega)
    · exact Or.inr (List.mem_of_getLast? hlast)
  | unfinished p =>
    by_cases hfull : depth ≤ p.length ∨ TokenId.eof ∈ p
    · rw [Member.clip, if_pos hfull]
      exact TokenSeq.full_clip hfull
    · rw [Member.clip, if_neg hfull]
      trivial

theorem Full.prepend (h : m.Full depth) : (m.prepend u).Full (u.length + depth) := by
  cases m with
  | complete s => exact TokenSeq.Full.append h
  | unfinished p => trivial

end Member

namespace LookaheadSet

variable {a b c : LookaheadSet} {m : Member} {depth : Nat}

/-- Every member is as the depth of the set allows. -/
def Normal (a : LookaheadSet) : Prop := ∀ m ∈ a, m.Normal a.depth

/-- Every complete member fills the depth of the set or ends at the end of input. -/
def Full (a : LookaheadSet) : Prop := ∀ m ∈ a, m.Full a.depth

theorem mem_ofMembers_toList :
    m ∈ ofMembers depth a.complete.toList a.unfinished.toList ↔ ∃ n ∈ a, m = n.clip depth := by
  simpa using mem_ofMembers_prepend (u := [])

@[simp] theorem depth_absorb : (a.absorb b).depth = a.depth := by
  unfold absorb
  split <;> rfl

theorem mem_absorb (hb : b.Normal) : m ∈ a.absorb b ↔ m ∈ a ∨ ∃ n ∈ b, m = n.clip a.depth := by
  unfold absorb
  split
  · rename_i hdepth
    have hclip : ∀ n ∈ b, n.clip a.depth = n := fun n hn => hdepth ▸ (hb n hn).clip_eq
    rw [mem_addMembers, Member.exists_clip_iff hclip, exists_eq_right']
  · rw [mem_addMembers, mem_ofMembers_toList]

theorem union_eq (h : a.depth ≤ b.depth) : a.union b = .ok (a.absorb b) := if_pos h

theorem eq_absorb_of_union (h : a.union b = .ok c) : a.depth ≤ b.depth ∧ c = a.absorb b := by
  unfold union at h
  split at h
  · cases h
    exact ⟨‹_›, rfl⟩
  · cases h

@[simp] theorem depth_truncate : (a.truncate depth).depth = min depth a.depth := depth_absorb

theorem mem_truncate (ha : a.Normal) :
    m ∈ a.truncate depth ↔ ∃ n ∈ a, m = n.clip (min depth a.depth) := by
  simp [truncate, mem_absorb ha]

theorem normal_of_clipped (h : ∀ m ∈ a, ∃ n : Member, m = n.clip a.depth) : a.Normal := by
  intro m hm
  obtain ⟨n, rfl⟩ := h m hm
  exact Member.normal_clip

theorem normal_ofMembers {cs us : List TokenSeq} : (ofMembers depth cs us).Normal := by
  apply normal_of_clipped
  intro m hm
  rw [depth_ofMembers]
  rcases mem_ofMembers.1 hm with ⟨s, -, rfl⟩ | ⟨p, -, rfl⟩ <;> exact ⟨_, rfl⟩

theorem normal_empty : (empty depth).Normal := fun _ hm => absurd hm not_mem_empty

theorem Normal.insert (ha : a.Normal) (s : TokenSeq) : (a.insert s).Normal := by
  intro m hm
  rcases mem_insert.1 hm with rfl | hm
  · exact Member.normal_clip
  · exact ha m hm

theorem Normal.insertUnfinished (ha : a.Normal) (p : TokenSeq) : (a.insertUnfinished p).Normal := by
  intro m hm
  rw [depth_insertUnfinished]
  rcases mem_insertUnfinished.1 hm with rfl | hm
  · exact Member.normal_clip
  · exact ha m hm

theorem Normal.absorb (ha : a.Normal) (hb : b.Normal) : (a.absorb b).Normal := by
  intro m hm
  rw [depth_absorb]
  rcases (mem_absorb hb).1 hm with hm | ⟨n, -, rfl⟩
  · exact ha m hm
  · exact Member.normal_clip

theorem normal_prepend {t : TokenId} : (a.prepend t).Normal := by
  unfold prepend
  split
  · exact normal_empty.insert _
  · exact normal_ofMembers

/-- Tails of any depth do, since what they add is clipped. -/
theorem Normal.splice (ha : a.Normal) (tails : Nat → Option LookaheadSet) :
    (a.splice tails).Normal := by
  intro m hm
  rw [depth_splice]
  rcases mem_splice.1 hm with ⟨s, hs, rfl⟩ | ⟨p, hp, hm⟩
  · exact ha _ hs
  · cases htail : tails (a.missing p) with
    | none =>
      have hkept : m = .unfinished p := by
        cases m <;> simp_all [continuations]
      exact hkept ▸ ha _ hp
    | some tail =>
      rw [htail, mem_continuations] at hm
      obtain ⟨n, -, rfl⟩ := hm
      exact Member.normal_clip

theorem normal_intersection : (a.intersection b).Normal := normal_ofMembers

theorem Normal.truncate (ha : a.Normal) (depth : Nat) : (a.truncate depth).Normal :=
  normal_empty.absorb ha

theorem Full.absorb (ha : a.Full) (hb : b.Full) (hle : a.depth ≤ b.depth) :
    (a.absorb b).Full := by
  intro m hm
  rw [depth_absorb]
  unfold LookaheadSet.absorb at hm
  split at hm
  · rename_i hdepth
    rcases mem_addMembers.1 hm with hm | hm
    · exact ha m hm
    · exact hdepth ▸ hb m hm
  · rw [mem_addMembers, mem_ofMembers_toList] at hm
    rcases hm with hm | ⟨n, hn, rfl⟩
    · exact ha m hm
    · exact (hb n hn).clip hle

theorem Full.prepend (ha : a.Full) (t : TokenId) : (a.prepend t).Full := by
  intro m hm
  rw [depth_prepend]
  by_cases ht : t.isEof
  · rw [prepend_eof ht, mem_singleton] at hm
    rw [hm]
    exact TokenSeq.full_clip (Or.inr (List.mem_singleton.2 (TokenId.isEof_iff.1 ht)))
  · have hdeep : a.depth + 1 ≤ [t].length + a.depth := Nat.le_of_eq (Nat.add_comm _ _)
    obtain ⟨n, hn, rfl⟩ := (mem_prepend (by simpa using ht)).1 hm
    exact (ha n hn).prepend.clip hdeep

theorem Full.splice {tails : Nat → Option LookaheadSet} (ha : a.Full)
    (htails : ∀ r tail, tails r = some tail → r ≤ tail.depth ∧ tail.Full) :
    (a.splice tails).Full := by
  intro m hm
  rw [depth_splice]
  rcases mem_splice.1 hm with ⟨s, hs, rfl⟩ | ⟨p, hp, hm⟩
  · exact ha _ hs
  · cases htail : tails (a.missing p) with
    | none =>
      cases m with
      | complete s => simp [htail, continuations] at hm
      | unfinished q => trivial
    | some tail =>
      obtain ⟨hdeep, hfull⟩ := htails _ tail htail
      rw [htail, mem_continuations] at hm
      obtain ⟨n, hn, rfl⟩ := hm
      apply (hfull n hn).prepend.clip
      unfold missing at hdeep
      omega

theorem Shares.mem (h : a.Shares b m) : m ∈ a ∨ m ∈ b := by
  cases m with
  | complete s => rcases h with h | h | h <;> simp [h.1]
  | unfinished p => rcases h with h | h <;> simp [h.1]

theorem Full.intersection (ha : a.Full) (hb : b.Full) (hdepth : a.depth = b.depth) :
    (a.intersection b).Full := by
  intro m hm
  obtain ⟨n, hn, rfl⟩ := mem_intersection.1 hm
  have hmax : (a.intersection b).depth = max a.depth b.depth := depth_ofMembers _ _ _
  have hfull : n.Full a.depth := hn.mem.elim (ha n) (fun h => hdepth ▸ hb n h)
  rw [hmax]
  exact hfull.clip (by omega)

theorem Full.truncate (ha : a.Full) (depth : Nat) : (a.truncate depth).Full := by
  have hempty : (empty (min depth a.depth)).Full := fun _ hm => absurd hm not_mem_empty
  exact hempty.absorb ha (Nat.min_le_right _ _)

/-- The sets that operations build, each from sets that were built before. -/
inductive Built : LookaheadSet → Prop where
  | empty (depth : Nat) : Built (empty depth)
  | epsilon (depth : Nat) : Built (epsilon depth)
  | singleton (depth : Nat) (s : TokenSeq) : Built (singleton depth s)
  | ofSequences (depth : Nat) (ss : List TokenSeq) : Built (ofSequences depth ss)
  | insert {a : LookaheadSet} (s : TokenSeq) : Built a → Built (a.insert s)
  | insertUnfinished {a : LookaheadSet} (p : TokenSeq) : Built a → Built (a.insertUnfinished p)
  | union {a b c : LookaheadSet} : Built a → Built b → a.union b = .ok c → Built c
  | prepend {a : LookaheadSet} (t : TokenId) : Built a → Built (a.prepend t)
  | splice {a : LookaheadSet} {tails : Nat → Option LookaheadSet} :
      Built a → (∀ r tail, tails r = some tail → Built tail) → Built (a.splice tails)
  | intersection {a b : LookaheadSet} : Built a → Built b → Built (a.intersection b)
  | truncate {a : LookaheadSet} (depth : Nat) : Built a → Built (a.truncate depth)

theorem Built.normal (h : Built a) : a.Normal := by
  induction h with
  | empty => exact normal_empty
  | epsilon => exact normal_empty.insertUnfinished []
  | singleton depth s => exact normal_empty.insert s
  | ofSequences => exact normal_ofMembers
  | insert s _ ih => exact ih.insert s
  | insertUnfinished p _ ih => exact ih.insertUnfinished p
  | union _ _ hunion iha ihb =>
    obtain ⟨-, rfl⟩ := eq_absorb_of_union hunion
    exact iha.absorb ihb
  | prepend => exact normal_prepend
  | splice _ _ iha => exact iha.splice _
  | intersection => exact normal_intersection
  | truncate depth _ ih => exact ih.truncate depth

/-- Adds a member, clipped to the depth. -/
def addMember (a : LookaheadSet) : Member → LookaheadSet
  | .complete s => a.insert s
  | .unfinished p => a.insertUnfinished p

@[simp] theorem depth_addMember : (a.addMember m).depth = a.depth := by
  cases m with
  | complete s => rfl
  | unfinished p => exact depth_insertUnfinished a p

theorem mem_addMember {n : Member} : m ∈ a.addMember n ↔ m = n.clip a.depth ∨ m ∈ a := by
  cases n with
  | complete s => exact mem_insert
  | unfinished p => exact mem_insertUnfinished

@[simp] theorem depth_foldl_addMember {ms : List Member} :
    (ms.foldl addMember a).depth = a.depth := by
  induction ms generalizing a with
  | nil => rfl
  | cons n ms ih => simp [ih]

theorem mem_foldl_addMember {ms : List Member} :
    m ∈ ms.foldl addMember a ↔ (∃ n ∈ ms, m = n.clip a.depth) ∨ m ∈ a := by
  induction ms generalizing a with
  | nil => simp
  | cons n ms ih =>
    simp only [List.foldl_cons, ih, depth_addMember, mem_addMember, List.mem_cons,
      exists_eq_or_imp]
    exact or_left_comm.trans or_assoc.symm

/-- Only the inserted members count, not their order or repetition. -/
theorem foldl_addMember_congr {ms ns : List Member} (h : ∀ m, m ∈ ms ↔ m ∈ ns) :
    ms.foldl addMember a = ns.foldl addMember a := by
  apply ext
  · simp
  · intro m
    simp [mem_foldl_addMember, h]

theorem ofSequences_eq_foldl {ss : List TokenSeq} :
    ofSequences depth ss = (ss.map Member.complete).foldl addMember (empty depth) := by
  apply ext
  · simp [ofSequences, depth_ofMembers]
  · intro m
    rw [ofSequences, mem_ofMembers, mem_foldl_addMember]
    simp only [List.not_mem_nil, false_and, exists_false, or_false, not_mem_empty, depth_empty]
    constructor
    · rintro ⟨s, hs, rfl⟩
      exact ⟨_, List.mem_map_of_mem hs, rfl⟩
    · rintro ⟨n, hn, rfl⟩
      obtain ⟨s, hs, rfl⟩ := List.mem_map.1 hn
      exact ⟨s, hs, rfl⟩

/-- Whatever operations build a set, starting from any depths and sequences, its members are as its
depth allows, each kind in ascending order. Inserted members may come in any order and any number of
times. Operations whose operands are full, and look far enough ahead, give full sets. -/
theorem members_of_built :
    (∀ a, Built a →
      (∀ s ∈ a.complete, s.length ≤ a.depth ∧ TokenId.eof ∉ s.dropLast) ∧
      (∀ p ∈ a.unfinished, p.length < a.depth ∧ TokenId.eof ∉ p) ∧
      a.complete.toList.Pairwise (· < ·) ∧ a.unfinished.toList.Pairwise (· < ·)) ∧
    (∀ a (ms ns : List Member), (∀ m, m ∈ ms ↔ m ∈ ns) →
      ms.foldl addMember a = ns.foldl addMember a) ∧
    (∀ depth (ss ss' : List TokenSeq), (∀ s, s ∈ ss ↔ s ∈ ss') →
      ofSequences depth ss = ofSequences depth ss') ∧
    (∀ a b : LookaheadSet, a.depth ≤ b.depth → a.Full → b.Full →
      ∃ c, a.union b = .ok c ∧ c.Full) ∧
    (∀ (a : LookaheadSet) t, a.Full → (a.prepend t).Full) ∧
    (∀ (a : LookaheadSet) depth, a.Full → (a.truncate depth).Full) ∧
    (∀ a b : LookaheadSet, a.depth = b.depth → a.Full → b.Full → (a.intersection b).Full) ∧
    (∀ (a : LookaheadSet) tails, a.Full →
      (∀ r tail, tails r = some tail → r ≤ tail.depth ∧ tail.Full) → (a.splice tails).Full) := by
  refine ⟨fun a ha => ?_, fun _ _ _ => foldl_addMember_congr, fun depth ss ss' h => ?_,
    fun a b hle ha hb => ⟨_, union_eq hle, ha.absorb hb hle⟩, fun _ t ha => ha.prepend t,
    fun _ depth ha => ha.truncate depth, fun _ _ hdepth ha hb => ha.intersection hb hdepth,
    fun _ _ ha => ha.splice⟩
  · exact ⟨fun s hs => ha.normal (.complete s) hs, fun p hp => ha.normal (.unfinished p) hp,
      a.complete.ascending, a.unfinished.ascending⟩
  · rw [ofSequences_eq_foldl, ofSequences_eq_foldl]
    apply foldl_addMember_congr
    simp [h]

/-- An item that may be missing, stop behind its first token, or be the last one. -/
def openItem : LookaheadSet := ((epsilon 2).insertUnfinished [⟨1⟩]).insert [⟨2⟩, .eof, ⟨3⟩]

theorem built_openItem : Built openItem := .insert _ (.insertUnfinished _ (.epsilon 2))

theorem full_openItem : openItem.Full := by
  intro m hm
  cases m with
  | complete s =>
    have hfull : ∀ s ∈ openItem.complete.toList, s.length = 2 ∨ s.getLast? = some TokenId.eof := by
      decide
    exact hfull s hm
  | unfinished p => trivial

/-- The item is continued with tails that look further ahead than they have to. -/
def continuedItem : LookaheadSet :=
  openItem.splice fun r => some (singleton (r + 1) [⟨4⟩, .eof, ⟨4⟩])

/-- What stands behind the end of input or beyond the depth is cut off. -/
theorem members_of_continuedItem :
    Built continuedItem ∧
      continuedItem.complete.toList = [[⟨1⟩, ⟨4⟩], [⟨2⟩, .eof], [⟨4⟩, .eof]] ∧
      (∀ s ∈ continuedItem.complete, s.length ≤ continuedItem.depth ∧ TokenId.eof ∉ s.dropLast) ∧
      [.unfinished [⟨1⟩], .complete [⟨2⟩], .unfinished [⟨1⟩]].foldl addMember continuedItem =
        [.complete [⟨2⟩], .unfinished [⟨1⟩]].foldl addMember continuedItem ∧
      openItem.Full ∧ continuedItem.Full := by
  obtain ⟨hmembers, hinsert, -, -, -, -, -, hsplice⟩ := members_of_built
  have hbuilt : Built continuedItem := .splice built_openItem fun r tail htail => by
    cases htail
    exact .singleton _ _
  refine ⟨hbuilt, by decide, (hmembers _ hbuilt).1, hinsert _ _ _ (by simp), full_openItem, ?_⟩
  apply hsplice _ _ full_openItem
  rintro r tail htail
  cases htail
  refine ⟨Nat.le_succ r, fun m hm => ?_⟩
  rw [mem_singleton] at hm
  rw [hm]
  exact TokenSeq.full_clip (Or.inr (by simp))

end LookaheadSet

end GrammarLookahead
