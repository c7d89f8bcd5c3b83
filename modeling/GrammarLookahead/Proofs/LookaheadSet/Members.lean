import GrammarLookahead.LookaheadSet.Basic

/-!
Lookahead sets through their members. A member is a complete or an unfinished sequence; the
operations on sets are described by the members of their results, and a set lies below another one
if it looks equally far ahead and has no further members. Every operation respects this order.
-/

namespace GrammarLookahead

/-- A member of a lookahead set. -/
inductive Member where
  | complete (s : TokenSeq)
  | unfinished (p : TokenSeq)
  deriving DecidableEq

namespace TokenSeq

theorem cutAtEof_of_not_mem_dropLast {s : TokenSeq} (h : TokenId.eof ∉ s.dropLast) :
    cutAtEof s = s := by
  induction s with
  | nil => rfl
  | cons t s ih =>
    cases s with
    | nil => by_cases ht : t.isEof <;> simp [cutAtEof, ht]
    | cons u s =>
      rw [List.dropLast_cons_cons, List.mem_cons, not_or] at h
      have ht : t.isEof = false := by simpa [TokenId.isEof] using Ne.symm h.1
      unfold cutAtEof
      rw [ih h.2]
      simp [ht]

theorem clip_of_le {depth : Nat} {s : TokenSeq} (h : TokenId.eof ∉ s.dropLast)
    (hs : s.length ≤ depth) : clip depth s = s := by
  unfold clip
  rw [cutAtEof_of_not_mem_dropLast h, List.take_of_length_le hs]

theorem cutAtEof_append {s : TokenSeq} (h : TokenId.eof ∉ s) (r : TokenSeq) :
    cutAtEof (s ++ r) = s ++ cutAtEof r := by
  induction s with
  | nil => rfl
  | cons t s ih =>
    rw [List.mem_cons, not_or] at h
    have ht : t.isEof = false := by simpa [TokenId.isEof] using Ne.symm h.1
    simp [cutAtEof, ht, ih h.2]

theorem cutAtEof_append_of_mem {s : TokenSeq} (h : TokenId.eof ∈ s) (r : TokenSeq) :
    cutAtEof (s ++ r) = cutAtEof s := by
  induction s with
  | nil => simp at h
  | cons t s ih =>
    by_cases ht : t.isEof
    · simp [cutAtEof, ht]
    · have hs : TokenId.eof ∈ s := by
        rcases List.mem_cons.1 h with h | h
        · exact absurd (by simp [TokenId.isEof, h]) ht
        · exact h
      simp [cutAtEof, ht, ih hs]

/-- Behind a sequence without end of input, clipping goes on with what is left of the depth. -/
theorem clip_append {depth : Nat} {s : TokenSeq} (h : TokenId.eof ∉ s) (hs : s.length ≤ depth)
    (r : TokenSeq) : clip depth (s ++ r) = s ++ clip (depth - s.length) r := by
  rw [clip, clip, cutAtEof_append h, List.take_append, List.take_of_length_le hs]

/-- A sequence that fills the depth or reaches the end of input hides what follows it. -/
theorem clip_append_of_full {depth : Nat} {s : TokenSeq}
    (h : depth ≤ s.length ∨ TokenId.eof ∈ s) (r : TokenSeq) :
    clip depth (s ++ r) = clip depth s := by
  by_cases he : TokenId.eof ∈ s
  · rw [clip, clip, cutAtEof_append_of_mem he]
  · have hs : depth ≤ s.length := h.resolve_right he
    have hcut : cutAtEof s = s := by simpa [cutAtEof] using cutAtEof_append he []
    rw [clip, clip, cutAtEof_append he, hcut, List.take_append_of_le_length hs]

end TokenSeq

namespace Member

/-- The tokens of a member. -/
def tokens : Member → TokenSeq
  | complete s => s
  | unfinished p => p

/-- The form in which a set of a depth keeps a member. -/
def clip (depth : Nat) : Member → Member
  | complete s => complete (TokenSeq.clip depth s)
  | unfinished p =>
    if depth ≤ p.length ∨ TokenId.eof ∈ p then complete (TokenSeq.clip depth p) else unfinished p

/-- A member with further tokens in front. -/
def prepend (u : TokenSeq) : Member → Member
  | complete s => complete (u ++ s)
  | unfinished p => unfinished (u ++ p)

/-- A complete member fills the depth or ends at the end of input, an unfinished one does neither,
and nothing stands behind the end of input. -/
def WellFormed (depth : Nat) : Member → Prop
  | complete s =>
    s.length ≤ depth ∧ TokenId.eof ∉ s.dropLast ∧
      (s.length = depth ∨ s.getLast? = some TokenId.eof)
  | unfinished p => p.length < depth ∧ TokenId.eof ∉ p

/-- A member as a set of a depth keeps it: a complete member is no longer than the depth and has
nothing behind the end of input, an unfinished one is shorter and does not reach the end of input. -/
def Normal (depth : Nat) : Member → Prop
  | complete s => s.length ≤ depth ∧ TokenId.eof ∉ s.dropLast
  | unfinished p => p.length < depth ∧ TokenId.eof ∉ p

@[simp] theorem prepend_nil (m : Member) : m.prepend [] = m := by cases m <;> rfl

theorem prepend_append (u v : TokenSeq) (m : Member) :
    m.prepend (u ++ v) = (m.prepend v).prepend u := by
  cases m <;> simp [prepend]

theorem Normal.clip_eq {depth : Nat} {m : Member} (h : m.Normal depth) : m.clip depth = m := by
  cases m with
  | complete s => exact congrArg complete (TokenSeq.clip_of_le h.2 h.1)
  | unfinished p => exact if_neg (not_or.2 ⟨Nat.not_le.2 h.1, h.2⟩)

theorem WellFormed.normal {depth : Nat} {m : Member} (h : m.WellFormed depth) :
    m.Normal depth := by
  cases m with
  | complete s => exact ⟨h.1, h.2.1⟩
  | unfinished p => exact h

/-- A well-formed member is kept as it is. -/
theorem WellFormed.clip_eq {depth : Nat} {m : Member} (h : m.WellFormed depth) :
    m.clip depth = m :=
  h.normal.clip_eq

/-- Tokens in front of a well-formed member give a well-formed member of a deeper set. -/
theorem WellFormed.prepend {depth : Nat} {m : Member} {u : TokenSeq}
    (h : m.WellFormed depth) (hu : TokenId.eof ∉ u) (hd : 0 < depth) :
    (m.prepend u).WellFormed (u.length + depth) := by
  cases m with
  | complete s =>
    obtain ⟨hs, he, hf⟩ := h
    have hne : s ≠ [] := by
      rintro rfl
      rcases hf with hf | hf
      · exact absurd hf (Nat.ne_of_lt hd)
      · simp at hf
    refine ⟨by simpa using hs, ?_, ?_⟩
    · rw [List.dropLast_append_of_ne_nil hne, List.mem_append, not_or]
      exact ⟨hu, he⟩
    · rcases hf with hf | hf
      · exact Or.inl (by simp [hf])
      · exact Or.inr (by simp [List.getLast?_append, hf])
  | unfinished p =>
    refine ⟨?_, ?_⟩
    · simpa using h.1
    · rw [List.mem_append, not_or]
      exact ⟨hu, h.2⟩

/-- Clipping behind tokens in front goes on with what is left of the depth. -/
theorem clip_prepend {depth : Nat} {u : TokenSeq} (hu : TokenId.eof ∉ u) (hd : u.length ≤ depth)
    (m : Member) : (m.prepend u).clip depth = (m.clip (depth - u.length)).prepend u := by
  cases m with
  | complete s => exact congrArg complete (TokenSeq.clip_append hu hd s)
  | unfinished p =>
    have hiff : depth ≤ (u ++ p).length ∨ TokenId.eof ∈ u ++ p ↔
        depth - u.length ≤ p.length ∨ TokenId.eof ∈ p := by
      rw [List.length_append, List.mem_append, or_iff_right hu]
      exact or_congr_left (by omega)
    simp only [prepend, clip]
    by_cases h : depth - u.length ≤ p.length ∨ TokenId.eof ∈ p
    · rw [if_pos h, if_pos (hiff.2 h), TokenSeq.clip_append hu hd]
    · rw [if_neg h, if_neg (mt hiff.1 h)]

/-- Tokens that fill the depth or reach the end of input hide the member behind them. -/
theorem clip_prepend_of_full {depth : Nat} {u : TokenSeq}
    (h : depth ≤ u.length ∨ TokenId.eof ∈ u) (m : Member) :
    (m.prepend u).clip depth = complete (TokenSeq.clip depth u) := by
  cases m with
  | complete s => exact congrArg complete (TokenSeq.clip_append_of_full h s)
  | unfinished p =>
    have hfull : depth ≤ (u ++ p).length ∨ TokenId.eof ∈ u ++ p := by
      rw [List.length_append, List.mem_append]
      exact h.imp (by omega) Or.inl
    rw [prepend, clip, if_pos hfull, TokenSeq.clip_append_of_full h]

end Member

namespace LookaheadSet

instance : Membership Member LookaheadSet :=
  ⟨fun a m =>
    match m with
    | .complete s => s ∈ a.complete
    | .unfinished p => p ∈ a.unfinished⟩

variable {a b c : LookaheadSet} {m : Member} {depth : Nat}

@[simp] theorem mem_complete {s : TokenSeq} : Member.complete s ∈ a ↔ s ∈ a.complete := Iff.rfl

@[simp] theorem mem_unfinished {p : TokenSeq} : Member.unfinished p ∈ a ↔ p ∈ a.unfinished :=
  Iff.rfl

/-- A set lies below one that looks equally far ahead and has all of its members. -/
instance : LE LookaheadSet := ⟨fun a b => a.depth = b.depth ∧ ∀ m ∈ a, m ∈ b⟩

theorem le_refl (a : LookaheadSet) : a ≤ a := ⟨rfl, fun _ h => h⟩

theorem le_trans (h : a ≤ b) (k : b ≤ c) : a ≤ c :=
  ⟨h.1.trans k.1, fun m hm => k.2 m (h.2 m hm)⟩

theorem ext (hd : a.depth = b.depth) (h : ∀ m, m ∈ a ↔ m ∈ b) : a = b := by
  have hc : a.complete = b.complete := OrderedSet.ext fun s => h (.complete s)
  have hu : a.unfinished = b.unfinished := OrderedSet.ext fun p => h (.unfinished p)
  cases a
  cases b
  simp_all

theorem le_antisymm (h : a ≤ b) (k : b ≤ a) : a = b :=
  ext h.1 fun m => ⟨h.2 m, k.2 m⟩

@[simp] theorem depth_empty : (empty depth).depth = depth := rfl

@[simp] theorem not_mem_empty : ¬ m ∈ empty depth := by
  cases m <;> exact OrderedSet.not_mem_empty

theorem empty_le (h : a.depth = depth) : empty depth ≤ a :=
  ⟨h.symm, fun _ hm => absurd hm not_mem_empty⟩

theorem not_mem_of_isEmpty (h : a.isEmpty) : ¬ m ∈ a := by
  rw [isEmpty, Bool.and_eq_true] at h
  have hnil : ∀ {s : OrderedSet TokenSeq} {x}, s.isEmpty → ¬ x ∈ s := by
    intro s x hs hx
    have : s.toList = [] := by simpa [OrderedSet.isEmpty] using hs
    exact absurd (this ▸ hx : x ∈ ([] : List TokenSeq)) List.not_mem_nil
  cases m with
  | complete s => exact hnil h.1
  | unfinished p => exact hnil h.2

theorem isEmpty_iff : a.isEmpty = true ↔ a = empty a.depth := by
  constructor
  · intro h
    refine ext rfl fun m => ?_
    exact iff_of_false (not_mem_of_isEmpty h) not_mem_empty
  · intro h
    rw [h]
    rfl

theorem mem_insert {s : TokenSeq} : m ∈ a.insert s ↔ m = (Member.complete s).clip a.depth ∨ m ∈ a := by
  cases m with
  | complete s' => simp [insert, Member.clip]
  | unfinished p => simp [insert, Member.clip]

theorem any_isEof {s : TokenSeq} : s.any TokenId.isEof = true ↔ TokenId.eof ∈ s := by
  simp [TokenId.isEof, List.any_eq_true]

theorem mem_insertUnfinished {p : TokenSeq} :
    m ∈ a.insertUnfinished p ↔ m = (Member.unfinished p).clip a.depth ∨ m ∈ a := by
  unfold insertUnfinished
  rw [Member.clip]
  by_cases h : a.depth ≤ p.length ∨ TokenId.eof ∈ p
  · have h' : a.depth ≤ p.length ∨ p.any TokenId.isEof = true := by rwa [any_isEof]
    rw [if_pos h, if_pos h', mem_insert, Member.clip]
  · have h' : ¬ (a.depth ≤ p.length ∨ p.any TokenId.isEof = true) := by rwa [any_isEof]
    rw [if_neg h, if_neg h']
    cases m <;> simp

theorem mem_ofMembers {cs us : List TokenSeq} :
    m ∈ ofMembers depth cs us ↔
      (∃ s ∈ cs, m = (Member.complete s).clip depth) ∨
        ∃ p ∈ us, m = (Member.unfinished p).clip depth := by
  induction us with
  | nil =>
    induction cs with
    | nil => simp [ofMembers]
    | cons s cs ih =>
      have hd : (ofMembers depth cs []).depth = depth := depth_ofMembers _ _ _
      have hstep : ofMembers depth (s :: cs) [] = (ofMembers depth cs []).insert s := rfl
      rw [hstep, mem_insert, hd, ih]
      simp
  | cons p us ih =>
    have hd : (ofMembers depth cs us).depth = depth := depth_ofMembers _ _ _
    have hstep : ofMembers depth cs (p :: us) = (ofMembers depth cs us).insertUnfinished p := rfl
    rw [hstep, mem_insertUnfinished, hd, ih]
    simp only [List.mem_cons, exists_eq_or_imp]
    exact or_left_comm

/-- The members of a set, each with tokens in front, in a set of any depth. -/
theorem mem_ofMembers_prepend {u : TokenSeq} :
    m ∈ ofMembers depth (a.complete.toList.map (u ++ ·)) (a.unfinished.toList.map (u ++ ·)) ↔
      ∃ n ∈ a, m = (n.prepend u).clip depth := by
  rw [mem_ofMembers]
  constructor
  · rintro (⟨s, hs, rfl⟩ | ⟨p, hp, rfl⟩)
    · obtain ⟨s', hs', rfl⟩ := List.mem_map.1 hs
      exact ⟨.complete s', hs', rfl⟩
    · obtain ⟨p', hp', rfl⟩ := List.mem_map.1 hp
      exact ⟨.unfinished p', hp', rfl⟩
  · rintro ⟨n, hn, rfl⟩
    cases n with
    | complete s => exact Or.inl ⟨u ++ s, List.mem_map.2 ⟨s, hn, rfl⟩, rfl⟩
    | unfinished p => exact Or.inr ⟨u ++ p, List.mem_map.2 ⟨p, hn, rfl⟩, rfl⟩

@[simp] theorem depth_singleton {s : TokenSeq} : (singleton depth s).depth = depth := rfl

theorem mem_singleton {s : TokenSeq} :
    m ∈ singleton depth s ↔ m = (Member.complete s).clip depth := by
  simp [singleton, mem_insert]

@[simp] theorem depth_epsilon : (epsilon depth).depth = depth := depth_insertUnfinished _ _

theorem mem_epsilon : m ∈ epsilon depth ↔ m = (Member.unfinished []).clip depth := by
  simp [epsilon, mem_insertUnfinished]

@[simp] theorem depth_addMembers : (a.addMembers b).depth = a.depth := rfl

@[simp] theorem mem_addMembers : m ∈ a.addMembers b ↔ m ∈ a ∨ m ∈ b := by
  cases m <;> simp [addMembers]

theorem union_of_depth_eq (h : b.depth = a.depth) : a.union b = .ok (a.addMembers b) := by
  simp [union, absorb, h]

theorem addMembers_mono {a' b' : LookaheadSet} (ha : a ≤ a') (hb : ∀ m ∈ b, m ∈ b') :
    a.addMembers b ≤ a'.addMembers b' := by
  refine ⟨ha.1, fun m hm => ?_⟩
  rw [mem_addMembers] at hm ⊢
  exact hm.imp (ha.2 m) (hb m)

/-- The members of several sets at a depth. -/
def joinSets (start : LookaheadSet) (parts : List LookaheadSet) : LookaheadSet :=
  parts.foldl addMembers start

@[simp] theorem depth_joinSets {parts : List LookaheadSet} :
    (joinSets a parts).depth = a.depth := by
  induction parts generalizing a with
  | nil => rfl
  | cons b parts ih => exact ih

@[simp] theorem mem_joinSets {parts : List LookaheadSet} :
    m ∈ joinSets a parts ↔ m ∈ a ∨ ∃ b ∈ parts, m ∈ b := by
  induction parts generalizing a with
  | nil => simp [joinSets]
  | cons b parts ih =>
    have hstep : joinSets a (b :: parts) = joinSets (a.addMembers b) parts := rfl
    rw [hstep, ih, mem_addMembers]
    simp [or_assoc]

@[simp] theorem depth_prepend {t : TokenId} : (a.prepend t).depth = a.depth + 1 := by
  unfold prepend
  split
  · rfl
  · exact depth_ofMembers _ _ _

theorem mem_prepend {t : TokenId} (ht : t.isEof = false) :
    m ∈ a.prepend t ↔ ∃ n ∈ a, m = (n.prepend [t]).clip (a.depth + 1) := by
  unfold prepend
  rw [if_neg (by simp [ht])]
  exact mem_ofMembers_prepend (u := [t])

theorem prepend_eof {t : TokenId} (ht : t.isEof) : a.prepend t = singleton (a.depth + 1) [t] :=
  if_pos ht

theorem prepend_mono {t : TokenId} (h : a ≤ b) : a.prepend t ≤ b.prepend t := by
  refine ⟨by simp [h.1], fun m hm => ?_⟩
  by_cases ht : t.isEof
  · rw [prepend_eof ht] at hm ⊢
    rwa [← h.1]
  · have ht : t.isEof = false := by simpa using ht
    rw [mem_prepend ht] at hm ⊢
    obtain ⟨n, hn, rfl⟩ := hm
    exact ⟨n, h.2 n hn, by rw [h.1]⟩

@[simp] theorem mem_missingDepths {r : Nat} :
    r ∈ a.missingDepths ↔ ∃ p, Member.unfinished p ∈ a ∧ a.missing p = r := by
  simp [missingDepths]

theorem mem_continuations {p : TokenSeq} {tail : LookaheadSet} :
    m ∈ continuations depth p (some tail) ↔ ∃ n ∈ tail, m = (n.prepend p).clip depth :=
  mem_ofMembers_prepend

theorem mem_foldr_addMembers {ι : Type} {f : ι → LookaheadSet} {xs : List ι} :
    m ∈ xs.foldr (fun x r => (f x).addMembers r) a ↔ (∃ x ∈ xs, m ∈ f x) ∨ m ∈ a := by
  induction xs with
  | nil => simp
  | cons x xs ih => simp [ih, or_assoc]

@[simp] theorem depth_splice {tails : Nat → Option LookaheadSet} :
    (a.splice tails).depth = a.depth := by
  have hcont : ∀ (p : TokenSeq) (t : Option LookaheadSet),
      (continuations a.depth p t).depth = a.depth := by
    rintro p (_ | t)
    · rfl
    · exact depth_ofMembers _ _ _
  simp only [splice]
  cases a.unfinished.toList with
  | nil => rfl
  | cons p ps => exact hcont p _

/-- Unfinished members go on with the members of their tails; complete ones stay. -/
theorem mem_splice {tails : Nat → Option LookaheadSet} :
    m ∈ a.splice tails ↔
      (∃ s, Member.complete s ∈ a ∧ m = .complete s) ∨
        ∃ p, Member.unfinished p ∈ a ∧ m ∈ continuations a.depth p (tails (a.missing p)) := by
  have hfold : m ∈ a.unfinished.toList.foldr
      (fun p r => (continuations a.depth p (tails (a.missing p))).addMembers r) (empty a.depth) ↔
      ∃ p ∈ a.unfinished, m ∈ continuations a.depth p (tails (a.missing p)) := by
    rw [mem_foldr_addMembers]
    simp
  cases m with
  | complete s =>
    rw [mem_complete] at hfold
    simp only [splice, mem_complete, OrderedSet.mem_union, hfold]
    simp
  | unfinished p =>
    rw [mem_unfinished] at hfold
    simp only [splice, mem_unfinished, hfold]
    simp

/-- Splicing respects the order, as soon as every tail that is used respects it. -/
theorem splice_mono {tails tails' : Nat → Option LookaheadSet} (h : a ≤ b)
    (htails : ∀ r ∈ a.missingDepths, ∃ t t', tails r = some t ∧ tails' r = some t' ∧ t ≤ t') :
    a.splice tails ≤ b.splice tails' := by
  refine ⟨by simp [h.1], fun m hm => ?_⟩
  rw [mem_splice] at hm ⊢
  rcases hm with ⟨s, hs, rfl⟩ | ⟨p, hp, hm⟩
  · exact Or.inl ⟨s, h.2 _ hs, rfl⟩
  · obtain ⟨t, t', ht, ht', hle⟩ := htails (a.missing p) (mem_missingDepths.2 ⟨p, hp, rfl⟩)
    rw [ht, mem_continuations] at hm
    obtain ⟨n, hn, rfl⟩ := hm
    have hmiss : b.missing p = a.missing p := by simp [missing, h.1]
    refine Or.inr ⟨p, h.2 _ hp, ?_⟩
    rw [hmiss, ht', mem_continuations, ← h.1]
    exact ⟨n, hle.2 n hn, rfl⟩

end LookaheadSet

end GrammarLookahead
