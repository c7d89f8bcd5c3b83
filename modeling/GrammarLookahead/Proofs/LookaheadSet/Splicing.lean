import GrammarLookahead.Proofs.LookaheadSet.Construction

/-!
Continuing what is unfinished. When every tail looks as far ahead as its unfinished sequence lacks
tokens, splicing puts the members of the tails behind the unfinished members and cuts nothing off.
It then behaves like putting one piece of input behind another. Main statement:
`LookaheadSet.splice_composes`.
-/

namespace GrammarLookahead

namespace LookaheadSet

/-- The tail for a number of missing tokens; without one, the rest is left open. -/
def tailAt (tails : Nat → Option LookaheadSet) (r : Nat) : LookaheadSet :=
  (tails r).getD (epsilon r)

/-- The union of the tails of two families, where both have one. -/
def joinTails (tails tails' : Nat → Option LookaheadSet) (r : Nat) : Option LookaheadSet :=
  (tails r).bind fun tail => (tails' r).bind fun tail' => (tail.union tail').toOption

end LookaheadSet

namespace Member

open LookaheadSet (tailAt)

variable {tails : Nat → Option LookaheadSet} {depth : Nat} {m n : Member} {u : TokenSeq}

/-- What a member of a set of a depth becomes: a complete one stays as it is, an unfinished one goes
on with a member of the tail for the tokens it lacks. -/
def Becomes (tails : Nat → Option LookaheadSet) (depth : Nat) : Member → Member → Prop
  | complete s, m => m = complete s
  | unfinished p, m => ∃ n ∈ tailAt tails (depth - p.length), m = n.prepend p

/-- Tokens in front stay in front. -/
theorem becomes_prepend :
    (m.prepend u).Becomes tails (u.length + depth) n ↔
      ∃ k, m.Becomes tails depth k ∧ n = k.prepend u := by
  cases m with
  | complete s => simp [Becomes, prepend]
  | unfinished p =>
    have hmissing : u.length + depth - (u ++ p).length = depth - p.length := by
      simp only [List.length_append]
      omega
    change (∃ k ∈ tailAt tails (u.length + depth - (u ++ p).length), n = k.prepend (u ++ p)) ↔
      ∃ k, (∃ j ∈ tailAt tails (depth - p.length), k = j.prepend p) ∧ n = k.prepend u
    simp only [hmissing, prepend_append]
    constructor
    · rintro ⟨k, hk, rfl⟩
      exact ⟨k.prepend p, ⟨k, hk, rfl⟩, rfl⟩
    · rintro ⟨_, ⟨k, hk, rfl⟩, rfl⟩
      exact ⟨k, hk, rfl⟩

end Member

namespace LookaheadSet

variable {a b c : LookaheadSet} {tails tails' : Nat → Option LookaheadSet} {m : Member}
  {p : TokenSeq} {depth r : Nat}

/-- The tails of a family that are there look as far ahead as they are asked to, with members as
their depth allows. -/
def Fitting (tails : Nat → Option LookaheadSet) : Prop :=
  ∀ r tail, tails r = some tail → tail.depth = r ∧ tail.Normal

/-- A family has a tail for every unfinished member of a set. -/
def Supplies (tails : Nat → Option LookaheadSet) (a : LookaheadSet) : Prop :=
  ∀ r ∈ a.missingDepths, (tails r).isSome

theorem normal_epsilon : (epsilon depth).Normal := normal_empty.insertUnfinished []

theorem mem_epsilon_of_pos (h : 0 < depth) : m ∈ epsilon depth ↔ m = .unfinished [] := by
  have hclip : (Member.unfinished []).clip depth = .unfinished [] :=
    Member.Normal.clip_eq ⟨h, List.not_mem_nil⟩
  rw [mem_epsilon, hclip]

theorem Fitting.tailAt (h : Fitting tails) (r : Nat) :
    (tailAt tails r).depth = r ∧ (tailAt tails r).Normal := by
  unfold LookaheadSet.tailAt
  cases htail : tails r with
  | none => exact ⟨depth_epsilon, normal_epsilon⟩
  | some tail => exact h r tail htail

theorem Supplies.eq_tailAt (h : Supplies tails a) (hr : r ∈ a.missingDepths) :
    tails r = some (tailAt tails r) := by
  obtain ⟨tail, htail⟩ := Option.isSome_iff_exists.1 (h r hr)
  simp [LookaheadSet.tailAt, htail]

theorem missing_mem (h : Member.unfinished p ∈ a) : a.missing p ∈ a.missingDepths :=
  mem_missingDepths.2 ⟨p, h, rfl⟩

/-- Only the tails for missing tokens count. -/
theorem splice_congr (h : ∀ r ∈ a.missingDepths, tails r = tails' r) :
    a.splice tails = a.splice tails' := by
  apply ext
  · simp
  · intro m
    rw [mem_splice, mem_splice]
    apply or_congr_right
    apply exists_congr
    intro p
    apply and_congr_right
    intro hp
    rw [h _ (missing_mem hp)]

/-- Nothing is cut off behind an unfinished member of a normal set. -/
theorem Normal.mem_continuations_tail (ha : a.Normal) (hp : Member.unfinished p ∈ a)
    (ht : Fitting tails) :
    m ∈ continuations a.depth p (tails (a.missing p)) ↔
      ∃ n ∈ tailAt tails (a.missing p), m = n.prepend p := by
  obtain ⟨hlength, heof⟩ : p.length < a.depth ∧ TokenId.eof ∉ p := ha _ hp
  cases htail : tails (a.missing p) with
  | none =>
    have hpos : 0 < a.missing p := by
      unfold missing
      omega
    simp only [tailAt, htail, Option.getD_none, mem_epsilon_of_pos hpos, exists_eq_left]
    cases m <;> simp [continuations, Member.prepend]
  | some tail =>
    obtain ⟨hdepth, hnormal⟩ := ht _ tail htail
    have hkept : ∀ n ∈ tail, (n.prepend p).clip a.depth = n.prepend p := by
      intro n hn
      have hmissing : tail.depth = a.depth - p.length := hdepth
      rw [Member.clip_prepend heof (Nat.le_of_lt hlength), ← hmissing, (hnormal n hn).clip_eq]
    simp only [tailAt, htail, Option.getD_some, mem_continuations]
    exact Member.exists_clip_iff hkept

/-- The members of a splice are what the members of the set become. -/
theorem Normal.mem_splice (ha : a.Normal) (ht : Fitting tails) :
    m ∈ a.splice tails ↔ ∃ n ∈ a, n.Becomes tails a.depth m := by
  rw [LookaheadSet.mem_splice]
  constructor
  · rintro (⟨s, hs, rfl⟩ | ⟨p, hp, hm⟩)
    · exact ⟨.complete s, hs, rfl⟩
    · exact ⟨.unfinished p, hp, (ha.mem_continuations_tail hp ht).1 hm⟩
  · rintro ⟨n, hn, hbecomes⟩
    cases n with
    | complete s => exact Or.inl ⟨s, hn, hbecomes⟩
    | unfinished p => exact Or.inr ⟨p, hn, (ha.mem_continuations_tail hn ht).2 hbecomes⟩

theorem Normal.mem_prepend (ha : a.Normal) {t : TokenId} (ht : t.isEof = false) :
    m ∈ a.prepend t ↔ ∃ n ∈ a, m = n.prepend [t] := by
  have htoken : TokenId.eof ∉ [t] := TokenSeq.eof_not_mem_token ht
  have hkept : ∀ n ∈ a, (n.prepend [t]).clip (a.depth + 1) = n.prepend [t] := by
    intro n hn
    rw [Member.clip_prepend htoken (by simp)]
    simp [(ha n hn).clip_eq]
  rw [LookaheadSet.mem_prepend ht]
  exact Member.exists_clip_iff hkept

theorem splice_of_closed (h : a.unfinished = ∅) : a.splice tails = a := by
  have hnone : ∀ p, ¬ Member.unfinished p ∈ a := fun p hp => by
    rw [mem_unfinished, h] at hp
    exact OrderedSet.not_mem_empty hp
  apply ext
  · simp
  · intro m
    rw [LookaheadSet.mem_splice]
    cases m with
    | complete s => simp [hnone]
    | unfinished p => simp [hnone]

/-- Leaving the rest open changes nothing. -/
theorem Normal.splice_epsilon (ha : a.Normal)
    (h : ∀ r ∈ a.missingDepths, tails r = some (epsilon r)) : a.splice tails = a := by
  have hopen : Fitting fun r => some (epsilon r) := by
    rintro r tail htail
    cases htail
    exact ⟨depth_epsilon, normal_epsilon⟩
  rw [splice_congr h]
  apply ext
  · simp
  · intro m
    rw [ha.mem_splice hopen]
    constructor
    · rintro ⟨n, hn, hbecomes⟩
      cases n with
      | complete s =>
        obtain rfl : m = .complete s := hbecomes
        exact hn
      | unfinished p =>
        obtain ⟨k, hk, rfl⟩ := hbecomes
        have hpos : 0 < a.depth - p.length := Nat.sub_pos_of_lt (ha _ hn).1
        obtain rfl := (mem_epsilon_of_pos hpos).1 hk
        simpa [Member.prepend] using hn
    · intro hm
      cases m with
      | complete s => exact ⟨.complete s, hm, rfl⟩
      | unfinished p =>
        have hpos : 0 < a.depth - p.length := Nat.sub_pos_of_lt (ha _ hm).1
        exact ⟨.unfinished p, hm, .unfinished [], (mem_epsilon_of_pos hpos).2 rfl,
          by simp [Member.prepend]⟩

theorem Fitting.map_splice (h : Fitting tails) (tails' : Nat → Option LookaheadSet) :
    Fitting fun r => (tails r).map (·.splice tails') := by
  intro r tail htail
  obtain ⟨tail, hsome, rfl⟩ := Option.map_eq_some_iff.1 htail
  obtain ⟨hdepth, hnormal⟩ := h r tail hsome
  exact ⟨depth_splice.trans hdepth, hnormal.splice tails'⟩

/-- What a member becomes under tails, and then under further tails, it becomes at once under the
tails that were continued first. -/
theorem Normal.becomes_trans (ha : a.Normal) (ht : Fitting tails) (hsupplies : Supplies tails a)
    (ht' : Fitting tails') {n : Member} (hn : n ∈ a) :
    (∃ k, n.Becomes tails a.depth k ∧ k.Becomes tails' a.depth m) ↔
      n.Becomes (fun r => (tails r).map (·.splice tails')) a.depth m := by
  cases n with
  | complete s =>
    constructor
    · rintro ⟨k, rfl, hm⟩
      exact hm
    · exact fun hm => ⟨_, rfl, hm⟩
  | unfinished p =>
    obtain ⟨hdepth, hnormal⟩ := ht.tailAt (a.missing p)
    have hlength : p.length + a.missing p = a.depth := Nat.add_sub_of_le (Nat.le_of_lt (ha _ hn).1)
    have hboth : tailAt (fun r => (tails r).map (·.splice tails')) (a.missing p) =
        (tailAt tails (a.missing p)).splice tails' := by
      change ((tails (a.missing p)).map (·.splice tails')).getD _ = _
      rw [hsupplies.eq_tailAt (missing_mem hn)]
      rfl
    change (∃ k, (∃ n ∈ tailAt tails (a.missing p), k = n.prepend p) ∧ _) ↔
      ∃ n ∈ tailAt _ (a.missing p), m = n.prepend p
    rw [hboth, ← hlength]
    constructor
    · rintro ⟨_, ⟨k, hk, rfl⟩, hm⟩
      obtain ⟨j, hj, rfl⟩ := Member.becomes_prepend.1 hm
      exact ⟨j, (hnormal.mem_splice ht').2 ⟨k, hk, hdepth.symm ▸ hj⟩, rfl⟩
    · rintro ⟨j, hj, rfl⟩
      obtain ⟨k, hk, hbecomes⟩ := (hnormal.mem_splice ht').1 hj
      exact ⟨_, ⟨k, hk, rfl⟩, Member.becomes_prepend.2 ⟨j, hdepth ▸ hbecomes, rfl⟩⟩

/-- Tails that go on with further tails may be continued first. -/
theorem Normal.splice_splice (ha : a.Normal) (ht : Fitting tails) (hsupplies : Supplies tails a)
    (ht' : Fitting tails') :
    (a.splice tails).splice tails' = a.splice fun r => (tails r).map (·.splice tails') := by
  apply ext
  · simp
  · intro m
    rw [(ha.splice tails).mem_splice ht', ha.mem_splice (ht.map_splice tails'), depth_splice]
    constructor
    · rintro ⟨k, hk, hm⟩
      obtain ⟨n, hn, hbecomes⟩ := (ha.mem_splice ht).1 hk
      exact ⟨n, hn, (ha.becomes_trans ht hsupplies ht' hn).1 ⟨k, hbecomes, hm⟩⟩
    · rintro ⟨n, hn, hm⟩
      obtain ⟨k, hbecomes, hm⟩ := (ha.becomes_trans ht hsupplies ht' hn).2 hm
      exact ⟨k, (ha.mem_splice ht).2 ⟨n, hn, hbecomes⟩, hm⟩

theorem Normal.prepend_splice (ha : a.Normal) (ht : Fitting tails) (t : TokenId) :
    (a.prepend t).splice tails = (a.splice tails).prepend t := by
  by_cases heof : t.isEof
  · -- Behind the end of input nothing is left to continue.
    rw [prepend_eof heof, prepend_eof heof, depth_splice]
    exact splice_of_closed rfl
  · have heof : t.isEof = false := by simpa using heof
    have hdepth : a.depth + 1 = [t].length + a.depth := Nat.add_comm _ _
    apply ext
    · simp
    · intro m
      rw [normal_prepend.mem_splice ht, (ha.splice tails).mem_prepend heof, depth_prepend, hdepth]
      constructor
      · rintro ⟨k, hk, hbecomes⟩
        obtain ⟨n, hn, rfl⟩ := (ha.mem_prepend heof).1 hk
        obtain ⟨j, hj, rfl⟩ := Member.becomes_prepend.1 hbecomes
        exact ⟨j, (ha.mem_splice ht).2 ⟨n, hn, hj⟩, rfl⟩
      · rintro ⟨j, hj, rfl⟩
        obtain ⟨n, hn, hbecomes⟩ := (ha.mem_splice ht).1 hj
        exact ⟨_, (ha.mem_prepend heof).2 ⟨n, hn, rfl⟩,
          Member.becomes_prepend.2 ⟨j, hbecomes, rfl⟩⟩

theorem Normal.addMembers (ha : a.Normal) (hb : b.Normal) (hdepth : a.depth = b.depth) :
    (a.addMembers b).Normal := by
  intro m hm
  rcases mem_addMembers.1 hm with hm | hm
  · exact ha m hm
  · exact hdepth ▸ hb m hm

theorem Normal.addMembers_splice (ha : a.Normal) (hb : b.Normal) (hdepth : a.depth = b.depth)
    (ht : Fitting tails) :
    (a.addMembers b).splice tails = (a.splice tails).addMembers (b.splice tails) := by
  apply ext
  · simp
  · intro m
    rw [(ha.addMembers hb hdepth).mem_splice ht, mem_addMembers, ha.mem_splice ht, hb.mem_splice ht,
      ← hdepth]
    simp only [mem_addMembers, or_and_right, exists_or, depth_addMembers]

theorem joinTails_eq (ht : Fitting tails) (ht' : Fitting tails') (h : Supplies tails a)
    (h' : Supplies tails' a) (hr : r ∈ a.missingDepths) :
    joinTails tails tails' r = some ((tailAt tails r).addMembers (tailAt tails' r)) := by
  have hdepth : (tailAt tails' r).depth = (tailAt tails r).depth :=
    (ht'.tailAt r).1.trans (ht.tailAt r).1.symm
  rw [joinTails, h.eq_tailAt hr, h'.eq_tailAt hr, Option.bind_some, Option.bind_some,
    union_of_depth_eq hdepth]
  rfl

/-- Tails may be joined before or after splicing. -/
theorem Normal.splice_joinTails (ha : a.Normal) (ht : Fitting tails) (ht' : Fitting tails')
    (h : Supplies tails a) (h' : Supplies tails' a) :
    a.splice (joinTails tails tails') = (a.splice tails).addMembers (a.splice tails') := by
  have hjoin : Fitting fun r =>
      some ((LookaheadSet.tailAt tails r).addMembers (LookaheadSet.tailAt tails' r)) := by
    rintro r tail htail
    cases htail
    exact ⟨(ht.tailAt r).1, (ht.tailAt r).2.addMembers (ht'.tailAt r).2
      ((ht.tailAt r).1.trans (ht'.tailAt r).1.symm)⟩
  rw [splice_congr fun r hr => joinTails_eq ht ht' h h' hr]
  apply ext
  · simp
  · intro m
    rw [mem_addMembers, ha.mem_splice hjoin, ha.mem_splice ht, ha.mem_splice ht', ← exists_or]
    apply exists_congr
    intro n
    rw [← and_or_left]
    apply and_congr_right
    intro _
    cases n with
    | complete s => simp [Member.Becomes]
    | unfinished p =>
      simp only [Member.Becomes, LookaheadSet.tailAt, Option.getD_some, mem_addMembers,
        or_and_right, exists_or]

/-- The tails of a family that are there were built by operations and look as far ahead as they are
asked to. -/
def BuiltTails (tails : Nat → Option LookaheadSet) : Prop :=
  ∀ r tail, tails r = some tail → tail.depth = r ∧ Built tail

theorem BuiltTails.fitting (h : BuiltTails tails) : Fitting tails := by
  intro r tail htail
  obtain ⟨hdepth, hbuilt⟩ := h r tail htail
  exact ⟨hdepth, hbuilt.normal⟩

theorem Normal.mem_splice_of_supplies (ha : a.Normal) (ht : Fitting tails)
    (hsupplies : Supplies tails a) :
    m ∈ a.splice tails ↔ (∃ s ∈ a.complete, m = .complete s) ∨
      ∃ p ∈ a.unfinished, ∃ tail, tails (a.missing p) = some tail ∧
        ∃ n ∈ tail, m = n.prepend p := by
  rw [ha.mem_splice ht]
  constructor
  · rintro ⟨n, hn, hbecomes⟩
    cases n with
    | complete s => exact Or.inl ⟨s, hn, hbecomes⟩
    | unfinished p => exact Or.inr ⟨p, hn, _, hsupplies.eq_tailAt (missing_mem hn), hbecomes⟩
  · rintro (⟨s, hs, rfl⟩ | ⟨p, hp, tail, htail, hm⟩)
    · exact ⟨.complete s, hs, rfl⟩
    · refine ⟨.unfinished p, hp, ?_⟩
      change ∃ n ∈ tailAt tails (a.missing p), m = n.prepend p
      rw [tailAt, htail]
      exact hm

/-- Splicing behaves like putting one piece of input behind another. Leaving the rest open changes
nothing, tails that go on with further tails may be continued first, a token stays in front, and
heads and tails may be joined before or after. Members are put together without cutting anything
off, and what the result leaves open some tail has left open. -/
theorem splice_composes {h h' : LookaheadSet} {tails further : Nat → Option LookaheadSet}
    (hh : Built h) (hh' : Built h') (hdepth : h.depth = h'.depth) (htails : BuiltTails tails)
    (hfurther : BuiltTails further) (hsupplies : Supplies tails h) :
    (∀ leftOpen : Nat → Option LookaheadSet,
      (∀ r ∈ h.missingDepths, leftOpen r = some (epsilon r)) → h.splice leftOpen = h) ∧
    (h.splice tails).splice further = h.splice (fun r => (tails r).map (·.splice further)) ∧
    (∀ t, (h.prepend t).splice tails = (h.splice tails).prepend t) ∧
    (∃ u, h.union h' = .ok u ∧ (h.splice tails).union (h'.splice tails) = .ok (u.splice tails)) ∧
    (∀ others, BuiltTails others → Supplies others h →
      (h.splice tails).union (h.splice others) = .ok (h.splice (joinTails tails others))) ∧
    (∀ m, m ∈ h.splice tails ↔ (∃ s ∈ h.complete, m = .complete s) ∨
      ∃ p ∈ h.unfinished, ∃ tail, tails (h.missing p) = some tail ∧ ∃ n ∈ tail, m = n.prepend p) ∧
    ∀ q ∈ (h.splice tails).unfinished, ∃ p ∈ h.unfinished, ∃ tail,
      tails (h.missing p) = some tail ∧ ∃ r ∈ tail.unfinished, q = p ++ r := by
  have hnormal := hh.normal
  have ht := htails.fitting
  have hmem := fun m => hnormal.mem_splice_of_supplies (m := m) ht hsupplies
  refine ⟨fun _ => hnormal.splice_epsilon, hnormal.splice_splice ht hsupplies hfurther.fitting,
    hnormal.prepend_splice ht, ⟨_, union_of_depth_eq hdepth.symm, ?_⟩,
    fun others hothers hall => ?_, hmem, fun q hq => ?_⟩
  · rw [union_of_depth_eq (by simp [hdepth]), hnormal.addMembers_splice hh'.normal hdepth ht]
  · rw [union_of_depth_eq (by simp), hnormal.splice_joinTails ht hothers.fitting hsupplies hall]
  · rcases (hmem (.unfinished q)).1 hq with ⟨s, -, heq⟩ | ⟨p, hp, tail, htail, n, hn, heq⟩
    · cases heq
    · cases n with
      | complete s => cases heq
      | unfinished r =>
        cases heq
        exact ⟨p, hp, tail, htail, r, hn, rfl⟩

/-- The item goes on with a further item or ends there, and then with what is left open. -/
theorem openItem_splices :
    ∃ tails further : Nat → Option LookaheadSet,
      tails = (fun r => some ((epsilon r).insert [⟨5⟩, .eof])) ∧
      further = (fun r => some (singleton r [⟨6⟩, ⟨7⟩])) ∧
      BuiltTails tails ∧ BuiltTails further ∧ Supplies tails openItem ∧
      (openItem.splice tails).splice further =
        openItem.splice (fun r => (tails r).map (·.splice further)) ∧
      (openItem.prepend ⟨3⟩).splice tails = (openItem.splice tails).prepend ⟨3⟩ ∧
      (∃ u, openItem.union (epsilon 2) = .ok u ∧
        (openItem.splice tails).union ((epsilon 2).splice tails) = .ok (u.splice tails)) ∧
      (openItem.splice tails).union (openItem.splice further) =
        .ok (openItem.splice (joinTails tails further)) := by
  have htails : BuiltTails fun r => some ((epsilon r).insert [⟨5⟩, .eof]) := by
    rintro r tail htail
    cases htail
    exact ⟨depth_epsilon, .insert _ (.epsilon r)⟩
  have hfurther : BuiltTails fun r => some (singleton r [⟨6⟩, ⟨7⟩]) := by
    rintro r tail htail
    cases htail
    exact ⟨rfl, .singleton r _⟩
  obtain ⟨-, hsplice, hprepend, hunion, hjoin, -, -⟩ := splice_composes built_openItem
    (.epsilon 2) rfl htails hfurther fun _ _ => rfl
  exact ⟨_, _, rfl, rfl, htails, hfurther, fun _ _ => rfl, hsplice, hprepend _, hunion,
    hjoin _ hfurther fun _ _ => rfl⟩

end LookaheadSet

end GrammarLookahead
