import Mathlib.Data.List.Perm.Subperm
import GrammarLookahead.Analysis.Search
import GrammarLookahead.Proofs.Analysis.Equations
import GrammarLookahead.Proofs.Analysis.ReadingContract

/-!
The contract of expansions. If the questions of an expansion are answered with sets between two
families, the expansion asks only for keys one step further, at most `Search.readBound` of them,
and yields a set between the right-hand sides of the equations for the two families. Main
statement: `Grammar.Linked.expand_meets`.
-/

namespace GrammarLookahead.Grammar

open LookaheadSet (empty epsilon singleton joinSets)
open Reading (Between)

variable (g : Grammar)

/-- The keys that the expansion of a key may ask for when a family bounds the answers. -/
inductive Asks (F : Family) : Key → Key → Prop where
  | branch {id : BlockId} {b : Block} {n : ElementId} {d : Nat} {c : Context}
      (hb : g.block? id = some b) (hn : n ∈ g.entries b) :
      Asks F (.block id d c) (.element n d c)
  | token {id n : ElementId} {e : Element} {t : TokenId} {d : Nat} {c : Context}
      (he : g.element? id = some e) (ht : t ∈ g.tokensOf e.kind) (heof : t.isEof = false)
      (hn : e.next = some n) (hd : 1 ≤ d) : Asks F (.element id (d + 1) c) (.element n d c)
  | call {id : ElementId} {e : Element} {name : String} {target : RuleId} {r : Rule} {d : Nat}
      {c : Context} (he : g.element? id = some e) (hk : e.kind = .reference name target)
      (hr : g.rule? target = some r) :
      Asks F (.element id d c) (.block r.block d .callSite)
  | returned {id n : ElementId} {e : Element} {name : String} {target : RuleId} {r : Rule}
      {d : Nat} {c : Context} {p : TokenSeq} (he : g.element? id = some e)
      (hk : e.kind = .reference name target) (hr : g.rule? target = some r)
      (hp : .unfinished p ∈ F (.block r.block d .callSite)) (hn : e.next = some n) :
      Asks F (.element id d c) (.element n (d - p.length) c)
  | inner {id : ElementId} {e : Element} {b : BlockId} {d : Nat} {c : Context}
      (he : g.element? id = some e) (hk : e.kind = .nested b ∨ e.kind = .loop b) :
      Asks F (.element id d c) (.block b d c)
  | exit {id : ElementId} {e : Element} {b : BlockId} {blk : Block} {d : Nat} {c : Context}
      (he : g.element? id = some e) (hk : e.kind = .blockEnd b) (hb : g.block? b = some blk) :
      Asks F (.element id d c) (.element (g.exitTarget blk) d c)
  | again {id : ElementId} {e : Element} {b : BlockId} {blk : Block} {d : Nat} {c : Context}
      (he : g.element? id = some e) (hk : e.kind = .blockEnd b) (hb : g.block? b = some blk)
      (hloop : blk.kind.isLoop = true) : Asks F (.element id d c) (.block b d c)
  | follower {id n : ElementId} {e : Element} {target : RuleId} {r : Rule} {site : ElementId}
      {d : Nat} (he : g.element? id = some e) (hk : e.kind = .ruleEnd target)
      (hr : g.rule? target = some r) (hsite : site ∈ r.callers) (hn : g.next? site = some n) :
      Asks F (.element id d .everywhere) (.element n d .everywhere)

variable {g} {F low high : Family} {key q : Key} {depth d : Nat} {c : Context}
  {place : Option Node}

/-- One step further lie keys of the grammar that look no further ahead. -/
theorem Asks.hasKey (h : g.Asks F key q) (hg : g.Linked) (hF : g.Fits depth F)
    (hkey : g.HasKey depth key) : g.HasKey depth q ∧ q.depth ≤ key.depth := by
  obtain ⟨hnode, hpos, hle⟩ := hkey
  cases h with
  | branch hb hn => exact ⟨⟨hg.contains_entry hb hn, hpos, hle⟩, Nat.le_refl _⟩
  | @token id n e t d c he ht heof hn hd =>
    have hnext := hg.contains_behind he (.element n) (by simp [hn])
    have hle : d + 1 ≤ depth := hle
    exact ⟨⟨hnext, hd, show d ≤ depth by omega⟩, Nat.le_succ d⟩
  | call he hk hr => exact ⟨⟨hg.contains_ruleBlock hr, hpos, hle⟩, Nat.le_refl _⟩
  | @returned id n e name target r d c p he hk hr hp hn =>
    have hnext := hg.contains_behind he (.element n) (by simp [hn])
    have hle : d ≤ depth := hle
    have hblock : g.HasKey depth (.block r.block d .callSite) :=
      ⟨hg.contains_ruleBlock hr, hpos, hle⟩
    have hlen : p.length < d := (hF.wellFormed _ hblock _ hp).1
    exact ⟨⟨hnext, show 1 ≤ d - p.length by omega, show d - p.length ≤ depth by omega⟩,
      Nat.sub_le _ _⟩
  | inner he hk => exact ⟨⟨hg.contains_inner he hk, hpos, hle⟩, Nat.le_refl _⟩
  | exit he hk hb => exact ⟨⟨hg.contains_exit hb, hpos, hle⟩, Nat.le_refl _⟩
  | again he hk hb _ => exact ⟨⟨contains_block.2 ⟨_, hb⟩, hpos, hle⟩, Nat.le_refl _⟩
  | @follower id n e target r site d he hk hr hsite hn =>
    exact ⟨⟨hg.contains_site site (.element n) (by simp [hn]), hpos, hle⟩, Nat.le_refl _⟩

theorem Asks.mono {G : Family} (h : g.Asks F key q) (hg : g.Linked) (hFG : g.Below depth F G)
    (hkey : g.HasKey depth key) : g.Asks G key q := by
  cases h with
  | branch hb hn => exact .branch hb hn
  | token he ht heof hn hd => exact .token he ht heof hn hd
  | call he hk hr => exact .call he hk hr
  | @returned id n e name target r d c p he hk hr hp hn =>
    have hblock : g.HasKey depth (.block r.block d .callSite) :=
      ⟨hg.contains_ruleBlock hr, hkey.pos, hkey.le⟩
    exact .returned he hk hr ((hFG _ hblock).2 _ hp) hn
  | inner he hk => exact .inner he hk
  | exit he hk hb => exact .exit he hk hb
  | again he hk hb hloop => exact .again he hk hb hloop
  | follower he hk hr hsite hn => exact .follower he hk hr hsite hn

/-- Answers between those of two families. -/
abbrev Answers (low high : Family) (key : Key) (a : LookaheadSet) : Prop :=
  Between (low key) (high key) a

variable {asks : Key → Prop}

theorem ahead_meets {next : Option ElementId}
    (hasks : ∀ n, next = some n → asks (.element n d c)) :
    (ahead next d c).Meets asks (Answers low high) 1
      (Between (behind low (next.map .element) d c) (behind high (next.map .element) d c)) := by
  cases next with
  | none => exact ⟨LookaheadSet.le_refl _, LookaheadSet.le_refl _⟩
  | some n => exact .look (hasks n rfl) fun a ha => ha

theorem insert_eq_addMembers {a : LookaheadSet} (hd : a.depth = d) (s : TokenSeq) :
    a.insert s = a.addMembers (singleton d s) := by
  refine LookaheadSet.ext rfl fun m => ?_
  rw [LookaheadSet.mem_insert, LookaheadSet.mem_addMembers, LookaheadSet.mem_singleton, hd]
  exact or_comm

/-- Tokens that stand alone or in front of one and the same tail. -/
theorem foldlM_tokens {tail start : LookaheadSet} (htail : tail.depth + 1 = d)
    (hstart : start.depth = d) (tokens : List TokenId) :
    tokens.foldlM (fun a t => if t.isEof then Reading.done (a.insert [t])
        else Reading.join a (tail.prepend t)) start =
      .done (joinSets start (tokens.map fun t =>
        if t.isEof then singleton d [t] else tail.prepend t)) := by
  induction tokens generalizing start with
  | nil => rfl
  | cons t tokens ih =>
    rw [List.foldlM_cons, List.map_cons]
    by_cases ht : t.isEof
    · rw [if_pos ht, if_pos ht, Reading.bind_done, insert_eq_addMembers hstart]
      exact ih hstart
    · have hdepth : (tail.prepend t).depth = start.depth := by
        rw [LookaheadSet.depth_prepend, htail, hstart]
      rw [if_neg ht, if_neg ht, Reading.join_eq_done hdepth, Reading.bind_done]
      exact ih hstart

theorem tokenEquation_of_last {tokens : List TokenId}
    (hlast : d = 1 ∨ tokens.all TokenId.isEof = true) :
    LookaheadSet.ofSequences d (tokens.map ([·])) = tokenEquation F tokens place d c := by
  have halone : ∀ t ∈ tokens, d = 1 ∨ t.isEof = true := fun t ht =>
    hlast.imp_right fun hall => List.all_eq_true.1 hall t ht
  have hdepth : (LookaheadSet.ofSequences d (tokens.map ([·]))).depth = d :=
    LookaheadSet.depth_ofMembers _ _ _
  apply LookaheadSet.ext (by simp [hdepth, tokenEquation])
  intro m
  unfold LookaheadSet.ofSequences
  rw [LookaheadSet.mem_ofMembers, mem_tokenEquation]
  simp only [List.mem_map, exists_exists_and_eq_and, List.not_mem_nil, false_and, exists_false,
    or_false]
  refine exists_congr fun t => and_congr_right fun ht => ?_
  rw [if_pos (halone t ht), LookaheadSet.mem_singleton]

/-- The numbers of missing tokens of a set are distinct and not above its depth. -/
theorem length_missingDepths_le {a : LookaheadSet} (ha : a.depth = d)
    (hwf : ∀ p, .unfinished p ∈ a → p.length < d) : a.missingDepths.toList.length ≤ d := by
  have hnodup : a.missingDepths.toList.Nodup := a.missingDepths.ascending.imp Nat.ne_of_lt
  have hsub : a.missingDepths.toList ⊆ List.range' 1 d := by
    intro rest hrest
    obtain ⟨p, hp, rfl⟩ := LookaheadSet.mem_missingDepths.1 hrest
    have hlen := hwf p hp
    rw [List.mem_range'_1, LookaheadSet.missing, ha]
    omega
  simpa using (List.subperm_of_subset hnodup hsub).length_le

/-- Every tail that was asked for is found again. -/
theorem lookup_of_forall₂ {P : Nat → LookaheadSet → Prop} {rests : List Nat}
    {tails : List (Nat × LookaheadSet)}
    (h : List.Forall₂ (fun rest tail => tail.1 = rest ∧ P rest tail.2) rests tails) :
    ∀ rest ∈ rests, ∃ tail, tails.lookup rest = some tail ∧ P rest tail := by
  induction h with
  | nil => simp
  | @cons rest tail rests tails hhead _ ih =>
    obtain ⟨key, tail⟩ := tail
    obtain ⟨rfl, hP⟩ := hhead
    intro rest hrest
    by_cases heq : rest = key
    · subst heq
      exact ⟨tail, by simp, hP⟩
    · have hmem : rest ∈ rests := (List.mem_cons.1 hrest).resolve_left heq
      rw [List.lookup_cons, beq_eq_false_iff_ne.2 heq]
      exact ih rest hmem

section

variable (hfits : g.Fits depth high) (hd : 1 ≤ d) (hle : d ≤ depth)
include hfits hd hle

theorem expandTokens_meets {tokens : List TokenId} {next : Option ElementId}
    (hnext : ∀ n, next.map .element = some n → g.contains n = true)
    (hasks : ∀ n, next = some n → (∃ t ∈ tokens, t.isEof = false) → 2 ≤ d →
      asks (.element n (d - 1) c)) :
    (expandTokens tokens next d c).Meets asks (Answers low high) 1
      (Between (tokenEquation low tokens (next.map .element) d c)
        (tokenEquation high tokens (next.map .element) d c)) := by
  unfold expandTokens
  split
  · rename_i hlast
    refine ⟨?_, ?_⟩
    · rw [tokenEquation_of_last hlast]
      exact LookaheadSet.le_refl _
    · rw [tokenEquation_of_last hlast]
      exact LookaheadSet.le_refl _
  · rename_i hlast
    rw [not_or] at hlast
    have hsome : ∃ t ∈ tokens, t.isEof = false := by simpa using hlast.2
    rw [if_neg (by omega)]
    have htail := @ahead_meets low high (d - 1) c asks next fun n hn =>
      hasks n hn hsome (by omega)
    apply htail.bind (m := 0)
    rintro tail ⟨hlow, hhigh⟩
    have hdepth : tail.depth + 1 = d := by
      rw [hhigh.1, depth_behind hfits.depth_eq (by omega) (by omega) hnext]
      omega
    rw [foldlM_tokens hdepth rfl]
    refine ⟨joinSets_mono (LookaheadSet.le_refl _) fun t _ => ?_,
      joinSets_mono (LookaheadSet.le_refl _) fun t _ => ?_⟩
    · by_cases ht : t.isEof
      · simp only [ht, if_true, or_true]
        exact LookaheadSet.le_refl _
      · simp only [hlast.1, ht]
        exact LookaheadSet.prepend_mono hlow
    · by_cases ht : t.isEof
      · simp only [ht, if_true, or_true]
        exact LookaheadSet.le_refl _
      · simp only [hlast.1, ht]
        exact LookaheadSet.prepend_mono hhigh

theorem expandReference_meets {target : RuleId} {r : Rule} {next : Option ElementId}
    (hr : g.rule? target = some r) (hblock : g.contains (.block r.block) = true)
    (hcall : asks (.block r.block d .callSite))
    (hasks : ∀ n p, next = some n → .unfinished p ∈ high (.block r.block d .callSite) →
      asks (.element n (d - p.length) c)) :
    (g.expandReference target next d c).Meets asks (Answers low high) (1 + d)
      (Between (referenceEquation low r (next.map .element) d c)
        (referenceEquation high r (next.map .element) d c)) := by
  have hkey : g.HasKey depth (.block r.block d .callSite) := ⟨hblock, hd, hle⟩
  simp only [expandReference, hr]
  refine (Reading.Meets.look hcall fun a ha => ha).bind fun head ⟨hlow, hhigh⟩ => ?_
  have hdepth : head.depth = d := hhigh.1.trans (hfits.depth_eq _ hkey)
  have hlen : ∀ p, .unfinished p ∈ head → p.length < d := fun p hp =>
    (hfits.wellFormed _ hkey _ (hhigh.2 _ hp)).1
  have htails : (head.missingDepths.toList.mapM fun rest =>
      ahead next rest c >>= fun a => Reading.done (rest, a)).Meets asks (Answers low high)
      head.missingDepths.toList.length (List.Forall₂ (fun rest (tail : Nat × LookaheadSet) =>
        tail.1 = rest ∧ Between (behind low (next.map .element) rest c)
          (behind high (next.map .element) rest c) tail.2) head.missingDepths.toList) := by
    apply Reading.Meets.mapM
    intro rest hrest
    obtain ⟨p, hp, rfl⟩ := LookaheadSet.mem_missingDepths.1 hrest
    have hahead : ∀ n, next = some n → asks (.element n (head.missing p) c) := fun n hn => by
      unfold LookaheadSet.missing
      rw [hdepth]
      exact hasks n p hn (hhigh.2 _ hp)
    exact (ahead_meets hahead).bind (m := 0) fun a ha => ⟨rfl, ha⟩
  refine (htails.bind (m := 0) fun tails hall => ?_).weaken (length_missingDepths_le hdepth hlen)
  have hlookup := lookup_of_forall₂ hall
  constructor
  · apply LookaheadSet.splice_mono hlow
    intro rest hrest
    have hrest : rest ∈ head.missingDepths := by
      obtain ⟨p, hp, rfl⟩ := LookaheadSet.mem_missingDepths.1 hrest
      exact LookaheadSet.mem_missingDepths.2
        ⟨p, hlow.2 _ hp, by rw [LookaheadSet.missing, LookaheadSet.missing, hlow.1]⟩
    obtain ⟨tail, htail, hbetween⟩ := hlookup rest hrest
    exact ⟨_, tail, rfl, htail, hbetween.1⟩
  · apply LookaheadSet.splice_mono hhigh
    intro rest hrest
    obtain ⟨tail, htail, hbetween⟩ := hlookup rest hrest
    exact ⟨tail, _, htail, rfl, hbetween.2⟩

end

theorem expandBlock_meets (hlow : g.Fits depth low) (h : g.Linked) (hd : 1 ≤ d) (hle : d ≤ depth)
    {id : BlockId} {b : Block} (hb : g.block? id = some b)
    (hasks : ∀ n ∈ g.entries b, asks (.element n d c)) :
    (g.expandBlock id d c).Meets asks (Answers low high) (g.entries b).length
      (Between (g.blockEquation low b d c) (g.blockEquation high b d c)) := by
  simp only [expandBlock, hb]
  apply Reading.Meets.joinAll ⟨LookaheadSet.le_refl _, LookaheadSet.le_refl _⟩
  intro n hn
  exact ⟨hlow.depth_eq _ ⟨h.contains_entry hb hn, hd, hle⟩, .look (hasks n hn) fun a ha => ha⟩

theorem expandFollow_meets (hlow : g.Fits depth low) (h : g.Linked) (hd : 1 ≤ d) (hle : d ≤ depth)
    {id : RuleId} {r : Rule} (hr : g.rule? id = some r)
    (hasks : ∀ site ∈ r.callers, ∀ n, g.next? site = some n → asks (.element n d .everywhere)) :
    (g.expandFollow id d).Meets asks (Answers low high) r.callers.length
      (Between (g.followEquation low r d) (g.followEquation high r d)) := by
  simp only [expandFollow, hr]
  refine Reading.Meets.joinAll ⟨LookaheadSet.le_refl _, LookaheadSet.le_refl _⟩ fun site hsite => ?_
  refine ⟨?_, ahead_meets (hasks site hsite)⟩
  have hstart : (if r.entry = true ∨ r.callers.isEmpty = true then (empty d).insert [.eof]
      else empty d).depth = d := by
    split <;> rfl
  rw [hstart]
  exact depth_behind hlow.depth_eq hd hle (h.contains_site site)

theorem expandBlockEnd_meets (hlow : g.Fits depth low) (h : g.Linked) (hd : 1 ≤ d) (hle : d ≤ depth)
    {id : BlockId} {b : Block} (hb : g.block? id = some b)
    (hexit : asks (.element (g.exitTarget b) d c))
    (hagain : b.kind.isLoop = true → asks (.block id d c)) :
    (g.expandBlockEnd id d c).Meets asks (Answers low high) 2
      (Between (g.blockEndEquation low id b d c) (g.blockEndEquation high id b d c)) := by
  have hexitDepth : (low (.element (g.exitTarget b) d c)).depth = d :=
    hlow.depth_eq _ ⟨h.contains_exit hb, hd, hle⟩
  have hagainDepth : (low (.block id d c)).depth = d :=
    hlow.depth_eq _ ⟨contains_block.2 ⟨b, hb⟩, hd, hle⟩
  have hdepth : ∀ F : Family, (g.blockEndEquation F id b d c).depth = d := fun F => by
    simp [blockEndEquation]
  simp only [expandBlockEnd, hb]
  refine (Reading.Meets.look hexit fun a ha => ha).bind (m := 1) fun a ha => ?_
  obtain ⟨halow, hahigh⟩ := ha
  by_cases hloop : b.kind.isLoop = true
  · rw [if_pos hloop]
    refine (Reading.Meets.look (hagain hloop) fun a ha => ha).bind (m := 0) fun a' ha' => ?_
    obtain ⟨hlow', hhigh'⟩ := ha'
    rw [Reading.join_eq_done (by rw [← hlow'.1, ← halow.1, hexitDepth]; exact hagainDepth)]
    constructor
    · refine ⟨by rw [hdepth, LookaheadSet.depth_addMembers, ← halow.1, hexitDepth], fun m hm => ?_⟩
      rw [LookaheadSet.mem_addMembers]
      exact (mem_blockEndEquation.1 hm).imp (halow.2 m) fun hm => hlow'.2 m hm.2
    · refine ⟨by rw [hdepth, LookaheadSet.depth_addMembers, ← halow.1, hexitDepth], fun m hm => ?_⟩
      rw [LookaheadSet.mem_addMembers] at hm
      exact mem_blockEndEquation.2 (hm.imp (hahigh.2 m) fun hm => ⟨hloop, hhigh'.2 m hm⟩)
  · rw [if_neg hloop]
    constructor
    · refine ⟨by rw [hdepth, ← halow.1, hexitDepth], fun m hm => ?_⟩
      exact halow.2 m ((mem_blockEndEquation.1 hm).resolve_right fun hm => hloop hm.1)
    · refine ⟨by rw [hdepth, ← halow.1, hexitDepth], fun m hm => ?_⟩
      exact mem_blockEndEquation.2 (Or.inl (hahigh.2 m hm))

theorem le_foldl_alternatives {b : Block} {blocks : List Block} (hb : b ∈ blocks) (n : Nat) :
    n + b.alternatives.length ≤ blocks.foldl (fun n b => n + b.alternatives.length) n := by
  have hmono : ∀ (blocks : List Block) (n : Nat),
      n ≤ blocks.foldl (fun n b => n + b.alternatives.length) n := by
    intro blocks
    induction blocks with
    | nil => exact Nat.le_refl
    | cons b blocks ih => exact fun n => Nat.le_trans (Nat.le_add_right _ _) (ih _)
  induction blocks generalizing n with
  | nil => simp at hb
  | cons b' blocks ih =>
    rcases List.mem_cons.1 hb with rfl | hb
    · exact hmono blocks _
    · exact Nat.le_trans (Nat.add_le_add_right (Nat.le_add_right _ _) _) (ih hb _)

theorem length_entries_le {id : BlockId} {b : Block} (hb : g.block? id = some b) :
    (g.entries b).length ≤ Search.readBound g d := by
  have hmem : b ∈ g.blocks.toList := Array.mem_toList_iff.2 (Array.mem_of_getElem? hb)
  have hsum := le_foldl_alternatives hmem 0
  have hexit : (if b.kind.canSkip then [g.exitTarget b] else []).length ≤ 1 := by
    split <;> simp
  rw [Array.foldl_toList] at hsum
  unfold entries
  rw [List.length_append, List.length_map, Search.readBound]
  omega

/-- The expansion of an element that reads a token by itself. -/
theorem Linked.expandTokens_meets_element (h : g.Linked) (hfits : g.Fits depth high) (hd : 1 ≤ d)
    (hle : d ≤ depth) {id : ElementId} {e : Element} (he : g.element? id = some e) :
    (expandTokens (g.tokensOf e.kind) e.next d c).Meets (g.Asks high (.element id d c))
      (Answers low high) (Search.readBound g d)
      (Between (tokenEquation low (g.tokensOf e.kind) (e.next.map .element) d c)
        (tokenEquation high (g.tokensOf e.kind) (e.next.map .element) d c)) := by
  have hbound : 1 ≤ Search.readBound g d := by
    rw [Search.readBound]
    omega
  have hmeets := @expandTokens_meets g low high depth d c (g.Asks high (.element id d c)) hfits hd
    hle (g.tokensOf e.kind) e.next (h.contains_behind he)
  refine (hmeets fun n hn hsome htwo => ?_).weaken hbound
  obtain ⟨t, ht, heof⟩ := hsome
  obtain ⟨k, rfl⟩ : ∃ k, d = k + 1 := ⟨d - 1, by omega⟩
  exact .token he ht heof hn (by omega)

theorem Linked.expandElement_meets (h : g.Linked) (hfits : g.Fits depth high)
    (hle : g.Below depth low high) (hpos : 1 ≤ d) (hd : d ≤ depth) {id : ElementId} {e : Element}
    (he : g.element? id = some e) :
    (g.expandElement id d c).Meets (g.Asks high (.element id d c)) (Answers low high)
      (Search.readBound g d) (Between (g.elementEquation low e d c) (g.elementEquation high e d c)) := by
  have hlow : g.Fits depth low := hfits.of_below hle
  have hnext := h.contains_behind he
  have htokens := @Linked.expandTokens_meets_element g low high depth d c h hfits hpos hd id e he
  have hbound : d + 2 + g.elements.size ≤ Search.readBound g d := by
    rw [Search.readBound]
    omega
  simp only [expandElement, he, elementEquation]
  cases hk : e.kind with
  | terminal t =>
    rw [hk] at htokens
    exact htokens
  | wildcard =>
    rw [hk] at htokens
    exact htokens
  | notTerminal t =>
    rw [hk] at htokens
    exact htokens
  | reference name target =>
    obtain ⟨r, hr⟩ := h.reference he hk
    simp only [hr, Option.elim_some]
    have hmeets := @expandReference_meets g low high depth d c (g.Asks high (.element id d c)) hfits
      hpos hd target r e.next hr (h.contains_ruleBlock hr) (.call he hk hr)
    exact (hmeets fun n p hn hp => .returned he hk hr hp hn).weaken (by omega)
  | nested b => exact (Reading.Meets.look (.inner he (Or.inl hk)) fun a ha => ha).weaken (by omega)
  | loop b => exact (Reading.Meets.look (.inner he (Or.inr hk)) fun a ha => ha).weaken (by omega)
  | blockEnd b =>
    obtain ⟨blk, hb⟩ := h.blockEnd he hk
    simp only [hb, Option.elim_some]
    exact (expandBlockEnd_meets hlow h hpos hd hb (.exit he hk hb)
      fun hloop => .again he hk hb hloop).weaken (by omega)
  | ruleEnd target =>
    obtain ⟨r, hr, -⟩ := h.ruleEnd he hk
    cases c with
    | callSite => exact ⟨LookaheadSet.le_refl _, LookaheadSet.le_refl _⟩
    | everywhere =>
      have hcallers := (h.rule hr).length_callers
      simp only [hr, Option.elim_some]
      exact (expandFollow_meets hlow h hpos hd hr
        fun site hsite n hn => .follower he hk hr hsite hn).weaken (by omega)

/-- What an expansion asks for and yields if its questions are answered between two families. -/
theorem Linked.expand_meets (h : g.Linked) (hfits : g.Fits depth high)
    (hle : g.Below depth low high) (hkey : g.HasKey depth key) :
    (g.expand key).Meets (g.Asks high key) (Answers low high) (Search.readBound g key.depth)
      (Between (g.equation low key) (g.equation high key)) := by
  obtain ⟨node, d, c⟩ := key
  cases node with
  | block id =>
    obtain ⟨b, hb⟩ := contains_block.1 hkey.node
    rw [equation_block hb, equation_block hb]
    exact (expandBlock_meets (hfits.of_below hle) h hkey.pos hkey.le hb
      fun n hn => .branch hb hn).weaken (length_entries_le hb)
  | element id =>
    obtain ⟨e, he⟩ := contains_element.1 hkey.node
    rw [equation_element he, equation_element he]
    exact h.expandElement_meets hfits hle hkey.pos hkey.le he

/-- The expansion of a key, answered from a family, is the right-hand side of its equation. -/
theorem Linked.eval_expand (h : g.Linked) (hF : g.Fits depth F) (hkey : g.HasKey depth key) :
    (g.expand key).eval F = .ok (g.equation F key) := by
  obtain ⟨a, ha, ⟨hlow, hhigh⟩, -⟩ := (h.expand_meets hF (Below.refl F) hkey).eval
    fun k _ => ⟨LookaheadSet.le_refl (F k), LookaheadSet.le_refl (F k)⟩
  rw [ha, LookaheadSet.le_antisymm hhigh hlow]

end GrammarLookahead.Grammar
