import Mathlib.Algebra.Order.BigOperators.Group.Finset
import Mathlib.Tactic.Ring
import GrammarLookahead.Proofs.Analysis.SearchInvariant

/-!
The measure of a search. A value can only grow until it has all members that its vocabulary and
depth allow; between two repeated rounds every key begins at most once; and a round asks a bounded
number of questions. The measure puts the three together and stays within `Search.stepBound`.
-/

namespace GrammarLookahead

namespace OrderedSet

variable {α : Type} [LT α] [Std.Irrefl (α := α) (· < ·)] {s t : OrderedSet α}

theorem nodup_toList (s : OrderedSet α) : s.toList.Nodup := by
  refine s.ascending.imp fun {a b} hab => ?_
  rintro rfl
  exact Std.Irrefl.irrefl a hab

theorem size_le_length {xs : List α} (h : ∀ x ∈ s, x ∈ xs) : s.size ≤ xs.length :=
  (List.subperm_of_subset s.nodup_toList h).length_le

theorem size_le_of_subset (h : ∀ x ∈ s, x ∈ t) : s.size ≤ t.size :=
  (List.subperm_of_subset s.nodup_toList h).length_le

theorem mem_of_size_le (h : ∀ x ∈ s, x ∈ t) (hsize : t.size ≤ s.size) : ∀ x ∈ t, x ∈ s :=
  fun _ hx => ((List.subperm_of_subset s.nodup_toList h).perm_of_length_le hsize).mem_iff.2 hx

end OrderedSet

namespace LookaheadSet

variable {a b : LookaheadSet}

theorem size_le_of_le (h : a ≤ b) : a.size ≤ b.size :=
  Nat.add_le_add (OrderedSet.size_le_of_subset fun s hs => h.2 (.complete s) hs)
    (OrderedSet.size_le_of_subset fun p hp => h.2 (.unfinished p) hp)

/-- A set that lies strictly below another one has fewer members. -/
theorem size_lt_of_le_of_ne (h : a ≤ b) (hne : a ≠ b) : a.size < b.size := by
  have hcomplete : a.complete.size ≤ b.complete.size :=
    OrderedSet.size_le_of_subset fun s hs => h.2 (.complete s) hs
  have hunfinished : a.unfinished.size ≤ b.unfinished.size :=
    OrderedSet.size_le_of_subset fun p hp => h.2 (.unfinished p) hp
  by_contra hlt
  unfold size at hlt
  apply hne
  refine le_antisymm h ⟨h.1.symm, fun m hm => ?_⟩
  cases m with
  | complete s =>
    exact OrderedSet.mem_of_size_le (fun s hs => h.2 (.complete s) hs) (by omega) s hm
  | unfinished p =>
    exact OrderedSet.mem_of_size_le (fun p hp => h.2 (.unfinished p) hp) (by omega) p hm

end LookaheadSet

namespace Search

variable (g : Grammar) (depth : Nat)

/-- Every node of the grammar. -/
def nodes : List Node := g.elementIds.map .element ++ g.blockIds.map .block

/-- Every key of the grammar up to a depth. -/
def keys : Finset Key :=
  ((nodes g).flatMap fun node => (List.range' 1 depth).flatMap fun d =>
    [⟨node, d, .everywhere⟩, ⟨node, d, .callSite⟩]).toFinset

variable {g depth} {v v' : View} {below rounds rounds' : List Round} {round : Round}
  {key q : Key} {start : Key} {cost : Nat}

theorem mem_nodes {node : Node} : node ∈ nodes g ↔ g.contains node = true := by
  simp only [nodes, Grammar.elementIds, Grammar.blockIds, List.map_map, List.mem_append,
    List.mem_map, List.mem_range, Function.comp_apply]
  cases node with
  | element id =>
    obtain ⟨index⟩ := id
    simp [Grammar.contains]
  | block id =>
    obtain ⟨index⟩ := id
    simp [Grammar.contains]

theorem mem_keys : key ∈ keys g depth ↔ g.HasKey depth key := by
  obtain ⟨node, d, context⟩ := key
  simp only [keys, List.mem_toFinset, List.mem_flatMap, mem_nodes, List.mem_range'_1,
    List.mem_cons, List.not_mem_nil, or_false, Key.mk.injEq]
  constructor
  · rintro ⟨node', hnode, d', hd, ⟨rfl, rfl, -⟩ | ⟨rfl, rfl, -⟩⟩
    · exact ⟨hnode, hd.1, show d ≤ depth by omega⟩
    · exact ⟨hnode, hd.1, show d ≤ depth by omega⟩
  · rintro ⟨hnode, hpos, hle⟩
    have hpos : 1 ≤ d := hpos
    have hle : d ≤ depth := hle
    refine ⟨node, hnode, d, by omega, ?_⟩
    cases context with
    | everywhere => exact Or.inl ⟨rfl, rfl, rfl⟩
    | callSite => exact Or.inr ⟨rfl, rfl, rfl⟩

theorem card_keys_le (g : Grammar) (depth : Nat) : (keys g depth).card ≤ keyBound g depth := by
  refine Nat.le_trans (List.toFinset_card_le _) (Nat.le_of_eq ?_)
  simp only [nodes, Grammar.elementIds, Grammar.blockIds, List.length_flatMap, List.length_cons,
    List.length_nil, List.map_const', List.sum_replicate_nat, List.length_range', List.length_append,
    List.length_map, List.length_range, keyBound]
  ring

/-- The members that values can still gain. -/
def missing (g : Grammar) (depth : Nat) (v : View) : Nat :=
  ∑ k ∈ keys g depth, (memberBound g depth - (v.value k).size)

open Classical in
/-- The keys that are neither finished nor held. -/
noncomputable def idle (g : Grammar) (depth : Nat) (v : View) (rounds : List Round) : Finset Key :=
  (keys g depth).filter fun k => ¬ (v.finished k ∨ k ∈ held rounds)

/-- The number of rounds that have to be repeated. -/
def unstableCount (rounds : List Round) : Nat := rounds.countP (·.unstable)

/-- The cost of a round, from its beginning to its result. -/
def roundCost (g : Grammar) (depth : Nat) : Nat := 3 * readBound g depth + 1

/-- The steps that a search has left at most. -/
noncomputable def measure (g : Grammar) (depth : Nat) (v : View) (rounds : List Round)
    (cost : Nat) : Nat :=
  (missing g depth v + unstableCount rounds) * ((keys g depth).card * roundCost g depth) +
    (idle g depth v rounds).card * roundCost g depth + cost

theorem size_le_memberBound (hg : g.Linked) (hkey : g.HasKey depth key) :
    (g.lookahead key).size ≤ memberBound g depth := by
  have hlength : (g.vocabulary.sequences key.depth).length ≤ (g.vocabulary.size + 1) ^ depth :=
    Nat.le_trans (g.vocabulary.length_sequences_le key.depth)
      (Nat.pow_le_pow_right (Nat.succ_pos _) hkey.le)
  have hcomplete : (g.lookahead key).complete.size ≤ (g.vocabulary.sequences key.depth).length :=
    OrderedSet.size_le_length fun s hs =>
      hg.tokens_mem_sequences hkey.pos (LookaheadSet.mem_complete.2 hs)
  have hunfinished : (g.lookahead key).unfinished.size ≤
      (g.vocabulary.sequences key.depth).length :=
    OrderedSet.size_le_length fun p hp =>
      hg.tokens_mem_sequences hkey.pos (LookaheadSet.mem_unfinished.2 hp)
  unfold LookaheadSet.size memberBound
  rw [Nat.pow_eq]
  omega

theorem missing_le (h : g.Below depth v.value v'.value) : missing g depth v' ≤ missing g depth v :=
  Finset.sum_le_sum fun k hk =>
    Nat.sub_le_sub_left (LookaheadSet.size_le_of_le (h k (mem_keys.1 hk))) _

theorem missing_lt (hg : g.Linked) (h : g.Below depth v.value v'.value)
    (hv' : g.Below depth v'.value g.lookahead) (hkey : g.HasKey depth key)
    (hne : v.value key ≠ v'.value key) : missing g depth v' < missing g depth v := by
  refine Finset.sum_lt_sum (fun k hk =>
    Nat.sub_le_sub_left (LookaheadSet.size_le_of_le (h k (mem_keys.1 hk))) _)
    ⟨key, mem_keys.2 hkey, ?_⟩
  have hlt := LookaheadSet.size_lt_of_le_of_ne (h key hkey) hne
  have hle := Nat.le_trans (LookaheadSet.size_le_of_le (hv' key hkey)) (size_le_memberBound hg hkey)
  omega

theorem mem_idle : key ∈ idle g depth v rounds ↔
    g.HasKey depth key ∧ ¬ v.finished key ∧ key ∉ held rounds := by
  simp only [idle, Finset.mem_filter, mem_keys, not_or]

theorem card_idle_le (h : ∀ k, v.finished k ∨ k ∈ held rounds →
    v'.finished k ∨ k ∈ held rounds') :
    (idle g depth v' rounds').card ≤ (idle g depth v rounds).card := by
  apply Finset.card_le_card
  intro k hk
  rw [mem_idle, ← not_or] at hk ⊢
  exact hk.imp_right (mt (h k))

theorem card_idle_lt (h : ∀ k, k ∈ held rounds → k ∈ held rounds') (hkey : g.HasKey depth key)
    (hidle : ¬ v.finished key ∧ key ∉ held rounds) (hheld : key ∈ held rounds') :
    (idle g depth v rounds').card < (idle g depth v rounds).card := by
  refine Finset.card_lt_card ((Finset.ssubset_iff_of_subset fun k hk => ?_).2 ⟨key, ?_, ?_⟩)
  · rw [mem_idle] at hk ⊢
    exact ⟨hk.1, hk.2.1, mt (h k) hk.2.2⟩
  · exact mem_idle.2 ⟨hkey, hidle⟩
  · exact fun hk => (mem_idle.1 hk).2.2 hheld

theorem card_idle_le_add (extra : List Key) (h : ∀ k, v.finished k ∨ k ∈ held rounds →
    (v'.finished k ∨ k ∈ held rounds') ∨ k ∈ extra) :
    (idle g depth v' rounds').card ≤ (idle g depth v rounds).card + extra.length := by
  have hsub : idle g depth v' rounds' ⊆ idle g depth v rounds ∪ extra.toFinset := by
    intro k hk
    rw [mem_idle, ← not_or] at hk
    rw [Finset.mem_union, mem_idle, ← not_or, List.mem_toFinset]
    by_cases hextra : k ∈ extra
    · exact Or.inr hextra
    · exact Or.inl ⟨hk.1, fun hocc => (h k hocc).elim hk.2 hextra⟩
  calc (idle g depth v' rounds').card
      ≤ (idle g depth v rounds ∪ extra.toFinset).card := Finset.card_le_card hsub
    _ ≤ (idle g depth v rounds).card + extra.toFinset.card := Finset.card_union_le _ _
    _ ≤ (idle g depth v rounds).card + extra.length :=
        Nat.add_le_add_left (List.toFinset_card_le _) _

theorem length_held_le (h : KeyInvariant g depth v rounds) :
    (held rounds).length ≤ (keys g depth).card := by
  rw [← List.toFinset_card_of_nodup h.nodup]
  exact Finset.card_le_card fun k hk => mem_keys.2 (h.hasKey k (List.mem_toFinset.1 hk))

/-- A step that begins nothing spends some of the cost. -/
theorem measure_lt_of_cost {cost' : Nat}
    (hpotential : missing g depth v' + unstableCount rounds' ≤
      missing g depth v + unstableCount rounds)
    (hidle : (idle g depth v' rounds').card ≤ (idle g depth v rounds).card) (hcost : cost' < cost) :
    measure g depth v' rounds' cost' < measure g depth v rounds cost := by
  have hleft := Nat.mul_le_mul_right ((keys g depth).card * roundCost g depth) hpotential
  have hright := Nat.mul_le_mul_right (roundCost g depth) hidle
  unfold measure
  omega

/-- A key that begins pays for its round by being idle no longer. -/
theorem measure_lt_of_begin {cost' : Nat} (hunstable : unstableCount rounds' = unstableCount rounds)
    (hidle : (idle g depth v rounds').card < (idle g depth v rounds).card)
    (hcost : cost' < cost + roundCost g depth) :
    measure g depth v rounds' cost' < measure g depth v rounds cost := by
  have hright := Nat.mul_le_mul_right (roundCost g depth) (Nat.succ_le_of_lt hidle)
  rw [Nat.succ_mul] at hright
  unfold measure
  rw [hunstable]
  omega

/-- A round that is repeated pays for the rounds of all keys by a value that has grown. -/
theorem measure_lt_of_again {cost' dropped : Nat}
    (hpotential : missing g depth v' + unstableCount rounds' <
      missing g depth v + unstableCount rounds)
    (hidle : (idle g depth v' rounds').card ≤ (idle g depth v rounds).card + dropped)
    (hdropped : dropped + 1 ≤ (keys g depth).card) (hcost : cost' < cost + roundCost g depth) :
    measure g depth v' rounds' cost' < measure g depth v rounds cost := by
  have hleft := Nat.mul_le_mul_right ((keys g depth).card * roundCost g depth)
    (Nat.succ_le_of_lt hpotential)
  have hright := Nat.mul_le_mul_right (roundCost g depth) hidle
  have hall := Nat.mul_le_mul_right (roundCost g depth) hdropped
  rw [Nat.succ_mul] at hleft
  rw [Nat.add_mul] at hright hall
  unfold measure
  omega

/-- At the beginning of a search the measure is within the bound on its steps. -/
theorem measure_start_le (g : Grammar) (depth : Nat) (v : View) :
    measure g depth v [] 1 ≤ stepBound g depth := by
  have hkeys := card_keys_le g depth
  have hmissing : missing g depth v ≤ keyBound g depth * memberBound g depth := by
    calc missing g depth v ≤ (keys g depth).card * memberBound g depth :=
          Finset.sum_le_card_nsmul _ _ _ fun k _ => Nat.sub_le _ _
      _ ≤ keyBound g depth * memberBound g depth := Nat.mul_le_mul_right _ hkeys
  have hidle : (idle g depth v []).card ≤ keyBound g depth :=
    Nat.le_trans (Finset.card_le_card fun k hk => mem_keys.2 (mem_idle.1 hk).1) hkeys
  have hround : keyBound g depth * roundCost g depth + 1 ≤
      (1 + keyBound g depth) * (3 * readBound g depth + 3) := by
    rw [Nat.add_mul, roundCost, Nat.one_mul]
    have := Nat.mul_le_mul_left (keyBound g depth)
      (show 3 * readBound g depth + 1 ≤ 3 * readBound g depth + 3 by omega)
    omega
  calc measure g depth v [] 1
      = missing g depth v * ((keys g depth).card * roundCost g depth) +
          (idle g depth v []).card * roundCost g depth + 1 := rfl
    _ ≤ keyBound g depth * memberBound g depth * (keyBound g depth * roundCost g depth) +
          keyBound g depth * roundCost g depth + 1 := by
        refine Nat.succ_le_succ (Nat.add_le_add (Nat.mul_le_mul hmissing ?_) ?_)
        · exact Nat.mul_le_mul_right _ hkeys
        · exact Nat.mul_le_mul_right _ hidle
    _ ≤ (1 + keyBound g depth * memberBound g depth) *
          (keyBound g depth * roundCost g depth + 1) := by
        rw [Nat.add_mul, Nat.one_mul, Nat.mul_add, Nat.mul_one]
        omega
    _ ≤ (1 + keyBound g depth * memberBound g depth) *
          ((1 + keyBound g depth) * (3 * readBound g depth + 3)) := Nat.mul_le_mul_left _ hround
    _ = stepBound g depth := (Nat.mul_assoc _ _ _).symm

end Search

end GrammarLookahead
