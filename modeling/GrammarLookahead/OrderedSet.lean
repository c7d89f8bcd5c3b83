/-!
Finite sets kept as strictly ascending lists. Two sets with the same members are equal
(`OrderedSet.ext`), so the order and the repetition of insertions never show.
-/

namespace GrammarLookahead

/-- A finite set, kept as the strictly ascending list of its members. -/
structure OrderedSet (α : Type) [LT α] where
  toList : List α
  ascending : toList.Pairwise (· < ·)
  deriving Repr

namespace OrderedSet

variable {α : Type} [LT α]

instance : Membership α (OrderedSet α) := ⟨fun s x => x ∈ s.toList⟩

@[simp] theorem mem_toList {s : OrderedSet α} {x : α} : x ∈ s.toList ↔ x ∈ s := Iff.rfl

theorem toList_inj {s t : OrderedSet α} : s.toList = t.toList ↔ s = t := by
  cases s; cases t; simp

instance [DecidableEq α] : DecidableEq (OrderedSet α) :=
  fun s t => decidable_of_iff (s.toList = t.toList) toList_inj

instance [DecidableEq α] (s : OrderedSet α) (x : α) : Decidable (x ∈ s) :=
  inferInstanceAs (Decidable (x ∈ s.toList))

def empty : OrderedSet α := ⟨[], .nil⟩

instance : EmptyCollection (OrderedSet α) := ⟨empty⟩

@[simp] theorem not_mem_empty {x : α} : x ∉ (∅ : OrderedSet α) := List.not_mem_nil

def size (s : OrderedSet α) : Nat := s.toList.length

def isEmpty (s : OrderedSet α) : Bool := s.toList.isEmpty

theorem isEmpty_iff {s : OrderedSet α} : s.isEmpty = true ↔ ∀ x, x ∉ s := by
  rw [isEmpty, List.isEmpty_iff, List.eq_nil_iff_forall_not_mem]
  rfl

/-- The members that satisfy a predicate. -/
def filter (p : α → Bool) (s : OrderedSet α) : OrderedSet α :=
  ⟨s.toList.filter p, s.ascending.sublist List.filter_sublist⟩

@[simp] theorem mem_filter {p : α → Bool} {s : OrderedSet α} {x : α} :
    x ∈ s.filter p ↔ x ∈ s ∧ p x := List.mem_filter

/-- The first `n` members. -/
def take (n : Nat) (s : OrderedSet α) : OrderedSet α :=
  ⟨s.toList.take n, s.ascending.sublist (List.take_sublist n _)⟩

/-- The members of two ascending lists in ascending order, a shared member once. -/
def mergeLists [DecidableLT α] : List α → List α → List α
  | [], ys => ys
  | x :: xs, ys => ys.takeWhile (· < x) ++ x :: mergeLists xs (ys.dropWhile fun y => ¬ x < y)

private theorem mem_of_mem_mergeLists [DecidableLT α] {z : α} :
    ∀ {xs ys : List α}, z ∈ mergeLists xs ys → z ∈ xs ∨ z ∈ ys
  | [], _, h => Or.inr h
  | x :: xs, ys, h => by
    simp only [mergeLists, List.mem_append, List.mem_cons] at h
    rcases h with h | rfl | h
    · exact Or.inr ((List.takeWhile_sublist _).subset h)
    · simp
    · rcases mem_of_mem_mergeLists h with h | h
      · simp [h]
      · exact Or.inr ((List.dropWhile_sublist _).subset h)

private theorem lt_of_mem_takeWhile [DecidableLT α] {x z : α} :
    ∀ {ys : List α}, z ∈ ys.takeWhile (· < x) → z < x
  | y :: ys, h => by
    rw [List.takeWhile_cons] at h
    split at h
    · rcases List.mem_cons.1 h with rfl | h
      · simp_all
      · exact lt_of_mem_takeWhile h
    · simp at h

private theorem mem_dropWhile_of_lt [DecidableLT α] {x z : α} (hxz : x < z) :
    ∀ {ys : List α}, z ∈ ys → z ∈ ys.dropWhile fun y => ¬ x < y
  | y :: ys, h => by
    rw [List.dropWhile_cons]
    split
    · rcases List.mem_cons.1 h with rfl | h
      · simp_all
      · exact mem_dropWhile_of_lt hxz h
    · exact h

private theorem mem_dropWhile_iff [DecidableLT α] {x z : α} {ys : List α} (hzx : ¬ z < x) :
    z ∈ ys.dropWhile (· < x) ↔ z ∈ ys := by
  refine ⟨fun h => (List.dropWhile_sublist _).subset h, fun h => ?_⟩
  rw [← List.takeWhile_append_dropWhile (p := (· < x)) (l := ys), List.mem_append] at h
  exact h.resolve_left fun h => hzx (lt_of_mem_takeWhile h)

private theorem head?_dropWhile_eq_some [DecidableLT α] [Std.Irrefl (α := α) (· < ·)] {x : α}
    {ys : List α} (hy : ys.Pairwise (· < ·)) :
    (ys.dropWhile (· < x)).head? = some x ↔ x ∈ ys := by
  have hdrop := hy.sublist (List.dropWhile_sublist (· < x))
  rw [← mem_dropWhile_iff (Std.Irrefl.irrefl x)]
  constructor
  · exact List.mem_of_head?
  · intro h
    cases hd : ys.dropWhile (· < x) with
    | nil => simp [hd] at h
    | cons y rest =>
      have hyx : ¬ y < x := by
        have := List.head?_dropWhile_not (· < x) ys
        simpa [hd] using this
      rw [hd, List.pairwise_cons] at hdrop
      rw [hd] at h
      rcases List.mem_cons.1 h with rfl | h
      · rfl
      · exact absurd (hdrop.1 x h) hyx

/-- The members that two ascending lists share, in ascending order. -/
def sharedLists [DecidableLT α] [DecidableEq α] : List α → List α → List α
  | [], _ => []
  | x :: xs, ys =>
    let rest := ys.dropWhile (· < x)
    if rest.head? = some x then x :: sharedLists xs rest else sharedLists xs rest

private theorem sharedLists_sublist [DecidableLT α] [DecidableEq α] :
    ∀ xs ys : List α, (sharedLists xs ys).Sublist xs
  | [], _ => .slnil
  | x :: xs, ys => by
    rw [sharedLists]
    split
    · exact (sharedLists_sublist xs _).cons_cons x
    · exact (sharedLists_sublist xs _).cons x

/-- The members of both sets. -/
def inter [DecidableLT α] [DecidableEq α] (s t : OrderedSet α) : OrderedSet α :=
  ⟨sharedLists s.toList t.toList, s.ascending.sublist (sharedLists_sublist _ _)⟩

variable [Trans (α := α) (· < ·) (· < ·) (· < ·)]

private theorem lt_trans {x y z : α} (h : x < y) (k : y < z) : x < z := Trans.trans h k

private theorem lt_of_mem_dropWhile [DecidableLT α] {x z : α} :
    ∀ {ys : List α}, ys.Pairwise (· < ·) → z ∈ ys.dropWhile (fun y => ¬ x < y) → x < z
  | y :: ys, hs, h => by
    rw [List.pairwise_cons] at hs
    rw [List.dropWhile_cons] at h
    split at h
    · exact lt_of_mem_dropWhile hs.2 h
    · rename_i hy
      have hxy : x < y := by simpa using hy
      rcases List.mem_cons.1 h with rfl | h
      · exact hxy
      · exact lt_trans hxy (hs.1 z h)

private theorem mem_takeWhile_of_lt [DecidableLT α] {x z : α} (hzx : z < x) :
    ∀ {ys : List α}, ys.Pairwise (· < ·) → z ∈ ys → z ∈ ys.takeWhile (· < x)
  | y :: ys, hs, h => by
    rw [List.pairwise_cons] at hs
    rw [List.takeWhile_cons]
    rcases List.mem_cons.1 h with rfl | h
    · simp [hzx]
    · simp [lt_trans (hs.1 z h) hzx, mem_takeWhile_of_lt hzx hs.2 h]

private theorem pairwise_mergeLists [DecidableLT α] :
    ∀ {xs ys : List α}, xs.Pairwise (· < ·) → ys.Pairwise (· < ·) →
      (mergeLists xs ys).Pairwise (· < ·)
  | [], _, _, hy => hy
  | x :: xs, ys, hx, hy => by
    rw [List.pairwise_cons] at hx
    have hrest : ∀ z ∈ mergeLists xs (ys.dropWhile fun y => ¬ x < y), x < z := by
      intro z hz
      rcases mem_of_mem_mergeLists hz with hz | hz
      · exact hx.1 z hz
      · exact lt_of_mem_dropWhile hy hz
    rw [mergeLists, List.pairwise_append, List.pairwise_cons]
    refine ⟨hy.sublist (List.takeWhile_sublist _),
      ⟨hrest, pairwise_mergeLists hx.2 (hy.sublist (List.dropWhile_sublist _))⟩, ?_⟩
    intro a ha b hb
    have hax := lt_of_mem_takeWhile ha
    rcases List.mem_cons.1 hb with rfl | hb
    · exact hax
    · exact lt_trans hax (hrest b hb)

private theorem toList_eq_of_mem_iff [Std.Irrefl (α := α) (· < ·)] :
    ∀ {xs ys : List α}, xs.Pairwise (· < ·) → ys.Pairwise (· < ·) → (∀ z, z ∈ xs ↔ z ∈ ys) →
      xs = ys
  | [], [], _, _, _ => rfl
  | [], y :: ys, _, _, h => by simpa using h y
  | x :: xs, [], _, _, h => by simpa using h x
  | x :: xs, y :: ys, hx, hy, h => by
    rw [List.pairwise_cons] at hx hy
    have hirr : ∀ a : α, ¬ a < a := Std.Irrefl.irrefl
    have hxy : x = y := by
      rcases List.mem_cons.1 ((h x).1 (by simp)) with hxy | hxy
      · exact hxy
      · rcases List.mem_cons.1 ((h y).2 (by simp)) with hyx | hyx
        · exact hyx.symm
        · exact absurd (lt_trans (hx.1 y hyx) (hy.1 x hxy)) (hirr x)
    subst hxy
    refine congrArg _ (toList_eq_of_mem_iff hx.2 hy.2 fun z => ⟨fun hz => ?_, fun hz => ?_⟩)
    · exact (List.mem_cons.1 ((h z).1 (by simp [hz]))).resolve_left
        fun e => hirr x (e ▸ hx.1 z hz)
    · exact (List.mem_cons.1 ((h z).2 (by simp [hz]))).resolve_left
        fun e => hirr x (e ▸ hy.1 z hz)

/-- Sets with the same members are equal. -/
theorem ext [Std.Irrefl (α := α) (· < ·)] {s t : OrderedSet α} (h : ∀ x, x ∈ s ↔ x ∈ t) : s = t :=
  toList_inj.1 (toList_eq_of_mem_iff s.ascending t.ascending h)

/-- The members of either set. -/
def union [DecidableLT α] (s t : OrderedSet α) : OrderedSet α :=
  ⟨mergeLists s.toList t.toList, pairwise_mergeLists s.ascending t.ascending⟩

instance [DecidableLT α] : Union (OrderedSet α) := ⟨union⟩

def insert [DecidableLT α] (x : α) (s : OrderedSet α) : OrderedSet α :=
  ⟨[x], List.pairwise_singleton _ x⟩ ∪ s

/-- The set of a list's members. -/
def ofList [DecidableLT α] (xs : List α) : OrderedSet α := xs.foldr insert ∅

private theorem mem_sharedLists [DecidableLT α] [DecidableEq α] [Std.Irrefl (α := α) (· < ·)]
    {z : α} :
    ∀ {xs ys : List α}, xs.Pairwise (· < ·) → ys.Pairwise (· < ·) →
      (z ∈ sharedLists xs ys ↔ z ∈ xs ∧ z ∈ ys)
  | [], _, _, _ => by simp [sharedLists]
  | x :: xs, ys, hx, hy => by
    rw [List.pairwise_cons] at hx
    have hirr : ∀ a : α, ¬ a < a := Std.Irrefl.irrefl
    have hdrop := hy.sublist (List.dropWhile_sublist (· < x))
    have hrest : z ∈ xs → (z ∈ ys.dropWhile (· < x) ↔ z ∈ ys) := fun hz =>
      mem_dropWhile_iff fun hzx => hirr z (lt_trans hzx (hx.1 z hz))
    rw [sharedLists]
    split
    · rename_i h
      rw [head?_dropWhile_eq_some hy] at h
      rw [List.mem_cons, mem_sharedLists hx.2 hdrop, List.mem_cons]
      by_cases hzx : z = x
      · simp [hzx, h]
      · simp only [hzx, false_or]
        exact and_congr_right hrest
    · rename_i h
      rw [head?_dropWhile_eq_some hy] at h
      rw [mem_sharedLists hx.2 hdrop, List.mem_cons]
      by_cases hzx : z = x
      · subst hzx
        exact ⟨fun k => absurd (hx.1 z k.1) (hirr z), fun k => absurd k.2 h⟩
      · simp only [hzx, false_or]
        exact and_congr_right hrest

@[simp] theorem mem_inter [DecidableLT α] [DecidableEq α] [Std.Irrefl (α := α) (· < ·)]
    {s t : OrderedSet α} {x : α} : x ∈ s.inter t ↔ x ∈ s ∧ x ∈ t :=
  mem_sharedLists s.ascending t.ascending

variable [Std.Trichotomous (α := α) (· < ·)]

private theorem mem_mergeLists_of_mem [DecidableLT α] {z : α} :
    ∀ {xs ys : List α}, ys.Pairwise (· < ·) → z ∈ xs ∨ z ∈ ys → z ∈ mergeLists xs ys
  | [], _, _, h => by simpa [mergeLists] using h
  | x :: xs, ys, hy, h => by
    have hdrop := hy.sublist (List.dropWhile_sublist fun y => ¬ x < y)
    rw [mergeLists, List.mem_append, List.mem_cons]
    rcases h with h | h
    · rcases List.mem_cons.1 h with rfl | h
      · exact Or.inr (Or.inl rfl)
      · exact Or.inr (Or.inr (mem_mergeLists_of_mem hdrop (Or.inl h)))
    · by_cases hxz : x < z
      · exact Or.inr (Or.inr (mem_mergeLists_of_mem hdrop (Or.inr (mem_dropWhile_of_lt hxz h))))
      · by_cases hzx : z < x
        · exact Or.inl (mem_takeWhile_of_lt hzx hy h)
        · exact Or.inr (Or.inl (Std.Trichotomous.trichotomous z x hzx hxz))

@[simp] theorem mem_union [DecidableLT α] {s t : OrderedSet α} {x : α} :
    x ∈ s ∪ t ↔ x ∈ s ∨ x ∈ t :=
  ⟨mem_of_mem_mergeLists, mem_mergeLists_of_mem t.ascending⟩

@[simp] theorem mem_insert [DecidableLT α] {s : OrderedSet α} {x y : α} :
    x ∈ s.insert y ↔ x = y ∨ x ∈ s := by
  rw [insert, mem_union]
  exact or_congr_left List.mem_singleton

@[simp] theorem mem_ofList [DecidableLT α] {xs : List α} {x : α} : x ∈ ofList xs ↔ x ∈ xs := by
  induction xs with
  | nil => simp [ofList]
  | cons y ys ih => simpa [ofList] using or_congr_right ih

end OrderedSet

end GrammarLookahead
