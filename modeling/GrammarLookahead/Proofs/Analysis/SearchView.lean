import Mathlib.Logic.Function.Basic
import GrammarLookahead.Analysis.Search
import GrammarLookahead.Proofs.Analysis.Equations

/-!
What a search knows of its keys: the value of each key, which keys are finished and which results
wait. The three tables of a search enter the theory of its steps through these views only.
-/

namespace GrammarLookahead.Search

/-- What is known of the keys at some point of a search. -/
structure View where
  /-- The finished result of a key, or else its provisional value. -/
  value : Family
  finished : Key → Prop
  pending : Key → Option (LookaheadSet × Nat)

/-- The finished result of a key, or else its provisional value. -/
def value (s : Search) : Family := fun key =>
  s.memory.cache[key]?.getD (s.provisional.getD key (.empty key.depth))

def view (s : Search) : View := ⟨s.value, (· ∈ s.memory.cache), fun key => s.pending[key]?⟩

variable {g : Grammar} {s : Search} {key q : Key} {keys : List Key} {result : LookaheadSet}
  {round : Round}

theorem value_of_cache (h : s.memory.cache[key]? = some result) : s.value key = result := by
  unfold value
  rw [h, Option.getD_some]

theorem value_of_not_mem (h : key ∉ s.memory.cache) :
    s.value key = s.provisional.getD key (.empty key.depth) := by
  unfold value
  rw [Std.HashMap.getElem?_eq_none h, Option.getD_none]

/-- A new provisional value of an unfinished key. -/
theorem value_insert {t : Search} (h : key ∉ s.memory.cache)
    (hcache : t.memory.cache = s.memory.cache)
    (hprovisional : t.provisional = s.provisional.insert key result) :
    t.value = Function.update s.value key result := by
  funext q
  by_cases hq : q = key
  · subst hq
    rw [Function.update_self, value_of_not_mem (hcache ▸ h), hprovisional,
      Std.HashMap.getD_insert_self]
  · rw [Function.update_of_ne hq]
    simp [value, hcache, hprovisional, Std.HashMap.getD_insert, Ne.symm hq]

/-- A finished result becomes the value of its key. -/
theorem value_finish {t : Search} (hcache : t.memory.cache = s.memory.cache.insert key result)
    (hprovisional : t.provisional = s.provisional.erase key) :
    t.value = Function.update s.value key result := by
  funext q
  by_cases hq : q = key
  · subst hq
    rw [Function.update_self]
    exact value_of_cache (by rw [hcache, Std.HashMap.getElem?_insert_self])
  · rw [Function.update_of_ne hq]
    simp [value, hcache, hprovisional, Std.HashMap.getElem?_insert, Std.HashMap.getD_erase,
      Ne.symm hq]

theorem mem_cache_finish : q ∈ (s.memory.finish key result).cache ↔ q ∈ s.memory.cache ∨ q = key := by
  unfold Memory.finish
  rw [Std.HashMap.mem_insert, beq_iff_eq, or_comm, eq_comm]

theorem finishPending_of_pending {floor : Nat} (h : s.pending[key]? = some (result, floor)) :
    s.finishPending key =
      { s with
        pending := s.pending.erase key
        provisional := s.provisional.erase key
        memory := s.memory.finish key result } := by
  simp [finishPending, h]

/-- Finishing results that wait changes the three tables and nothing else. -/
theorem foldl_finishPending_eq (keys : List Key) (s : Search) :
    ∃ pending provisional cache, keys.foldl finishPending s =
      { s with
        pending := pending
        provisional := provisional
        memory := { s.memory with cache := cache } } := by
  induction keys generalizing s with
  | nil => exact ⟨s.pending, s.provisional, s.memory.cache, rfl⟩
  | cons k keys ih =>
    obtain ⟨pending, provisional, cache, h⟩ := ih (s.finishPending k)
    refine ⟨pending, provisional, cache, h.trans ?_⟩
    unfold finishPending
    split
    · rfl
    · rfl

theorem view_finishPending {floor : Nat} (h : s.pending[key]? = some (s.value key, floor)) :
    (s.finishPending key).view =
      ⟨s.value, fun q => q ∈ s.memory.cache ∨ q = key,
        fun q => if q = key then none else s.pending[q]?⟩ := by
  rw [finishPending_of_pending h, View.mk.injEq]
  refine ⟨?_, funext fun q => propext mem_cache_finish, funext fun q => ?_⟩
  · exact (value_finish rfl rfl).trans (Function.update_eq_self key s.value)
  · show (s.pending.erase key)[q]? = _
    rw [Std.HashMap.getElem?_erase]
    by_cases hq : q = key
    · simp [hq]
    · simp [hq, Ne.symm hq]

/-- Finishing results that wait leaves all values as they are. -/
theorem view_foldl_finishPending (hnodup : keys.Nodup)
    (hpending : ∀ k ∈ keys, ∃ f, s.pending[k]? = some (s.value k, f)) :
    (keys.foldl finishPending s).view =
      ⟨s.value, fun q => q ∈ s.memory.cache ∨ q ∈ keys,
        fun q => if q ∈ keys then none else s.pending[q]?⟩ := by
  induction keys generalizing s with
  | nil => simp [view]
  | cons k keys ih =>
    rw [List.nodup_cons] at hnodup
    obtain ⟨f, hk⟩ := hpending k (by simp)
    have hview := view_finishPending hk
    have hvalue : (s.finishPending k).value = s.value := congrArg View.value hview
    have hfinished : ∀ q, q ∈ (s.finishPending k).memory.cache ↔ q ∈ s.memory.cache ∨ q = k :=
      fun q => iff_of_eq (congrFun (congrArg View.finished hview) q)
    have hwaits : ∀ q, (s.finishPending k).pending[q]? = if q = k then none else s.pending[q]? :=
      congrFun (congrArg View.pending hview)
    have hrest : ∀ q ∈ keys, ∃ f, (s.finishPending k).pending[q]? =
        some ((s.finishPending k).value q, f) := by
      intro q hq
      obtain ⟨f, hf⟩ := hpending q (by simp [hq])
      have hne : q ≠ k := fun h => hnodup.1 (h ▸ hq)
      exact ⟨f, by rw [hwaits, if_neg hne, hvalue, hf]⟩
    rw [List.foldl_cons, ih hnodup.2 hrest, View.mk.injEq]
    refine ⟨hvalue, funext fun q => ?_, funext fun q => ?_⟩
    · simp only [hfinished, or_assoc, List.mem_cons]
    · rw [hwaits]
      by_cases hq : q = k
      · simp [hq]
      · simp [hq]

theorem getElem?_foldl_erase {pending : Std.HashMap Key (LookaheadSet × Nat)} :
    (keys.foldl (·.erase ·) pending)[q]? = if q ∈ keys then none else pending[q]? := by
  induction keys generalizing pending with
  | nil => simp
  | cons k keys ih =>
    rw [List.foldl_cons, ih, Std.HashMap.getElem?_erase]
    by_cases hq : k = q
    · simp [hq]
    · simp [hq, Ne.symm hq]

/-- A result that waits, with its floor lowered. -/
def lower (floor : Nat) (entry : LookaheadSet × Nat) : LookaheadSet × Nat :=
  (entry.1, min entry.2 floor)

theorem getElem?_foldl_lower {pending : Std.HashMap Key (LookaheadSet × Nat)} {floor : Nat} :
    (keys.foldl (fun p k => p.modify k fun (r, f) => (r, min f floor)) pending)[q]? =
      if q ∈ keys then pending[q]?.map (lower floor) else pending[q]? := by
  induction keys generalizing pending with
  | nil => simp
  | cons k keys ih =>
    have htwice : lower floor ∘ (fun x : LookaheadSet × Nat => (x.1, min x.2 floor)) =
        lower floor := by
      funext x
      simp [lower]
    rw [List.foldl_cons, ih, Std.HashMap.getElem?_modify]
    by_cases hq : k = q
    · subst hq
      by_cases hmem : k ∈ keys
      · simp [hmem, Option.map_map, htwice]
      · simp [hmem]
        rfl
    · simp [hq, Ne.symm hq]

/-- Whether the provisional value that was read for the key of a round has grown. -/
def grew (s : Search) (round : Round) (result : LookaheadSet) : Bool :=
  round.reentered && grows s.provisional[round.key]? result

/-- The search with the grown provisional value. -/
def grow (s : Search) (round : Round) (result : LookaheadSet) : Search :=
  if s.grew round result then { s with provisional := s.provisional.insert round.key result } else s

@[simp] theorem stack_grow : (s.grow round result).stack = s.stack := by
  unfold grow
  split <;> rfl

@[simp] theorem memory_grow : (s.grow round result).memory = s.memory := by
  unfold grow
  split <;> rfl

@[simp] theorem pending_grow : (s.grow round result).pending = s.pending := by
  unfold grow
  split <;> rfl

theorem settle_eq : s.settle g round result =
    match round.floor.filter (· < s.stack.length) with
    | some floor =>
      (s.grow round result).postpone round result (round.unstable || s.grew round result) floor
    | none =>
      if round.unstable || s.grew round result then (s.grow round result).again g round
      else (s.grow round result).commit round result := by
  rw [← @stack_grow s result round]
  rfl

theorem grew_iff (h : round.key ∉ s.memory.cache) (hdepth : result.depth = round.key.depth) :
    s.grew round result = true ↔ round.reentered = true ∧ s.value round.key ≠ result := by
  unfold grew
  rw [Bool.and_eq_true, value_of_not_mem h, Std.HashMap.getD_eq_getD_getElem?]
  apply and_congr_right
  intro _
  cases hseed : s.provisional[round.key]? with
  | none =>
    rw [grows, Option.getD_none, ← hdepth, Bool.not_eq_true', ← Bool.not_eq_true,
      LookaheadSet.isEmpty_iff]
    exact not_congr eq_comm
  | some seed => simp [grows]

theorem view_again : ((s.grow round result).again g round).view =
    ⟨(s.grow round result).value, (· ∈ s.memory.cache),
      fun q => if q ∈ round.waiting then none else s.pending[q]?⟩ := by
  rw [View.mk.injEq]
  refine ⟨rfl, ?_, ?_⟩
  · funext q
    show (q ∈ (s.grow round result).memory.cache) = (q ∈ s.memory.cache)
    rw [memory_grow]
  · funext q
    rw [← @pending_grow s result round]
    exact getElem?_foldl_erase

theorem stack_commit : ((s.grow round result).commit round result).stack = s.stack := by
  obtain ⟨_, _, _, heq⟩ := foldl_finishPending_eq round.waiting (s.grow round result)
  unfold commit
  rw [heq, ← @stack_grow s result round]

theorem leftRecursive_commit : ((s.grow round result).commit round result).memory.leftRecursive =
    s.memory.leftRecursive := by
  obtain ⟨_, _, _, heq⟩ := foldl_finishPending_eq round.waiting (s.grow round result)
  unfold commit Memory.finish
  rw [heq, ← @memory_grow s result round]

section

variable (h : round.key ∉ s.memory.cache)
include h

theorem value_grow : (s.grow round result).value =
    if s.grew round result then Function.update s.value round.key result else s.value := by
  unfold grow
  split
  · exact value_insert h rfl rfl
  · rfl

/-- A key that a round has grown to a result, and that then gets the result. -/
theorem update_grow : Function.update (s.grow round result).value round.key result =
    Function.update s.value round.key result := by
  rw [value_grow h]
  split
  · exact Function.update_idem _ _ _
  · rfl

theorem view_postpone {unstable : Bool} {floor : Nat} :
    ((s.grow round result).postpone round result unstable floor).view =
      ⟨Function.update s.value round.key result, (· ∈ s.memory.cache),
        fun q => if q = round.key then some (result, floor)
          else if q ∈ round.waiting then s.pending[q]?.map (lower floor) else s.pending[q]?⟩ := by
  rw [View.mk.injEq]
  refine ⟨?_, ?_, ?_⟩
  · rw [← update_grow h]
    exact value_insert (by rwa [memory_grow]) rfl rfl
  · funext q
    show (q ∈ (s.grow round result).memory.cache) = (q ∈ s.memory.cache)
    rw [memory_grow]
  · funext q
    rw [← @pending_grow s result round]
    show (((round.waiting.foldl (fun p k => p.modify k fun (r, f) => (r, min f floor))
      (s.grow round result).pending).insert round.key (result, floor))[q]?) = _
    rw [Std.HashMap.getElem?_insert]
    by_cases hq : q = round.key
    · simp [hq]
    · rw [if_neg (by simpa using Ne.symm hq), if_neg hq, getElem?_foldl_lower]

theorem view_commit (hnodup : round.waiting.Nodup) (hkey : round.key ∉ round.waiting)
    (hpending : ∀ k ∈ round.waiting, ∃ f, s.pending[k]? = some (s.value k, f)) :
    ((s.grow round result).commit round result).view =
      ⟨Function.update s.value round.key result,
        fun q => q ∈ s.memory.cache ∨ q ∈ round.waiting ∨ q = round.key,
        fun q => if q ∈ round.waiting then none else s.pending[q]?⟩ := by
  have hgrown : ∀ k ∈ round.waiting,
      ∃ f, (s.grow round result).pending[k]? = some ((s.grow round result).value k, f) := by
    intro k hk
    have hne : k ≠ round.key := fun heq => hkey (heq ▸ hk)
    have hvalue : (s.grow round result).value k = s.value k := by
      rw [value_grow h]
      split
      · exact Function.update_of_ne hne _ _
      · rfl
    rw [pending_grow, hvalue]
    exact hpending k hk
  have hview := view_foldl_finishPending hnodup hgrown
  unfold commit
  generalize round.waiting.foldl finishPending (s.grow round result) = t at hview
  have hvalue : t.value = (s.grow round result).value := congrArg View.value hview
  have hcache : ∀ q, q ∈ t.memory.cache ↔ q ∈ s.memory.cache ∨ q ∈ round.waiting := fun q => by
    have := congrFun (congrArg View.finished hview) q
    rwa [memory_grow, eq_iff_iff] at this
  have hwaits : ∀ q, t.pending[q]? = if q ∈ round.waiting then none else s.pending[q]? :=
    fun q => by
    have := congrFun (congrArg View.pending hview) q
    rwa [pending_grow] at this
  rw [View.mk.injEq]
  refine ⟨?_, funext fun q => propext ?_, funext hwaits⟩
  · rw [← update_grow h, ← hvalue]
    exact value_finish rfl rfl
  · rw [← or_assoc, ← hcache]
    exact mem_cache_finish

end

end GrammarLookahead.Search
