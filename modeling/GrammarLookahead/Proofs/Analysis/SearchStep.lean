import GrammarLookahead.Proofs.Analysis.RoundEnd
import GrammarLookahead.Proofs.Analysis.SearchMeasure
import GrammarLookahead.Proofs.Analysis.SearchMove

/-!
Steps and runs of a search. Every step of a search that is not over keeps the invariant and makes
the measure smaller, so a search ends within its bound, with the least solution of its key. Main
statement: `Search.Invariant.run`.
-/

namespace GrammarLookahead.Search

variable {g : Grammar} {depth : Nat} {start : Key} {s : Search} {cost : Nat} {key q : Key}
  {v : View} {floor : Option Nat} {below below' rounds : List Round} {round : Round}
  {result : LookaheadSet} {stack : List Frame}

variable (g depth start) in
/-- A search that keeps the invariant and has fewer steps left than another one. -/
def Improves (s : Search) (cost : Nat) (t : Search) : Prop :=
  ∃ cost', Invariant g depth start t cost' ∧
    measure g depth t.view t.rounds cost' < measure g depth s.view s.rounds cost

theorem Scope.of_finished (h : v.finished q) : Scope v floor below q := by
  induction below with
  | nil => exact h
  | cons r below ih => exact Or.inr ih

theorem available_of_finished (h : v.finished q) : Available v stack q := by
  cases stack with
  | nil => exact h
  | cons f below => exact fun _ => Scope.of_finished h

theorem mem_held_iff : q ∈ held below ↔ (∃ r ∈ below, r.key = q) ∨ q ∈ waitingKeys below := by
  simp only [held, waitingKeys, List.mem_flatMap, List.mem_cons]
  constructor
  · rintro ⟨r, hr, rfl | hq⟩
    · exact Or.inl ⟨r, hr, rfl⟩
    · exact Or.inr ⟨r, hr, hq⟩
  · rintro (⟨r, hr, rfl⟩ | ⟨r, hr, hq⟩)
    · exact ⟨r, hr, Or.inl rfl⟩
    · exact ⟨r, hr, Or.inr hq⟩

theorem unstableCount_of_extends (h : List.Forall₂ Extends below below') :
    unstableCount below' = unstableCount below := by
  induction h with
  | nil => rfl
  | cons hr _ ih =>
    simp only [unstableCount, List.countP_cons, hr.unstable] at ih ⊢
    rw [ih]

/-- A round asks for a key and is suspended. -/
theorem Invariant.ask {resume : LookaheadSet → Reading LookaheadSet}
    (h : Invariant g depth start s cost) (hcontrol : s.control = .run round (.ask q resume)) :
    Improves g depth start s cost
      { s with control := .look q, stack := ⟨round, resume⟩ :: s.stack } := by
  have hrounds := rounds_of_run hcontrol
  have hkeys := h.keys
  obtain ⟨c, n, rfl, hround, hstack⟩ := h.of_run hcontrol
  obtain ⟨-, m, rfl, -⟩ := hround.meets _ (Grammar.Below.refl _) hkeys.below
  rw [hrounds] at hkeys
  refine ⟨c + 3 * m + 2 + 1, ⟨h.hasKey, hkeys, ⟨_, rfl, .cons hround hstack⟩⟩, ?_⟩
  rw [hrounds]
  exact measure_lt_of_cost (Nat.le_refl _) (Nat.le_refl _) (by omega)

/-- The topmost round goes on with the answer to its question. -/
theorem Invariant.resume {f : Frame} {frames : List Frame} (hg : g.Linked)
    (h : Invariant g depth start s cost) (hcontrol : s.control = .answer result)
    (hstack : s.stack = f :: frames) :
    Improves g depth start s cost
      { s with control := .run f.round (f.resume result), stack := frames } := by
  have hrounds : s.rounds = f.round :: frames.map Frame.round := by
    rw [rounds_of_answer hcontrol, hstack, List.map_cons]
  have hkeys := h.keys
  obtain ⟨q, hinv, rfl, havailable⟩ := h.of_answer hcontrol
  have hq := hinv.hasKey hg h.hasKey hkeys.below
  rw [hstack] at hinv havailable
  cases hinv with
  | @cons _ _ _ n c hround hbelow =>
    rw [hrounds] at hkeys
    refine ⟨c + 3 * n + 1, ⟨h.hasKey, hkeys, ⟨c, n, rfl, ?_, hbelow⟩⟩, ?_⟩
    · exact hround.answer hq havailable
    · rw [hrounds]
      exact measure_lt_of_cost (Nat.le_refl _) (Nat.le_refl _) (by omega)

/-- A key is answered with its value while suspended rounds come to rely on it. -/
theorem Invariant.answer {t : Search} (hg : g.Linked) (h : Invariant g depth start s cost)
    (hcontrol : s.control = .look key) (hview : t.view = s.view)
    (hstack : List.Forall₂ FrameExtends s.stack t.stack)
    (hanswer : t.control = .answer (s.value key)) (havailable : Available s.view t.stack key) :
    Improves g depth start s cost t := by
  have hrounds := rounds_of_look hcontrol
  have htrounds := rounds_of_answer hanswer
  have hvalue : t.value = s.value := congrArg View.value hview
  have hextends := forall₂_rounds hstack
  obtain ⟨c, rfl, hinv⟩ := h.of_look hcontrol
  refine ⟨c, ⟨h.hasKey, ?_, ?_⟩, ?_⟩
  · rw [htrounds, hview]
    exact (hrounds ▸ h.keys).extends hextends
  · unfold ControlInvariant
    rw [hanswer, hview, hvalue]
    exact ⟨key, hinv.mono hg (Grown.refl _ _) hstack, rfl, havailable⟩
  · rw [htrounds, hview, hrounds]
    refine measure_lt_of_cost ?_ (card_idle_le fun k hk => ?_) (Nat.lt_succ_self c)
    · rw [unstableCount_of_extends hextends]
    · rwa [held_eq_of_extends hextends]

/-- Noting a left recursion changes nothing but the recorded rules. -/
theorem noteLeftRecursion_eq (m : Memory) (key : Key) :
    ∃ rules, noteLeftRecursion g m key = { m with leftRecursive := rules } := by
  unfold noteLeftRecursion
  split
  · split
    · split
      · exact ⟨_, rfl⟩
      · exact ⟨_, rfl⟩
    · exact ⟨_, rfl⟩
  · exact ⟨_, rfl⟩

theorem cache_noteLeftRecursion (m : Memory) (key : Key) :
    (noteLeftRecursion g m key).cache = m.cache := by
  obtain ⟨rules, h⟩ := @noteLeftRecursion_eq g m key
  rw [h]

theorem Invariant.lookPending {number : Nat} (hg : g.Linked) (h : Invariant g depth start s cost)
    (hcontrol : s.control = .look key) (hpending : s.pending[key]? = some (result, number)) :
    Improves g depth start s cost
      { s.mapTop (·.lowerFloor number) with
        control := .answer result
        memory := s.memory.countCacheHit } := by
  obtain ⟨c, rfl, hinv⟩ := h.of_look hcontrol
  have hmem : key ∈ waitingKeys (s.stack.map Frame.round) :=
    rounds_of_look hcontrol ▸ h.keys.pending key _ hpending
  obtain ⟨f, hf, hscope⟩ := hinv.scope_of_waiting hmem
  obtain ⟨rfl, rfl⟩ : result = s.value key ∧ number = f :=
    Prod.mk.inj (Option.some.inj (hpending.symm.trans hf))
  have hframes := forall₂_mapTop (fun r => extends_lowerFloor r number) s.stack
  refine h.answer hg hcontrol rfl hframes rfl ?_
  show Available s.view (s.stack.modifyHead (Frame.mapRound (·.lowerFloor number))) key
  cases hstack : s.stack with
  | nil =>
    rw [hstack] at hmem
    simp [waitingKeys] at hmem
  | cons f below =>
    intro _
    rw [hstack] at hscope hframes
    exact (hscope _ (reaches_lowerFloor f.round number)).mono (fun _ => id) (fun _ => id)
      ((forall₂_rounds hframes).imp fun _ _ => Extends.covers)

theorem view_breakCycle {position : Nat} : (s.breakCycle g key position).view = s.view := by
  have hmemory : (s.breakCycle g key position).memory.cache = s.memory.cache :=
    cache_noteLeftRecursion _ key
  rw [View.mk.injEq]
  refine ⟨funext fun q => ?_, funext fun q => ?_, rfl⟩
  · show Option.getD ((s.breakCycle g key position).memory.cache[q]?) _ = _
    rw [hmemory]
    rfl
  · show (q ∈ (s.breakCycle g key position).memory.cache) = _
    rw [hmemory]
    rfl

/-- The mark on a suspended key and the lowered floor of the topmost round bring the key into the
scope of that round. -/
theorem available_of_marked {position : Nat} {f : Frame} (hf : stack[position]? = some f) :
    Available v ((stack.modify position (Frame.mapRound fun r =>
      { r with reentered := true })).modifyHead
        (Frame.mapRound (·.lowerFloor (stack.length - 1 - position)))) f.round.key := by
  have hmark : ((stack.modify position (Frame.mapRound fun r =>
      { r with reentered := true })).map Frame.round)[position]? =
      some { f.round with reentered := true } := by
    rw [List.getElem?_map, List.getElem?_modify_eq, hf]
    rfl
  have hlength : ((stack.modify position (Frame.mapRound fun r =>
      { r with reentered := true })).map Frame.round).length = stack.length := by
    rw [List.length_map, List.length_modify]
  generalize stack.modify position (Frame.mapRound fun r => { r with reentered := true }) =
    marked at hmark hlength ⊢
  have htop := forall₂_mapTop (fun r => extends_lowerFloor r (stack.length - 1 - position)) marked
  cases marked with
  | nil => simp at hmark
  | cons top below =>
    intro _
    have hscope := scope_of_reentered (v := v) hmark rfl (by
      rw [hlength]
      exact reaches_lowerFloor top.round _)
    exact hscope.mono (fun _ => id) (fun _ => id)
      ((forall₂_rounds htop).imp fun _ _ => Extends.covers)

theorem forall₂_breakCycle (position : Nat) :
    List.Forall₂ FrameExtends s.stack (s.breakCycle g key position).stack :=
  forall₂_frameExtends_trans (forall₂_modify extends_reenter s.stack position)
    (forall₂_mapTop (fun r => extends_lowerFloor r (s.stack.length - 1 - position)) _)

theorem Invariant.breakCycle {position : Nat} (hg : g.Linked) (h : Invariant g depth start s cost)
    (hcontrol : s.control = .look key) (hcache : key ∉ s.memory.cache)
    (hposition : s.stack.findIdx? (·.round.key = key) = some position) :
    Improves g depth start s cost (s.breakCycle g key position) := by
  obtain ⟨f, hf, hkey⟩ := exists_suspended hposition
  refine h.answer hg hcontrol view_breakCycle (forall₂_breakCycle position) ?_ ?_
  · rw [value_of_not_mem hcache]
    rfl
  · rw [← hkey]
    exact available_of_marked hf

/-- A key that neither waits nor is suspended is held by no round. -/
theorem Invariant.not_mem_held (h : Invariant g depth start s cost)
    (hcontrol : s.control = .look key) (hpending : s.pending[key]? = none)
    (hactive : ∀ f ∈ s.stack, f.round.key ≠ key) : key ∉ held (s.stack.map Frame.round) := by
  obtain ⟨c, -, hinv⟩ := h.of_look hcontrol
  rw [mem_held_iff]
  rintro (⟨r, hr, heq⟩ | hmem)
  · obtain ⟨f, hf, rfl⟩ := List.mem_map.1 hr
    exact hactive f hf heq
  · obtain ⟨f, hf, -⟩ := hinv.scope_of_waiting hmem
    exact absurd (hpending.symm.trans hf) (by simp)

theorem Invariant.begin (hg : g.Linked) (h : Invariant g depth start s cost)
    (hcontrol : s.control = .look key) (hcache : key ∉ s.memory.cache)
    (hpending : s.pending[key]? = none) (hactive : ∀ f ∈ s.stack, f.round.key ≠ key) :
    Improves g depth start s cost (s.begin g key) := by
  have hrounds := rounds_of_look hcontrol
  have hidle := h.not_mem_held hcontrol hpending hactive
  have hkeys := h.keys
  obtain ⟨c, rfl, hinv⟩ := h.of_look hcontrol
  rw [hrounds] at hkeys
  have hkey : g.HasKey depth key := hinv.hasKey hg h.hasKey hkeys.below
  have hnew : KeyInvariant g depth s.view ({ key } :: s.stack.map Frame.round) := by
    refine ⟨hkeys.below, hkeys.grows, hkeys.exact, hkeys.closed, ?_, ?_, ?_, hkeys.pending⟩
    · exact List.nodup_cons.2 ⟨hidle, hkeys.nodup⟩
    · intro k hk
      rcases List.mem_cons.1 hk with rfl | hk
      · exact hkey
      · exact hkeys.hasKey k hk
    · intro k hk
      rcases List.mem_cons.1 hk with rfl | hk
      · exact hcache
      · exact hkeys.unfinished k hk
  refine ⟨c + 3 * readBound g depth + 1, ⟨h.hasKey, hnew, ⟨c, _, rfl, ?_, hinv⟩⟩, ?_⟩
  · exact RoundInvariant.begin hg hkey hkeys.grows
  · rw [hrounds]
    refine measure_lt_of_begin ?_ (card_idle_lt ?_ hkey ⟨hcache, hidle⟩ ?_) ?_
    · simp [unstableCount, rounds, Search.begin]
    · exact fun k hk => mem_held_cons.2 (Or.inr (Or.inr hk))
    · exact mem_held_cons.2 (Or.inl rfl)
    · rw [roundCost]
      omega

theorem unstableCount_cons (round : Round) (rounds : List Round) :
    unstableCount (round :: rounds) = unstableCount rounds + round.unstable.toNat := by
  cases h : round.unstable <;> simp [unstableCount, h]

section

variable (hg : g.Linked) (h : Invariant g depth start s cost)
  (hcontrol : s.control = .run round (.done result))
include hg h hcontrol

/-- What is known when a round ends. -/
theorem Invariant.ended : ∃ c n, cost = c + 3 * n + 1 ∧
    KeyInvariant g depth s.view (round :: s.stack.map Frame.round) ∧
    RoundInvariant g depth s.view (s.stack.map Frame.round) round n (.done result) ∧
    StackInvariant g depth s.view start s.stack round.key c ∧
    Admissible g s.view round.key result ∧ round.key ∉ s.memory.cache ∧
    (s.grew round result = true ↔ round.reentered = true ∧ s.value round.key ≠ result) := by
  have hkeys := h.keys
  rw [rounds_of_run hcontrol] at hkeys
  obtain ⟨c, n, rfl, hround, hstack⟩ := h.of_run hcontrol
  have hresult := hround.result_bounds hg hkeys.below
  have hcache : round.key ∉ s.memory.cache := hkeys.unfinished _ (by simp)
  exact ⟨c, n, rfl, hkeys, hround, hstack, hresult, hcache, grew_iff hcache hresult.below.1⟩

omit hg h hcontrol in
theorem rounds_again : ((s.grow round result).again g round).rounds =
    { key := round.key } :: s.stack.map Frame.round := by
  show { key := round.key } :: (s.grow round result).stack.map Frame.round = _
  rw [stack_grow]

omit hg h hcontrol in
theorem pending_again : ((s.grow round result).again g round).view.pending q =
    if q ∈ round.waiting then none else s.view.pending q := by
  rw [view_again]
  rfl

omit hg h hcontrol in
theorem finished_again :
    ((s.grow round result).again g round).view.finished = s.view.finished := by
  rw [view_again]
  rfl

/-- A round begins again with the result as its value if it has grown, and with the old value
otherwise. -/
theorem Invariant.value_again : ∃ a, Admissible g s.view round.key a ∧
    ((s.grow round result).again g round).view.value =
      Function.update s.view.value round.key a := by
  obtain ⟨c, n, rfl, hkeys, hround, hstack, hresult, hcache, -⟩ := h.ended hg hcontrol
  have hvalue : ((s.grow round result).again g round).view.value =
      if s.grew round result then Function.update s.value round.key result else s.value := by
    rw [view_again]
    exact value_grow hcache
  rw [hvalue]
  by_cases hgrew : s.grew round result = true
  · exact ⟨result, hresult, if_pos hgrew⟩
  · refine ⟨s.value round.key, .value hkeys.below hkeys.grows hround.key, ?_⟩
    rw [if_neg hgrew]
    exact (Function.update_eq_self round.key s.value).symm

theorem Invariant.grown_again : Grown g depth s.view ((s.grow round result).again g round).view
    (s.stack.map Frame.round) := by
  obtain ⟨c, n, rfl, hkeys, -⟩ := h.ended hg hcontrol
  obtain ⟨a, ha, hvalue⟩ := h.value_again hg hcontrol
  exact hkeys.grown_drop ha.above hvalue (fun q hq => (congrFun finished_again q).mpr hq)
    fun _ => pending_again

theorem Invariant.keys_again : KeyInvariant g depth ((s.grow round result).again g round).view
    ({ key := round.key } :: s.stack.map Frame.round) := by
  obtain ⟨c, n, rfl, hkeys, -⟩ := h.ended hg hcontrol
  obtain ⟨a, ha, hvalue⟩ := h.value_again hg hcontrol
  exact hkeys.again hg ha hvalue finished_again fun _ => pending_again

/-- A round that was not unstable before is repeated for a member that its value has gained. -/
theorem Invariant.missing_again (hunstable : (round.unstable || s.grew round result) = true) :
    missing g depth ((s.grow round result).again g round).view <
      missing g depth s.view + round.unstable.toNat := by
  have hle := (h.grown_again hg hcontrol).value
  have hkeys' := h.keys_again hg hcontrol
  obtain ⟨_, _, -, -, hround, -, -, hcache, hgrew⟩ := h.ended hg hcontrol
  cases hu : round.unstable with
  | true => exact Nat.lt_succ_of_le (missing_le hle)
  | false =>
    have hgrew' : s.grew round result = true := by rwa [hu, Bool.false_or] at hunstable
    have hnew : ((s.grow round result).again g round).view.value round.key = result := by
      rw [view_again, value_grow hcache, if_pos hgrew']
      exact Function.update_self _ _ _
    refine missing_lt hg hle hkeys'.below hround.key ?_
    rw [hnew]
    exact (hgrew.1 hgrew').2

theorem Invariant.again (hunstable : (round.unstable || s.grew round result) = true) :
    Improves g depth start s cost ((s.grow round result).again g round) := by
  have hgrown := h.grown_again hg hcontrol
  have hkeys' := h.keys_again hg hcontrol
  have hmissing := h.missing_again hg hcontrol hunstable
  obtain ⟨c, n, rfl, hkeys, hround, hstack, -⟩ := h.ended hg hcontrol
  have hstack' : ((s.grow round result).again g round).stack = s.stack := stack_grow
  have hrounds' := @rounds_again g s round result
  have hfinished := @finished_again g s round result
  have hcontrol' : ((s.grow round result).again g round).control =
      .run { key := round.key } (g.expand round.key) := rfl
  generalize (s.grow round result).again g round = t at *
  refine ⟨c + 3 * readBound g depth + 1, ⟨h.hasKey, hrounds' ▸ hkeys', ?_⟩, ?_⟩
  · unfold ControlInvariant
    rw [hcontrol']
    refine ⟨c, _, rfl, ?_, ?_⟩
    · exact RoundInvariant.begin hg hround.key hkeys'.grows
    · rw [hstack']
      exact hstack.mono hg hgrown (forall₂_frameExtends_refl _)
  · rw [rounds_of_run hcontrol, hrounds']
    refine measure_lt_of_again ?_ (card_idle_le_add round.waiting fun k hk => ?_) ?_ ?_
    · rw [unstableCount_cons, unstableCount_cons, Bool.toNat_false]
      omega
    · rw [hfinished]
      rcases hk with hk | hk
      · exact Or.inl (Or.inl hk)
      · rcases mem_held_cons.1 hk with rfl | hk | hk
        · exact Or.inl (Or.inr (mem_held_cons.2 (Or.inl rfl)))
        · exact Or.inr hk
        · exact Or.inl (Or.inr (mem_held_cons.2 (Or.inr (Or.inr hk))))
    · have := length_held_le hkeys
      rw [held, List.flatMap_cons, List.length_append, List.length_cons] at this
      omega
    · rw [roundCost]
      omega

/-- Where neither the round nor its result calls for a repetition, the value that was read for the
key of the round is its result. -/
theorem Invariant.stable (hstable : (round.unstable || s.grew round result) = false) :
    round.unstable = false ∧ (round.reentered = true → s.view.value round.key = result) := by
  obtain ⟨-, -, -, -, -, -, -, -, hgrew⟩ := h.ended hg hcontrol
  obtain ⟨hunstable, hnot⟩ := Bool.or_eq_false_iff.1 hstable
  refine ⟨hunstable, fun hreentered => ?_⟩
  by_contra hne
  exact absurd (hgrew.2 ⟨hreentered, hne⟩) (by simp [hnot])

theorem Invariant.view_commit : ((s.grow round result).commit round result).view =
    ⟨Function.update s.value round.key result,
      fun q => q ∈ s.memory.cache ∨ q ∈ round.waiting ∨ q = round.key,
      fun q => if q ∈ round.waiting then none else s.pending[q]?⟩ := by
  obtain ⟨c, n, rfl, hkeys, hround, -, -, hcache, -⟩ := h.ended hg hcontrol
  obtain ⟨hkey, hnodup, -⟩ := hkeys.apart
  exact Search.view_commit hcache hnodup hkey fun k hk => (hround.waits k hk).imp fun _ hf => hf.1

theorem Invariant.mem_cache_commit :
    key ∈ ((s.grow round result).commit round result).memory.cache ↔
      key ∈ s.memory.cache ∨ key ∈ round.waiting ∨ key = round.key :=
  iff_of_eq (congrFun (congrArg View.finished (h.view_commit hg hcontrol)) key)

omit hg h hcontrol in
theorem rounds_commit :
    ((s.grow round result).commit round result).rounds = s.stack.map Frame.round :=
  congrArg (List.map Frame.round) stack_commit

theorem Invariant.grown_commit : Grown g depth s.view
    ((s.grow round result).commit round result).view (s.stack.map Frame.round) := by
  have hview := h.view_commit hg hcontrol
  obtain ⟨c, n, rfl, hkeys, -, -, hresult, -⟩ := h.ended hg hcontrol
  rw [hview]
  exact hkeys.grown_drop hresult.above rfl (fun q => Or.inl) fun _ => rfl

theorem Invariant.keys_commit (hstable : (round.unstable || s.grew round result) = false)
    (hfloor : ∀ f, round.floor = some f → s.stack.length ≤ f) :
    KeyInvariant g depth ((s.grow round result).commit round result).view
      (s.stack.map Frame.round) := by
  obtain ⟨hunstable, hsame⟩ := h.stable hg hcontrol hstable
  have hview := h.view_commit hg hcontrol
  obtain ⟨c, n, rfl, hkeys, hround, -⟩ := h.ended hg hcontrol
  rw [hview]
  exact hkeys.commit hround hunstable hsame (by rwa [List.length_map]) rfl (fun _ => Iff.rfl) hg
    fun _ => rfl

theorem Invariant.commit (hstable : (round.unstable || s.grew round result) = false)
    (hfloor : ∀ f, round.floor = some f → s.stack.length ≤ f) :
    Improves g depth start s cost ((s.grow round result).commit round result) := by
  obtain ⟨hunstable, -⟩ := h.stable hg hcontrol hstable
  have hview := h.view_commit hg hcontrol
  have hstack' := @stack_commit s result round
  have hrounds' := @rounds_commit s round result
  have hgrown := h.grown_commit hg hcontrol
  have hkeys' := h.keys_commit hg hcontrol hstable hfloor
  obtain ⟨c, n, rfl, hkeys, hround, hstack, hresult, hcache, -⟩ := h.ended hg hcontrol
  have hcontrol' : ((s.grow round result).commit round result).control = .answer result := rfl
  generalize (s.grow round result).commit round result = t at *
  have hvalue : t.view.value = Function.update s.view.value round.key result := by rw [hview]; rfl
  have hfinished : ∀ q, t.view.finished q ↔
      s.view.finished q ∨ q ∈ round.waiting ∨ q = round.key := by
    rw [hview]
    exact fun _ => Iff.rfl
  refine ⟨c, ⟨h.hasKey, hrounds' ▸ hkeys', ?_⟩, ?_⟩
  · unfold ControlInvariant
    rw [hcontrol']
    refine ⟨round.key, ?_, ?_, available_of_finished ((hfinished _).2 (Or.inr (Or.inr rfl)))⟩
    · rw [hstack']
      exact hstack.mono hg hgrown (forall₂_frameExtends_refl _)
    · show result = t.view.value round.key
      rw [hvalue, Function.update_self]
  · rw [rounds_of_run hcontrol, hrounds']
    refine measure_lt_of_cost ?_ (card_idle_le fun k hk => ?_) (by omega)
    · have := missing_le hgrown.value
      rw [unstableCount_cons, hunstable, Bool.toNat_false]
      omega
    · rw [hfinished]
      rcases hk with hk | hk
      · exact Or.inl (Or.inl hk)
      · rcases mem_held_cons.1 hk with rfl | hk | hk
        · exact Or.inl (Or.inr (Or.inr rfl))
        · exact Or.inl (Or.inr (Or.inl hk))
        · exact Or.inr hk

omit hg h hcontrol in
theorem stack_postpone {f : Frame} {frames : List Frame} {unstable : Bool} {floor : Nat}
    (hframes : s.stack = f :: frames) :
    ((s.grow round result).postpone round result unstable floor).stack =
      ⟨receive f.round round floor unstable, f.resume⟩ :: frames := by
  show ((s.grow round result).stack).modifyHead _ = _
  rw [stack_grow, hframes]
  rfl

omit hg h hcontrol in
theorem rounds_postpone {f : Frame} {frames : List Frame} {unstable : Bool} {floor : Nat}
    (hframes : s.stack = f :: frames) :
    ((s.grow round result).postpone round result unstable floor).rounds =
      receive f.round round floor unstable :: frames.map Frame.round :=
  congrArg (List.map Frame.round) (stack_postpone hframes)

theorem Invariant.grown_postpone (unstable : Bool) (floor : Nat) : Grown g depth s.view
    ((s.grow round result).postpone round result unstable floor).view
    (s.stack.map Frame.round) := by
  obtain ⟨c, n, rfl, hkeys, -, -, hresult, hcache, -⟩ := h.ended hg hcontrol
  rw [view_postpone hcache]
  exact hkeys.grown_postpone hresult.above rfl rfl fun _ => rfl

theorem Invariant.keys_postpone {f : Frame} {frames : List Frame} (hframes : s.stack = f :: frames)
    (unstable : Bool) (floor : Nat) :
    KeyInvariant g depth ((s.grow round result).postpone round result unstable floor).view
      (receive f.round round floor unstable :: frames.map Frame.round) := by
  obtain ⟨c, n, rfl, hkeys, -, -, hresult, hcache, -⟩ := h.ended hg hcontrol
  rw [hframes, List.map_cons] at hkeys
  rw [view_postpone hcache]
  exact hkeys.postpone rfl rfl (fun _ => rfl) hg hresult

/-- A round that ends unstable although it was stable has gained a member. -/
theorem Invariant.missing_postpone {v' : View} (hle : g.Below depth s.view.value v'.value)
    (hbelow : g.Below depth v'.value g.lookahead) (hnew : v'.value round.key = result) :
    missing g depth v' + (round.unstable || s.grew round result).toNat ≤
      missing g depth s.view + round.unstable.toNat := by
  obtain ⟨_, _, -, -, hround, -, -, -, hgrew⟩ := h.ended hg hcontrol
  have hmissing := missing_le hle
  cases hu : round.unstable with
  | true => simpa using hmissing
  | false =>
    cases hgr : s.grew round result with
    | false => simpa using hmissing
    | true =>
      have hlt := missing_lt hg hle hbelow hround.key (hnew ▸ (hgrew.1 hgr).2)
      rw [Bool.false_or, Bool.toNat_true, Bool.toNat_false]
      omega

omit hg h hcontrol in
theorem unstableCount_receive_le {r : Round} {number : Nat} {unstable : Bool} :
    unstableCount (receive r round number unstable :: below) ≤
      unstableCount (r :: below) + unstable.toNat := by
  have hor : (r.unstable || unstable).toNat ≤ r.unstable.toNat + unstable.toNat := by
    cases r.unstable <;> cases unstable <;> decide
  rw [unstableCount_cons, unstableCount_cons]
  show _ + (r.unstable || unstable).toNat ≤ _
  omega

theorem Invariant.postpone {floor : Nat} (hfloor : round.floor = some floor)
    (hle : floor < s.stack.length) :
    Improves g depth start s cost ((s.grow round result).postpone round result
      (round.unstable || s.grew round result) floor) := by
  obtain ⟨f, frames, hframes⟩ : ∃ f frames, s.stack = f :: frames :=
    List.exists_cons_of_length_pos (Nat.zero_lt_of_lt hle)
  have hsame := h.stable hg hcontrol
  have hmissing := @Invariant.missing_postpone _ _ _ _ _ _ _ hg h hcontrol
  generalize (round.unstable || s.grew round result) = unstable at hsame hmissing ⊢
  have hgrown := h.grown_postpone hg hcontrol unstable floor
  have hkeys' := h.keys_postpone hg hcontrol hframes unstable floor
  have hstack' := @stack_postpone s round result f frames unstable floor hframes
  have hrounds' := @rounds_postpone s round result f frames unstable floor hframes
  obtain ⟨c, n, rfl, hkeys, hround, hstack, hresult, hcache, -⟩ := h.ended hg hcontrol
  have hview := @view_postpone s result round hcache unstable floor
  have hcontrol' : ((s.grow round result).postpone round result unstable floor).control =
      .answer result := rfl
  generalize (s.grow round result).postpone round result unstable floor = t at *
  have hvalue : t.view.value = Function.update s.view.value round.key result := by rw [hview]; rfl
  have hfinished : t.view.finished = s.view.finished := by rw [hview]; rfl
  have hpending : ∀ q, t.view.pending q = if q = round.key then some (result, floor)
      else if q ∈ round.waiting then (s.view.pending q).map (lower floor)
      else s.view.pending q := by
    rw [hview]
    exact fun _ => rfl
  have hnew : t.view.value round.key = result := by rw [hvalue, Function.update_self]
  rw [hframes] at hstack hle
  rw [hframes, List.map_cons] at hkeys hround
  have hle' : floor ≤ (frames.map Frame.round).length := by
    rw [List.length_map]
    exact Nat.le_of_lt_succ hle
  refine ⟨c, ⟨h.hasKey, hrounds' ▸ hkeys', ?_⟩, ?_⟩
  · unfold ControlInvariant
    rw [hcontrol', hstack']
    exact ⟨round.key, hstack.postpone hg hkeys hround hvalue hfinished hpending hfloor hle' hsame,
      hnew.symm, available_receive hle'⟩
  · rw [rounds_of_run hcontrol, hrounds', hframes, List.map_cons]
    refine measure_lt_of_cost ?_ (card_idle_le fun k hk => ?_) (by omega)
    · have := hmissing hgrown.value hkeys'.below hnew
      have := @unstableCount_receive_le (frames.map Frame.round) round f.round floor unstable
      rw [unstableCount_cons round]
      omega
    · rw [hfinished]
      exact hk.imp_right mem_held_receive.2

end

/-- Every step of a search that is not over improves it. -/
theorem Invariant.step (hg : g.Linked) (h : Invariant g depth start s cost)
    (hover : s.isOver = false) : Improves g depth start s cost (s.step g) := by
  have hmove := move_step g s
  generalize s.step g = t at hmove ⊢
  cases hmove with
  | recalled hcontrol hcache =>
    have hmem : _ ∈ s.memory.cache := Std.HashMap.mem_iff_isSome_getElem?.2 (by rw [hcache]; rfl)
    obtain rfl := value_of_cache hcache
    exact h.answer hg hcontrol rfl (forall₂_frameExtends_refl _) rfl (available_of_finished hmem)
  | reused hcontrol _ hpending => exact h.lookPending hg hcontrol hpending
  | metAgain hcontrol hcache hposition => exact h.breakCycle hg hcontrol hcache hposition
  | begun hcontrol hcache hpending hactive => exact h.begin hg hcontrol hcache hpending hactive
  | asked hcontrol => exact h.ask hcontrol
  | resumed hcontrol hstack => exact h.resume hg hcontrol hstack
  | postponed hcontrol hfloor hlt => exact h.postpone hg hcontrol hfloor hlt
  | repeated hcontrol _ hunstable => exact h.again hg hcontrol hunstable
  | committed hcontrol hfloor hstable => exact h.commit hg hcontrol hstable hfloor
  | broke hcontrol =>
    exact (h.not_breaking hcontrol).elim
  | stopped hstop => exact absurd hstop (by simp [hover])

/-- A run keeps the invariant and whatever else the steps of a search with the invariant keep. -/
theorem Invariant.run_induction {P : Search → Prop} (hg : g.Linked)
    (h : Invariant g depth start s cost) (hs : P s)
    (hstep : ∀ {t : Search} {c : Nat}, Invariant g depth start t c → P t → P (t.step g)) (n : Nat) :
    (∃ c, Invariant g depth start (run g n s) c) ∧ P (run g n s) := by
  induction n generalizing s cost with
  | zero => exact ⟨⟨cost, h⟩, hs⟩
  | succ n ih =>
    rw [Search.run]
    cases hover : s.isOver with
    | true => exact ⟨⟨cost, h⟩, hs⟩
    | false =>
      obtain ⟨c, h', -⟩ := h.step hg hover
      exact ih h' (hstep h hs)

/-- A search that is over has finished its key, and answers it with nothing left suspended. -/
theorem Invariant.answered (h : Invariant g depth start s cost) (hover : s.isOver = true) :
    s.control = .answer (s.value start) ∧ s.stack = [] ∧ start ∈ s.memory.cache := by
  cases hcontrol : s.control with
  | look q => simp [isOver, hcontrol] at hover
  | run round reading => simp [isOver, hcontrol] at hover
  | broken reason => exact (h.not_broken hcontrol).elim
  | answer result =>
    cases hstack : s.stack with
    | cons f frames => simp [isOver, hcontrol, hstack] at hover
    | nil =>
      obtain ⟨q, hinv, rfl, havailable⟩ := h.of_answer hcontrol
      rw [hstack] at hinv havailable
      cases hinv
      exact ⟨rfl, rfl, havailable⟩

/-- A search that may take as many steps as its measure says comes to its end. -/
theorem Invariant.run (hg : g.Linked) {n : Nat} (h : Invariant g depth start s cost)
    (hn : measure g depth s.view s.rounds cost ≤ n) :
    ∃ cost', Invariant g depth start (run g n s) cost' ∧ (run g n s).isOver = true := by
  induction n generalizing s cost with
  | zero =>
    cases hover : s.isOver with
    | true => exact ⟨cost, h, hover⟩
    | false =>
      obtain ⟨cost', -, hlt⟩ := h.step hg hover
      omega
  | succ n ih =>
    rw [Search.run]
    cases hover : s.isOver with
    | true => exact ⟨cost, h, hover⟩
    | false =>
      obtain ⟨cost', h', hlt⟩ := h.step hg hover
      exact ih h' (by omega)

end GrammarLookahead.Search
