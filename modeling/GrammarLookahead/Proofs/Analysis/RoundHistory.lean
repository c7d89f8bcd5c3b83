import GrammarLookahead.Proofs.Analysis.SearchLog
import GrammarLookahead.Proofs.Analysis.ValueGrowth

/-!
The history of the rounds of a search, told by the steps of its run. For each round it keeps the step
in which the round began, that in which its key was met again, and what makes it unstable: a key
whose newly computed set goes beyond the provisional value that was read for it. So every repetition
of a round has a cause within the round. Main statements: `Search.History.run` and
`Description.rounds_end`.
-/

namespace GrammarLookahead.Search

variable (g : Grammar) (origin : Search)

/-- In the step after a time a round begins to expand a key, with a number of rounds below it. -/
def BeginsAt (number : Nat) (key : Key) (time : Nat) : Prop :=
  begun? (run g time origin) (run g (time + 1) origin) = some key ∧
    (run g (time + 1) origin).stack.length = number

/-- The last round with a number that began before a time is a round for a key. -/
structure Since (number : Nat) (key : Key) (began time : Nat) : Prop where
  lt : began < time
  begins : BeginsAt g origin number key began
  last : ∀ t, began < t → t < time → ∀ k, ¬ BeginsAt g origin number k t

/-- At a time a suspended key is met again, and answered with its provisional value. -/
structure MeetsAgain (key : Key) (old : LookaheadSet) (time : Nat) : Prop where
  looks : (run g time origin).control = .look key
  suspended : key ∈ (run g time origin).rounds.map Round.key
  provisional : (run g time origin).provisional.getD key (.empty key.depth) = old
  answered : (run g (time + 1) origin).control = .answer old

/-- At a time a round with a number has computed a set for its key. -/
def EndsAt (number : Nat) (key : Key) (result : LookaheadSet) (time : Nat) : Prop :=
  ∃ round, (run g time origin).control = .run round (.done result) ∧ round.key = key ∧
    (run g time origin).stack.length = number

/-- Between two times a round with at least a number has begun, its key has been met again and
answered with its provisional value, and the round has computed a set that strictly contains this
value. -/
def Outgrown (number earliest latest : Nat) : Prop :=
  ∃ number' key began met ended old new, number ≤ number' ∧
    earliest ≤ began ∧ began < met ∧ met < ended ∧ ended ≤ latest ∧
    Since g origin number' key began ended ∧ MeetsAgain g origin key old met ∧
    EndsAt g origin number' key new ended ∧ old ≤ new ∧ old ≠ new

/-- What has happened in rounds, the topmost of which began in the step after a time. -/
inductive History (time : Nat) : List Round → Nat → Prop where
  | nil : History time [] 0
  | cons {round : Round} {below : List Round} {before began : Nat}
      (hbelow : History time below before) (hle : before ≤ began)
      (hsince : Since g origin below.length round.key began time)
      (hmet : round.reentered = true → ∃ met, began < met ∧ met < time ∧
        MeetsAgain g origin round.key ((run g time origin).value round.key) met)
      (hgrown : round.unstable = true → Outgrown g origin below.length began time) :
      History time (round :: below) began

variable {g origin} {depth cost time number number' began latest latest' earliest earliest' : Nat}
  {start key : Key} {s t : Search} {round : Round} {rounds rounds' : List Round}
  {result : LookaheadSet}

theorem Since.next (h : Since g origin number key began time)
    (hnone : ∀ k, ¬ BeginsAt g origin number k time) :
    Since g origin number key began (time + 1) := by
  refine ⟨Nat.lt_succ_of_lt h.lt, h.begins, fun t hlt ht => ?_⟩
  rcases Nat.lt_succ_iff_lt_or_eq.1 ht with ht | rfl
  · exact h.last t hlt ht
  · exact hnone

theorem BeginsAt.since (h : BeginsAt g origin number key time) :
    Since g origin number key time (time + 1) :=
  ⟨Nat.lt_succ_self _, h, fun t hlt ht => by omega⟩

theorem Outgrown.mono (h : Outgrown g origin number earliest latest) (hnumber : number' ≤ number)
    (hearliest : earliest' ≤ earliest) (hlatest : latest ≤ latest') :
    Outgrown g origin number' earliest' latest' := by
  obtain ⟨m, key, began, met, ended, old, new, hm, hb, hbm, hme, he, hrest⟩ := h
  exact ⟨m, key, began, met, ended, old, new, Nat.le_trans hnumber hm, Nat.le_trans hearliest hb,
    hbm, hme, Nat.le_trans he hlatest, hrest⟩

variable (g origin time) in
/-- A round that goes on for the same key; it is marked only if it was before or its key has just
been met again. -/
structure Continues (r r' : Round) : Prop where
  key : r'.key = r.key
  unstable : r'.unstable = r.unstable
  met : r'.reentered = true → r.reentered = true ∨
    MeetsAgain g origin r.key ((run g time origin).value r.key) time

theorem continues_of_eq {r r' : Round} (hkey : r'.key = r.key) (hunstable : r'.unstable = r.unstable)
    (hreentered : r'.reentered = r.reentered) : Continues g origin time r r' :=
  ⟨hkey, hunstable, fun h => Or.inl (hreentered ▸ h)⟩

theorem forall₂_continues_refl (rounds : List Round) :
    List.Forall₂ (Continues g origin time) rounds rounds :=
  List.forall₂_same.2 fun _ _ => continues_of_eq rfl rfl rfl

/-- The history of rounds that go on while the values of their keys stay and no round takes their
numbers. -/
theorem History.next (h : History g origin time rounds began)
    (hnone : ∀ number < rounds.length, ∀ k, ¬ BeginsAt g origin number k time)
    (hvalue : ∀ k ∈ rounds.map Round.key,
      (run g (time + 1) origin).value k = (run g time origin).value k)
    (hcontinues : List.Forall₂ (Continues g origin time) rounds rounds') :
    History g origin (time + 1) rounds' began := by
  induction h generalizing rounds' with
  | nil =>
    cases hcontinues
    exact .nil
  | @cons round below before began hbelow hle hsince hmet hgrown ih =>
    obtain ⟨r', below', hr, htail, rfl⟩ := List.forall₂_cons_left_iff.1 hcontinues
    have hlength : below'.length = below.length := htail.length_eq.symm
    refine .cons (ih ?_ ?_ htail) hle ?_ (fun hreentered => ?_) fun hunstable => ?_
    · exact fun number hlt => hnone number (Nat.lt_succ_of_lt hlt)
    · exact fun k hk => hvalue k (List.mem_cons_of_mem _ hk)
    · rw [hlength, hr.key]
      exact hsince.next (hnone _ (Nat.lt_succ_self _))
    · rw [hr.key, hvalue round.key List.mem_cons_self]
      rcases hr.met hreentered with hbefore | hnow
      · obtain ⟨met, hlt, hmet, hagain⟩ := hmet hbefore
        exact ⟨met, hlt, Nat.lt_succ_of_lt hmet, hagain⟩
      · exact ⟨time, hsince.lt, Nat.lt_succ_self _, hnow⟩
    · rw [hlength]
      exact (hgrown (hr.unstable ▸ hunstable)).mono (Nat.le_refl _) (Nat.le_refl _)
        (Nat.le_succ _)

theorem History.le (h : History g origin time rounds began) : began ≤ time := by
  cases h with
  | nil => exact Nat.zero_le _
  | cons _ _ hsince _ _ => exact Nat.le_of_lt hsince.lt

/-- A round begins on top of rounds with a history. -/
theorem History.begin (h : History g origin (time + 1) rounds began) (hle : began ≤ time)
    (hbegins : BeginsAt g origin rounds.length key time) :
    History g origin (time + 1) ({ key } :: rounds) time :=
  .cons h hle hbegins.since nofun nofun

theorem stack_lowerFloor (floor : Nat) : List.Forall₂ (Continues g origin time)
    (s.stack.map Frame.round) ((s.mapTop (·.lowerFloor floor)).stack.map Frame.round) := by
  show List.Forall₂ _ _ ((s.stack.modifyHead _).map _)
  cases s.stack with
  | nil => exact .nil
  | cons f below => exact .cons (continues_of_eq rfl rfl rfl) (forall₂_continues_refl _)

/-- Meeting a suspended key again marks its round. -/
theorem stack_breakCycle {position : Nat} (hkey : ∀ f, s.stack[position]? = some f → f.round.key = key)
    (hagain : MeetsAgain g origin key ((run g time origin).value key) time) :
    List.Forall₂ (Continues g origin time) (s.stack.map Frame.round)
      ((s.breakCycle g key position).stack.map Frame.round) := by
  have hstack : (s.breakCycle g key position).stack =
      (s.stack.modify position (Frame.mapRound fun r => { r with reentered := true })).modify 0
        (Frame.mapRound (·.lowerFloor (s.stack.length - 1 - position))) :=
    List.modifyHead_eq_modify_zero _ _
  rw [hstack, List.forall₂_map_left_iff, List.forall₂_map_right_iff, List.forall₂_iff_get]
  refine ⟨by simp, fun i hi _ => ?_⟩
  have hmark : position = i → MeetsAgain g origin (s.stack[i]).round.key
      ((run g time origin).value (s.stack[i]).round.key) time := fun heq => by
    rw [hkey _ (heq ▸ List.getElem?_eq_getElem hi)]
    exact hagain
  simp only [List.get_eq_getElem, List.getElem_modify]
  split_ifs with _ hposition hposition
  · exact ⟨rfl, rfl, fun _ => Or.inr (hmark hposition)⟩
  · exact continues_of_eq rfl rfl rfl
  · exact ⟨rfl, rfl, fun _ => Or.inr (hmark hposition)⟩
  · exact continues_of_eq rfl rfl rfl

theorem beginsAt_begin (hs : run g time origin = s)
    (ht : run g (time + 1) origin = s.begin g key) : BeginsAt g origin s.stack.length key time := by
  refine ⟨?_, ?_⟩
  · rw [hs, ht]
    exact begun?_begin
  · rw [ht]
    rfl

theorem beginsAt_again (hs : run g time origin = s)
    (ht : run g (time + 1) origin = (s.grow round result).again g round) :
    BeginsAt g origin s.stack.length round.key time := by
  refine ⟨?_, ?_⟩
  · rw [hs, ht]
    exact begun?_again
  · rw [ht]
    exact congrArg List.length stack_grow

section

variable {u : Search} (hu : run g time origin = u) (ht : run g (time + 1) origin = t)
include hu ht

theorem not_beginsAt (hnone : begun? u t = none) (number : Nat) (k : Key) :
    ¬ BeginsAt g origin number k time := by
  rintro ⟨hbegun, -⟩
  rw [hu, ht, hnone] at hbegun
  cases hbegun

omit hu in
theorem not_beginsAt_of_ne (hnumber : number ≠ t.stack.length) (k : Key) :
    ¬ BeginsAt g origin number k time := by
  rintro ⟨-, hlength⟩
  exact hnumber (ht ▸ hlength.symm)

/-- Moves that begin nothing and leave the values as they are. -/
theorem History.of_same (h : History g origin time u.rounds began) (hnone : begun? u t = none)
    (hvalue : t.value = u.value)
    (hcontinues : List.Forall₂ (Continues g origin time) u.rounds t.rounds) :
    History g origin (time + 1) t.rounds began := by
  refine h.next (fun number _ => not_beginsAt hu ht hnone number) (fun k _ => ?_) hcontinues
  rw [hu, ht, hvalue]

omit ht in
/-- A round that is unstable when it ends, or whose result goes beyond the value that was read for
its key, has a cause. -/
theorem History.outgrown_ended {below : List Round} (h : History g origin time (round :: below) began)
    (hg : g.Linked) (hinv : Invariant g depth start u cost)
    (hcontrol : u.control = .run round (.done result)) (hbelow : below = u.stack.map Frame.round)
    (hunstable : (round.unstable || u.grew round result) = true) :
    Outgrown g origin below.length began time := by
  obtain ⟨_, _, -, -, -, -, hresult, -, hgrew⟩ := hinv.ended hg hcontrol
  cases h with
  | cons _ _ hsince hmet hgrown =>
    rcases Bool.or_eq_true_iff.1 hunstable with hbefore | hnow
    · exact hgrown hbefore
    · obtain ⟨hreentered, hne⟩ := hgrew.1 hnow
      obtain ⟨met, hlt, hlt', hagain⟩ := hmet hreentered
      rw [hu] at hagain
      refine ⟨below.length, round.key, began, met, time, u.value round.key, result, Nat.le_refl _,
        Nat.le_refl _, hlt, hlt', Nat.le_refl _, hsince, hagain, ⟨round, ?_, rfl, ?_⟩,
        hresult.above, hne⟩
      · rw [hu, hcontrol]
      · rw [hu, hbelow, List.length_map]

/-- The rounds that are left when the topmost one ends keep their history. -/
theorem History.ended {below : List Round} (h : History g origin time (round :: below) began)
    (hgrown : Grown g depth u.view t.view below)
    (hnone : ∀ number < below.length, ∀ k, ¬ BeginsAt g origin number k time) :
    ∃ before, before ≤ began ∧ History g origin (time + 1) below before := by
  cases h with
  | @cons _ _ before _ hbelow hle _ _ _ =>
    refine ⟨before, hle, hbelow.next hnone (fun k hk => ?_) (forall₂_continues_refl below)⟩
    rw [hu, ht]
    obtain ⟨r, hr, rfl⟩ := List.mem_map.1 hk
    exact hgrown.agree r.key (Or.inr (mem_held_iff.2 (Or.inl ⟨r, hr, rfl⟩)))

end

section

variable {u : Search} (hu : run g time origin = u) (h : History g origin time u.rounds began)
include hu h

/-- A suspended key is met again, and its round is marked. -/
theorem History.metAgain {position : Nat} (hcontrol : u.control = .look key)
    (hcache : key ∉ u.memory.cache)
    (hposition : u.stack.findIdx? (·.round.key = key) = some position)
    (ht : run g (time + 1) origin = u.breakCycle g key position) :
    History g origin (time + 1) (u.breakCycle g key position).rounds began := by
  obtain ⟨f, hf, hkey⟩ := exists_suspended hposition
  have hsome : ∀ f', u.stack[position]? = some f' → f'.round.key = key := fun f' hf' =>
    Option.some.inj (hf.symm.trans hf') ▸ hkey
  have hagain : MeetsAgain g origin key ((run g time origin).value key) time := by
    refine ⟨hu ▸ hcontrol, ?_, ?_, ?_⟩
    · rw [hu, rounds_of_look hcontrol, List.map_map]
      exact List.mem_map.2 ⟨f, List.mem_of_getElem? hf, hkey⟩
    · rw [hu, value_of_not_mem hcache]
    · rw [hu, ht, value_of_not_mem hcache]
      rfl
  refine h.of_same hu ht rfl (congrArg View.value view_breakCycle) ?_
  rw [rounds_of_look hcontrol]
  exact stack_breakCycle hsome hagain

/-- The first round of a key begins on top of those that are suspended. -/
theorem History.begun (hcontrol : u.control = .look key)
    (ht : run g (time + 1) origin = u.begin g key) :
    History g origin (time + 1) (u.begin g key).rounds time := by
  rw [rounds_of_look hcontrol] at h
  have hnext : History g origin (time + 1) (u.stack.map Frame.round) began := by
    refine h.next (fun number hlt => not_beginsAt_of_ne ht ?_) (fun k _ => ?_)
      (forall₂_continues_refl _)
    · rw [List.length_map] at hlt
      exact Nat.ne_of_lt hlt
    · rw [hu, ht]
      rfl
  have hbegins : BeginsAt g origin (u.stack.map Frame.round).length key time := by
    rw [List.length_map]
    exact beginsAt_begin hu ht
  exact hnext.begin h.le hbegins

variable (hg : g.Linked) (hinv : Invariant g depth start u cost)
  (hcontrol : u.control = .run round (.done result))
include hg hinv hcontrol

/-- The round below takes over what makes the round that ends unstable. -/
theorem History.postpone {floor : Nat} (hlt : floor < u.stack.length)
    (ht : run g (time + 1) origin = (u.grow round result).postpone round result
      (round.unstable || u.grew round result) floor) :
    ∃ before, History g origin (time + 1) ((u.grow round result).postpone round result
      (round.unstable || u.grew round result) floor).rounds before := by
  obtain ⟨f, frames, hframes⟩ : ∃ f frames, u.stack = f :: frames :=
    List.exists_cons_of_length_pos (Nat.zero_lt_of_lt hlt)
  rw [rounds_of_run hcontrol] at h
  have hcause := h.outgrown_ended hu hg hinv hcontrol rfl
  obtain ⟨before, hle, hnext⟩ := h.ended hu ht
    (hinv.grown_postpone hg hcontrol (round.unstable || u.grew round result) floor)
    fun number _ => not_beginsAt hu ht rfl number
  rw [hframes, List.map_cons] at hnext hcause
  rw [rounds_postpone hframes]
  cases hnext with
  | cons hbelow hle' hsince hmet hgrown =>
    refine ⟨before, .cons hbelow hle' hsince hmet fun hunstable => ?_⟩
    rcases Bool.or_eq_true_iff.1 hunstable with hbefore | hnow
    · exact hgrown hbefore
    · exact (hcause hnow).mono (Nat.le_succ _) hle (Nat.le_succ _)

/-- The next round of a key begins where the last one ended. -/
theorem History.again (ht : run g (time + 1) origin = (u.grow round result).again g round) :
    History g origin (time + 1) ((u.grow round result).again g round).rounds time := by
  rw [rounds_of_run hcontrol] at h
  have hstack : ((u.grow round result).again g round).stack = u.stack := stack_grow
  obtain ⟨before, hle, hnext⟩ := h.ended hu ht (hinv.grown_again hg hcontrol) fun number hlt => by
    rw [List.length_map] at hlt
    exact not_beginsAt_of_ne ht (hstack ▸ Nat.ne_of_lt hlt)
  have hbegins : BeginsAt g origin (u.stack.map Frame.round).length round.key time := by
    rw [List.length_map]
    exact beginsAt_again hu ht
  rw [rounds_again]
  exact hnext.begin (Nat.le_trans hle h.le) hbegins

theorem History.commit
    (ht : run g (time + 1) origin = (u.grow round result).commit round result) :
    ∃ before, History g origin (time + 1) ((u.grow round result).commit round result).rounds
      before := by
  rw [rounds_of_run hcontrol] at h
  obtain ⟨before, -, hnext⟩ := h.ended hu ht (hinv.grown_commit hg hcontrol) fun number _ =>
    not_beginsAt hu ht rfl number
  rw [rounds_commit]
  exact ⟨before, hnext⟩

end

/-- What one step adds to the history of the rounds. -/
theorem History.move {u : Search} (hu : run g time origin = u) (ht : run g (time + 1) origin = t)
    (h : History g origin time u.rounds began) (hg : g.Linked)
    (hinv : Invariant g depth start u cost) (hmove : Move g u t) :
    ∃ began', History g origin (time + 1) t.rounds began' := by
  cases hmove with
  | recalled hcontrol _ =>
    refine ⟨began, h.of_same hu ht rfl rfl ?_⟩
    rw [rounds_of_look hcontrol]
    exact forall₂_continues_refl _
  | @reused key result floor hcontrol _ _ =>
    refine ⟨began, h.of_same hu ht rfl rfl ?_⟩
    rw [rounds_of_look hcontrol]
    exact stack_lowerFloor floor
  | metAgain hcontrol hcache hposition => exact ⟨began, h.metAgain hu hcontrol hcache hposition ht⟩
  | begun hcontrol _ _ _ => exact ⟨time, h.begun hu hcontrol ht⟩
  | asked hcontrol =>
    refine ⟨began, h.of_same hu ht rfl rfl ?_⟩
    rw [rounds_of_run hcontrol]
    exact forall₂_continues_refl _
  | resumed hcontrol hstack =>
    refine ⟨began, h.of_same hu ht (begun?_of_same rfl) rfl ?_⟩
    rw [rounds_of_answer hcontrol, hstack]
    exact forall₂_continues_refl _
  | postponed hcontrol _ hlt => exact h.postpone hu hg hinv hcontrol hlt ht
  | repeated hcontrol _ _ => exact ⟨time, h.again hu hg hinv hcontrol ht⟩
  | committed hcontrol _ _ => exact h.commit hu hg hinv hcontrol ht
  | broke hcontrol => exact (hinv.not_breaking hcontrol).elim
  | stopped _ => exact ⟨began, h.of_same hu ht (begun?_of_same rfl) rfl (forall₂_continues_refl _)⟩

section

variable (hg : g.Linked) (hinv : Invariant g depth start origin cost) (hidle : origin.rounds = [])
include hg hinv hidle

/-- At every point of a run the rounds have a history. -/
theorem History.run (time : Nat) :
    ∃ began, History g origin time (Search.run g time origin).rounds began := by
  induction time with
  | zero =>
    rw [Search.run, hidle]
    exact ⟨0, .nil⟩
  | succ time ih =>
    obtain ⟨began, h⟩ := ih
    obtain ⟨cost', hpoint⟩ := hinv.at_run hg time
    exact h.move rfl rfl hg hpoint (run_succ ▸ move_step g _)

/-- A repetition has a cause within the round that is repeated. -/
theorem exists_cause_of_repetition
    (hrepeats : (Search.run g time origin).memory.work.fixpointIterations <
      (Search.run g (time + 1) origin).memory.work.fixpointIterations) :
    ∃ number key began result, Since g origin number key began time ∧
      EndsAt g origin number key result time ∧ BeginsAt g origin number key time ∧
      Outgrown g origin number began time := by
  have hmove := move_step g (Search.run g time origin)
  rw [← run_succ] at hmove
  obtain ⟨round, result, hcontrol, hunstable, hagain⟩ :=
    hmove.iterations.resolve_left (Nat.ne_of_gt hrepeats)
  obtain ⟨cost', hpoint⟩ := hinv.at_run hg time
  obtain ⟨began, h⟩ := History.run hg hinv hidle time
  rw [rounds_of_run hcontrol] at h
  have hcause := h.outgrown_ended rfl hg hpoint hcontrol rfl hunstable
  rw [List.length_map] at hcause
  refine ⟨_, round.key, began, result, ?_, ⟨round, hcontrol, rfl, rfl⟩,
    beginsAt_again rfl hagain, hcause⟩
  cases h with
  | cons _ _ hsince _ _ => rwa [List.length_map] at hsince

end

theorem sublist_held (rounds : List Round) : (rounds.map Round.key).Sublist (held rounds) := by
  induction rounds with
  | nil => exact .slnil
  | cons round rounds ih =>
    rw [List.map_cons, held, List.flatMap_cons]
    exact (ih.trans (List.sublist_append_right _ _)).cons_cons _

/-- No key is expanded by two rounds at a time. -/
theorem Invariant.nodup_rounds (h : Invariant g depth start s cost) :
    (s.rounds.map Round.key).Nodup :=
  (sublist_held s.rounds).nodup h.keys.nodup

variable (g) in
/-- A search that comes to the value of its key in a family, and what holds at every point of it. -/
structure Converges (F : Family) (key : Key) (origin : Search) : Prop where
  ends : (Search.run g (stepBound g key.depth) origin).isOver = true ∧
    (Search.run g (stepBound g key.depth) origin).outcome = .ok (F key)
  below : ∀ n k a, (Search.run g n origin).Holds k a → a ≤ F k
  /-- What is held for a key is contained in whatever is held or read for the key later on. -/
  grows : ∀ n k a, (Search.run g n origin).Holds k a → ∀ m, n ≤ m →
    a ≤ (Search.run g m origin).value k ∧ ∀ b, (Search.run g m origin).Holds k b → a ≤ b
  /-- A round is repeated only if in it, or in one begun above it since, a key was met again whose
  newly computed set strictly contains the provisional value that was read for it. -/
  caused : ∀ n, (Search.run g n origin).memory.work.fixpointIterations <
      (Search.run g (n + 1) origin).memory.work.fixpointIterations →
    ∃ number key began result, Since g origin number key began n ∧
      EndsAt g origin number key result n ∧ BeginsAt g origin number key n ∧
      Outgrown g origin number began n
  /-- No key is expanded by two rounds at a time. -/
  apart : ∀ n, ((Search.run g n origin).rounds.map Round.key).Nodup

end Search

open Search

/-- The search that a query for a key begins. -/
def Memory.opening (m : Memory) (key : Key) : Search :=
  { control := .look key, memory := m.countQuery }

theorem Memory.Kept.converges {m : Memory} {keys : List Key} (h : m.Kept g keys) (hg : g.Linked)
    (hkey : g.HasKey g.maxDepth key) : (m.opening key).Converges g g.lookahead key := by
  have hcount : m.countQuery.Faithful g := h.faithful.of_cache_eq rfl
  have hself : g.HasKey key.depth key := ⟨hkey.node, hkey.pos, Nat.le_refl _⟩
  have hinv : Invariant g key.depth key (m.opening key) 1 := invariant_start hg hcount hself
  have htracks : Tracks g key m.countQuery [] (m.opening key) := tracks_start m.countQuery
  obtain ⟨_, hend, hover⟩ := hinv.run hg (measure_start_le g key.depth _)
  have hholds : ∀ n k a, (Search.run g n (m.opening key)).Holds k a →
      a = (Search.run g n (m.opening key)).value k ∧ a ≤ g.lookahead k := by
    intro n k a hheld
    obtain ⟨_, hpoint⟩ := hinv.at_run hg n
    have hpointTracks := htracks.run (n := n) hg hinv
    obtain ⟨hvalue, hknown⟩ := hpointTracks.holds hg hpoint hheld
    refine ⟨hvalue, hvalue ▸ ?_⟩
    rcases hknown with hknown | hhas
    · exact (hpoint.keys.exact k (hpointTracks.kept k hknown)) ▸ LookaheadSet.le_refl _
    · exact hpoint.keys.below k hhas
  refine ⟨⟨hover, (hend.over hover).1⟩, fun n k a hheld => (hholds n k a hheld).2,
    fun n k a hheld l hle => ?_, fun n hrepeats => ?_, fun n => ?_⟩
  · have hvalue := hinv.value_le_run hg hle k
    rw [(hholds n k a hheld).1]
    exact ⟨hvalue, fun b hb => (hholds l k b hb).1 ▸ hvalue⟩
  · exact exists_cause_of_repetition hg hinv rfl hrepeats
  · obtain ⟨_, hpoint⟩ := hinv.at_run hg n
    exact hpoint.nodup_rounds

/-- Rounds are repeated only while values grow, so searches end. Whatever came before, the search of
a query for a key of the grammar converges to the least solution. -/
theorem Description.rounds_end {ucd : Unicode} {d : Description} (h : d.build ucd = .ok g) :
    ∃ F : Family, g.LeastSolution F ∧
      ∀ (requests : List Request) (key : Key), g.HasKey g.maxDepth key →
        ((session g requests).opening key).Converges g F key ∧
          g.ask key (session g requests) = (.ok (F key),
            (Search.run g (stepBound g key.depth) ((session g requests).opening key)).memory) := by
  have hg := d.linked_of_build h
  refine ⟨g.lookahead, hg.leastSolution_lookahead, fun requests key hkey => ?_⟩
  have hkept := session_kept hg requests
  refine ⟨hkept.converges hg hkey, ?_⟩
  rw [← (hkept.faithful.ask hg hkey).1]
  rfl

/-- After other queries and a clearing, what a call of the rule can begin with is asked for. -/
theorem leftRecursiveWords_rounds_end :
    leftRecursiveWords.build .ascii = .ok leftRecursiveWords.layout ∧
      ∃ F : Family, leftRecursiveWords.layout.LeastSolution F ∧
        ((session leftRecursiveWords.layout [.ask (.follow 2 "s"), .clear]).opening
          (.block ⟨0⟩ 2 .callSite)).Converges leftRecursiveWords.layout F
            (.block ⟨0⟩ 2 .callSite) := by
  obtain ⟨F, hleast, hends⟩ := Description.rounds_end leftRecursiveWords_build
  exact ⟨leftRecursiveWords_build, F, hleast,
    (hends [.ask (.follow 2 "s"), .clear] (.block ⟨0⟩ 2 .callSite)
      ⟨by decide +kernel, by decide, by decide +kernel⟩).1⟩

end GrammarLookahead
