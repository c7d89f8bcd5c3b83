import GrammarLookahead.Proofs.Analysis.ProvisionalReads

/-!
The accounts of a search. The floor of a round accounts for what the round relies on if no
provisional value that it relies on belongs to a round below the floor, and so does the floor of a
result that waits for what the result was computed from. Main statements: `Search.Accounts.next`,
`Search.Accounted.lowered` and `Search.Accounted.received`.
-/

namespace GrammarLookahead.Search

variable (g : Grammar) (origin : Search)

/-- A result with a floor was computed after a time, last for its key, by a round that relied on no
provisional value below the floor. -/
def Vouched (key : Key) (result : LookaheadSet) (floor earliest time : Nat) : Prop :=
  ∃ number began ended, Computed g origin key result number began ended time ∧ earliest < ended ∧
    ∀ target, Relies g origin number began ended target → floor ≤ target

/-- The floors of a round, which has a number and began at a time, and of the results that wait for
it account for what was relied on. -/
structure Accounted (time number : Nat) (round : Round) (began : Nat) : Prop where
  since : Since g origin number round.key began time
  floor_le : ∀ floor, round.floor = some floor → floor ≤ number
  relies : ∀ target, Relies g origin number began time target → Reaches round.floor target
  waits : ∀ key ∈ round.waiting, ∃ result floor,
    (run g time origin).pending[key]? = some (result, floor) ∧ floor ≤ number ∧
      Vouched g origin key result floor began time

/-- The floors of rounds, the topmost of which began at a time, account for what was relied on. -/
inductive Accounts (time : Nat) : List Round → Nat → Prop where
  | nil : Accounts time [] 0
  | cons {round : Round} {below : List Round} {before began : Nat}
      (hbelow : Accounts time below before) (hle : before ≤ began)
      (hround : Accounted g origin time below.length round began) :
      Accounts time (round :: below) began

/-- Nothing begins in place of some rounds in the step after a time, none of them comes to rely on
anything, and the results that wait for them stay. -/
structure Spared (time : Nat) (rounds : List Round) : Prop where
  begins : ∀ number < rounds.length, ∀ k, ¬ BeginsAt g origin number k time
  gains : ∀ number < rounds.length, ∀ target, ¬ Gains g origin number target time
  pending : ∀ k ∈ waitingKeys rounds,
    (run g (time + 1) origin).pending[k]? = (run g time origin).pending[k]?
  ends : ∀ k ∈ waitingKeys rounds, ∀ n a, ¬ EndsAt g origin n k a time

/-- Rounds for one key with the same floor, for which the same results wait. -/
structure SameBooks (r r' : Round) : Prop where
  key : r'.key = r.key
  floor : r'.floor = r.floor
  waiting : r'.waiting = r.waiting

variable {g origin} {time number began earliest earliest' floor floor' : Nat} {key : Key}
  {round r r' : Round} {below rounds rounds' : List Round} {result : LookaheadSet}

theorem forall₂_sameBooks_refl (rounds : List Round) : List.Forall₂ SameBooks rounds rounds :=
  List.forall₂_same.2 fun _ _ => ⟨rfl, rfl, rfl⟩

theorem forall₂_sameBooks_modify (stack : List Frame) (position : Nat) :
    List.Forall₂ SameBooks (stack.map Frame.round) ((stack.modify position
      (Frame.mapRound fun r => { r with reentered := true })).map Frame.round) := by
  induction stack generalizing position with
  | nil =>
    rw [List.modify_nil]
    exact .nil
  | cons f below ih =>
    cases position with
    | zero => exact .cons ⟨rfl, rfl, rfl⟩ (forall₂_sameBooks_refl _)
    | succ position => exact .cons ⟨rfl, rfl, rfl⟩ (ih position)

theorem mem_waitingKeys_cons :
    key ∈ waitingKeys (round :: below) ↔ key ∈ round.waiting ∨ key ∈ waitingKeys below := by
  rw [waitingKeys, List.flatMap_cons, List.mem_append]
  rfl

theorem floor_lowerFloor_le (h : (r.lowerFloor number).floor = some floor) : floor ≤ number := by
  obtain ⟨f, hf, hle⟩ := reaches_lowerFloor r number
  rwa [Option.some.inj (h.symm.trans hf)]

theorem reaches_lowerFloor_of_le (h : floor ≤ number) :
    Reaches (r.lowerFloor floor).floor number := by
  obtain ⟨f, hf, hle⟩ := reaches_lowerFloor r floor
  exact ⟨f, hf, Nat.le_trans hle h⟩

theorem Vouched.mono (h : Vouched g origin key result floor earliest time) (hfloor : floor' ≤ floor)
    (hearliest : earliest' ≤ earliest) : Vouched g origin key result floor' earliest' time := by
  obtain ⟨number, began, ended, hcomputed, hlt, hrelies⟩ := h
  exact ⟨number, began, ended, hcomputed, Nat.lt_of_le_of_lt hearliest hlt,
    fun target ht => Nat.le_trans hfloor (hrelies target ht)⟩

theorem Vouched.next (h : Vouched g origin key result floor earliest time)
    (hnone : ∀ n a, ¬ EndsAt g origin n key a time) :
    Vouched g origin key result floor earliest (time + 1) := by
  obtain ⟨number, began, ended, hcomputed, hrest⟩ := h
  exact ⟨number, began, ended, hcomputed.next hnone, hrest⟩

/-- Whatever the round relied on that computed the result last lies at or above its floor. -/
theorem Vouched.le_of_computed {number' began' ended' target : Nat} {result' : LookaheadSet}
    (h : Vouched g origin key result floor earliest time)
    (hcomputed : Computed g origin key result' number' began' ended' time)
    (hrelies : Relies g origin number' began' ended' target) : floor ≤ target := by
  obtain ⟨number, began, ended, hlast, -, hfloor⟩ := h
  obtain ⟨-, rfl, rfl, rfl⟩ := hlast.unique hcomputed
  exact hfloor target hrelies

/-- A round goes on for the same key, with a floor that reaches what it has come to rely on. -/
theorem Accounted.next (h : Accounted g origin time number r began)
    (hnone : ∀ k, ¬ BeginsAt g origin number k time) (hkey : r'.key = r.key)
    (hfloor : ∀ floor, r'.floor = some floor → floor ≤ number)
    (hreaches : ∀ target, Reaches r.floor target → Reaches r'.floor target)
    (hgains : ∀ target, Gains g origin number target time → Reaches r'.floor target)
    (hwaits : ∀ key ∈ r'.waiting, ∃ result floor,
      (run g (time + 1) origin).pending[key]? = some (result, floor) ∧ floor ≤ number ∧
        Vouched g origin key result floor began (time + 1)) :
    Accounted g origin (time + 1) number r' began := by
  refine ⟨hkey ▸ h.since.next hnone, hfloor, fun target hrelies => ?_, hwaits⟩
  rcases relies_succ.1 hrelies with hbefore | ⟨-, hnow⟩
  · exact hreaches target (h.relies target hbefore)
  · exact hgains target hnow

theorem Accounted.waits_next (h : Accounted g origin time number r began)
    (hpending : ∀ k ∈ r.waiting,
      (run g (time + 1) origin).pending[k]? = (run g time origin).pending[k]?)
    (hends : ∀ k ∈ r.waiting, ∀ n a, ¬ EndsAt g origin n k a time) :
    ∀ key ∈ r.waiting, ∃ result floor,
      (run g (time + 1) origin).pending[key]? = some (result, floor) ∧ floor ≤ number ∧
        Vouched g origin key result floor began (time + 1) := by
  intro k hk
  obtain ⟨result, floor, hentry, hle, hvouched⟩ := h.waits k hk
  exact ⟨result, floor, (hpending k hk).trans hentry, hle, hvouched.next (hends k hk)⟩

/-- A round begins without relying on anything. -/
theorem Accounted.begin (h : BeginsAt g origin number key time) :
    Accounted g origin (time + 1) number { key } time :=
  ⟨h.since, nofun, fun _ hrelies => absurd hrelies not_relies_begun, nofun⟩

/-- The floor of a round is lowered to a number at or below all that it has come to rely on. -/
theorem Accounted.lowered (h : Accounted g origin time number r began) (hsame : SameBooks r r')
    (hnone : ∀ k, ¬ BeginsAt g origin number k time)
    (hpending : ∀ k ∈ r.waiting,
      (run g (time + 1) origin).pending[k]? = (run g time origin).pending[k]?)
    (hends : ∀ k ∈ r.waiting, ∀ n a, ¬ EndsAt g origin n k a time) (hfloor : floor ≤ number)
    (hgains : ∀ target, Gains g origin number target time → floor ≤ target) :
    Accounted g origin (time + 1) number (r'.lowerFloor floor) began := by
  refine h.next hnone hsame.key (fun f hf => Nat.le_trans (floor_lowerFloor_le hf) hfloor) ?_ ?_ ?_
  · intro target hreaches
    exact (extends_lowerFloor r' floor).floor target (hsame.floor ▸ hreaches)
  · exact fun target ht => reaches_lowerFloor_of_le (hgains target ht)
  · exact hsame.waiting ▸ h.waits_next hpending hends

/-- The round below takes over the result of a round that ends, with the results that waited for
it. -/
theorem Accounted.received {unstable : Bool} (h : Accounted g origin time number r earliest)
    (hround : Accounted g origin time (number + 1) round began) (hle : earliest ≤ began)
    (hfloor : round.floor = some floor) (hlt : floor ≤ number)
    (hnone : ∀ k, ¬ BeginsAt g origin number k time)
    (hends : EndsAt g origin (number + 1) round.key result time)
    (hapart : round.key ∉ round.waiting)
    (hkept : ∀ k ∈ r.waiting, k ≠ round.key ∧ k ∉ round.waiting)
    (hpending : ∀ k, (run g (time + 1) origin).pending[k]? =
      if k = round.key then some (result, floor)
      else if k ∈ round.waiting then (run g time origin).pending[k]?.map (lower floor)
      else (run g time origin).pending[k]?) :
    Accounted g origin (time + 1) number (receive r round floor unstable) earliest := by
  have hresult : Vouched g origin round.key result floor earliest (time + 1) := by
    refine ⟨_, _, _, hround.since.computed hends, Nat.lt_of_le_of_lt hle hround.since.lt, ?_⟩
    intro target hrelies
    obtain ⟨f, hf, hreaches⟩ := hround.relies target hrelies
    rwa [Option.some.inj (hfloor.symm.trans hf)]
  have hother : ∀ k, k ≠ round.key → ∀ n a, ¬ EndsAt g origin n k a time := fun k hne n a hk =>
    hne (hk.unique hends).2.1
  refine h.next hnone rfl (fun f hf => Nat.le_trans (floor_lowerFloor_le hf) hlt)
    (extends_lowerFloor r floor).floor (fun target hgains => ?_) fun k hk => ?_
  · obtain ⟨-, a, n, b, e, hcomputed, hrelies⟩ := hgains.of_endsAt hends
    exact reaches_lowerFloor_of_le (hresult.le_of_computed hcomputed hrelies)
  · rw [hpending]
    simp only [receive, List.mem_append, List.mem_singleton] at hk
    rcases hk with (hk | hk) | rfl
    · obtain ⟨a, f, hentry, hf, hvouched⟩ := h.waits k hk
      obtain ⟨hne, hnot⟩ := hkept k hk
      rw [if_neg hne, if_neg hnot]
      exact ⟨a, f, hentry, hf, hvouched.next (hother k hne)⟩
    · obtain ⟨a, f, hentry, -, hvouched⟩ := hround.waits k hk
      have hne : k ≠ round.key := fun heq => hapart (heq ▸ hk)
      rw [if_neg hne, if_pos hk, hentry]
      exact ⟨a, min f floor, rfl, Nat.le_trans (Nat.min_le_right _ _) hlt,
        (hvouched.next (hother k hne)).mono (Nat.min_le_left _ _) hle⟩
    · rw [if_pos rfl]
      exact ⟨result, floor, rfl, hlt, hresult⟩

theorem Spared.tail (h : Spared g origin time (round :: below)) : Spared g origin time below where
  begins number hlt := h.begins number (Nat.lt_succ_of_lt hlt)
  gains number hlt := h.gains number (Nat.lt_succ_of_lt hlt)
  pending k hk := h.pending k (mem_waitingKeys_cons.2 (Or.inr hk))
  ends k hk := h.ends k (mem_waitingKeys_cons.2 (Or.inr hk))

/-- Rounds that a step spares keep their accounts. -/
theorem Accounts.next (h : Accounts g origin time rounds began)
    (hspared : Spared g origin time rounds) (hsame : List.Forall₂ SameBooks rounds rounds') :
    Accounts g origin (time + 1) rounds' began := by
  induction h generalizing rounds' with
  | nil =>
    cases hsame
    exact .nil
  | @cons round below before began hbelow hle hround ih =>
    obtain ⟨r', below', hr, htail, rfl⟩ := List.forall₂_cons_left_iff.1 hsame
    have hlength : below'.length = below.length := htail.length_eq.symm
    have htop := Nat.lt_succ_self below.length
    have hmem : ∀ k ∈ round.waiting, k ∈ waitingKeys (round :: below) := fun k hk =>
      mem_waitingKeys_cons.2 (Or.inl hk)
    refine .cons (ih hspared.tail htail) hle ?_
    rw [hlength]
    refine hround.next (hspared.begins _ htop) hr.key ?_ ?_ ?_ ?_
    · rw [hr.floor]
      exact hround.floor_le
    · rw [hr.floor]
      exact fun _ => id
    · exact fun target hgains => absurd hgains (hspared.gains _ htop target)
    · rw [hr.waiting]
      exact hround.waits_next (fun k hk => hspared.pending k (hmem k hk))
        fun k hk => hspared.ends k (hmem k hk)

theorem Accounts.le (h : Accounts g origin time rounds began) : began ≤ time := by
  cases h with
  | nil => exact Nat.zero_le _
  | cons _ _ hround => exact Nat.le_of_lt hround.since.lt

/-- Every number below the height of the stack is that of a round, and the rounds below began
earlier. -/
theorem Accounts.frame (h : Accounts g origin time rounds began)
    (hnodup : (rounds.map Round.key).Nodup) (hlt : number < rounds.length) :
    ∃ key before, numberIn rounds key = some number ∧ before ≤ began ∧
      Since g origin number key before time := by
  induction h with
  | nil => cases hlt
  | @cons round below before began hbelow hle hround ih =>
    obtain ⟨hround', hbelow'⟩ := List.nodup_cons.1 hnodup
    rcases Nat.lt_succ_iff_lt_or_eq.1 hlt with hlt | rfl
    · obtain ⟨key, earlier, hnumber, hearlier, hsince⟩ := ih hbelow' hlt
      exact ⟨key, earlier, numberIn_cons hround' hnumber, Nat.le_trans hearlier hle, hsince⟩
    · exact ⟨round.key, began, numberIn_self, Nat.le_refl _, hround.since⟩

/-- A result that waits has the number of a round for its floor and was computed since this round
began. -/
theorem Accounts.waiting (h : Accounts g origin time rounds began)
    (hnodup : (rounds.map Round.key).Nodup) (hkey : key ∈ waitingKeys rounds) :
    ∃ result floor frame before, (run g time origin).pending[key]? = some (result, floor) ∧
      numberIn rounds frame = some floor ∧ Since g origin floor frame before time ∧
      Vouched g origin key result floor before time := by
  induction h with
  | nil => cases hkey
  | @cons round below before began hbelow hle hround ih =>
    have hall := Accounts.cons hbelow hle hround
    rcases mem_waitingKeys_cons.1 hkey with hkey | hkey
    · obtain ⟨result, floor, hentry, hfloor, hvouched⟩ := hround.waits key hkey
      obtain ⟨frame, earlier, hnumber, hearlier, hsince⟩ :=
        hall.frame hnodup (Nat.lt_succ_of_le hfloor)
      exact ⟨result, floor, frame, earlier, hentry, hnumber, hsince,
        hvouched.mono (Nat.le_refl _) hearlier⟩
    · obtain ⟨hround', hbelow'⟩ := List.nodup_cons.1 hnodup
      obtain ⟨result, floor, frame, earlier, hentry, hnumber, hrest⟩ := ih hbelow' hkey
      exact ⟨result, floor, frame, earlier, hentry, numberIn_cons hround' hnumber, hrest⟩

end GrammarLookahead.Search
