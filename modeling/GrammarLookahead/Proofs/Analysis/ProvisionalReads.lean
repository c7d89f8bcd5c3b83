import GrammarLookahead.Proofs.Analysis.RoundHistory

/-!
What the rounds of a search rely on, told by the steps of its run and without the floors that the
search keeps. A round relies on the provisional value of a suspended round if it reads the value, or
if it takes a result that waits and that was computed by a round which relies on it. Main
statements: `Search.relies_succ` and `Search.Computed.unique`.
-/

namespace GrammarLookahead.Search

/-- The number of the round for a key, that is, the number of rounds below it. -/
def numberIn : List Round → Key → Option Nat
  | [], _ => none
  | round :: below, key => if round.key = key then some below.length else numberIn below key

/-- The number of the round that expands a key. -/
def number? (s : Search) (key : Key) : Option Nat := numberIn s.rounds key

section

variable {rounds below : List Round} {round : Round} {key key' : Key} {number : Nat}
  {stack : List Frame}

theorem numberIn_self : numberIn (round :: below) round.key = some below.length := if_pos rfl

theorem numberIn_lt (h : numberIn rounds key = some number) : number < rounds.length := by
  induction rounds with
  | nil => cases h
  | cons round below ih =>
    rw [numberIn] at h
    split at h
    · rw [← Option.some.inj h]
      exact Nat.lt_succ_self _
    · exact Nat.lt_succ_of_lt (ih h)

theorem mem_keys_iff_numberIn :
    key ∈ rounds.map Round.key ↔ ∃ number, numberIn rounds key = some number := by
  induction rounds with
  | nil => simp [numberIn]
  | cons round below ih =>
    rw [List.map_cons, List.mem_cons, ih, numberIn]
    by_cases hkey : round.key = key
    · simp [hkey]
    · simp [hkey, Ne.symm hkey]

theorem numberIn_cons (hround : round.key ∉ below.map Round.key)
    (h : numberIn below key = some number) : numberIn (round :: below) key = some number := by
  rw [numberIn, if_neg, h]
  rintro rfl
  exact hround (mem_keys_iff_numberIn.2 ⟨number, h⟩)

theorem numberIn_injective (hkey : numberIn rounds key = some number)
    (hkey' : numberIn rounds key' = some number) : key = key' := by
  induction rounds with
  | nil => cases hkey
  | cons round below ih =>
    rw [numberIn] at hkey hkey'
    split at hkey <;> split at hkey'
    · rename_i h h'
      exact h.symm.trans h'
    · exact absurd (numberIn_lt hkey') (Option.some.inj hkey ▸ Nat.lt_irrefl _)
    · exact absurd (numberIn_lt hkey) (Option.some.inj hkey' ▸ Nat.lt_irrefl _)
    · exact ih hkey hkey'

/-- A suspended key is found at the position that its number gives. -/
theorem numberIn_of_findIdx? {position : Nat}
    (h : stack.findIdx? (·.round.key = key) = some position) :
    numberIn (stack.map Frame.round) key = some (stack.length - 1 - position) := by
  induction stack generalizing position with
  | nil => cases h
  | cons frame below ih =>
    rw [List.findIdx?_cons] at h
    rw [List.map_cons, numberIn]
    by_cases hkey : frame.round.key = key
    · simp only [hkey, decide_true, if_true, Option.some.injEq] at h
      rw [if_pos hkey, ← h, List.length_map]
      rfl
    · simp only [hkey, decide_false] at h
      obtain ⟨before, hbefore, rfl⟩ := Option.map_eq_some_iff.1 h
      rw [if_neg hkey, ih hbefore, List.length_cons]
      congr 1
      omega

end

variable (g : Grammar) (origin : Search)

/-- At a time the round with a number asks for the key that the round with a target number expands,
and so reads its provisional value. -/
def Reads (number target time : Nat) : Prop :=
  ∃ key, (run g time origin).control = .look key ∧
    (run g time origin).stack.length = number + 1 ∧ (run g time origin).number? key = some target

/-- At a time the round with a number is given a result that waits: it asks for the key of the
result, or the round above it has computed the result. -/
inductive Takes (number : Nat) (key : Key) (time : Nat) : Prop where
  | asked (hlooks : (run g time origin).control = .look key)
      (hnumber : (run g time origin).stack.length = number + 1)
      (hwaits : key ∈ (run g time origin).pending)
  | handed {result : LookaheadSet} (hends : EndsAt g origin (number + 1) key result time)
      (hwaits : key ∈ (run g (time + 1) origin).pending)

/-- A set is the last one that was computed for a key before a time, by a round with a number that
began and ended at given times. -/
structure Computed (key : Key) (result : LookaheadSet) (number began ended time : Nat) : Prop where
  since : Since g origin number key began ended
  ends : EndsAt g origin number key result ended
  lt : ended < time
  last : ∀ t, ended < t → t < time → ∀ n a, ¬ EndsAt g origin n key a t

/-- Between two times the round with a number relies on the provisional value of the round with a
target number: it reads the value, or it takes a result that waits and that was computed by a round
which relies on the value. -/
inductive Relies : (number began ended target : Nat) → Prop where
  | direct {number began ended target time : Nat} (hlt : began < time) (hlt' : time < ended)
      (hreads : Reads g origin number target time) : Relies number began ended target
  | through {number began ended target time number' began' ended' : Nat} {key : Key}
      {result : LookaheadSet} (hlt : began < time) (hlt' : time < ended)
      (htakes : Takes g origin number key time)
      (hcomputed : Computed g origin key result number' began' ended' (time + 1))
      (hrelies : Relies number' began' ended' target) : Relies number began ended target

/-- At a time the round with a number comes to rely on the provisional value of the round with a
target number. -/
def Gains (number target time : Nat) : Prop :=
  Reads g origin number target time ∨
    ∃ key result number' began' ended', Takes g origin number key time ∧
      Computed g origin key result number' began' ended' (time + 1) ∧
      Relies g origin number' began' ended' target

variable {g origin} {number number' target began began' ended ended' time : Nat} {key key' : Key}
  {result result' : LookaheadSet} {round : Round}

theorem relies_succ :
    Relies g origin number began (time + 1) target ↔
      Relies g origin number began time target ∨
        began < time ∧ Gains g origin number target time := by
  constructor
  · intro h
    cases h with
    | direct hlt hlt' hreads =>
      rcases Nat.lt_succ_iff_lt_or_eq.1 hlt' with hlt' | rfl
      · exact Or.inl (.direct hlt hlt' hreads)
      · exact Or.inr ⟨hlt, Or.inl hreads⟩
    | through hlt hlt' htakes hcomputed hrelies =>
      rcases Nat.lt_succ_iff_lt_or_eq.1 hlt' with hlt' | rfl
      · exact Or.inl (.through hlt hlt' htakes hcomputed hrelies)
      · exact Or.inr ⟨hlt, Or.inr ⟨_, _, _, _, _, htakes, hcomputed, hrelies⟩⟩
  · rintro (h | ⟨hlt, hreads | ⟨key, result, number', began', ended', htakes, hcomputed, hrelies⟩⟩)
    · cases h with
      | direct hlt hlt' hreads => exact .direct hlt (Nat.lt_succ_of_lt hlt') hreads
      | through hlt hlt' htakes hcomputed hrelies =>
        exact .through hlt (Nat.lt_succ_of_lt hlt') htakes hcomputed hrelies
    · exact .direct hlt (Nat.lt_succ_self _) hreads
    · exact .through hlt (Nat.lt_succ_self _) htakes hcomputed hrelies

/-- A round that has just begun relies on nothing. -/
theorem not_relies_begun : ¬ Relies g origin number time (time + 1) target := by
  rintro (⟨hlt, hlt', -⟩ | ⟨hlt, hlt', -⟩)
  · omega
  · omega

theorem Since.unique (h : Since g origin number key began time)
    (h' : Since g origin number key' began' time) : began = began' := by
  rcases Nat.lt_trichotomy began began' with hlt | heq | hlt
  · exact absurd h'.begins (h.last _ hlt h'.lt _)
  · exact heq
  · exact absurd h.begins (h'.last _ hlt h.lt _)

theorem EndsAt.unique (h : EndsAt g origin number key result time)
    (h' : EndsAt g origin number' key' result' time) :
    number = number' ∧ key = key' ∧ result = result' := by
  obtain ⟨round, hcontrol, rfl, rfl⟩ := h
  obtain ⟨round', hcontrol', rfl, rfl⟩ := h'
  obtain ⟨rfl, hdone⟩ := Control.run.inj (hcontrol.symm.trans hcontrol')
  exact ⟨rfl, rfl, Reading.done.inj hdone⟩

/-- What was computed last for a key, and when, is determined. -/
theorem Computed.unique (h : Computed g origin key result number began ended time)
    (h' : Computed g origin key result' number' began' ended' time) :
    result = result' ∧ number = number' ∧ began = began' ∧ ended = ended' := by
  have hended : ended = ended' := by
    rcases Nat.lt_trichotomy ended ended' with hlt | heq | hlt
    · exact absurd h'.ends (h.last _ hlt h'.lt _ _)
    · exact heq
    · exact absurd h.ends (h'.last _ hlt h.lt _ _)
  subst hended
  obtain ⟨rfl, -, rfl⟩ := h.ends.unique h'.ends
  exact ⟨rfl, rfl, h.since.unique h'.since, rfl⟩

theorem Computed.next (h : Computed g origin key result number began ended time)
    (hnone : ∀ n a, ¬ EndsAt g origin n key a time) :
    Computed g origin key result number began ended (time + 1) := by
  refine ⟨h.since, h.ends, Nat.lt_succ_of_lt h.lt, fun t hlt hlt' => ?_⟩
  rcases Nat.lt_succ_iff_lt_or_eq.1 hlt' with hlt' | rfl
  · exact h.last t hlt hlt'
  · exact hnone

theorem Since.computed (h : Since g origin number key began time)
    (hends : EndsAt g origin number key result time) :
    Computed g origin key result number began time (time + 1) :=
  ⟨h, hends, Nat.lt_succ_self _, fun t hlt hlt' => by omega⟩

theorem endsAt_of_run {s : Search} (hs : run g time origin = s)
    (hcontrol : s.control = .run round (.done result)) :
    EndsAt g origin s.stack.length round.key result time := by
  subst hs
  exact ⟨round, hcontrol, rfl, rfl⟩

theorem not_endsAt (h : ∀ round result, (run g time origin).control ≠ .run round (.done result)) :
    ¬ EndsAt g origin number key result time := by
  rintro ⟨round, hcontrol, -⟩
  exact h round result hcontrol

theorem not_endsAt_of_look (hcontrol : (run g time origin).control = .look key') :
    ¬ EndsAt g origin number key result time :=
  not_endsAt fun _ _ => by rw [hcontrol]; nofun

/-- Only the topmost suspended round comes to rely on anything. -/
theorem Gains.length (h : Gains g origin number target time) :
    (run g time origin).stack.length = number + 1 := by
  rcases h with ⟨_, -, hlength, -⟩ | ⟨_, _, _, _, _, htakes, -, -⟩
  · exact hlength
  · cases htakes with
    | asked _ hnumber _ => exact hnumber
    | handed hends _ => exact hends.choose_spec.2.2

theorem Gains.of_look (h : Gains g origin number target time)
    (hcontrol : (run g time origin).control = .look key) :
    (run g time origin).number? key = some target ∨
      key ∈ (run g time origin).pending ∧ ∃ result number' began' ended',
        Computed g origin key result number' began' ended' (time + 1) ∧
        Relies g origin number' began' ended' target := by
  rcases h with ⟨k, hlooks, -, hnumber⟩ | ⟨k, result, n, b, e, htakes, hcomputed, hrelies⟩
  · obtain rfl : k = key := Control.look.inj (hlooks.symm.trans hcontrol)
    exact Or.inl hnumber
  · cases htakes with
    | asked hlooks _ hwaits =>
      obtain rfl : k = key := Control.look.inj (hlooks.symm.trans hcontrol)
      exact Or.inr ⟨hwaits, result, n, b, e, hcomputed, hrelies⟩
    | handed hends _ => exact absurd hends (not_endsAt_of_look hcontrol)

theorem Gains.of_endsAt {number₀ : Nat} (h : Gains g origin number target time)
    (hends : EndsAt g origin number₀ key result time) :
    key ∈ (run g (time + 1) origin).pending ∧ ∃ result number' began' ended',
      Computed g origin key result number' began' ended' (time + 1) ∧
      Relies g origin number' began' ended' target := by
  obtain ⟨round, hcontrol, -⟩ := id hends
  rcases h with ⟨_, hlooks, -⟩ | ⟨k, a, n, b, e, htakes, hcomputed, hrelies⟩
  · exact absurd (hlooks.symm.trans hcontrol) nofun
  · cases htakes with
    | asked hlooks _ _ => exact absurd (hlooks.symm.trans hcontrol) nofun
    | handed hends' hwaits =>
      obtain ⟨-, rfl, -⟩ := hends.unique hends'
      exact ⟨hwaits, a, n, b, e, hcomputed, hrelies⟩

/-- Unless a key is asked for or a round ends, no round comes to rely on anything. -/
theorem not_gains (hlook : ∀ key, (run g time origin).control ≠ .look key)
    (hdone : ∀ round result, (run g time origin).control ≠ .run round (.done result)) :
    ¬ Gains g origin number target time := by
  rintro (⟨k, hlooks, -⟩ | ⟨k, _, _, _, _, htakes, -, -⟩)
  · exact hlook k hlooks
  · cases htakes with
    | asked hlooks _ _ => exact hlook k hlooks
    | handed hends _ => exact not_endsAt hdone hends

end GrammarLookahead.Search
