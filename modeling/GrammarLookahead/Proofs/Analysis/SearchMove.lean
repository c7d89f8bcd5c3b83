import GrammarLookahead.Proofs.Analysis.SearchView

/-!
What one step of a search can do. Everything that is proved of steps goes through the cases listed
here, not through the definition of the step.
-/

namespace GrammarLookahead.Search

/-- The moves of a search, with what is known when they are made. -/
inductive Move (g : Grammar) (s : Search) : Search → Prop where
  /-- A key is answered with its finished result. -/
  | recalled {key : Key} {result : LookaheadSet} (hcontrol : s.control = .look key)
      (hcache : s.memory.cache[key]? = some result) :
      Move g s { s with control := .answer result, memory := s.memory.countCacheHit }
  /-- A key is answered with a result that waits. -/
  | reused {key : Key} {result : LookaheadSet} {floor : Nat} (hcontrol : s.control = .look key)
      (hcache : key ∉ s.memory.cache) (hpending : s.pending[key]? = some (result, floor)) :
      Move g s { s.mapTop (·.lowerFloor floor) with
        control := .answer result
        memory := s.memory.countCacheHit }
  /-- A suspended key is met again. -/
  | metAgain {key : Key} {position : Nat} (hcontrol : s.control = .look key)
      (hcache : key ∉ s.memory.cache)
      (hposition : s.stack.findIdx? (·.round.key = key) = some position) :
      Move g s (s.breakCycle g key position)
  /-- The first round of a key begins. -/
  | begun {key : Key} (hcontrol : s.control = .look key) (hcache : key ∉ s.memory.cache)
      (hpending : s.pending[key]? = none) (hactive : ∀ f ∈ s.stack, f.round.key ≠ key) :
      Move g s (s.begin g key)
  /-- A round asks for a key and is suspended. -/
  | asked {round : Round} {key : Key} {resume : LookaheadSet → Reading LookaheadSet}
      (hcontrol : s.control = .run round (.ask key resume)) :
      Move g s { s with control := .look key, stack := ⟨round, resume⟩ :: s.stack }
  /-- A suspended round goes on with an answer. -/
  | resumed {frame : Frame} {below : List Frame} {result : LookaheadSet}
      (hcontrol : s.control = .answer result) (hstack : s.stack = frame :: below) :
      Move g s { s with control := .run frame.round (frame.resume result), stack := below }
  /-- The result of a round comes to wait for a round below. -/
  | postponed {round : Round} {result : LookaheadSet} {floor : Nat}
      (hcontrol : s.control = .run round (.done result)) (hfloor : round.floor = some floor)
      (hlt : floor < s.stack.length) :
      Move g s ((s.grow round result).postpone round result
        (round.unstable || s.grew round result) floor)
  /-- A round that depends on nothing below is repeated. -/
  | repeated {round : Round} {result : LookaheadSet}
      (hcontrol : s.control = .run round (.done result))
      (hfloor : ∀ f, round.floor = some f → s.stack.length ≤ f)
      (hunstable : (round.unstable || s.grew round result) = true) :
      Move g s ((s.grow round result).again g round)
  /-- The result of a round is finished, with those that wait for the round. -/
  | committed {round : Round} {result : LookaheadSet}
      (hcontrol : s.control = .run round (.done result))
      (hfloor : ∀ f, round.floor = some f → s.stack.length ≤ f)
      (hstable : (round.unstable || s.grew round result) = false) :
      Move g s ((s.grow round result).commit round result)
  | broke {round : Round} {reason : Breakdown} (hcontrol : s.control = .run round (.broken reason)) :
      Move g s { s with control := .broken reason }
  | stopped (hover : s.isOver = true) : Move g s s

variable {g : Grammar} {s : Search} {key : Key} {round : Round} {result : LookaheadSet}

theorem move_look (hcontrol : s.control = .look key) : Move g s (s.look g key) := by
  unfold look
  cases hcache : s.memory.cache[key]? with
  | some result => exact .recalled hcontrol hcache
  | none =>
    have hmem : key ∉ s.memory.cache := by
      rw [Std.HashMap.mem_iff_isSome_getElem?, hcache]
      simp
    cases hpending : s.pending[key]? with
    | some entry => exact .reused hcontrol hmem hpending
    | none =>
      cases hposition : s.stack.findIdx? (·.round.key = key) with
      | some position => exact .metAgain hcontrol hmem hposition
      | none =>
        refine .begun hcontrol hmem hpending fun f hf heq => ?_
        have := List.findIdx?_eq_none_iff.1 hposition f hf
        simp [heq] at this

theorem move_settle (hcontrol : s.control = .run round (.done result)) :
    Move g s (s.settle g round result) := by
  rw [settle_eq]
  cases hfloor : round.floor.filter (· < s.stack.length) with
  | some floor =>
    obtain ⟨hsome, hlt⟩ := Option.filter_eq_some_iff.1 hfloor
    exact .postponed hcontrol hsome (by simpa using hlt)
  | none =>
    have hbelow : ∀ f, round.floor = some f → s.stack.length ≤ f := fun f hf => by
      simpa using Option.filter_eq_none_iff.1 hfloor f hf
    cases hunstable : round.unstable || s.grew round result with
    | true => exact .repeated hcontrol hbelow hunstable
    | false => exact .committed hcontrol hbelow hunstable

/-- The frame at which a key is found to be suspended. -/
theorem exists_suspended {position : Nat}
    (hposition : s.stack.findIdx? (·.round.key = key) = some position) :
    ∃ f, s.stack[position]? = some f ∧ f.round.key = key := by
  obtain ⟨hlt, hkey, -⟩ := List.findIdx?_eq_some_iff_getElem.1 hposition
  exact ⟨s.stack[position], List.getElem?_eq_getElem hlt, by simpa using hkey⟩

/-- Every step is one of the moves. -/
theorem move_step (g : Grammar) (s : Search) : Move g s (s.step g) := by
  unfold step
  cases hcontrol : s.control with
  | look key => exact move_look hcontrol
  | run round reading =>
    cases reading with
    | ask key resume => exact .asked hcontrol
    | done result => exact move_settle hcontrol
    | broken reason => exact .broke hcontrol
  | answer result =>
    cases hstack : s.stack with
    | nil => exact .stopped (by rw [isOver, hcontrol, hstack])
    | cons frame below => exact .resumed hcontrol hstack
  | broken reason => exact .stopped (by rw [isOver, hcontrol])

end GrammarLookahead.Search
