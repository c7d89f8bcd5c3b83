import GrammarLookahead.Proofs.Analysis.ExpansionContract
import GrammarLookahead.Proofs.Analysis.LeastSolution
import GrammarLookahead.Proofs.Analysis.SearchView

/-!
The invariant of a search. Values lie below the least solution and below the right-hand sides of
their equations. As long as a round is stable, what was read for it and for the results that wait
for it is still the value, and was read within its scope: from finished keys and, not below its
floor, from results that wait and from suspended keys that were met again.

The rounds of a search are listed topmost first; the number of a round is the number of rounds
below it.
-/

namespace GrammarLookahead.Search

open Reading (Between)
open Grammar (Answers)

/-- Whether a floor lies at or below a number. -/
def Reaches (floor : Option Nat) (number : Nat) : Prop := ∃ f, floor = some f ∧ f ≤ number

/-- The keys whose values a round with a floor may rely on. -/
def Scope (v : View) (floor : Option Nat) : List Round → Key → Prop
  | [], q => v.finished q
  | r :: below, q =>
    Reaches floor below.length ∧ (q = r.key ∧ r.reentered = true ∨ q ∈ r.waiting) ∨
      Scope v floor below q

/-- The keys of rounds and of the results that wait for them. -/
def held (rounds : List Round) : List Key := rounds.flatMap fun r => r.key :: r.waiting

/-- The keys of the results that wait for rounds. -/
def waitingKeys (rounds : List Round) : List Key := rounds.flatMap Round.waiting

/-- A result that agrees with its expansion, all of whose answers are values within a scope. -/
structure Settled (g : Grammar) (v : View) (scope : Key → Prop) (key : Key) : Prop where
  eval : (g.expand key).eval v.value = .ok (v.value key)
  reads : ∀ q ∈ (g.expand key).keysRead v.value, scope q

variable (g : Grammar) (depth : Nat)

/-- What holds of a round, given the rounds below it, what is left to read in it, and a bound on
the questions left. -/
structure RoundInvariant (v : View) (below : List Round) (round : Round) (n : Nat)
    (reading : Reading LookaheadSet) : Prop where
  key : g.HasKey depth round.key
  waits : ∀ k ∈ round.waiting, ∃ f, v.pending k = some (v.value k, f) ∧ f ≤ below.length
  meets : ∀ high, g.Below depth v.value high → g.Below depth high g.lookahead →
    reading.Meets (g.Asks g.lookahead round.key) (Answers v.value high) n
      (Between (v.value round.key) (g.equation high round.key))
  settled : round.unstable = false → ∀ k ∈ round.waiting,
    Settled g v (Scope v round.floor (round :: below)) k
  leads : round.unstable = false →
    (g.expand round.key).LeadsTo v.value (Scope v round.floor (round :: below)) reading

/-- What holds of suspended rounds, the topmost of which waits for a key; `cost` bounds the steps
that they have left without what they wait for. -/
inductive StackInvariant (v : View) (start : Key) : List Frame → Key → Nat → Prop where
  | nil : StackInvariant v start [] start 0
  | cons {f : Frame} {below : List Frame} {q : Key} {n cost : Nat}
      (hround : RoundInvariant g depth v (below.map Frame.round) f.round (n + 1)
        (.ask q f.resume))
      (hbelow : StackInvariant v start below f.round.key cost) :
      StackInvariant v start (f :: below) q (cost + 3 * n + 2)

/-- What holds of the keys of a search with given rounds. -/
structure KeyInvariant (v : View) (rounds : List Round) : Prop where
  below : g.Below depth v.value g.lookahead
  grows : g.Below depth v.value (g.equation v.value)
  exact : ∀ k, v.finished k → v.value k = g.lookahead k
  closed : ∀ k, v.finished k → ∀ q ∈ (g.expand k).keysRead g.lookahead, v.finished q
  nodup : (held rounds).Nodup
  hasKey : ∀ k ∈ held rounds, g.HasKey depth k
  unfinished : ∀ k ∈ held rounds, ¬ v.finished k
  pending : ∀ k entry, v.pending k = some entry → k ∈ waitingKeys rounds

/-- Whether the topmost suspended round may rely on the value of a key. -/
def Available (v : View) : List Frame → Key → Prop
  | [], q => v.finished q
  | f :: below, q =>
    f.round.unstable = false → Scope v f.round.floor (f.round :: below.map Frame.round) q

/-- The rounds of a search, topmost first. -/
def rounds (s : Search) : List Round :=
  match s.control with
  | .run round _ => round :: s.stack.map Frame.round
  | _ => s.stack.map Frame.round

/-- What holds of what a search does next. -/
def ControlInvariant (start : Key) (s : Search) (cost : Nat) : Prop :=
  match s.control with
  | .look q => ∃ c, cost = c + 1 ∧ StackInvariant g depth s.view start s.stack q c
  | .run round reading => ∃ c n, cost = c + 3 * n + 1 ∧
      RoundInvariant g depth s.view (s.stack.map Frame.round) round n reading ∧
      StackInvariant g depth s.view start s.stack round.key c
  | .answer result => ∃ q, StackInvariant g depth s.view start s.stack q cost ∧
      result = s.value q ∧ Available s.view s.stack q
  | .broken _ => False

/-- The invariant of a search for a key. -/
structure Invariant (start : Key) (s : Search) (cost : Nat) : Prop where
  hasKey : g.HasKey depth start
  keys : KeyInvariant g depth s.view s.rounds
  control : ControlInvariant g depth start s cost

variable {g depth} {v v' : View} {below below' rounds' : List Round} {round round' : Round}
  {floor floor' : Option Nat} {start key q : Key} {n cost : Nat} {reading : Reading LookaheadSet}
  {stack stack' : List Frame}

section

variable {s : Search} {result : LookaheadSet} {reason : Breakdown}

theorem rounds_of_look (hcontrol : s.control = .look q) : s.rounds = s.stack.map Frame.round := by
  rw [rounds, hcontrol]

theorem rounds_of_answer (hcontrol : s.control = .answer result) :
    s.rounds = s.stack.map Frame.round := by
  rw [rounds, hcontrol]

theorem rounds_of_run (hcontrol : s.control = .run round reading) :
    s.rounds = round :: s.stack.map Frame.round := by
  rw [rounds, hcontrol]

variable (h : Invariant g depth start s cost)
include h

theorem Invariant.of_look (hcontrol : s.control = .look q) :
    ∃ c, cost = c + 1 ∧ StackInvariant g depth s.view start s.stack q c := by
  have hnext := h.control
  rwa [ControlInvariant, hcontrol] at hnext

theorem Invariant.of_run (hcontrol : s.control = .run round reading) :
    ∃ c n, cost = c + 3 * n + 1 ∧
      RoundInvariant g depth s.view (s.stack.map Frame.round) round n reading ∧
      StackInvariant g depth s.view start s.stack round.key c := by
  have hnext := h.control
  rwa [ControlInvariant, hcontrol] at hnext

theorem Invariant.of_answer (hcontrol : s.control = .answer result) :
    ∃ q, StackInvariant g depth s.view start s.stack q cost ∧ result = s.value q ∧
      Available s.view s.stack q := by
  have hnext := h.control
  rwa [ControlInvariant, hcontrol] at hnext

theorem Invariant.not_broken (hcontrol : s.control = .broken reason) : False := by
  have hnext := h.control
  rwa [ControlInvariant, hcontrol] at hnext

/-- No round comes to a breakdown. -/
theorem Invariant.not_breaking (hcontrol : s.control = .run round (.broken reason)) : False := by
  obtain ⟨_, _, -, hround, -⟩ := h.of_run hcontrol
  exact hround.meets _ (Grammar.Below.refl _) h.keys.below

end

@[simp] theorem mem_held_cons :
    q ∈ held (round :: below) ↔ q = round.key ∨ q ∈ round.waiting ∨ q ∈ held below := by
  rw [held, List.flatMap_cons, List.mem_append, List.mem_cons, or_assoc]
  rfl

/-- A round whose key and waiting results another round offers as well. -/
structure Covers (r r' : Round) : Prop where
  key : r'.key = r.key
  reentered : r.reentered = true → r'.reentered = true
  waiting : ∀ k ∈ r.waiting, k ∈ r'.waiting

theorem Covers.refl (r : Round) : Covers r r := ⟨rfl, id, fun _ => id⟩

theorem forall₂_covers_refl (rounds : List Round) : List.Forall₂ Covers rounds rounds :=
  List.forall₂_same.2 fun r _ => Covers.refl r

theorem Scope.mono (h : Scope v floor below q) (hfinished : ∀ q, v.finished q → v'.finished q)
    (hfloor : ∀ number, Reaches floor number → Reaches floor' number)
    (hbelow : List.Forall₂ Covers below below') : Scope v' floor' below' q := by
  induction hbelow with
  | nil => exact hfinished q h
  | @cons r r' below below' hr hbelow ih =>
    refine h.imp ?_ ih
    rintro ⟨hreach, hq⟩
    rw [hr.key, ← hbelow.length_eq]
    exact ⟨hfloor _ hreach, hq.imp (fun hq => ⟨hq.1, hr.reentered hq.2⟩) (hr.waiting q)⟩

theorem Scope.finished_or_held (h : Scope v floor below q) : v.finished q ∨ q ∈ held below := by
  induction below with
  | nil => exact Or.inl h
  | cons r below ih =>
    rw [mem_held_cons]
    rcases h with ⟨-, ⟨hq, -⟩ | hq⟩ | h
    · exact Or.inr (Or.inl hq)
    · exact Or.inr (Or.inr (Or.inl hq))
    · exact (ih h).imp_right fun hq => Or.inr (Or.inr hq)

/-- Above the floor nothing but finished keys can be relied on. -/
theorem Scope.finished (h : Scope v floor below q)
    (hfloor : ∀ f, floor = some f → below.length ≤ f) : v.finished q := by
  induction below with
  | nil => exact h
  | cons r below ih =>
    rw [List.length_cons] at hfloor
    rcases h with ⟨⟨f, hf, hle⟩, -⟩ | h
    · have := hfloor f hf
      omega
    · exact ih h fun f hf => Nat.le_of_succ_le (hfloor f hf)

/-- A round that goes on for the same key and relies on no less than before. -/
structure Extends (r r' : Round) : Prop where
  key : r'.key = r.key
  waiting : r'.waiting = r.waiting
  unstable : r'.unstable = r.unstable
  reentered : r.reentered = true → r'.reentered = true
  floor : ∀ number, Reaches r.floor number → Reaches r'.floor number

theorem Extends.refl (r : Round) : Extends r r := ⟨rfl, rfl, rfl, id, fun _ => id⟩

theorem Extends.trans {r r' r'' : Round} (h : Extends r r') (k : Extends r' r'') : Extends r r'' :=
  ⟨k.key.trans h.key, k.waiting.trans h.waiting, k.unstable.trans h.unstable,
    fun hr => k.reentered (h.reentered hr), fun n hn => k.floor n (h.floor n hn)⟩

theorem Extends.covers (h : Extends round round') : Covers round round' :=
  ⟨h.key, h.reentered, fun _ hk => h.waiting ▸ hk⟩

theorem held_eq_of_extends (h : List.Forall₂ Extends below below') : held below' = held below := by
  induction h with
  | nil => rfl
  | cons hr _ ih =>
    unfold held
    rw [List.flatMap_cons, hr.key, hr.waiting]
    exact congrArg _ ih

theorem waitingKeys_eq_of_extends (h : List.Forall₂ Extends below below') :
    waitingKeys below' = waitingKeys below := by
  induction h with
  | nil => rfl
  | cons hr _ ih =>
    unfold waitingKeys
    rw [List.flatMap_cons, hr.waiting]
    exact congrArg _ ih

variable (g depth) in
/-- Values that have grown, but not at the keys that rounds rely on. -/
structure Grown (v v' : View) (rounds : List Round) : Prop where
  value : g.Below depth v.value v'.value
  finished : ∀ q, v.finished q → v'.finished q
  agree : ∀ q, v.finished q ∨ q ∈ held rounds → v'.value q = v.value q
  pending : ∀ q ∈ held rounds, v'.pending q = v.pending q

theorem Grown.refl (v : View) (rounds : List Round) : Grown g depth v v rounds :=
  ⟨Grammar.Below.refl _, fun _ => id, fun _ _ => rfl, fun _ _ => rfl⟩

theorem Grown.tail (h : Grown g depth v v' (round :: below)) : Grown g depth v v' below := by
  have hmem : ∀ q ∈ held below, q ∈ held (round :: below) := fun q hq => by simp [hq]
  exact ⟨h.value, h.finished, fun q hq => h.agree q (hq.imp_right (hmem q)),
    fun q hq => h.pending q (hmem q hq)⟩

theorem Settled.mono {scope scope' : Key → Prop} (h : Settled g v scope key)
    (hvalue : v'.value key = v.value key)
    (hscope : ∀ q, scope q → v'.value q = v.value q ∧ scope' q) : Settled g v' scope' key := by
  obtain ⟨heval, hreads⟩ := Reading.eval_congr (F := v.value) (G := v'.value)
    fun q hq => ((hscope q (h.reads q hq)).1).symm
  exact ⟨by rw [← heval, h.eval, hvalue], fun q hq => (hscope q (h.reads q (hreads ▸ hq))).2⟩

theorem RoundInvariant.meets_of_grown (hg : g.Linked)
    (h : RoundInvariant g depth v below round n reading)
    (hgrown : Grown g depth v v' (round :: below)) :
    ∀ high, g.Below depth v'.value high → g.Below depth high g.lookahead →
      reading.Meets (g.Asks g.lookahead round.key) (Answers v'.value high) n
        (Between (v'.value round.key) (g.equation high round.key)) := by
  intro high hlow hhigh
  rw [hgrown.agree _ (Or.inr (by simp))]
  refine (h.meets high (hgrown.value.trans hlow) hhigh).mono (fun _ h => h) ?_ (Nat.le_refl n)
    fun _ h => h
  intro k a hk ha
  have hkey : g.HasKey depth k := (hk.hasKey hg (hg.fits_lookahead depth) h.key).1
  exact ⟨LookaheadSet.le_trans (hgrown.value k hkey) ha.1, ha.2⟩

/-- A round keeps its invariant while values grow elsewhere and while it comes to rely on more. -/
theorem RoundInvariant.mono (hg : g.Linked) (h : RoundInvariant g depth v below round n reading)
    (hgrown : Grown g depth v v' (round :: below)) (hround : Extends round round')
    (hbelow : List.Forall₂ Extends below below') :
    RoundInvariant g depth v' below' round' n reading := by
  have hscope : ∀ q, Scope v round.floor (round :: below) q →
      v'.value q = v.value q ∧ Scope v' round'.floor (round' :: below') q := fun q hq =>
    ⟨hgrown.agree q hq.finished_or_held, hq.mono hgrown.finished hround.floor
      (.cons hround.covers (hbelow.imp fun _ _ => Extends.covers))⟩
  have hwaitMem : ∀ k ∈ round.waiting, k ∈ held (round :: below) := fun k hk => by
    simp [hk]
  constructor
  · exact hround.key ▸ h.key
  · intro k hk
    rw [hround.waiting] at hk
    obtain ⟨f, hpending, hf⟩ := h.waits k hk
    refine ⟨f, ?_, hbelow.length_eq ▸ hf⟩
    rw [hgrown.pending k (hwaitMem k hk), hgrown.agree k (Or.inr (hwaitMem k hk)), hpending]
  · rw [hround.key]
    exact h.meets_of_grown hg hgrown
  · intro hstable k hk
    rw [hround.unstable] at hstable
    rw [hround.waiting] at hk
    exact (h.settled hstable k hk).mono (hgrown.agree k (Or.inr (hwaitMem k hk))) hscope
  · intro hstable
    rw [hround.unstable] at hstable
    rw [hround.key]
    exact (h.leads hstable).mono fun q hq => ⟨(hscope q hq).2, ((hscope q hq).1).symm⟩

/-- The frames of a stack, each relying on no less than before. -/
def FrameExtends (f f' : Frame) : Prop := Extends f.round f'.round ∧ f'.resume = f.resume

theorem forall₂_rounds (h : List.Forall₂ FrameExtends stack stack') :
    List.Forall₂ Extends (stack.map Frame.round) (stack'.map Frame.round) :=
  List.forall₂_map_left_iff.2 (List.forall₂_map_right_iff.2 (h.imp fun _ _ hf => hf.1))

theorem StackInvariant.mono (hg : g.Linked) (h : StackInvariant g depth v start stack q cost)
    (hgrown : Grown g depth v v' (stack.map Frame.round))
    (hstack : List.Forall₂ FrameExtends stack stack') :
    StackInvariant g depth v' start stack' q cost := by
  induction h generalizing stack' with
  | nil =>
    cases hstack
    exact .nil
  | @cons f below q n cost hround hbelow ih =>
    cases hstack with
    | @cons _ f' _ below' hf htail =>
      refine .cons ?_ (hf.1.key ▸ ih hgrown.tail htail)
      rw [hf.2]
      exact hround.mono hg hgrown hf.1 (forall₂_rounds htail)

theorem forall₂_frameExtends_refl (stack : List Frame) : List.Forall₂ FrameExtends stack stack :=
  List.forall₂_same.2 fun f _ => ⟨Extends.refl f.round, rfl⟩

theorem forall₂_frameExtends_trans {stack'' : List Frame}
    (h : List.Forall₂ FrameExtends stack stack') (k : List.Forall₂ FrameExtends stack' stack'') :
    List.Forall₂ FrameExtends stack stack'' := by
  induction h generalizing stack'' with
  | nil => exact k
  | cons hf _ ih =>
    cases k with
    | cons kf kbelow => exact .cons ⟨hf.1.trans kf.1, kf.2.trans hf.2⟩ (ih kbelow)

theorem StackInvariant.hasKey (hg : g.Linked) (h : StackInvariant g depth v start stack q cost)
    (hstart : g.HasKey depth start) (hvalue : g.Below depth v.value g.lookahead) :
    g.HasKey depth q := by
  cases h with
  | nil => exact hstart
  | cons hround hbelow =>
    have hasks := (hround.meets _ hvalue (Grammar.Below.refl _)).1
    exact (hasks.hasKey hg (hg.fits_lookahead depth) hround.key).1

/-- A result that waits for one of the suspended rounds lies in the scope of any floor that reaches
its own. -/
theorem StackInvariant.scope_of_waiting (h : StackInvariant g depth v start stack key cost)
    (hq : q ∈ waitingKeys (stack.map Frame.round)) :
    ∃ f, v.pending q = some (v.value q, f) ∧
      ∀ floor, Reaches floor f → Scope v floor (stack.map Frame.round) q := by
  induction h with
  | nil => simp [waitingKeys] at hq
  | @cons f below _ n cost hround hbelow ih =>
    rw [List.map_cons, waitingKeys, List.flatMap_cons, List.mem_append] at hq
    rcases hq with hq | hq
    · obtain ⟨floor, hpending, hle⟩ := hround.waits q hq
      refine ⟨floor, hpending, ?_⟩
      rintro _ ⟨f', rfl, hf'⟩
      exact Or.inl ⟨⟨f', rfl, Nat.le_trans hf' hle⟩, Or.inr hq⟩
    · obtain ⟨floor, hpending, hscope⟩ := ih hq
      exact ⟨floor, hpending, fun floor' hreach => Or.inr (hscope floor' hreach)⟩

/-- A suspended key that was met again lies in the scope of any floor that reaches its number. -/
theorem scope_of_reentered {position : Nat} (h : below[position]? = some round)
    (hreentered : round.reentered = true) (hreach : Reaches floor (below.length - 1 - position)) :
    Scope v floor below round.key := by
  induction below generalizing position with
  | nil => simp at h
  | cons r below ih =>
    cases position with
    | zero =>
      obtain rfl : r = round := Option.some.inj h
      exact Or.inl ⟨by simpa using hreach, Or.inl ⟨rfl, hreentered⟩⟩
    | succ position =>
      refine Or.inr (ih h ?_)
      have hlength : (r :: below).length - 1 - (position + 1) = below.length - 1 - position := by
        rw [List.length_cons]
        omega
      rwa [hlength] at hreach

theorem extends_lowerFloor (r : Round) (number : Nat) : Extends r (r.lowerFloor number) := by
  refine ⟨rfl, rfl, rfl, id, ?_⟩
  rintro n ⟨f, hf, hle⟩
  exact ⟨min number f, by simp [Round.lowerFloor, hf], by omega⟩

theorem reaches_lowerFloor (r : Round) (number : Nat) :
    Reaches (r.lowerFloor number).floor number := by
  cases hf : r.floor with
  | none => exact ⟨number, by simp [Round.lowerFloor, hf], Nat.le_refl _⟩
  | some f => exact ⟨min number f, by simp [Round.lowerFloor, hf], Nat.min_le_left _ _⟩

theorem extends_reenter (r : Round) : Extends r { r with reentered := true } :=
  ⟨rfl, rfl, rfl, fun _ => rfl, fun _ => id⟩

theorem forall₂_mapTop {f : Round → Round} (hf : ∀ r, Extends r (f r)) (stack : List Frame) :
    List.Forall₂ FrameExtends stack (stack.modifyHead (Frame.mapRound f)) := by
  cases stack with
  | nil => exact .nil
  | cons frame below => exact .cons ⟨hf frame.round, rfl⟩ (forall₂_frameExtends_refl below)

theorem forall₂_modify {f : Round → Round} (hf : ∀ r, Extends r (f r)) (stack : List Frame)
    (position : Nat) :
    List.Forall₂ FrameExtends stack (stack.modify position (Frame.mapRound f)) := by
  induction stack generalizing position with
  | nil => simp
  | cons frame below ih =>
    cases position with
    | zero => exact .cons ⟨hf frame.round, rfl⟩ (forall₂_frameExtends_refl below)
    | succ position => exact .cons ⟨Extends.refl _, rfl⟩ (ih position)

theorem KeyInvariant.extends (h : KeyInvariant g depth v below)
    (hbelow : List.Forall₂ Extends below below') : KeyInvariant g depth v below' := by
  obtain ⟨hbelow', hgrows, hexact, hclosed, hnodup, hkeys, hunfinished, hpending⟩ := h
  rw [← held_eq_of_extends hbelow] at hnodup hkeys hunfinished
  rw [← waitingKeys_eq_of_extends hbelow] at hpending
  exact ⟨hbelow', hgrows, hexact, hclosed, hnodup, hkeys, hunfinished, hpending⟩

/-- A round begins with the whole expansion of its key. -/
theorem RoundInvariant.begin (hg : g.Linked) (hkey : g.HasKey depth key)
    (hgrows : g.Below depth v.value (g.equation v.value)) :
    RoundInvariant g depth v below { key } (readBound g depth) (g.expand key) := by
  refine ⟨hkey, by simp, fun high hlow hhigh => ?_, by simp, fun _ => .refl _⟩
  have hfits : g.Fits depth high := (hg.fits_lookahead depth).of_below hhigh
  have hbound : readBound g key.depth ≤ readBound g depth := by
    have := hkey.le
    unfold readBound
    omega
  refine (hg.expand_meets hfits hlow hkey).mono (fun q hq => hq.mono hg hhigh hkey)
    (fun _ _ _ ha => ha) hbound fun a ha => ?_
  exact ⟨LookaheadSet.le_trans (hgrows key hkey) ha.1, ha.2⟩

/-- A round goes on with the value of the key that it asked for. -/
theorem RoundInvariant.answer {resume : LookaheadSet → Reading LookaheadSet}
    (h : RoundInvariant g depth v below round (n + 1) (.ask q resume)) (hq : g.HasKey depth q)
    (hscope : round.unstable = false → Scope v round.floor (round :: below) q) :
    RoundInvariant g depth v below round n (resume (v.value q)) := by
  refine ⟨h.key, h.waits, fun high hlow hhigh => ?_, h.settled, fun hstable => ?_⟩
  · obtain ⟨-, m, hm, hgo⟩ := h.meets high hlow hhigh
    obtain rfl : n = m := Nat.succ.inj hm
    exact hgo _ ⟨LookaheadSet.le_refl _, hlow q hq⟩
  · exact (h.leads hstable).step (hscope hstable)

end GrammarLookahead.Search
