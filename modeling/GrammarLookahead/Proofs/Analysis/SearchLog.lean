import GrammarLookahead.Proofs.Analysis.SearchTrace

/-!
The log of a search: which keys it expands and where it repeats a round. A key that has been
expanded is finished or held by a round until a round is repeated, so between two repetitions no key
is expanded twice. Main statements: `Search.Frugal.run` and `Search.Log.Distinct.length_le`.
-/

namespace GrammarLookahead.Search

/-- What a search does that its counters record. -/
inductive Event where
  /-- A round is repeated. -/
  | repetition
  /-- A round of expanding a key begins. -/
  | expansion (key : Key)
  deriving DecidableEq

def Event.key? : Event → Option Key
  | repetition => none
  | expansion key => some key

abbrev Log := List Event

namespace Log

/-- The keys that are expanded, in order; a key that is expanded in several rounds is listed as
often. -/
def expansions (log : Log) : List Key := log.filterMap Event.key?

def repetitions (log : Log) : Nat := log.count .repetition

/-- The keys expanded since the last repetition. -/
def latest (log : Log) : List Key :=
  log.foldl (fun keys event => event.key?.elim [] fun key => keys ++ [key]) []

/-- At no point has a key been expanded twice since the last repetition. -/
def Distinct (log : Log) : Prop := ∀ before : Log, before <+: log → before.latest.Nodup

variable {g : Grammar} {depth : Nat} {key : Key} {log before after : Log} {keys : List Key}

@[simp] theorem expansions_append (log more : Log) :
    expansions (log ++ more) = log.expansions ++ more.expansions := List.filterMap_append

@[simp] theorem repetitions_append (log more : Log) :
    repetitions (log ++ more) = log.repetitions + more.repetitions := List.count_append

@[simp] theorem latest_expansion (log : Log) (key : Key) :
    latest (log ++ [.expansion key]) = log.latest ++ [key] := by
  rw [latest, List.foldl_append]
  rfl

@[simp] theorem latest_repetition (log : Log) : latest (log ++ [.repetition]) = [] := by
  rw [latest, List.foldl_append]
  rfl

theorem latest_expansions (log : Log) (keys : List Key) :
    latest (log ++ keys.map .expansion) = log.latest ++ keys := by
  induction keys generalizing log with
  | nil => rw [List.map_nil, List.append_nil, List.append_nil]
  | cons key keys ih =>
    rw [List.map_cons, List.append_cons, ih, latest_expansion, ← List.append_cons]

theorem mem_expansions_of_latest (h : key ∈ log.latest) : key ∈ log.expansions := by
  induction log using List.reverseRecOn with
  | nil => exact absurd h List.not_mem_nil
  | append_singleton log event ih =>
    rw [expansions_append, List.mem_append]
    cases event with
    | repetition => simp at h
    | expansion k =>
      rw [latest_expansion, List.mem_append] at h
      exact h.imp_left ih

/-- Without a repetition, all keys have been expanded since the last one. -/
theorem latest_eq_expansions (h : log.repetitions = 0) : log.latest = log.expansions := by
  induction log using List.reverseRecOn with
  | nil => rfl
  | append_singleton log event ih =>
    rw [repetitions_append] at h
    cases event with
    | repetition => exact absurd h (by simp [repetitions])
    | expansion key =>
      rw [latest_expansion, expansions_append, ih (by omega)]
      rfl

theorem distinct_nil : Distinct [] := fun before h => by
  rw [List.prefix_nil.1 h]
  exact List.nodup_nil

theorem distinct_concat {event : Event} :
    Distinct (log ++ [event]) ↔ log.Distinct ∧ (latest (log ++ [event])).Nodup := by
  constructor
  · exact fun h => ⟨fun before hb => h before (hb.trans (List.prefix_append _ _)),
      h _ List.prefix_rfl⟩
  · rintro ⟨h, hlast⟩ before hb
    rcases List.prefix_concat_iff.1 hb with rfl | hb
    · exact hlast
    · exact h before hb

/-- Expansions without a repetition in between are of different keys. -/
theorem Distinct.nodup (h : Distinct (before ++ keys.map .expansion ++ after)) : keys.Nodup := by
  have hlatest := h _ (List.prefix_append _ after)
  rw [latest_expansions] at hlatest
  exact (List.nodup_append.1 hlatest).2.1

theorem Distinct.length_latest_le (h : log.Distinct)
    (hkeys : ∀ k ∈ log.expansions, g.HasKey depth k) :
    log.latest.length ≤ keyBound g depth := by
  rw [← List.toFinset_card_of_nodup (h log List.prefix_rfl)]
  refine Nat.le_trans (Finset.card_le_card fun k hk => ?_) (card_keys_le g depth)
  exact mem_keys.2 (hkeys k (mem_expansions_of_latest (List.mem_toFinset.1 hk)))

/-- For each stretch up to a repetition or the end, every key is expanded at most once. -/
theorem Distinct.length_le (h : log.Distinct) (hkeys : ∀ k ∈ log.expansions, g.HasKey depth k) :
    log.expansions.length ≤ (1 + log.repetitions) * keyBound g depth := by
  -- What was expanded up to the last repetition, and what has been expanded since.
  have hall : log.expansions.length ≤
      log.repetitions * keyBound g depth + log.latest.length := by
    induction log using List.reverseRecOn with
    | nil => exact Nat.zero_le _
    | append_singleton log event ih =>
      have hlog := (distinct_concat.1 h).1
      have hkeys' : ∀ k ∈ Log.expansions log, g.HasKey depth k := fun k hk =>
        hkeys k (by rw [expansions_append]; exact List.mem_append_left _ hk)
      have hbefore := ih hlog hkeys'
      have hlatest := hlog.length_latest_le hkeys'
      rw [expansions_append, repetitions_append, List.length_append, Nat.add_mul]
      cases event with
      | repetition =>
        rw [latest_repetition]
        show _ + 0 ≤ _ + 1 * _ + 0
        omega
      | expansion key =>
        rw [latest_expansion, List.length_append]
        show _ + 1 ≤ _ + 0 * _ + (_ + 1)
        omega
  have hlatest := h.length_latest_le hkeys
  rw [Nat.add_mul, Nat.one_mul]
  omega

end Log

/-- What happens between two states of a search. A round that is repeated begins again. -/
def events (s t : Search) : Log :=
  (if s.memory.work.fixpointIterations < t.memory.work.fixpointIterations then [.repetition]
    else []) ++ (begun? s t).toList.map .expansion

/-- What a search does in a number of steps, in order. -/
def log (g : Grammar) : Nat → Search → Log
  | 0, _ => []
  | n + 1, s => if s.isOver then [] else events s (s.step g) ++ log g n (s.step g)

variable {g : Grammar} {depth cost n : Nat} {start key q : Key} {s t : Search} {round : Round}
  {result : LookaheadSet} {earlier : Log}

theorem expansions_events (s t : Search) : (events s t).expansions = (begun? s t).toList := by
  unfold events
  rw [Log.expansions_append]
  cases begun? s t <;> split <;> rfl

/-- The keys that a search expands are those that its log lists. -/
theorem expansions_log : (log g n s).expansions = expanded g n s := by
  induction n generalizing s with
  | zero => rfl
  | succ n ih =>
    rw [log, expanded]
    split
    · rfl
    · rw [Log.expansions_append, expansions_events, ih]

theorem iterations_again : ((s.grow round result).again g round).memory.work.fixpointIterations =
    s.memory.work.fixpointIterations + 1 := by
  show (s.grow round result).memory.work.fixpointIterations + 1 = _
  rw [memory_grow]

/-- A repetition is counted only when an unstable round begins again. -/
theorem Move.iterations (h : Move g s t) :
    t.memory.work.fixpointIterations = s.memory.work.fixpointIterations ∨
      ∃ round result, s.control = .run round (.done result) ∧
        (round.unstable || s.grew round result) = true ∧ t = (s.grow round result).again g round := by
  cases h with
  | metAgain =>
    left
    show (noteLeftRecursion g _ _).work.fixpointIterations = _
    rw [work_noteLeftRecursion]
    rfl
  | postponed =>
    refine Or.inl (congrArg Work.fixpointIterations (?_ : (s.grow _ _).memory.work = _))
    rw [memory_grow]
  | repeated hcontrol _ hunstable => exact Or.inr ⟨_, _, hcontrol, hunstable, rfl⟩
  | committed => exact Or.inl (congrArg Work.fixpointIterations work_commit)
  | _ => exact Or.inl rfl

theorem Move.repetitions (h : Move g s t) : t.memory.work.fixpointIterations =
    s.memory.work.fixpointIterations + (events s t).repetitions := by
  have hbegun : Log.repetitions ((begun? s t).toList.map .expansion) = 0 := by
    cases begun? s t <;> rfl
  rw [events, Log.repetitions_append, hbegun]
  rcases h.iterations with heq | ⟨round, result, -, -, rfl⟩
  · rw [if_neg (by omega), heq]
    rfl
  · rw [iterations_again, if_pos (Nat.lt_succ_self _)]
    rfl

/-- The repetitions that a search counts are those of its log. -/
theorem iterations_run : (run g n s).memory.work.fixpointIterations =
    s.memory.work.fixpointIterations + (log g n s).repetitions := by
  induction n generalizing s with
  | zero => rfl
  | succ n ih =>
    rw [run, log]
    split
    · rfl
    · rw [ih, (move_step g s).repetitions, Log.repetitions_append, Nat.add_assoc]

/-- What holds of the log of a search: at no point has a key been expanded twice since the last
repetition, and the keys expanded since then have not been dropped. -/
structure Frugal (log : Log) (s : Search) : Prop where
  distinct : log.Distinct
  kept : ∀ k ∈ log.latest, k ∈ s.memory.cache ∨ k ∈ held s.rounds

theorem events_of_same (hexpansions : t.memory.work.expansions = s.memory.work.expansions)
    (hiterations : t.memory.work.fixpointIterations = s.memory.work.fixpointIterations) :
    events s t = [] := by
  rw [events, hiterations, if_neg (Nat.lt_irrefl _), begun?_of_same hexpansions]
  rfl

theorem begun?_begin : begun? s (s.begin g key) = some key := by
  rw [begun?_of_counted rfl rfl]

theorem begun?_again : begun? s ((s.grow round result).again g round) = some round.key := by
  rw [begun?_of_counted rfl expansions_again]

theorem events_begin : events s (s.begin g key) = [.expansion key] := by
  rw [events, begun?_begin]
  exact congrArg (· ++ _) (if_neg (Nat.lt_irrefl _))

theorem events_again : events s ((s.grow round result).again g round) =
    [.repetition, .expansion round.key] := by
  rw [events, iterations_again, if_pos (Nat.lt_succ_self _), begun?_again]
  rfl

/-- Moves that begin nothing and drop nothing. -/
theorem Frugal.of_same (h : Frugal earlier s) (hevents : events s t = [])
    (hkept : ∀ k, k ∈ s.memory.cache ∨ k ∈ held s.rounds →
      k ∈ t.memory.cache ∨ k ∈ held t.rounds) :
    Frugal (earlier ++ events s t) t := by
  rw [hevents, List.append_nil]
  exact ⟨h.distinct, fun k hk => hkept k (h.kept k hk)⟩

/-- A key is answered without being expanded. -/
theorem Frugal.answer (h : Frugal earlier s) (hcontrol : s.control = .look key)
    (hanswer : t.control = .answer result) (hevents : events s t = [])
    (hcache : t.memory.cache = s.memory.cache)
    (hstack : List.Forall₂ FrameExtends s.stack t.stack) :
    Frugal (earlier ++ events s t) t := by
  refine h.of_same hevents fun k hk => ?_
  rw [rounds_of_look hcontrol] at hk
  rw [hcache, rounds_of_answer hanswer]
  rwa [held_eq_of_extends (forall₂_rounds hstack)]

/-- The first round of a key begins: the key is neither finished nor held, so it has not been
expanded since the last repetition. -/
theorem Frugal.begin (hf : Frugal earlier s) (hcontrol : s.control = .look key)
    (hcache : key ∉ s.memory.cache) (hidle : key ∉ held (s.stack.map Frame.round)) :
    Frugal (earlier ++ [.expansion key]) (s.begin g key) := by
  have hrounds := rounds_of_look hcontrol
  have hnew : (s.begin g key).rounds = { key } :: s.stack.map Frame.round := rfl
  have hfresh : key ∉ Log.latest earlier := fun hmem =>
    (hf.kept key hmem).elim hcache fun hheld => hidle (hrounds ▸ hheld)
  refine ⟨Log.distinct_concat.2 ⟨hf.distinct, ?_⟩, fun k hk => ?_⟩
  · rw [Log.latest_expansion, ← List.concat_eq_append]
    exact (hf.distinct _ List.prefix_rfl).concat hfresh
  · rw [hnew, mem_held_cons]
    rw [Log.latest_expansion, List.mem_append, List.mem_singleton] at hk
    rcases hk with hk | rfl
    · exact (hf.kept k hk).imp_right fun hheld => Or.inr (Or.inr (hrounds ▸ hheld))
    · exact Or.inr (Or.inl rfl)

theorem Frugal.again (hf : Frugal earlier s) :
    Frugal (earlier ++ [.repetition, .expansion round.key])
      ((s.grow round result).again g round) := by
  have hrepeated : Log.Distinct (earlier ++ [.repetition]) := by
    refine Log.distinct_concat.2 ⟨hf.distinct, ?_⟩
    rw [Log.latest_repetition]
    exact List.nodup_nil
  have hlatest : Log.latest (earlier ++ [.repetition] ++ [.expansion round.key]) = [round.key] := by
    rw [Log.latest_expansion, Log.latest_repetition, List.nil_append]
  rw [← List.singleton_append, ← List.append_assoc]
  refine ⟨Log.distinct_concat.2 ⟨hrepeated, ?_⟩, fun k hk => ?_⟩
  · rw [hlatest]
    exact List.nodup_singleton _
  · rw [hlatest, List.mem_singleton] at hk
    rw [rounds_again, hk]
    exact Or.inr (mem_held_cons.2 (Or.inl rfl))

theorem Frugal.postpone {floor : Nat} {unstable : Bool} (hf : Frugal earlier s)
    (hcontrol : s.control = .run round (.done result)) (hlt : floor < s.stack.length) :
    Frugal (earlier ++ events s ((s.grow round result).postpone round result unstable floor))
      ((s.grow round result).postpone round result unstable floor) := by
  obtain ⟨f, frames, hframes⟩ : ∃ f frames, s.stack = f :: frames :=
    List.exists_cons_of_length_pos (Nat.zero_lt_of_lt hlt)
  have hmemory : ((s.grow round result).postpone round result unstable floor).memory = s.memory :=
    memory_grow
  refine hf.of_same (events_of_same (by rw [hmemory]) (by rw [hmemory])) fun k hk => ?_
  rw [rounds_postpone hframes, mem_held_receive, hmemory]
  rwa [rounds_of_run hcontrol, hframes] at hk

theorem Frugal.commit (hf : Frugal earlier s) (hg : g.Linked) (h : Invariant g depth start s cost)
    (hcontrol : s.control = .run round (.done result)) :
    Frugal (earlier ++ events s ((s.grow round result).commit round result))
      ((s.grow round result).commit round result) := by
  refine hf.of_same (events_of_same (congrArg _ work_commit) (congrArg _ work_commit)) fun k hk => ?_
  rw [rounds_commit, h.mem_cache_commit hg hcontrol]
  rw [rounds_of_run hcontrol, mem_held_cons] at hk
  rcases hk with hk | hk | hk | hk
  · exact Or.inl (Or.inl hk)
  · exact Or.inl (Or.inr (Or.inr hk))
  · exact Or.inl (Or.inr (Or.inl hk))
  · exact Or.inr hk

/-- One step adds its events to the log. -/
theorem Frugal.step (hf : Frugal earlier s) (hg : g.Linked)
    (h : Invariant g depth start s cost) :
    Frugal (earlier ++ events s (s.step g)) (s.step g) := by
  have hmove := move_step g s
  generalize s.step g = t at hmove ⊢
  cases hmove with
  | recalled hcontrol _ =>
    exact hf.answer hcontrol rfl (events_of_same rfl rfl) rfl (forall₂_frameExtends_refl _)
  | @reused key result floor hcontrol _ _ =>
    have hframes := forall₂_mapTop (fun r => extends_lowerFloor r floor) s.stack
    exact hf.answer hcontrol rfl (events_of_same rfl rfl) rfl hframes
  | @metAgain key position hcontrol _ _ =>
    have hwork : (s.breakCycle g key position).memory.work = s.memory.countCycleBreak.work :=
      work_noteLeftRecursion _ _
    exact hf.answer hcontrol rfl (events_of_same (by rw [hwork]; rfl) (by rw [hwork]; rfl))
      (cache_noteLeftRecursion _ _) (forall₂_breakCycle _)
  | begun hcontrol hcache hpending hactive =>
    rw [events_begin]
    exact hf.begin hcontrol hcache (h.not_mem_held hcontrol hpending hactive)
  | asked hcontrol =>
    refine hf.of_same (events_of_same rfl rfl) fun k hk => ?_
    simpa only [rounds, hcontrol, List.map_cons] using hk
  | resumed hcontrol hstack =>
    refine hf.of_same (events_of_same rfl rfl) fun k hk => ?_
    simpa only [rounds, hcontrol, hstack, List.map_cons] using hk
  | postponed hcontrol _ hlt => exact hf.postpone hcontrol hlt
  | repeated hcontrol _ _ =>
    rw [events_again]
    exact hf.again
  | committed hcontrol _ _ => exact hf.commit hg h hcontrol
  | broke hcontrol =>
    exact (h.not_breaking hcontrol).elim
  | stopped _ => exact hf.of_same (events_of_same rfl rfl) fun _ => id

/-- A run adds its log. -/
theorem Frugal.run (hf : Frugal earlier s) (hg : g.Linked)
    (h : Invariant g depth start s cost) :
    Frugal (earlier ++ log g n s) (run g n s) := by
  induction n generalizing s cost earlier with
  | zero => rwa [log, List.append_nil]
  | succ n ih =>
    rw [Search.run, log]
    cases hover : s.isOver with
    | true => rwa [if_pos rfl, if_pos rfl, List.append_nil]
    | false =>
      obtain ⟨cost', h', -⟩ := h.step hg hover
      rw [if_neg Bool.false_ne_true, if_neg Bool.false_ne_true, ← List.append_assoc]
      exact ih (hf.step hg h) h'

end GrammarLookahead.Search
