import GrammarLookahead.Proofs.Analysis.Safety
import GrammarLookahead.Proofs.Analysis.SearchLog

/-!
How much work an analysis does. As long as nothing is cleared, no key is expanded twice between two
repetitions of a round, in whatever queries these lie; so the expansions are bounded by the
repetitions and the number of keys, and without a repetition there are as many expansions as
finished results. Main statement: `Description.work_bounded`.
-/

namespace GrammarLookahead

open Search (Log keyBound)

variable {g : Grammar} {m : Memory} {key : Key} {keys : List Key} {question : Question}
  {depth : Nat} {earlier : Log}

/-- A search for a key whose expansion asks for nothing ends with the first round. -/
theorem Memory.search_of_done {result : LookaheadSet} (hcache : m.cache[key]? = none)
    (hdone : g.expand key = .done result) : m.search g key =
      { control := .answer result, provisional := (∅ : Std.HashMap Key LookaheadSet).erase key,
        memory := m.countExpansion.finish key result } := by
  obtain ⟨n, hn⟩ : ∃ n, Search.stepBound g key.depth = n + 2 := by
    refine ⟨Search.stepBound g key.depth - 2, (Nat.sub_add_cancel ?_).symm⟩
    exact Nat.le_trans (by omega) (Nat.le_mul_of_pos_left _ (Nat.mul_pos (by omega) (by omega)))
  have hbegin : ({ control := .look key, memory := m } : Search).step g =
      { control := .run { key } (.done result), memory := m.countExpansion } := by
    simp [Search.step, Search.look, Search.begin, hcache, hdone]
  unfold Memory.search
  rw [hn, Search.run, if_neg (by simp [Search.isOver]), hbegin, Search.run,
    if_neg (by simp [Search.isOver])]
  exact Search.run_of_isOver rfl

namespace Question

/-- What a query expands and where it repeats a round. -/
def log (g : Grammar) (m : Memory) (question : Question) : Log :=
  match question.validKey? g with
  | some key =>
    Search.log g (Search.stepBound g key.depth) { control := .look key, memory := m.countQuery }
  | none => []

theorem expansions_log : (question.log g m).expansions = question.expanded g m := by
  unfold log expanded
  cases question.validKey? g with
  | some key => exact Search.expansions_log
  | none => rfl

/-- A query counts as many repetitions as its log lists. -/
theorem iterations_ask (hg : g.Linked) (question : Question) :
    (question.ask g m).2.work.fixpointIterations =
      m.work.fixpointIterations + (question.log g m).repetitions := by
  cases hkey : question.validKey? g with
  | some key =>
    obtain ⟨-, hask⟩ := question.ask_of_validKey? (m := m) hg hkey
    rw [hask, log, hkey]
    exact Search.iterations_run
  | none =>
    obtain ⟨e, hask, -⟩ := question.ask_of_not_validKey? (m := m) hg hkey
    rw [hask, log, hkey]
    rfl

end Question

namespace Memory

/-- A query expands keys of the grammar that look no further ahead than the query. -/
theorem Kept.hasKey_expanded (h : m.Kept g keys) (hg : g.Linked) :
    ∀ k ∈ question.expanded g m, g.HasKey question.depth k := by
  intro k hk
  cases hkey : question.validKey? g with
  | none =>
    rw [Question.expanded, hkey] at hk
    exact absurd hk List.not_mem_nil
  | some key =>
    obtain ⟨hhas, -⟩ := question.ask_of_validKey? (m := m) hg hkey
    obtain ⟨hdepth, -⟩ := Question.key_of_key? (Option.filter_eq_some_iff.1 hkey).1
    have hcount : m.countQuery.Faithful g := h.faithful.of_cache_eq rfl
    have hinv := Search.invariant_start hg hcount ⟨hhas.node, hhas.pos, Nat.le_refl _⟩
    obtain ⟨cost, hend, hover⟩ := hinv.run hg (Search.measure_start_le g key.depth _)
    have htracks := (Search.tracks_start m.countQuery).run (n := Search.stepBound g key.depth) hg hinv
    rw [Question.expanded, hkey] at hk
    exact hdepth ▸ (htracks.finished_of_mem hg hend hover hk).2

/-- A query goes on with a log in which no key is expanded twice between two repetitions, as long as
the keys of the last stretch are finished. -/
theorem Kept.distinct_log (h : m.Kept g keys) (hg : g.Linked) (hearlier : earlier.Distinct)
    (hlatest : ∀ k ∈ earlier.latest, k ∈ m.cache) :
    (earlier ++ question.log g m).Distinct := by
  cases hkey : question.validKey? g with
  | none => rwa [Question.log, hkey, List.append_nil]
  | some key =>
    obtain ⟨hhas, -⟩ := question.ask_of_validKey? (m := m) hg hkey
    have hcount : m.countQuery.Faithful g := h.faithful.of_cache_eq rfl
    have hinv := Search.invariant_start hg hcount ⟨hhas.node, hhas.pos, Nat.le_refl _⟩
    have hstart : Search.Frugal earlier { control := .look key, memory := m.countQuery } :=
      ⟨hearlier, fun k hk => Or.inl (hlatest k hk)⟩
    rw [Question.log, hkey]
    exact (hstart.run hg hinv).distinct

end Memory

/-- What a number of queries expand and where they repeat a round, after an earlier log. -/
def logFrom (g : Grammar) (m : Memory) (log : Log) : List Question → Log
  | [] => log
  | question :: questions =>
    logFrom g (question.ask g m).2 (log ++ question.log g m) questions

/-- The log of a session of queries in which nothing is cleared. -/
def sessionLog (g : Grammar) (questions : List Question) : Log := logFrom g {} [] questions

/-- A memory with the log of the queries that led to it. -/
structure Memory.Logged (g : Grammar) (depth : Nat) (log : Log) (m : Memory) : Prop where
  kept : m.Kept g log.expansions
  expansions : m.work.expansions = log.expansions.length
  repetitions : m.work.fixpointIterations = log.repetitions
  distinct : log.Distinct
  hasKey : ∀ k ∈ log.expansions, g.HasKey depth k

namespace Memory.Logged

theorem start : ({} : Memory).Logged g depth [] :=
  ⟨kept_of_cache_eq_empty rfl, rfl, rfl, Search.Log.distinct_nil, fun _ hk =>
    absurd hk List.not_mem_nil⟩

theorem ask (h : m.Logged g depth earlier) (hg : g.Linked) (hdepth : question.depth ≤ depth) :
    (question.ask g m).2.Logged g depth (earlier ++ question.log g m) := by
  have hlatest : ∀ k ∈ earlier.latest, k ∈ m.cache := fun k hk =>
    (h.kept.cached k).2 (Search.Log.mem_expansions_of_latest hk)
  refine ⟨?_, ?_, ?_, h.kept.distinct_log hg h.distinct hlatest, fun k hk => ?_⟩
  · rw [Search.Log.expansions_append, Question.expansions_log]
    exact h.kept.ask hg question
  · rw [Search.Log.expansions_append, Question.expansions_log, question.expansions_ask hg,
      h.expansions, List.length_append]
  · rw [Search.Log.repetitions_append, question.iterations_ask hg, h.repetitions]
  · rw [Search.Log.expansions_append, Question.expansions_log, List.mem_append] at hk
    exact hk.elim (h.hasKey k) fun hk => (h.kept.hasKey_expanded hg k hk).mono hdepth

theorem foldl (h : m.Logged g depth earlier) (hg : g.Linked) {questions : List Question}
    (hdepth : ∀ question ∈ questions, question.depth ≤ depth) :
    ((questions.map Request.ask).foldl (Request.run g) m).Logged g depth
      (logFrom g m earlier questions) := by
  induction questions generalizing m earlier with
  | nil => exact h
  | cons question questions ih =>
    obtain ⟨hquestion, hrest⟩ := List.forall_mem_cons.1 hdepth
    exact ih (h.ask hg hquestion) hrest

/-- Without a repetition every expansion has finished its own key. -/
theorem expansions_eq_cached (h : m.Logged g depth earlier) (hnone : m.work.fixpointIterations = 0) :
    m.work.expansions = m.cached := by
  have hnodup : earlier.expansions.Nodup := by
    rw [← Search.Log.latest_eq_expansions (h.repetitions ▸ hnone)]
    exact h.distinct earlier List.prefix_rfl
  have hperm : earlier.expansions.Perm m.cache.keys := by
    refine (List.perm_ext_iff_of_nodup hnodup Std.HashMap.nodup_keys).2 fun k => ?_
    rw [Std.HashMap.mem_keys, h.kept.cached]
  rw [h.expansions, hperm.length_eq, Std.HashMap.length_keys]
  rfl

end Memory.Logged

/-- The work of an analysis is bounded. As long as nothing is cleared, no key is expanded twice
between two repetitions of a round. So there are at most as many expansions as there are keys, for
the beginning and for each repetition, in all and in each query; and without a repetition there are
as many expansions as finished results. -/
theorem Description.work_bounded {ucd : Unicode} {d : Description} (h : d.build ucd = .ok g)
    {questions : List Question} (hdepth : ∀ question ∈ questions, question.depth ≤ depth)
    (hm : session g (questions.map .ask) = m) :
    m.work.expansions = (sessionLog g questions).expansions.length ∧
      m.work.fixpointIterations = (sessionLog g questions).repetitions ∧
      (∀ (before : Log) (keys : List Key) (after : Log),
        sessionLog g questions = before ++ keys.map .expansion ++ after → keys.Nodup) ∧
      m.work.expansions ≤ (1 + m.work.fixpointIterations) *
        (2 * depth * (g.elements.size + g.blocks.size)) ∧
      (m.work.fixpointIterations = 0 → m.work.expansions = m.cached) ∧
      ∀ (requests : List Request) (question : Question), ∃ expansions repetitions,
        (question.ask g (session g requests)).2.work.expansions =
          (session g requests).work.expansions + expansions ∧
        (question.ask g (session g requests)).2.work.fixpointIterations =
          (session g requests).work.fixpointIterations + repetitions ∧
        expansions ≤ (1 + repetitions) *
          (2 * question.depth * (g.elements.size + g.blocks.size)) := by
  have hg := d.linked_of_build h
  have hlogged : m.Logged g depth (sessionLog g questions) :=
    hm ▸ Memory.Logged.start.foldl hg hdepth
  refine ⟨hlogged.expansions, hlogged.repetitions, fun before keys after heq => ?_, ?_,
    hlogged.expansions_eq_cached, fun requests question => ?_⟩
  · exact (heq ▸ hlogged.distinct).nodup
  · rw [hlogged.expansions, hlogged.repetitions]
    exact hlogged.distinct.length_le hlogged.hasKey
  · have hkept := session_kept hg requests
    refine ⟨_, _, question.expansions_ask hg, question.iterations_ask hg, ?_⟩
    have hdistinct : (question.log g (session g requests)).Distinct :=
      hkept.distinct_log hg Search.Log.distinct_nil fun k hk => absurd hk List.not_mem_nil
    rw [← Question.expansions_log]
    refine hdistinct.length_le fun k hk => ?_
    exact hkept.hasKey_expanded hg k (Question.expansions_log ▸ hk)

/-- One session looks ahead two tokens and repeats rounds; another one needs no repetition. -/
theorem leftRecursiveWords_bounded :
    leftRecursiveWords.build .ascii = .ok leftRecursiveWords.layout ∧
      (∃ m : Memory,
        session leftRecursiveWords.layout [.ask (.rule 2 "s"), .ask (.follow 2 "s")] = m ∧
        (∀ (before : Log) (keys : List Key) (after : Log),
          sessionLog leftRecursiveWords.layout [.rule 2 "s", .follow 2 "s"] =
            before ++ keys.map .expansion ++ after → keys.Nodup) ∧
        m.work.expansions ≤ (1 + m.work.fixpointIterations) * 16) ∧
      ∃ m : Memory, session leftRecursiveWords.layout [.ask (.look 1 (.element ⟨2⟩))] = m ∧
        m.work.fixpointIterations = 0 ∧ m.work.expansions = m.cached := by
  have htwo : ∀ question ∈ [Question.rule 2 "s", .follow 2 "s"], question.depth ≤ 2 := by decide
  have hone : ∀ question ∈ [Question.look 1 (.element ⟨2⟩)], question.depth ≤ 1 := by decide
  obtain ⟨-, -, hdistinct, hbound, -⟩ :=
    Description.work_bounded leftRecursiveWords_build htwo rfl
  obtain ⟨-, -, -, -, hcached, -⟩ :=
    Description.work_bounded leftRecursiveWords_build hone rfl
  have hkey : (Question.look 1 (.element ⟨2⟩)).validKey? leftRecursiveWords.layout =
      some (.element ⟨2⟩ 1 .everywhere) := by decide +kernel
  have hnone : (session leftRecursiveWords.layout
      [.ask (.look 1 (.element ⟨2⟩))]).work.fixpointIterations = 0 := by
    show ((Question.look 1 _).ask leftRecursiveWords.layout {}).2.work.fixpointIterations = 0
    have hg := leftRecursiveWords.linked_of_build leftRecursiveWords_build
    rw [(Question.ask_of_validKey? hg hkey).2, Grammar.ask,
      Memory.search_of_done Std.HashMap.getElem?_empty rfl]
    rfl
  exact ⟨leftRecursiveWords_build, ⟨_, rfl, hdistinct, hbound⟩, _, rfl, hnone, hcached hnone⟩

end GrammarLookahead
