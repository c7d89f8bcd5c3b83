import GrammarLookahead.Proofs.Analysis.SearchTrace
import GrammarLookahead.Proofs.Analysis.Session

/-!
What an analysis retains from query to query. Every key that was expanded since the memory was last
cleared has its finished result, no other key has, and each result is what the expansion of its key
yields from the finished results alone. So a query that is asked again costs no work. Main
statement: `Description.memory_retains`.
-/

namespace GrammarLookahead

variable {g : Grammar} {m m' : Memory} {key q : Key} {keys : List Key} {result : LookaheadSet}
  {question : Question}

namespace Search

variable {n : Nat} {s : Search}

theorem run_of_isOver (h : s.isOver = true) : run g n s = s := by
  cases n with
  | zero => rfl
  | succ n => rw [run, if_pos h]

theorem stepBound_pos (g : Grammar) (depth : Nat) : 0 < stepBound g depth :=
  Nat.mul_pos (Nat.mul_pos (by omega) (by omega)) (by omega)

end Search

/-- A search for a finished key ends at once. -/
theorem Memory.search_of_cached (h : m.cache[key]? = some result) :
    m.search g key = { control := .answer result, memory := m.countCacheHit } := by
  obtain ⟨n, hn⟩ := Nat.exists_eq_succ_of_ne_zero (Search.stepBound_pos g key.depth).ne'
  have hstep : ({ control := .look key, memory := m } : Search).step g =
      { control := .answer result, memory := m.countCacheHit } := by
    simp only [Search.step, Search.look, h]
  unfold Memory.search
  rw [hn, Search.run, if_neg (by simp [Search.isOver]), hstep]
  exact Search.run_of_isOver rfl

theorem Grammar.ask_of_cached (h : m.cache[key]? = some result) :
    g.ask key m = (.ok result, m.countQuery.countCacheHit) := by
  rw [Grammar.ask, Memory.search_of_cached (m := m.countQuery) h]
  rfl

namespace Question

/-- The key of a query with valid arguments. -/
def validKey? (g : Grammar) (question : Question) : Option Key :=
  (question.key? g).filter fun key => 1 ≤ key.depth ∧ key.depth ≤ g.maxDepth

/-- The keys that a query expands. -/
def expanded (g : Grammar) (m : Memory) (question : Question) : List Key :=
  match question.validKey? g with
  | some key =>
    Search.expanded g (Search.stepBound g key.depth) { control := .look key, memory := m.countQuery }
  | none => []

theorem ask_of_validKey? (hg : g.Linked) (h : question.validKey? g = some key) :
    g.HasKey g.maxDepth key ∧ question.ask g m = g.ask key m := by
  obtain ⟨hkey, hdepth⟩ := Option.filter_eq_some_iff.1 h
  obtain ⟨hpos, hle⟩ := of_decide_eq_true hdepth
  exact ask_eq_of_key? hg hkey hpos hle

theorem ask_of_not_validKey? (hg : g.Linked) (h : question.validKey? g = none) :
    ∃ e, question.ask g m = (.error e, m) ∧ e.Refuses := by
  rcases question.ask_eq (m := m) hg with ⟨key, hkey, -, hask⟩ | ⟨-, hask⟩
  · have hdepth := Option.filter_eq_none_iff.1 h key hkey
    refine ⟨.depthOutOfRange key.depth g.maxDepth, ?_, nofun⟩
    rw [hask, if_pos]
    simp only [decide_eq_true_eq] at hdepth
    omega
  · exact hask

end Question

/-- The keys expanded since the memory was last cleared, after one more request. -/
def Request.expanded (g : Grammar) (m : Memory) (keys : List Key) : Request → List Key
  | ask question => keys ++ question.expanded g m
  | clear => []

/-- The keys expanded since the memory was last cleared, after more requests. -/
def expandedFrom (g : Grammar) (m : Memory) (keys : List Key) : List Request → List Key
  | [] => keys
  | request :: requests => expandedFrom g (request.run g m) (request.expanded g m keys) requests

/-- The keys that a session has expanded since it was last cleared. -/
def sessionExpanded (g : Grammar) (requests : List Request) : List Key :=
  expandedFrom g {} [] requests

/-- The finished results, as a family. -/
def Memory.remembered (m : Memory) : Family := fun key => m.cache.getD key (.empty key.depth)

/-- A memory that has kept the results of the keys that were expanded, and only these; each result
is what the expansion of its key yields from finished results. -/
structure Memory.Retains (g : Grammar) (keys : List Key) (m : Memory) : Prop where
  cached : ∀ key, key ∈ m.cache ↔ key ∈ keys
  eval : ∀ key result, m.cache[key]? = some result → (g.expand key).eval m.remembered = .ok result
  reads : ∀ key ∈ m.cache, ∀ q ∈ (g.expand key).keysRead m.remembered, q ∈ m.cache

/-- What holds of a memory between two requests. -/
structure Memory.Kept (g : Grammar) (keys : List Key) (m : Memory) : Prop where
  faithful : m.Faithful g
  cached : ∀ key, key ∈ m.cache ↔ key ∈ keys
  hasKey : ∀ key ∈ m.cache, g.HasKey g.maxDepth key

namespace Memory

theorem remembered_eq (h : m.cache[key]? = some result) : m.remembered key = result := by
  unfold remembered
  rw [Std.HashMap.getD_eq_getD_getElem?, h, Option.getD_some]

theorem Kept.retains (h : m.Kept g keys) (hg : g.Linked) : m.Retains g keys := by
  have hremembered : ∀ k ∈ m.cache, g.lookahead k = m.remembered k := by
    intro k hk
    obtain ⟨result, hresult⟩ := Option.isSome_iff_exists.1 (Std.HashMap.mem_iff_isSome_getElem?.1 hk)
    rw [remembered_eq hresult, h.faithful.exact k result hresult]
  have hsame : ∀ k ∈ m.cache, (g.expand k).eval g.lookahead = (g.expand k).eval m.remembered ∧
      (g.expand k).keysRead g.lookahead = (g.expand k).keysRead m.remembered := fun k hk =>
    Reading.eval_congr fun q hq => hremembered q (h.faithful.closed k hk q hq)
  refine ⟨h.cached, fun k result hk => ?_, fun k hk q hq => ?_⟩
  · have hmem : k ∈ m.cache := Std.HashMap.mem_iff_isSome_getElem?.2 (by rw [hk]; rfl)
    have hkey := h.hasKey k hmem
    rw [← (hsame k hmem).1, hg.eval_expand (hg.fits_lookahead _) hkey, hg.equation_lookahead hkey,
      h.faithful.exact k result hk]
  · rw [← (hsame k hk).2] at hq
    exact h.faithful.closed k hk q hq

theorem kept_of_cache_eq_empty (h : m.cache = ∅) : m.Kept g [] := by
  refine ⟨faithful_of_cache_eq_empty h, fun k => ?_, fun k hk => ?_⟩
  · simp [h]
  · simp [h] at hk

/-- A search keeps the results of the keys that it expands, and ends at rest. -/
theorem Kept.search (h : m.Kept g keys) (hg : g.Linked) (hkey : g.HasKey g.maxDepth key) :
    (m.search g key).memory.Kept g (keys ++ Search.expanded g (Search.stepBound g key.depth)
        { control := .look key, memory := m }) ∧
      (m.search g key).AtRest := by
  have hself : g.HasKey key.depth key := ⟨hkey.node, hkey.pos, Nat.le_refl _⟩
  have hinv := Search.invariant_start hg h.faithful hself
  obtain ⟨cost, hend, hover⟩ := hinv.run hg (Search.measure_start_le g key.depth _)
  have hstart : Search.Tracks g key m [] { control := .look key, memory := m } :=
    Search.tracks_start m
  have htracks := hstart.run (n := Search.stepBound g key.depth) hg hinv
  have hmem : ∀ k, k ∈ (m.search g key).memory.cache ↔ _ := fun k =>
    htracks.mem_cache hg hend hover (q := k)
  refine ⟨⟨(h.faithful.search hg hself).2.1, fun k => ?_, fun k hk => ?_⟩,
    htracks.atRest hg hend hover⟩
  · rw [hmem, h.cached, List.nil_append, List.mem_append]
  · rcases (hmem k).1 hk with hk | hk
    · exact h.hasKey k hk
    · exact (htracks.finished_of_mem hg hend hover hk).2.mono hkey.le

theorem Kept.of_cache_eq (h : m.Kept g keys) (hcache : m'.cache = m.cache) : m'.Kept g keys :=
  ⟨h.faithful.of_cache_eq hcache, hcache ▸ h.cached, hcache ▸ h.hasKey⟩

theorem Kept.ask (h : m.Kept g keys) (hg : g.Linked) (question : Question) :
    (question.ask g m).2.Kept g (keys ++ question.expanded g m) := by
  cases hkey : question.validKey? g with
  | some key =>
    obtain ⟨hhas, hask⟩ := question.ask_of_validKey? (m := m) hg hkey
    rw [hask, Question.expanded, hkey]
    have hcount : m.countQuery.Kept g keys := h.of_cache_eq rfl
    exact (hcount.search hg hhas).1
  | none =>
    obtain ⟨e, hask, -⟩ := question.ask_of_not_validKey? (m := m) hg hkey
    rw [hask, Question.expanded, hkey, List.append_nil]
    exact h

theorem Kept.run (h : m.Kept g keys) (hg : g.Linked) (request : Request) :
    (request.run g m).Kept g (request.expanded g m keys) := by
  cases request with
  | ask question => exact h.ask hg question
  | clear => exact kept_of_cache_eq_empty rfl

end Memory

/-- A query counts as many expansions as it expands keys. -/
theorem Question.expansions_ask (hg : g.Linked) (question : Question) :
    (question.ask g m).2.work.expansions =
      m.work.expansions + (question.expanded g m).length := by
  cases hkey : question.validKey? g with
  | some key =>
    obtain ⟨-, hask⟩ := question.ask_of_validKey? (m := m) hg hkey
    rw [hask, Question.expanded, hkey]
    exact Search.expansions_run
  | none =>
    obtain ⟨e, hask, -⟩ := question.ask_of_not_validKey? (m := m) hg hkey
    rw [hask, Question.expanded, hkey]
    rfl

theorem session_kept (hg : g.Linked) (requests : List Request) :
    (session g requests).Kept g (sessionExpanded g requests) := by
  have hfold : ∀ (m : Memory) (keys : List Key), m.Kept g keys →
      (requests.foldl (Request.run g) m).Kept g (expandedFrom g m keys requests) := by
    induction requests with
    | nil => exact fun _ _ hm => hm
    | cons request requests ih => exact fun m keys hm => ih _ _ (hm.run hg request)
  exact hfold {} [] (Memory.kept_of_cache_eq_empty rfl)

/-- A finished key stays finished, with the same result, as long as nothing is cleared. -/
theorem Memory.Kept.of_asked (h : m.Kept g keys) (hg : g.Linked) (hasked : Memory.Asked g m m') :
    ∃ keys', m'.Kept g keys' ∧ ∀ k ∈ keys, k ∈ keys' := by
  obtain ⟨questions, rfl⟩ := hasked
  induction questions generalizing m keys with
  | nil => exact ⟨keys, h, fun _ => id⟩
  | cons question questions ih =>
    obtain ⟨keys', hkept, hsub⟩ := ih (h.ask hg question)
    exact ⟨keys', hkept, fun k hk => hsub k (List.mem_append_left _ hk)⟩

/-- A query that was answered before costs one query and one hit of the memory. -/
theorem Memory.Kept.repeats (h : m.Kept g keys) (hg : g.Linked)
    (hkey : question.validKey? g = some key) (hasked : Memory.Asked g (question.ask g m).2 m') :
    question.ask g m' = (.ok (g.lookahead key), m'.countQuery.countCacheHit) := by
  obtain ⟨hhas, hask⟩ := question.ask_of_validKey? (m := m) hg hkey
  obtain ⟨keys', hkept, hsub⟩ := (h.ask hg question).of_asked hg hasked
  have hmem : key ∈ m'.cache := by
    rw [hkept.cached]
    apply hsub
    rw [← (h.ask hg question).cached, hask]
    exact (h.faithful.ask hg hhas).2.2
  obtain ⟨result, hresult⟩ := Option.isSome_iff_exists.1
    (Std.HashMap.mem_iff_isSome_getElem?.1 hmem)
  rw [(question.ask_of_validKey? hg hkey).2, Grammar.ask_of_cached hresult,
    hkept.faithful.exact key result hresult]

/-- Nothing that was computed is lost. After any requests the finished results are those of the keys
that were expanded since the memory was last cleared, and they stand on each other alone. A query
with valid arguments is answered by a search that ends with nothing suspended, waiting or
provisional; asked again, it is answered in the same way from the memory. Any other query leaves the
memory as it was. -/
theorem Description.memory_retains {ucd : Unicode} {d : Description} (h : d.build ucd = .ok g)
    (requests : List Request) :
    (session g requests).Retains g (sessionExpanded g requests) ∧
      ∀ question : Question,
        (question.ask g (session g requests)).2.work.expansions =
          (session g requests).work.expansions +
            (question.expanded g (session g requests)).length ∧
        (∀ key, question.validKey? g = some key → ∃ answer,
          question.ask g (session g requests) =
            (.ok answer, ((session g requests).countQuery.search g key).memory) ∧
          ((session g requests).countQuery.search g key).AtRest ∧
          ∀ m, Memory.Asked g (question.ask g (session g requests)).2 m →
            question.ask g m = (.ok answer, m.countQuery.countCacheHit)) ∧
        (question.validKey? g = none →
          ∃ e, question.ask g (session g requests) = (.error e, session g requests)) := by
  have hg := d.linked_of_build h
  have hkept := session_kept hg requests
  refine ⟨hkept.retains hg, fun question => ⟨question.expansions_ask hg, fun key hkey => ?_,
    fun hnone => (question.ask_of_not_validKey? hg hnone).imp fun _ he => he.1⟩⟩
  obtain ⟨hhas, hask⟩ := question.ask_of_validKey? (m := session g requests) hg hkey
  have hcount : (session g requests).countQuery.Kept g (sessionExpanded g requests) :=
    hkept.of_cache_eq rfl
  refine ⟨g.lookahead key, ?_, (hcount.search hg hhas).2, fun m hm => hkept.repeats hg hkey hm⟩
  rw [hask, ← (hkept.faithful.ask hg hhas).1]
  rfl

/-- After a query, a clearing and a shallower query, the first one is asked twice and a deeper one is
refused. -/
theorem leftRecursiveWords_retained :
    leftRecursiveWords.build .ascii = .ok leftRecursiveWords.layout ∧
      ∃ m : Memory,
        m = session leftRecursiveWords.layout [.ask (.rule 2 "s"), .clear, .ask (.rule 1 "s")] ∧
        m.Retains leftRecursiveWords.layout (sessionExpanded leftRecursiveWords.layout
          [.ask (.rule 2 "s"), .clear, .ask (.rule 1 "s")]) ∧
        (∃ answer, (m.countQuery.search leftRecursiveWords.layout (.block ⟨0⟩ 2 .callSite)).AtRest ∧
          ∀ m', Memory.Asked leftRecursiveWords.layout
              ((Question.rule 2 "s").ask leftRecursiveWords.layout m).2 m' →
            (Question.rule 2 "s").ask leftRecursiveWords.layout m' =
              (.ok answer, m'.countQuery.countCacheHit)) ∧
        ∃ e, (Question.rule 3 "s").ask leftRecursiveWords.layout m = (.error e, m) := by
  obtain ⟨hretains, hasks⟩ := Description.memory_retains leftRecursiveWords_build
    [.ask (.rule 2 "s"), .clear, .ask (.rule 1 "s")]
  obtain ⟨answer, -, hrest, hagain⟩ :=
    (hasks (.rule 2 "s")).2.1 (.block ⟨0⟩ 2 .callSite) (by decide +kernel)
  have hrefused := (hasks (.rule 3 "s")).2.2 (by decide +kernel)
  exact ⟨leftRecursiveWords_build, _, rfl, hretains, ⟨answer, hrest, hagain⟩, hrefused⟩

end GrammarLookahead
