import GrammarLookahead.Proofs.Analysis.RecursionStep
import GrammarLookahead.Proofs.Analysis.Session

/-!
The left-recursive rules that an analysis remembers, over sessions. Main statement:
`session_records`.
-/

namespace GrammarLookahead

variable {g : Grammar} {nullable : Rule → Prop} {m m' : Memory} {key : Key}

open Search (Watching Met Vigilant BeginsWithRule)

/-- What holds of the recorded rules between searches: they are left-recursive, and every walk
without tokens that leads from a finished rule back to it passes one of them. -/
structure Memory.Records (g : Grammar) (nullable : Rule → Prop) (m : Memory) : Prop where
  sound : ∀ id ∈ m.leftRecursive, g.LeftRecursive nullable id
  vigilant : Vigilant g nullable g.maxDepth (· ∈ m.cache) m.leftRecursive

theorem Memory.records_empty (g : Grammar) (nullable : Rule → Prop) (work : Work) :
    Memory.Records g nullable { work } := by
  constructor
  · exact fun id hid => absurd hid OrderedSet.not_mem_empty
  · intro id r nodes hr hwalk hfinished
    simp at hfinished

theorem Question.beginsWithRule {question : Question} (h : question.key? g = some key) :
    BeginsWithRule g key := by
  intro hcontext
  cases question with
  | look depth node =>
    rw [key?] at h
    split at h
    · obtain rfl := Option.some.inj h
      cases hcontext
    · cases h
  | alternative depth block index =>
    obtain ⟨b, -, h⟩ := Option.bind_eq_some_iff.1 h
    obtain ⟨a, -, h⟩ := Option.bind_eq_some_iff.1 h
    obtain rfl := Option.some.inj h
    cases hcontext
  | exit depth block =>
    obtain ⟨b, -, rfl⟩ := Option.map_eq_some_iff.1 h
    cases hcontext
  | rule depth name =>
    obtain ⟨r, hr, rfl⟩ := Option.map_eq_some_iff.1 h
    obtain ⟨id, -, hid⟩ := Option.bind_eq_some_iff.1 hr
    exact ⟨id, r, hid, rfl⟩
  | follow depth name =>
    obtain ⟨r, -, rfl⟩ := Option.map_eq_some_iff.1 h
    cases hcontext

section

variable (hg : g.Linked) (hnullable : g.TellsNullable nullable)
include hg hnullable

theorem Memory.Records.watching_search (hr : m.Records g nullable) (hm : m.Faithful g)
    (hkey : g.HasKey g.maxDepth key) (hstart : BeginsWithRule g key) :
    Watching g nullable g.maxDepth key m (m.countQuery.search g key) := by
  have hcount : m.countQuery.Faithful g := hm.of_cache_eq rfl
  have hinv := Search.invariant_start hg hcount ⟨hkey.node, hkey.pos, Nat.le_refl _⟩
  have hbegin : Watching g nullable g.maxDepth key m
      { control := .look key, memory := m.countQuery } :=
    ⟨trivial, fun _ => id, fun _ => Or.inl, hr.vigilant⟩
  exact hbegin.run hg hnullable (Nat.le_trans hkey.pos hkey.le) hkey.le hstart hinv

/-- A question leaves the memory as it is, or a search for its key finishes the key. -/
theorem Memory.Records.question (hr : m.Records g nullable) (hm : m.Faithful g)
    (question : Question) :
    (question.ask g m).2 = m ∨ ∃ key s, question.key? g = some key ∧ g.HasKey g.maxDepth key ∧
      Watching g nullable g.maxDepth key m s ∧ s.memory = (question.ask g m).2 ∧
      key ∈ s.memory.cache := by
  rcases question.ask_eq (m := m) hg with ⟨key, hkey, hnode, hask⟩ | ⟨-, e, hask, -⟩
  · rw [hask]
    split
    · exact Or.inl rfl
    · rename_i hdepth
      have hhas : g.HasKey g.maxDepth key := ⟨hnode, by omega, by omega⟩
      have hwatching := hr.watching_search hg hnullable hm hhas (Question.beginsWithRule hkey)
      exact Or.inr ⟨key, _, hkey, hhas, hwatching, rfl, (hm.ask hg hhas).2.2⟩
  · rw [hask]
    exact Or.inl rfl

theorem Memory.Records.ask (hr : m.Records g nullable) (hm : m.Faithful g) (question : Question) :
    (question.ask g m).2.Records g nullable ∧ ∀ k ∈ m.cache, k ∈ (question.ask g m).2.cache := by
  rcases hr.question hg hnullable hm question with hsame | ⟨key, s, -, -, hs, hmemory, -⟩
  · rw [hsame]
    exact ⟨hr, fun _ => id⟩
  · rw [← hmemory]
    refine ⟨⟨fun id hid => ?_, hs.vigilant⟩, hs.kept⟩
    rcases hs.recorded id hid with hid | ⟨r, depth, nodes, hmet⟩
    · exact hr.sound id hid
    · exact ⟨r, nodes, hmet.rule, hmet.walk⟩

theorem Memory.Asked.records (h : Asked g m m') (hr : m.Records g nullable) (hm : m.Faithful g) :
    m'.Records g nullable ∧ ∀ k ∈ m.cache, k ∈ m'.cache := by
  obtain ⟨questions, rfl⟩ := h
  induction questions generalizing m with
  | nil => exact ⟨hr, fun _ => id⟩
  | cons question questions ih =>
    obtain ⟨hr', hkept⟩ := hr.ask hg hnullable hm question
    obtain ⟨hrecords, hkept'⟩ := ih hr' (hm.run hg (.ask question))
    exact ⟨hrecords, fun k hk => hkept' k (hkept k hk)⟩

/-- A rule that is finished at all depths without being recorded is not recorded by a question. -/
theorem Memory.Records.not_recorded (hr : m.Records g nullable) (hm : m.Faithful g) {id : RuleId}
    {r : Rule} (hid : g.rule? id = some r)
    (hfinished : ∀ key, g.HasKey g.maxDepth key → key.node = .block r.block →
      key.context = .callSite → key ∈ m.cache)
    (hnot : id ∉ m.leftRecursive) (question : Question) :
    id ∉ (question.ask g m).2.leftRecursive := by
  rcases hr.question hg hnullable hm question with hsame | ⟨key, s, -, hhas, hs, hmemory, -⟩
  · rwa [hsame]
  · rw [← hmemory]
    intro hmem
    rcases hs.recorded id hmem with hmem | ⟨r', depth, nodes, hmet⟩
    · exact hnot hmem
    · obtain rfl : r = r' := Option.some.inj (hid.symm.trans hmet.rule)
      exact hmet.unfinished (hfinished _ (hmet.hasKey.mono hhas.le) rfl rfl)

theorem Memory.Asked.not_recorded (h : Asked g m m') (hr : m.Records g nullable)
    (hm : m.Faithful g) {id : RuleId} {r : Rule} (hid : g.rule? id = some r)
    (hfinished : ∀ key, g.HasKey g.maxDepth key → key.node = .block r.block →
      key.context = .callSite → key ∈ m.cache)
    (hnot : id ∉ m.leftRecursive) : id ∉ m'.leftRecursive := by
  obtain ⟨questions, rfl⟩ := h
  induction questions generalizing m with
  | nil => exact hnot
  | cons question questions ih =>
    obtain ⟨hr', hkept⟩ := hr.ask hg hnullable hm question
    have hnot' := hr.not_recorded hg hnullable hm hid hfinished hnot question
    exact ih hr' (hm.run hg (.ask question)) (fun k hk hn hc => hkept k (hfinished k hk hn hc)) hnot'

/-- Whatever an analysis was asked before, only left-recursive rules are recorded, and every walk
without tokens that leads from a finished rule back to it passes one of them. -/
theorem session_records (requests : List Request) :
    (session g requests).Records g nullable := by
  have hfold : ∀ m : Memory, m.Records g nullable → m.Faithful g →
      (requests.foldl (Request.run g) m).Records g nullable := by
    induction requests with
    | nil => exact fun _ hr _ => hr
    | cons request requests ih =>
      intro m hr hm
      refine ih _ ?_ (hm.run hg request)
      cases request with
      | clear => exact Memory.records_empty g nullable m.work
      | ask question => exact (hr.ask hg hnullable hm question).1
  exact hfold {} (Memory.records_empty g nullable {}) (Memory.faithful_of_cache_eq_empty rfl)

end

end GrammarLookahead
