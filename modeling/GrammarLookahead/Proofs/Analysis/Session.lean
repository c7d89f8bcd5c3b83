import GrammarLookahead.Analysis.Query
import GrammarLookahead.Proofs.Analysis.SearchStep

/-!
Sessions of an analysis: queries of all kinds, valid or not, and the clearing of what is remembered,
in any order. Whatever came before, a valid query is answered with the least solution of the
lookahead equations. Main statement: `Description.answers_leastSolution`.
-/

namespace GrammarLookahead

variable {g : Grammar} {m : Memory} {key : Key}

/-- A memory whose finished results are the least solution, and which holds with each key all keys
that its expansion reads. -/
structure Memory.Faithful (g : Grammar) (m : Memory) : Prop where
  exact : ∀ key result, m.cache[key]? = some result → result = g.lookahead key
  closed : ∀ key ∈ m.cache, ∀ q ∈ (g.expand key).keysRead g.lookahead, q ∈ m.cache

theorem Memory.faithful_of_cache_eq_empty (h : m.cache = ∅) : m.Faithful g := by
  constructor
  · intro key result hkey
    simp [h] at hkey
  · intro key hkey
    simp [h] at hkey

theorem Memory.Faithful.of_cache_eq {m' : Memory} (h : m.Faithful g) (hcache : m'.cache = m.cache) :
    m'.Faithful g :=
  ⟨hcache ▸ h.exact, hcache ▸ h.closed⟩

namespace Search

section

variable {start : Key} {depth : Nat}

theorem value_start_of_mem (hm : m.Faithful g) (hkey : key ∈ m.cache) :
    (view { control := .look start, memory := m }).value key = g.lookahead key := by
  obtain ⟨result, hresult⟩ := Option.isSome_iff_exists.1
    (Std.HashMap.mem_iff_isSome_getElem?.1 hkey)
  exact (value_of_cache hresult).trans (hm.exact key result hresult)

theorem value_start_of_not_mem (hkey : key ∉ m.cache) :
    (view { control := .look start, memory := m }).value key = .empty key.depth :=
  (value_of_not_mem hkey).trans Std.HashMap.getD_empty

/-- At the beginning of a search every key has its finished result or the empty set as its value. -/
theorem below_start (hm : m.Faithful g) :
    g.Below depth (view { control := .look start, memory := m }).value g.lookahead := by
  intro k _
  by_cases hk : k ∈ m.cache
  · rw [value_start_of_mem hm hk]
    exact LookaheadSet.le_refl _
  · rw [value_start_of_not_mem hk]
    exact LookaheadSet.empty_le rfl

/-- Finished results satisfy their equations, since what they were computed from is finished too. -/
theorem grows_start (hg : g.Linked) (hm : m.Faithful g) :
    g.Below depth (view { control := .look start, memory := m }).value
      (g.equation (view { control := .look start, memory := m }).value) := by
  have hbelow : g.Below depth (view { control := .look start, memory := m }).value g.lookahead :=
    below_start hm
  have hvalue : ∀ k ∈ m.cache,
      (view { control := .look start, memory := m }).value k = g.lookahead k :=
    fun _ hk => value_start_of_mem hm hk
  generalize hv : (view { control := .look start, memory := m }).value = v at hbelow hvalue ⊢
  have hfits : g.Fits depth v := (hg.fits_lookahead depth).of_below hbelow
  intro k hkey
  by_cases hk : k ∈ m.cache
  · have heval := (Reading.eval_congr (F := g.lookahead) (G := v) (r := g.expand k)
      fun q hq => (hvalue q (hm.closed k hk q hq)).symm).1
    rw [hg.eval_expand (hg.fits_lookahead depth) hkey, hg.eval_expand hfits hkey,
      hg.equation_lookahead hkey] at heval
    rw [hvalue k hk, ← Except.ok.inj heval]
    exact LookaheadSet.le_refl _
  · rw [← hv, value_start_of_not_mem hk, hv]
    refine LookaheadSet.empty_le (hg.depth_equation hkey fun id c hid => ?_)
    exact hfits.depth_eq _ ⟨hid, hkey.pos, hkey.le⟩

theorem keyInvariant_start (hg : g.Linked) (hm : m.Faithful g) (depth : Nat) :
    KeyInvariant g depth (view { control := .look start, memory := m }) [] where
  below := below_start hm
  grows := grows_start hg hm
  exact _ hk := value_start_of_mem hm hk
  closed := hm.closed
  nodup := List.nodup_nil
  hasKey := by simp [held]
  unfinished := by simp [held]
  pending k entry hk := by
    have hnone : (∅ : Std.HashMap Key (LookaheadSet × Nat))[k]? = none :=
      Std.HashMap.getElem?_empty
    exact absurd (hnone.symm.trans hk) (by simp)

end

theorem invariant_start (hg : g.Linked) (hm : m.Faithful g) (hkey : g.HasKey key.depth key) :
    Invariant g key.depth key { control := .look key, memory := m } 1 :=
  ⟨hkey, keyInvariant_start hg hm key.depth, ⟨0, rfl, .nil⟩⟩

/-- A search that is over has found the least solution of its key, finished the key and left a
faithful memory. -/
theorem Invariant.over {depth cost : Nat} {s : Search} (h : Invariant g depth key s cost)
    (hover : s.isOver = true) :
    s.outcome = .ok (g.lookahead key) ∧ s.memory.Faithful g ∧ key ∈ s.memory.cache := by
  obtain ⟨hcontrol, hstack, hfinished⟩ := h.answered hover
  refine ⟨?_, ⟨fun k result hk => ?_, fun k hk => h.keys.closed k hk⟩, hfinished⟩
  · unfold outcome
    rw [hcontrol, hstack]
    exact congrArg Except.ok (h.keys.exact key hfinished)
  · have hmem : k ∈ s.memory.cache := Std.HashMap.mem_iff_isSome_getElem?.2 (by rw [hk]; rfl)
    rw [← value_of_cache hk]
    exact h.keys.exact k hmem

end Search

/-- A search ends within its bound with the least solution of its key. -/
theorem Memory.Faithful.search (hm : m.Faithful g) (hg : g.Linked)
    (hkey : g.HasKey key.depth key) :
    (m.search g key).outcome = .ok (g.lookahead key) ∧ (m.search g key).memory.Faithful g ∧
      key ∈ (m.search g key).memory.cache := by
  obtain ⟨cost, hinv, hover⟩ := (Search.invariant_start hg hm hkey).run hg
    (Search.measure_start_le g key.depth _)
  exact hinv.over hover

/-- A query of any kind. -/
inductive Question where
  | look (depth : Nat) (node : Node)
  | alternative (depth : Nat) (block : BlockId) (index : Nat)
  | exit (depth : Nat) (block : BlockId)
  | rule (depth : Nat) (name : String)
  | follow (depth : Nat) (name : String)
  deriving DecidableEq, Repr

namespace Question

/-- Asks a query. -/
def ask (g : Grammar) : Question → Query LookaheadSet
  | look depth node => g.look depth node
  | alternative depth block index => g.lookAlternative depth block index
  | exit depth block => g.lookExit depth block
  | rule depth name => g.lookRule depth name
  | follow depth name => g.lookFollow depth name

/-- The key that a query asks for, if the grammar has the node, alternative or rule in question. -/
def key? (g : Grammar) : Question → Option Key
  | look depth node => if g.contains node then some ⟨node, depth, .everywhere⟩ else none
  | alternative depth block index => do
    let b ← g.block? block
    let a ← b.alternatives[index]?
    return .element a.first depth .everywhere
  | exit depth block => (g.block? block).map fun b => .element (g.exitTarget b) depth .everywhere
  | rule depth name =>
    ((g.ruleNamed? name).bind g.rule?).map fun r => .block r.block depth .callSite
  | follow depth name =>
    ((g.ruleNamed? name).bind g.rule?).map fun r => .element r.terminator depth .everywhere

end Question

/-- An error that refuses the arguments of a query, so that nothing is computed. -/
def QueryError.Refuses (e : QueryError) : Prop := ∀ reason, e ≠ .breakdown reason

namespace Grammar

variable {α β : Type}

@[simp] theorem bind_ok (a : α) (f : α → Query β) :
    ((liftM (Except.ok a : Except QueryError α) : Query α) >>= f) m = f a m := rfl

@[simp] theorem bind_error (e : QueryError) (f : α → Query β) :
    ((liftM (Except.error e : Except QueryError α) : Query α) >>= f) m = (.error e, m) := rfl

theorem ask_of_checkDepth (key : Key) :
    ((liftM (g.checkDepth key.depth) : Query Unit) >>= fun _ => g.ask key) m =
      if key.depth = 0 ∨ g.maxDepth < key.depth
      then (.error (.depthOutOfRange key.depth g.maxDepth), m) else g.ask key m := by
  unfold checkDepth
  by_cases hdepth : key.depth = 0 ∨ g.maxDepth < key.depth
  · rw [if_pos hdepth, bind_error, if_pos hdepth]
  · rw [if_neg hdepth, bind_ok, if_neg hdepth]

/-- A node of the grammar is refused at a depth out of range only. -/
theorem look_of_contains {depth : Nat} {node : Node} (hnode : g.contains node = true) :
    g.look depth node m =
      if depth = 0 ∨ g.maxDepth < depth then (.error (.depthOutOfRange depth g.maxDepth), m)
      else g.ask ⟨node, depth, .everywhere⟩ m := by
  by_cases hdepth : depth = 0 ∨ g.maxDepth < depth
  · simp only [look, checkDepth, if_pos hdepth, bind_error]
  · simp only [look, checkDepth, checkNode, if_neg hdepth, if_pos hnode, bind_ok]

theorem look_of_not_contains {depth : Nat} {node : Node} (hnode : ¬ g.contains node = true) :
    ∃ e, g.look depth node m = (.error e, m) ∧ e.Refuses := by
  by_cases hdepth : depth = 0 ∨ g.maxDepth < depth
  · refine ⟨.depthOutOfRange depth g.maxDepth, ?_, nofun⟩
    simp only [look, checkDepth, if_pos hdepth, bind_error]
  · refine ⟨.unknownNode node, ?_, nofun⟩
    simp only [look, checkDepth, checkNode, if_neg hdepth, if_neg hnode, bind_ok, bind_error]

end Grammar

theorem Question.key?_rule {id : RuleId} {r : Rule} {name : String}
    (hnamed : g.ruleNamed? name = some id) (hr : g.rule? id = some r) (depth : Nat) :
    (Question.rule depth name).key? g = some (.block r.block depth .callSite) := by
  rw [Question.key?, hnamed, Option.bind_some, hr, Option.map_some]

/-- A query without a key is refused; any other one asks for its key, unless the depth is out of
range. -/
theorem Question.ask_eq (hg : g.Linked) (q : Question) :
    (∃ key, q.key? g = some key ∧ g.contains key.node = true ∧
      q.ask g m = if key.depth = 0 ∨ g.maxDepth < key.depth
        then (.error (.depthOutOfRange key.depth g.maxDepth), m) else g.ask key m) ∨
      q.key? g = none ∧ ∃ e, q.ask g m = (.error e, m) ∧ e.Refuses := by
  cases q with
  | look depth node =>
    by_cases hnode : g.contains node = true
    · exact Or.inl ⟨_, if_pos hnode, hnode, Grammar.look_of_contains hnode⟩
    · exact Or.inr ⟨if_neg hnode, Grammar.look_of_not_contains hnode⟩
  | alternative depth block index =>
    simp only [ask, key?, Grammar.lookAlternative, Grammar.blockFor]
    cases hb : g.block? block with
    | none => exact Or.inr ⟨rfl, _, rfl, nofun⟩
    | some b =>
      cases ha : b.alternatives[index]? with
      | none =>
        refine Or.inr ⟨by simp [ha], .unknownAlternative block index, ?_, nofun⟩
        simp only [Option.elim_some, Grammar.bind_ok, ha]
        rfl
      | some a =>
        have hnode := hg.contains_first hb (List.mem_of_getElem? ha)
        refine Or.inl ⟨.element a.first depth .everywhere, by simp [ha], hnode, ?_⟩
        simp only [Option.elim_some, Grammar.bind_ok, ha]
        exact Grammar.look_of_contains hnode
  | exit depth block =>
    simp only [ask, key?, Grammar.lookExit, Grammar.blockFor]
    cases hb : g.block? block with
    | none => exact Or.inr ⟨rfl, _, rfl, nofun⟩
    | some b =>
      have hnode := hg.contains_exit hb
      exact Or.inl ⟨_, rfl, hnode, Grammar.look_of_contains hnode⟩
  | rule depth name =>
    simp only [ask, key?, Grammar.lookRule, Grammar.ruleFor]
    cases hr : (g.ruleNamed? name).bind g.rule? with
    | none => exact Or.inr ⟨rfl, _, rfl, nofun⟩
    | some r =>
      obtain ⟨id, -, hid⟩ := Option.bind_eq_some_iff.1 hr
      refine Or.inl ⟨.block r.block depth .callSite, rfl, hg.contains_ruleBlock hid, ?_⟩
      rw [Option.elim_some, Grammar.bind_ok]
      exact Grammar.ask_of_checkDepth (.block r.block depth .callSite)
  | follow depth name =>
    simp only [ask, key?, Grammar.lookFollow, Grammar.ruleFor]
    cases hr : (g.ruleNamed? name).bind g.rule? with
    | none => exact Or.inr ⟨rfl, _, rfl, nofun⟩
    | some r =>
      obtain ⟨id, -, hid⟩ := Option.bind_eq_some_iff.1 hr
      obtain ⟨e, he, -⟩ := (hg.rule hid).terminator
      refine Or.inl ⟨.element r.terminator depth .everywhere, rfl,
        Grammar.contains_element.2 ⟨e, he⟩, ?_⟩
      rw [Option.elim_some, Grammar.bind_ok]
      exact Grammar.ask_of_checkDepth (.element r.terminator depth .everywhere)

/-- What an analysis can be asked to do. -/
inductive Request where
  | ask (question : Question)
  | clear
  deriving DecidableEq, Repr

/-- The memory after a request; an answer or a refusal is passed over. -/
def Request.run (g : Grammar) (m : Memory) : Request → Memory
  | ask question => (question.ask g m).2
  | clear => m.clear

/-- The memory of an analysis after a number of requests. -/
def session (g : Grammar) (requests : List Request) : Memory := requests.foldl (Request.run g) {}

theorem Memory.Faithful.ask (hm : m.Faithful g) (hg : g.Linked) (hkey : g.HasKey g.maxDepth key) :
    (g.ask key m).1 = .ok (g.lookahead key) ∧ (g.ask key m).2.Faithful g ∧
      key ∈ (g.ask key m).2.cache := by
  have hcount : m.countQuery.Faithful g := hm.of_cache_eq rfl
  obtain ⟨houtcome, hrest⟩ := hcount.search hg ⟨hkey.node, hkey.pos, Nat.le_refl _⟩
  refine ⟨?_, hrest⟩
  rw [Grammar.ask, houtcome]
  rfl

theorem Memory.Faithful.run (hm : m.Faithful g) (hg : g.Linked) (request : Request) :
    (request.run g m).Faithful g := by
  cases request with
  | clear => exact faithful_of_cache_eq_empty rfl
  | ask question =>
    show (question.ask g m).2.Faithful g
    rcases question.ask_eq (m := m) hg with ⟨key, -, hnode, hask⟩ | ⟨-, e, hask, -⟩
    · rw [hask]
      split
      · exact hm
      · rename_i hdepth
        exact (hm.ask hg ⟨hnode, by omega, by omega⟩).2.1
    · rw [hask]
      exact hm

/-- A memory that further questions lead to. -/
def Memory.Asked (g : Grammar) (m m' : Memory) : Prop :=
  ∃ questions : List Question, questions.foldl (fun m question => (question.ask g m).2) m = m'

namespace Memory.Asked

variable {m₁ m₂ m₃ : Memory}

theorem refl (m : Memory) : Asked g m m := ⟨[], rfl⟩

theorem trans (h : Asked g m₁ m₂) (k : Asked g m₂ m₃) : Asked g m₁ m₃ := by
  obtain ⟨questions, rfl⟩ := h
  obtain ⟨questions', rfl⟩ := k
  exact ⟨questions ++ questions', List.foldl_append⟩

theorem ask (m : Memory) (question : Question) : Asked g m (question.ask g m).2 :=
  ⟨[question], rfl⟩

theorem faithful (h : Asked g m₁ m₂) (hm : m₁.Faithful g) (hg : g.Linked) : m₂.Faithful g := by
  obtain ⟨questions, rfl⟩ := h
  induction questions generalizing m₁ with
  | nil => exact hm
  | cons question questions ih => exact ih (hm.run hg (.ask question))

end Memory.Asked

/-- A valid question asks for its key. -/
theorem Question.ask_eq_of_key? (hg : g.Linked) {question : Question}
    (hkey : question.key? g = some key) (hpos : 1 ≤ key.depth) (hle : key.depth ≤ g.maxDepth) :
    g.HasKey g.maxDepth key ∧ question.ask g m = g.ask key m := by
  rcases question.ask_eq (m := m) hg with ⟨key', hkey', hnode, hask⟩ | ⟨hnone, -⟩
  · obtain rfl : key = key' := Option.some.inj (hkey.symm.trans hkey')
    rw [if_neg (by omega)] at hask
    exact ⟨⟨hnode, hpos, hle⟩, hask⟩
  · exact absurd (hkey.symm.trans hnone) (by simp)

/-- A valid question is answered with the least solution. -/
theorem Memory.Faithful.answer (hm : m.Faithful g) (hg : g.Linked) {question : Question}
    (hkey : question.key? g = some key) (hpos : 1 ≤ key.depth) (hle : key.depth ≤ g.maxDepth) :
    (question.ask g m).1 = .ok (g.lookahead key) := by
  obtain ⟨hhas, hask⟩ := @Question.ask_eq_of_key? g m key hg question hkey hpos hle
  rw [hask]
  exact (hm.ask hg hhas).1

/-- A valid question finishes its key. -/
theorem Memory.Faithful.finishes (hm : m.Faithful g) (hg : g.Linked) {question : Question}
    (hkey : question.key? g = some key) (hpos : 1 ≤ key.depth) (hle : key.depth ≤ g.maxDepth) :
    key ∈ (question.ask g m).2.cache := by
  obtain ⟨hhas, hask⟩ := @Question.ask_eq_of_key? g m key hg question hkey hpos hle
  rw [hask]
  exact (hm.ask hg hhas).2.2

/-- Whatever an analysis was asked before, its finished results are the least solution. -/
theorem session_faithful (hg : g.Linked) (requests : List Request) :
    (session g requests).Faithful g := by
  have hfold : ∀ m : Memory, m.Faithful g → (requests.foldl (Request.run g) m).Faithful g := by
    induction requests with
    | nil => exact fun _ hm => hm
    | cons request requests ih => exact fun m hm => ih _ (hm.run hg request)
  exact hfold {} (Memory.faithful_of_cache_eq_empty rfl)

/-- A valid query is answered with the least solution of the lookahead equations, whatever the
analysis was asked before. The equations are what expansions compute. -/
theorem Description.answers_leastSolution {ucd : Unicode} {d : Description}
    (h : d.build ucd = .ok g) :
    ∃ F : Family, g.LeastSolution F ∧
      (∀ key, g.HasKey g.maxDepth key → (g.expand key).eval F = .ok (g.equation F key)) ∧
      ∀ (requests : List Request) (question : Question) (key : Key),
        question.key? g = some key → 1 ≤ key.depth → key.depth ≤ g.maxDepth →
          (question.ask g (session g requests)).1 = .ok (F key) := by
  have hg := d.linked_of_build h
  refine ⟨g.lookahead, hg.leastSolution_lookahead,
    fun key hkey => hg.eval_expand (hg.fits_lookahead _) hkey, ?_⟩
  intro requests question key hkey hpos hle
  exact (session_faithful hg requests).answer hg hkey hpos hle

/-- Words of `x`, written with left recursion: `s : s x | ;`. -/
def leftRecursiveWords : Description where
  maxDepth := 2
  declarations :=
    [.rule { name := "s", entry := true, alternatives := [[.call "s", .token "x"], []] }]

theorem leftRecursiveWords_build :
    leftRecursiveWords.build .ascii = .ok leftRecursiveWords.layout := rfl

theorem leftRecursiveWords_answers :
    leftRecursiveWords.build .ascii = .ok leftRecursiveWords.layout ∧
      ∃ F : Family, leftRecursiveWords.layout.LeastSolution F ∧
        (∀ key, leftRecursiveWords.layout.HasKey 2 key →
          (leftRecursiveWords.layout.expand key).eval F =
            .ok (leftRecursiveWords.layout.equation F key)) ∧
        ∀ (requests : List Request) (question : Question) (key : Key),
          question.key? leftRecursiveWords.layout = some key → 1 ≤ key.depth → key.depth ≤ 2 →
            (question.ask leftRecursiveWords.layout
              (session leftRecursiveWords.layout requests)).1 = .ok (F key) :=
  ⟨leftRecursiveWords_build, Description.answers_leastSolution leftRecursiveWords_build⟩

end GrammarLookahead
