import GrammarLookahead.Proofs.Analysis.Depths
import GrammarLookahead.Proofs.Analysis.Retention
import GrammarLookahead.Proofs.Grammar.WellLinked

/-!
Searches are safe. At no point of a search does a reading break, be it for a handle without a node,
for a union with a set that is too shallow or for a token with no depth left; every key that is
asked for belongs to the grammar and looks between one token and as many as the query ahead; and
every set that is known then is well-formed. So every valid query is answered, with a well-formed
set. Main statement: `Description.queries_safe`.
-/

namespace GrammarLookahead

namespace LookaheadSet

variable {a : LookaheadSet} {depth : Nat}

/-- A set of a depth whose complete members fill the depth or end at the end of input, whose
unfinished members do neither, and in which nothing stands behind the end of input. -/
structure WellFormed (depth : Nat) (a : LookaheadSet) : Prop where
  depth_eq : a.depth = depth
  members : ∀ m ∈ a, m.WellFormed depth

/-- An unfinished member is shorter than the depth, so what it lacks is an exact difference. -/
theorem WellFormed.length_add_missing (h : a.WellFormed depth) {p : TokenSeq}
    (hp : p ∈ a.unfinished) : 1 ≤ a.missing p ∧ p.length + a.missing p = depth := by
  have hlt : p.length < depth := (h.members (.unfinished p) (mem_unfinished.2 hp)).1
  rw [missing, h.depth_eq]
  omega

end LookaheadSet

theorem Grammar.Fits.wellFormed_set {g : Grammar} {depth : Nat} {F : Family} (h : g.Fits depth F)
    {key : Key} (hkey : g.HasKey depth key) : (F key).WellFormed key.depth :=
  ⟨h.depth_eq key hkey, h.wellFormed key hkey⟩

variable {g : Grammar} {key : Key}

namespace Search

/-- What holds at every point of a search for a key of a depth. -/
structure Safe (g : Grammar) (depth : Nat) (s : Search) : Prop where
  /-- A key that is asked for belongs to the grammar, at a depth between one and that of the
  search. -/
  asked : ∀ key, s.control = .look key → g.HasKey depth key
  rounds : ∀ round ∈ s.rounds, g.HasKey depth round.key
  unbroken : ∀ round reason, s.control ≠ .run round (.broken reason)
  not_broken : ∀ reason, s.control ≠ .broken reason
  /-- The answer to a key has the depth of the key, so that the depths at which its unfinished
  members go on lie between one and that depth. -/
  answered : ∀ result, s.control = .answer result → ∃ key, g.HasKey depth key ∧
    result.WellFormed key.depth ∧
    ∀ p ∈ result.unfinished, 1 ≤ result.missing p ∧ p.length + result.missing p = key.depth
  /-- The finished result or provisional value of every key is well-formed. -/
  values : ∀ key, g.HasKey depth key → (s.value key).WellFormed key.depth
  waiting : ∀ key result floor, s.pending[key]? = some (result, floor) →
    g.HasKey depth key ∧ result.WellFormed key.depth

variable {depth : Nat} {start : Key} {s : Search} {cost : Nat}

theorem Invariant.fits (h : Invariant g depth start s cost) (hg : g.Linked) :
    g.Fits depth s.value :=
  (hg.fits_lookahead depth).of_below h.keys.below

theorem Invariant.rounds_hasKey (h : Invariant g depth start s cost) :
    ∀ round ∈ s.rounds, g.HasKey depth round.key := fun round hround =>
  h.keys.hasKey round.key (mem_held_iff.2 (Or.inl ⟨round, hround, rfl⟩))

theorem Invariant.stack (h : Invariant g depth start s cost) :
    ∃ q c, StackInvariant g depth s.view start s.stack q c := by
  cases hcontrol : s.control with
  | look key =>
    obtain ⟨c, -, hinv⟩ := h.of_look hcontrol
    exact ⟨key, c, hinv⟩
  | run round reading =>
    obtain ⟨c, n, -, -, hinv⟩ := h.of_run hcontrol
    exact ⟨round.key, c, hinv⟩
  | answer result =>
    obtain ⟨q, hinv, -⟩ := h.of_answer hcontrol
    exact ⟨q, cost, hinv⟩
  | broken reason => exact (h.not_broken hcontrol).elim

/-- A result that waits is the value of its key. -/
theorem Invariant.waiting (h : Invariant g depth start s cost) {result : LookaheadSet} {floor : Nat}
    (hpending : s.pending[key]? = some (result, floor)) :
    g.HasKey depth key ∧ result = s.value key := by
  have hmem := h.keys.pending key _ hpending
  refine ⟨h.keys.hasKey key (mem_held_iff.2 (Or.inr hmem)), ?_⟩
  have hvalue : ∃ f, s.pending[key]? = some (s.value key, f) := by
    by_cases hwaits : key ∈ waitingKeys (s.stack.map Frame.round)
    · obtain ⟨q, c, hinv⟩ := h.stack
      obtain ⟨f, hf, -⟩ := hinv.scope_of_waiting hwaits
      exact ⟨f, hf⟩
    · -- The result waits for the round that is going on.
      cases hcontrol : s.control with
      | run round reading =>
        obtain ⟨c, n, -, hround, -⟩ := h.of_run hcontrol
        rw [rounds_of_run hcontrol, waitingKeys, List.flatMap_cons, List.mem_append] at hmem
        obtain ⟨f, hf, -⟩ := hround.waits key (hmem.resolve_right hwaits)
        exact ⟨f, hf⟩
      | _ =>
        rw [Search.rounds, hcontrol] at hmem
        exact absurd hmem hwaits
  obtain ⟨f, hf⟩ := hvalue
  exact congrArg Prod.fst (Option.some.inj (hpending.symm.trans hf))

theorem Invariant.safe (h : Invariant g depth start s cost) (hg : g.Linked) : s.Safe g depth := by
  have hfits := h.fits hg
  refine ⟨fun key hcontrol => ?_, h.rounds_hasKey, fun _ _ => h.not_breaking,
    fun _ => h.not_broken, fun result hcontrol => ?_, fun key hkey => hfits.wellFormed_set hkey,
    fun key result floor hpending => ?_⟩
  · obtain ⟨c, -, hinv⟩ := h.of_look hcontrol
    exact hinv.hasKey hg h.hasKey h.keys.below
  · obtain ⟨q, hinv, rfl, -⟩ := h.of_answer hcontrol
    have hq := hinv.hasKey hg h.hasKey h.keys.below
    have hwf := hfits.wellFormed_set hq
    exact ⟨q, hq, hwf, fun p hp => hwf.length_add_missing hp⟩
  · obtain ⟨hkey, rfl⟩ := h.waiting hpending
    exact ⟨hkey, hfits.wellFormed_set hkey⟩

end Search

namespace Question

variable {question : Question}

/-- How many tokens a query looks ahead. -/
def depth : Question → Nat
  | look depth _ | alternative depth _ _ | exit depth _ | rule depth _ | follow depth _ => depth

/-- Whether a query leaves open what follows a rule. -/
def isOpen : Question → Bool
  | rule _ _ => true
  | look _ _ | alternative _ _ _ | exit _ _ | follow _ _ => false

/-- The key of a query has its depth, and counts whatever follows a rule unless the query leaves that
open. -/
theorem key_of_key? (h : question.key? g = some key) : key.depth = question.depth ∧
    key.context = if question.isOpen then .callSite else .everywhere := by
  cases question with
  | look depth node =>
    obtain ⟨-, hkey⟩ := Option.ite_none_right_eq_some.1 h
    obtain rfl := Option.some.inj hkey
    exact ⟨rfl, rfl⟩
  | alternative depth block index =>
    obtain ⟨b, -, h⟩ := Option.bind_eq_some_iff.1 h
    obtain ⟨a, -, h⟩ := Option.bind_eq_some_iff.1 h
    obtain rfl := Option.some.inj h
    exact ⟨rfl, rfl⟩
  | exit | rule | follow =>
    obtain ⟨_, -, rfl⟩ := Option.map_eq_some_iff.1 h
    exact ⟨rfl, rfl⟩

end Question

/-- The lookahead of a key is well-formed, and nothing is left open in it where whatever follows a
rule counts. -/
theorem Grammar.Linked.lookahead_wellFormed (hg : g.Linked) (hpos : 1 ≤ key.depth) :
    (g.lookahead key).WellFormed key.depth ∧
      (key.context = .everywhere → (g.lookahead key).unfinished = ∅) := by
  obtain ⟨node, d, c⟩ := key
  refine ⟨⟨rfl, fun m hm => ((hg.mem_lookahead hpos).1 hm).wellFormed hpos⟩, ?_⟩
  rintro rfl
  exact (hg.lookahead_closed hpos).unfinished_eq

/-- Queries are safe. Every handle that is stored in the graph is in range. Whatever came before, a
query with valid arguments is answered by a search that is safe at every point, with a well-formed
set that leaves nothing open unless the query does; any other query is refused. -/
theorem Description.queries_safe {ucd : Unicode} {d : Description} (h : d.build ucd = .ok g)
    (requests : List Request) (question : Question) :
    g.InRange ∧
      (∀ answer, (question.ask g (session g requests)).1 = .ok answer →
        answer.WellFormed question.depth ∧
          (question.isOpen = false → answer.unfinished = ∅)) ∧
      (∀ key, question.validKey? g = some key →
        (∃ answer, question.ask g (session g requests) =
          (.ok answer, ((session g requests).countQuery.search g key).memory)) ∧
        ∀ n, (Search.run g n { control := .look key, memory := (session g requests).countQuery }).Safe
          g question.depth) ∧
      (question.validKey? g = none → ∃ e, question.ask g (session g requests) =
        (.error e, session g requests) ∧ e.Refuses) := by
  have hg := d.linked_of_build h
  have hkept := session_kept hg requests
  have hanswer : ∀ key, question.validKey? g = some key → key.depth = question.depth ∧
      g.HasKey g.maxDepth key ∧ question.ask g (session g requests) = (.ok (g.lookahead key),
        ((session g requests).countQuery.search g key).memory) ∧
      key.context = if question.isOpen then .callSite else .everywhere := by
    intro key hkey
    obtain ⟨hdepth, hcontext⟩ := Question.key_of_key? (Option.filter_eq_some_iff.1 hkey).1
    obtain ⟨hhas, hask⟩ := question.ask_of_validKey? (m := session g requests) hg hkey
    refine ⟨hdepth, hhas, ?_, hcontext⟩
    rw [hask, ← (hkept.faithful.ask hg hhas).1]
    rfl
  refine ⟨d.inRange h, fun answer hok => ?_, fun key hkey => ?_, question.ask_of_not_validKey? hg⟩
  · cases hkey : question.validKey? g with
    | none =>
      obtain ⟨e, hask, -⟩ := question.ask_of_not_validKey? (m := session g requests) hg hkey
      rw [hask] at hok
      cases hok
    | some key =>
      obtain ⟨hdepth, hhas, hask, hcontext⟩ := hanswer key hkey
      rw [hask] at hok
      obtain rfl := Except.ok.inj hok
      obtain ⟨hwf, hclosed⟩ := hg.lookahead_wellFormed hhas.pos
      exact ⟨hdepth ▸ hwf, fun hopen => hclosed (by rw [hcontext, hopen]; rfl)⟩
  · obtain ⟨hdepth, hhas, hask, -⟩ := hanswer key hkey
    refine ⟨⟨_, hask⟩, fun n => ?_⟩
    have hcount : (session g requests).countQuery.Faithful g := hkept.faithful.of_cache_eq rfl
    have hstart := Search.invariant_start hg hcount ⟨hhas.node, hhas.pos, Nat.le_refl _⟩
    obtain ⟨⟨cost, hinv⟩, -⟩ :=
      hstart.run_induction (P := fun _ => True) hg trivial (fun _ _ => trivial) n
    exact hdepth ▸ hinv.safe hg

/-- What follows the rule is asked for after other queries; a query that looks too far ahead is
refused. -/
theorem leftRecursiveWords_safe :
    leftRecursiveWords.build .ascii = .ok leftRecursiveWords.layout ∧
      ∃ m : Memory,
        m = session leftRecursiveWords.layout [.ask (.rule 2 "s"), .clear, .ask (.rule 1 "s")] ∧
        (∃ answer, ((Question.follow 2 "s").ask leftRecursiveWords.layout m).1 = .ok answer ∧
          answer.WellFormed 2 ∧ answer.unfinished = ∅) ∧
        (∀ n, (Search.run leftRecursiveWords.layout n
          { control := .look (.element ⟨0⟩ 2 .everywhere), memory := m.countQuery }).Safe
            leftRecursiveWords.layout 2) ∧
        ∃ e, (Question.follow 3 "s").ask leftRecursiveWords.layout m = (.error e, m) ∧
          e.Refuses := by
  have hsafe := Description.queries_safe leftRecursiveWords_build
    [.ask (.rule 2 "s"), .clear, .ask (.rule 1 "s")]
  obtain ⟨-, hformed, hvalid, -⟩ := hsafe (.follow 2 "s")
  obtain ⟨⟨answer, hask⟩, hpoints⟩ := hvalid (.element ⟨0⟩ 2 .everywhere) (by decide +kernel)
  obtain ⟨hwf, hclosed⟩ := hformed answer (congrArg Prod.fst hask)
  have hrefused := (hsafe (.follow 3 "s")).2.2.2 (by decide +kernel)
  exact ⟨leftRecursiveWords_build, _, rfl, ⟨answer, congrArg Prod.fst hask, hwf, hclosed rfl⟩,
    hpoints, hrefused⟩

end GrammarLookahead
