import GrammarLookahead.Proofs.Analysis.RecursionSession
import GrammarLookahead.Proofs.Language.RuleLanguage
import GrammarLookahead.Proofs.Report.CheckerContract

/-!
The left-recursive rules of a report. Only left-recursive rules are listed, and every walk without
tokens from the block of a rule back to it passes the block of a listed rule. Which rule of several
that call each other is listed depends on what the analysis was asked before. Main statement:
`Description.leftRecursion_reported`.
-/

namespace GrammarLookahead

/-- A rule that has the empty word. -/
def Description.Nullable (d : Description) (r : Rule) : Prop := [] ∈ d.language r.name

theorem Description.tellsNullable {ucd : Unicode} {d : Description} {g : Grammar}
    (h : d.build ucd = .ok g) : g.TellsNullable d.Nullable := by
  intro id r hr depth hpos
  have hg := d.linked_of_build h
  have hid := names_rule_of_rule? h hr
  obtain ⟨-, rfl⟩ := d.build_eq_ok.1 h
  rw [← hid] at hr
  rw [LookaheadSet.mem_unfinished, (mem_lookahead_ruleBlock hg hr hpos).1]
  simp only [List.length_nil, List.not_mem_nil, not_false_eq_true, and_true]
  exact and_iff_left hpos

/-- What a report says about left recursion. -/
structure Report.TellsLeftRecursion (g : Grammar) (nullable : Rule → Prop) (report : Report) :
    Prop where
  ascending : report.leftRecursive.Pairwise (· < ·)
  diagnostics : (report.diagnostics.filter fun x => x.code = some "E0001") =
    report.leftRecursive.map fun id => .leftRecursion (g.ruleName id)
  /-- Only left-recursive rules are listed. -/
  sound : ∀ id ∈ report.leftRecursive, g.LeftRecursive nullable id
  /-- A walk without tokens from the block of a rule back to it passes the block of a listed rule. -/
  meets : ∀ id r nodes, g.rule? id = some r →
    g.LeftWalk nullable (.block r.block) nodes (.block r.block) →
    ∃ id' r', g.rule? id' = some r' ∧ .block r'.block ∈ nodes ∧ id' ∈ report.leftRecursive
  /-- A rule that comes back to itself past no other rule is listed. -/
  alone : ∀ id r nodes, g.rule? id = some r →
    g.LeftWalk nullable (.block r.block) nodes (.block r.block) →
    (∀ id' r', g.rule? id' = some r' → .block r'.block ∈ nodes → id' = id) →
    id ∈ report.leftRecursive
  /-- Whether any rule is listed depends on the grammar only. -/
  none_iff : report.leftRecursive = [] ↔ ∀ id, ¬ g.LeftRecursive nullable id

variable {g : Grammar} {c : Checker}

/-- Rules of which each is left-recursive, and one of which is passed by every walk without tokens
that leads back to a rule: there are none exactly if no rule is left-recursive. -/
theorem Grammar.eq_nil_iff_of_meets {nullable : Rule → Prop} {ids : List RuleId}
    (hsound : ∀ id ∈ ids, g.LeftRecursive nullable id)
    (hmeets : ∀ id r nodes, g.rule? id = some r →
      g.LeftWalk nullable (.block r.block) nodes (.block r.block) →
      ∃ id' r', g.rule? id' = some r' ∧ .block r'.block ∈ nodes ∧ id' ∈ ids) :
    ids = [] ↔ ∀ id, ¬ g.LeftRecursive nullable id := by
  constructor
  · rintro rfl id ⟨r, nodes, hr, hwalk⟩
    obtain ⟨id', r', -, -, hlisted⟩ := hmeets id r nodes hr hwalk
    exact List.not_mem_nil hlisted
  · intro hnone
    rw [List.eq_nil_iff_forall_not_mem]
    intro id hid
    exact hnone id (hsound id hid)

theorem Grammar.filter_diagnostics_report (h : ∀ x ∈ c.diagnostics, x.Justified g) :
    ((g.report c).diagnostics.filter fun x => x.code = some "E0001") =
      (g.report c).leftRecursive.map fun id => .leftRecursion (g.ruleName id) := by
  have hchecks : (c.diagnostics.filter fun x => x.code = some "E0001") = [] := by
    rw [List.filter_eq_nil_iff]
    intro x hx
    simpa using (h x hx).code
  have hrules : ∀ ids : List RuleId,
      ((ids.map fun id => Diagnostic.leftRecursion (g.ruleName id)).filter
        fun x => x.code = some "E0001") =
      ids.map fun id => Diagnostic.leftRecursion (g.ruleName id) := by
    intro ids
    rw [List.filter_eq_self]
    intro x hx
    obtain ⟨id, -, rfl⟩ := List.mem_map.1 hx
    rfl
  unfold report
  rw [List.filter_append, hchecks, hrules, List.nil_append]

/-- A check of the whole grammar finishes every rule. -/
theorem Description.finished_checkAll {ucd : Unicode} {d : Description} (h : d.build ucd = .ok g)
    {settings : Settings} (hpos : 1 ≤ g.maxDepth) (hc : c.memory.Faithful g)
    (hr : c.memory.Records g d.Nullable) {id : RuleId} {r : Rule} (hid : g.rule? id = some r) :
    Key.block r.block g.maxDepth .callSite ∈ (g.checkAll ucd settings c).2.memory.cache := by
  have hg := d.linked_of_build h
  have hmem : r ∈ g.rules.toList := Array.mem_toList_iff.2 (Array.mem_of_getElem? hid)
  have hkey := Question.key?_rule (d.ruleNamed?_of_rule? h hid) hid g.maxDepth
  obtain ⟨m, hbefore, hafter⟩ := Grammar.checkAll_asks hg ucd settings hc hpos hmem
  have hm := hbefore.faithful hc hg
  obtain ⟨hrm, -⟩ := hbefore.records hg (d.tellsNullable h) hr hc
  have hfinished := hm.finishes hg hkey hpos (Nat.le_refl _)
  obtain ⟨hrm', -⟩ := hrm.ask hg (d.tellsNullable h) hm (.rule g.maxDepth r.name)
  have hasked := Memory.Asked.ask (g := g) m (.rule g.maxDepth r.name)
  exact (hafter.records hg (d.tellsNullable h) hrm' (hasked.faithful hm hg)).2 _ hfinished

/-- Whatever an analysis was asked and a checker has checked before, the report of a check of the
whole grammar lists left-recursive rules only, in ascending order and each with one error, and meets
every walk without tokens that leads from the block of a rule back to it. So a rule that comes back
to itself past no other rule is listed, and if any rule is left-recursive, some rule is listed. -/
theorem Description.leftRecursion_reported {ucd : Unicode} {d : Description}
    (h : d.build ucd = .ok g) (requests : List Request) (settings : Settings)
    (checks : List CheckRequest) :
    (g.report (g.checkAll ucd settings (checkSession g ucd settings (session g requests)
      checks)).2).TellsLeftRecursion g d.Nullable := by
  have hg := d.linked_of_build h
  have hnullable := d.tellsNullable h
  have hpos : 1 ≤ g.maxDepth := by
    obtain ⟨hfault, rfl⟩ := d.build_eq_ok.1 h
    exact (d.of_fault?_eq_none hfault).1.1
  have hm := session_faithful hg requests
  have hsession := checkSession_extends hg hpos hm ucd settings checks
  have hc := hsession.memory.faithful hm hg
  obtain ⟨hr, -⟩ := hsession.memory.records hg hnullable (session_records hg hnullable requests) hm
  have hall := Grammar.checkAll_extends hg ucd settings hc hpos
  obtain ⟨hr', -⟩ := hall.memory.records hg hnullable hr hc
  have hjustified : ∀ x ∈ (g.checkAll ucd settings
      (checkSession g ucd settings (session g requests) checks)).2.diagnostics, x.Justified g :=
    fun x hx => ((hsession.trans hall).diagnostics x hx).resolve_left List.not_mem_nil
  have hmeets := fun id r nodes hid hwalk =>
    hr'.vigilant id r nodes hid hwalk (d.finished_checkAll h hpos hc hr hid)
  exact {
    ascending := OrderedSet.ascending _
    diagnostics := Grammar.filter_diagnostics_report hjustified
    sound := hr'.sound
    meets := hmeets
    alone := fun id r nodes hid hwalk halone => by
      obtain ⟨id', r', hr', hpassed, hlisted⟩ := hmeets id r nodes hid hwalk
      rwa [halone id' r' hr' hpassed] at hlisted
    none_iff := Grammar.eq_nil_iff_of_meets hr'.sound hmeets }

/-- `a : b x | y ; b : a z | w ;` with one token of lookahead. -/
def mutualCalls : Description where
  maxDepth := 1
  declarations := [
    .rule { name := "a", entry := true, alternatives := [[.call "b", .token "x"], [.token "y"]] },
    .rule { name := "b", alternatives := [[.call "a", .token "z"], [.token "w"]] }]

theorem mutualCalls_build : mutualCalls.build .ascii = .ok mutualCalls.layout := rfl

theorem mutualCalls_reported :
    mutualCalls.build .ascii = .ok mutualCalls.layout ∧
      (mutualCalls.layout.report (mutualCalls.layout.checkAll .ascii {}
        (checkSession mutualCalls.layout .ascii {}
          (session mutualCalls.layout [.ask (.rule 1 "b"), .clear]) [.all])).2).TellsLeftRecursion
        mutualCalls.layout mutualCalls.Nullable :=
  ⟨mutualCalls_build, Description.leftRecursion_reported mutualCalls_build
    [.ask (.rule 1 "b"), .clear] {} [.all]⟩

section

variable {ucd : Unicode} {d : Description} {settings : Settings} {a b : RuleId} {r s : Rule}
  {nodes : List Node} (h : d.build ucd = .ok g) (hmax : g.maxDepth = 1)
  (ha : g.rule? a = some r) (hb : g.rule? b = some s)
include h hmax ha hb

omit hmax in
/-- The memory after a question for a rule that is the only one to call another rule: the other rule
is not recorded. -/
theorem Description.not_recorded_first (hne : a ≠ b)
    (hcalls : ∀ site ∈ s.callers, g.ruleOf? (.element site) = some a) :
    b ∉ ((Question.rule 1 r.name).ask g {}).2.leftRecursive := by
  have hg := d.linked_of_build h
  have hempty := Memory.records_empty g d.Nullable {}
  intro hmem
  rcases hempty.question hg (d.tellsNullable h) (Memory.faithful_of_cache_eq_empty rfl)
    (.rule 1 r.name) with hsame | ⟨key, search, hkey, hhas, hsearch, hmemory, -⟩
  · rw [hsame] at hmem
    exact OrderedSet.not_mem_empty hmem
  · rw [← hmemory] at hmem
    obtain ⟨s', depth, nodes, hmet⟩ := (hsearch.recorded b hmem).resolve_left
      OrderedSet.not_mem_empty
    obtain rfl : s = s' := Option.some.inj (hb.symm.trans hmet.rule)
    rw [Question.key?_rule (d.ruleNamed?_of_rule? h ha) ha] at hkey
    obtain rfl := Option.some.inj hkey
    have hpos : 1 ≤ depth := hmet.hasKey.pos
    have hle : depth ≤ 1 := hmet.hasKey.le
    obtain rfl : depth = 1 := by omega
    rcases hmet.avoids with heq | havoids
    · have hblock : r.block = s.block := Node.block.inj (congrArg Key.node heq)
      have hrule := hg.ruleOf?_ruleBlock ha
      rw [hblock, hg.ruleOf?_ruleBlock hb] at hrule
      exact hne (Option.some.inj hrule).symm
    · -- The walk comes back to the rule by a call, which stands in the rule asked for.
      obtain ⟨node, hnode, hstep⟩ := hmet.walk.exists_before_of_closed hmet.walk.start_mem
      obtain ⟨site, hsite, rfl⟩ := hg.exists_caller hb hstep
      obtain ⟨id, r', hid, hroot, hroots⟩ := hg.exists_root_of_leftWalk hmet.walk (fun n hn => hn)
        ⟨b, s, hb, hg.root?_ruleBlock hb, hmet.walk.start_mem⟩ _ hnode
      rw [Grammar.root?, hcalls site hsite, Option.bind_some, ha, Option.map_some] at hroot
      rw [← Option.some.inj hroot] at hroots
      exact havoids _ hroots rfl

/-- With one token of lookahead, a rule that only one other rule calls is not listed if that rule
was asked for first, be it left-recursive or not. -/
theorem Description.unlisted_of_asked_caller (hne : a ≠ b)
    (hcalls : ∀ site ∈ s.callers, g.ruleOf? (.element site) = some a)
    (hwalk : g.LeftWalk d.Nullable (.block r.block) nodes (.block s.block))
    (checks : List CheckRequest) :
    b ∉ (g.report (g.checkAll ucd settings (checkSession g ucd settings
      (session g [.ask (.rule 1 r.name)]) checks)).2).leftRecursive := by
  have hg := d.linked_of_build h
  have hnullable := d.tellsNullable h
  have hm := session_faithful hg [.ask (.rule 1 r.name)]
  have hr := session_records hg hnullable [.ask (.rule 1 r.name)]
  have hkey := Question.key?_rule (d.ruleNamed?_of_rule? h ha) ha 1
  have hstart := (Memory.faithful_of_cache_eq_empty (m := {}) rfl).finishes hg hkey
    (Nat.le_refl 1) hmax.ge
  have hfinished : Key.block s.block 1 .callSite ∈ (session g [.ask (.rule 1 r.name)]).cache :=
    (hwalk.forward (P := fun n => (⟨n, 1, .callSite⟩ : Key) ∈
      (session g [.ask (.rule 1 r.name)]).cache)
      (fun m n hstep hn => hm.closed _ hn _ (hstep.mem_keysRead hg hnullable (Nat.le_refl 1)))
      hstart).2
  have hchecks := checkSession_extends hg hmax.ge hm ucd settings checks
  have hall := Grammar.checkAll_extends hg ucd settings (hchecks.memory.faithful hm hg) hmax.ge
  refine (hchecks.trans hall).memory.not_recorded hg hnullable hr hm hb ?_
    (d.not_recorded_first h ha hb hne hcalls)
  rintro ⟨node, depth, context⟩ hhas rfl rfl
  have hpos : 1 ≤ depth := hhas.pos
  have hle : depth ≤ 1 := hmax ▸ hhas.le
  obtain rfl : depth = 1 := by omega
  exact hfinished

end

/-- Both rules are left-recursive, and each is hidden by a question for the other. -/
theorem mutualCalls_unlisted :
    mutualCalls.build .ascii = .ok mutualCalls.layout ∧
      mutualCalls.layout.LeftRecursive mutualCalls.Nullable ⟨0⟩ ∧
      mutualCalls.layout.LeftRecursive mutualCalls.Nullable ⟨1⟩ ∧
      ⟨1⟩ ∉ (mutualCalls.layout.report (mutualCalls.layout.checkAll .ascii {}
        (checkSession mutualCalls.layout .ascii {} (session mutualCalls.layout [.ask (.rule 1 "a")])
          [])).2).leftRecursive ∧
      ⟨0⟩ ∉ (mutualCalls.layout.report (mutualCalls.layout.checkAll .ascii {}
        (checkSession mutualCalls.layout .ascii {} (session mutualCalls.layout [.ask (.rule 1 "b")])
          [])).2).leftRecursive := by
  have ha : mutualCalls.layout.rule? ⟨0⟩ = some ⟨"a", ⟨0⟩, ⟨0⟩, [⟨5⟩], true⟩ := rfl
  have hb : mutualCalls.layout.rule? ⟨1⟩ = some ⟨"b", ⟨1⟩, ⟨4⟩, [⟨1⟩], false⟩ := rfl
  have hcall : mutualCalls.layout.LeftWalk mutualCalls.Nullable (.block ⟨0⟩)
      [.block ⟨0⟩, .element ⟨1⟩] (.block ⟨1⟩) :=
    .cons (.branch rfl List.mem_cons_self) (.single (.call rfl rfl hb))
  have hback : mutualCalls.layout.LeftWalk mutualCalls.Nullable (.block ⟨1⟩)
      [.block ⟨1⟩, .element ⟨5⟩] (.block ⟨0⟩) :=
    .cons (.branch rfl List.mem_cons_self) (.single (.call rfl rfl ha))
  refine ⟨mutualCalls_build, ⟨_, _, ha, hcall.trans hback⟩, ⟨_, _, hb, hback.trans hcall⟩, ?_, ?_⟩
  · exact mutualCalls.unlisted_of_asked_caller mutualCalls_build rfl ha hb (by decide)
      (fun site hsite => by rw [List.mem_singleton.1 hsite]; rfl) hcall []
  · exact mutualCalls.unlisted_of_asked_caller mutualCalls_build rfl hb ha (by decide)
      (fun site hsite => by rw [List.mem_singleton.1 hsite]; rfl) hback []

end GrammarLookahead
