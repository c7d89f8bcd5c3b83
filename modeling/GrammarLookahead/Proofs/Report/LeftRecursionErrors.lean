import GrammarLookahead.Proofs.Report.CheckSession
import GrammarLookahead.Proofs.Report.LeftRecursionReport

/-!
The error of left recursion. Whatever happened to an analysis, it takes left-recursive rules only for
such. A check of the whole grammar finds a rule on every cycle without tokens, so that its report has
errors exactly if some rule is left-recursive. Main statement: `Description.leftRecursion_raised`.
-/

namespace GrammarLookahead

variable {g : Grammar} {nullable : Rule → Prop} {ucd : Unicode} {settings : Settings} {c : Checker}

/-- A walk that consumes no token leads from one rule to another. -/
def Grammar.LeftReaches (g : Grammar) (nullable : Rule → Prop) (id id' : RuleId) : Prop :=
  ∃ r r' nodes, g.rule? id = some r ∧ g.rule? id' = some r' ∧
    g.LeftWalk nullable (.block r.block) nodes (.block r'.block)

/-- What the errors of a report say about a grammar. -/
structure Report.RaisesLeftRecursion (g : Grammar) (nullable : Rule → Prop) (report : Report) :
    Prop where
  sound : ∀ id ∈ report.leftRecursive, g.LeftRecursive nullable id
  /-- Every left-recursive rule is on a cycle with a rule that is listed. -/
  cycle : ∀ id, g.LeftRecursive nullable id →
    ∃ id' ∈ report.leftRecursive, g.LeftReaches nullable id id' ∧ g.LeftReaches nullable id' id
  hasErrors : report.hasErrors = true ↔ ∃ id, g.LeftRecursive nullable id

/-- The findings of blocks are warnings, so only left-recursive rules raise errors. -/
theorem Checker.HasChecked.hasErrors_report {ids : List BlockId}
    (h : c.HasChecked g ucd settings ids) :
    (g.report c).hasErrors = true ↔ ∃ id, id ∈ (g.report c).leftRecursive := by
  have hwarnings : c.diagnostics.any Diagnostic.isError = false := by
    rw [h.diagnostics, List.any_eq_false]
    intro x hx
    obtain ⟨id, -, hx⟩ := List.mem_flatMap.1 hx
    rw [(Grammar.warning_of_mem_diagnostics hx).2]
    exact Bool.false_ne_true
  rw [Report.hasErrors, Diagnostics.hasErrors, Grammar.report, List.any_append, hwarnings,
    Bool.false_or, List.any_map, List.any_eq_true]
  exact exists_congr fun id => and_iff_left rfl

theorem history_records (hg : g.Linked) (hnullable : g.TellsNullable nullable)
    (hpos : 1 ≤ g.maxDepth) (ucd : Unicode) (activities : List Activity) :
    (history g ucd activities).Records g nullable := by
  obtain ⟨requests, hrequests⟩ := exists_session hg hpos ucd activities
  rw [hrequests]
  exact session_records hg hnullable requests

/-- A check of the whole grammar raises the errors of left recursion, whatever was asked and checked
before. -/
theorem Description.checkAll_raises {ucd : Unicode} {d : Description} (h : d.build ucd = .ok g)
    (activities : List Activity) (settings : Settings) (checks : List CheckRequest) :
    (g.report (g.checkAll ucd settings
      (checkSession g ucd settings (history g ucd activities) checks)).2).RaisesLeftRecursion g
        d.Nullable := by
  have hg := d.linked_of_build h
  have hnullable := d.tellsNullable h
  have hpos := d.maxDepth_pos h
  have hm := history_faithful hg hpos ucd activities
  have hchecked := checkSession_hasChecked hg hpos hm ucd settings checks
  have hextends := checkSession_extends hg hpos hm ucd settings checks
  obtain ⟨hbefore, -⟩ := hextends.memory.records hg hnullable
    (history_records hg hnullable hpos ucd activities) hm
  have hall := Grammar.checkAll_extends hg ucd settings hchecked.faithful hpos
  obtain ⟨hr, -⟩ := hall.memory.records hg hnullable hbefore hchecked.faithful
  have hcycle : ∀ id, g.LeftRecursive d.Nullable id →
      ∃ id' ∈ (g.checkAll ucd settings
        (checkSession g ucd settings (history g ucd activities) checks)).2.memory.leftRecursive,
        g.LeftReaches d.Nullable id id' ∧ g.LeftReaches d.Nullable id' id := by
    rintro id ⟨r, nodes, hid, hwalk⟩
    have hfinished : Key.block r.block g.maxDepth .callSite ∈ (g.checkAll ucd settings
        (checkSession g ucd settings (history g ucd activities) checks)).2.memory.cache :=
      d.finished_checkAll h hpos hchecked.faithful hbefore hid
    obtain ⟨id', r', hid', hpassed, hrecorded⟩ := hr.vigilant id r nodes hid hwalk hfinished
    obtain ⟨⟨there, hthere⟩, back, hback⟩ := hwalk.split_of_closed hpassed
    exact ⟨id', hrecorded, ⟨r, r', there, hid, hid', hthere⟩, r', r, back, hid', hid, hback⟩
  refine ⟨hr.sound, hcycle, (hchecked.run hg hpos .all).hasErrors_report.trans ?_⟩
  constructor
  · rintro ⟨id, hid⟩
    exact ⟨id, hr.sound id hid⟩
  · rintro ⟨id, hid⟩
    obtain ⟨id', hrecorded, -⟩ := hcycle id hid
    exact ⟨id', hrecorded⟩

/-- On a built grammar, a rule that an analysis at any time takes for left-recursive comes to a call of
itself without consuming a token, and the report of the whole grammar raises an error exactly if some
rule is left-recursive. -/
theorem Description.leftRecursion_raised {ucd : Unicode} {d : Description}
    (h : d.build ucd = .ok g) :
    (∀ activities, ∀ id ∈ (history g ucd activities).leftRecursive, ∃ r, g.rule? id = some r ∧
      ∃ site ∈ r.callers, ∃ nodes,
        g.LeftWalk d.Nullable (.block r.block) nodes (.element site)) ∧
      ∀ settings, (g.analyze ucd settings).RaisesLeftRecursion g d.Nullable := by
  have hg := d.linked_of_build h
  constructor
  · intro activities id hid
    have hrecords := history_records hg (d.tellsNullable h) (d.maxDepth_pos h) ucd activities
    have hrecursive := hrecords.sound id hid
    have ⟨r, _, hr, _⟩ := hrecursive
    exact ⟨r, hr, (hg.leftRecursive_iff hr).1 hrecursive⟩
  · exact fun settings => d.checkAll_raises h [] settings []

/-- Of two rules that call each other, one that a question records comes to a call of itself, and a
check raises an error. -/
theorem mutualCalls_raised :
    mutualCalls.build .ascii = .ok mutualCalls.layout ∧
      (∀ id ∈ (history mutualCalls.layout .ascii
          [.query (.ask (.rule 1 "b")), .checks {} [.block ⟨0⟩]]).leftRecursive,
        ∃ r, mutualCalls.layout.rule? id = some r ∧ ∃ site ∈ r.callers, ∃ nodes,
          mutualCalls.layout.LeftWalk mutualCalls.Nullable (.block r.block) nodes
            (.element site)) ∧
      (mutualCalls.layout.analyze .ascii {}).hasErrors = true := by
  have ha : mutualCalls.layout.rule? ⟨0⟩ = some ⟨"a", ⟨0⟩, ⟨0⟩, [⟨5⟩], true⟩ := rfl
  have hb : mutualCalls.layout.rule? ⟨1⟩ = some ⟨"b", ⟨1⟩, ⟨4⟩, [⟨1⟩], false⟩ := rfl
  have hcall : mutualCalls.layout.LeftWalk mutualCalls.Nullable (.block ⟨0⟩)
      [.block ⟨0⟩, .element ⟨1⟩] (.block ⟨1⟩) :=
    .cons (.branch rfl List.mem_cons_self) (.single (.call rfl rfl hb))
  have hback : mutualCalls.layout.LeftWalk mutualCalls.Nullable (.block ⟨1⟩)
      [.block ⟨1⟩, .element ⟨5⟩] (.block ⟨0⟩) :=
    .cons (.branch rfl List.mem_cons_self) (.single (.call rfl rfl ha))
  obtain ⟨hsound, hraised⟩ := Description.leftRecursion_raised mutualCalls_build
  exact ⟨mutualCalls_build, hsound _, (hraised {}).hasErrors.2 ⟨⟨0⟩, _, _, ha, hcall.trans hback⟩⟩

end GrammarLookahead
