import Mathlib.Data.List.Induction
import GrammarLookahead.Proofs.Report.CheckerContract

/-!
Checks one after the other. What a checker has recorded are the findings of the blocks that it has
checked, in the order of their first checks, whatever the analysis was asked and whatever other
checkers did before. Main statement: `Description.checks_independent`.
-/

namespace GrammarLookahead

variable {g : Grammar} {ucd : Unicode} {settings : Settings} {c : Checker} {m : Memory}
  {id : BlockId} {b : Block} {ids : List BlockId}

/-- What may happen to an analysis: a request, or the checks of a checker that asks it. -/
inductive Activity where
  | query (request : Request)
  | checks (settings : Settings) (requests : List CheckRequest)
  deriving DecidableEq, Repr

/-- The memory after an activity; of a checker only its questions leave a trace. -/
def Activity.run (g : Grammar) (ucd : Unicode) (m : Memory) : Activity → Memory
  | query request => request.run g m
  | checks settings requests => (checkSession g ucd settings m requests).memory

/-- The memory of an analysis after a number of activities. -/
def history (g : Grammar) (ucd : Unicode) (activities : List Activity) : Memory :=
  activities.foldl (Activity.run g ucd) {}

/-- What checkers leave behind, requests could have left as well. -/
theorem exists_session (hg : g.Linked) (hpos : 1 ≤ g.maxDepth) (ucd : Unicode)
    (activities : List Activity) :
    ∃ requests, history g ucd activities = session g requests := by
  induction activities using List.reverseRecOn with
  | nil => exact ⟨[], rfl⟩
  | append_singleton activities activity ih =>
    obtain ⟨requests, hbefore⟩ := ih
    have hlast : history g ucd (activities ++ [activity]) =
        activity.run g ucd (session g requests) := by
      rw [history, List.foldl_append, ← hbefore]
      rfl
    rw [hlast]
    cases activity with
    | query request => exact ⟨requests ++ [request], by simp [session, Activity.run]⟩
    | checks settings checks =>
      have hextends :=
        checkSession_extends hg hpos (session_faithful hg requests) ucd settings checks
      obtain ⟨questions, hquestions⟩ := hextends.memory
      refine ⟨requests ++ questions.map .ask, ?_⟩
      have hasks : session g (requests ++ questions.map .ask) =
          questions.foldl (fun m question => (question.ask g m).2) (session g requests) := by
        simp only [session, List.foldl_append, List.foldl_map, Request.run]
      exact (hasks.trans hquestions).symm

theorem history_faithful (hg : g.Linked) (hpos : 1 ≤ g.maxDepth) (ucd : Unicode)
    (activities : List Activity) : (history g ucd activities).Faithful g := by
  obtain ⟨requests, hrequests⟩ := exists_session hg hpos ucd activities
  rw [hrequests]
  exact session_faithful hg requests

section

variable {α β : Type} [DecidableEq α]

/-- What is listed for one of several items can be told from the rest of the list. -/
theorem filter_flatMap {items : List α} (hnodup : items.Nodup) (item : α) {f : α → List β}
    {p : β → Bool} (hp : ∀ i, ∀ x ∈ f i, p x = decide (i = item)) :
    (items.flatMap f).filter p = if item ∈ items then f item else [] := by
  induction items with
  | nil => simp
  | cons i items ih =>
    rw [List.nodup_cons] at hnodup
    rw [List.flatMap_cons, List.filter_append, ih hnodup.2]
    by_cases hi : i = item
    · subst hi
      have hall : (f i).filter p = f i := List.filter_eq_self.2 fun x hx => by simp [hp i x hx]
      rw [hall, if_neg hnodup.1, if_pos List.mem_cons_self, List.append_nil]
    · have hnone : (f i).filter p = [] :=
        List.filter_eq_nil_iff.2 fun x hx => by simp [hp i x hx, hi]
      have hmem : item ∈ i :: items ↔ item ∈ items := by
        rw [List.mem_cons, or_iff_right (Ne.symm hi)]
      simp only [hnone, hmem, List.nil_append]

omit [DecidableEq α] in
/-- What is listed for each item is led by the keys of those items for which something is listed. -/
theorem map_flatMap_eq_filter (items : List α) {f : α → List β} {key : β → α} {p : α → Bool}
    (hf : ∀ i, (f i).map key = if p i then [i] else []) :
    (items.flatMap f).map key = items.filter p := by
  induction items with
  | nil => rfl
  | cons i items ih =>
    rw [List.flatMap_cons, List.map_append, hf, ih, List.filter_cons]
    split <;> rfl

end

theorem Grammar.contains_of_mem_decisions (hid : id ∈ g.decisions) :
    g.contains (.block id) = true := by
  obtain ⟨b, hb, -⟩ := (Option.any_eq_true _ _).1 (List.mem_filter.1 hid).2
  exact Grammar.contains_block.2 ⟨b, hb⟩

/-- The blocks that a request checks. -/
def CheckRequest.blocks (g : Grammar) : CheckRequest → List BlockId
  | all => g.decisions
  | block id => if g.contains (.block id) then [id] else []

theorem CheckRequest.contains_of_mem_blocks {checks : List CheckRequest}
    (hid : id ∈ checks.flatMap (CheckRequest.blocks g)) : g.contains (.block id) = true := by
  obtain ⟨check, -, hid⟩ := List.mem_flatMap.1 hid
  cases check with
  | all => exact Grammar.contains_of_mem_decisions hid
  | block id' =>
    rw [CheckRequest.blocks] at hid
    split at hid
    · rwa [List.mem_singleton.1 hid]
    · cases hid

/-- A checker that has been told to check some blocks and has recorded the findings of each of them
once. -/
structure Checker.HasChecked (g : Grammar) (ucd : Unicode) (settings : Settings) (c : Checker)
    (ids : List BlockId) : Prop where
  faithful : c.memory.Faithful g
  checked : c.checked = ids.eraseDups.reverse
  decisions : c.decisions = ids.eraseDups.flatMap fun id => (g.findings ucd settings id).decisions
  ambiguities : c.ambiguities =
    ids.eraseDups.flatMap fun id => (g.findings ucd settings id).ambiguities
  diagnostics : c.diagnostics =
    ids.eraseDups.flatMap fun id => (g.findings ucd settings id).diagnostics

namespace Checker.HasChecked

theorem start (ucd : Unicode) (settings : Settings) (hm : m.Faithful g) :
    HasChecked g ucd settings { memory := m } [] :=
  ⟨hm, rfl, rfl, rfl, rfl⟩

theorem mem_checked (h : c.HasChecked g ucd settings ids) : id ∈ c.checked ↔ id ∈ ids := by
  rw [h.checked, List.mem_reverse, List.mem_eraseDups]

theorem of_memory (h : c.HasChecked g ucd settings ids) (hm : m.Faithful g) :
    HasChecked g ucd settings { c with memory := m } ids :=
  ⟨hm, h.checked, h.decisions, h.ambiguities, h.diagnostics⟩

section

variable (hg : g.Linked) (hpos : 1 ≤ g.maxDepth)
include hg hpos

/-- A block that is checked again adds nothing, any other one its findings. -/
theorem checkBlock (h : c.HasChecked g ucd settings ids) (id : BlockId) :
    (g.checkBlock ucd settings id c).2.HasChecked g ucd settings
      (ids ++ (CheckRequest.block id).blocks g) := by
  rw [CheckRequest.blocks]
  cases hb : g.block? id with
  | none =>
    have habsent : ¬ g.contains (.block id) = true := by simp [Grammar.contains_block, hb]
    rw [Grammar.checkBlock_of_none hb, if_neg habsent, List.append_nil]
    exact h
  | some b =>
    rw [if_pos (Grammar.contains_block.2 ⟨b, hb⟩)]
    by_cases hmem : id ∈ ids
    · have herase : (ids ++ [id]).eraseDups = ids.eraseDups := by
        rw [eraseDups_concat, if_pos hmem, List.append_nil]
      rw [Grammar.checkBlock_of_mem hb (h.mem_checked.2 hmem)]
      exact ⟨h.faithful, herase ▸ h.checked, herase ▸ h.decisions, herase ▸ h.ambiguities,
        herase ▸ h.diagnostics⟩
    · have herase : (ids ++ [id]).eraseDups = ids.eraseDups ++ [id] := by
        rw [eraseDups_concat, if_neg hmem]
      obtain ⟨m, hasked, hrun⟩ := Grammar.checkBlock_of_not_mem hg ucd settings h.faithful hpos hb
        (mt h.mem_checked.1 hmem)
      rw [hrun]
      refine ⟨hasked.faithful h.faithful hg, ?_, ?_, ?_, ?_⟩
      · simp [Checker.record, herase, h.checked]
      · simp [Checker.record, herase, h.decisions]
      · simp [Checker.record, herase, h.ambiguities]
      · simp [Checker.record, herase, h.diagnostics]

/-- The check of a block that exists does not fail. -/
theorem checkBlock_ok (h : c.HasChecked g ucd settings ids) (hb : g.block? id = some b) :
    (g.checkBlock ucd settings id c).1 = .ok () := by
  by_cases hchecked : id ∈ c.checked
  · rw [Grammar.checkBlock_of_mem hb hchecked]
  · obtain ⟨m, -, hrun⟩ := Grammar.checkBlock_of_not_mem hg ucd settings h.faithful hpos hb hchecked
    rw [hrun]

omit hpos in
/-- Questions about rules record nothing. -/
theorem lookRules (h : c.HasChecked g ucd settings ids) (rules : List Rule) :
    (rules.foldl (fun c rule => ((g.lookRule g.maxDepth rule.name).toCheck c).2) c).HasChecked g
      ucd settings ids := by
  induction rules using List.reverseRecOn with
  | nil => exact h
  | append_singleton rules rule ih =>
    rw [List.foldl_append]
    exact ih.of_memory ((Memory.Asked.ask _ (.rule g.maxDepth rule.name)).faithful ih.faithful hg)

theorem checkBlocks (h : c.HasChecked g ucd settings ids) (blocks : List BlockId)
    (hpresent : ∀ id ∈ blocks, g.contains (.block id) = true) :
    (blocks.foldl (fun c id => (g.checkBlock ucd settings id c).2) c).HasChecked g ucd settings
      (ids ++ blocks) := by
  induction blocks using List.reverseRecOn with
  | nil =>
    rw [List.append_nil]
    exact h
  | append_singleton blocks id ih =>
    have hblocks : (CheckRequest.block id).blocks g = [id] := if_pos (hpresent id (by simp))
    have hbefore := ih fun id hid => hpresent id (by simp [hid])
    have hlast := hbefore.checkBlock hg hpos id
    rw [hblocks, List.append_assoc] at hlast
    rw [List.foldl_append]
    exact hlast

theorem run (h : c.HasChecked g ucd settings ids) (request : CheckRequest) :
    (request.run g ucd settings c).HasChecked g ucd settings (ids ++ request.blocks g) := by
  cases request with
  | block id => exact h.checkBlock hg hpos id
  | all =>
    have hrules := h.lookRules hg g.rules.toList
    rw [CheckRequest.run, Grammar.checkAll_eq, CheckRequest.blocks]
    exact hrules.checkBlocks hg hpos g.decisions fun id => Grammar.contains_of_mem_decisions

end

/-- One decision is reported for each block that was checked and is one, in the order of their first
checks. -/
theorem decisions_report (h : c.HasChecked g ucd settings ids) :
    (g.report c).decisions.map (·.block) =
      ids.eraseDups.filter fun id => (g.block? id).any Block.isDecision := by
  rw [Grammar.report, h.decisions]
  exact map_flatMap_eq_filter _ fun id => Grammar.map_block_decisions g ucd settings id

theorem decision?_report (h : c.HasChecked g ucd settings ids) (id : BlockId) :
    (g.report c).decision? id =
      if id ∈ ids then (g.findings ucd settings id).decisions.head? else none := by
  rw [Report.decision?, ← List.head?_filter, Grammar.report, h.decisions,
    filter_flatMap (nodup_eraseDups ids) id]
  · simp only [List.mem_eraseDups]
    split <;> rfl
  · intro i d hd
    rw [Grammar.block_of_mem_decisions hd]

theorem ambiguitiesIn_report (h : c.HasChecked g ucd settings ids) (id : BlockId) :
    (g.report c).ambiguitiesIn id =
      if id ∈ ids then (g.findings ucd settings id).ambiguities else [] := by
  rw [Report.ambiguitiesIn, Grammar.report, h.ambiguities, filter_flatMap (nodup_eraseDups ids) id]
  · simp only [List.mem_eraseDups]
  · intro i a ha
    rw [Grammar.block_of_mem_ambiguities ha]

/-- What is said of a block. A remark about left recursion is about no block. -/
theorem diagnostics_report (h : c.HasChecked g ucd settings ids) (id : BlockId) :
    (g.report c).diagnostics.filter (·.block = some id) =
      if id ∈ ids then (g.findings ucd settings id).diagnostics else [] := by
  have hrest : (c.memory.leftRecursive.toList.map fun r =>
      Diagnostic.leftRecursion (g.ruleName r)).filter (·.block = some id) = [] := by
    rw [List.filter_eq_nil_iff]
    intro d hd
    obtain ⟨r, -, rfl⟩ := List.mem_map.1 hd
    simp [Diagnostic.leftRecursion]
  rw [Grammar.report, List.filter_append, hrest, List.append_nil, h.diagnostics,
    filter_flatMap (nodup_eraseDups ids) id]
  · simp only [List.mem_eraseDups]
  · intro i d hd
    simp [(Grammar.warning_of_mem_diagnostics hd).1]

end Checker.HasChecked

/-- What a checker has recorded in the end. -/
theorem checkSession_hasChecked (hg : g.Linked) (hpos : 1 ≤ g.maxDepth) (hm : m.Faithful g)
    (ucd : Unicode) (settings : Settings) (requests : List CheckRequest) :
    (checkSession g ucd settings m requests).HasChecked g ucd settings
      (requests.flatMap (CheckRequest.blocks g)) := by
  induction requests using List.reverseRecOn with
  | nil => exact .start ucd settings hm
  | append_singleton requests request ih =>
    rw [checkSession, List.foldl_append, List.flatMap_append, List.flatMap_singleton]
    exact ih.run hg hpos request

/-- What is reported was found at the decisions of the grammar. -/
theorem Grammar.mem_flatMap_findings {α : Type} {f : Findings → List α} {x : α} :
    x ∈ (g.decisions.eraseDups.flatMap fun id => f (g.findings ucd settings id)) ↔
      ∃ id b, g.block? id = some b ∧ b.isDecision = true ∧
        x ∈ f (g.findingsAt ucd settings id b) := by
  simp only [List.mem_flatMap, List.mem_eraseDups]
  constructor
  · rintro ⟨id, hid, hx⟩
    obtain ⟨b, hb, hdecision⟩ := (Option.any_eq_true _ _).1 (List.mem_filter.1 hid).2
    exact ⟨id, b, hb, hdecision, by rwa [Grammar.findings_of_isDecision hb hdecision] at hx⟩
  · rintro ⟨id, b, hb, hdecision, hx⟩
    have hlt : id.index < g.blocks.size := (Array.getElem?_eq_some_iff.1 hb).1
    have hid : id ∈ g.blockIds := List.mem_map.2 ⟨id.index, List.mem_range.2 hlt, rfl⟩
    refine ⟨id, List.mem_filter.2 ⟨hid, (Option.any_eq_true _ _).2 ⟨b, hb, hdecision⟩⟩, ?_⟩
    rwa [Grammar.findings_of_isDecision hb hdecision]

namespace Description

variable {d : Description} (h : d.build ucd = .ok g) (settings : Settings)
include h

theorem analyze_hasChecked :
    (g.checkAll ucd settings {}).2.HasChecked g ucd settings g.decisions := by
  have hall := checkSession_hasChecked (d.linked_of_build h) (d.maxDepth_pos h)
    (session_faithful (d.linked_of_build h) []) ucd settings [.all]
  rwa [List.flatMap_singleton] at hall

theorem mem_decisions_analyze {decision : Decision} :
    decision ∈ (g.analyze ucd settings).decisions ↔ ∃ id b, g.block? id = some b ∧
      b.isDecision = true ∧ decision = g.decisionAt id b (g.decisionDepth id b) := by
  rw [Grammar.analyze, Grammar.report, (d.analyze_hasChecked h settings).decisions,
    Grammar.mem_flatMap_findings (f := Findings.decisions)]
  simp [Grammar.findingsAt]

end Description

/-- What a checker does and reports depends on the distinct blocks checked so far, listed in the
order of their first checks, and on nothing else. -/
structure Checker.Independent (g : Grammar) (ucd : Unicode) (settings : Settings) (c : Checker)
    (blocks : List BlockId) : Prop where
  nodup : blocks.Nodup
  /-- A block that does not exist is refused. -/
  unknown : ∀ id, g.block? id = none →
    g.checkBlock ucd settings id c = (.error (.unknownNode (.block id)), c)
  /-- No other check fails. -/
  known : ∀ id b, g.block? id = some b → (g.checkBlock ucd settings id c).1 = .ok ()
  /-- A block is checked once. -/
  again : ∀ id ∈ blocks, g.checkBlock ucd settings id c = (.ok (), c)
  decisions : (g.report c).decisions.map (·.block) =
    blocks.filter fun id => (g.block? id).any Block.isDecision
  /-- A decision is what a check of nothing else reports. -/
  decision? : ∀ id ∈ blocks, (g.report c).decision? id =
    (g.report (checkSession g ucd settings {} [.block id])).decision? id
  ambiguitiesIn : ∀ id ∈ blocks, (g.report c).ambiguitiesIn id =
    (g.report (checkSession g ucd settings {} [.block id])).ambiguitiesIn id
  unchecked : ∀ id, id ∉ blocks →
    (g.report c).decision? id = none ∧ (g.report c).ambiguitiesIn id = []

/-- On a built grammar, whatever was asked and checked before, checks in any order report of each
block what a check of that block alone reports. -/
theorem Description.checks_independent {ucd : Unicode} {d : Description} (h : d.build ucd = .ok g)
    (activities : List Activity) (settings : Settings) (checks : List CheckRequest) :
    (checkSession g ucd settings (history g ucd activities) checks).Independent g ucd settings
      (checks.flatMap (CheckRequest.blocks g)).eraseDups := by
  have hg := d.linked_of_build h
  have hpos := d.maxDepth_pos h
  have hchecked := checkSession_hasChecked hg hpos (history_faithful hg hpos ucd activities) ucd
    settings checks
  -- A fresh checker records the same findings: they are those of the block, not of a memory.
  have halone : ∀ id ∈ checks.flatMap (CheckRequest.blocks g),
      (checkSession g ucd settings {} [.block id]).HasChecked g ucd settings [id] := by
    intro id hid
    have hpresent := CheckRequest.contains_of_mem_blocks hid
    have hone := checkSession_hasChecked hg hpos (session_faithful hg []) ucd settings
      [.block id]
    rwa [List.flatMap_singleton, CheckRequest.blocks, if_pos hpresent] at hone
  exact {
    nodup := nodup_eraseDups _
    unknown := fun id hb => Grammar.checkBlock_of_none hb
    known := fun id b hb => hchecked.checkBlock_ok hg hpos hb
    again := fun id hid => by
      have hmem := List.mem_eraseDups.1 hid
      obtain ⟨b, hb⟩ := Grammar.contains_block.1 (CheckRequest.contains_of_mem_blocks hmem)
      exact Grammar.checkBlock_of_mem hb (hchecked.mem_checked.2 hmem)
    decisions := hchecked.decisions_report
    decision? := fun id hid => by
      have hmem := List.mem_eraseDups.1 hid
      rw [hchecked.decision?_report, (halone id hmem).decision?_report, if_pos hmem,
        if_pos List.mem_cons_self]
    ambiguitiesIn := fun id hid => by
      have hmem := List.mem_eraseDups.1 hid
      rw [hchecked.ambiguitiesIn_report, (halone id hmem).ambiguitiesIn_report, if_pos hmem,
        if_pos List.mem_cons_self]
    unchecked := fun id hid => by
      have hmem := mt List.mem_eraseDups.2 hid
      rw [hchecked.decision?_report, hchecked.ambiguitiesIn_report, if_neg hmem, if_neg hmem]
      exact ⟨rfl, rfl⟩ }

/-- A choice around a loop: `s : x* | x y`. -/
def loopOrPair : Description where
  maxDepth := 1
  declarations :=
    [.rule
      { name := "s"
        entry := true
        alternatives := [[.block .zeroOrMore none [[.token "x"]]], [.token "x", .token "y"]] }]

theorem loopOrPair_build : loopOrPair.build .ascii = .ok loopOrPair.layout := rfl

/-- The loop was checked first, by itself, and is reported first, as often as both are checked. One
more check changes nothing, a check of a missing block is refused, and what is reported of the
choice is what a check of the choice alone reports. -/
theorem loopOrPair_checks :
    let c := checkSession loopOrPair.layout .ascii {}
      (history loopOrPair.layout .ascii [.query (.ask (.rule 1 "s")), .checks {} [.all]])
      [.block ⟨1⟩, .block ⟨7⟩, .all, .all]
    loopOrPair.build .ascii = .ok loopOrPair.layout ∧
      (loopOrPair.layout.report c).decisions.map (·.block) = [⟨1⟩, ⟨0⟩] ∧
      loopOrPair.layout.checkBlock .ascii {} ⟨7⟩ c =
        (.error (.unknownNode (.block ⟨7⟩)), c) ∧
      loopOrPair.layout.checkBlock .ascii {} ⟨1⟩ c = (.ok (), c) ∧
      (loopOrPair.layout.report c).decision? ⟨0⟩ = (loopOrPair.layout.report
        (checkSession loopOrPair.layout .ascii {} {} [.block ⟨0⟩])).decision? ⟨0⟩ ∧
      (loopOrPair.layout.report c).ambiguitiesIn ⟨0⟩ = (loopOrPair.layout.report
        (checkSession loopOrPair.layout .ascii {} {} [.block ⟨0⟩])).ambiguitiesIn ⟨0⟩ := by
  intro c
  have hchecks := Description.checks_independent loopOrPair_build
    [.query (.ask (.rule 1 "s")), .checks {} [.all]] {} [.block ⟨1⟩, .block ⟨7⟩, .all, .all]
  exact ⟨loopOrPair_build, hchecks.decisions, hchecks.unknown ⟨7⟩ rfl,
    hchecks.again ⟨1⟩ (by decide), hchecks.decision? ⟨0⟩ (by decide),
    hchecks.ambiguitiesIn ⟨0⟩ (by decide)⟩

end GrammarLookahead
