import Mathlib.Data.List.Forall2
import GrammarLookahead.Proofs.LookaheadSet.Legibility
import GrammarLookahead.Proofs.Report.Conflicts

/-!
What settings can change. Two analyses with different settings that are told to do the same give the
same answers, do the same work and come to the same findings; the settings decide how much evidence
is kept of an ambiguity and which kinds of warnings are left out. Main statement:
`Description.settings_shape_reports`.
-/

namespace GrammarLookahead

variable {g : Grammar} {ucd : Unicode} {settings settings' : Settings} {m : Memory}
  {c c' : Checker} {id : BlockId} {b : Block}

/-- Checkers that have been through the same analysis and have checked the same blocks. -/
structure Checker.Abreast (c c' : Checker) : Prop where
  memory : c.memory = c'.memory
  checked : c.checked = c'.checked

/-- Checks that end in the same way, abreast, whenever they begin abreast. -/
def Check.Alike {α : Type} (x x' : Check α) : Prop :=
  ∀ c c' : Checker, c.Abreast c' → (x c).1 = (x' c').1 ∧ (x c).2.Abreast (x' c').2

namespace Check.Alike

variable {α β : Type} {x x' : Check α} {f f' : α → Check β}

theorem pure (a : α) : Alike (Pure.pure a) (Pure.pure a) := fun _ _ h => ⟨rfl, h⟩

theorem throw (e : QueryError) : Alike (MonadExcept.throw e : Check α) (MonadExcept.throw e) :=
  fun _ _ h => ⟨rfl, h⟩

theorem bind (hx : Alike x x') (hf : ∀ a, Alike (f a) (f' a)) : Alike (x >>= f) (x' >>= f') := by
  intro c c' h
  obtain ⟨hends, hnext⟩ := hx c c' h
  rw [bind_eq, bind_eq]
  generalize x c = p at hends hnext ⊢
  generalize x' c' = p' at hends hnext ⊢
  obtain ⟨result, d⟩ := p
  obtain ⟨result', d'⟩ := p'
  obtain rfl : result = result' := hends
  cases result with
  | ok a => exact hf a d d' hnext
  | error e => exact ⟨rfl, hnext⟩

theorem toCheck (q : Query α) : Alike q.toCheck q.toCheck := by
  intro c c' h
  unfold Query.toCheck
  rw [h.memory]
  exact ⟨rfl, rfl, h.checked⟩

theorem modify {change change' : Checker → Checker}
    (h : ∀ c c' : Checker, c.Abreast c' → (change c).Abreast (change' c')) :
    Alike (modifyThe Checker change : Check PUnit) (modifyThe Checker change') :=
  fun c c' hc => ⟨rfl, h c c' hc⟩

theorem get_bind {f f' : Checker → Check β}
    (h : ∀ c c' : Checker, c.Abreast c' → Alike (f c) (f' c')) :
    Alike (MonadState.get >>= f) (MonadState.get >>= f') := by
  intro c c' hc
  rw [bind_eq, bind_eq]
  exact h c c' hc c c' hc

end Check.Alike

namespace Grammar

variable (g ucd settings settings')

theorem compareBranches_alike (id : BlockId) (b : Block) :
    (g.compareBranches ucd settings id b).Alike (g.compareBranches ucd settings' id b) := by
  refine (Check.Alike.toCheck _).bind fun atMax => ?_
  refine Check.Alike.bind (.modify ?_) fun _ => ?_
  · exact fun c c' h => ⟨h.memory, h.checked⟩
  refine (Check.Alike.toCheck _).bind fun decision => .modify ?_
  exact fun c c' h => ⟨h.memory, h.checked⟩

theorem checkBlock_alike (id : BlockId) :
    (g.checkBlock ucd settings id).Alike (g.checkBlock ucd settings' id) := by
  unfold checkBlock
  cases g.block? id with
  | none => exact .throw _
  | some b =>
    refine .get_bind fun c c' h => ?_
    rw [h.checked]
    split
    · exact .pure _
    · refine Check.Alike.bind (.modify ?_) fun _ => ?_
      · exact fun c c' h => ⟨h.memory, congrArg (id :: ·) h.checked⟩
      · split
        · exact .pure _
        · exact compareBranches_alike g ucd settings settings' id b

theorem checkAll_alike : (g.checkAll ucd settings).Alike (g.checkAll ucd settings') := by
  intro c c' h
  have hrules : ∀ rules : List Rule, Checker.Abreast
      (rules.foldl (fun c rule => ((g.lookRule g.maxDepth rule.name).toCheck c).2) c)
      (rules.foldl (fun c rule => ((g.lookRule g.maxDepth rule.name).toCheck c).2) c') := by
    intro rules
    induction rules using List.reverseRecOn with
    | nil => exact h
    | append_singleton rules rule ih =>
      rw [List.foldl_append, List.foldl_append]
      exact (Check.Alike.toCheck (g.lookRule g.maxDepth rule.name) _ _ ih).2
  have hblocks : ∀ (ids : List BlockId) (d d' : Checker), d.Abreast d' → Checker.Abreast
      (ids.foldl (fun c id => (g.checkBlock ucd settings id c).2) d)
      (ids.foldl (fun c id => (g.checkBlock ucd settings' id c).2) d') := by
    intro ids d d' hd
    induction ids using List.reverseRecOn with
    | nil => exact hd
    | append_singleton ids id ih =>
      rw [List.foldl_append, List.foldl_append]
      exact (checkBlock_alike g ucd settings settings' id _ _ ih).2
  rw [checkAll_eq, checkAll_eq]
  exact ⟨rfl, hblocks _ _ _ (hrules _)⟩

end Grammar

/-- The check that a request stands for. -/
def CheckRequest.check (g : Grammar) (ucd : Unicode) (settings : Settings) :
    CheckRequest → Check Unit
  | all => g.checkAll ucd settings
  | block id => g.checkBlock ucd settings id

theorem CheckRequest.run_eq (request : CheckRequest) (c : Checker) :
    request.run g ucd settings c = (request.check g ucd settings c).2 := by
  cases request <;> rfl

theorem CheckRequest.check_alike (g : Grammar) (ucd : Unicode) (settings settings' : Settings)
    (request : CheckRequest) :
    (request.check g ucd settings).Alike (request.check g ucd settings') := by
  cases request with
  | all => exact Grammar.checkAll_alike g ucd settings settings'
  | block id => exact Grammar.checkBlock_alike g ucd settings settings' id

/-- How checks end that are made one after the other. -/
def Checker.endings (g : Grammar) (ucd : Unicode) (settings : Settings) (c : Checker) :
    List CheckRequest → List (Except QueryError Unit)
  | [] => []
  | request :: requests =>
    (request.check g ucd settings c).1 ::
      (request.run g ucd settings c).endings g ucd settings requests

theorem Checker.Abreast.requests (h : c.Abreast c') (g : Grammar) (ucd : Unicode)
    (settings settings' : Settings) (requests : List CheckRequest) :
    c.endings g ucd settings requests = c'.endings g ucd settings' requests ∧
      (requests.foldl (CheckRequest.run g ucd settings) c).Abreast
        (requests.foldl (CheckRequest.run g ucd settings') c') := by
  induction requests generalizing c c' with
  | nil => exact ⟨rfl, h⟩
  | cons request requests ih =>
    obtain ⟨hends, hnext⟩ := request.check_alike g ucd settings settings' c c' h
    rw [← request.run_eq, ← request.run_eq] at hnext
    obtain ⟨hrest, hlast⟩ := ih hnext
    exact ⟨List.cons_eq_cons.2 ⟨hends, hrest⟩, hlast⟩

/-- Records of one ambiguity, of which more or less evidence is kept. -/
structure Ambiguity.Corresponds (settings settings' : Settings) (a a' : Ambiguity) : Prop where
  block : a.block = a'.block
  rule : a.rule = a'.rule
  first : a.first = a'.first
  second : a.second = a'.second
  depth : a.depth = a'.depth
  overlapSize : a.overlapSize = a'.overlapSize
  less : settings.maxEvidence ≤ settings'.maxEvidence → a.overlap.members <+: a'.overlap.members
  more : settings'.maxEvidence ≤ settings.maxEvidence → a'.overlap.members <+: a.overlap.members

theorem Grammar.ambiguityOf_corresponds (g : Grammar) (settings settings' : Settings)
    (id : BlockId) (b : Block) (x y : Branch) :
    (g.ambiguityOf settings id b x y).Corresponds settings settings'
      (g.ambiguityOf settings' id b x y) := by
  have hprefix : ∀ {n n' : Nat}, n ≤ n' → (List.take n (g.shared id g.maxDepth x y).toList).map
      Member.complete ++ [] <+: (List.take n' (g.shared id g.maxDepth x y).toList).map
        Member.complete ++ [] := by
    intro n n' hle
    rw [List.append_nil, List.append_nil]
    exact (List.take_prefix_take_left hle).map _
  exact ⟨rfl, rfl, rfl, rfl, rfl, rfl, hprefix, hprefix⟩

namespace Grammar

theorem decisions_findings (g : Grammar) (ucd : Unicode) (settings settings' : Settings)
    (id : BlockId) :
    (g.findings ucd settings id).decisions = (g.findings ucd settings' id).decisions := by
  unfold findings
  cases g.block? id with
  | none => rfl
  | some b =>
    rw [Option.elim_some, Option.elim_some]
    split <;> rfl

theorem ambiguities_findings (hg : g.Linked) (hpos : 1 ≤ g.maxDepth) (ucd : Unicode)
    (settings settings' : Settings) (id : BlockId) :
    List.Forall₂ (Ambiguity.Corresponds settings settings') (g.findings ucd settings id).ambiguities
      (g.findings ucd settings' id).ambiguities := by
  unfold findings
  cases g.block? id with
  | none => exact .nil
  | some b =>
    rw [Option.elim_some, Option.elim_some]
    split
    · rw [hg.ambiguities_eq hpos, hg.ambiguities_eq hpos]
      refine List.rel_filterMap (fun p q hpq => ?_) (List.forall₂_same.2 fun p _ => rfl)
      obtain rfl : p = q := hpq
      have hexit : (g.ambiguityOf settings id b p.1 p.2).involvesExit =
          (g.ambiguityOf settings' id b p.1 p.2).involvesExit := rfl
      rw [hexit]
      split
      · exact .none
      · exact .some (g.ambiguityOf_corresponds settings settings' id b p.1 p.2)
    · exact .nil

end Grammar

namespace Comparison

variable {branches : List BranchLookahead} {found : List Ambiguity} {diagnostic : Diagnostic}

theorem code_of_mem_unreachable (h : diagnostic ∈ unreachable g id b branches) :
    diagnostic.code = some "W0003" := by
  obtain ⟨⟨branch, lookahead⟩, -, h⟩ := List.mem_filterMap.1 h
  cases branch with
  | exit => cases h
  | alternative index =>
    obtain ⟨-, h⟩ := Option.ite_none_right_eq_some.1 h
    rw [← Option.some.inj h]
    rfl

theorem code_of_warning? {a : Ambiguity} (h : warning? g ucd settings a = some diagnostic) :
    diagnostic.code = if a.involvesExit then some "W0002" else some "W0001" := by
  obtain ⟨-, h⟩ := Option.ite_none_left_eq_some.1 h
  rw [← Option.some.inj h]
  rfl

theorem filter_unreachable {code : String} (hcode : code ≠ "W0003") :
    (unreachable g id b branches).filter (·.code ≠ some code) = unreachable g id b branches := by
  refine List.filter_eq_self.2 fun diagnostic h => ?_
  rw [code_of_mem_unreachable h]
  simpa using Ne.symm hcode

/-- Without warnings of exits those are missing and no others. -/
theorem diagnostics_without_exits :
    diagnostics g ucd { settings with warnExitAmbiguities := false } id b branches found =
      (diagnostics g ucd settings id b branches found).filter (·.code ≠ some "W0002") := by
  have hwarnings :
      found.filterMap (warning? g ucd { settings with warnExitAmbiguities := false }) =
        (found.filterMap (warning? g ucd settings)).filter (·.code ≠ some "W0002") := by
    rw [List.filter_filterMap]
    refine List.filterMap_congr fun a _ => ?_
    cases hexit : a.involvesExit <;> cases hwarn : settings.warnExitAmbiguities <;>
      simp [warning?, Diagnostic.ambiguity, Option.filter, hexit, hwarn]
  rw [diagnostics, diagnostics, List.filter_append, hwarnings, apply_ite (List.filter _),
    filter_unreachable (by decide), List.filter_nil]

/-- Without warnings of unreachable alternatives those are missing and no others. -/
theorem diagnostics_without_unreachable :
    diagnostics g ucd { settings with reportUnreachable := false } id b branches found =
      (diagnostics g ucd settings id b branches found).filter (·.code ≠ some "W0003") := by
  have hwarnings : (found.filterMap (warning? g ucd settings)).filter (·.code ≠ some "W0003") =
      found.filterMap (warning? g ucd settings) := by
    refine List.filter_eq_self.2 fun diagnostic h => ?_
    obtain ⟨a, -, h⟩ := List.mem_filterMap.1 h
    rw [code_of_warning? h]
    cases a.involvesExit <;> decide
  have hnone : (unreachable g id b branches).filter (·.code ≠ some "W0003") = [] := by
    refine List.filter_eq_nil_iff.2 fun diagnostic h => ?_
    rw [code_of_mem_unreachable h]
    decide
  rw [diagnostics, diagnostics, List.filter_append, hwarnings, apply_ite (List.filter _), hnone,
    List.filter_nil, ite_self]
  rfl

end Comparison

namespace Grammar

variable (g ucd settings id)

theorem diagnostics_findings_without_exits :
    (g.findings ucd { settings with warnExitAmbiguities := false } id).diagnostics =
      (g.findings ucd settings id).diagnostics.filter (·.code ≠ some "W0002") := by
  unfold findings
  cases g.block? id with
  | none => rfl
  | some b =>
    rw [Option.elim_some, Option.elim_some]
    split
    · exact Comparison.diagnostics_without_exits
    · rfl

theorem diagnostics_findings_without_unreachable :
    (g.findings ucd { settings with reportUnreachable := false } id).diagnostics =
      (g.findings ucd settings id).diagnostics.filter (·.code ≠ some "W0003") := by
  unfold findings
  cases g.block? id with
  | none => rfl
  | some b =>
    rw [Option.elim_some, Option.elim_some]
    split
    · exact Comparison.diagnostics_without_unreachable
    · rfl

end Grammar

/-- Reports of the same checks: they differ in the evidence that is kept and in the warnings that
are left out. -/
structure Report.Corresponds (settings settings' : Settings) (r r' : Report) : Prop where
  decisions : r.decisions = r'.decisions
  leftRecursive : r.leftRecursive = r'.leftRecursive
  work : r.work = r'.work
  ambiguities : List.Forall₂ (Ambiguity.Corresponds settings settings') r.ambiguities r'.ambiguities
  /-- Only the warnings of exits are missing if only they are switched off. -/
  without_exits : settings' = { settings with warnExitAmbiguities := false } →
    r'.diagnostics = r.diagnostics.filter (·.code ≠ some "W0002")
  /-- Only the warnings of unreachable alternatives are missing if only they are switched off. -/
  without_unreachable : settings' = { settings with reportUnreachable := false } →
    r'.diagnostics = r.diagnostics.filter (·.code ≠ some "W0003")

theorem Checker.Abreast.report_corresponds {ids : List BlockId} (hg : g.Linked)
    (hpos : 1 ≤ g.maxDepth) (habreast : c.Abreast c') (h : c.HasChecked g ucd settings ids)
    (h' : c'.HasChecked g ucd settings' ids) :
    (g.report c).Corresponds settings settings' (g.report c') := by
  have hleft : ∀ code : String, code ≠ "E0001" → ∀ rules : List RuleId,
      (rules.map fun r => Diagnostic.leftRecursion (g.ruleName r)).filter (·.code ≠ some code) =
        rules.map fun r => Diagnostic.leftRecursion (g.ruleName r) := by
    intro code hcode rules
    refine List.filter_eq_self.2 fun diagnostic hd => ?_
    obtain ⟨r, -, rfl⟩ := List.mem_map.1 hd
    simpa [Diagnostic.leftRecursion] using Ne.symm hcode
  constructor
  case decisions =>
    have hsame : ∀ id, (g.findings ucd settings id).decisions =
        (g.findings ucd settings' id).decisions :=
      g.decisions_findings ucd settings settings'
    simp only [Grammar.report, h.decisions, h'.decisions, hsame]
  case leftRecursive => simp only [Grammar.report, habreast.memory]
  case work => simp only [Grammar.report, habreast.memory]
  case ambiguities =>
    simp only [Grammar.report, h.ambiguities, h'.ambiguities]
    refine List.rel_flatMap (List.forall₂_same.2 fun id _ => rfl) fun id id' hid => ?_
    obtain rfl : id = id' := hid
    exact g.ambiguities_findings hg hpos ucd settings settings' id
  case without_exits =>
    rintro rfl
    simp only [Grammar.report, h.diagnostics, h'.diagnostics, habreast.memory, List.filter_append,
      List.filter_flatMap, g.diagnostics_findings_without_exits ucd settings]
    rw [hleft _ (by decide)]
  case without_unreachable =>
    rintro rfl
    simp only [Grammar.report, h.diagnostics, h'.diagnostics, habreast.memory, List.filter_append,
      List.filter_flatMap, g.diagnostics_findings_without_unreachable ucd settings]
    rw [hleft _ (by decide)]

/-- What may be done with an analysis that has settings: a question, forgetting what was found, or
the checks of a checker that then reports. -/
inductive Task where
  | ask (question : Question)
  | clear
  | checks (requests : List CheckRequest)
  deriving DecidableEq, Repr

/-- What comes of a task. -/
inductive Outcome where
  | answer (result : Except QueryError LookaheadSet)
  | cleared
  | report (endings : List (Except QueryError Unit)) (report : Report)

/-- What comes of a task, and the memory after it. -/
def Task.run (g : Grammar) (ucd : Unicode) (settings : Settings) (m : Memory) :
    Task → Outcome × Memory
  | ask question => (.answer (question.ask g m).1, (question.ask g m).2)
  | clear => (.cleared, m.clear)
  | checks requests =>
    let c := checkSession g ucd settings m requests
    (.report (Checker.endings g ucd settings { memory := m } requests) (g.report c), c.memory)

/-- What comes of several tasks, one after the other, with the memory after each of them. -/
def transcript (g : Grammar) (ucd : Unicode) (settings : Settings) (m : Memory) :
    List Task → List (Outcome × Memory)
  | [] => []
  | task :: tasks =>
    task.run g ucd settings m :: transcript g ucd settings (task.run g ucd settings m).2 tasks

/-- Outcomes of a task under two settings: they differ in what the settings decide of a report. -/
inductive Outcome.Corresponds (settings settings' : Settings) : Outcome → Outcome → Prop
  | answer (result : Except QueryError LookaheadSet) :
    Corresponds settings settings' (.answer result) (.answer result)
  | cleared : Corresponds settings settings' .cleared .cleared
  | report (endings : List (Except QueryError Unit)) {r r' : Report}
    (h : r.Corresponds settings settings' r') :
    Corresponds settings settings' (.report endings r) (.report endings r')

theorem Outcome.Corresponds.reports {settings settings' : Settings}
    {endings endings' : List (Except QueryError Unit)} {r r' : Report}
    (h : Corresponds settings settings' (.report endings r) (.report endings' r')) :
    r.Corresponds settings settings' r' := by
  cases h with
  | report _ h => exact h

/-- A task comes to corresponding outcomes and leaves the same memory behind. -/
theorem Task.run_corresponds (hg : g.Linked) (hpos : 1 ≤ g.maxDepth) (hm : m.Faithful g)
    (ucd : Unicode) (settings settings' : Settings) (task : Task) :
    (task.run g ucd settings m).1.Corresponds settings settings' (task.run g ucd settings' m).1 ∧
      (task.run g ucd settings m).2 = (task.run g ucd settings' m).2 ∧
        (task.run g ucd settings m).2.Faithful g := by
  cases task with
  | ask question => exact ⟨.answer _, rfl, hm.run hg (.ask question)⟩
  | clear => exact ⟨.cleared, rfl, hm.run hg .clear⟩
  | checks requests =>
    have hstart : Checker.Abreast { memory := m } { memory := m } := ⟨rfl, rfl⟩
    obtain ⟨hends, habreast⟩ := hstart.requests g ucd settings settings' requests
    have hreport := habreast.report_corresponds hg hpos
      (checkSession_hasChecked hg hpos hm ucd settings requests)
      (checkSession_hasChecked hg hpos hm ucd settings' requests)
    have hextends := checkSession_extends hg hpos hm ucd settings requests
    refine ⟨?_, habreast.memory, hextends.memory.faithful hm hg⟩
    simp only [run, hends]
    exact .report _ hreport

theorem transcript_corresponds (hg : g.Linked) (hpos : 1 ≤ g.maxDepth) (hm : m.Faithful g)
    (ucd : Unicode) (settings settings' : Settings) (tasks : List Task) :
    List.Forall₂ (fun e e' => e.1.Corresponds settings settings' e'.1 ∧ e.2 = e'.2)
      (transcript g ucd settings m tasks) (transcript g ucd settings' m tasks) := by
  induction tasks generalizing m with
  | nil => exact .nil
  | cons task tasks ih =>
    obtain ⟨houtcome, hmemory, hfaithful⟩ :=
      task.run_corresponds hg hpos hm ucd settings settings'
    have hrest := ih hfaithful
    rw [transcript, transcript, ← hmemory]
    exact .cons ⟨houtcome, hmemory⟩ hrest

/-- On a built grammar, the same questions and checks under two settings have the same answers and
the same endings, do the same work and leave the same memory behind. The reports differ only in how
much evidence is kept and in the warnings that are switched off. -/
theorem Description.settings_shape_reports {ucd : Unicode} {d : Description}
    (h : d.build ucd = .ok g) (settings settings' : Settings) (tasks : List Task) :
    List.Forall₂ (fun e e' => e.1.Corresponds settings settings' e'.1 ∧ e.2 = e'.2)
      (transcript g ucd settings {} tasks) (transcript g ucd settings' {} tasks) :=
  transcript_corresponds (d.linked_of_build h) (d.maxDepth_pos h)
    (Memory.faithful_of_cache_eq_empty rfl) ucd settings settings' tasks

/-- A question, a check of the loop and one of all, without any evidence and without warnings of
exits; and all of the grammar with one kind of warnings switched off. -/
theorem loopOrPair_settings :
    loopOrPair.build .ascii = .ok loopOrPair.layout ∧
      List.Forall₂
        (fun e e' => e.1.Corresponds {} { warnExitAmbiguities := false, maxEvidence := 0 } e'.1 ∧
          e.2 = e'.2)
        (transcript loopOrPair.layout .ascii {} {}
          [.ask (.rule 1 "s"), .checks [.block ⟨1⟩], .checks [.all]])
        (transcript loopOrPair.layout .ascii { warnExitAmbiguities := false, maxEvidence := 0 } {}
          [.ask (.rule 1 "s"), .checks [.block ⟨1⟩], .checks [.all]]) ∧
      (loopOrPair.layout.analyze .ascii { warnExitAmbiguities := false }).diagnostics =
        (loopOrPair.layout.analyze .ascii {}).diagnostics.filter (·.code ≠ some "W0002") ∧
      (loopOrPair.layout.analyze .ascii { reportUnreachable := false }).diagnostics =
        (loopOrPair.layout.analyze .ascii {}).diagnostics.filter (·.code ≠ some "W0003") := by
  have hshape := Description.settings_shape_reports loopOrPair_build {}
  refine ⟨loopOrPair_build, hshape _ _, ?_, ?_⟩
  · obtain ⟨⟨houtcome, -⟩, -⟩ := List.forall₂_cons.1 (hshape { warnExitAmbiguities := false }
      [.checks [.all]])
    exact houtcome.reports.without_exits rfl
  · obtain ⟨⟨houtcome, -⟩, -⟩ := List.forall₂_cons.1 (hshape { reportUnreachable := false }
      [.checks [.all]])
    exact houtcome.reports.without_unreachable rfl

end GrammarLookahead
