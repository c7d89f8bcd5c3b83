import GrammarLookahead.Proofs.Grammar.WellLinked
import GrammarLookahead.Proofs.Json.Basic
import GrammarLookahead.Proofs.Report.BranchComparison
import GrammarLookahead.Proofs.Report.ExportDecoding
import GrammarLookahead.Proofs.Report.LeftRecursionErrors

/-!
Exported reports lose nothing that a parser generator needs. With a library that keeps to the
standard, the text of a report is read as the document of the report, the findings in the document
can be read with the grammar at hand, and so two reports on a grammar have the same text exactly if
they have the same contents. Main statement: `Description.analyze_exported`.
-/

namespace GrammarLookahead

open Json (Value Library)

namespace Json.Value

variable {α : Type} {f : α → Value} {levels : Nat}

theorem portable_ofOption {x : Option α} (hf : ∀ a ∈ x, (f a).Portable levels) :
    (ofOption f x).Portable levels := by
  cases x with
  | none => exact .null levels
  | some a => exact hf a rfl

theorem portable_ofList {xs : List α} (hf : ∀ a ∈ xs, (f a).Portable levels) :
    (ofList f xs).Portable (levels + 1) :=
  .array (List.forall_mem_map.2 hf)

end Json.Value

/-- A branch whose number fits into 64 bits. -/
def Branch.FitsWord (b : Branch) : Prop := ∀ i ∈ b.index?, i < UInt64.size

/-- A report on a grammar whose numbers fit into 64 bits. Handles are narrower, and a machine counts
the alternatives of a block and the sequences of a set in 64 bits, so it has no other reports. -/
structure Report.FitsWords (g : Grammar) (r : Report) : Prop where
  maxDepth : g.maxDepth < UInt64.size
  decisions : ∀ d ∈ r.decisions, d.block.index < UInt64.size ∧ d.depth < UInt64.size ∧
    ∀ b ∈ d.branches, b.branch.FitsWord
  ambiguities : ∀ a ∈ r.ambiguities, a.block.index < UInt64.size ∧ a.first.FitsWord ∧
    a.second.FitsWord ∧ a.depth < UInt64.size ∧ a.overlapSize < UInt64.size

variable {ucd : Unicode} {d : Description} {g : Grammar} {settings : Settings} {depth : Nat}

namespace Report

open Json.Value (Portable portable_ofOption portable_ofList)

section

variable {levels : Nat}

theorem portable_lookaheadValue (ucd : Unicode) (g : Grammar) (a : LookaheadSet) :
    (lookaheadValue ucd g a).Portable (levels + 1) :=
  portable_ofList fun text _ => .string levels text

theorem portable_branchValue {b : Branch} (hb : b.FitsWord) : (branchValue b).Portable levels :=
  portable_ofOption fun i hi => .natural levels (hb i hi)

theorem portable_decisionValue {decision : Decision} (hblock : decision.block.index < UInt64.size)
    (hdepth : decision.depth < UInt64.size)
    (hbranches : ∀ b ∈ decision.branches, b.branch.FitsWord) :
    (decisionValue ucd g decision).Portable (levels + 4) := by
  have hentry : ∀ b ∈ decision.branches, (Value.object [("alternative", branchValue b.branch),
      ("lookahead", lookaheadValue ucd g b.lookahead)]).Portable (levels + 2) := fun b hb =>
    .object (by simp) (by simp [portable_branchValue (hbranches b hb), portable_lookaheadValue])
  have hentries := portable_ofList hentry
  refine .object (by simp) ?_
  simp [Portable.natural, Portable.string, Portable.bool, hblock, hdepth, hentries]

theorem portable_ambiguityValue {a : Ambiguity} (hblock : a.block.index < UInt64.size)
    (hfirst : a.first.FitsWord) (hsecond : a.second.FitsWord) (hdepth : a.depth < UInt64.size)
    (hsize : a.overlapSize < UInt64.size) : (ambiguityValue ucd g a).Portable (levels + 2) := by
  refine .object (by simp) ?_
  simp [Portable.natural, Portable.string, hblock, hdepth, hsize, portable_branchValue hfirst,
    portable_branchValue hsecond, portable_lookaheadValue]

theorem portable_diagnosticValue (x : Diagnostic) :
    (diagnosticValue x).Portable (levels + 2) := by
  have hoption : ∀ x : Option String, (Value.ofOption .string x).Portable (levels + 1) := fun x =>
    portable_ofOption fun text _ => .string _ text
  have hlist : ∀ xs : List String, (Value.ofList .string xs).Portable (levels + 1) := fun xs =>
    portable_ofList fun text _ => .string _ text
  refine .object (by simp) ?_
  simp [Portable.string, hoption, hlist]

/-- The document of a report is portable, if its numbers are. -/
theorem FitsWords.portable_toValue {r : Report} (h : r.FitsWords g) :
    (r.toValue ucd g).Portable (levels + 6) := by
  have htokens : (Value.ofList .string g.vocabulary.names).Portable (levels + 5) :=
    portable_ofList fun text _ => .string _ text
  have hrules : (Value.array (g.rules.toList.zipIdx.map fun x =>
      ruleValue r.leftRecursive ⟨x.2⟩ x.1)).Portable (levels + 5) := by
    refine .array (List.forall_mem_map.2 fun x _ => .object (by simp) ?_)
    simp [Portable.string, Portable.bool]
  have hdecisions : (Value.ofList (decisionValue ucd g) r.decisions).Portable (levels + 5) :=
    portable_ofList fun decision hmem =>
      portable_decisionValue (h.decisions decision hmem).1 (h.decisions decision hmem).2.1
        (h.decisions decision hmem).2.2
  have hambiguities : (Value.ofList (ambiguityValue ucd g) r.ambiguities).Portable (levels + 5) :=
    portable_ofList fun a ha => by
      obtain ⟨hblock, hfirst, hsecond, hdepth, hsize⟩ := h.ambiguities a ha
      exact portable_ambiguityValue hblock hfirst hsecond hdepth hsize
  have hdiagnostics : (Value.ofList diagnosticValue r.diagnostics).Portable (levels + 5) :=
    portable_ofList fun x _ => portable_diagnosticValue x
  refine .object (by simp) ?_
  simp [Portable.natural, h.maxDepth, htokens, hrules, hdecisions, hambiguities, hdiagnostics]

end

/-- A document does not tell the blocks that diagnostics are about. -/
theorem toValue_of_contents {r r' : Report} (h : r.contents = r'.contents) :
    r.toValue ucd g = r'.toValue ucd g := by
  have hdiagnostics : ∀ r : Report, Value.ofList diagnosticValue r.diagnostics =
      .ofList diagnosticValue r.contents.diagnostics := fun r => by
    simp [Value.ofList, contents, Function.comp_def, diagnosticValue]
  have hdecisions : r.decisions = r'.decisions := congrArg ReportContents.decisions h
  have hambiguities : r.ambiguities = r'.ambiguities := congrArg ReportContents.ambiguities h
  have hleft : r.leftRecursive = r'.leftRecursive := congrArg ReportContents.leftRecursive h
  rw [toValue, toValue, hdiagnostics r, hdiagnostics r', h, hdecisions, hambiguities, hleft]

end Report

theorem Description.namesRule_of_block (h : d.build ucd = .ok g) {id : BlockId} {b : Block}
    (hb : g.block? id = some b) : g.NamesRule b.rule := by
  have hlt : b.rule.index < g.rules.size := ((d.inRange h).block b (Array.mem_of_getElem? hb)).2.1
  have hr : g.rule? b.rule = some g.rules[b.rule.index] := Array.getElem?_eq_getElem hlt
  rw [Grammar.NamesRule, Grammar.ruleName, hr, Option.elim_some]
  exact d.ruleNamed?_of_rule? h hr

namespace Grammar.Linked

variable (hg : g.Linked)
include hg

theorem branchLookahead_over (id : BlockId) (x : Branch) (hpos : 1 ≤ depth) :
    (g.branchLookahead id depth x).Over g.vocabulary depth := by
  refine ⟨(hg.branchLookahead_closed hpos).depth_eq, fun m hm => ?_⟩
  cases hx : g.branchTarget? id x with
  | none =>
    rw [branchLookahead, hx] at hm
    exact absurd hm LookaheadSet.not_mem_empty
  | some n => exact ((hg.mem_branchLookahead hpos hx).1 hm).tokens_subset hg

theorem ambiguityOf_over (id : BlockId) (b : Block) (x y : Branch) (hpos : 1 ≤ g.maxDepth) :
    (g.ambiguityOf settings id b x y).overlap.Over g.vocabulary g.maxDepth := by
  refine ⟨rfl, fun m hm => ?_⟩
  cases m with
  | complete s =>
    have hs : s ∈ g.shared id g.maxDepth x y := List.mem_of_mem_take hm
    exact (hg.branchLookahead_over id x hpos).tokens (.complete s) (mem_shared.1 hs).1
  | unfinished p => exact absurd hm OrderedSet.not_mem_empty

/-- What branches share has at most as many members as there are sequences of tokens. -/
theorem size_shared_le (id : BlockId) (x y : Branch) (hpos : 1 ≤ depth) :
    (g.shared id depth x y).size ≤ (g.vocabulary.sequences depth).length := by
  have hnodup : (g.shared id depth x y).toList.Nodup := by
    refine (g.shared id depth x y).ascending.imp ?_
    rintro s _ hlt rfl
    exact List.lt_irrefl s hlt
  refine (List.subperm_of_subset hnodup fun s hs => ?_).length_le
  have hsees : (Member.complete s) ∈ g.branchLookahead id depth x := (mem_shared.1 hs).1
  refine Vocabulary.mem_sequences.2 ⟨?_, (hg.branchLookahead_over id x hpos).tokens _ hsees⟩
  rw [← (hg.branchLookahead_closed hpos).clip_eq s hsees]
  exact List.length_take_le _ _

/-- The decision that is found at a block is about the tokens of the grammar. -/
theorem decisionAt_over (id : BlockId) (b : Block) (hpos : 1 ≤ depth) :
    ∀ entry ∈ (g.decisionAt id b depth).branches, entry.lookahead.Over g.vocabulary depth := by
  intro entry hentry
  obtain ⟨x, -, rfl⟩ := List.mem_map.1 hentry
  exact hg.branchLookahead_over id x hpos

end Grammar.Linked

namespace Description

variable (h : d.build ucd = .ok g) (settings : Settings)
include h

/-- The report lists the conflicts of the decisions of the grammar. -/
theorem mem_ambiguities_analyze {a : Ambiguity} :
    a ∈ (g.analyze ucd settings).ambiguities ↔ ∃ id b, g.block? id = some b ∧ b.isDecision = true ∧
      ∃ x y, g.Conflict id b x y ∧ a = g.ambiguityOf settings id b x y := by
  rw [Grammar.analyze, Grammar.report, (d.analyze_hasChecked h settings).ambiguities,
    Grammar.mem_flatMap_findings (f := Findings.ambiguities)]
  simp only [(d.linked_of_build h).mem_ambiguities (d.maxDepth_pos h)]

/-- The report on a built grammar is about the rules and tokens of the grammar. -/
theorem analyze_about : (g.analyze ucd settings).About g := by
  have hg := d.linked_of_build h
  have hpos := d.maxDepth_pos h
  have hraised : (g.analyze ucd settings).RaisesLeftRecursion g d.Nullable :=
    d.checkAll_raises h [] settings []
  refine ⟨fun decision hdecision => ?_, fun a ha => ?_, fun id hid => ?_, ?_⟩
  · obtain ⟨id, b, hb, -, rfl⟩ := (d.mem_decisions_analyze h settings).1 hdecision
    exact ⟨d.namesRule_of_block h hb,
      hg.decisionAt_over id b (Grammar.decisionDepth_mem hpos id b).1⟩
  · obtain ⟨id, b, hb, -, x, y, -, rfl⟩ := (d.mem_ambiguities_analyze h settings).1 ha
    exact ⟨d.namesRule_of_block h hb, hg.ambiguityOf_over id b x y hpos⟩
  · obtain ⟨r, nodes, hr, -⟩ := hraised.sound id hid
    exact List.mem_map.2 ⟨id.index, List.mem_range.2 (Grammar.index_lt_of_rule? hr), rfl⟩
  · exact OrderedSet.ascending _

end Description

/-- The text of a report is read as the document of the report, and the contents of the report can
be recovered from either. -/
def Report.Recoverable (ucd : Unicode) (g : Grammar) (json : Library) (r : Report) : Prop :=
  ∃ text doc parsed, r.toText? ucd g json = some text ∧ r.toDocument? ucd g json = some doc ∧
    json.parse? text = some parsed ∧ parsed.Same doc ∧
    ReportContents.ofValue? ucd g parsed = some r.contents ∧
    ReportContents.ofValue? ucd g doc = some r.contents

theorem Report.Recoverable.contents_eq {json : Library} {r r' : Report}
    (h : r.Recoverable ucd g json) (h' : r'.Recoverable ucd g json)
    (htexts : r.toText? ucd g json = r'.toText? ucd g json) : r.contents = r'.contents := by
  obtain ⟨text, -, parsed, htext, -, hparse, -, hread, -⟩ := h
  obtain ⟨text', -, parsed', htext', -, hparse', -, hread', -⟩ := h'
  obtain rfl : text = text' := Option.some.inj (htext.symm.trans (htexts.trans htext'))
  obtain rfl : parsed = parsed' := Option.some.inj (hparse.symm.trans hparse')
  exact Option.some.inj (hread.symm.trans hread')

theorem Report.About.recoverable {json : Library} {r : Report} (h : r.About g)
    (hfits : r.FitsWords g) (hfree : ucd.PunctuationFree) (hjson : json.Standard)
    (hquotes : ∀ name ∈ g.vocabulary.names, '"' ∉ name.toList) : r.Recoverable ucd g json := by
  have hread := h.ofValue?_toValue hfree hquotes
  have hportable : (r.toValue ucd g).Portable Json.nestingLimit :=
    @Report.FitsWords.portable_toValue ucd g 121 r hfits
  obtain ⟨text, doc, parsed, htext, hdoc, hparse, hsame, hsame'⟩ := hjson.parse?_pretty? hportable
  refine ⟨text, doc, parsed, htext, hdoc, hparse, hsame'.of_left hsame, ?_, ?_⟩
  · rw [← hread, ReportContents.stable_ofValue? ucd g hsame']
  · rw [← hread, ReportContents.stable_ofValue? ucd g hsame]

/-- On a built grammar whose token names hold no quotes, a JSON library that keeps to the standard
reads the text of a report, whose numbers are those of a machine, as the document of the report.
With the grammar at hand the document gives back the decisions, the ambiguities, the left-recursive
rules and the diagnostics, apart from their blocks, and reports that differ in any of these have
different texts. -/
theorem Description.analyze_exported {json : Library} (hfree : ucd.PunctuationFree)
    (hjson : json.Standard) (h : d.build ucd = .ok g)
    (hquotes : ∀ name ∈ g.vocabulary.names, '"' ∉ name.toList) (settings : Settings)
    (hfits : (g.analyze ucd settings).FitsWords g) :
    (g.analyze ucd settings).Recoverable ucd g json ∧
      ∀ settings', (g.analyze ucd settings').FitsWords g →
        ((g.analyze ucd settings).toText? ucd g json =
            (g.analyze ucd settings').toText? ucd g json ↔
          (g.analyze ucd settings).contents = (g.analyze ucd settings').contents) := by
  have hrecoverable : ∀ settings, (g.analyze ucd settings).FitsWords g →
      (g.analyze ucd settings).Recoverable ucd g json := fun settings hfits =>
    (d.analyze_about h settings).recoverable hfits hfree hjson hquotes
  refine ⟨hrecoverable settings hfits, fun settings' hfits' => ⟨fun htexts => ?_, fun heq => ?_⟩⟩
  · exact (hrecoverable settings hfits).contents_eq (hrecoverable settings' hfits') htexts
  · rw [Report.toText?, Report.toText?, Report.toValue_of_contents heq]

/-- The numbers of a report fit if there are not too many blocks, alternatives and sequences of
tokens. -/
theorem Description.analyze_fitsWords (h : d.build ucd = .ok g) (settings : Settings)
    (hblocks : g.blocks.size ≤ UInt64.size)
    (halternatives : ∀ b ∈ g.blocks, b.alternatives.length ≤ UInt64.size)
    (hsequences : (g.vocabulary.sequences g.maxDepth).length < UInt64.size) :
    (g.analyze ucd settings).FitsWords g := by
  have hpos := d.maxDepth_pos h
  have hmax : g.maxDepth < UInt64.size := Nat.lt_of_le_of_lt (d.maxDepth_le h) (by decide)
  have hblock : ∀ {id b}, g.block? id = some b → id.index < UInt64.size := fun hb =>
    Nat.lt_of_lt_of_le (Grammar.index_lt_of_block? hb) hblocks
  have hbranch : ∀ {id b x}, g.block? id = some b → x ∈ b.branches → x.FitsWord := by
    rintro id b (i | _) hb hx j hj
    · obtain rfl : i = j := Option.some.inj hj
      have hlt : i < b.alternatives.length := by
        simpa [Block.branches] using hx
      exact Nat.lt_of_lt_of_le hlt (halternatives b (Array.mem_of_getElem? hb))
    · cases hj
  refine ⟨hmax, fun decision hdecision => ?_, fun a ha => ?_⟩
  · obtain ⟨id, b, hb, -, rfl⟩ := (d.mem_decisions_analyze h settings).1 hdecision
    refine ⟨hblock hb, (Grammar.decisionDepth_mem hpos id b).2.trans_lt hmax, ?_⟩
    intro entry hentry
    obtain ⟨x, hx, rfl⟩ := List.mem_map.1 hentry
    exact hbranch hb hx
  · obtain ⟨id, b, hb, -, x, y, hconflict, rfl⟩ := (d.mem_ambiguities_analyze h settings).1 ha
    refine ⟨hblock hb, hbranch hb hconflict.first_mem, hbranch hb hconflict.second_mem, hmax, ?_⟩
    exact ((d.linked_of_build h).size_shared_le id x y hpos).trans_lt hsequences

/-- Two names that look like a marker and like two tokens: `s : "<epsilon>" | "<epsilon>" "a b" ;` -/
def oddNames : Description where
  maxDepth := 1
  declarations :=
    [.rule
      { name := "s"
        entry := true
        alternatives := [[.token "<epsilon>"], [.token "<epsilon>", .token "a b"]] }]

theorem oddNames_build : oddNames.build .ascii = .ok oddNames.layout := rfl

/-- The alternatives share their first token, which is kept as evidence unless none is wanted. -/
theorem oddNames_exported :
    Unicode.ascii.PunctuationFree ∧ Library.basic.Standard ∧
      oddNames.build .ascii = .ok oddNames.layout ∧
      (∀ name ∈ oddNames.layout.vocabulary.names, '"' ∉ name.toList) ∧
      (∀ settings, (oddNames.layout.analyze .ascii settings).FitsWords oddNames.layout) ∧
      (oddNames.layout.analyze .ascii {}).Recoverable .ascii oddNames.layout .basic ∧
      (oddNames.layout.analyze .ascii {}).toText? .ascii oddNames.layout .basic ≠
        (oddNames.layout.analyze .ascii { maxEvidence := 0 }).toText? .ascii oddNames.layout
          .basic := by
  have hquotes : ∀ name ∈ oddNames.layout.vocabulary.names, '"' ∉ name.toList := by decide
  have hg := oddNames.linked_of_build oddNames_build
  have hfits : ∀ settings, (oddNames.layout.analyze .ascii settings).FitsWords oddNames.layout :=
    fun settings => Description.analyze_fitsWords oddNames_build settings (by decide) (by decide)
      (by decide)
  obtain ⟨hrecoverable, htexts⟩ := Description.analyze_exported Unicode.ascii_punctuationFree
    Library.basic_standard oddNames_build hquotes {} (hfits {})
  refine ⟨Unicode.ascii_punctuationFree, Library.basic_standard, oddNames_build, hquotes, hfits,
    hrecoverable, ?_⟩
  -- With no evidence wanted, no overlap holds the token.
  rw [Ne, htexts _ (hfits _)]
  intro hcontents
  have hambiguities : (oddNames.layout.analyze .ascii {}).ambiguities =
      (oddNames.layout.analyze .ascii { maxEvidence := 0 }).ambiguities :=
    congrArg ReportContents.ambiguities hcontents
  have hfirst : [⟨1⟩] ∈ (oddNames.layout.branchLookahead ⟨0⟩ 1 (.alternative 0)).complete :=
    (hg.mem_branchLookahead (Nat.le_refl 1) (n := ⟨1⟩) rfl).2
      (.lastToken rfl (List.mem_singleton_self _) (Or.inl rfl))
  have hsecond : [⟨1⟩] ∈ (oddNames.layout.branchLookahead ⟨0⟩ 1 (.alternative 1)).complete :=
    (hg.mem_branchLookahead (Nat.le_refl 1) (n := ⟨2⟩) rfl).2
      (.lastToken rfl (List.mem_singleton_self _) (Or.inl rfl))
  have hshared : [⟨1⟩] ∈ (oddNames.layout.shared ⟨0⟩ oddNames.layout.maxDepth (.alternative 0)
      (.alternative 1)).toList := Grammar.mem_shared.2 ⟨hfirst, hsecond⟩
  have hmem := (oddNames.mem_ambiguities_analyze oddNames_build {}).2
    ⟨⟨0⟩, _, rfl, rfl, .alternative 0, .alternative 1,
      ⟨by decide, by decide, by decide, ⟨_, hshared⟩, by decide⟩, rfl⟩
  rw [hambiguities, oddNames.mem_ambiguities_analyze oddNames_build] at hmem
  obtain ⟨id, b, -, -, x, y, -, heq⟩ := hmem
  have hnone : (oddNames.layout.shared ⟨0⟩ oddNames.layout.maxDepth (.alternative 0)
      (.alternative 1)).toList = [] := by
    simpa [Grammar.ambiguityOf, OrderedSet.take] using
      congrArg (fun a : Ambiguity => a.overlap.complete.toList) heq
  rw [hnone] at hshared
  cases hshared

end GrammarLookahead
