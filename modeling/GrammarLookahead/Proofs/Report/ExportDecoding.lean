import GrammarLookahead.Proofs.Grammar.NamedRules
import GrammarLookahead.Proofs.Json.Standard
import GrammarLookahead.Proofs.LookaheadSet.Legibility
import GrammarLookahead.Report.Export

/-!
Reading exported reports. Given the grammar, a rule is known by its name, a branch by its number or
by the lack of one, and a lookahead set by its rendered members and the depth that is given beside
it; the left-recursive rules are those that are flagged. Nothing that is read depends on the order of
the members of objects. Main statements: `Report.About.ofValue?_toValue` and
`ReportContents.stable_ofValue?`.
-/

namespace GrammarLookahead

namespace Json.Value

variable {α β : Type}

def natural? : Value → Option Nat
  | .natural n => some n
  | _ => none

def bool? : Value → Option Bool
  | .bool b => some b
  | _ => none

def string? : Value → Option String
  | .string text => some text
  | _ => none

/-- A value that may be missing. -/
def optional? (read : Value → Option α) : Value → Option (Option α)
  | .null => some none
  | v => (read v).map some

def list? (read : Value → Option α) : Value → Option (List α)
  | .array items => items.mapM read
  | _ => none

/-- Reads the member of a name. -/
def field? (name : String) (read : Value → Option α) : Value → Option α
  | .object members => (members.lookup name).bind read
  | _ => none

variable {write : α → Value}

@[simp] theorem natural?_natural (n : Nat) : natural? (.natural n) = some n := rfl

@[simp] theorem bool?_bool (b : Bool) : bool? (.bool b) = some b := rfl

@[simp] theorem string?_string (s : String) : string? (.string s) = some s := rfl

@[simp] theorem optional?_string (x : Option String) :
    optional? string? (ofOption .string x) = some x := by
  cases x <;> rfl

theorem list?_ofList {read : Value → Option β} {g : α → β} {xs : List α}
    (h : ∀ a ∈ xs, read (write a) = some (g a)) : list? read (ofList write xs) = some (xs.map g) :=
  mapM_map_eq_some h

@[simp] theorem list?_string (xs : List String) : list? string? (ofList .string xs) = some xs :=
  (@list?_ofList _ _ Value.string string? id xs fun _ _ => rfl).trans
    (congrArg some (List.map_id xs))

@[simp] theorem field?_cons (name other : String) (read : Value → Option α) (v : Value)
    (members : List (String × Value)) :
    (Value.object ((other, v) :: members)).field? name read =
      if name = other then read v else (Value.object members).field? name read := by
  rw [field?, field?, List.lookup_cons]
  by_cases h : name = other
  · rw [if_pos h, beq_iff_eq.2 h, Option.bind_some]
  · rw [if_neg h, beq_eq_false_iff_ne.2 h]

/-- A reader that reads the same from the same document. -/
def Stable (read : Value → Option α) : Prop := ∀ ⦃v w : Value⦄, v.Same w → read v = read w

theorem stable_natural? : Stable natural? := fun _ _ h => by cases h <;> rfl

theorem stable_bool? : Stable bool? := fun _ _ h => by cases h <;> rfl

theorem stable_string? : Stable string? := fun _ _ h => by cases h <;> rfl

variable {read : Value → Option α}

theorem Stable.optional? (h : Stable read) : Stable (optional? read) := by
  intro v w hsame
  have hread := h hsame
  cases hsame <;> simp only [Value.optional?, hread]

theorem Stable.list? (h : Stable read) : Stable (list? read) := by
  intro v w hsame
  cases hsame with
  | @array items items' hlength hitems =>
    have hmap : items.map read = items'.map read := by
      refine List.ext_getElem (by simpa using hlength) fun i hi hi' => ?_
      rw [List.getElem_map, List.getElem_map]
      exact h (hitems i _ _ (List.getElem?_eq_getElem _) (List.getElem?_eq_getElem _))
    have hmapM : ∀ vs : List Value, vs.mapM read = (vs.map read).mapM id := fun vs =>
      (List.mapM_map (g := id)).symm
    rw [Value.list?, Value.list?, hmapM, hmapM items', hmap]
  | _ => rfl

theorem Stable.field? (h : Stable read) (name : String) : Stable (field? name read) := by
  intro v w hsame
  cases hsame with
  | @object members members' hnames hmembers =>
    have hname := hnames name
    rw [Value.field?, Value.field?]
    cases hv : members.lookup name with
    | none =>
      rw [hv, Option.isSome_none] at hname
      have hw : members'.lookup name = none :=
        Option.isNone_iff_eq_none.1 (Option.isSome_eq_false_iff.1 hname.symm)
      rw [hw]
    | some v =>
      rw [hv, Option.isSome_some] at hname
      obtain ⟨w, hw⟩ := Option.isSome_iff_exists.1 hname.symm
      rw [hw]
      exact h (hmembers name v w hv hw)
  | _ => rfl

end Json.Value

open Json (Value)

/-- A branch: its number, or null for the exit. -/
def Branch.ofValue? : Value → Option Branch
  | .null => some .exit
  | .natural index => some (.alternative index)
  | _ => none

@[simp] theorem Branch.ofValue?_branchValue (b : Branch) :
    Branch.ofValue? (Report.branchValue b) = some b := by
  cases b <;> rfl

theorem Branch.stable_ofValue? : Value.Stable Branch.ofValue? := fun _ _ h => by cases h <;> rfl

/-- The kind of an exported name. -/
def BlockKind.ofExportName? (name : String) : Option BlockKind :=
  [.rule, .nested .once, .nested .optional, .nested .zeroOrMore, .nested .oneOrMore].find?
    fun kind : BlockKind => kind.exportName = name

@[simp] theorem BlockKind.ofExportName?_exportName (kind : BlockKind) :
    BlockKind.ofExportName? kind.exportName = some kind := by
  rcases kind with _ | (_ | _ | _ | _) <;> decide

def Severity.ofName? (name : String) : Option Severity :=
  [.error, .warning].find? fun severity : Severity => severity.name = name

@[simp] theorem Severity.ofName?_name (severity : Severity) :
    Severity.ofName? severity.name = some severity := by
  cases severity <;> decide

/-- A diagnostic. Its block is not exported. -/
def Diagnostic.ofValue? (v : Value) : Option Diagnostic := do
  return {
    severity := ← (← v.field? "severity" Value.string?) |> Severity.ofName?
    code := ← v.field? "code" (Value.optional? Value.string?)
    message := ← v.field? "message" Value.string?
    rule := ← v.field? "rule" (Value.optional? Value.string?)
    notes := ← v.field? "notes" (Value.list? Value.string?) }

@[simp] theorem Diagnostic.ofValue?_diagnosticValue (d : Diagnostic) :
    Diagnostic.ofValue? (Report.diagnosticValue d) = some { d with block := none } := by
  simp [Diagnostic.ofValue?, Report.diagnosticValue]

theorem Diagnostic.stable_ofValue? : Value.Stable Diagnostic.ofValue? := by
  intro v w h
  have hstring : ∀ name, v.field? name Value.string? = w.field? name Value.string? :=
    fun name => Value.stable_string?.field? name h
  simp only [Diagnostic.ofValue?, hstring, Value.stable_string?.optional?.field? _ h,
    Value.stable_string?.list?.field? _ h]

/-- A set of a vocabulary that looks a number of tokens ahead. -/
structure LookaheadSet.Over (v : Vocabulary) (depth : Nat) (a : LookaheadSet) : Prop where
  depth_eq : a.depth = depth
  tokens : ∀ m ∈ a, ∀ t ∈ m.tokens, t ∈ v.tokens

section

variable (ucd : Unicode)

/-- A lookahead set, with the depth that is known from elsewhere. -/
def LookaheadSet.ofValue? (v : Vocabulary) (depth : Nat) (value : Value) : Option LookaheadSet :=
  (value.list? Value.string?).bind (LookaheadSet.ofRendered? ucd v depth)

/-- The lookahead of a branch of a decision that is made at a depth. -/
def BranchLookahead.ofValue? (v : Vocabulary) (depth : Nat) (value : Value) :
    Option BranchLookahead := do
  return {
    branch := ← value.field? "alternative" Branch.ofValue?
    lookahead := ← value.field? "lookahead" (LookaheadSet.ofValue? ucd v depth) }

def Decision.ofValue? (g : Grammar) (value : Value) : Option Decision := do
  let depth ← value.field? "depth" Value.natural?
  return {
    block := ⟨← value.field? "block" Value.natural?⟩
    rule := ← (← value.field? "rule" Value.string?) |> g.ruleNamed?
    kind := ← (← value.field? "kind" Value.string?) |> BlockKind.ofExportName?
    depth
    deterministic := ← value.field? "deterministic" Value.bool?
    branches := ← value.field? "branches"
      (Value.list? (BranchLookahead.ofValue? ucd g.vocabulary depth)) }

def Ambiguity.ofValue? (g : Grammar) (value : Value) : Option Ambiguity := do
  let depth ← value.field? "depth" Value.natural?
  return {
    block := ⟨← value.field? "block" Value.natural?⟩
    rule := ← (← value.field? "rule" Value.string?) |> g.ruleNamed?
    first := ← value.field? "first" Branch.ofValue?
    second := ← value.field? "second" Branch.ofValue?
    depth
    overlap := ← value.field? "overlap" (LookaheadSet.ofValue? ucd g.vocabulary depth)
    overlapSize := ← value.field? "overlap_size" Value.natural? }

theorem LookaheadSet.stable_ofValue? (v : Vocabulary) (depth : Nat) :
    Value.Stable (LookaheadSet.ofValue? ucd v depth) := by
  intro _ _ h
  rw [LookaheadSet.ofValue?, LookaheadSet.ofValue?, Value.stable_string?.list? h]

theorem BranchLookahead.stable_ofValue? (v : Vocabulary) (depth : Nat) :
    Value.Stable (BranchLookahead.ofValue? ucd v depth) := by
  intro _ _ h
  simp only [BranchLookahead.ofValue?, Branch.stable_ofValue?.field? _ h,
    (LookaheadSet.stable_ofValue? ucd v depth).field? _ h]

theorem Decision.stable_ofValue? (g : Grammar) : Value.Stable (Decision.ofValue? ucd g) := by
  intro _ _ h
  have hbranches := fun depth => (BranchLookahead.stable_ofValue? ucd g.vocabulary depth).list?
  simp only [Decision.ofValue?, Value.stable_natural?.field? _ h, Value.stable_string?.field? _ h,
    Value.stable_bool?.field? _ h, (hbranches _).field? _ h]

theorem Ambiguity.stable_ofValue? (g : Grammar) : Value.Stable (Ambiguity.ofValue? ucd g) := by
  intro _ _ h
  simp only [Ambiguity.ofValue?, Value.stable_natural?.field? _ h, Value.stable_string?.field? _ h,
    Branch.stable_ofValue?.field? _ h, (LookaheadSet.stable_ofValue? ucd _ _).field? _ h]

end

/-- A rule that is known by its name. -/
def Grammar.NamesRule (g : Grammar) (id : RuleId) : Prop := g.ruleNamed? (g.ruleName id) = some id

section

variable {ucd : Unicode} {g : Grammar} {depth : Nat} (hfree : ucd.PunctuationFree)
  (hquotes : ∀ name ∈ g.vocabulary.names, '"' ∉ name.toList)
include hfree hquotes

theorem LookaheadSet.Over.ofValue? {a : LookaheadSet} (h : a.Over g.vocabulary depth) :
    LookaheadSet.ofValue? ucd g.vocabulary depth (Report.lookaheadValue ucd g a) = some a := by
  rw [LookaheadSet.ofValue?, Report.lookaheadValue, Value.list?_string, Option.bind_some,
    ← h.depth_eq]
  exact LookaheadSet.ofRendered?_render hfree hquotes h.tokens

/-- A decision is read as it is, if its rule and its tokens are those of the grammar. -/
theorem Decision.ofValue?_decisionValue {d : Decision} (hrule : g.NamesRule d.rule)
    (hbranches : ∀ b ∈ d.branches, b.lookahead.Over g.vocabulary d.depth) :
    Decision.ofValue? ucd g (Report.decisionValue ucd g d) = some d := by
  have hread : ∀ b ∈ d.branches, BranchLookahead.ofValue? ucd g.vocabulary d.depth
      (.object [("alternative", Report.branchValue b.branch),
        ("lookahead", Report.lookaheadValue ucd g b.lookahead)]) = some b := fun b hb => by
    simp [BranchLookahead.ofValue?, (hbranches b hb).ofValue? hfree hquotes]
  have hlist := Value.list?_ofList (g := id) hread
  unfold Grammar.NamesRule at hrule
  simp [Decision.ofValue?, Report.decisionValue, hrule, hlist]

theorem Ambiguity.ofValue?_ambiguityValue {a : Ambiguity} (hrule : g.NamesRule a.rule)
    (hoverlap : a.overlap.Over g.vocabulary a.depth) :
    Ambiguity.ofValue? ucd g (Report.ambiguityValue ucd g a) = some a := by
  unfold Grammar.NamesRule at hrule
  simp [Ambiguity.ofValue?, Report.ambiguityValue, hrule, hoverlap.ofValue? hfree hquotes]

end

/-- What a parser generator needs of a report: everything but the work that it took and the blocks
that diagnostics are about. -/
structure ReportContents where
  decisions : List Decision
  ambiguities : List Ambiguity
  leftRecursive : List RuleId
  diagnostics : Diagnostics
  deriving DecidableEq, Repr

def Report.contents (r : Report) : ReportContents where
  decisions := r.decisions
  ambiguities := r.ambiguities
  leftRecursive := r.leftRecursive
  diagnostics := r.diagnostics.map fun d => { d with block := none }

/-- The rules that are flagged, given one flag for each rule. -/
def Grammar.flaggedRules (g : Grammar) (flags : List Bool) : List RuleId :=
  (g.ruleIds.zip flags).filterMap fun (id, flag) => if flag then some id else none

/-- The contents of an exported report on a grammar. -/
def ReportContents.ofValue? (ucd : Unicode) (g : Grammar) (value : Value) :
    Option ReportContents := do
  let flags ← value.field? "rules" (Value.list? (Value.field? "left_recursive" Value.bool?))
  return {
    decisions := ← value.field? "decisions" (Value.list? (Decision.ofValue? ucd g))
    ambiguities := ← value.field? "ambiguities" (Value.list? (Ambiguity.ofValue? ucd g))
    leftRecursive := g.flaggedRules flags
    diagnostics := ← value.field? "diagnostics" (Value.list? Diagnostic.ofValue?) }

theorem ReportContents.stable_ofValue? (ucd : Unicode) (g : Grammar) :
    Value.Stable (ReportContents.ofValue? ucd g) := by
  intro _ _ h
  have hflags := (Value.stable_bool?.field? "left_recursive").list?
  simp only [ReportContents.ofValue?, hflags.field? _ h,
    (Decision.stable_ofValue? ucd g).list?.field? _ h,
    (Ambiguity.stable_ofValue? ucd g).list?.field? _ h,
    Diagnostic.stable_ofValue?.list?.field? _ h]

variable {ucd : Unicode} {g : Grammar} {r : Report}

/-- A report whose findings are about the rules and tokens of a grammar. -/
structure Report.About (g : Grammar) (r : Report) : Prop where
  decisions : ∀ d ∈ r.decisions,
    g.NamesRule d.rule ∧ ∀ b ∈ d.branches, b.lookahead.Over g.vocabulary d.depth
  ambiguities : ∀ a ∈ r.ambiguities, g.NamesRule a.rule ∧ a.overlap.Over g.vocabulary a.depth
  leftRecursive : ∀ id ∈ r.leftRecursive, id ∈ g.ruleIds
  ascending : r.leftRecursive.Pairwise (· < ·)

theorem Grammar.ruleIds_ascending (g : Grammar) : g.ruleIds.Pairwise (· < ·) := by
  rw [ruleIds, List.pairwise_map]
  exact List.pairwise_lt_range

theorem Grammar.flaggedRules_map (g : Grammar) (p : RuleId → Bool) :
    g.flaggedRules (g.ruleIds.map p) = g.ruleIds.filter p := by
  have hall : ∀ ids : List RuleId, ((ids.zip (ids.map p)).filterMap fun (id, flag) =>
      if flag then some id else none) = ids.filter p := by
    intro ids
    induction ids with
    | nil => rfl
    | cons id ids ih =>
      rw [List.map_cons, List.zip_cons_cons, List.filterMap_cons, ih, List.filter_cons]
      cases p id <;> rfl
  exact hall g.ruleIds

/-- The flags tell which rules are listed, and the rules are listed in ascending order. -/
theorem Report.About.flaggedRules (h : r.About g) :
    g.flaggedRules (g.ruleIds.map r.leftRecursive.contains) = r.leftRecursive := by
  have hsets : (⟨g.ruleIds.filter r.leftRecursive.contains,
      g.ruleIds_ascending.sublist List.filter_sublist⟩ : OrderedSet RuleId) =
      ⟨r.leftRecursive, h.ascending⟩ := by
    refine OrderedSet.ext fun id => ?_
    simp only [← OrderedSet.mem_toList, List.mem_filter, List.contains_iff_mem]
    exact and_iff_right_of_imp (h.leftRecursive id)
  rw [Grammar.flaggedRules_map]
  exact congrArg OrderedSet.toList hsets

/-- The contents of a report are read from its document. -/
theorem Report.About.ofValue?_toValue (h : r.About g) (hfree : ucd.PunctuationFree)
    (hquotes : ∀ name ∈ g.vocabulary.names, '"' ∉ name.toList) :
    ReportContents.ofValue? ucd g (r.toValue ucd g) = some r.contents := by
  have hdecisions : (Value.ofList (decisionValue ucd g) r.decisions).list?
      (Decision.ofValue? ucd g) = some (r.decisions.map id) := Value.list?_ofList fun d hd =>
    Decision.ofValue?_decisionValue hfree hquotes (h.decisions d hd).1 (h.decisions d hd).2
  have hambiguities : (Value.ofList (ambiguityValue ucd g) r.ambiguities).list?
      (Ambiguity.ofValue? ucd g) = some (r.ambiguities.map id) := Value.list?_ofList fun a ha =>
    Ambiguity.ofValue?_ambiguityValue hfree hquotes (h.ambiguities a ha).1 (h.ambiguities a ha).2
  have hdiagnostics : (Value.ofList diagnosticValue r.diagnostics).list? Diagnostic.ofValue? =
      some (r.diagnostics.map fun d => { d with block := none }) :=
    Value.list?_ofList fun d _ => Diagnostic.ofValue?_diagnosticValue d
  have hflags : (Value.array (g.rules.toList.zipIdx.map fun x =>
      ruleValue r.leftRecursive ⟨x.2⟩ x.1)).list? (Value.field? "left_recursive" Value.bool?) =
        some (g.ruleIds.map r.leftRecursive.contains) := by
    have hids : g.ruleIds = g.rules.toList.zipIdx.map fun x => ⟨x.2⟩ := by
      rw [Grammar.ruleIds, ← Array.length_toList, List.range_eq_range', ← List.zipIdx_map_snd 0,
        List.map_map]
      rfl
    rw [hids, List.map_map]
    exact mapM_map_eq_some fun x _ => by simp [ruleValue]
  simp [ReportContents.ofValue?, Report.toValue, hdecisions, hambiguities, hdiagnostics, hflags,
    h.flaggedRules, Report.contents]

end GrammarLookahead
