import GrammarLookahead.Proofs.Grammar.Listing
import GrammarLookahead.Proofs.Grammar.WellLinked

/-!
Which descriptions are grammars, and which fault is reported of one that is not. The depth is
checked first, then the names of the rules, then the calls, then the rules and at last the nested
blocks, each in the order of the text. Main statement: `Description.build_reports`.
-/

namespace GrammarLookahead

variable {α β : Type}

/-- The first member that a check does not pass. -/
theorem findSome?_check {p : α → Prop} [DecidablePred p] {fault : α → β} {l : List α} {y : β} :
    (l.findSome? fun x => if p x then none else some (fault x)) = some y ↔
      ∃ before x after, l = before ++ x :: after ∧ (∀ b ∈ before, p b) ∧ ¬ p x ∧ fault x = y := by
  rw [List.findSome?_eq_some_iff]
  constructor
  · rintro ⟨before, x, after, rfl, hx, hbefore⟩
    rw [Option.ite_none_left_eq_some, Option.some.injEq] at hx
    exact ⟨before, x, after, rfl, fun b hb => by simpa using hbefore b hb, hx⟩
  · rintro ⟨before, x, after, rfl, hbefore, hx, rfl⟩
    exact ⟨before, x, after, rfl, if_neg hx, fun b hb => if_pos (hbefore b hb)⟩

theorem findSome?_check_eq_none {p : α → Prop} [DecidablePred p] {fault : α → β} {l : List α} :
    (l.findSome? fun x => if p x then none else some (fault x)) = none ↔ ∀ x ∈ l, p x := by
  simp

/-- A check that looks at a part of each member only, and passes members without the part. -/
theorem findSome?_filterMap {γ : Type} {part : α → Option γ} {check : α → Option β}
    {checkPart : γ → Option β} {l : List α} (h : ∀ x ∈ l, check x = (part x).bind checkPart) :
    l.findSome? check = (l.filterMap part).findSome? checkPart := by
  induction l with
  | nil => rfl
  | cons x l ih =>
    obtain ⟨hx, hl⟩ := List.forall_mem_cons.1 h
    rw [List.findSome?_cons, hx, ih hl]
    cases hpart : part x with
    | none => rw [List.filterMap_cons_none hpart, Option.bind_none]
    | some y => rw [List.filterMap_cons_some hpart, List.findSome?_cons, Option.bind_some]

/-- Names of rules: all are identifiers, and no two are the same. -/
structure NamesSound (ucd : Unicode) (names : List String) : Prop where
  identifier : ∀ name ∈ names, ucd.isIdentifier name = true
  nodup : names.Nodup

instance (ucd : Unicode) (names : List String) : Decidable (NamesSound ucd names) :=
  decidable_of_iff ((∀ name ∈ names, ucd.isIdentifier name = true) ∧ names.Nodup)
    ⟨fun h => ⟨h.1, h.2⟩, fun h => ⟨h.1, h.2⟩⟩

namespace Description

variable (ucd : Unicode) (d : Description)

def ruleNames : List String := d.rules.map (·.name)

def DepthSound : Prop := 1 ≤ d.maxDepth ∧ d.maxDepth ≤ 255

/-- Every call is of a rule that is defined. -/
def CallsSound : Prop := ∀ c ∈ d.calls, c.callee ∈ d.ruleNames

def RulesSound : Prop := ∀ r ∈ d.rules, r.alternatives ≠ []

def BlocksSound : Prop := ∀ b ∈ d.nestedBlocks, b.branches ≠ 0

instance : Decidable d.DepthSound := inferInstanceAs (Decidable (_ ∧ _))

instance : Decidable d.CallsSound :=
  inferInstanceAs (Decidable (∀ c ∈ d.calls, c.callee ∈ d.ruleNames))

instance : Decidable d.RulesSound :=
  inferInstanceAs (Decidable (∀ r ∈ d.rules, r.alternatives ≠ []))

/-- A description that is a grammar. -/
structure Valid : Prop where
  depth : d.DepthSound
  names : NamesSound ucd d.ruleNames
  calls : d.CallsSound
  rules : d.RulesSound
  blocks : d.BlocksSound

/-- The first fault of a description. -/
inductive FirstFault : GrammarFault → Prop where
  | depth (h : ¬ d.DepthSound) : FirstFault (.invalidMaxDepth d.maxDepth)
  | ruleName {before after : List String} {name : String} (hdepth : d.DepthSound)
      (hnames : d.ruleNames = before ++ name :: after) (hbefore : NamesSound ucd before)
      (h : ucd.isIdentifier name = false) : FirstFault (.invalidRuleName name)
  | duplicate {before after : List String} {name : String} (hdepth : d.DepthSound)
      (hnames : d.ruleNames = before ++ name :: after) (hbefore : NamesSound ucd before)
      (hname : ucd.isIdentifier name = true) (h : name ∈ before) : FirstFault (.duplicateRule name)
  | unresolved {before after : List Call} {c : Call} (hdepth : d.DepthSound)
      (hnames : NamesSound ucd d.ruleNames) (hcalls : d.calls = before ++ c :: after)
      (hbefore : ∀ c ∈ before, c.callee ∈ d.ruleNames) (h : c.callee ∉ d.ruleNames) :
      FirstFault (.unresolvedRule c.callee c.caller)
  | emptyRule {before after : List RuleDescription} {r : RuleDescription} (hdepth : d.DepthSound)
      (hnames : NamesSound ucd d.ruleNames) (hcalls : d.CallsSound)
      (hrules : d.rules = before ++ r :: after) (hbefore : ∀ r ∈ before, r.alternatives ≠ [])
      (h : r.alternatives = []) : FirstFault (.emptyRule r.name)
  | emptyBlock {before after : List NestedBlock} {b : NestedBlock} (hdepth : d.DepthSound)
      (hnames : NamesSound ucd d.ruleNames) (hcalls : d.CallsSound) (hrules : d.RulesSound)
      (hblocks : d.nestedBlocks = before ++ b :: after) (hbefore : ∀ b ∈ before, b.branches ≠ 0)
      (h : b.branches = 0) : FirstFault (.deadEnd b.rule b.alternative .emptyBlock)

end Description

/-- Sound names, none of which is among earlier ones. -/
def SoundAfter (ucd : Unicode) (earlier names : List String) : Prop :=
  NamesSound ucd names ∧ ∀ name ∈ names, name ∉ earlier

variable {ucd : Unicode} {earlier names : List String} {name : String}

theorem soundAfter_nil : SoundAfter ucd earlier [] :=
  ⟨⟨fun _ h => absurd h List.not_mem_nil, List.nodup_nil⟩, fun _ h => absurd h List.not_mem_nil⟩

theorem soundAfter_cons : SoundAfter ucd earlier (name :: names) ↔
    ucd.isIdentifier name = true ∧ name ∉ earlier ∧ SoundAfter ucd (name :: earlier) names := by
  constructor
  · rintro ⟨⟨hid, hnodup⟩, hfresh⟩
    obtain ⟨hname, hnames⟩ := List.forall_mem_cons.1 hid
    obtain ⟨hnot, hnodup⟩ := List.nodup_cons.1 hnodup
    obtain ⟨hearlier, hfresh⟩ := List.forall_mem_cons.1 hfresh
    refine ⟨hname, hearlier, ⟨hnames, hnodup⟩, fun n hn hmem => ?_⟩
    rcases List.mem_cons.1 hmem with rfl | hmem
    · exact hnot hn
    · exact hfresh n hn hmem
  · rintro ⟨hname, hearlier, ⟨hnames, hnodup⟩, hfresh⟩
    refine ⟨⟨List.forall_mem_cons.2 ⟨hname, hnames⟩, List.nodup_cons.2 ⟨fun hn => ?_, hnodup⟩⟩,
      List.forall_mem_cons.2 ⟨hearlier, fun n hn hmem => ?_⟩⟩
    · exact hfresh name hn List.mem_cons_self
    · exact hfresh n hn (List.mem_cons_of_mem _ hmem)

theorem soundAfter_nil_left : SoundAfter ucd [] names ↔ NamesSound ucd names :=
  and_iff_left fun _ _ => List.not_mem_nil

theorem ruleNameFault_eq_none :
    ruleNameFault ucd earlier names = none ↔ SoundAfter ucd earlier names := by
  induction names generalizing earlier with
  | nil => exact iff_of_true rfl soundAfter_nil
  | cons name names ih =>
    rw [ruleNameFault, soundAfter_cons, ← ih]
    by_cases hid : ucd.isIdentifier name = true <;> by_cases hmem : name ∈ earlier <;>
      simp [hid, hmem]

/-- The first name that is no identifier or not new is reported. -/
theorem ruleNameFault_eq_some {f : GrammarFault} : ruleNameFault ucd earlier names = some f ↔
    ∃ before name after, names = before ++ name :: after ∧ SoundAfter ucd earlier before ∧
      (ucd.isIdentifier name = false ∧ f = .invalidRuleName name ∨
        ucd.isIdentifier name = true ∧ (name ∈ before ∨ name ∈ earlier) ∧
          f = .duplicateRule name) := by
  induction names generalizing earlier with
  | nil =>
    refine iff_of_false nofun ?_
    rintro ⟨before, name, after, h, -⟩
    simp at h
  | cons name names ih =>
    -- Names before the fault are names that are met earlier.
    have hearlier : ∀ (first name' : String) (before : List String),
        (name' ∈ first :: before ∨ name' ∈ earlier) ↔ (name' ∈ before ∨ name' ∈ first :: earlier) :=
      fun first name' before => by simp only [List.mem_cons, or_assoc, or_left_comm]
    rw [ruleNameFault]
    constructor
    · intro h
      split at h
      · rename_i hid
        refine ⟨[], name, names, rfl, soundAfter_nil, Or.inl ⟨by simpa using hid, ?_⟩⟩
        exact (Option.some.inj h).symm
      · rename_i hid
        split at h
        · rename_i hmem
          exact ⟨[], name, names, rfl, soundAfter_nil,
            Or.inr ⟨by simpa using hid, Or.inr hmem, (Option.some.inj h).symm⟩⟩
        · rename_i hmem
          obtain ⟨before, name', after, rfl, hbefore, hf⟩ := ih.1 h
          refine ⟨name :: before, name', after, rfl,
            soundAfter_cons.2 ⟨by simpa using hid, hmem, hbefore⟩, ?_⟩
          rwa [hearlier]
    · rintro ⟨before, name', after, heq, hbefore, hf⟩
      cases before with
      | nil =>
        obtain ⟨rfl, rfl⟩ := List.cons.inj heq
        rcases hf with ⟨hid, rfl⟩ | ⟨hid, hin, rfl⟩
        · simp [hid]
        · simp [hid, hin.resolve_left List.not_mem_nil]
      | cons first before =>
        obtain ⟨rfl, rfl⟩ := List.cons.inj heq
        obtain ⟨hid, hmem, hbefore⟩ := soundAfter_cons.1 hbefore
        rw [if_neg (by simp [hid]), if_neg hmem]
        rw [hearlier] at hf
        exact ih.2 ⟨before, name', after, rfl, hbefore, hf⟩

namespace Description

open Layout

variable (d : Description)

/-- A name leads to a rule of the graph if and only if a rule has the name. -/
theorem isSome_rule?_names (name : String) :
    (d.layout.rule? (d.names.rule name)).isSome = true ↔ name ∈ d.ruleNames := by
  rw [rule?_layout, isSome_getElem?, length_ruleTable, ← List.idxOf_lt_length_iff, ruleNames,
    List.length_map]
  rfl

theorem unresolvedReference_layout : d.layout.unresolvedReference = d.calls.findSome? fun c =>
    if c.callee ∈ d.ruleNames then none else some (.unresolvedRule c.callee c.caller) := by
  rw [← calls_layout]
  refine findSome?_filterMap fun e he => ?_
  obtain ⟨id, hid⟩ := Grammar.element?_of_mem (Array.mem_toList_iff.1 he)
  unfold Grammar.call?
  cases hk : e.kind with
  | reference name target =>
    obtain rfl := target_of_reference hid hk
    simp only [isSome_rule?_names, Option.bind_some]
  | _ => rfl

theorem emptyRule_layout : d.layout.emptyRule = d.rules.findSome? fun r =>
    if r.alternatives ≠ [] then none else some (.emptyRule r.name) := by
  refine rules_induction (motive := fun id start rs =>
    (ruleTable d.nodes.elements id start rs).findSome? _ = rs.findSome? _)
    (fun _ _ => rfl) fun id start r rs hr hrule hplaced hrest => ?_
  rw [ruleTable, List.findSome?_cons, List.findSome?_cons, hrest, hplaced.of_rule.2.1]
  cases r.alternatives <;> rfl

theorem sequenceFault_layout {id : BlockId} {b : Block} (hb : d.layout.block? id = some b) :
    d.layout.sequenceFault id b = none := by
  rw [Grammar.sequenceFault, List.findSome?_eq_none_iff]
  rintro ⟨a, i⟩ ha
  exact congrArg (Option.map _) (walk_eq_none hb a (List.fst_mem_of_mem_zipIdx ha))

theorem blockFault_layout : (d.layout.blocks.toList.zipIdx.findSome? fun (b, i) =>
      d.layout.blockFault ⟨i⟩ b) = d.nestedBlocks.findSome? fun b =>
    if b.branches ≠ 0 then none else some (.deadEnd b.rule b.alternative .emptyBlock) := by
  rw [← nestedBlocks_layout]
  refine findSome?_filterMap fun ⟨b, i⟩ hb => ?_
  have hb : d.layout.block? ⟨i⟩ = some b := by
    rw [List.mk_mem_zipIdx_iff_getElem?, Array.getElem?_toList] at hb
    exact hb
  show d.layout.blockFault ⟨i⟩ b = (d.layout.nestedBlock? ⟨i⟩ b).bind _
  unfold Grammar.blockFault Grammar.nestedBlock?
  rw [sequenceFault_layout d hb]
  by_cases hkind : b.kind = .rule
  · simp [hkind]
  · cases halternatives : b.alternatives with
    | nil => simp [hkind]
    | cons a rest => simp [hkind]

theorem depth_fault_iff : d.maxDepth = 0 ∨ maxSupportedDepth < d.maxDepth ↔ ¬ d.DepthSound := by
  unfold DepthSound maxSupportedDepth
  omega

theorem fault?_eq_some {f : GrammarFault} : d.fault? ucd = some f ↔ d.FirstFault ucd f := by
  rw [fault?]
  by_cases hdepth : d.DepthSound
  · rw [if_neg (by rwa [depth_fault_iff, not_not]), Option.or_eq_some_iff, Option.or_eq_some_iff,
      Grammar.fault?, Option.or_eq_some_iff, blockFault_layout, emptyRule_layout,
      unresolvedReference_layout, findSome?_check, findSome?_check, findSome?_check,
      findSome?_check_eq_none, findSome?_check_eq_none, ruleNameFault_eq_some,
      ruleNameFault_eq_none, soundAfter_nil_left]
    constructor
    · rintro (⟨before, name, after, hnames, hbefore, ⟨hid, rfl⟩ | ⟨hid, hmem, rfl⟩⟩ |
        ⟨hnames, ⟨before, c, after, hcalls, hbefore, hc, rfl⟩ |
        ⟨hcalls, ⟨before, r, after, hrules, hbefore, hr, rfl⟩ |
        ⟨hrules, before, b, after, hblocks, hbefore, hb, rfl⟩⟩⟩)
      · exact .ruleName hdepth hnames hbefore.1 hid
      · exact .duplicate hdepth hnames hbefore.1 hid (hmem.resolve_right List.not_mem_nil)
      · exact .unresolved hdepth hnames hcalls hbefore hc
      · exact .emptyRule hdepth hnames hcalls hrules hbefore (not_not.1 hr)
      · exact .emptyBlock hdepth hnames hcalls hrules hblocks hbefore (not_not.1 hb)
    · intro h
      cases h with
      | depth h => exact absurd hdepth h
      | @ruleName before after name _ hnames hbefore hid =>
        exact Or.inl ⟨before, name, after, hnames, soundAfter_nil_left.2 hbefore, Or.inl ⟨hid, rfl⟩⟩
      | @duplicate before after name _ hnames hbefore hid hmem =>
        exact Or.inl ⟨before, name, after, hnames, soundAfter_nil_left.2 hbefore,
          Or.inr ⟨hid, Or.inl hmem, rfl⟩⟩
      | @unresolved before after c _ hnames hcalls hbefore hc =>
        exact Or.inr ⟨hnames, Or.inl ⟨before, c, after, hcalls, hbefore, hc, rfl⟩⟩
      | @emptyRule before after r _ hnames hcalls hrules hbefore hr =>
        exact Or.inr ⟨hnames, Or.inr ⟨hcalls,
          Or.inl ⟨before, r, after, hrules, hbefore, not_not.2 hr, rfl⟩⟩⟩
      | @emptyBlock before after b _ hnames hcalls hrules hblocks hbefore hb =>
        exact Or.inr ⟨hnames, Or.inr ⟨hcalls, Or.inr ⟨hrules,
          before, b, after, hblocks, hbefore, not_not.2 hb, rfl⟩⟩⟩
  · rw [if_pos (d.depth_fault_iff.2 hdepth), Option.some.injEq]
    constructor
    · rintro rfl
      exact .depth hdepth
    · intro h
      cases h with
      | depth => rfl
      | _ => exact absurd ‹d.DepthSound› hdepth

theorem fault?_eq_none : d.fault? ucd = none ↔ d.Valid ucd := by
  rw [fault?]
  by_cases hdepth : d.DepthSound
  · rw [if_neg (by rwa [depth_fault_iff, not_not]), Option.or_eq_none_iff, Option.or_eq_none_iff,
      Grammar.fault?, Option.or_eq_none_iff, blockFault_layout, emptyRule_layout,
      unresolvedReference_layout, findSome?_check_eq_none, findSome?_check_eq_none,
      findSome?_check_eq_none, ruleNameFault_eq_none, soundAfter_nil_left]
    constructor
    · rintro ⟨hnames, hcalls, hrules, hblocks⟩
      exact ⟨hdepth, hnames, hcalls, hrules, hblocks⟩
    · exact fun h => ⟨h.names, h.calls, h.rules, h.blocks⟩
  · rw [if_pos (d.depth_fault_iff.2 hdepth)]
    exact iff_of_false (Option.some_ne_none _) fun h => hdepth h.depth

/-- A description is built if and only if it is valid, and otherwise its first fault is reported.
The calls are found in the order of the elements of the graph, and the nested blocks in the order of
their numbers. Following any alternative of the graph ends at the terminator of its block, so the
only dead ends are nested blocks without alternatives. -/
theorem build_reports (d : Description) :
    (∀ g, d.build ucd = .ok g ↔ d.Valid ucd ∧ g = d.layout) ∧
      (∀ f, d.build ucd = .error f ↔ d.FirstFault ucd f) ∧
      d.layout.calls = d.calls ∧ d.layout.nestedBlocks = d.nestedBlocks ∧
      ∀ id b, d.layout.block? id = some b → ∀ a ∈ b.alternatives,
        d.layout.walk id b.terminator d.layout.elements.size a.first = none := by
  refine ⟨fun g => ?_, fun f => ?_, d.calls_layout, d.nestedBlocks_layout,
    fun id b hb => walk_eq_none hb⟩
  · rw [build_eq_ok, fault?_eq_none, eq_comm]
  · rw [← fault?_eq_some, build]
    cases d.fault? ucd <;> simp

end Description

/-- A rule that calls one behind it, with a choice from nothing: `s : t | ( "a" | () )? ; t : ;`. -/
def emptyChoice : Description where
  maxDepth := 1
  declarations :=
    [.rule { name := "s", entry := true, alternatives :=
        [[.call "t"], [.block .optional none [[.token "a"], [.block .once none []]]]] },
      .rule { name := "t", alternatives := [[]] }]

theorem emptyChoice_reports :
    emptyChoice.build .ascii = .error (.deadEnd "s" 1 .emptyBlock) ∧ ¬ emptyChoice.Valid .ascii ∧
      ∃ b, emptyChoice.layout.block? ⟨1⟩ = some b ∧ ∀ a ∈ b.alternatives,
        emptyChoice.layout.walk ⟨1⟩ b.terminator emptyChoice.layout.elements.size a.first = none := by
  obtain ⟨hok, herror, -, -, hwalk⟩ := @Description.build_reports .ascii emptyChoice
  have hfault := (herror _).2 (@Description.FirstFault.emptyBlock _ _ [⟨"s", 1, 2⟩] [] ⟨"s", 1, 0⟩
    (by decide) (by decide +kernel) (by decide) (by decide) rfl (by decide) rfl)
  refine ⟨hfault, fun hvalid => ?_, _, rfl, hwalk ⟨1⟩ _ rfl⟩
  rw [(hok _).2 ⟨hvalid, rfl⟩] at hfault
  cases hfault

end GrammarLookahead
