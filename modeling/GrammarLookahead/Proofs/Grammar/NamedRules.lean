import GrammarLookahead.Proofs.Grammar.Links

/-!
Rules by name. The first rule of a name in a description is the rule that calls of the name lead to
and that the graph has under the name.
-/

namespace GrammarLookahead

/-- The first rule of a name. -/
def Description.ruleNamed? (d : Description) (name : String) : Option RuleDescription :=
  d.rules.find? fun r => r.name = name

namespace Layout

variable {g : Grammar} {names : Names}

theorem find?_name (rs : List RuleDescription) (name : String) :
    rs.find? (fun r => r.name = name) = rs[(rs.map (·.name)).idxOf name]? := by
  induction rs with
  | nil => rfl
  | cons r rs ih =>
    by_cases h : r.name = name
    · simp [h]
    · simp [h, ih]

theorem findIdx?_name {elements : List Element} {name : String} {r : RuleDescription}
    (rs : List RuleDescription) (id : Nat) (start : Position)
    (h : rs.find? (fun r => r.name = name) = some r) :
    (ruleTable elements id start rs).findIdx? (fun r => r.name = name) =
      some ((rs.map (·.name)).idxOf name) := by
  induction rs generalizing id start with
  | nil => simp at h
  | cons r rs ih =>
    by_cases hr : r.name = name
    · simp [ruleTable, List.findIdx?_cons, hr]
    · rw [List.find?_cons_of_neg (by simpa using hr)] at h
      simp [ruleTable, List.findIdx?_cons, hr, ih (id + 1) (start.afterRule r) h]

end Layout

namespace Description

variable {ucd : Unicode} {d : Description} {name : String} {r : RuleDescription}

theorem ruleNamed?_eq (d : Description) (name : String) :
    d.ruleNamed? name = d.rules[(d.names.rule name).index]? :=
  Layout.find?_name d.rules name

/-- A rule of a description is in the graph under its name, with its contents in place. -/
theorem placed_ruleNamed (h : d.ruleNamed? name = some r) :
    d.layout.ruleNamed? name = some (d.names.rule name) ∧
      ∃ start rule, d.layout.rule? (d.names.rule name) = some rule ∧
        rule.block = ⟨start.block⟩ ∧
        Layout.Placed d.layout start (Layout.rule d.names (d.names.rule name) start r) := by
  have hindex := (d.ruleNamed?_eq name).symm.trans h
  constructor
  · have hfind := @Layout.findIdx?_name d.nodes.elements name r d.rules 0 ⟨0, 0⟩ h
    unfold Grammar.ruleNamed?
    rw [layout]
    simp only [List.findIdx?_toArray]
    exact congrArg (Option.map _) hfind
  · have hlt : (d.names.rule name).index <
        (Layout.ruleTable d.nodes.elements 0 ⟨0, 0⟩ d.rules).length := by
      rw [Layout.length_ruleTable]
      exact (List.getElem?_eq_some_iff.1 hindex).1
    have hrule := (d.rule?_layout (d.names.rule name)).trans (List.getElem?_eq_getElem hlt)
    obtain ⟨r', start, hr', heq, hplaced⟩ := d.placed_rule hrule
    obtain rfl : r = r' := Option.some.inj (hindex.symm.trans hr')
    exact ⟨start, _, hrule, by rw [heq], hplaced⟩

/-- A rule of the graph that calls of a name lead to is in the description under the name. -/
theorem exists_ruleNamed {rule : Rule} (h : d.layout.rule? (d.names.rule name) = some rule) :
    ∃ r, d.ruleNamed? name = some r := by
  obtain ⟨r, start, hr, -, -⟩ := d.placed_rule h
  exact ⟨r, (d.ruleNamed?_eq name).trans hr⟩

/-- Without a fault, names are all different. -/
theorem nodup_of_ruleNameFault {names earlier : List String}
    (h : ruleNameFault ucd earlier names = none) :
    names.Nodup ∧ ∀ name ∈ names, name ∉ earlier := by
  induction names generalizing earlier with
  | nil => simp
  | cons name names ih =>
    rw [ruleNameFault] at h
    split at h
    · simp at h
    · split at h
      · simp at h
      · rename_i hname
        obtain ⟨hnodup, hfresh⟩ := ih h
        refine ⟨List.nodup_cons.2 ⟨fun hmem => hfresh name hmem (by simp), hnodup⟩, ?_⟩
        intro n hn
        rcases List.mem_cons.1 hn with rfl | hn
        · exact hname
        · exact fun hmem => hfresh n hn (by simp [hmem])

/-- In a description that builds, a rule is the one of its name. -/
theorem ruleNamed?_of_mem {g : Grammar} (h : d.build ucd = .ok g) (hr : r ∈ d.rules) :
    d.ruleNamed? r.name = some r := by
  have hfault := (d.of_fault?_eq_none (d.build_eq_ok.1 h).1).2.1
  have hnodup := (nodup_of_ruleNameFault hfault).1
  obtain ⟨i, hi, rfl⟩ := List.mem_iff_getElem.1 hr
  have hlt : i < (d.rules.map (·.name)).length := by rwa [List.length_map]
  have hindex : (d.rules.map (·.name)).idxOf d.rules[i].name = i := by
    have hidx := hnodup.idxOf_getElem i hlt
    rwa [List.getElem_map] at hidx
  unfold ruleNamed?
  rw [Layout.find?_name, hindex, List.getElem?_eq_getElem hi]

/-- The rules of the graph have the names of the description. -/
theorem map_name_ruleTable (elements : List Element) (rs : List RuleDescription) (id : Nat)
    (start : Layout.Position) :
    (Layout.ruleTable elements id start rs).map (·.name) = rs.map (·.name) := by
  induction rs generalizing id start with
  | nil => rfl
  | cons r rs ih => exact congrArg (r.name :: ·) (ih (id + 1) (start.afterRule r))

/-- In a description that builds, calls of the name of a rule lead to the rule. -/
theorem names_rule_of_rule? {g : Grammar} (h : d.build ucd = .ok g) {id : RuleId} {rule : Rule}
    (hrule : g.rule? id = some rule) : d.names.rule rule.name = id := by
  obtain ⟨hfault, rfl⟩ := d.build_eq_ok.1 h
  have hnodup := (nodup_of_ruleNameFault (d.of_fault?_eq_none hfault).2.1).1
  rw [rule?_layout] at hrule
  have hname : (d.rules.map (·.name))[id.index]? = some rule.name := by
    rw [← map_name_ruleTable d.nodes.elements d.rules 0 ⟨0, 0⟩, List.getElem?_map, hrule,
      Option.map_some]
  obtain ⟨hlt, hget⟩ := List.getElem?_eq_some_iff.1 hname
  have hindex := hnodup.idxOf_getElem id.index hlt
  rw [hget] at hindex
  rw [Layout.Names.rule]
  exact congrArg Handle.mk hindex

theorem ruleNamed?_of_rule? {g : Grammar} (h : d.build ucd = .ok g) {id : RuleId} {rule : Rule}
    (hrule : g.rule? id = some rule) : g.ruleNamed? rule.name = some id := by
  have hid := names_rule_of_rule? h hrule
  obtain ⟨-, rfl⟩ := d.build_eq_ok.1 h
  rw [← hid] at hrule
  obtain ⟨r, hr⟩ := exists_ruleNamed hrule
  rw [← hid]
  exact (placed_ruleNamed hr).1

end Description

end GrammarLookahead
