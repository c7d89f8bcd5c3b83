import GrammarLookahead.Proofs.Json.Unambiguity

/-!
A library that keeps to the standard. It prints one item on a line, indented by two blanks for each
level, escapes nothing but quotes, backslashes and control characters, and keeps the members of
objects in the order of their names. Main statement: `Library.basic_standard`.
-/

namespace GrammarLookahead.Json

/-- A character as it stands in a string. -/
def escapeChar (c : Char) : List Char :=
  match c with
  | '"' => ['\\', '"']
  | '\\' => ['\\', '\\']
  | '\x08' => ['\\', 'b']
  | '\t' => ['\\', 't']
  | '\n' => ['\\', 'n']
  | '\x0c' => ['\\', 'f']
  | '\r' => ['\\', 'r']
  | c =>
    if c.toNat < 0x20 then
      ['\\', 'u', '0', '0', Nat.digitChar (c.toNat / 16), Nat.digitChar (c.toNat % 16)]
    else [c]

def quote (text : String) : List Char := '"' :: text.toList.flatMap escapeChar ++ ['"']

/-- The end of a line, with what stands before an item that is nested to a depth. -/
def lineBreak (depth : Nat) : List Char := '\n' :: List.replicate (2 * depth) ' '

/-- Items between brackets that are nested to a depth. -/
def enclose (left right : Char) (depth : Nat) (items : List (List Char)) : List Char :=
  if items = [] then [left, right]
  else
    left :: lineBreak (depth + 1) ++ (',' :: lineBreak (depth + 1)).intercalate items ++
      lineBreak depth ++ [right]

namespace Value

/-- A document that is nested to a depth, as text. -/
def indented (depth : Nat) : Value → List Char
  | .null => "null".toList
  | .bool b => (toString b).toList
  | .natural n => Nat.toDigits 10 n
  | .number literal => literal.toList
  | .string text => quote text
  | .array items => enclose '[' ']' depth (items.map (indented (depth + 1)))
  | .object members =>
    enclose '\x7b' '\x7d' depth
      (members.map fun m => quote m.1 ++ [':', ' '] ++ m.2.indented (depth + 1))
termination_by v => v
decreasing_by
  · simpa using Nat.lt_add_left 1 (List.sizeOf_lt_of_mem ‹_›)
  · simpa using Nat.lt_add_left 1 (sizeOf_lt_of_mem ‹_›)

/-- A document with the members of objects in the order of their names. -/
def sorted : Value → Value
  | .array items => .array (items.map sorted)
  | .object members =>
    .object ((members.map fun m => (m.1, m.2.sorted)).mergeSort fun m n => m.1 ≤ n.1)
  | .null => .null
  | .bool b => .bool b
  | .natural n => .natural n
  | .number literal => .number literal
  | .string text => .string text
termination_by v => v
decreasing_by
  · simpa using Nat.lt_add_left 1 (List.sizeOf_lt_of_mem ‹_›)
  · simpa using Nat.lt_add_left 1 (sizeOf_lt_of_mem ‹_›)

end Value

def Library.basic : Library where
  pretty? v := some (String.ofList (v.indented 0))
  document? v := some v.sorted
  parse? text := (read? text).map Value.sorted

theorem spellsChar_escapeChar (c : Char) : SpellsChar c (escapeChar c) := by
  unfold escapeChar
  split
  case h_8 hquote hbackslash _ _ _ _ _ =>
    split
    · rename_i hcontrol
      have hzero : ∀ n, n % 16 = 0 → '0' ∈ hexDigits (n % 16) := by
        intro n hn
        rw [hn]
        decide
      refine .unit (by omega) ⟨'0', hzero _ (by omega), '0', hzero _ (by omega), _, ?_, _, ?_, rfl⟩
      · rw [Nat.mod_eq_of_lt (by omega)]
        exact List.mem_cons_self
      · exact List.mem_cons_self
    · rename_i hcontrol
      exact .plain (Nat.not_lt.1 hcontrol) hquote hbackslash
  all_goals exact .short (by decide)

theorem quote_mem_stringSpellings (text : String) : quote text ∈ stringSpellings text := by
  have hbody : ∀ cs : List Char, cs.flatMap escapeChar ∈ (cs.map charSpellings).prod := by
    intro cs
    induction cs with
    | nil => exact Language.nil_mem_one
    | cons c cs ih =>
      rw [List.flatMap_cons, List.map_cons, List.prod_cons]
      exact Language.append_mem_mul (spellsChar_escapeChar c) ih
  have hquote : ['"'] ∈ ({['"']} : Language Char) := rfl
  exact Language.append_mem_mul (Language.append_mem_mul hquote (hbody _)) hquote

theorem mem_blanks_lineBreak (depth : Nat) : lineBreak depth ∈ blanks := by
  intro c hc
  rcases List.mem_cons.1 hc with rfl | hc
  · decide
  · rw [List.eq_of_mem_replicate hc]
    decide

theorem nil_mem_blanks : [] ∈ blanks := nofun

theorem mem_mark {s t : List Char} (c : Char) (hs : s ∈ blanks) (ht : t ∈ blanks) :
    s ++ [c] ++ t ∈ mark c :=
  Language.append_mem_mul (Language.append_mem_mul hs rfl) ht

section

variable {α : Type} {f : α → List Char} {L : α → Language Char} {xs : List α}

theorem intercalate_mem_separated (depth : Nat) (h : ∀ x ∈ xs, f x ∈ L x) :
    (',' :: lineBreak depth).intercalate (xs.map f) ∈ separated (xs.map L) := by
  induction xs with
  | nil => exact Language.nil_mem_one
  | cons x xs ih =>
    obtain ⟨hx, hxs⟩ := List.forall_mem_cons.1 h
    cases xs with
    | nil => simpa [separated] using hx
    | cons y ys =>
      have hcomma := mem_mark ',' nil_mem_blanks (mem_blanks_lineBreak depth)
      rw [separated, List.map_cons, List.map_cons, List.map_cons, List.map_cons,
        List.intersperse_cons_cons, List.prod_cons, List.prod_cons, List.intercalate_cons_cons,
        List.append_assoc]
      exact Language.append_mem_mul hx (Language.append_mem_mul hcomma (ih hxs))

theorem enclose_mem (left right : Char) (depth : Nat) (h : ∀ x ∈ xs, f x ∈ L x) :
    enclose left right depth (xs.map f) ∈ mark left * separated (xs.map L) * mark right := by
  unfold enclose
  split
  · rename_i hnil
    obtain rfl : xs = [] := List.map_eq_nil_iff.1 hnil
    have hleft := mem_mark left nil_mem_blanks nil_mem_blanks
    have hright := mem_mark right nil_mem_blanks nil_mem_blanks
    exact Language.append_mem_mul (Language.append_mem_mul hleft Language.nil_mem_one) hright
  · have hleft := mem_mark left nil_mem_blanks (mem_blanks_lineBreak (depth + 1))
    have hright := mem_mark right (mem_blanks_lineBreak depth) nil_mem_blanks
    have hmem := Language.append_mem_mul (Language.append_mem_mul hleft
      (intercalate_mem_separated (depth + 1) h)) hright
    rw [List.append_nil, ← List.append_assoc] at hmem
    exact hmem

end

namespace Value

variable {levels : Nat} {v : Value}

/-- What is printed spells the document. -/
theorem Portable.indented_mem (h : v.Portable levels) (depth : Nat) :
    v.indented depth ∈ v.spellings := by
  induction h generalizing depth with
  | null | bool | natural =>
    rw [indented, spellings]
    rfl
  | string levels text =>
    rw [indented, spellings]
    exact quote_mem_stringSpellings text
  | array _ ih =>
    rw [indented, spellings]
    exact enclose_mem '[' ']' depth fun v hv => ih v hv (depth + 1)
  | object _ _ ih =>
    rw [indented, spellings]
    refine enclose_mem '\x7b' '\x7d' depth fun m hm => ?_
    have hblank : [' '] ∈ blanks := List.forall_mem_singleton.2 (Or.inl rfl)
    have hcolon := mem_mark ':' nil_mem_blanks hblank
    exact Language.append_mem_mul
      (Language.append_mem_mul (quote_mem_stringSpellings m.1) hcolon) (ih m hm (depth + 1))

section

variable {members members' : List (String × Value)} {name : String}

theorem lookup_map_snd (f : Value → Value) :
    (members.map fun m => (m.1, f m.2)).lookup name = (members.lookup name).map f := by
  induction members with
  | nil => rfl
  | cons m members ih =>
    obtain ⟨other, v⟩ := m
    rw [List.map_cons, List.lookup_cons, List.lookup_cons, ih]
    cases name == other <;> rfl

theorem lookup_eq_of_perm (h : members.Perm members') (hnames : (members.map (·.1)).Nodup) :
    members.lookup name = members'.lookup name := by
  induction h with
  | nil => rfl
  | cons m _ ih =>
    obtain ⟨other, v⟩ := m
    rw [List.lookup_cons, List.lookup_cons, ih (List.nodup_cons.1 hnames).2]
  | swap m n members =>
    obtain ⟨first, v⟩ := m
    obtain ⟨second, w⟩ := n
    simp only [List.lookup_cons]
    have hne : second ≠ first := by
      have hnot := (List.nodup_cons.1 hnames).1
      rw [List.map_cons] at hnot
      exact List.ne_of_not_mem_cons hnot
    cases hfirst : name == first with
    | false => rfl
    | true =>
      obtain rfl := eq_of_beq hfirst
      rw [beq_eq_false_iff_ne.2 hne.symm]
  | trans h _ ih ih' => exact (ih hnames).trans (ih' ((h.map _).nodup_iff.1 hnames))

end

/-- Sorting the members of objects leaves a document the same. -/
theorem Portable.same_sorted (h : v.Portable levels) : v.Same v.sorted := by
  induction h with
  | null | bool | natural | string =>
    rw [sorted]
    constructor
  | array _ ih =>
    rw [sorted]
    refine .array (List.length_map sorted).symm fun i v w hv hw => ?_
    rw [List.getElem?_map, hv] at hw
    obtain rfl : v.sorted = w := Option.some.inj hw
    exact ih v (List.mem_of_getElem? hv)
  | @object _ members hnames _ ih =>
    have hlookup : ∀ name, ((members.map fun m => (m.1, m.2.sorted)).mergeSort
        fun m n => m.1 ≤ n.1).lookup name = (members.lookup name).map sorted := by
      intro name
      rw [← lookup_map_snd]
      refine (lookup_eq_of_perm (List.mergeSort_perm _ _).symm ?_).symm
      rwa [List.map_map]
    rw [sorted]
    refine .object (fun name => ?_) fun name v w hv hw => ?_
    · rw [hlookup, Option.isSome_map]
    · rw [hlookup, hv] at hw
      obtain rfl : v.sorted = w := Option.some.inj hw
      obtain ⟨before, behind, rfl, -⟩ := List.lookup_eq_some_iff.1 hv
      exact ih (name, v) (by simp)

end Value

theorem Library.basic_standard : Library.basic.Standard where
  prints v hv := by
    refine ⟨_, rfl, ?_⟩
    rw [Value.IsSpelledBy, String.toList_ofList, ← List.append_nil (v.indented 0)]
    exact Language.append_mem_mul
      (Language.append_mem_mul nil_mem_blanks (hv.indented_mem 0)) nil_mem_blanks
  keeps v hv := ⟨_, rfl, hv.same_sorted⟩
  reads v text hv hspelled := by
    refine ⟨v, v.sorted, hspelled, ?_, hv.same_sorted⟩
    simp only [basic, hspelled.read?, Option.map_some]

end GrammarLookahead.Json
