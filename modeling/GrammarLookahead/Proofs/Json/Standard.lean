import GrammarLookahead.Json.Library
import Mathlib.Computability.Language

/-!
The JSON standard. A text spells a document in any of the ways that the grammar of JSON allows:
blanks may stand around marks, and a character of a string may stand for itself or be escaped.
Documents are the same if they differ only in the order of the members of objects. Main definitions:
`Value.IsSpelledBy`, `Value.Same` and `Library.Standard`.
-/

namespace GrammarLookahead.Json

def IsBlank (c : Char) : Prop := c = ' ' ∨ c = '\t' ∨ c = '\n' ∨ c = '\r'

def blanks : Language Char := {s | ∀ c ∈ s, IsBlank c}

/-- A mark between blanks. -/
def mark (c : Char) : Language Char := blanks * {[c]} * blanks

/-- Texts with commas between them. -/
def separated (ls : List (Language Char)) : Language Char := (ls.intersperse (mark ',')).prod

/-- The ways to write a number below 16 as a hexadecimal digit. -/
def hexDigits (n : Nat) : List Char := [n.digitChar, n.digitChar.toUpper]

/-- The ways to escape a UTF-16 code unit. -/
def unitEscapes (code : Nat) : Language Char :=
  {s | ∃ a ∈ hexDigits (code / 4096 % 16), ∃ b ∈ hexDigits (code / 256 % 16),
    ∃ c ∈ hexDigits (code / 16 % 16), ∃ d ∈ hexDigits (code % 16), s = ['\\', 'u', a, b, c, d]}

/-- What may stand behind a backslash, and the character that it stands for. -/
def shortEscapes : List (Char × Char) :=
  [('"', '"'), ('\\', '\\'), ('/', '/'), ('b', '\x08'), ('f', '\x0c'), ('n', '\n'), ('r', '\r'),
    ('t', '\t')]

/-- How a character may be written in a string. -/
inductive SpellsChar (c : Char) : List Char → Prop
  | plain (hcontrol : 0x20 ≤ c.toNat) (hquote : c ≠ '"') (hbackslash : c ≠ '\\') : SpellsChar c [c]
  | short {e : Char} (h : (e, c) ∈ shortEscapes) : SpellsChar c ['\\', e]
  | unit {s : List Char} (hone : c.toNat < 0x10000) (h : s ∈ unitEscapes c.toNat) : SpellsChar c s
  /-- A surrogate pair. -/
  | pair {high low : List Char} (htwo : 0x10000 ≤ c.toNat)
    (hhigh : high ∈ unitEscapes (0xD800 + (c.toNat - 0x10000) / 0x400))
    (hlow : low ∈ unitEscapes (0xDC00 + (c.toNat - 0x10000) % 0x400)) : SpellsChar c (high ++ low)

def charSpellings (c : Char) : Language Char := {s | SpellsChar c s}

/-- The ways to write a text as a string. -/
def stringSpellings (text : String) : Language Char :=
  {['"']} * (text.toList.map charSpellings).prod * {['"']}

namespace Value

theorem sizeOf_lt_of_mem {m : String × Value} {members : List (String × Value)} (h : m ∈ members) :
    sizeOf m.2 < sizeOf members := by
  have hm := List.sizeOf_lt_of_mem h
  rw [Prod.mk.sizeOf_spec] at hm
  omega

/-- Induction over the items of arrays and the members of objects. -/
@[elab_as_elim, induction_eliminator]
theorem induct {motive : Value → Prop} (null : motive .null) (bool : ∀ b, motive (.bool b))
    (natural : ∀ n, motive (.natural n)) (number : ∀ literal, motive (.number literal))
    (string : ∀ text, motive (.string text))
    (array : ∀ items, (∀ v ∈ items, motive v) → motive (.array items))
    (object : ∀ members, (∀ m ∈ members, motive m.2) → motive (.object members)) :
    ∀ v, motive v
  | .null => null
  | .bool b => bool b
  | .natural n => natural n
  | .number literal => number literal
  | .string text => string text
  | .array items => array items fun v _ =>
    induct null bool natural number string array object v
  | .object members => object members fun m _ =>
    induct null bool natural number string array object m.2
termination_by v => v
decreasing_by
  · simpa using Nat.lt_add_left 1 (List.sizeOf_lt_of_mem ‹_›)
  · simpa using Nat.lt_add_left 1 (sizeOf_lt_of_mem ‹_›)

/-- The ways to write a document. Of the numbers only the natural ones are covered. -/
def spellings : Value → Language Char
  | .null => {"null".toList}
  | .bool b => {(toString b).toList}
  | .natural n => {Nat.toDigits 10 n}
  | .number _ => 0
  | .string text => stringSpellings text
  | .array items => mark '[' * separated (items.map spellings) * mark ']'
  | .object members =>
    mark '\x7b' * separated (members.map fun m => stringSpellings m.1 * mark ':' * m.2.spellings) *
      mark '\x7d'
termination_by v => v
decreasing_by
  · simpa using Nat.lt_add_left 1 (List.sizeOf_lt_of_mem ‹_›)
  · simpa using Nat.lt_add_left 1 (sizeOf_lt_of_mem ‹_›)

/-- A text spells a document, between blanks. -/
def IsSpelledBy (v : Value) (text : String) : Prop := text.toList ∈ blanks * v.spellings * blanks

/-- The same document, apart from the order of the members of objects. -/
inductive Same : Value → Value → Prop
  | null : Same .null .null
  | bool (b : Bool) : Same (.bool b) (.bool b)
  | natural (n : Nat) : Same (.natural n) (.natural n)
  | number (literal : String) : Same (.number literal) (.number literal)
  | string (text : String) : Same (.string text) (.string text)
  | array {items items' : List Value} (hlength : items.length = items'.length)
    (h : ∀ (i : Nat) v v', items[i]? = some v → items'[i]? = some v' → Same v v') :
    Same (.array items) (.array items')
  | object {members members' : List (String × Value)}
    (hnames : ∀ name, (members.lookup name).isSome = (members'.lookup name).isSome)
    (h : ∀ name v v', members.lookup name = some v → members'.lookup name = some v' → Same v v') :
    Same (.object members) (.object members')

/-- Documents that are the same as a third one are the same. -/
theorem Same.of_left {u v w : Value} (h : u.Same v) (h' : u.Same w) : v.Same w := by
  induction h generalizing w with
  | null | bool | natural | number | string => exact h'
  | array hlength _ ih =>
    cases h' with
    | array hlength' h' =>
      refine .array (hlength.symm.trans hlength') fun i v w hv hw => ?_
      have hi := (List.getElem?_eq_some_iff.1 hv).1
      rw [← hlength] at hi
      have hu := List.getElem?_eq_getElem hi
      exact ih i _ v hu hv (h' i _ w hu hw)
  | object hnames _ ih =>
    cases h' with
    | object hnames' h' =>
      refine .object (fun name => (hnames name).symm.trans (hnames' name)) fun name v w hv hw => ?_
      have hname := hnames name
      rw [hv, Option.isSome_some] at hname
      obtain ⟨u, hu⟩ := Option.isSome_iff_exists.1 hname
      exact ih name u v hu hv (h' name u w hu hw)

/-- Documents that every library handles: their numbers are natural and fit into 64 bits, no object
has two members of one name, and arrays and objects are not nested too deep. -/
inductive Portable : Nat → Value → Prop
  | null (levels : Nat) : Portable levels .null
  | bool (levels : Nat) (b : Bool) : Portable levels (.bool b)
  | natural (levels : Nat) {n : Nat} (h : n < UInt64.size) : Portable levels (.natural n)
  | string (levels : Nat) (text : String) : Portable levels (.string text)
  | array {levels : Nat} {items : List Value} (h : ∀ v ∈ items, Portable levels v) :
    Portable (levels + 1) (.array items)
  | object {levels : Nat} {members : List (String × Value)} (hnames : (members.map (·.1)).Nodup)
    (h : ∀ m ∈ members, Portable levels m.2) : Portable (levels + 1) (.object members)

end Value

/-- How deep arrays and objects may be nested in any library. -/
def nestingLimit : Nat := 127

/-- A library that keeps to the standard for portable documents. -/
structure Library.Standard (json : Library) : Prop where
  /-- What is printed spells the document. -/
  prints : ∀ v : Value, v.Portable nestingLimit → ∃ text,
    json.pretty? v = some text ∧ v.IsSpelledBy text
  /-- What is kept is the same document. -/
  keeps : ∀ v : Value, v.Portable nestingLimit → ∃ doc, json.document? v = some doc ∧ v.Same doc
  /-- What is read from a text that spells a document is a document that the text spells. -/
  reads : ∀ (v : Value) (text : String), v.Portable nestingLimit → v.IsSpelledBy text →
    ∃ w doc : Value, w.IsSpelledBy text ∧ json.parse? text = some doc ∧ w.Same doc

end GrammarLookahead.Json
