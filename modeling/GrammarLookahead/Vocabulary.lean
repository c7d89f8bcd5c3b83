import GrammarLookahead.Handle
import GrammarLookahead.Identifier

/-!
The vocabulary of a grammar: its token names, each with the handle of its first use. The end of
input always comes first, and a name keeps its handle when more names are added.
-/

namespace GrammarLookahead

/-- The token names of a grammar, in order of first use after the end of input. -/
structure Vocabulary where
  declared : List String := []
  nodup : ("EOF" :: declared).Nodup := by decide

namespace Vocabulary

/-- Every token name; a token's handle is the position of its name. -/
def names (v : Vocabulary) : List String := "EOF" :: v.declared

def size (v : Vocabulary) : Nat := v.names.length

/-- The handle that a name has, or that it would get as the next new name. -/
def idOf (v : Vocabulary) (name : String) : TokenId := ⟨v.names.idxOf name⟩

/-- The handle of a name that the vocabulary already holds. -/
def get? (v : Vocabulary) (name : String) : Option TokenId :=
  if name ∈ v.names then some (v.idOf name) else none

/-- Adds a name at the end, unless the vocabulary already holds it. -/
def intern (v : Vocabulary) (name : String) : Vocabulary :=
  if h : name ∈ v.names then v
  else
    { declared := v.declared ++ [name]
      nodup := by
        rw [← List.cons_append, List.nodup_append]
        exact ⟨v.nodup, by simp, fun a ha b hb => by simp_all [names]; rintro rfl; simp_all⟩ }

/-- Adds several names in order. -/
def internAll (v : Vocabulary) (names : List String) : Vocabulary := names.foldl intern v

/-- The name of a token; a handle outside the vocabulary is shown as unknown. -/
def nameOf (v : Vocabulary) (id : TokenId) : String := v.names.getD id.index "<unknown>"

/-- A token as grammars write it: an identifier bare, any other name in quotes. -/
def display (ucd : Unicode) (v : Vocabulary) (id : TokenId) : String :=
  let name := v.nameOf id
  if ucd.isIdentifier name then name else "\"" ++ name ++ "\""

/-- Every token, the end of input included. -/
def tokens (v : Vocabulary) : List TokenId := (List.range v.size).map fun i => ⟨i⟩

/-- The tokens a wildcard matches: all but the end of input. -/
def matchable (v : Vocabulary) : List TokenId := v.tokens.filter fun t => !t.isEof

/-- A vocabulary is never empty: it always holds the end of input. -/
def isEmpty (v : Vocabulary) : Bool := v.size = 0

@[simp] theorem isEmpty_eq_false (v : Vocabulary) : v.isEmpty = false := by
  simp [isEmpty, size, names]

theorem names_intern (v : Vocabulary) (name : String) :
    (v.intern name).names = if name ∈ v.names then v.names else v.names ++ [name] := by
  unfold intern
  split <;> simp_all [names]

end Vocabulary

end GrammarLookahead
