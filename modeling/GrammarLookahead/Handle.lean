/-!
Handles: the numbers by which tokens, rules, blocks and elements refer to each other. A handle is
32 bits wide, so a number from outside keeps its low 32 bits (`Handle.ofNat`). Numbers that are
given out in order are not cut: a grammar is assumed to have fewer than 2 ^ 32 names and nodes of
each kind.
-/

namespace GrammarLookahead

/-- What a handle refers to. -/
inductive HandleKind where
  | token
  | rule
  | block
  | element
  deriving DecidableEq, Repr

namespace HandleKind

/-- The letter a handle of this kind is shown with. -/
def letter : HandleKind → String
  | .token => "t"
  | .rule => "r"
  | .block => "b"
  | .element => "e"

def typeName : HandleKind → String
  | .token => "TokenId"
  | .rule => "RuleId"
  | .block => "BlockId"
  | .element => "ElementId"

end HandleKind

/-- The position of a token, rule, block or element among those of its kind. -/
structure Handle (kind : HandleKind) where
  index : Nat
  deriving DecidableEq, Hashable, Repr

abbrev TokenId := Handle .token
abbrev RuleId := Handle .rule
abbrev BlockId := Handle .block
abbrev ElementId := Handle .element

namespace Handle

variable {kind : HandleKind}

/-- The handle for a number of any size: its low 32 bits. -/
def ofNat (n : Nat) : Handle kind := ⟨n % UInt32.size⟩

/-- The short form of a handle, such as `b3`. -/
def shortName (h : Handle kind) : String := kind.letter ++ toString h.index

/-- The form of a handle that says what it refers to, such as `BlockId(3)`. -/
def longName (h : Handle kind) : String := kind.typeName ++ "(" ++ toString h.index ++ ")"

instance : ToString (Handle kind) := ⟨shortName⟩

instance : LT (Handle kind) := ⟨fun a b => a.index < b.index⟩

theorem lt_def {a b : Handle kind} : a < b ↔ a.index < b.index := Iff.rfl

instance : DecidableLT (Handle kind) := fun a b => inferInstanceAs (Decidable (a.index < b.index))

instance : Std.Irrefl (α := Handle kind) (· < ·) := ⟨fun a => Nat.lt_irrefl a.index⟩

instance : Std.Asymm (α := Handle kind) (· < ·) := ⟨fun _ _ h => Nat.lt_asymm h⟩

instance : Trans (α := Handle kind) (· < ·) (· < ·) (· < ·) := ⟨fun h k => Nat.lt_trans h k⟩

instance : Std.Trichotomous (α := Handle kind) (· < ·) where
  trichotomous a b hab hba := by
    cases a; cases b
    simp only [lt_def, Nat.not_lt] at hab hba
    exact congrArg _ (Nat.le_antisymm hba hab)

end Handle

/-- The end of input, the first token of every vocabulary. -/
def TokenId.eof : TokenId := ⟨0⟩

def TokenId.isEof (t : TokenId) : Bool := t = TokenId.eof

/-- A place in a grammar that lookahead can be asked about. -/
inductive Node where
  | element (id : ElementId)
  | block (id : BlockId)
  deriving DecidableEq, Hashable, Repr

namespace Node

/-- The form of a node that says what it is, such as `Block(BlockId(3))`. -/
def longName : Node → String
  | .element id => "Element(" ++ id.longName ++ ")"
  | .block id => "Block(" ++ id.longName ++ ")"

end Node

end GrammarLookahead
