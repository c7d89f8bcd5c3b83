import GrammarLookahead.Proofs.Json.Standard

/-!
A reader of JSON texts in which every number is natural. A text is cut into tokens, and a stack of
unfinished arrays and objects turns the tokens into one document.
-/

namespace GrammarLookahead.Json

inductive Token where
  | mark (c : Char)
  /-- A value that is written as one token. -/
  | scalar (v : Value)
  /-- A string, which may also name a member. -/
  | string (text : String)

def marks : List Char := ['[', ']', '\x7b', '\x7d', ',', ':']

instance : DecidablePred IsBlank := fun c =>
  inferInstanceAs (Decidable (c = ' ' ∨ c = '\t' ∨ c = '\n' ∨ c = '\r'))

/-- The value of a hexadecimal digit. -/
def hexValue? (c : Char) : Option Nat :=
  if c.isDigit then some (c.toNat - '0'.toNat)
  else if 'a' ≤ c ∧ c ≤ 'f' then some (c.toNat - 'a'.toNat + 10)
  else if 'A' ≤ c ∧ c ≤ 'F' then some (c.toNat - 'A'.toNat + 10)
  else none

/-- The number of four hexadecimal digits. -/
def hexUnit? (a b c d : Char) : Option Nat := do
  return (((← hexValue? a) * 16 + (← hexValue? b)) * 16 + (← hexValue? c)) * 16 + (← hexValue? d)

/-- An escaped UTF-16 code unit, and what stands behind it. -/
def readUnit : List Char → Option (Nat × List Char)
  | '\\' :: 'u' :: a :: b :: c :: d :: rest => (hexUnit? a b c d).map (·, rest)
  | _ => none

/-- The character of a surrogate pair. -/
def ofPair? (high low : Nat) : Option Char :=
  if high < 0xDC00 ∧ 0xDC00 ≤ low ∧ low < 0xE000 then
    some (Char.ofNat (0x10000 + (high - 0xD800) * 0x400 + (low - 0xDC00)))
  else none

/-- A character of a string, and what stands behind it. A surrogate stands for a character only as a
part of a pair. -/
def readChar : List Char → Option (Char × List Char)
  | '\\' :: 'u' :: rest =>
    (readUnit ('\\' :: 'u' :: rest)).bind fun (code, behind) =>
      if code.isValidChar then some (Char.ofNat code, behind)
      else (readUnit behind).bind fun (low, behind) => (ofPair? code low).map (·, behind)
  | '\\' :: e :: rest => (shortEscapes.lookup e).map (·, rest)
  | c :: rest => if c.toNat < 0x20 then none else some (c, rest)
  | [] => none

theorem length_lt_of_readUnit {s rest : List Char} {code : Nat}
    (h : readUnit s = some (code, rest)) : rest.length < s.length := by
  unfold readUnit at h
  split at h
  · obtain ⟨_, -, heq⟩ := Option.map_eq_some_iff.1 h
    obtain ⟨-, rfl⟩ := Prod.mk.inj heq
    simp only [List.length_cons]
    omega
  · cases h

theorem length_lt_of_readChar {s rest : List Char} {c : Char}
    (h : readChar s = some (c, rest)) : rest.length < s.length := by
  unfold readChar at h
  split at h
  · obtain ⟨⟨code, behind⟩, hunit, h⟩ := Option.bind_eq_some_iff.1 h
    have hlt := length_lt_of_readUnit hunit
    dsimp only at h
    split at h
    · obtain ⟨-, rfl⟩ := Prod.mk.inj (Option.some.inj h)
      exact hlt
    · obtain ⟨⟨low, behind'⟩, hlow, h⟩ := Option.bind_eq_some_iff.1 h
      obtain ⟨_, -, heq⟩ := Option.map_eq_some_iff.1 h
      obtain ⟨-, rfl⟩ := Prod.mk.inj heq
      exact (length_lt_of_readUnit hlow).trans hlt
  · obtain ⟨_, -, heq⟩ := Option.map_eq_some_iff.1 h
    obtain ⟨-, rfl⟩ := Prod.mk.inj heq
    simp only [List.length_cons]
    omega
  · split at h
    · cases h
    · obtain ⟨-, rfl⟩ := Prod.mk.inj (Option.some.inj h)
      simp
  · cases h

/-- The characters up to the closing quote, and what stands behind it. -/
def readString (s : List Char) : Option (List Char × List Char) :=
  if s.head? = some '"' then some ([], s.tail)
  else
    match _h : readChar s with
    | none => none
    | some (c, rest) => (readString rest).map fun (cs, behind) => (c :: cs, behind)
termination_by s.length
decreasing_by exact length_lt_of_readChar _h

theorem length_lt_of_readString {s cs rest : List Char} (h : readString s = some (cs, rest)) :
    rest.length < s.length := by
  fun_induction readString s generalizing cs rest with
  | case1 s hquote =>
    obtain ⟨s, rfl⟩ := List.head?_eq_some_iff.1 hquote
    obtain ⟨-, rfl⟩ := Prod.mk.inj (Option.some.inj h)
    simp
  | case2 => cases h
  | case3 s _ c behind hchar ih =>
    obtain ⟨⟨cs', rest'⟩, hrest, heq⟩ := Option.map_eq_some_iff.1 h
    obtain ⟨-, rfl⟩ := Prod.mk.inj heq
    exact (ih hrest).trans (length_lt_of_readChar hchar)

/-- The first token of a text that begins with one, and what stands behind it. -/
def lexToken : List Char → Option (Token × List Char)
  | 'n' :: 'u' :: 'l' :: 'l' :: rest => some (.scalar .null, rest)
  | 't' :: 'r' :: 'u' :: 'e' :: rest => some (.scalar (.bool true), rest)
  | 'f' :: 'a' :: 'l' :: 's' :: 'e' :: rest => some (.scalar (.bool false), rest)
  | '"' :: rest => (readString rest).map fun (cs, behind) => (.string (String.ofList cs), behind)
  | c :: rest =>
    if c ∈ marks then some (.mark c, rest)
    else if c.isDigit then
      some (.scalar (.natural (Nat.ofDigitChars 10 (c :: rest.takeWhile Char.isDigit) 0)),
        rest.dropWhile Char.isDigit)
    else none
  | [] => none

theorem length_lt_of_lexToken {s rest : List Char} {t : Token} (h : lexToken s = some (t, rest)) :
    rest.length < s.length := by
  unfold lexToken at h
  split at h
  case h_4 behind =>
    obtain ⟨⟨cs, behind'⟩, hstring, heq⟩ := Option.map_eq_some_iff.1 h
    obtain ⟨-, rfl⟩ := Prod.mk.inj heq
    exact (length_lt_of_readString hstring).trans (Nat.lt_succ_self _)
  case h_5 c behind _ _ _ _ =>
    have hdrop := (List.dropWhile_sublist (l := behind) Char.isDigit).length_le
    grind
  case h_6 => cases h
  all_goals
    obtain ⟨-, rfl⟩ := Prod.mk.inj (Option.some.inj h)
    simp only [List.length_cons]
    omega

/-- The tokens of a text. -/
def lex : List Char → Option (List Token)
  | [] => some []
  | c :: cs =>
    if IsBlank c then lex cs
    else
      match _h : lexToken (c :: cs) with
      | none => none
      | some (t, rest) => (lex rest).map (t :: ·)
termination_by s => s.length
decreasing_by
  · simp
  · exact length_lt_of_lexToken _h

/-- An array or object that waits for a value, with what it holds so far, the last item first. -/
inductive Container where
  | array (items : List Value)
  | object (members : List (String × Value)) (name : String)

/-- What may come next. -/
inductive Phase where
  /-- A value or, if nothing has been read of it yet, the end of an array. -/
  | value (closable : Bool)
  /-- The name of a member or, if nothing has been read of it yet, the end of an object. -/
  | name (members : List (String × Value)) (closable : Bool)
  /-- The colon behind a name. -/
  | colon (members : List (String × Value)) (name : String)
  /-- A comma or the end of the innermost container, behind a value. -/
  | behind (v : Value)

/-- What has been read of a document. -/
structure Progress where
  stack : List Container := []
  phase : Phase := .value false

/-- Reads one token. -/
def Progress.read (p : Progress) (t : Token) : Option Progress :=
  match p.phase, t, p.stack with
  | .value _, .scalar v, stack => some ⟨stack, .behind v⟩
  | .value _, .string text, stack => some ⟨stack, .behind (.string text)⟩
  | .value _, .mark '[', stack => some ⟨.array [] :: stack, .value true⟩
  | .value _, .mark '\x7b', stack => some ⟨stack, .name [] true⟩
  | .value true, .mark ']', .array items :: stack => some ⟨stack, .behind (.array items)⟩
  | .name members _, .string text, stack => some ⟨stack, .colon members text⟩
  | .name members true, .mark '\x7d', stack => some ⟨stack, .behind (.object members)⟩
  | .colon members name, .mark ':', stack => some ⟨.object members name :: stack, .value false⟩
  | .behind v, .mark ',', .array items :: stack => some ⟨.array (v :: items) :: stack, .value false⟩
  | .behind v, .mark ']', .array items :: stack =>
    some ⟨stack, .behind (.array (v :: items).reverse)⟩
  | .behind v, .mark ',', .object members name :: stack =>
    some ⟨stack, .name ((name, v) :: members) false⟩
  | .behind v, .mark '\x7d', .object members name :: stack =>
    some ⟨stack, .behind (.object ((name, v) :: members).reverse)⟩
  | _, _, _ => none

/-- The document that has been read, if it is whole. -/
def Progress.whole? : Progress → Option Value
  | ⟨[], .behind v⟩ => some v
  | _ => none

/-- The document that a text spells. -/
def read? (text : String) : Option Value :=
  (lex text.toList).bind fun ts => (ts.foldlM Progress.read {}).bind Progress.whole?

end GrammarLookahead.Json
