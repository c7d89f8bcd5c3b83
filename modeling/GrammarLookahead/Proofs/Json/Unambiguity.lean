import GrammarLookahead.Proofs.Json.Reader

/-!
A text spells at most one document. Whatever spelling is chosen, the text is cut into the tokens of
the document, and the tokens are put together to the document again. So a library that keeps to the
standard reads the document that it prints. Main statements: `Value.IsSpelledBy.unique` and
`Library.Standard.parse?_pretty?`.
-/

namespace GrammarLookahead.Json

section

variable {c : Char} {code : Nat} {s : List Char}

theorem hexValue?_of_mem {n : Nat} (h : n < 16) (hc : c ∈ hexDigits n) : hexValue? c = some n := by
  have hall : (List.range 16).all (fun k => (hexDigits k).all (hexValue? · = some k)) = true := by
    decide
  have hdigits := List.all_eq_true.1 hall n (List.mem_range.2 h)
  simpa using List.all_eq_true.1 hdigits c hc

theorem readUnit_of_mem (hcode : code < 0x10000) (h : s ∈ unitEscapes code) (rest : List Char) :
    readUnit (s ++ rest) = some (code, rest) := by
  obtain ⟨a, ha, b, hb, c, hc, d, hd, rfl⟩ := h
  have hunit : hexUnit? a b c d = some code := by
    simp only [hexUnit?, hexValue?_of_mem (Nat.mod_lt _ (by decide : 0 < 16)) ha,
      hexValue?_of_mem (Nat.mod_lt _ (by decide : 0 < 16)) hb,
      hexValue?_of_mem (Nat.mod_lt _ (by decide : 0 < 16)) hc,
      hexValue?_of_mem (Nat.mod_lt _ (by decide : 0 < 16)) hd, Option.bind_eq_bind,
      Option.bind_some, Option.pure_def, Option.some.injEq]
    omega
  simp only [List.cons_append, List.nil_append, readUnit, hunit, Option.map_some]

/-- What is read of an escaped code unit depends on whether it is a character by itself. -/
theorem readChar_of_mem_unitEscapes (hcode : code < 0x10000) (h : s ∈ unitEscapes code)
    (rest : List Char) :
    readChar (s ++ rest) =
      if code.isValidChar then some (Char.ofNat code, rest)
      else (readUnit rest).bind fun (low, behind) => (ofPair? code low).map (·, behind) := by
  have hread := readUnit_of_mem hcode h rest
  obtain ⟨a, -, b, -, c, -, d, -, rfl⟩ := h
  simp only [List.cons_append, List.nil_append] at hread ⊢
  simp only [readChar, hread, Option.bind_some]

theorem readChar_of_pair {t : List Char} {high low : Nat} (hhigh : 0xD800 ≤ high ∧ high < 0xDC00)
    (hlow : 0xDC00 ≤ low ∧ low < 0xE000) (hs : s ∈ unitEscapes high) (ht : t ∈ unitEscapes low)
    (rest : List Char) :
    readChar (s ++ (t ++ rest)) =
      some (Char.ofNat (0x10000 + (high - 0xD800) * 0x400 + (low - 0xDC00)), rest) := by
  have hinvalid : ¬ high.isValidChar := by
    unfold Nat.isValidChar
    omega
  rw [readChar_of_mem_unitEscapes (by omega) hs, if_neg hinvalid, readUnit_of_mem (by omega) ht]
  simp only [Option.bind_some, ofPair?, if_pos (And.intro hhigh.2 hlow), Option.map_some]

/-- A character is read in whatever way it is written. -/
theorem SpellsChar.readChar_append (h : SpellsChar c s) (rest : List Char) :
    readChar (s ++ rest) = some (c, rest) := by
  cases h with
  | plain hcontrol hquote hbackslash =>
    rw [List.singleton_append]
    unfold readChar
    split
    · rename_i heq
      exact absurd (List.cons.inj heq).1 hbackslash
    · rename_i heq
      exact absurd (List.cons.inj heq).1 hbackslash
    · rename_i heq
      obtain ⟨rfl, rfl⟩ := List.cons.inj heq
      rw [if_neg (Nat.not_lt.2 hcontrol)]
    · rename_i heq
      cases heq
  | @short e h =>
    have hall : ∀ p ∈ shortEscapes, p.1 ≠ 'u' ∧ shortEscapes.lookup p.1 = some p.2 := by decide
    obtain ⟨he, hlookup⟩ := hall (e, c) h
    simp only [List.cons_append, List.nil_append]
    rw [readChar.eq_2 _ _ he, hlookup]
    rfl
  | unit hone h =>
    have hvalid : c.toNat.isValidChar := c.valid
    rw [readChar_of_mem_unitEscapes hone h, if_pos hvalid, Char.ofNat_toNat]
  | pair htwo hhigh hlow =>
    have hlt : c.toNat < 0x110000 := by
      rcases c.valid with hc | ⟨-, hc⟩
      · exact Nat.lt_trans hc (by decide)
      · exact hc
    have hsum : 0x10000 + (0xD800 + (c.toNat - 0x10000) / 0x400 - 0xD800) * 0x400 +
        (0xDC00 + (c.toNat - 0x10000) % 0x400 - 0xDC00) = c.toNat := by omega
    rw [List.append_assoc, readChar_of_pair (by omega) (by omega) hhigh hlow, hsum,
      Char.ofNat_toNat]

theorem SpellsChar.head?_ne (h : SpellsChar c s) (rest : List Char) :
    (s ++ rest).head? ≠ some '"' := by
  cases h with
  | plain _ hquote => simpa using hquote
  | short => simp
  | unit _ h =>
    obtain ⟨a, -, b, -, c, -, d, -, rfl⟩ := h
    simp
  | pair _ hhigh =>
    obtain ⟨a, -, b, -, c, -, d, -, rfl⟩ := hhigh
    simp

theorem readString_of_mem {cs : List Char} (h : s ∈ (cs.map charSpellings).prod)
    (rest : List Char) : readString (s ++ '"' :: rest) = some (cs, rest) := by
  induction cs generalizing s with
  | nil =>
    obtain rfl : s = [] := h
    rw [List.nil_append, readString, if_pos List.head?_cons, List.tail_cons]
  | cons c cs ih =>
    rw [List.map_cons, List.prod_cons] at h
    obtain ⟨t, ht, u, hu, rfl⟩ := Language.mem_mul.1 h
    have hspells : SpellsChar c t := ht
    rw [List.append_assoc, readString, if_neg (hspells.head?_ne _)]
    split
    · rename_i hnone
      rw [hspells.readChar_append] at hnone
      cases hnone
    · rename_i hsome
      rw [hspells.readChar_append] at hsome
      cases hsome
      rw [ih hu]
      rfl

/-- A string is read as the text that it was written for. -/
theorem lexToken_of_mem_stringSpellings {text : String} (h : s ∈ stringSpellings text)
    (rest : List Char) : lexToken (s ++ rest) = some (.string text, rest) := by
  obtain ⟨t, ht, u, rfl, rfl⟩ := Language.mem_mul.1 h
  obtain ⟨v, rfl, w, hw, rfl⟩ := Language.mem_mul.1 ht
  have hread := readString_of_mem hw rest
  simp only [List.append_assoc, List.cons_append, List.nil_append, lexToken, hread,
    Option.map_some, String.ofList_toList]

end

theorem isDigit_of_mem_marks {c : Char} (h : c ∈ marks) : c.isDigit = false := by
  have hall : marks.all (fun d => !d.isDigit) = true := by decide
  simpa using List.all_eq_true.1 hall c h

/-- A text that does not continue a number in front of it. -/
def EndsNumber (rest : List Char) : Prop := ∀ c ∈ rest.head?, c.isDigit = false

theorem lexToken_of_isDigit {c : Char} (h : c.isDigit = true) (rest : List Char) :
    lexToken (c :: rest) =
      some (.scalar (.natural (Nat.ofDigitChars 10 (c :: rest.takeWhile Char.isDigit) 0)),
        rest.dropWhile Char.isDigit) := by
  have hne : ∀ x : Char, x.isDigit = false → c ≠ x := by
    rintro x hx rfl
    rw [h] at hx
    cases hx
  have hmarks : c ∉ marks := fun hc => hne c (isDigit_of_mem_marks hc) rfl
  unfold lexToken
  split
  case h_5 heq =>
    obtain ⟨rfl, rfl⟩ := List.cons.inj heq
    rw [if_neg hmarks, if_pos h]
  case h_6 heq => cases heq
  all_goals
    rename_i heq
    exact absurd (List.cons.inj heq).1 (hne _ (by decide))

/-- A natural number is read as itself. -/
theorem lexToken_toDigits (n : Nat) {rest : List Char} (hrest : EndsNumber rest) :
    lexToken (Nat.toDigits 10 n ++ rest) = some (.scalar (.natural n), rest) := by
  have hdigit : ∀ c ∈ Nat.toDigits 10 n, c.isDigit = true := fun c hc =>
    Nat.isDigit_of_mem_toDigits (by decide) (by decide) hc
  have hvalue : Nat.ofDigitChars 10 (Nat.toDigits 10 n) 0 = n := Nat.ofDigitChars_ten_toDigits
  have htake : rest.takeWhile Char.isDigit = [] := by
    cases rest with
    | nil => rfl
    | cons c cs => simp [hrest c rfl]
  have hdrop : rest.dropWhile Char.isDigit = rest := by
    cases rest with
    | nil => rfl
    | cons c cs => simp [hrest c rfl]
  cases hdigits : Nat.toDigits 10 n with
  | nil => exact absurd hdigits Nat.toDigits_ne_nil
  | cons d ds =>
    rw [hdigits] at hdigit hvalue
    obtain ⟨hd, hds⟩ := List.forall_mem_cons.1 hdigit
    rw [List.cons_append, lexToken_of_isDigit hd, List.takeWhile_append_of_pos hds,
      List.dropWhile_append_of_pos hds, htake, hdrop, List.append_nil, hvalue]

section

variable {s t : List Char} {ts : List Token}

/-- No token begins with a blank, so a token at the front is cut off. -/
theorem lex_of_lexToken {cs rest : List Char} {token : Token}
    (h : lexToken cs = some (token, rest)) : lex cs = (lex rest).map (token :: ·) := by
  cases cs with
  | nil => cases h
  | cons c cs =>
    have hblank : ¬ IsBlank c := by
      rintro (rfl | rfl | rfl | rfl) <;> cases h
    rw [lex, if_neg hblank]
    split
    · rename_i hnone
      rw [h] at hnone
      cases hnone
    · rename_i hsome
      rw [h] at hsome
      cases hsome
      rfl

theorem lex_of_mem_blanks (h : s ∈ blanks) (rest : List Char) : lex (s ++ rest) = lex rest := by
  induction s with
  | nil => rfl
  | cons c s ih =>
    obtain ⟨hc, hs⟩ := List.forall_mem_cons.1 h
    rw [List.cons_append, lex, if_pos hc]
    exact ih hs

theorem lex_of_mem_mark {c : Char} (hc : c ∈ marks) (h : s ∈ mark c) (rest : List Char) :
    lex (s ++ rest) = (lex rest).map (.mark c :: ·) := by
  obtain ⟨t, ht, u, hu, rfl⟩ := Language.mem_mul.1 h
  obtain ⟨v, hv, w, rfl, rfl⟩ := Language.mem_mul.1 ht
  have htoken : ∀ d ∈ marks, ∀ more, lexToken (d :: more) = some (.mark d, more) := by
    simp only [marks, List.forall_mem_cons]
    refine ⟨?_, ?_, ?_, ?_, ?_, ?_, nofun⟩ <;> exact fun _ => rfl
  rw [List.append_assoc, List.append_assoc, lex_of_mem_blanks hv, List.singleton_append,
    lex_of_lexToken (htoken c hc _), lex_of_mem_blanks hu]

theorem endsNumber_of_mem_blanks (h : s ∈ blanks) {rest : List Char} (hrest : EndsNumber rest) :
    EndsNumber (s ++ rest) := by
  cases s with
  | nil => exact hrest
  | cons c s =>
    rintro d hd
    obtain rfl : c = d := Option.some.inj hd
    rcases h c List.mem_cons_self with rfl | rfl | rfl | rfl <;> rfl

theorem endsNumber_of_mem_mark {c : Char} (hc : c ∈ marks) (h : s ∈ mark c) (rest : List Char) :
    EndsNumber (s ++ rest) := by
  obtain ⟨t, ht, u, hu, rfl⟩ := Language.mem_mul.1 h
  obtain ⟨v, hv, w, rfl, rfl⟩ := Language.mem_mul.1 ht
  rw [List.append_assoc, List.append_assoc]
  refine endsNumber_of_mem_blanks hv fun d hd => ?_
  obtain rfl : c = d := Option.some.inj hd
  exact isDigit_of_mem_marks hc

/-- A text is cut into tokens, in front of anything that does not continue a number. -/
def Cuts (s : List Char) (ts : List Token) : Prop :=
  ∀ rest, EndsNumber rest → lex (s ++ rest) = (lex rest).map (ts ++ ·)

theorem Cuts.token {token : Token}
    (h : ∀ rest, EndsNumber rest → lexToken (s ++ rest) = some (token, rest)) : Cuts s [token] :=
  fun rest hrest => lex_of_lexToken (h rest hrest)

/-- Tokens between brackets. -/
theorem Cuts.enclose {l r : Char} (hl : l ∈ marks) (hr : r ∈ marks) {L : Language Char}
    (hL : ∀ t ∈ L, Cuts t ts) (h : s ∈ mark l * L * mark r) :
    Cuts s (.mark l :: ts ++ [.mark r]) := by
  obtain ⟨t, ht, u, hu, rfl⟩ := Language.mem_mul.1 h
  obtain ⟨v, hv, w, hw, rfl⟩ := Language.mem_mul.1 ht
  intro rest _
  rw [List.append_assoc, List.append_assoc, lex_of_mem_mark hl hv,
    hL w hw _ (endsNumber_of_mem_mark hr hu rest), lex_of_mem_mark hr hu, Option.map_map,
    Option.map_map]
  simp [Function.comp_def]

/-- Items and the commas between them are cut into their tokens. -/
theorem cuts_separated {α : Type} {L : α → Language Char} {tokens : α → List Token} {xs : List α}
    (h : ∀ x ∈ xs, ∀ t ∈ L x, Cuts t (tokens x)) :
    ∀ t ∈ separated (xs.map L), Cuts t ([Token.mark ','].intercalate (xs.map tokens)) := by
  induction xs with
  | nil =>
    rintro t rfl rest -
    simp
  | cons x xs ih =>
    obtain ⟨hx, hxs⟩ := List.forall_mem_cons.1 h
    cases xs with
    | nil =>
      intro t ht
      rw [separated, List.map_cons, List.map_nil, List.intersperse_singleton, List.prod_singleton]
        at ht
      rw [List.map_cons, List.map_nil, List.intercalate_singleton]
      exact hx t ht
    | cons y ys =>
      intro t ht rest hrest
      rw [separated, List.map_cons, List.map_cons, List.intersperse_cons_cons, List.prod_cons,
        List.prod_cons] at ht
      obtain ⟨u, hu, v, hv, rfl⟩ := Language.mem_mul.1 ht
      obtain ⟨m, hm, w, hw, rfl⟩ := Language.mem_mul.1 hv
      have hcomma : ',' ∈ marks := by decide
      have hrestCuts := ih hxs w hw rest hrest
      rw [List.append_assoc, List.append_assoc,
        hx u hu _ (endsNumber_of_mem_mark hcomma hm _), lex_of_mem_mark hcomma hm, hrestCuts,
        Option.map_map, Option.map_map]
      simp only [List.map_cons, List.intercalate_cons_cons, Function.comp_def, List.append_assoc,
        List.cons_append, List.nil_append]

end

namespace Value

/-- The tokens that spell a document. -/
def tokens : Value → List Token
  | .null => [.scalar .null]
  | .bool b => [.scalar (.bool b)]
  | .natural n => [.scalar (.natural n)]
  | .number literal => [.scalar (.number literal)]
  | .string text => [.string text]
  | .array items => .mark '[' :: [Token.mark ','].intercalate (items.map tokens) ++ [.mark ']']
  | .object members =>
    .mark '\x7b' :: [Token.mark ','].intercalate
      (members.map fun m => .string m.1 :: .mark ':' :: m.2.tokens) ++ [.mark '\x7d']
termination_by v => v
decreasing_by
  · simpa using Nat.lt_add_left 1 (List.sizeOf_lt_of_mem ‹_›)
  · simpa using Nat.lt_add_left 1 (sizeOf_lt_of_mem ‹_›)

/-- Whatever spelling of a document is chosen, it is cut into the tokens of the document. -/
theorem cuts_of_mem_spellings {v : Value} {s : List Char} (h : s ∈ v.spellings) :
    Cuts s v.tokens := by
  induction v generalizing s with
  | null =>
    rw [spellings] at h
    obtain rfl : s = _ := h
    rw [tokens]
    exact .token fun _ _ => rfl
  | bool b =>
    rw [spellings] at h
    obtain rfl : s = _ := h
    rw [tokens]
    cases b <;> exact .token fun _ _ => rfl
  | natural n =>
    rw [spellings] at h
    obtain rfl : s = _ := h
    rw [tokens]
    exact .token fun _ => lexToken_toDigits n
  | number literal =>
    rw [spellings] at h
    exact absurd h (Language.notMem_zero s)
  | string text =>
    rw [spellings] at h
    rw [tokens]
    exact .token fun rest _ => lexToken_of_mem_stringSpellings h rest
  | array items ih =>
    rw [spellings] at h
    rw [tokens]
    exact .enclose (by decide) (by decide) (cuts_separated fun v hv t ht => ih v hv ht) h
  | object members ih =>
    rw [spellings] at h
    rw [tokens]
    refine .enclose (by decide) (by decide) (cuts_separated fun m hm t ht => ?_) h
    obtain ⟨u, hu, w, hw, rfl⟩ := Language.mem_mul.1 ht
    obtain ⟨name, hname, colon, hcolon, rfl⟩ := Language.mem_mul.1 hu
    intro rest hrest
    rw [List.append_assoc, List.append_assoc,
      lex_of_lexToken (lexToken_of_mem_stringSpellings hname _),
      lex_of_mem_mark (by decide) hcolon, ih m hm hw rest hrest, Option.map_map, Option.map_map]
    rfl

/-- Where a value may stand, its tokens are read as the value. -/
def Reads (v : Value) : Prop :=
  ∀ stack closable,
    v.tokens.foldlM Progress.read ⟨stack, .value closable⟩ = some ⟨stack, .behind v⟩

section

variable {stack : List Container} {closable : Bool}

theorem read_items {items : List Value} (hne : items ≠ []) (hitems : ∀ v ∈ items, v.Reads)
    (before : List Value) :
    ([Token.mark ','].intercalate (items.map tokens) ++ [Token.mark ']']).foldlM Progress.read
        ⟨.array before :: stack, .value closable⟩ =
      some ⟨stack, .behind (.array (before.reverse ++ items))⟩ := by
  induction items generalizing before closable with
  | nil => exact absurd rfl hne
  | cons v items ih =>
    obtain ⟨hv, hrest⟩ := List.forall_mem_cons.1 hitems
    cases items with
    | nil =>
      rw [List.map_singleton, List.intercalate_singleton, List.foldlM_append, hv,
        ← List.reverse_cons]
      rfl
    | cons w items =>
      have hbehind := @ih false (List.cons_ne_nil w items) hrest (v :: before)
      rw [List.reverse_cons, List.append_assoc] at hbehind
      rw [List.map_cons, List.map_cons, List.intercalate_cons_cons, List.append_assoc,
        List.append_assoc, List.foldlM_append, hv]
      exact hbehind

theorem read_members {members : List (String × Value)} (hne : members ≠ [])
    (hmembers : ∀ m ∈ members, m.2.Reads) (before : List (String × Value)) :
    ([Token.mark ','].intercalate (members.map fun m : String × Value =>
        .string m.1 :: .mark ':' :: m.2.tokens) ++ [Token.mark '\x7d']).foldlM Progress.read
          ⟨stack, .name before closable⟩ =
      some ⟨stack, .behind (.object (before.reverse ++ members))⟩ := by
  induction members generalizing before closable with
  | nil => exact absurd rfl hne
  | cons m members ih =>
    obtain ⟨hm, hrest⟩ := List.forall_mem_cons.1 hmembers
    obtain ⟨name, v⟩ := m
    have hmember : (Token.string name :: .mark ':' :: v.tokens).foldlM Progress.read
        ⟨stack, .name before closable⟩ = some ⟨.object before name :: stack, .behind v⟩ := by
      rw [← hm (.object before name :: stack) false]
      cases closable <;> rfl
    cases members with
    | nil =>
      rw [List.map_singleton, List.intercalate_singleton, List.foldlM_append, hmember,
        ← List.reverse_cons]
      rfl
    | cons m' members =>
      have hbehind := @ih false (List.cons_ne_nil m' members) hrest ((name, v) :: before)
      rw [List.reverse_cons, List.append_assoc] at hbehind
      rw [List.map_cons, List.map_cons, List.intercalate_cons_cons, List.append_assoc,
        List.append_assoc, List.foldlM_append, hmember]
      exact hbehind

/-- The tokens of a document are put together to the document. -/
theorem reads (v : Value) : v.Reads := by
  induction v with
  | null | bool | natural | number | string => exact fun stack closable => by rw [tokens]; rfl
  | array items ih =>
    intro stack closable
    rw [tokens, List.cons_append]
    cases items with
    | nil => rfl
    | cons v items => exact @read_items stack true (v :: items) (by simp) ih []
  | object members ih =>
    intro stack closable
    rw [tokens, List.cons_append]
    cases members with
    | nil => rfl
    | cons m members => exact @read_members stack true (m :: members) (by simp) ih []

end

variable {v w : Value} {text : String}

/-- A document is read from any text that spells it. -/
theorem IsSpelledBy.read? (h : v.IsSpelledBy text) : Json.read? text = some v := by
  obtain ⟨t, ht, b, hb, htext⟩ := Language.mem_mul.1 h
  obtain ⟨a, ha, s, hs, rfl⟩ := Language.mem_mul.1 ht
  have hbehind : EndsNumber b := by
    simpa using endsNumber_of_mem_blanks hb (show EndsNumber [] from nofun)
  have hblank : lex b = some [] := by
    simpa [lex] using lex_of_mem_blanks hb []
  have hlex : lex text.toList = some v.tokens := by
    rw [← htext, List.append_assoc, lex_of_mem_blanks ha, cuts_of_mem_spellings hs b hbehind,
      hblank, Option.map_some, List.append_nil]
  rw [Json.read?, hlex, Option.bind_some, v.reads [] false]
  rfl

/-- A text spells at most one document. -/
theorem IsSpelledBy.unique (h : v.IsSpelledBy text) (h' : w.IsSpelledBy text) : v = w :=
  Option.some.inj (h.read?.symm.trans h'.read?)

end Value

/-- A library that keeps to the standard prints a portable document as a text from which it reads
the document again. What it reads and what it keeps differ from the document, if at all, in the order
of members. -/
theorem Library.Standard.parse?_pretty? {json : Library} (hjson : json.Standard) {v : Value}
    (hv : v.Portable nestingLimit) :
    ∃ text doc parsed, json.pretty? v = some text ∧ json.document? v = some doc ∧
      json.parse? text = some parsed ∧ v.Same doc ∧ v.Same parsed := by
  obtain ⟨text, hprint, hspelled⟩ := hjson.prints v hv
  obtain ⟨doc, hkeep, hsame⟩ := hjson.keeps v hv
  obtain ⟨w, parsed, hread, hparse, hsame'⟩ := hjson.reads v text hv hspelled
  obtain rfl := hspelled.unique hread
  exact ⟨text, doc, parsed, hprint, hkeep, hparse, hsame, hsame'⟩

end GrammarLookahead.Json
