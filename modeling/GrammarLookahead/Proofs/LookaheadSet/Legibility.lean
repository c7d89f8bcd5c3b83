import GrammarLookahead.LookaheadSet.Rendering
import GrammarLookahead.Proofs.Grammar.Interning
import GrammarLookahead.Proofs.LookaheadSet.Members

/-!
Reading rendered lookahead. No name is escaped, and a quoted name may hold blanks or look like the
marker of unfinished sequences. As long as no name holds a quote, the blanks outside quotes are those
between two tokens, no token is displayed like another one or like the marker, and so every rendered
set of a known depth can be read. Main statements: `Member.parse?_render` and
`LookaheadSet.ofRendered?_render`.
-/

namespace GrammarLookahead

theorem mapM_map_eq_some {α β γ : Type} {f : α → β} {read : β → Option γ} {g : α → γ}
    {xs : List α} (h : ∀ x ∈ xs, read (f x) = some (g x)) :
    (xs.map f).mapM read = some (xs.map g) := by
  induction xs with
  | nil => rfl
  | cons x xs ih =>
    rw [List.map_cons, List.mapM_cons, h x List.mem_cons_self,
      ih fun y hy => h y (List.mem_cons_of_mem x hy)]
    rfl

section

variable {sep : Char} {w : List Char}

/-- Cuts a text at the separators that stand outside quotes. -/
def cutWords (sep : Char) : Bool → List Char → List (List Char)
  | _, [] => [[]]
  | quoted, c :: cs =>
    if c = sep ∧ quoted = false then [] :: cutWords sep false cs
    else (cutWords sep (quoted ^^ (c = '"')) cs).modifyHead (c :: ·)

/-- A text without separators outside quotes in which every quote is closed. -/
def IsWord (sep : Char) (w : List Char) : Prop :=
  ∀ rest, cutWords sep false (w ++ rest) = (cutWords sep false rest).modifyHead (w ++ ·)

theorem isWord_of_bare (h : ∀ c ∈ w, c ≠ sep ∧ c ≠ '"') : IsWord sep w := by
  intro rest
  induction w with
  | nil => cases hcut : cutWords sep false rest <;> simp [hcut]
  | cons c w ih =>
    obtain ⟨hsep, hquote⟩ := h c List.mem_cons_self
    rw [List.cons_append, cutWords, if_neg fun hc => hsep hc.1]
    simp only [hquote, decide_false, Bool.xor_false]
    rw [ih fun d hd => h d (List.mem_cons_of_mem c hd), List.modifyHead_modifyHead]
    rfl

/-- Inside quotes nothing but the closing quote counts. -/
theorem isWord_of_quoted (hsep : sep ≠ '"') (h : '"' ∉ w) : IsWord sep ('"' :: w ++ ['"']) := by
  have hinside : ∀ (w rest : List Char), '"' ∉ w →
      cutWords sep true (w ++ '"' :: rest) = (cutWords sep false rest).modifyHead (w ++ '"' :: ·) := by
    intro w rest hw
    induction w with
    | nil =>
      rw [List.nil_append, cutWords, if_neg (by simp)]
      rfl
    | cons c w ih =>
      rw [List.mem_cons, not_or] at hw
      rw [List.cons_append, cutWords, if_neg (by simp)]
      simp only [Ne.symm hw.1, decide_false, Bool.xor_false]
      rw [ih hw.2, List.modifyHead_modifyHead]
      rfl
  intro rest
  rw [List.append_assoc, List.cons_append, cutWords, if_neg fun hc => hsep hc.1.symm]
  simp only [decide_true, Bool.false_xor]
  rw [List.singleton_append, hinside w rest h, List.modifyHead_modifyHead]
  simp [Function.comp_def]

/-- Words between separators are found again. -/
theorem cutWords_intercalate {words : List (List Char)} (hne : words ≠ [])
    (h : ∀ w ∈ words, IsWord sep w) : cutWords sep false ([sep].intercalate words) = words := by
  induction words with
  | nil => exact absurd rfl hne
  | cons w words ih =>
    have hw := h w List.mem_cons_self
    cases words with
    | nil =>
      have hend := hw []
      rw [List.append_nil] at hend
      rw [List.intercalate_singleton, hend]
      simp [cutWords]
    | cons w' words =>
      have hrest := ih (by simp) fun u hu => h u (List.mem_cons_of_mem w hu)
      rw [List.intercalate_cons_cons, List.append_assoc, hw, List.singleton_append, cutWords,
        if_pos ⟨rfl, rfl⟩, hrest]
      simp

end

namespace Unicode

/-- Blanks, quotes, commas and brackets, which separate and mark what is rendered. -/
def punctuation : List Char := [' ', '"', ',', '<', '>', '\x7b', '\x7d']

/-- Punctuation neither starts nor continues an identifier, as in every version of Unicode. -/
structure PunctuationFree (ucd : Unicode) : Prop where
  start : ∀ c ∈ punctuation, ucd.xidStart c = false
  continues : ∀ c ∈ punctuation, ucd.xidContinue c = false

theorem ascii_punctuationFree : ascii.PunctuationFree where
  start := by simp [punctuation, ascii]
  continues := by simp [punctuation, ascii]

variable {ucd : Unicode} {name : String}

theorem PunctuationFree.not_mem_of_isIdentifier (hfree : ucd.PunctuationFree)
    (h : ucd.isIdentifier name = true) {c : Char} (hc : c ∈ punctuation) : c ∉ name.toList := by
  unfold isIdentifier at h
  split at h
  · cases h
  · rename_i first rest hname
    rw [Bool.and_eq_true, List.all_eq_true] at h
    have hstart : ucd.isStart c = false := by
      have hunderscore : c ≠ '_' := by
        rintro rfl
        exact absurd hc (by decide)
      simp only [isStart, hunderscore, hfree.start c hc, decide_false, Bool.or_false]
    have hcontinue : ucd.isContinue c = false := hfree.continues c hc
    rw [hname, List.mem_cons]
    rintro (rfl | hmem)
    · exact Bool.false_ne_true (hstart.symm.trans h.1)
    · exact Bool.false_ne_true (hcontinue.symm.trans (h.2 c hmem))

theorem toList_ne_nil (h : ucd.isIdentifier name = true) : name.toList ≠ [] := by
  intro hnil
  rw [isIdentifier, hnil] at h
  cases h

end Unicode

namespace Vocabulary

variable {ucd : Unicode} {v : Vocabulary} {t u : TokenId}

/-- A token is displayed as its name, which is then an identifier, or as its name in quotes. -/
theorem display_cases (ucd : Unicode) (v : Vocabulary) (t : TokenId) :
    (ucd.isIdentifier (v.nameOf t) = true ∧ v.display ucd t = v.nameOf t) ∨
      (v.display ucd t).toList = '"' :: (v.nameOf t).toList ++ ['"'] := by
  simp only [display]
  split
  · rename_i h
    exact Or.inl ⟨h, rfl⟩
  · exact Or.inr (by simp)

theorem display_ne_empty (ucd : Unicode) (v : Vocabulary) (t : TokenId) :
    (v.display ucd t).toList ≠ [] := by
  rcases v.display_cases ucd t with ⟨hname, heq⟩ | heq
  · rw [heq]
    exact Unicode.toList_ne_nil hname
  · simp [heq]

/-- A bare name and a quoted one differ in their first characters. -/
theorem display_inj (hfree : ucd.PunctuationFree) (ht : t ∈ v.tokens) (hu : u ∈ v.tokens)
    (h : v.display ucd t = v.display ucd u) : t = u := by
  have hquote : ∀ {s : String} {cs : List Char}, ucd.isIdentifier s = true →
      s.toList ≠ '"' :: cs := fun hs heq =>
    hfree.not_mem_of_isIdentifier hs (c := '"') (by decide) (heq ▸ List.mem_cons_self)
  rcases v.display_cases ucd t with ⟨htname, hteq⟩ | hteq <;>
    rcases v.display_cases ucd u with ⟨huname, hueq⟩ | hueq
  · exact nameOf_inj ht hu (by rw [← hteq, ← hueq, h])
  · exact absurd (by rw [← hteq, h, hueq]; rfl) (hquote htname)
  · exact absurd (by rw [← hueq, ← h, hteq]; rfl) (hquote huname)
  · refine nameOf_inj ht hu (String.toList_inj.1 ?_)
    rw [h, hueq] at hteq
    simpa using hteq.symm

theorem display_ne_epsilonMark (hfree : ucd.PunctuationFree) (v : Vocabulary) (t : TokenId) :
    v.display ucd t ≠ TokenSeq.epsilonMark := by
  intro h
  have hmark : (v.display ucd t).toList = ['<', 'e', 'p', 's', 'i', 'l', 'o', 'n', '>'] := by
    rw [h]
    rfl
  rcases v.display_cases ucd t with ⟨hname, heq⟩ | heq
  · rw [heq] at hmark
    exact hfree.not_mem_of_isIdentifier hname (c := '<') (by decide)
      (hmark ▸ List.mem_cons_self)
  · rw [hmark] at heq
    cases heq

theorem isWord_display (hfree : ucd.PunctuationFree) {sep : Char} (hsep : sep = ' ' ∨ sep = ',')
    (hquote : '"' ∉ (v.nameOf t).toList) : IsWord sep (v.display ucd t).toList := by
  rcases v.display_cases ucd t with ⟨hname, heq⟩ | heq
  · rw [heq]
    refine isWord_of_bare fun c hc => ⟨?_, ?_⟩
    · rintro rfl
      exact hfree.not_mem_of_isIdentifier hname (by rcases hsep with rfl | rfl <;> decide) hc
    · rintro rfl
      exact hfree.not_mem_of_isIdentifier hname (by decide) hc
  · rw [heq]
    exact isWord_of_quoted (by rcases hsep with rfl | rfl <;> decide) hquote

/-- The token that is displayed in a given way. -/
def parse? (ucd : Unicode) (v : Vocabulary) (word : String) : Option TokenId :=
  v.tokens.find? fun t => v.display ucd t = word

theorem parse?_display (hfree : ucd.PunctuationFree) (ht : t ∈ v.tokens) :
    v.parse? ucd (v.display ucd t) = some t := by
  unfold parse?
  cases hfind : v.tokens.find? fun u => v.display ucd u = v.display ucd t with
  | none => simpa using List.find?_eq_none.1 hfind t ht
  | some u =>
    have heq : v.display ucd u = v.display ucd t := by simpa using List.find?_some hfind
    rw [display_inj hfree (List.mem_of_find?_eq_some hfind) ht heq]

end Vocabulary

/-- The written form of a member. -/
def Member.render (ucd : Unicode) (v : Vocabulary) : Member → String
  | .complete s => s.render ucd v
  | .unfinished p => p.renderUnfinished ucd v

/-- The words of a rendered sequence; the empty sequence has none. -/
def TokenSeq.words (text : String) : List String :=
  if text = "" then [] else (cutWords ' ' false text.toList).map String.ofList

/-- The member that is written in a given way. -/
def Member.parse? (ucd : Unicode) (v : Vocabulary) (text : String) : Option Member :=
  let words := TokenSeq.words text
  if words.getLast? = some TokenSeq.epsilonMark then
    (words.dropLast.mapM (v.parse? ucd)).map .unfinished
  else (words.mapM (v.parse? ucd)).map .complete

/-- Words are found again between blanks. -/
theorem TokenSeq.words_intercalate {words : List String} (hne : ∀ w ∈ words, w ≠ "")
    (h : ∀ w ∈ words, IsWord ' ' w.toList) : TokenSeq.words (" ".intercalate words) = words := by
  cases words with
  | nil => rfl
  | cons w words =>
    have htext : " ".intercalate (w :: words) ≠ "" := by
      have hw := hne w List.mem_cons_self
      cases words with
      | nil => simpa using hw
      | cons w' words => simp [hw]
    have hcut : cutWords ' ' false (" ".intercalate (w :: words)).toList =
        (w :: words).map String.toList := by
      rw [String.toList_intercalate]
      exact cutWords_intercalate (by simp) (by simpa using h)
    rw [TokenSeq.words, if_neg htext, hcut, List.map_map]
    simp [Function.comp_def]

section

variable {ucd : Unicode} {v : Vocabulary} (hfree : ucd.PunctuationFree)
  (hquotes : ∀ name ∈ v.names, '"' ∉ name.toList)
include hfree hquotes

/-- The words of a rendered sequence are its tokens as they are displayed. -/
theorem TokenSeq.words_display {s : TokenSeq} (hs : ∀ t ∈ s, t ∈ v.tokens) {rest : List String}
    (hne : ∀ w ∈ rest, w ≠ "") (hrest : ∀ w ∈ rest, IsWord ' ' w.toList) :
    TokenSeq.words (" ".intercalate (s.map (v.display ucd) ++ rest)) =
      s.map (v.display ucd) ++ rest := by
  refine TokenSeq.words_intercalate (fun w hw => ?_) fun w hw => ?_
  · rcases List.mem_append.1 hw with hw | hw
    · obtain ⟨t, -, rfl⟩ := List.mem_map.1 hw
      intro hempty
      exact v.display_ne_empty ucd t (by rw [hempty]; rfl)
    · exact hne w hw
  · rcases List.mem_append.1 hw with hw | hw
    · obtain ⟨t, ht, rfl⟩ := List.mem_map.1 hw
      exact Vocabulary.isWord_display hfree (Or.inl rfl)
        (hquotes _ (Vocabulary.nameOf_mem (hs t ht)))
    · exact hrest w hw

/-- A member is read from its written form. -/
theorem Member.parse?_render {m : Member} (hm : ∀ t ∈ m.tokens, t ∈ v.tokens) :
    Member.parse? ucd v (m.render ucd v) = some m := by
  have htokens : (m.tokens.map (v.display ucd)).mapM (v.parse? ucd) = some m.tokens := by
    rw [mapM_map_eq_some (f := v.display ucd) (g := id) fun t ht =>
      Vocabulary.parse?_display hfree (hm t ht), List.map_id]
  cases m with
  | complete s =>
    have hwords : TokenSeq.words (s.render ucd v) = s.map (v.display ucd) := by
      simpa [TokenSeq.render] using @TokenSeq.words_display ucd v hfree hquotes s hm [] nofun nofun
    have hmark : (s.map (v.display ucd)).getLast? ≠ some TokenSeq.epsilonMark := by
      intro hlast
      obtain ⟨t, -, ht⟩ := List.mem_map.1 (List.mem_of_getLast? hlast)
      exact Vocabulary.display_ne_epsilonMark hfree v t ht
    rw [Member.parse?, Member.render, hwords, if_neg hmark]
    exact congrArg (Option.map Member.complete) htokens
  | unfinished p =>
    have hbare : TokenSeq.epsilonMark.toList.all (fun c => c ≠ ' ' ∧ c ≠ '"') = true := by decide
    have hmark : IsWord ' ' TokenSeq.epsilonMark.toList :=
      isWord_of_bare fun c hc => of_decide_eq_true (List.all_eq_true.1 hbare c hc)
    have hwords : TokenSeq.words (p.renderUnfinished ucd v) =
        p.map (v.display ucd) ++ [TokenSeq.epsilonMark] :=
      TokenSeq.words_display hfree hquotes hm (by simp [TokenSeq.epsilonMark])
        (by simpa using hmark)
    rw [Member.parse?, Member.render, hwords, if_pos List.getLast?_concat, List.dropLast_concat]
    exact congrArg (Option.map Member.unfinished) htokens

end

def Member.complete? : Member → Option TokenSeq
  | .complete s => some s
  | .unfinished _ => none

def Member.unfinished? : Member → Option TokenSeq
  | .complete _ => none
  | .unfinished p => some p

namespace LookaheadSet

/-- The members in the order in which they are written. -/
def members (a : LookaheadSet) : List Member :=
  a.complete.toList.map .complete ++ a.unfinished.toList.map .unfinished

variable {ucd : Unicode} {v : Vocabulary} {a : LookaheadSet} {m : Member}

theorem mem_members : m ∈ a.members ↔ m ∈ a := by
  cases m <;> simp [members]

theorem render_eq_map (ucd : Unicode) (v : Vocabulary) (a : LookaheadSet) :
    a.render ucd v = a.members.map (Member.render ucd v) := by
  simp [render, members, Function.comp_def, Member.render]

/-- The set of a depth whose members are written in a given way. -/
def ofRendered? (ucd : Unicode) (v : Vocabulary) (depth : Nat) (texts : List String) :
    Option LookaheadSet :=
  (texts.mapM (Member.parse? ucd v)).map fun ms =>
    ⟨depth, .ofList (ms.filterMap Member.complete?), .ofList (ms.filterMap Member.unfinished?)⟩

/-- A set is read from its written members and its depth. -/
theorem ofRendered?_render (hfree : ucd.PunctuationFree)
    (hquotes : ∀ name ∈ v.names, '"' ∉ name.toList)
    (htokens : ∀ m ∈ a, ∀ t ∈ m.tokens, t ∈ v.tokens) :
    ofRendered? ucd v a.depth (a.render ucd v) = some a := by
  have hmembers : (a.render ucd v).mapM (Member.parse? ucd v) = some a.members := by
    rw [render_eq_map, mapM_map_eq_some (f := Member.render ucd v) (g := id) fun m hm =>
      Member.parse?_render hfree hquotes (htokens m (mem_members.1 hm)), List.map_id]
  have hcomplete : a.members.filterMap Member.complete? = a.complete.toList := by
    simp [members, List.filterMap_map, Function.comp_def, Member.complete?]
  have hunfinished : a.members.filterMap Member.unfinished? = a.unfinished.toList := by
    simp [members, List.filterMap_map, Function.comp_def, Member.unfinished?]
  rw [ofRendered?, hmembers, Option.map_some, hcomplete, hunfinished]
  refine congrArg some (ext rfl fun m => ?_)
  cases m <;> simp

end LookaheadSet

end GrammarLookahead
