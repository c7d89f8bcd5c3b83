import GrammarLookahead.Proofs.LookaheadSet.Legibility

/-!
Reading displayed sets. Between the braces of a displayed set its members are separated by commas,
and as long as no name holds a quote there are no other commas outside quotes. So a set can be read
from its display and its depth, and nothing that is rendered looks like something else. Main
statements: `LookaheadSet.ofDisplay?_display` and `Vocabulary.rendering_unambiguous`.
-/

namespace GrammarLookahead

section

variable {sep c : Char} {w w' : List Char} {words : List (List Char)}

theorem isWord_nil : IsWord sep [] := isWord_of_bare fun _ hc => absurd hc List.not_mem_nil

theorem isWord_char (hsep : c ≠ sep) (hquote : c ≠ '"') : IsWord sep [c] := by
  apply isWord_of_bare
  intro d hd
  rw [List.mem_singleton.1 hd]
  exact ⟨hsep, hquote⟩

theorem IsWord.append (h : IsWord sep w) (h' : IsWord sep w') : IsWord sep (w ++ w') := by
  intro rest
  rw [List.append_assoc, h, h', List.modifyHead_modifyHead]
  simp [Function.comp_def]

theorem isWord_flatten (h : ∀ w ∈ words, IsWord sep w) : IsWord sep words.flatten := by
  induction words with
  | nil => exact isWord_nil
  | cons w words ih =>
    have hw := h w List.mem_cons_self
    exact hw.append (ih fun u hu => h u (List.mem_cons_of_mem w hu))

theorem intercalate_cons_eq_flatMap {α : Type} (sep w : List α) (words : List (List α)) :
    sep.intercalate (w :: words) = w ++ words.flatMap (sep ++ ·) := by
  induction words generalizing w with
  | nil => simp
  | cons w' words ih =>
    rw [List.intercalate_cons_cons, ih, List.flatMap_cons, List.append_assoc, List.append_assoc]

/-- Words joined by a character other than the separator are one word. -/
theorem isWord_intercalate (hc : IsWord sep [c]) (h : ∀ w ∈ words, IsWord sep w) :
    IsWord sep ([c].intercalate words) := by
  cases words with
  | nil => exact isWord_nil
  | cons w words =>
    obtain ⟨hw, hrest⟩ := List.forall_mem_cons.1 h
    rw [intercalate_cons_eq_flatMap]
    refine hw.append (isWord_flatten fun u hu => ?_)
    obtain ⟨u', hu', rfl⟩ := List.mem_map.1 hu
    exact hc.append (hrest u' hu')

/-- A separator and a blank between words separate words that begin with a blank. -/
theorem intercalate_blank (w : List Char) (words : List (List Char)) :
    [sep, ' '].intercalate (w :: words) = [sep].intercalate (w :: words.map (' ' :: ·)) := by
  rw [intercalate_cons_eq_flatMap, intercalate_cons_eq_flatMap, List.flatMap_map]
  rfl

/-- The words of a text in which a blank follows every separator. -/
def cutItems (sep : Char) (text : List Char) : List (List Char) :=
  match cutWords sep false text with
  | [] => []
  | w :: words => w :: words.map List.tail

theorem cutItems_intercalate (hsep : sep ≠ ' ') (hne : words ≠ []) (h : ∀ w ∈ words, IsWord sep w) :
    cutItems sep ([sep, ' '].intercalate words) = words := by
  cases words with
  | nil => exact absurd rfl hne
  | cons w words =>
    obtain ⟨hw, hrest⟩ := List.forall_mem_cons.1 h
    have hblank : IsWord sep [' '] := isWord_char hsep.symm (by decide)
    have hcut : cutWords sep false ([sep].intercalate (w :: words.map (' ' :: ·))) =
        w :: words.map (' ' :: ·) := by
      refine cutWords_intercalate (List.cons_ne_nil _ _)
        (List.forall_mem_cons.2 ⟨hw, fun u hu => ?_⟩)
      obtain ⟨u', hu', rfl⟩ := List.mem_map.1 hu
      exact hblank.append (hrest u' hu')
    rw [cutItems, intercalate_blank, hcut]
    simp [Function.comp_def]

end

section

variable {ucd : Unicode} {v : Vocabulary} {m : Member}

/-- A rendered member holds no comma outside quotes. -/
theorem Member.isWord_render (hfree : ucd.PunctuationFree)
    (hquotes : ∀ name ∈ v.names, '"' ∉ name.toList) (hm : ∀ t ∈ m.tokens, t ∈ v.tokens) :
    IsWord ',' (m.render ucd v).toList := by
  have hblank : IsWord ',' [' '] := isWord_char (by decide) (by decide)
  have htokens : ∀ w ∈ m.tokens.map (v.display ucd), IsWord ',' w.toList := by
    intro w hw
    obtain ⟨t, ht, rfl⟩ := List.mem_map.1 hw
    exact Vocabulary.isWord_display hfree (Or.inr rfl) (hquotes _ (Vocabulary.nameOf_mem (hm t ht)))
  have hmark : IsWord ',' TokenSeq.epsilonMark.toList := by
    have hbare : TokenSeq.epsilonMark.toList.all (fun c => c ≠ ',' ∧ c ≠ '"') = true := by decide
    exact isWord_of_bare fun c hc => of_decide_eq_true (List.all_eq_true.1 hbare c hc)
  cases m with
  | complete s =>
    rw [render, TokenSeq.render, String.toList_intercalate]
    exact isWord_intercalate hblank (List.forall_mem_map.2 htokens)
  | unfinished p =>
    rw [render, TokenSeq.renderUnfinished, String.toList_intercalate]
    refine isWord_intercalate hblank (List.forall_mem_map.2 ?_)
    exact List.forall_mem_append.2 ⟨htokens, List.forall_mem_singleton.2 hmark⟩

/-- Only the empty complete sequence is rendered as nothing. -/
theorem Member.render_ne_empty (h : m ≠ .complete []) : (m.render ucd v).toList ≠ [] := by
  have hjoin : ∀ (w : List Char) (words : List (List Char)), w ≠ [] →
      [' '].intercalate (w :: words) ≠ [] := by
    intro w words hw
    rw [intercalate_cons_eq_flatMap]
    exact List.append_ne_nil_of_left_ne_nil hw _
  rcases m with (_ | ⟨t, s⟩) | (_ | ⟨t, p⟩)
  · exact absurd rfl h
  · rw [render, TokenSeq.render, String.toList_intercalate]
    exact hjoin _ _ (v.display_ne_empty ucd t)
  · simp [render, TokenSeq.renderUnfinished, TokenSeq.epsilonMark]
  · rw [render, TokenSeq.renderUnfinished, String.toList_intercalate]
    exact hjoin _ _ (v.display_ne_empty ucd t)

end

namespace LookaheadSet

variable {ucd : Unicode} {v : Vocabulary} {a b : LookaheadSet}

/-- The members of a displayed set as they are written; the empty set has none. -/
def displayedTexts (text : String) : List String :=
  let inside := text.toList.tail.dropLast
  if inside = [] then [] else (cutItems ',' inside).map String.ofList

/-- The set of a depth that is displayed in a given way. -/
def ofDisplay? (ucd : Unicode) (v : Vocabulary) (depth : Nat) (text : String) :
    Option LookaheadSet :=
  ofRendered? ucd v depth (displayedTexts text)

theorem displayedTexts_display (hfree : ucd.PunctuationFree)
    (hquotes : ∀ name ∈ v.names, '"' ∉ name.toList)
    (htokens : ∀ m ∈ a, ∀ t ∈ m.tokens, t ∈ v.tokens) (hne : [] ∉ a.complete) :
    displayedTexts (a.display ucd v) = a.render ucd v := by
  have hinside : (a.display ucd v).toList.tail.dropLast =
      [',', ' '].intercalate ((a.render ucd v).map String.toList) := by
    have hbraces : (a.display ucd v).toList =
        '\x7b' :: ([',', ' '].intercalate ((a.render ucd v).map String.toList) ++ ['\x7d']) := by
      simp [display, String.toList_intercalate]
    rw [hbraces, List.tail_cons, List.dropLast_concat]
  have hwords : ∀ w ∈ (a.render ucd v).map String.toList, w ≠ [] ∧ IsWord ',' w := by
    rw [render_eq_map, List.map_map]
    intro w hw
    obtain ⟨m, hm, rfl⟩ := List.mem_map.1 hw
    have hmem := mem_members.1 hm
    refine ⟨Member.render_ne_empty ?_, Member.isWord_render hfree hquotes (htokens m hmem)⟩
    rintro rfl
    exact hne hmem
  rw [displayedTexts, hinside]
  cases hrender : a.render ucd v with
  | nil => rfl
  | cons text texts =>
    rw [hrender] at hwords
    have hfirst := (hwords text.toList (by simp)).1
    have hsome : [',', ' '].intercalate ((text :: texts).map String.toList) ≠ [] := by
      rw [List.map_cons, intercalate_cons_eq_flatMap]
      exact List.append_ne_nil_of_left_ne_nil hfirst _
    have hcut : cutItems ',' ([',', ' '].intercalate ((text :: texts).map String.toList)) =
        (text :: texts).map String.toList :=
      cutItems_intercalate (by decide) (by simp) fun w hw => (hwords w hw).2
    simp only [if_neg hsome, hcut, List.map_map]
    simp [Function.comp_def]

/-- A set is read from its display and its depth. -/
theorem ofDisplay?_display (hfree : ucd.PunctuationFree)
    (hquotes : ∀ name ∈ v.names, '"' ∉ name.toList)
    (htokens : ∀ m ∈ a, ∀ t ∈ m.tokens, t ∈ v.tokens) (hne : [] ∉ a.complete) :
    ofDisplay? ucd v a.depth (a.display ucd v) = some a := by
  rw [ofDisplay?, displayedTexts_display hfree hquotes htokens hne,
    ofRendered?_render hfree hquotes htokens]

end LookaheadSet

/-- As long as no name holds a quote, different sequences are rendered differently, be they complete
or unfinished, and different sets of one depth are displayed differently unless one of them holds
the empty complete sequence, which leaves no trace in a display. -/
theorem Vocabulary.rendering_unambiguous {ucd : Unicode} (hfree : ucd.PunctuationFree)
    (v : Vocabulary) (hquotes : ∀ name ∈ v.names, '"' ∉ name.toList) :
    (∀ s u : TokenSeq, (∀ t ∈ s, t ∈ v.tokens) → (∀ t ∈ u, t ∈ v.tokens) →
      s.render ucd v = u.render ucd v → s = u) ∧
    (∀ p q : TokenSeq, (∀ t ∈ p, t ∈ v.tokens) → (∀ t ∈ q, t ∈ v.tokens) →
      p.renderUnfinished ucd v = q.renderUnfinished ucd v → p = q) ∧
    (∀ s p : TokenSeq, (∀ t ∈ s, t ∈ v.tokens) → (∀ t ∈ p, t ∈ v.tokens) →
      s.render ucd v ≠ p.renderUnfinished ucd v) ∧
    ∀ a b : LookaheadSet, a.depth = b.depth →
      (∀ m ∈ a, ∀ t ∈ m.tokens, t ∈ v.tokens) → (∀ m ∈ b, ∀ t ∈ m.tokens, t ∈ v.tokens) →
      [] ∉ a.complete → [] ∉ b.complete → a.display ucd v = b.display ucd v → a = b := by
  have hmembers : ∀ m n : Member, (∀ t ∈ m.tokens, t ∈ v.tokens) → (∀ t ∈ n.tokens, t ∈ v.tokens) →
      m.render ucd v = n.render ucd v → m = n := by
    intro m n hm hn heq
    have hread := Member.parse?_render hfree hquotes hm
    rw [heq, Member.parse?_render hfree hquotes hn] at hread
    exact (Option.some.inj hread).symm
  refine ⟨fun s u hs hu heq => ?_, fun p q hp hq heq => ?_, fun s p hs hp heq => ?_, ?_⟩
  · exact Member.complete.inj (hmembers (.complete s) (.complete u) hs hu heq)
  · exact Member.unfinished.inj (hmembers (.unfinished p) (.unfinished q) hp hq heq)
  · exact Member.noConfusion (hmembers (.complete s) (.unfinished p) hs hp heq)
  · intro a b hdepth ha hb hane hbne heq
    have hread := LookaheadSet.ofDisplay?_display hfree hquotes ha hane
    rw [hdepth, heq, LookaheadSet.ofDisplay?_display hfree hquotes hb hbne] at hread
    exact (Option.some.inj hread).symm

example (ucd : Unicode) (v : Vocabulary) :
    (LookaheadSet.singleton 1 []).display ucd v = (LookaheadSet.empty 1).display ucd v := rfl

/-- Names that look like nothing, like blanks, like separators, like the marker and like two
names. -/
def lookalikeNames : Vocabulary where
  declared := ["", " ", ", ", "\x7b\x7d", "<epsilon>", "a", "b", "a b"]

theorem lookalikeNames_unambiguous :
    Unicode.ascii.PunctuationFree ∧ (∀ name ∈ lookalikeNames.names, '"' ∉ name.toList) ∧
      TokenSeq.render .ascii lookalikeNames [⟨8⟩] ≠
        TokenSeq.render .ascii lookalikeNames [⟨6⟩, ⟨7⟩] ∧
      TokenSeq.renderUnfinished .ascii lookalikeNames [⟨5⟩] ≠
        TokenSeq.renderUnfinished .ascii lookalikeNames [] ∧
      TokenSeq.render .ascii lookalikeNames [⟨5⟩] ≠
        TokenSeq.renderUnfinished .ascii lookalikeNames [] ∧
      (LookaheadSet.ofSequences 1 [[⟨3⟩]]).display .ascii lookalikeNames ≠
        (LookaheadSet.ofSequences 1 [[⟨1⟩], [⟨2⟩]]).display .ascii lookalikeNames := by
  have hquotes : ∀ name ∈ lookalikeNames.names, '"' ∉ name.toList := by decide
  obtain ⟨hcomplete, hunfinished, hkinds, hsets⟩ :=
    Vocabulary.rendering_unambiguous Unicode.ascii_punctuationFree lookalikeNames hquotes
  have hone : ∀ m ∈ LookaheadSet.ofSequences 1 [[⟨3⟩]], ∀ t ∈ m.tokens,
      t ∈ lookalikeNames.tokens := by
    simp only [← LookaheadSet.mem_members]
    decide
  have htwo : ∀ m ∈ LookaheadSet.ofSequences 1 [[⟨1⟩], [⟨2⟩]], ∀ t ∈ m.tokens,
      t ∈ lookalikeNames.tokens := by
    simp only [← LookaheadSet.mem_members]
    decide
  refine ⟨Unicode.ascii_punctuationFree, hquotes, fun h => ?_, fun h => ?_,
    hkinds _ _ (by decide) (by decide), fun h => ?_⟩
  · exact absurd (hcomplete _ _ (by decide) (by decide) h) (by decide)
  · exact absurd (hunfinished _ _ (by decide) (by decide) h) (by decide)
  · have hequal := hsets (.ofSequences 1 [[⟨3⟩]]) (.ofSequences 1 [[⟨1⟩], [⟨2⟩]]) rfl hone htwo
      (by decide) (by decide) h
    exact absurd hequal (by decide)

end GrammarLookahead
