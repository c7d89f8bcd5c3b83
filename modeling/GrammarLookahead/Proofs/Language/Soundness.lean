import GrammarLookahead.Proofs.Analysis.LeastSolution
import GrammarLookahead.Proofs.Language.Residue

/-!
Lookahead inside a rule shows nothing but the language of what is left of the rule: an unfinished
sequence is one of its words, and a complete one is what a run through it may have emitted. The
proof follows the walk, from what one node leaves to what the next one leaves. Main statement:
`Linked.explains_of_sees`.
-/

namespace GrammarLookahead

open scoped Computability

namespace Phrase

variable {v : Vocabulary} {ρ π : Meaning} {p : Phrase} {ps rest : List Phrase} {w u s : TokenSeq}
  {m : Member} {repetition : Repetition} {greedy : Option Bool} {alternatives : List (List Phrase)}

/-- What a member says about phrases: an unfinished one is a word, a complete one is emitted by a
run that stops on the way. -/
def Explains (v : Vocabulary) (ρ π : Meaning) (ps : List Phrase) : Member → Prop
  | .unfinished w => w ∈ wordsOfSequence v ρ ps
  | .complete s => s ∈ prefixesOfSequence v ρ π ps

theorem mem_wordsOfAlternatives :
    w ∈ wordsOfAlternatives v ρ alternatives ↔
      ∃ ps ∈ alternatives, w ∈ wordsOfSequence v ρ ps := by
  induction alternatives with
  | nil => simp [wordsOfAlternatives]
  | cons ps rest ih => rw [wordsOfAlternatives, Language.mem_add, ih, List.exists_mem_cons_iff]

theorem mem_prefixesOfAlternatives :
    s ∈ prefixesOfAlternatives v ρ π alternatives ↔
      s = [] ∨ ∃ ps ∈ alternatives, s ∈ prefixesOfSequence v ρ π ps := by
  induction alternatives with
  | nil => simp [prefixesOfAlternatives, Language.mem_one]
  | cons ps rest ih =>
    unfold prefixesOfAlternatives
    rw [Language.mem_add, ih, List.exists_mem_cons_iff]
    exact or_left_comm

theorem wordsOfSequence_append (ps qs : List Phrase) :
    wordsOfSequence v ρ (ps ++ qs) = wordsOfSequence v ρ ps * wordsOfSequence v ρ qs := by
  induction ps with
  | nil => rw [List.nil_append, wordsOfSequence, one_mul]
  | cons p ps ih => rw [List.cons_append, wordsOfSequence, wordsOfSequence, ih, mul_assoc]

/-- A run through two sequences stops in the first one or behind it. -/
theorem prefixesOfSequence_append_le (ps qs : List Phrase) :
    prefixesOfSequence v ρ π (ps ++ qs) ≤
      prefixesOfSequence v ρ π ps + wordsOfSequence v ρ ps * prefixesOfSequence v ρ π qs := by
  induction ps with
  | nil =>
    rw [List.nil_append, wordsOfSequence, one_mul]
    exact le_add_left (le_refl _)
  | cons p ps ih =>
    rw [List.cons_append, prefixesOfSequence, prefixesOfSequence, wordsOfSequence, mul_assoc,
      add_assoc, ← mul_add]
    exact add_le_add (le_refl _) (mul_le_mul' (le_refl _) ih)

theorem wordsOfSequence_repeated :
    wordsOfSequence v ρ (Layout.repeated repetition greedy alternatives) =
      if repetition.isLoop then (wordsOfAlternatives v ρ alternatives)∗ else 1 := by
  unfold Layout.repeated
  split
  · unfold wordsOfSequence wordsOfSequence words
    rw [mul_one]
  · rfl

/-- A block matches one pass through its alternatives and whatever may be repeated of them. -/
theorem mul_repeated_le_words :
    wordsOfAlternatives v ρ alternatives *
        wordsOfSequence v ρ (Layout.repeated repetition greedy alternatives) ≤
      (Phrase.block repetition greedy alternatives).words v ρ := by
  rw [wordsOfSequence_repeated]
  cases repetition with
  | once => exact (mul_one _).le
  | optional => exact (mul_one _).le.trans (le_add_right (le_refl _))
  | zeroOrMore => exact mul_kstar_le_kstar
  | oneOrMore => exact le_refl _

theorem one_le_words_of_canSkip (h : repetition.canSkip = true) :
    1 ≤ (Phrase.block repetition greedy alternatives).words v ρ := by
  cases repetition with
  | once => simp [Repetition.canSkip] at h
  | optional => exact le_add_left (le_refl _)
  | zeroOrMore => exact one_le_kstar
  | oneOrMore => simp [Repetition.canSkip] at h

theorem prefixesOfAlternatives_le_prefixes :
    prefixesOfAlternatives v ρ π alternatives ≤
      (Phrase.block repetition greedy alternatives).prefixes v ρ π := by
  have hone : prefixesOfAlternatives v ρ π alternatives ≤
      (wordsOfAlternatives v ρ alternatives)∗ * prefixesOfAlternatives v ρ π alternatives :=
    (one_mul (prefixesOfAlternatives v ρ π alternatives)).symm.le.trans
      (mul_le_mul' one_le_kstar (le_refl _))
  cases repetition with
  | once => exact le_refl _
  | optional => exact le_refl _
  | zeroOrMore => exact hone
  | oneOrMore => exact hone

/-- The runs through a loop are those through its repetitions. -/
theorem prefixes_of_isLoop (hloop : repetition.isLoop = true) :
    (Phrase.block repetition greedy alternatives).prefixes v ρ π =
      (wordsOfAlternatives v ρ alternatives)∗ * prefixesOfAlternatives v ρ π alternatives := by
  cases repetition with
  | once => simp [Repetition.isLoop] at hloop
  | optional => simp [Repetition.isLoop] at hloop
  | zeroOrMore => rfl
  | oneOrMore => rfl

/-- A run that goes on behind one pass through the alternatives of a block stops in a repetition of
the block or behind the block. -/
theorem mul_prefixesOfSequence_repeated_le :
    wordsOfAlternatives v ρ alternatives *
        prefixesOfSequence v ρ π (Layout.repeated repetition greedy alternatives ++ rest) ≤
      (Phrase.block repetition greedy alternatives).prefixes v ρ π +
        (Phrase.block repetition greedy alternatives).words v ρ *
          prefixesOfSequence v ρ π rest := by
  have hwords : wordsOfAlternatives v ρ alternatives * _ ≤ _ :=
    @mul_repeated_le_words v ρ repetition greedy alternatives
  rw [wordsOfSequence_repeated] at hwords
  by_cases hloop : repetition.isLoop = true
  · rw [if_pos hloop] at hwords
    rw [Layout.repeated, if_pos hloop, List.singleton_append, prefixesOfSequence, mul_add,
      prefixes_of_isLoop hloop, prefixes_of_isLoop rfl, ← mul_assoc, ← mul_assoc, words]
    exact add_le_add (mul_le_mul' mul_kstar_le_kstar (le_refl _))
      (mul_le_mul' hwords (le_refl _))
  · rw [if_neg hloop, mul_one] at hwords
    unfold Layout.repeated
    rw [if_neg hloop, List.nil_append]
    exact le_add_left (mul_le_mul' hwords (le_refl _))

namespace Explains

theorem first (hs : s ∈ p.prefixes v ρ π) : Explains v ρ π (p :: rest) (.complete s) := Or.inl hs

theorem prepend (hu : u ∈ p.words v ρ) (h : Explains v ρ π rest m) :
    Explains v ρ π (p :: rest) (m.prepend u) := by
  cases m with
  | unfinished w => exact Language.append_mem_mul hu h
  | complete s => exact Or.inr (Language.append_mem_mul hu h)

theorem skip (hp : 1 ≤ p.words v ρ) (h : Explains v ρ π rest m) :
    Explains v ρ π (p :: rest) m := by
  rw [← Member.prepend_nil m]
  exact prepend (hp Language.nil_mem_one) h

/-- A loop that is left need not be repeated. -/
theorem leave (h : Explains v ρ π rest m) :
    Explains v ρ π (Layout.repeated repetition greedy alternatives ++ rest) m := by
  unfold Layout.repeated
  split
  · exact skip one_le_kstar h
  · exact h

/-- A loop that is entered again is repeated. -/
theorem again (hloop : repetition.isLoop = true)
    (h : Explains v ρ π (.block repetition greedy alternatives :: rest) m) :
    Explains v ρ π (Layout.repeated repetition greedy alternatives ++ rest) m := by
  have hwords : (Phrase.block repetition greedy alternatives).words v ρ ≤
      (wordsOfAlternatives v ρ alternatives)∗ := by
    cases repetition with
    | once => simp [Repetition.isLoop] at hloop
    | optional => simp [Repetition.isLoop] at hloop
    | zeroOrMore => exact le_refl _
    | oneOrMore => exact mul_kstar_le_kstar
  unfold Layout.repeated
  rw [if_pos hloop]
  cases m with
  | unfinished w => exact mul_le_mul' hwords (le_refl _) h
  | complete s =>
    exact add_le_add (prefixes_of_isLoop hloop).le (mul_le_mul' hwords (le_refl _)) h

/-- A block is entered through one of its alternatives. -/
theorem enter {qs : List Phrase} (hqs : qs ∈ alternatives)
    (h : Explains v ρ π (qs ++ (Layout.repeated repetition greedy alternatives ++ rest)) m) :
    Explains v ρ π (.block repetition greedy alternatives :: rest) m := by
  have hw : wordsOfSequence v ρ qs ≤ wordsOfAlternatives v ρ alternatives :=
    fun w hw => mem_wordsOfAlternatives.2 ⟨qs, hqs, hw⟩
  have hs : prefixesOfSequence v ρ π qs ≤ prefixesOfAlternatives v ρ π alternatives :=
    fun s hs => mem_prefixesOfAlternatives.2 (Or.inr ⟨qs, hqs, hs⟩)
  cases m with
  | unfinished w =>
    refine (?_ : wordsOfSequence v ρ _ ≤ wordsOfSequence v ρ _) h
    rw [wordsOfSequence_append, wordsOfSequence_append, ← mul_assoc, wordsOfSequence]
    exact mul_le_mul' ((mul_le_mul' hw (le_refl _)).trans mul_repeated_le_words) (le_refl _)
  | complete s =>
    refine (?_ : prefixesOfSequence v ρ π _ ≤ prefixesOfSequence v ρ π _) h
    calc prefixesOfSequence v ρ π (qs ++ (Layout.repeated repetition greedy alternatives ++ rest))
        ≤ prefixesOfSequence v ρ π qs + wordsOfSequence v ρ qs *
            prefixesOfSequence v ρ π (Layout.repeated repetition greedy alternatives ++ rest) :=
          prefixesOfSequence_append_le _ _
      _ ≤ prefixesOfAlternatives v ρ π alternatives + wordsOfAlternatives v ρ alternatives *
            prefixesOfSequence v ρ π (Layout.repeated repetition greedy alternatives ++ rest) :=
          add_le_add hs (mul_le_mul' hw (le_refl _))
      _ ≤ prefixesOfSequence v ρ π (.block repetition greedy alternatives :: rest) :=
          add_le (prefixesOfAlternatives_le_prefixes.trans (le_add_right (le_refl _)))
            mul_prefixesOfSequence_repeated_le

/-- Alternatives that nothing stands behind: unfinished sequences are their words. -/
theorem once_unfinished (h : Explains v ρ π [.block .once greedy alternatives] (.unfinished w)) :
    w ∈ wordsOfAlternatives v ρ alternatives := by
  rwa [Explains, wordsOfSequence, wordsOfSequence, mul_one] at h

/-- Alternatives that nothing stands behind: complete sequences are emitted by runs through them. -/
theorem once_complete (h : Explains v ρ π [.block .once greedy alternatives] (.complete s)) :
    s ∈ prefixesOfAlternatives v ρ π alternatives := by
  rcases h with hemitted | hword
  · exact hemitted
  · rw [prefixesOfSequence, mul_one] at hword
    exact wordsOfAlternatives_le_prefixes alternatives hword

end Explains

end Phrase

namespace Layout

variable {g : Grammar} {names : Names} {ρ π : Meaning} {node : Node} {place : Option Node} {d : Nat}
  {c : Context} {m : Member} {ps : List Phrase}

/-- The blocks that calls lead to leave the alternatives of the rules that are called. -/
def CallsLeave (g : Grammar) (names : Names) (ρ π : Meaning) : Prop :=
  ∀ name r, g.rule? (names.rule name) = some r → ∃ greedy alternatives,
    Leaves g names (.block r.block) [.block .once greedy alternatives] ∧
      Phrase.wordsOfAlternatives names.vocabulary ρ alternatives ≤ ρ name ∧
      Phrase.prefixesOfAlternatives names.vocabulary ρ π alternatives ≤ π name

/-- A walk inside a rule sees nothing but what the phrases that are left of the rule explain. -/
theorem explains_of_sees (hvoc : g.vocabulary = names.vocabulary)
    (hcalls : CallsLeave g names ρ π) (hs : g.Sees place d c m) (hc : c = .callSite)
    (hplace : place = some node) (h : Leaves g names node ps) :
    Phrase.Explains names.vocabulary ρ π ps m := by
  induction hs generalizing node ps with
  | nothing => cases hplace
  | @lastToken id e t d c he ht hd =>
    cases hplace
    obtain ⟨p, rest, n, rfl, -, -, -, hprefixes⟩ := (h.goes hvoc he).of_token ht
    refine .first ?_
    rw [hprefixes]
    exact Or.inr ⟨t, ht, rfl⟩
  | @token id e t d c m he ht heof hd hs ih =>
    cases hplace
    obtain ⟨p, rest, n, rfl, hn, hrest, hwords, -⟩ := (h.goes hvoc he).of_token ht
    refine .prepend ?_ (ih hc (by rw [hn]; rfl) hrest)
    rw [hwords]
    exact ⟨t, ht, rfl⟩
  | @called id e name target r d c s he hk hr hs ih =>
    cases hplace
    obtain ⟨rest, n, rfl, rfl, -, -⟩ := (h.goes hvoc he).of_reference hk
    obtain ⟨greedy, alternatives, hleaves, -, hprefixes⟩ := hcalls name r hr
    exact .first (hprefixes (ih rfl rfl hleaves).once_complete)
  | @returned id e name target r d c p m he hk hr hp hs ihp ih =>
    cases hplace
    obtain ⟨rest, n, rfl, rfl, hn, hrest⟩ := (h.goes hvoc he).of_reference hk
    obtain ⟨greedy, alternatives, hleaves, hwords, -⟩ := hcalls name r hr
    have hword := (ihp rfl rfl hleaves).once_unfinished
    exact .prepend (hwords hword) (ih hc (by rw [hn]; rfl) hrest)
  | @entered id e b d c m he hk hs ih =>
    cases hplace
    exact ih hc rfl ((h.goes hvoc he).of_inner hk)
  | @left id e b blk d c m he hk hb hs ih =>
    cases hplace
    obtain ⟨repetition, greedy, alternatives, rest, rfl, -, hexit, -⟩ :=
      (h.goes hvoc he).of_blockEnd hk hb
    exact .leave (ih hc rfl hexit)
  | @repeated id e b blk d c m he hk hb hloop hs ih =>
    cases hplace
    obtain ⟨repetition, greedy, alternatives, rest, rfl, hkind, -, hagain⟩ :=
      (h.goes hvoc he).of_blockEnd hk hb
    rw [hkind] at hloop
    exact .again hloop (ih hc rfl hagain)
  | @ended id e target d he hk =>
    cases hplace
    rw [(h.goes hvoc he).of_ruleEnd hk]
    exact Language.nil_mem_one
  | endOfInput => cases hc
  | followed => cases hc
  | @branch b blk n d c m hb hn hs ih =>
    cases hplace
    obtain ⟨repetition, greedy, alternatives, rest, rfl, hskip, halternatives⟩ := h.block_inv hb
    rw [Grammar.entries, List.mem_append, List.mem_map] at hn
    rcases hn with ⟨a, ha, rfl⟩ | hn
    · obtain ⟨qs, hqs, hleaves⟩ := halternatives a ha
      exact .enter hqs (ih hc rfl hleaves)
    · split at hn
      · rename_i hcan
        rw [List.mem_singleton.1 hn] at ih
        obtain ⟨hcan, hexit⟩ := hskip hcan
        exact .skip (Phrase.one_le_words_of_canSkip hcan) (ih hc rfl hexit)
      · simp at hn

end Layout

end GrammarLookahead
