import Mathlib.Computability.Language
import Mathlib.Order.FixedPoints
import Mathlib.Order.CompletePartialOrder
import GrammarLookahead.LookaheadSet.Basic
import GrammarLookahead.Proofs.Grammar.NamedRules

/-!
The language of a description. A phrase stands for the words that it matches and for the beginnings
of words that a run through it emits from left to right; where it calls a rule, both depend on what
the rules stand for. The languages of the rules are the least ones that agree with their
alternatives.
-/

namespace GrammarLookahead

open scoped Computability

/-- A language for every rule name. -/
abbrev Meaning := String → Language TokenId

/-- The words that consist of one of several tokens. -/
def oneOf (tokens : List TokenId) : Language TokenId := {w | ∃ t ∈ tokens, w = [t]}

@[simp] theorem mem_oneOf {tokens : List TokenId} {w : TokenSeq} :
    w ∈ oneOf tokens ↔ ∃ t ∈ tokens, w = [t] := Iff.rfl

namespace Phrase

variable (v : Vocabulary) (ρ π : Meaning)

mutual

/-- The words that a phrase matches, given the words of the rules. -/
def words : Phrase → Language TokenId
  | .token name => oneOf [v.idOf name]
  | .notToken name => oneOf (v.matchable.filter (· ≠ v.idOf name))
  | .wildcard => oneOf v.matchable
  | .call rule => ρ rule
  | .block .once _ alternatives => wordsOfAlternatives alternatives
  | .block .optional _ alternatives => wordsOfAlternatives alternatives + 1
  | .block .zeroOrMore _ alternatives => (wordsOfAlternatives alternatives)∗
  | .block .oneOrMore _ alternatives =>
    wordsOfAlternatives alternatives * (wordsOfAlternatives alternatives)∗

def wordsOfSequence : List Phrase → Language TokenId
  | [] => 1
  | p :: ps => p.words * wordsOfSequence ps

def wordsOfAlternatives : List (List Phrase) → Language TokenId
  | [] => 0
  | ps :: rest => wordsOfSequence ps + wordsOfAlternatives rest

end

mutual

/-- What a run through a phrase has emitted when it stops on the way, given the words of the rules
and what runs through the rules emit. -/
def prefixes : Phrase → Language TokenId
  | .token name => 1 + oneOf [v.idOf name]
  | .notToken name => 1 + oneOf (v.matchable.filter (· ≠ v.idOf name))
  | .wildcard => 1 + oneOf v.matchable
  | .call rule => π rule
  | .block .once _ alternatives | .block .optional _ alternatives =>
    prefixesOfAlternatives alternatives
  | .block .zeroOrMore _ alternatives | .block .oneOrMore _ alternatives =>
    (wordsOfAlternatives v ρ alternatives)∗ * prefixesOfAlternatives alternatives

def prefixesOfSequence : List Phrase → Language TokenId
  | [] => 1
  | p :: ps => p.prefixes + p.words v ρ * prefixesOfSequence ps

def prefixesOfAlternatives : List (List Phrase) → Language TokenId
  | [] => 1
  | ps :: rest => prefixesOfSequence ps + prefixesOfAlternatives rest

end

variable {v} {ρ π} {σ : Meaning}

mutual

theorem words_mono (h : ρ ≤ σ) : ∀ p : Phrase, p.words v ρ ≤ p.words v σ
  | .token _ | .notToken _ | .wildcard => by simp only [words, le_refl]
  | .call rule => h rule
  | .block repetition _ alternatives => by
    have hmono := wordsOfAlternatives_mono h alternatives
    cases repetition with
    | once => exact hmono
    | optional => exact add_le_add_left hmono 1
    | zeroOrMore => exact kstar_mono hmono
    | oneOrMore => exact mul_le_mul' hmono (kstar_mono hmono)

theorem wordsOfSequence_mono (h : ρ ≤ σ) :
    ∀ ps : List Phrase, wordsOfSequence v ρ ps ≤ wordsOfSequence v σ ps
  | [] => le_refl _
  | p :: ps => mul_le_mul' (words_mono h p) (wordsOfSequence_mono h ps)

theorem wordsOfAlternatives_mono (h : ρ ≤ σ) :
    ∀ pss : List (List Phrase), wordsOfAlternatives v ρ pss ≤ wordsOfAlternatives v σ pss
  | [] => le_refl _
  | ps :: rest => add_le_add (wordsOfSequence_mono h ps) (wordsOfAlternatives_mono h rest)

end

mutual

theorem prefixes_mono (h : π ≤ σ) : ∀ p : Phrase, p.prefixes v ρ π ≤ p.prefixes v ρ σ
  | .token _ | .notToken _ | .wildcard => by simp only [prefixes, le_refl]
  | .call rule => h rule
  | .block repetition _ alternatives => by
    have hmono := prefixesOfAlternatives_mono h alternatives
    cases repetition with
    | once => exact hmono
    | optional => exact hmono
    | zeroOrMore => exact mul_le_mul' (le_refl _) hmono
    | oneOrMore => exact mul_le_mul' (le_refl _) hmono

theorem prefixesOfSequence_mono (h : π ≤ σ) :
    ∀ ps : List Phrase, prefixesOfSequence v ρ π ps ≤ prefixesOfSequence v ρ σ ps
  | [] => le_refl _
  | p :: ps => add_le_add (prefixes_mono h p)
      (mul_le_mul' (le_refl _) (prefixesOfSequence_mono h ps))

theorem prefixesOfAlternatives_mono (h : π ≤ σ) :
    ∀ pss : List (List Phrase),
      prefixesOfAlternatives v ρ π pss ≤ prefixesOfAlternatives v ρ σ pss
  | [] => le_refl _
  | ps :: rest => add_le_add (prefixesOfSequence_mono h ps) (prefixesOfAlternatives_mono h rest)

end

/-- A run that does not stop on the way is one that stops at the end. -/
theorem wordsOfSequence_le_prefixes :
    ∀ ps : List Phrase, wordsOfSequence v ρ ps ≤ prefixesOfSequence v ρ π ps
  | [] => le_refl _
  | _ :: ps => le_add_left (mul_le_mul' (le_refl _) (wordsOfSequence_le_prefixes ps))

theorem wordsOfAlternatives_le_prefixes :
    ∀ pss : List (List Phrase), wordsOfAlternatives v ρ pss ≤ prefixesOfAlternatives v ρ π pss
  | [] => bot_le
  | ps :: rest =>
    add_le_add (wordsOfSequence_le_prefixes ps) (wordsOfAlternatives_le_prefixes rest)

end Phrase

namespace Description

variable (d : Description)

/-- The meaning that gives each name what the first rule of this name stands for. -/
def byRule (f : RuleDescription → Language TokenId) : Meaning :=
  fun name => (d.ruleNamed? name).elim 0 f

variable {d} {name : String} {r : RuleDescription} {f f' : RuleDescription → Language TokenId}

theorem byRule_eq (h : d.ruleNamed? name = some r) : d.byRule f name = f r := by
  unfold byRule
  rw [h, Option.elim_some]

theorem byRule_le {ρ : Meaning} (h : ∀ name r, d.ruleNamed? name = some r → f r ≤ ρ name) :
    d.byRule f ≤ ρ := by
  intro name
  cases hr : d.ruleNamed? name with
  | none =>
    unfold byRule
    rw [hr, Option.elim_none]
    exact bot_le
  | some r =>
    rw [byRule_eq hr]
    exact h name r hr

theorem byRule_mono (h : ∀ r, f r ≤ f' r) : d.byRule f ≤ d.byRule f' := by
  apply byRule_le
  intro name r hr
  rw [byRule_eq hr]
  exact h r

variable (d)

/-- The words of each rule according to its alternatives, given the words of all rules. -/
def wordsStep : Meaning →o Meaning where
  toFun ρ := d.byRule fun r => Phrase.wordsOfAlternatives d.vocabulary ρ r.alternatives
  monotone' _ _ h := byRule_mono fun r => Phrase.wordsOfAlternatives_mono h r.alternatives

/-- The language of a rule: the least solution over all rules. -/
def language : Meaning := d.wordsStep.lfp

/-- What runs through each rule emit according to its alternatives, given the same of all rules. -/
def prefixesStep : Meaning →o Meaning where
  toFun π :=
    d.byRule fun r => Phrase.prefixesOfAlternatives d.vocabulary d.language π r.alternatives
  monotone' _ _ h := byRule_mono fun r => Phrase.prefixesOfAlternatives_mono h r.alternatives

/-- What runs through a rule emit when they may stop on the way: the least solution over all
rules. -/
def prefixLanguage : Meaning := d.prefixesStep.lfp

variable {d}

theorem language_eq (h : d.ruleNamed? name = some r) :
    d.language name = Phrase.wordsOfAlternatives d.vocabulary d.language r.alternatives := by
  have hfixed : d.wordsStep d.language = d.language := d.wordsStep.map_lfp
  rw [← congrFun hfixed name]
  exact byRule_eq h

theorem prefixLanguage_eq (h : d.ruleNamed? name = some r) :
    d.prefixLanguage name =
      Phrase.prefixesOfAlternatives d.vocabulary d.language d.prefixLanguage r.alternatives := by
  have hfixed : d.prefixesStep d.prefixLanguage = d.prefixLanguage := d.prefixesStep.map_lfp
  rw [← congrFun hfixed name]
  exact byRule_eq h

/-- The languages lie below every meaning that contains what the alternatives give for it. -/
theorem language_le {ρ : Meaning}
    (h : ∀ name r, d.ruleNamed? name = some r →
      Phrase.wordsOfAlternatives d.vocabulary ρ r.alternatives ≤ ρ name) : d.language ≤ ρ :=
  d.wordsStep.lfp_le (byRule_le h)

theorem prefixLanguage_le {π : Meaning}
    (h : ∀ name r, d.ruleNamed? name = some r →
      Phrase.prefixesOfAlternatives d.vocabulary d.language π r.alternatives ≤ π name) :
    d.prefixLanguage ≤ π :=
  d.prefixesStep.lfp_le (byRule_le h)

end Description

end GrammarLookahead
