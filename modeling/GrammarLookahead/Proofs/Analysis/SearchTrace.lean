import Mathlib.Logic.Relation
import GrammarLookahead.Proofs.Analysis.ExpansionReads
import GrammarLookahead.Proofs.Analysis.SearchStep

/-!
The keys that a search expands. Each of them lies some steps beyond the key of the search, and at
the end of the search the finished keys form a closed set around that key; so every key that was
expanded is finished in the end, whatever was dropped when rounds were repeated. Main statement:
`Search.Tracks.mem_cache`.
-/

namespace GrammarLookahead.Search

open Relation (ReflTransGen)

/-- The key whose expansion begins between two states of a search: the later one has counted one
more expansion and goes on with the round of the key. -/
def begun? (s t : Search) : Option Key :=
  match t.control with
  | .run round _ =>
    if s.memory.work.expansions < t.memory.work.expansions then some round.key else none
  | _ => none

/-- The keys that a search expands in a number of steps, in order; a key that is expanded in several
rounds is listed as often. -/
def expanded (g : Grammar) : Nat → Search → List Key
  | 0, _ => []
  | n + 1, s =>
    if s.isOver then [] else (begun? s (s.step g)).toList ++ expanded g n (s.step g)

variable {g : Grammar} {depth cost n : Nat} {start key q : Key} {s t : Search} {known : Memory}
  {keys waiting : List Key} {round : Round} {result : LookaheadSet}

theorem work_commit :
    ((s.grow round result).commit round result).memory.work = s.memory.work := by
  obtain ⟨_, _, _, heq⟩ := foldl_finishPending_eq round.waiting (s.grow round result)
  unfold commit Memory.finish
  rw [heq, ← @memory_grow s result round]

theorem expansions_again : ((s.grow round result).again g round).memory.work.expansions =
    s.memory.work.expansions + 1 := by
  show (s.grow round result).memory.work.expansions + 1 = _
  rw [memory_grow]

theorem work_noteLeftRecursion (m : Memory) (key : Key) :
    (noteLeftRecursion g m key).work = m.work := by
  obtain ⟨rules, h⟩ := @noteLeftRecursion_eq g m key
  rw [h]

theorem begun?_of_counted {reading : Reading LookaheadSet}
    (hcontrol : t.control = .run round reading)
    (hcount : t.memory.work.expansions = s.memory.work.expansions + 1) :
    begun? s t = some round.key := by
  unfold begun?
  rw [hcontrol, hcount]
  exact if_pos (Nat.lt_succ_self _)

theorem begun?_of_same (hcount : t.memory.work.expansions = s.memory.work.expansions) :
    begun? s t = none := by
  unfold begun?
  split
  · exact if_neg (by omega)
  · rfl

/-- The expansions that a search counts are those of the keys that it lists. -/
theorem Move.expansions (h : Move g s t) : t.memory.work.expansions =
    s.memory.work.expansions + (begun? s t).toList.length := by
  cases h with
  | recalled => rfl
  | reused => rfl
  | metAgain =>
    show (noteLeftRecursion g _ _).work.expansions = _
    rw [work_noteLeftRecursion]
    rfl
  | begun => rw [begun?_of_counted rfl rfl]; rfl
  | asked => rfl
  | resumed =>
    rw [begun?_of_same]
    · rfl
    · rfl
  | postponed =>
    show (s.grow _ _).memory.work.expansions = _
    rw [memory_grow]
    rfl
  | repeated =>
    rw [begun?_of_counted rfl expansions_again, expansions_again]
    rfl
  | committed => exact congrArg Work.expansions work_commit
  | broke => rfl
  | stopped => rw [begun?_of_same rfl]; rfl

theorem expansions_run : (run g n s).memory.work.expansions =
    s.memory.work.expansions + (expanded g n s).length := by
  induction n generalizing s with
  | zero => rfl
  | succ n ih =>
    rw [run, expanded]
    split
    · rfl
    · rw [ih, (move_step g s).expansions, List.length_append, Nat.add_assoc]

theorem mem_provisional_foldl_finishPending (hnodup : waiting.Nodup)
    (hpending : ∀ k ∈ waiting, k ∈ s.pending)
    (h : q ∈ (waiting.foldl finishPending s).provisional) : q ∈ s.provisional ∧ q ∉ waiting := by
  induction waiting generalizing s with
  | nil => exact ⟨h, List.not_mem_nil⟩
  | cons k waiting ih =>
    rw [List.nodup_cons] at hnodup
    obtain ⟨⟨result, floor⟩, hk⟩ := Option.isSome_iff_exists.1
      (Std.HashMap.mem_iff_isSome_getElem?.1 (hpending k (by simp)))
    have hkept : ∀ q ∈ waiting, q ∈ s.pending.erase k := by
      intro q hq
      have hne : k ≠ q := fun heq => hnodup.1 (heq ▸ hq)
      exact Std.HashMap.mem_erase.2 ⟨by simpa using hne, hpending q (by simp [hq])⟩
    rw [List.foldl_cons, finishPending_of_pending hk] at h
    obtain ⟨hq, hrest⟩ := ih hnodup.2 hkept h
    rw [Std.HashMap.mem_erase] at hq
    refine ⟨hq.2, fun hmem => (List.mem_cons.1 hmem).elim (fun heq => ?_) hrest⟩
    simp [heq] at hq

theorem mem_provisional_grow (h : q ∈ (s.grow round result).provisional) :
    q ∈ s.provisional ∨ q = round.key := by
  unfold grow at h
  split at h
  · rw [Std.HashMap.mem_insert, beq_iff_eq] at h
    exact h.symm.imp_right Eq.symm
  · exact Or.inl h

variable (g) in
/-- What holds of the keys that a search for `start` has expanded since it had the memory `known`. -/
structure Tracks (start : Key) (known : Memory) (keys : List Key) (s : Search) : Prop where
  reached : ∀ k ∈ keys, ReflTransGen (g.Asks g.lookahead) start k
  held : ∀ k ∈ held s.rounds, k ∈ keys
  kept : ∀ k ∈ known.cache, k ∈ s.memory.cache
  finished : ∀ k ∈ s.memory.cache, k ∈ known.cache ∨ k ∈ keys
  provisional : ∀ k ∈ s.provisional, k ∈ keys ∧ k ∉ s.memory.cache

theorem tracks_start (m : Memory) :
    Tracks g start m [] { control := .look start, memory := m } := by
  refine ⟨by simp, by simp [rounds, Search.held], fun _ => id, fun _ => Or.inl, fun k hk => ?_⟩
  exact absurd hk Std.HashMap.not_mem_empty

/-- Moves that begin nothing and leave the finished and the provisional results as they are. -/
theorem Tracks.of_same (h : Tracks g start known keys s) (hcache : t.memory.cache = s.memory.cache)
    (hprovisional : t.provisional = s.provisional)
    (hheld : ∀ k ∈ Search.held t.rounds, k ∈ Search.held s.rounds) :
    Tracks g start known keys t := by
  refine ⟨h.reached, fun k hk => h.held k (hheld k hk), ?_, ?_, ?_⟩
  · rw [hcache]
    exact h.kept
  · rw [hcache]
    exact h.finished
  · rw [hcache, hprovisional]
    exact h.provisional

/-- A key is answered without being expanded. -/
theorem Tracks.answer (h : Tracks g start known keys s) (hcontrol : s.control = .look key)
    (hanswer : t.control = .answer result) (hcache : t.memory.cache = s.memory.cache)
    (hprovisional : t.provisional = s.provisional)
    (hstack : List.Forall₂ FrameExtends s.stack t.stack) : Tracks g start known keys t := by
  refine h.of_same hcache hprovisional fun k hk => ?_
  rw [rounds_of_look hcontrol]
  rw [rounds_of_answer hanswer] at hk
  rwa [← held_eq_of_extends (forall₂_rounds hstack)]

/-- A key that a search comes to lies some steps beyond its start. -/
theorem Tracks.reached_next (hw : Tracks g start known keys s) (h : Invariant g depth start s cost)
    (hcontrol : s.control = .look key) : ReflTransGen (g.Asks g.lookahead) start key := by
  obtain ⟨c, -, hinv⟩ := h.of_look hcontrol
  have hheld := hw.held
  rw [rounds_of_look hcontrol] at hheld
  generalize s.stack = stack at hinv hheld
  cases hinv with
  | nil => exact .refl
  | @cons f below _ n c hround hbelow =>
    have hasks := (hround.meets _ h.keys.below (Grammar.Below.refl _)).1
    exact (hw.reached _ (hheld _ (by simp))).tail hasks

theorem Tracks.begin (hw : Tracks g start known keys s) (h : Invariant g depth start s cost)
    (hcontrol : s.control = .look key) :
    Tracks g start known (keys ++ [key]) (s.begin g key) := by
  have hreached := hw.reached_next h hcontrol
  refine ⟨fun k hk => ?_, fun k hk => ?_, hw.kept, fun k hk => ?_, fun k hk => ?_⟩
  · rcases List.mem_append.1 hk with hk | hk
    · exact hw.reached k hk
    · exact List.mem_singleton.1 hk ▸ hreached
  · rcases mem_held_cons.1 hk with rfl | hk | hk
    · simp
    · exact absurd hk List.not_mem_nil
    · exact List.mem_append_left _ (hw.held k (rounds_of_look hcontrol ▸ hk))
  · exact (hw.finished k hk).imp_right (List.mem_append_left _)
  · exact (hw.provisional k hk).imp_left (List.mem_append_left _)

section

variable (hw : Tracks g start known keys s) (hg : g.Linked) (h : Invariant g depth start s cost)
  (hcontrol : s.control = .run round (.done result))
include hw hg h hcontrol

omit hg h in
theorem Tracks.ended : ∀ k, k = round.key ∨ k ∈ round.waiting ∨
    k ∈ Search.held (s.stack.map Frame.round) → k ∈ keys := by
  intro k hk
  apply hw.held k
  rw [rounds_of_run hcontrol]
  exact mem_held_cons.2 hk

/-- The key of a round that ends may have gained a provisional value; other keys have not. -/
theorem Tracks.provisional_grow (hq : q ∈ (s.grow round result).provisional) :
    q ∈ keys ∧ q ∉ s.memory.cache := by
  obtain ⟨_, _, -, -, -, -, -, hcache, -⟩ := h.ended hg hcontrol
  rcases mem_provisional_grow hq with hq | rfl
  · exact hw.provisional q hq
  · exact ⟨hw.ended hcontrol _ (Or.inl rfl), hcache⟩

theorem Tracks.again :
    Tracks g start known (keys ++ [round.key]) ((s.grow round result).again g round) := by
  have hkey : round.key ∈ keys := hw.ended hcontrol _ (Or.inl rfl)
  have hcache : ((s.grow round result).again g round).memory.cache = s.memory.cache := by
    show (s.grow round result).memory.cache = _
    rw [memory_grow]
  have hmem : ∀ k, k ∈ keys ++ [round.key] ↔ k ∈ keys := by
    intro k
    simp only [List.mem_append, List.mem_singleton, or_iff_left_iff_imp]
    rintro rfl
    exact hkey
  refine ⟨fun k hk => hw.reached k ((hmem k).1 hk), fun k hk => ?_, ?_, ?_, fun k hk => ?_⟩
  · rw [rounds_again] at hk
    refine (hmem k).2 (hw.ended hcontrol k ((mem_held_cons.1 hk).imp_right fun hk => ?_))
    exact Or.inr (hk.resolve_left List.not_mem_nil)
  · rw [hcache]
    exact hw.kept
  · rw [hcache]
    exact fun k hk => (hw.finished k hk).imp_right (hmem k).2
  · rw [hcache, hmem]
    exact hw.provisional_grow hg h hcontrol hk

theorem Tracks.postpone {floor : Nat} (hlt : floor < s.stack.length) :
    Tracks g start known keys ((s.grow round result).postpone round result
      (round.unstable || s.grew round result) floor) := by
  obtain ⟨_, _, -, -, -, -, -, hunfinished, -⟩ := h.ended hg hcontrol
  obtain ⟨f, frames, hframes⟩ : ∃ f frames, s.stack = f :: frames :=
    List.exists_cons_of_length_pos (Nat.zero_lt_of_lt hlt)
  have hended := hw.ended hcontrol
  rw [hframes, List.map_cons] at hended
  have hcache : ((s.grow round result).postpone round result
      (round.unstable || s.grew round result) floor).memory.cache = s.memory.cache := by
    show (s.grow round result).memory.cache = _
    rw [memory_grow]
  refine ⟨hw.reached, fun k hk => ?_, ?_, ?_, fun k hk => ?_⟩
  · rw [rounds_postpone hframes, mem_held_receive, mem_held_cons] at hk
    exact hended k hk
  · rw [hcache]
    exact hw.kept
  · rw [hcache]
    exact hw.finished
  · rw [hcache]
    rcases Std.HashMap.mem_insert.1 hk with heq | hk
    · obtain rfl : round.key = k := by simpa using heq
      exact ⟨hended _ (Or.inl rfl), hunfinished⟩
    · exact hw.provisional_grow hg h hcontrol hk

theorem Tracks.commit :
    Tracks g start known keys ((s.grow round result).commit round result) := by
  obtain ⟨_, _, -, hkeys, hround, -⟩ := h.ended hg hcontrol
  obtain ⟨-, hnodup, -⟩ := hkeys.apart
  have hended := hw.ended hcontrol
  have hpending : ∀ k ∈ round.waiting, k ∈ (s.grow round result).pending := by
    intro k hk
    obtain ⟨f, hf, -⟩ := hround.waits k hk
    rw [pending_grow, Std.HashMap.mem_iff_isSome_getElem?]
    exact Option.isSome_iff_exists.2 ⟨_, hf⟩
  have hcache : ∀ k, k ∈ ((s.grow round result).commit round result).memory.cache ↔
      k ∈ s.memory.cache ∨ k ∈ round.waiting ∨ k = round.key := fun k =>
    h.mem_cache_commit hg hcontrol
  refine ⟨hw.reached, fun k hk => ?_, fun k hk => ?_, fun k hk => ?_, fun k hk => ?_⟩
  · rw [rounds_commit] at hk
    exact hended k (Or.inr (Or.inr hk))
  · exact (hcache k).2 (Or.inl (hw.kept k hk))
  · rcases (hcache k).1 hk with hk | hk | hk
    · exact hw.finished k hk
    · exact Or.inr (hended k (Or.inr (Or.inl hk)))
    · exact Or.inr (hended k (Or.inl hk))
  · obtain ⟨hne, hk⟩ := Std.HashMap.mem_erase.1 hk
    obtain ⟨hk, hnot⟩ := mem_provisional_foldl_finishPending hnodup hpending hk
    obtain ⟨hmem, hunfinished⟩ := hw.provisional_grow hg h hcontrol hk
    refine ⟨hmem, fun hfin => ?_⟩
    rcases (hcache k).1 hfin with hfin | hfin | rfl
    · exact hunfinished hfin
    · exact hnot hfin
    · simp at hne

end

/-- What one step adds to the keys that were expanded. -/
theorem Tracks.step (hw : Tracks g start known keys s) (hg : g.Linked)
    (h : Invariant g depth start s cost) :
    Tracks g start known (keys ++ (begun? s (s.step g)).toList) (s.step g) := by
  have hmove := move_step g s
  generalize s.step g = t at hmove ⊢
  have hsame : begun? s t = none → Tracks g start known keys t →
      Tracks g start known (keys ++ (begun? s t).toList) t := fun hnone ht => by
    rwa [hnone, Option.toList_none, List.append_nil]
  cases hmove with
  | recalled hcontrol _ =>
    exact hsame rfl (hw.answer hcontrol rfl rfl rfl (forall₂_frameExtends_refl _))
  | @reused key result floor hcontrol _ _ =>
    have hframes := forall₂_mapTop (fun r => extends_lowerFloor r floor) s.stack
    exact hsame rfl (hw.answer hcontrol rfl rfl rfl hframes)
  | metAgain hcontrol _ _ =>
    refine hsame rfl (hw.answer hcontrol rfl ?_ rfl (forall₂_breakCycle _))
    exact cache_noteLeftRecursion _ _
  | begun hcontrol _ _ _ =>
    rw [begun?_of_counted rfl rfl]
    exact hw.begin h hcontrol
  | asked hcontrol =>
    refine hsame rfl (hw.of_same rfl rfl ?_)
    simp only [rounds, hcontrol, List.map_cons]
    exact fun _ => id
  | resumed hcontrol hstack =>
    refine hsame (begun?_of_same rfl) (hw.of_same rfl rfl ?_)
    simp only [rounds, hcontrol, hstack, List.map_cons]
    exact fun _ => id
  | postponed hcontrol _ hlt => exact hsame rfl (hw.postpone hg h hcontrol hlt)
  | repeated hcontrol _ _ =>
    rw [begun?_of_counted rfl expansions_again]
    exact hw.again hg h hcontrol
  | committed hcontrol _ _ => exact hsame rfl (hw.commit hg h hcontrol)
  | broke hcontrol => exact (h.not_breaking hcontrol).elim
  | stopped _ => exact hsame (begun?_of_same rfl) hw

/-- A run adds the keys that it expands. -/
theorem Tracks.run (hw : Tracks g start known keys s) (hg : g.Linked)
    (h : Invariant g depth start s cost) :
    Tracks g start known (keys ++ expanded g n s) (run g n s) := by
  induction n generalizing s cost keys with
  | zero => rwa [expanded, List.append_nil]
  | succ n ih =>
    rw [Search.run, expanded]
    cases hover : s.isOver with
    | true => rwa [if_pos rfl, if_pos rfl, List.append_nil]
    | false =>
      obtain ⟨cost', h', -⟩ := h.step hg hover
      rw [if_neg Bool.false_ne_true, if_neg Bool.false_ne_true, ← List.append_assoc]
      exact ih (hw.step hg h) h'

/-- A search that is over and has nothing left in its tables. -/
structure AtRest (s : Search) : Prop where
  isOver : s.isOver = true
  /-- No round is left, and with the rounds went their floors, marks and lists of waiting keys. -/
  rounds : s.rounds = []
  pending : s.pending.isEmpty = true
  provisional : s.provisional.isEmpty = true

section

variable (hw : Tracks g start known keys s) (hg : g.Linked) (h : Invariant g depth start s cost)
  (hover : s.isOver = true)
include hw hg h hover

/-- At the end of a search the finished keys form a closed set around the key of the search, which
no expanded key lies outside of. -/
theorem Tracks.finished_of_mem (hk : q ∈ keys) : q ∈ s.memory.cache ∧ g.HasKey depth q := by
  have hreached := hw.reached q hk
  have hfits := hg.fits_lookahead depth
  clear hk
  induction hreached with
  | refl => exact ⟨(h.answered hover).2.2, h.hasKey⟩
  | @tail a b _ hasks ih =>
    obtain ⟨hfin, hhas⟩ := ih
    exact ⟨h.keys.closed a hfin b (hasks.mem_keysRead hg hfits hhas), (hasks.hasKey hg hfits hhas).1⟩

/-- At the end of a search the finished keys are those that were finished before and those that the
search has expanded. -/
theorem Tracks.mem_cache : q ∈ s.memory.cache ↔ q ∈ known.cache ∨ q ∈ keys := by
  refine ⟨hw.finished q, ?_⟩
  rintro (hk | hk)
  · exact hw.kept q hk
  · exact (hw.finished_of_mem hg h hover hk).1

theorem Tracks.atRest : s.AtRest := by
  obtain ⟨hcontrol, hstack, -⟩ := h.answered hover
  have hrounds : s.rounds = [] := by
    unfold Search.rounds
    rw [hcontrol, hstack]
    rfl
  refine ⟨hover, hrounds, ?_, ?_⟩
  · rw [Std.HashMap.isEmpty_iff_forall_not_mem]
    intro k hk
    obtain ⟨entry, hentry⟩ := Option.isSome_iff_exists.1 (Std.HashMap.mem_iff_isSome_getElem?.1 hk)
    have hwaits := h.keys.pending k entry hentry
    rw [hrounds] at hwaits
    exact absurd hwaits List.not_mem_nil
  · rw [Std.HashMap.isEmpty_iff_forall_not_mem]
    intro k hk
    obtain ⟨hmem, hunfinished⟩ := hw.provisional k hk
    exact hunfinished (hw.finished_of_mem hg h hover hmem).1

end

end GrammarLookahead.Search
