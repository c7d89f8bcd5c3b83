import GrammarLookahead.Proofs.Analysis.Safety

/-!
The values of a search only grow. What is held for a key, as a provisional value, as a result that
waits or as a finished one, is its value; no step takes a member away from a value, and every value
lies below the least solution. Main statements: `Search.Invariant.value_le_step` and
`Search.Tracks.holds`.
-/

namespace GrammarLookahead.Search

variable {g : Grammar} {depth cost n : Nat} {start key q : Key} {s : Search} {known : Memory}
  {keys : List Key} {round : Round} {a result : LookaheadSet}

theorem step_of_isOver (h : s.isOver = true) : s.step g = s := by
  unfold isOver at h
  unfold step
  split at h
  · simp_all
  · simp_all
  · exact absurd h Bool.false_ne_true

theorem run_succ : run g (n + 1) s = (run g n s).step g := by
  induction n generalizing s with
  | zero =>
    show (if s.isOver then s else s.step g) = s.step g
    cases hover : s.isOver with
    | true => rw [if_pos rfl, step_of_isOver hover]
    | false => rw [if_neg Bool.false_ne_true]
  | succ n ih =>
    cases hover : s.isOver with
    | true => rw [run_of_isOver hover, run_of_isOver hover, step_of_isOver hover]
    | false =>
      show (if s.isOver then s else run g (n + 1) (s.step g)) =
        (if s.isOver then s else run g n (s.step g)).step g
      rw [hover, if_neg Bool.false_ne_true, if_neg Bool.false_ne_true, ih]

/-- Every point of a run keeps the invariant of its beginning. -/
theorem Invariant.at_run (h : Invariant g depth start s cost) (hg : g.Linked) (n : Nat) :
    ∃ cost', Invariant g depth start (Search.run g n s) cost' :=
  (h.run_induction (P := fun _ => True) hg trivial (fun _ _ => trivial) n).1

/-- A search holds a set for a key. -/
inductive Holds (s : Search) (key : Key) (a : LookaheadSet) : Prop where
  | provisional (h : s.provisional[key]? = some a)
  | waiting {floor : Nat} (h : s.pending[key]? = some (a, floor))
  | finished (h : s.memory.cache[key]? = some a)

theorem Tracks.hasKey (hw : Tracks g start known keys s) (hg : g.Linked)
    (h : Invariant g depth start s cost) (hq : q ∈ keys) : g.HasKey depth q := by
  have hreached := hw.reached q hq
  clear hq
  induction hreached with
  | refl => exact h.hasKey
  | tail _ hasks ih => exact (hasks.hasKey hg (hg.fits_lookahead depth) ih).1

/-- What is held for a key is its value. -/
theorem Tracks.holds (hw : Tracks g start known keys s) (hg : g.Linked)
    (h : Invariant g depth start s cost) (hheld : s.Holds key a) :
    a = s.value key ∧ (key ∈ known.cache ∨ g.HasKey depth key) := by
  cases hheld with
  | provisional hp =>
    have hmem : key ∈ s.provisional := Std.HashMap.mem_iff_isSome_getElem?.2 (by rw [hp]; rfl)
    obtain ⟨hkey, hunfinished⟩ := hw.provisional key hmem
    refine ⟨?_, Or.inr (hw.hasKey hg h hkey)⟩
    rw [value_of_not_mem hunfinished, Std.HashMap.getD_eq_getD_getElem?, hp, Option.getD_some]
  | waiting hp =>
    obtain ⟨hkey, hvalue⟩ := h.waiting hp
    exact ⟨hvalue, Or.inr hkey⟩
  | finished hf =>
    have hmem : key ∈ s.memory.cache := Std.HashMap.mem_iff_isSome_getElem?.2 (by rw [hf]; rfl)
    exact ⟨(value_of_cache hf).symm, (hw.finished key hmem).imp_right (hw.hasKey hg h)⟩

/-- A step takes no member away from a value. -/
theorem Invariant.value_le_step (hg : g.Linked) (h : Invariant g depth start s cost) (k : Key) :
    s.value k ≤ (s.step g).value k := by
  have hmove := move_step g s
  generalize s.step g = t at hmove ⊢
  have hsame : t.view.value = s.value → s.value k ≤ t.value k := fun hvalue => by
    rw [show t.value = s.value from hvalue]
    exact LookaheadSet.le_refl _
  have hupdate : ∀ {q a}, t.view.value = Function.update s.value q a → s.value q ≤ a →
      s.value k ≤ t.value k := fun {q a} hvalue hle => by
    rw [show t.value = Function.update s.value q a from hvalue]
    by_cases hk : k = q
    · subst hk
      rwa [Function.update_self]
    · rw [Function.update_of_ne hk]
      exact LookaheadSet.le_refl _
  cases hmove with
  | metAgain => exact hsame (congrArg View.value view_breakCycle)
  | postponed hcontrol _ _ =>
    obtain ⟨_, _, -, -, -, -, hresult, hcache, -⟩ := h.ended hg hcontrol
    exact hupdate (congrArg View.value (view_postpone hcache)) hresult.above
  | repeated hcontrol _ _ =>
    obtain ⟨a, ha, hvalue⟩ := h.value_again hg hcontrol
    exact hupdate hvalue ha.above
  | committed hcontrol _ _ =>
    obtain ⟨_, _, -, -, -, -, hresult, -⟩ := h.ended hg hcontrol
    exact hupdate (congrArg View.value (h.view_commit hg hcontrol)) hresult.above
  | _ => exact hsame rfl

/-- Values grow from point to point. -/
theorem Invariant.value_le_run (hg : g.Linked) (h : Invariant g depth start s cost) {m : Nat}
    (hle : n ≤ m) (k : Key) : (Search.run g n s).value k ≤ (Search.run g m s).value k := by
  induction m, hle using Nat.le_induction with
  | base => exact LookaheadSet.le_refl _
  | succ m _ ih =>
    obtain ⟨cost', h'⟩ := h.at_run hg m
    rw [run_succ]
    exact LookaheadSet.le_trans ih (h'.value_le_step hg k)

end GrammarLookahead.Search
