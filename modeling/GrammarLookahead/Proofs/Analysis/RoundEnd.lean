import GrammarLookahead.Proofs.Analysis.SearchInvariant

/-!
The ends of rounds. A round that ends with a result begins again, waits for a round below it, or is
finished together with the results that wait for it; each keeps the invariant of the rounds that
are left. What is finished forms a closed set on which values satisfy their equations, hence holds
the least solution.
-/

namespace GrammarLookahead.Search

variable {g : Grammar} {depth : Nat} {v v' : View} {below : List Round} {round r : Round}
  {floor : Option Nat} {key q : Key} {n : Nat} {reading : Reading LookaheadSet}
  {result : LookaheadSet}

variable (g) in
/-- A set that may become the value of a key: it lies above the value, and below both the
right-hand side of the equation and the least solution. -/
structure Admissible (v : View) (key : Key) (result : LookaheadSet) : Prop where
  above : v.value key ≤ result
  grows : result ≤ g.equation v.value key
  below : result ≤ g.lookahead key

theorem RoundInvariant.result_bounds (h : RoundInvariant g depth v below round n (.done result))
    (hg : g.Linked) (hvalue : g.Below depth v.value g.lookahead) :
    Admissible g v round.key result := by
  obtain ⟨hlow, hhigh⟩ := h.meets v.value (Grammar.Below.refl _) hvalue
  obtain ⟨-, hleast⟩ := h.meets g.lookahead hvalue (Grammar.Below.refl _)
  rw [hg.equation_lookahead h.key] at hleast
  exact ⟨hlow, hhigh, hleast⟩

theorem Admissible.value (h : g.Below depth v.value g.lookahead)
    (hgrows : g.Below depth v.value (g.equation v.value)) (hkey : g.HasKey depth key) :
    Admissible g v key (v.value key) :=
  ⟨LookaheadSet.le_refl _, hgrows key hkey, h key hkey⟩

theorem below_update {F G : Family} (h : g.Below depth F G) (hresult : result ≤ G key) :
    g.Below depth (Function.update F key result) G := by
  intro q hq
  by_cases heq : q = key
  · subst heq
    rwa [Function.update_self]
  · rw [Function.update_of_ne heq]
    exact h q hq

theorem below_update_self {F : Family} (h : F key ≤ result) :
    g.Below depth F (Function.update F key result) := by
  intro q hq
  by_cases heq : q = key
  · subst heq
    rwa [Function.update_self]
  · rw [Function.update_of_ne heq]
    exact LookaheadSet.le_refl _

/-- Values stay below the right-hand sides of their equations when a result is added. -/
theorem Admissible.grows_update (h : Admissible g v key result) (hg : g.Linked)
    (hvalue : g.Below depth v.value g.lookahead)
    (hgrows : g.Below depth v.value (g.equation v.value)) :
    g.Below depth (Function.update v.value key result)
      (g.equation (Function.update v.value key result)) := by
  have hmono : g.Below depth (g.equation v.value)
      (g.equation (Function.update v.value key result)) :=
    hg.equation_mono ((hg.fits_lookahead depth).of_below hvalue) (below_update_self h.above)
  intro q hq
  by_cases heq : q = key
  · subst heq
    rw [Function.update_self]
    exact LookaheadSet.le_trans h.grows (hmono q hq)
  · rw [Function.update_of_ne heq]
    exact LookaheadSet.le_trans (hgrows q hq) (hmono q hq)

/-- Without repetition, the keys of the topmost round are apart from each other and from those of
the rounds below. -/
theorem apart_of_nodup (h : (held (round :: below)).Nodup) :
    round.key ∉ round.waiting ∧ round.waiting.Nodup ∧ round.key ∉ held below ∧
      (∀ k ∈ round.waiting, k ∉ held below) ∧ (held below).Nodup := by
  rw [held, List.flatMap_cons, List.nodup_append, List.nodup_cons] at h
  obtain ⟨⟨hkey, hwaiting⟩, hbelow, hdisjoint⟩ := h
  refine ⟨hkey, hwaiting, fun hmem => ?_, fun k hk hmem => ?_, hbelow⟩
  · exact hdisjoint _ (by simp) _ hmem rfl
  · exact hdisjoint k (by simp [hk]) k hmem rfl

theorem KeyInvariant.apart (h : KeyInvariant g depth v (round :: below)) :
    round.key ∉ round.waiting ∧ round.waiting.Nodup ∧ round.key ∉ held below ∧
      (∀ k ∈ round.waiting, k ∉ held below) ∧ (held below).Nodup :=
  apart_of_nodup h.nodup

/-- Rounds below keep what they rely on when the topmost round ends. -/
theorem KeyInvariant.grown (h : KeyInvariant g depth v (round :: below))
    (habove : v.value round.key ≤ result)
    (hvalue : v'.value = Function.update v.value round.key result)
    (hfinished : ∀ q, v.finished q → v'.finished q)
    (hpending : ∀ q ∈ held below, v'.pending q = v.pending q) : Grown g depth v v' below := by
  obtain ⟨-, -, hkey, -, -⟩ := h.apart
  refine ⟨?_, hfinished, fun q hq => ?_, hpending⟩
  · rw [hvalue]
    exact below_update_self habove
  · have hne : q ≠ round.key := by
      rintro rfl
      rcases hq with hq | hq
      · exact h.unfinished round.key (by simp) hq
      · exact hkey hq
    rw [hvalue, Function.update_of_ne hne]

/-- The rounds below do so also when what waited for the topmost round is dropped. -/
theorem KeyInvariant.grown_drop (h : KeyInvariant g depth v (round :: below))
    (habove : v.value round.key ≤ result)
    (hvalue : v'.value = Function.update v.value round.key result)
    (hfinished : ∀ q, v.finished q → v'.finished q)
    (hpending : ∀ q, v'.pending q = if q ∈ round.waiting then none else v.pending q) :
    Grown g depth v v' below := by
  obtain ⟨-, -, -, hapart, -⟩ := h.apart
  refine h.grown habove hvalue hfinished fun q hq => ?_
  rw [hpending, if_neg fun hmem => hapart q hmem hq]

/-- The rounds below do so also when the topmost round comes to wait for one of them. -/
theorem KeyInvariant.grown_postpone {number : Nat} (h : KeyInvariant g depth v (round :: below))
    (habove : v.value round.key ≤ result)
    (hvalue : v'.value = Function.update v.value round.key result)
    (hfinished : v'.finished = v.finished)
    (hpending : ∀ q, v'.pending q = if q = round.key then some (result, number)
      else if q ∈ round.waiting then (v.pending q).map (lower number) else v.pending q) :
    Grown g depth v v' below := by
  obtain ⟨-, -, hkey, hapart, -⟩ := h.apart
  refine h.grown habove hvalue (fun q hq => hfinished ▸ hq) fun q hq => ?_
  have hne : q ≠ round.key := fun heq => hkey (heq ▸ hq)
  rw [hpending, if_neg hne, if_neg fun hmem => hapart q hmem hq]

/-- A round relies on its own key only once the key was met again. -/
theorem KeyInvariant.reentered_of_scope (h : KeyInvariant g depth v (round :: below))
    (hscope : Scope v floor (round :: below) round.key) : round.reentered = true := by
  obtain ⟨hwaiting, -, hkey, -, -⟩ := h.apart
  rcases hscope with ⟨-, ⟨-, hreentered⟩ | hmem⟩ | hscope
  · exact hreentered
  · exact absurd hmem hwaiting
  · rcases hscope.finished_or_held with hmem | hmem
    · exact absurd hmem (h.unfinished round.key (by simp))
    · exact absurd hmem hkey

/-- Where a stable round has not outgrown the value read for its key, all values in its scope stay
as they were. -/
theorem KeyInvariant.agree (h : KeyInvariant g depth v (round :: below))
    (hsame : round.reentered = true → v.value round.key = result)
    (hscope : Scope v floor (round :: below) q) :
    Function.update v.value round.key result q = v.value q := by
  by_cases heq : q = round.key
  · subst heq
    rw [Function.update_self]
    exact (hsame (h.reentered_of_scope hscope)).symm
  · rw [Function.update_of_ne heq]

/-- What finished keys hold is not touched by the result of a round. -/
theorem KeyInvariant.update_of_finished (h : KeyInvariant g depth v (round :: below))
    (hq : v.finished q) : Function.update v.value round.key result q = v.value q := by
  rw [Function.update_of_ne]
  rintro rfl
  exact h.unfinished round.key (by simp) hq

/-- The result of the topmost round becomes the value of its key, and nothing is finished by it;
the rounds that are left hold no other keys than before. -/
theorem KeyInvariant.update (h : KeyInvariant g depth v (round :: below)) (hg : g.Linked)
    (hresult : Admissible g v round.key result)
    (hvalue : v'.value = Function.update v.value round.key result)
    (hfinished : v'.finished = v.finished) {rounds : List Round}
    (hheld : ∀ k ∈ held rounds, k ∈ held (round :: below)) (hnodup : (held rounds).Nodup)
    (hpending : ∀ k entry, v'.pending k = some entry → k ∈ waitingKeys rounds) :
    KeyInvariant g depth v' rounds where
  below := by
    rw [hvalue]
    exact below_update h.below hresult.below
  grows := by
    rw [hvalue]
    exact hresult.grows_update hg h.below h.grows
  exact k hk := by
    rw [hfinished] at hk
    rw [hvalue, h.update_of_finished hk]
    exact h.exact k hk
  closed := by
    rw [hfinished]
    exact h.closed
  nodup := hnodup
  hasKey k hk := h.hasKey k (hheld k hk)
  unfinished k hk := by
    rw [hfinished]
    exact h.unfinished k (hheld k hk)
  pending := hpending

/-- Once what waited for the topmost round is dropped, the rest waits for the rounds below. -/
theorem KeyInvariant.mem_waitingKeys (h : KeyInvariant g depth v (round :: below))
    (hpending : ∀ q, v'.pending q = if q ∈ round.waiting then none else v.pending q)
    {entry : LookaheadSet × Nat} (hq : v'.pending q = some entry) : q ∈ waitingKeys below := by
  rw [hpending] at hq
  split at hq
  · cases hq
  · rename_i hnot
    have hmem := h.pending q entry hq
    rw [waitingKeys, List.flatMap_cons, List.mem_append] at hmem
    exact hmem.resolve_left hnot

/-- A round that begins again drops the results that waited for it. -/
theorem KeyInvariant.again (h : KeyInvariant g depth v (round :: below)) (hg : g.Linked)
    (hresult : Admissible g v round.key result)
    (hvalue : v'.value = Function.update v.value round.key result)
    (hfinished : v'.finished = v.finished)
    (hpending : ∀ q, v'.pending q = if q ∈ round.waiting then none else v.pending q) :
    KeyInvariant g depth v' ({ key := round.key } :: below) := by
  have hheld : held ({ key := round.key } :: below) = round.key :: held below := rfl
  obtain ⟨-, -, hkey, -, hbelow⟩ := h.apart
  apply h.update hg hresult hvalue hfinished
  · intro k hk
    rw [hheld, List.mem_cons] at hk
    exact mem_held_cons.2 (hk.imp_right Or.inr)
  · rw [hheld, List.nodup_cons]
    exact ⟨hkey, hbelow⟩
  · exact fun k entry hk => h.mem_waitingKeys hpending hk

/-- The result of a round that ends stable agrees with the expansion of its key, as long as what
was read keeps its value. -/
theorem RoundInvariant.settled_result (h : RoundInvariant g depth v below round n (.done result))
    (hstable : round.unstable = false) (hvalue : v'.value round.key = result)
    {scope : Key → Prop} (hscope : ∀ q, Scope v round.floor (round :: below) q →
      v'.value q = v.value q ∧ scope q) : Settled g v' scope round.key := by
  obtain ⟨heval, hreads⟩ := (h.leads hstable).done
  obtain ⟨heval', hreads'⟩ := Reading.eval_congr (F := v.value) (G := v'.value)
    fun q hq => ((hscope q (hreads q hq)).1).symm
  refine ⟨?_, fun q hq => (hscope q (hreads q (hreads' ▸ hq))).2⟩
  rw [← heval', heval, hvalue]

/-- The round below, once it waits as well for what the topmost round waited for. -/
def receive (r round : Round) (floor : Nat) (unstable : Bool) : Round :=
  { r.lowerFloor floor with
    unstable := r.unstable || unstable
    waiting := r.waiting ++ round.waiting ++ [round.key] }

theorem covers_receive (r round : Round) (number : Nat) (unstable : Bool) :
    Covers r (receive r round number unstable) :=
  ⟨rfl, id, fun _ hk => by simp [receive, hk]⟩

theorem mem_held_receive {number : Nat} {unstable : Bool} :
    q ∈ held (receive r round number unstable :: below) ↔ q ∈ held (round :: r :: below) := by
  simp only [mem_held_cons, receive, Round.lowerFloor, List.mem_append, List.mem_singleton]
  grind

theorem nodup_held_receive {number : Nat} {unstable : Bool} :
    (held (receive r round number unstable :: below)).Nodup ↔
      (held (round :: r :: below)).Nodup := by
  refine List.Perm.nodup_iff (List.perm_iff_count.2 fun k => ?_)
  simp only [held, List.flatMap_cons, receive, Round.lowerFloor, List.count_append,
    List.count_cons, List.count_nil]
  omega

section

variable {number : Nat} {unstable : Bool}
  (hkeys : KeyInvariant g depth v (round :: r :: below))
  (hvalue : v'.value = Function.update v.value round.key result)
  (hfinished : v'.finished = v.finished)
  (hpending : ∀ q, v'.pending q = if q = round.key then some (result, number)
    else if q ∈ round.waiting then (v.pending q).map (lower number) else v.pending q)
include hkeys hvalue hfinished hpending

theorem KeyInvariant.postpone (hg : g.Linked) (hresult : Admissible g v round.key result) :
    KeyInvariant g depth v' (receive r round number unstable :: below) := by
  apply hkeys.update hg hresult hvalue hfinished
  · exact fun k hk => mem_held_receive.1 hk
  · exact nodup_held_receive.2 hkeys.nodup
  · intro k entry hk
    have hcases : k = round.key ∨ k ∈ round.waiting ∨ k ∈ waitingKeys (round :: r :: below) := by
      rw [hpending] at hk
      split at hk
      · rename_i heq
        exact Or.inl heq
      · split at hk
        · rename_i hmem
          exact Or.inr (Or.inl hmem)
        · exact Or.inr (Or.inr (hkeys.pending k entry hk))
    simp only [waitingKeys, List.flatMap_cons, receive, List.mem_append, List.mem_cons] at hcases ⊢
    grind

omit hfinished in
/-- Whatever waits for the round below after the topmost round has ended waits with a floor that
the round below reaches. -/
theorem RoundInvariant.waits_postpone {m : Nat} {rest : Reading LookaheadSet}
    (hround : RoundInvariant g depth v (r :: below) round n (.done result))
    (hr : RoundInvariant g depth v below r m rest)
    (hgrown : Grown g depth v v' (r :: below)) (hle : number ≤ below.length) :
    ∀ k ∈ (receive r round number unstable).waiting,
      ∃ f, v'.pending k = some (v'.value k, f) ∧ f ≤ below.length := by
  have hne : ∀ k ∈ round.waiting, k ≠ round.key := fun k hk heq => hkeys.apart.1 (heq ▸ hk)
  intro k hk
  simp only [receive, List.mem_append, List.mem_singleton] at hk
  rcases hk with (hk | hk) | rfl
  · have hheld : k ∈ held (r :: below) := by simp [hk]
    obtain ⟨f, hf, hfle⟩ := hr.waits k hk
    refine ⟨f, ?_, hfle⟩
    rw [hgrown.pending k hheld, hgrown.agree k (Or.inr hheld), hf]
  · obtain ⟨f, hf, -⟩ := hround.waits k hk
    refine ⟨min f number, ?_, Nat.le_trans (Nat.min_le_right _ _) hle⟩
    rw [hpending, if_neg (hne k hk), if_pos hk, hf, hvalue, Function.update_of_ne (hne k hk)]
    rfl
  · exact ⟨number, by rw [hpending, if_pos rfl, hvalue, Function.update_self], hle⟩

omit hkeys hvalue hpending in
/-- What the topmost round relied on, the round below may rely on in its place. -/
theorem Scope.postpone (hfloor : floor = some number) (hle : number ≤ below.length)
    (hscope : Scope v floor (round :: r :: below) q) :
    Scope v' (receive r round number unstable).floor (receive r round number unstable :: below)
      q := by
  have hreach : Reaches (receive r round number unstable).floor number := reaches_lowerFloor r number
  have hmono : ∀ n, Reaches floor n → Reaches (receive r round number unstable).floor n := by
    rintro n ⟨f, hf, hfn⟩
    obtain rfl : number = f := Option.some.inj (hfloor.symm.trans hf)
    obtain ⟨f', hf', hle'⟩ := hreach
    exact ⟨f', hf', Nat.le_trans hle' hfn⟩
  have hown : Reaches (receive r round number unstable).floor below.length := by
    obtain ⟨f', hf', hle'⟩ := hreach
    exact ⟨f', hf', Nat.le_trans hle' hle⟩
  rcases hscope with ⟨-, ⟨rfl, -⟩ | hmem⟩ | hscope
  · exact Or.inl ⟨hown, Or.inr (by simp [receive])⟩
  · exact Or.inl ⟨hown, Or.inr (by simp [receive, hmem])⟩
  · apply hscope.mono (fun q hq => hfinished ▸ hq) hmono
    exact .cons (covers_receive r round number unstable) (forall₂_covers_refl below)

/-- The round below goes on with the results that have come to wait for it. -/
theorem RoundInvariant.postpone {m : Nat} {rest : Reading LookaheadSet} (hg : g.Linked)
    (hround : RoundInvariant g depth v (r :: below) round n (.done result))
    (hr : RoundInvariant g depth v below r m rest)
    (hfloor : round.floor = some number) (hle : number ≤ below.length)
    (hstable : unstable = false → round.unstable = false ∧
      (round.reentered = true → v.value round.key = result)) :
    RoundInvariant g depth v' below (receive r round number unstable) m rest := by
  have hne : ∀ k ∈ round.waiting, k ≠ round.key := fun k hk heq => hkeys.apart.1 (heq ▸ hk)
  have hgrown : Grown g depth v v' (r :: below) :=
    hkeys.grown_postpone (hround.result_bounds hg hkeys.below).above hvalue hfinished hpending
  -- The scope of the round below, and the scope of the round that ends, in the new one.
  have hscope : ∀ q, Scope v r.floor (r :: below) q → v'.value q = v.value q ∧
      Scope v' (receive r round number unstable).floor (receive r round number unstable :: below)
        q := by
    intro q hq
    refine ⟨hgrown.agree q hq.finished_or_held, hq.mono hgrown.finished ?_ ?_⟩
    · exact (extends_lowerFloor r number).floor
    · exact .cons (covers_receive r round number unstable) (forall₂_covers_refl below)
  have htop : (round.reentered = true → v.value round.key = result) →
      ∀ q, Scope v round.floor (round :: r :: below) q → v'.value q = v.value q ∧
      Scope v' (receive r round number unstable).floor (receive r round number unstable :: below)
        q := by
    intro hsame q hq
    refine ⟨?_, hq.postpone hfinished hfloor hle⟩
    rw [hvalue]
    exact hkeys.agree hsame hq
  have hstables : (receive r round number unstable).unstable = false →
      r.unstable = false ∧ round.unstable = false ∧
        (round.reentered = true → v.value round.key = result) := by
    intro h
    obtain ⟨hr, hunstable⟩ := Bool.or_eq_false_iff.1 h
    exact ⟨hr, hstable hunstable⟩
  constructor
  · exact hr.key
  · exact hround.waits_postpone hkeys hvalue hpending hr hgrown hle
  · exact fun high hlow hhigh => hr.meets_of_grown hg hgrown high hlow hhigh
  · intro h k hk
    obtain ⟨hrStable, hroundStable, hsame⟩ := hstables h
    simp only [receive, List.mem_append, List.mem_singleton] at hk
    rcases hk with (hk | hk) | rfl
    · have hheld : k ∈ held (r :: below) := by simp [hk]
      exact (hr.settled hrStable k hk).mono (hgrown.agree k (Or.inr hheld)) hscope
    · refine (hround.settled hroundStable k hk).mono ?_ (htop hsame)
      rw [hvalue, Function.update_of_ne (hne k hk)]
    · refine hround.settled_result hroundStable ?_ (htop hsame)
      rw [hvalue, Function.update_self]
  · intro h
    exact (hr.leads (hstables h).1).mono fun q hq => ⟨(hscope q hq).2, ((hscope q hq).1).symm⟩

end

/-- The suspended rounds go on with what has come to wait for the topmost of them. -/
theorem StackInvariant.postpone {start : Key} {f : Frame} {frames : List Frame} {number cost : Nat}
    {unstable : Bool} (hg : g.Linked)
    (hkeys : KeyInvariant g depth v (round :: f.round :: frames.map Frame.round))
    (hround : RoundInvariant g depth v (f.round :: frames.map Frame.round) round n (.done result))
    (hstack : StackInvariant g depth v start (f :: frames) round.key cost)
    (hvalue : v'.value = Function.update v.value round.key result)
    (hfinished : v'.finished = v.finished)
    (hpending : ∀ q, v'.pending q = if q = round.key then some (result, number)
      else if q ∈ round.waiting then (v.pending q).map (lower number) else v.pending q)
    (hfloor : round.floor = some number) (hle : number ≤ (frames.map Frame.round).length)
    (hstable : unstable = false → round.unstable = false ∧
      (round.reentered = true → v.value round.key = result)) :
    StackInvariant g depth v' start (⟨receive f.round round number unstable, f.resume⟩ :: frames)
      round.key cost := by
  have habove := (hround.result_bounds hg hkeys.below).above
  have hgrown := hkeys.grown_postpone habove hvalue hfinished hpending
  cases hstack with
  | cons hr hbelow =>
    refine .cons ?_ (hbelow.mono hg hgrown.tail (forall₂_frameExtends_refl _))
    exact RoundInvariant.postpone hkeys hvalue hfinished hpending hg hround hr hfloor hle hstable

/-- The round below may rely on the result that has come to wait for it. -/
theorem available_receive {resume : LookaheadSet → Reading LookaheadSet} {frames : List Frame}
    {number : Nat} {unstable : Bool} (hle : number ≤ (frames.map Frame.round).length) :
    Available v (⟨receive r round number unstable, resume⟩ :: frames) round.key := by
  intro _
  obtain ⟨f, hf, hfle⟩ := reaches_lowerFloor r number
  exact Or.inl ⟨⟨f, hf, Nat.le_trans hfle hle⟩, Or.inr (by simp [receive])⟩

/-- Values below the least solution that satisfy their equations on a closed set of keys are the
least solution there: with the least solution elsewhere, they form a closed family. -/
theorem eq_lookahead_of_closed (hg : g.Linked) {F : Family} {S : Key → Prop}
    (hF : g.Below depth F g.lookahead)
    (hS : ∀ k, S k → g.HasKey depth k →
      (g.expand k).eval F = .ok (F k) ∧ ∀ q ∈ (g.expand k).keysRead F, S q) :
    ∀ k, S k → g.HasKey depth k → F k = g.lookahead k := by
  classical
  let G : Family := fun k => if S k then F k else g.lookahead k
  have hGS : ∀ k, S k → G k = F k := fun k hk => if_pos hk
  have hGL : g.Below depth G g.lookahead := by
    intro k hk
    by_cases hmem : S k
    · rw [hGS k hmem]
      exact hF k hk
    · rw [show G k = g.lookahead k from if_neg hmem]
      exact LookaheadSet.le_refl _
  have hfits : g.Fits depth G := (hg.fits_lookahead depth).of_below hGL
  have hclosed : g.Below depth (g.equation G) G := by
    intro k hk
    by_cases hmem : S k
    · obtain ⟨heval, hreads⟩ := hS k hmem hk
      have hsame : (g.expand k).eval F = (g.expand k).eval G :=
        (Reading.eval_congr fun q hq => (hGS q (hreads q hq)).symm).1
      rw [hg.eval_expand hfits hk, heval] at hsame
      rw [hGS k hmem, Except.ok.inj hsame]
      exact LookaheadSet.le_refl _
    · have hle := hg.equation_mono hfits hGL k hk
      rw [hg.equation_lookahead hk] at hle
      rwa [show G k = g.lookahead k from if_neg hmem]
  intro k hmem hk
  have hle := hg.lookahead_le hfits.depth_eq hclosed k hk
  rw [hGS k hmem] at hle
  exact LookaheadSet.le_antisymm (hF k hk) hle

section

variable (hkeys : KeyInvariant g depth v (round :: below))
  (hround : RoundInvariant g depth v below round n (.done result))
  (hstable : round.unstable = false)
  (hsame : round.reentered = true → v.value round.key = result)
  (hfloor : ∀ f, round.floor = some f → below.length ≤ f)
  (hvalue : v'.value = Function.update v.value round.key result)
  (hfinished : ∀ q, v'.finished q ↔ v.finished q ∨ q ∈ round.waiting ∨ q = round.key)
include hkeys hround hstable hsame hfloor hvalue hfinished

/-- When a stable round depends on nothing below, its result and the results that wait for it are
computed from each other and from finished results only. -/
theorem settled_of_finished :
    ∀ k, k ∈ round.waiting ∨ k = round.key → Settled g v' v'.finished k := by
  have hne : ∀ k ∈ round.waiting, k ≠ round.key := fun k hk heq =>
    hkeys.apart.1 (heq ▸ hk)
  have hscope : ∀ q, Scope v round.floor (round :: below) q →
      v'.value q = v.value q ∧ v'.finished q := by
    intro q hq
    refine ⟨by rw [hvalue]; exact hkeys.agree hsame hq, (hfinished q).2 ?_⟩
    rcases hq with ⟨-, ⟨rfl, -⟩ | hmem⟩ | hq
    · exact Or.inr (Or.inr rfl)
    · exact Or.inr (Or.inl hmem)
    · exact Or.inl (hq.finished hfloor)
  rintro k (hk | rfl)
  · refine (hround.settled hstable k hk).mono ?_ hscope
    rw [hvalue, Function.update_of_ne (hne k hk)]
  · refine hround.settled_result hstable ?_ hscope
    rw [hvalue, Function.update_self]

/-- Finished keys hold the least solution: what was finished before did so already, and with what
is finished now it forms a closed set. -/
theorem exact_of_finished (hg : g.Linked) {k : Key} (hk : v'.finished k) :
    v'.value k = g.lookahead k := by
  have hbelow : g.Below depth v'.value g.lookahead := by
    rw [hvalue]
    exact below_update hkeys.below (hround.result_bounds hg hkeys.below).below
  have hold : ∀ k, v.finished k → v'.value k = g.lookahead k := by
    intro k hk
    rw [hvalue, hkeys.update_of_finished hk]
    exact hkeys.exact k hk
  have hsettled := settled_of_finished hkeys hround hstable hsame hfloor hvalue hfinished
  have hclosed : ∀ k, v'.finished k → g.HasKey depth k → v'.value k = g.lookahead k := by
    apply eq_lookahead_of_closed hg hbelow
    intro k hk hhas
    rcases (hfinished k).1 hk with hk | hk
    · obtain ⟨heval, hreads⟩ := Reading.eval_congr (F := g.lookahead) (G := v'.value)
        (r := g.expand k) fun q hq => (hold q (hkeys.closed k hk q hq)).symm
      rw [← heval, ← hreads, hg.eval_expand (hg.fits_lookahead depth) hhas,
        hg.equation_lookahead hhas, hold k hk]
      exact ⟨rfl, fun q hq => (hfinished q).2 (Or.inl (hkeys.closed k hk q hq))⟩
    · exact ⟨(hsettled k hk).eval, (hsettled k hk).reads⟩
  rcases (hfinished k).1 hk with hk' | hmem | rfl
  · exact hold k hk'
  · exact hclosed k hk (hkeys.hasKey k (by simp [hmem]))
  · exact hclosed _ hk hround.key

theorem KeyInvariant.commit (hg : g.Linked)
    (hpending : ∀ q, v'.pending q = if q ∈ round.waiting then none else v.pending q) :
    KeyInvariant g depth v' below := by
  have hresult := hround.result_bounds hg hkeys.below
  have hsettled := settled_of_finished hkeys hround hstable hsame hfloor hvalue hfinished
  have hexact : ∀ k, v'.finished k → v'.value k = g.lookahead k := fun _ hk =>
    exact_of_finished hkeys hround hstable hsame hfloor hvalue hfinished hg hk
  obtain ⟨-, -, hbelow, hapart, hnodup⟩ := hkeys.apart
  constructor
  · rw [hvalue]
    exact below_update hkeys.below hresult.below
  · rw [hvalue]
    exact hresult.grows_update hg hkeys.below hkeys.grows
  · exact hexact
  · intro k hk q hq
    rcases (hfinished k).1 hk with hk' | hk'
    · exact (hfinished q).2 (Or.inl (hkeys.closed k hk' q hq))
    · have hreads : (g.expand k).keysRead v'.value = (g.expand k).keysRead g.lookahead :=
        (Reading.eval_congr fun q hq => hexact q ((hsettled k hk').reads q hq)).2
      exact (hsettled k hk').reads q (hreads ▸ hq)
  · exact hnodup
  · exact fun k hk => hkeys.hasKey k (by simp [hk])
  · intro k hk hfin
    rcases (hfinished k).1 hfin with hfin | hmem | rfl
    · exact hkeys.unfinished k (by simp [hk]) hfin
    · exact hapart k hmem hk
    · exact hbelow hk
  · exact fun k entry hk => hkeys.mem_waitingKeys hpending hk

end

end GrammarLookahead.Search
