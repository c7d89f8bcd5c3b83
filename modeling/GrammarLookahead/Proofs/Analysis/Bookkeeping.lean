import GrammarLookahead.Proofs.Analysis.FloorAccounts

/-!
The bookkeeping of a search. At every point of a run the floors account for what was relied on, so a
round that ends without a floor below it, and with it everything that waits for it, was computed
without the provisional value of any round that is left. Main statements: `Search.Accounts.run` and
`Description.bookkeeping_consistent`.
-/

namespace GrammarLookahead.Search

variable {g : Grammar} {origin : Search} {depth cost time began floor : Nat} {start key : Key}
  {s t u : Search} {round r : Round} {below rounds : List Round} {result : LookaheadSet}

theorem nodup_keys_append_waiting (h : (held rounds).Nodup) :
    (rounds.map Round.key ++ waitingKeys rounds).Nodup :=
  (List.map_append_flatMap_perm rounds Round.key Round.waiting).nodup_iff.2 h

/-- What waits for the rounds below is neither the key of the topmost round nor waits for it. -/
theorem KeyInvariant.apart_of_waiting {v : View} (h : KeyInvariant g depth v (round :: below))
    (hkey : key ∈ waitingKeys below) : key ≠ round.key ∧ key ∉ round.waiting := by
  obtain ⟨-, -, hround, hwaiting, -⟩ := h.apart
  have hmem : key ∈ held below := mem_held_iff.2 (Or.inr hkey)
  exact ⟨fun heq => hround (heq ▸ hmem), fun hmem' => hwaiting key hmem' hmem⟩

/-- No two of these hold of a key: that it is finished, that its result waits, and that it is
expanded. -/
structure Apart (s : Search) : Prop where
  finished : ∀ k ∈ s.memory.cache, k ∉ s.pending ∧ k ∉ s.rounds.map Round.key
  waiting : ∀ k ∈ s.pending, k ∉ s.rounds.map Round.key

theorem Invariant.mem_waitingKeys (h : Invariant g depth start s cost) (hkey : key ∈ s.pending) :
    key ∈ waitingKeys s.rounds := by
  obtain ⟨entry, hentry⟩ := Option.isSome_iff_exists.1 (Std.HashMap.mem_iff_isSome_getElem?.1 hkey)
  exact h.keys.pending key entry hentry

theorem Invariant.tables_apart (h : Invariant g depth start s cost) : s.Apart where
  finished k hk := by
    have hheld : k ∉ held s.rounds := fun hmem => h.keys.unfinished k hmem hk
    rw [mem_held_iff, not_or] at hheld
    refine ⟨fun hwaits => hheld.2 (h.mem_waitingKeys hwaits), fun hactive => hheld.1 ?_⟩
    obtain ⟨r, hr, hkey⟩ := List.mem_map.1 hactive
    exact ⟨r, hr, hkey⟩
  waiting k hk hactive :=
    (List.disjoint_of_nodup_append (nodup_keys_append_waiting h.keys.nodup)) hactive
      (h.mem_waitingKeys hk)

section

variable (hu : run g time origin = u) (ht : run g (time + 1) origin = t)
include hu ht

/-- A step that begins nothing, ends nothing and changes no table spares all rounds. -/
theorem Accounts.of_same (h : Accounts g origin time u.rounds began) (hnone : begun? u t = none)
    (hgains : ∀ number target, ¬ Gains g origin number target time)
    (hends : ∀ round result, u.control ≠ .run round (.done result))
    (hpending : t.pending = u.pending) (hrounds : t.rounds = u.rounds) :
    Accounts g origin (time + 1) t.rounds began := by
  rw [hrounds]
  refine h.next ⟨fun number _ => not_beginsAt hu ht hnone number, fun number _ => hgains number,
    fun k _ => ?_, fun k _ n a => not_endsAt (hu ▸ hends)⟩ (forall₂_sameBooks_refl _)
  rw [hu, ht, hpending]

/-- A question lowers the floor of the round that asks it, to a number at or below all that the
round comes to rely on with the answer. -/
theorem Accounts.asked (h : Accounts g origin time u.rounds began)
    (hcontrol : u.control = .look key) (hnone : begun? u t = none)
    (hpending : t.pending = u.pending) (hsame : List.Forall₂ SameBooks u.rounds (r :: below))
    (hrounds : t.rounds = r.lowerFloor floor :: below) (hfloor : floor < u.rounds.length)
    (hgains : ∀ number target, Gains g origin number target time → floor ≤ target) :
    Accounts g origin (time + 1) t.rounds began := by
  have hdone : ∀ n k a, ¬ EndsAt g origin n k a time := fun n k a =>
    not_endsAt_of_look (hu ▸ hcontrol)
  have hkept : ∀ k : Key, (run g (time + 1) origin).pending[k]? = (run g time origin).pending[k]? :=
    fun k => by rw [hu, ht, hpending]
  have hstack : u.rounds.length = u.stack.length := by
    rw [rounds_of_look hcontrol, List.length_map]
  rw [hrounds]
  generalize u.rounds = rounds at *
  cases h with
  | nil => cases hsame
  | @cons top rest before _ hbelow hle htop =>
    obtain ⟨r', below', hr, htail, heq⟩ := List.forall₂_cons_left_iff.1 hsame
    obtain ⟨rfl, rfl⟩ := List.cons.inj heq
    have hlength : below.length = rest.length := htail.length_eq.symm
    have hspared : Spared g origin time rest := by
      refine ⟨fun n _ => not_beginsAt hu ht hnone n, fun n hlt target hgain => ?_,
        fun k _ => hkept k, fun k _ n a => hdone n k a⟩
      have := hgain.length
      rw [hu, ← hstack, List.length_cons] at this
      omega
    refine .cons (hbelow.next hspared htail) hle ?_
    rw [hlength]
    exact htop.lowered hr (not_beginsAt hu ht hnone _) (fun k _ => hkept k)
      (fun k _ n a => hdone n k a) (Nat.le_of_lt_succ hfloor) (hgains _)

end

section

variable (hu : run g time origin = u) (h : Accounts g origin time u.rounds began)
  (hinv : Invariant g depth start u cost)
include hu h hinv

/-- What a round comes to rely on by asking for a key lies at or above a floor if the key is
expanded by no round below the floor and waits with no other floor. -/
theorem Accounts.le_of_gains {number target : Nat} (hcontrol : u.control = .look key)
    (hnumber : ∀ n, u.number? key = some n → floor ≤ n)
    (hwaits : ∀ entry, u.pending[key]? = some entry → entry.2 = floor)
    (hgains : Gains g origin number target time) : floor ≤ target := by
  rcases hgains.of_look (hu ▸ hcontrol) with hread | ⟨hmem, a, n, b, e, hcomputed, hrelies⟩
  · exact hnumber target (hu ▸ hread)
  · rw [hu] at hmem
    obtain ⟨result, f, _, _, hentry, -, -, hvouched⟩ :=
      h.waiting hinv.nodup_rounds (hinv.mem_waitingKeys hmem)
    rw [hu] at hentry
    have hnext := hvouched.next fun n a => not_endsAt_of_look (hu ▸ hcontrol)
    exact hwaits _ hentry ▸ hnext.le_of_computed hcomputed hrelies

/-- A finished key is answered without relying on anything. -/
theorem Accounts.recalled (hcontrol : u.control = .look key) (hcache : key ∈ u.memory.cache)
    (ht : run g (time + 1) origin = { u with
      control := .answer result
      memory := u.memory.countCacheHit }) :
    Accounts g origin (time + 1) (run g (time + 1) origin).rounds began := by
  obtain ⟨hwaits, hactive⟩ := hinv.tables_apart.finished key hcache
  refine h.of_same hu rfl (by rw [ht]; rfl) (fun number target hgains => ?_)
    (fun _ _ => by rw [hcontrol]; nofun) (by rw [ht]) (by rw [ht, rounds_of_look hcontrol]; rfl)
  rcases hgains.of_look (hu ▸ hcontrol) with hread | ⟨hmem, -⟩
  · exact hactive (mem_keys_iff_numberIn.2 ⟨target, hu ▸ hread⟩)
  · exact hwaits (hu ▸ hmem)

theorem Accounts.reused {floor : Nat} (hcontrol : u.control = .look key)
    (hpending : u.pending[key]? = some (result, floor))
    (ht : run g (time + 1) origin = { u.mapTop (·.lowerFloor floor) with
      control := .answer result
      memory := u.memory.countCacheHit }) :
    Accounts g origin (time + 1) (run g (time + 1) origin).rounds began := by
  obtain ⟨hmem, -⟩ := Std.HashMap.getElem?_eq_some_iff.1 hpending
  have hactive := hinv.tables_apart.waiting key hmem
  obtain ⟨_, f, frame, _, hentry, hframe, -⟩ :=
    h.waiting hinv.nodup_rounds (hinv.mem_waitingKeys hmem)
  rw [hu, hpending] at hentry
  obtain ⟨rfl, rfl⟩ := Prod.mk.inj (Option.some.inj hentry)
  have hlt := numberIn_lt hframe
  have hrounds := rounds_of_look hcontrol
  cases hstack : u.stack with
  | nil =>
    rw [hrounds, hstack] at hlt
    cases hlt
  | cons f below =>
    have hbefore : List.Forall₂ SameBooks u.rounds (f.round :: below.map Frame.round) := by
      rw [hrounds, hstack]
      exact forall₂_sameBooks_refl _
    have hafter : (run g (time + 1) origin).rounds =
        f.round.lowerFloor floor :: below.map Frame.round := by
      rw [ht, rounds_of_answer rfl, mapTop, hstack]
      rfl
    refine h.asked hu rfl hcontrol (by rw [ht]; rfl) (by rw [ht]; rfl) hbefore hafter hlt
      fun number target hgains => ?_
    refine h.le_of_gains hu hinv hcontrol (fun n hn => ?_) (fun entry hentry => ?_) hgains
    · exact absurd (mem_keys_iff_numberIn.2 ⟨n, hn⟩) hactive
    · rw [← Option.some.inj (hpending.symm.trans hentry)]

theorem Accounts.metAgain {position : Nat} (hcontrol : u.control = .look key)
    (hposition : u.stack.findIdx? (·.round.key = key) = some position)
    (ht : run g (time + 1) origin = u.breakCycle g key position) :
    Accounts g origin (time + 1) (run g (time + 1) origin).rounds began := by
  have hrounds := rounds_of_look hcontrol
  have hnumber : u.number? key = some (u.stack.length - 1 - position) := by
    rw [number?, hrounds]
    exact numberIn_of_findIdx? hposition
  have hactive : key ∈ u.rounds.map Round.key := mem_keys_iff_numberIn.2 ⟨_, hnumber⟩
  have hmarked : List.Forall₂ SameBooks u.rounds ((u.stack.modify position
      (Frame.mapRound fun r => { r with reentered := true })).map Frame.round) := by
    rw [hrounds]
    exact forall₂_sameBooks_modify _ _
  have hafter : (u.breakCycle g key position).stack = (u.stack.modify position
      (Frame.mapRound fun r => { r with reentered := true })).modifyHead
        (Frame.mapRound (·.lowerFloor (u.stack.length - 1 - position))) := rfl
  generalize u.stack.modify position (Frame.mapRound fun r => { r with reentered := true }) = marked
    at hmarked hafter
  cases marked with
  | nil =>
    rw [List.map_nil, List.forall₂_nil_right_iff] at hmarked
    rw [hmarked] at hactive
    cases hactive
  | cons f below =>
    refine h.asked hu rfl hcontrol (by rw [ht]; rfl) (by rw [ht]; rfl) hmarked ?_
      (numberIn_lt hnumber) fun number target hgains => ?_
    · rw [ht, rounds_of_answer rfl, hafter]
      rfl
    · refine h.le_of_gains hu hinv hcontrol (fun n hn => ?_) (fun entry hentry => ?_) hgains
      · rw [Option.some.inj (hnumber.symm.trans hn)]
      · obtain ⟨hmem, -⟩ := Std.HashMap.getElem?_eq_some_iff.1 hentry
        exact absurd hactive (hinv.tables_apart.waiting key hmem)

omit hinv in
theorem Accounts.begun (hcontrol : u.control = .look key) (hpending : u.pending[key]? = none)
    (hactive : ∀ f ∈ u.stack, f.round.key ≠ key)
    (ht : run g (time + 1) origin = u.begin g key) :
    Accounts g origin (time + 1) (run g (time + 1) origin).rounds time := by
  have hrounds := rounds_of_look hcontrol
  have hspared : Spared g origin time u.rounds := by
    refine ⟨fun number hlt => ?_, fun number _ target hgains => ?_, fun k _ => ?_,
      fun k _ n a => ?_⟩
    · rw [hrounds, List.length_map] at hlt
      exact not_beginsAt_of_ne ht (Nat.ne_of_lt hlt)
    · rcases hgains.of_look (hu ▸ hcontrol) with hread | ⟨hmem, -⟩
      · have hmem : key ∈ u.rounds.map Round.key := mem_keys_iff_numberIn.2 ⟨target, hu ▸ hread⟩
        rw [hrounds, List.map_map] at hmem
        obtain ⟨f, hf, hkey⟩ := List.mem_map.1 hmem
        exact hactive f hf hkey
      · rw [hu, Std.HashMap.mem_iff_isSome_getElem?, hpending] at hmem
        cases hmem
    · rw [hu, ht]
      rfl
    · exact not_endsAt_of_look (hu ▸ hcontrol)
  have hbegins : BeginsAt g origin u.rounds.length key time := by
    rw [hrounds, List.length_map]
    exact beginsAt_begin hu ht
  have hnext := (h.next hspared (forall₂_sameBooks_refl _)).cons h.le (Accounted.begin hbegins)
  rwa [ht, show (u.begin g key).rounds = { key } :: u.rounds by rw [hrounds]; rfl]

end

section

variable (hu : run g time origin = u) (h : Accounts g origin time u.rounds began) (hg : g.Linked)
  (hinv : Invariant g depth start u cost) (hcontrol : u.control = .run round (.done result))
include hu h hg hinv hcontrol

/-- The rounds that are left keep their books when the results waiting for the round that ends are
dropped or finished. -/
theorem Accounts.dropped
    (hpending : ∀ k, (run g (time + 1) origin).pending[k]? =
      if k ∈ round.waiting then none else u.pending[k]?)
    (hbegins : ∀ number < u.stack.length, ∀ k, ¬ BeginsAt g origin number k time) :
    ∃ before, before ≤ began ∧ Accounts g origin (time + 1) (u.stack.map Frame.round) before := by
  have hactive : round.key ∈ u.rounds.map Round.key := by
    rw [rounds_of_run hcontrol]
    exact List.mem_cons_self
  have hfree : round.key ∉ (run g (time + 1) origin).pending := by
    rw [Std.HashMap.mem_iff_isSome_getElem?, hpending]
    split
    · simp
    · rw [← Std.HashMap.mem_iff_isSome_getElem?]
      exact fun hmem => hinv.tables_apart.waiting _ hmem hactive
  obtain ⟨_, _, -, hkeys, -⟩ := hinv.ended hg hcontrol
  have hends := endsAt_of_run hu hcontrol
  rw [rounds_of_run hcontrol] at h
  cases h with
  | @cons _ _ before _ hbelow hle _ =>
    refine ⟨before, hle, hbelow.next ⟨fun number hlt => ?_, fun number _ target hgains => ?_,
      fun k hk => ?_, fun k hk n a hends' => ?_⟩ (forall₂_sameBooks_refl _)⟩
    · rw [List.length_map] at hlt
      exact hbegins number hlt
    · exact hfree (hgains.of_endsAt hends).1
    · rw [hpending, if_neg (hkeys.apart_of_waiting hk).2, hu]
    · exact (hkeys.apart_of_waiting hk).1 (hends'.unique hends).2.1

theorem Accounts.repeated (ht : run g (time + 1) origin = (u.grow round result).again g round) :
    Accounts g origin (time + 1) (run g (time + 1) origin).rounds time := by
  have hstack : ((u.grow round result).again g round).stack = u.stack := stack_grow
  obtain ⟨before, hle, hnext⟩ := h.dropped hu hg hinv hcontrol
    (fun k => by rw [ht]; exact pending_again)
    fun number hlt => not_beginsAt_of_ne ht (hstack ▸ Nat.ne_of_lt hlt)
  have hbegins : BeginsAt g origin (u.stack.map Frame.round).length round.key time := by
    rw [List.length_map]
    exact beginsAt_again hu ht
  rw [ht, rounds_again]
  exact .cons hnext (Nat.le_trans hle h.le) (.begin hbegins)

theorem Accounts.committed
    (ht : run g (time + 1) origin = (u.grow round result).commit round result) :
    ∃ before, Accounts g origin (time + 1) (run g (time + 1) origin).rounds before := by
  have hview := hinv.view_commit hg hcontrol
  obtain ⟨before, -, hnext⟩ := h.dropped hu hg hinv hcontrol
    (fun k => by rw [ht]; exact congrFun (congrArg View.pending hview) k)
    fun number _ => not_beginsAt hu ht rfl number
  rw [ht, rounds_commit]
  exact ⟨before, hnext⟩

theorem Accounts.postponed {floor : Nat} {unstable : Bool} (hfloor : round.floor = some floor)
    (hlt : floor < u.stack.length)
    (ht : run g (time + 1) origin =
      (u.grow round result).postpone round result unstable floor) :
    ∃ before, Accounts g origin (time + 1) (run g (time + 1) origin).rounds before := by
  obtain ⟨f, frames, hframes⟩ : ∃ f frames, u.stack = f :: frames :=
    List.exists_cons_of_length_pos (Nat.zero_lt_of_lt hlt)
  obtain ⟨_, _, -, hkeys, -, -, -, hcache, -⟩ := hinv.ended hg hcontrol
  have hpending : ∀ k, (run g (time + 1) origin).pending[k]? =
      if k = round.key then some (result, floor)
      else if k ∈ round.waiting then u.pending[k]?.map (lower floor) else u.pending[k]? := by
    intro k
    rw [ht]
    exact congrFun (congrArg View.pending (view_postpone hcache)) k
  have hends := endsAt_of_run hu hcontrol
  have hnone := not_beginsAt hu ht rfl
  rw [rounds_of_run hcontrol, hframes, List.map_cons] at h
  rw [hframes, List.map_cons] at hkeys
  rw [hframes, List.length_cons] at hlt hends
  have hheld : ∀ k, k ∈ f.round.waiting ∨ k ∈ waitingKeys (frames.map Frame.round) →
      k ≠ round.key ∧ k ∉ round.waiting := fun k hk =>
    hkeys.apart_of_waiting (mem_waitingKeys_cons.2 hk)
  rw [ht, rounds_postpone hframes]
  cases h with
  | cons hrest hle hround =>
    cases hrest with
    | @cons _ _ before earliest hrest hle' hr =>
      rw [List.length_cons] at hround
      have hspared : Spared g origin time (frames.map Frame.round) := by
        refine ⟨fun n _ => hnone n, fun n hn target hgains => ?_, fun k hk => ?_,
          fun k hk n a hk' => ?_⟩
        · have := hgains.length
          rw [hu, hframes, List.length_cons] at this
          rw [List.length_map] at hn
          omega
        · obtain ⟨hne, hnot⟩ := hheld k (Or.inr hk)
          rw [hpending, if_neg hne, if_neg hnot, hu]
        · exact (hheld k (Or.inr hk)).1 (hk'.unique hends).2.1
      refine ⟨_, .cons (hrest.next hspared (forall₂_sameBooks_refl _)) hle' ?_⟩
      rw [List.length_map] at hr hround ⊢
      exact hr.received hround hle hfloor (Nat.le_of_lt_succ hlt) (hnone _) hends hkeys.apart.1
        (fun k hk => hheld k (Or.inl hk)) (hu ▸ hpending)

end

/-- One step keeps the accounts of the rounds. -/
theorem Accounts.move (hu : run g time origin = u) (ht : run g (time + 1) origin = t)
    (h : Accounts g origin time u.rounds began) (hg : g.Linked)
    (hinv : Invariant g depth start u cost) (hmove : Move g u t) :
    ∃ began', Accounts g origin (time + 1) (run g (time + 1) origin).rounds began' := by
  have hsame : begun? u t = none → (∀ k, u.control ≠ .look k) →
      (∀ round result, u.control ≠ .run round (.done result)) → t.pending = u.pending →
      t.rounds = u.rounds →
      ∃ began', Accounts g origin (time + 1) (run g (time + 1) origin).rounds began' := by
    intro hnone hlook hdone hpending hrounds
    rw [ht]
    exact ⟨began, h.of_same hu ht hnone (fun _ _ => not_gains (hu ▸ hlook) (hu ▸ hdone)) hdone
      hpending hrounds⟩
  cases hmove with
  | recalled hcontrol hcache =>
    obtain ⟨hmem, -⟩ := Std.HashMap.getElem?_eq_some_iff.1 hcache
    exact ⟨began, h.recalled hu hinv hcontrol hmem ht⟩
  | reused hcontrol _ hpending => exact ⟨began, h.reused hu hinv hcontrol hpending ht⟩
  | metAgain hcontrol _ hposition => exact ⟨began, h.metAgain hu hinv hcontrol hposition ht⟩
  | begun hcontrol _ hpending hactive => exact ⟨time, h.begun hu hcontrol hpending hactive ht⟩
  | asked hcontrol =>
    refine hsame rfl (by simp [hcontrol]) (by simp [hcontrol]) rfl ?_
    rw [rounds_of_run hcontrol]
    rfl
  | resumed hcontrol hstack =>
    refine hsame (begun?_of_same rfl) (by simp [hcontrol]) (by simp [hcontrol]) rfl ?_
    rw [rounds_of_answer hcontrol, hstack]
    rfl
  | postponed hcontrol hfloor hlt => exact h.postponed hu hg hinv hcontrol hfloor hlt ht
  | repeated hcontrol _ _ => exact ⟨time, h.repeated hu hg hinv hcontrol ht⟩
  | committed hcontrol _ _ => exact h.committed hu hg hinv hcontrol ht
  | broke hcontrol => exact (hinv.not_breaking hcontrol).elim
  | stopped hover =>
    obtain ⟨hcontrol, -⟩ := hinv.answered hover
    exact hsame (begun?_of_same rfl) (by simp [hcontrol]) (by simp [hcontrol]) rfl rfl

/-- At every point of a run the floors account for what was relied on. -/
theorem Accounts.run (hg : g.Linked) (hinv : Invariant g depth start origin cost)
    (hidle : origin.rounds = []) (time : Nat) :
    ∃ began, Accounts g origin time (Search.run g time origin).rounds began := by
  induction time with
  | zero =>
    rw [Search.run, hidle]
    exact ⟨0, .nil⟩
  | succ time ih =>
    obtain ⟨began, h⟩ := ih
    obtain ⟨cost', hpoint⟩ := hinv.at_run hg time
    exact h.move rfl rfl hg hpoint (run_succ ▸ move_step g _)

/-- The keys of the results that wait, those for lower rounds first. -/
def pendingOrder (s : Search) : List Key := s.rounds.reverse.flatMap Round.waiting

theorem pendingOrder_perm (s : Search) : s.pendingOrder.Perm (waitingKeys s.rounds) :=
  (List.reverse_perm s.rounds).flatMap_right _

variable (g origin) in
/-- The tables, the stack and the floors of a search fit together at a time of its run. -/
structure Consistent (time : Nat) : Prop where
  apart : (run g time origin).Apart
  /-- The keys that are expanded are those that have a number below the height of the stack. -/
  numbered : ∀ key, key ∈ (run g time origin).rounds.map Round.key ↔
    ∃ number < (run g time origin).rounds.length, (run g time origin).number? key = some number
  numbers : ∀ number < (run g time origin).rounds.length,
    ∃! key, (run g time origin).number? key = some number
  order_nodup : (run g time origin).pendingOrder.Nodup
  mem_order : ∀ key, key ∈ (run g time origin).pendingOrder ↔ key ∈ (run g time origin).pending
  /-- The floor of a round is the number of a round, no higher than its own. -/
  floors : ∀ round ∈ (run g time origin).rounds, ∀ floor, round.floor = some floor →
    ∃ number < (run g time origin).rounds.length,
      (run g time origin).number? round.key = some number ∧ floor ≤ number
  /-- The floor of a result that waits is the number of a round that began before the result was
  computed, and the result relies on no provisional value below. -/
  pending : ∀ key result floor, (run g time origin).pending[key]? = some (result, floor) →
    ∃ frame began, (run g time origin).number? frame = some floor ∧
      Since g origin floor frame began time ∧ Vouched g origin key result floor began time
  /-- A round that ends without a floor below it relied on no provisional value below it. -/
  settled : ∀ round result, (run g time origin).control = .run round (.done result) →
    round.floor.filter (· < (run g time origin).stack.length) = none →
    ∃ began, Since g origin (run g time origin).stack.length round.key began time ∧
      ∀ target, Relies g origin (run g time origin).stack.length began time target →
        (run g time origin).stack.length ≤ target

theorem Accounts.accounted (h : Accounts g origin time rounds began)
    (hnodup : (rounds.map Round.key).Nodup) (hround : round ∈ rounds) :
    ∃ number before, numberIn rounds round.key = some number ∧
      Accounted g origin time number round before := by
  induction h with
  | nil => cases hround
  | @cons top below before began hbelow hle htop ih =>
    obtain ⟨hkey, hrest⟩ := List.nodup_cons.1 hnodup
    rcases List.mem_cons.1 hround with rfl | hround
    · exact ⟨_, _, numberIn_self, htop⟩
    · obtain ⟨number, earlier, hnumber, haccounted⟩ := ih hrest hround
      exact ⟨number, earlier, numberIn_cons hkey hnumber, haccounted⟩

theorem Accounts.consistent (h : Accounts g origin time (Search.run g time origin).rounds began)
    (hinv : Invariant g depth start (Search.run g time origin) cost) :
    Consistent g origin time := by
  have hnodup := hinv.nodup_rounds
  have horder := pendingOrder_perm (Search.run g time origin)
  constructor
  case apart => exact hinv.tables_apart
  case numbered =>
    intro key
    rw [mem_keys_iff_numberIn]
    exact ⟨fun ⟨n, hn⟩ => ⟨n, numberIn_lt hn, hn⟩, fun ⟨n, _, hn⟩ => ⟨n, hn⟩⟩
  case numbers =>
    intro number hlt
    obtain ⟨key, _, hkey, -⟩ := h.frame hnodup hlt
    exact ⟨key, hkey, fun key' hkey' => numberIn_injective hkey' hkey⟩
  case order_nodup =>
    exact horder.nodup_iff.2 (List.nodup_append.1 (nodup_keys_append_waiting hinv.keys.nodup)).2.1
  case mem_order =>
    intro key
    rw [horder.mem_iff]
    refine ⟨fun hkey => ?_, hinv.mem_waitingKeys⟩
    obtain ⟨result, floor, _, _, hentry, -⟩ := h.waiting hnodup hkey
    exact (Std.HashMap.getElem?_eq_some_iff.1 hentry).choose
  case floors =>
    intro round hround floor hfloor
    obtain ⟨number, _, hnumber, haccounted⟩ := h.accounted hnodup hround
    exact ⟨number, numberIn_lt hnumber, hnumber, haccounted.floor_le floor hfloor⟩
  case pending =>
    intro key result floor hentry
    obtain ⟨hmem, -⟩ := Std.HashMap.getElem?_eq_some_iff.1 hentry
    obtain ⟨result', floor', frame, before, hentry', hframe, hsince, hvouched⟩ :=
      h.waiting hnodup (hinv.mem_waitingKeys hmem)
    obtain ⟨rfl, rfl⟩ := Prod.mk.inj (Option.some.inj (hentry.symm.trans hentry'))
    exact ⟨frame, before, hframe, hsince, hvouched⟩
  case settled =>
    intro round result hcontrol hfloor
    rw [rounds_of_run hcontrol] at h
    cases h with
    | cons hbelow hle hround =>
      rw [List.length_map] at hround
      refine ⟨began, hround.since, fun target hrelies => ?_⟩
      obtain ⟨floor, hsome, hle⟩ := hround.relies target hrelies
      have hnot := Option.filter_eq_none_iff.1 hfloor floor hsome
      exact Nat.le_trans (by simpa using hnot) hle

end Search

open Search

/-- On a built grammar, whatever was asked before, the bookkeeping is consistent at every point of
the search that answers a query for a key. -/
theorem Description.bookkeeping_consistent {ucd : Unicode} {g : Grammar} {d : Description}
    (h : d.build ucd = .ok g) (requests : List Request) {key : Key}
    (hkey : g.HasKey g.maxDepth key) :
    (∀ time, Consistent g ((session g requests).opening key) time) ∧
      (g.ask key (session g requests)).2 =
        (Search.run g (stepBound g key.depth) ((session g requests).opening key)).memory := by
  have hg := d.linked_of_build h
  have hcount : (session g requests).countQuery.Faithful g :=
    (session_faithful hg requests).of_cache_eq rfl
  have hinv : Invariant g key.depth key ((session g requests).opening key) 1 :=
    invariant_start hg hcount ⟨hkey.node, hkey.pos, Nat.le_refl _⟩
  refine ⟨fun time => ?_, rfl⟩
  obtain ⟨began, haccounts⟩ := Accounts.run hg hinv rfl time
  obtain ⟨cost, hpoint⟩ := hinv.at_run hg time
  exact haccounts.consistent hpoint

/-- After other queries and a clearing, the search for what a call of the left-recursive rule can
begin with. -/
theorem leftRecursiveWords_bookkeeping :
    leftRecursiveWords.build .ascii = .ok leftRecursiveWords.layout ∧
      ∀ time, Consistent leftRecursiveWords.layout
        ((session leftRecursiveWords.layout [.ask (.follow 2 "s"), .clear]).opening
          (.block ⟨0⟩ 2 .callSite)) time :=
  ⟨leftRecursiveWords_build, (Description.bookkeeping_consistent leftRecursiveWords_build
    [.ask (.follow 2 "s"), .clear] ⟨by decide +kernel, by decide, by decide +kernel⟩).1⟩

end GrammarLookahead
