import GrammarLookahead.Proofs.Analysis.LeftReads
import GrammarLookahead.Proofs.Analysis.SearchStep

/-!
The left-recursive rules that a search records. A rule is recorded only if it is left-recursive, on a
walk that does not pass the key searched for unless that stands for the rule itself. Whenever
results are finished, every walk without tokens among them that leads from the block of a rule back
to it passes the block of a recorded rule.

The second part rests on the order in which the results that wait for a round were computed. A key
that was read before its own result was computed was suspended at that time, so it was met again and
its rule is recorded if it stands for a rule. On a walk from the block of a rule back to it, the key
that was computed last stands for a rule, and it was read for another key of the walk.
-/

namespace GrammarLookahead.Search

variable (g : Grammar) (nullable : Rule → Prop) (top : Nat)

/-- The rule of a key is recorded, if the key stands for a rule. -/
def Noted (recorded : OrderedSet RuleId) (key : Key) : Prop :=
  ∀ id b, key.node = .block id → key.context = .callSite → g.block? id = some b →
    b.kind = .rule → b.rule ∈ recorded

/-- The key of the rule that a key belongs to is among some keys. Only keys that are asked from calls
and look as far ahead as possible are bound to have it there. -/
def Housed (keys : List Key) (key : Key) : Prop :=
  key.context = .callSite → key.depth = top →
    ∀ node, g.root? key.node = some node → ⟨node, top, .callSite⟩ ∈ keys

/-- What holds of the key of a result and that of a later one: the earlier key is not the rule of
the later one, and if the later key was read for the earlier one, it was met again. -/
structure Ordered (v : View) (recorded : OrderedSet RuleId) (key later : Key) : Prop where
  root : later.context = .callSite → later.depth = top →
    ∀ node, g.root? later.node = some node → key ≠ ⟨node, top, .callSite⟩
  noted : later ∈ (g.expand key).keysRead v.value → Noted g recorded later

/-- What holds of a round, given the rounds below it. -/
structure Watched (v : View) (recorded : OrderedSet RuleId) (below : List Round) (round : Round) :
    Prop where
  noted : round.reentered = true → Noted g recorded round.key
  housed : Housed g top ((round :: below).map Round.key) round.key
  waiting : round.unstable = false →
    ∀ k ∈ round.waiting, Housed g top (round.waiting ++ (round :: below).map Round.key) k
  ordered : round.unstable = false → round.waiting.Pairwise (Ordered g top v recorded)

/-- What holds of the rounds of a search. -/
def Watch (v : View) (recorded : OrderedSet RuleId) : List Round → Prop
  | [] => True
  | round :: below => Watched g top v recorded below round ∧ Watch v recorded below

/-- Every walk without tokens that leads from a finished rule back to it passes a recorded rule. -/
def Vigilant (finished : Key → Prop) (recorded : OrderedSet RuleId) : Prop :=
  ∀ id r nodes, g.rule? id = some r →
    g.LeftWalk nullable (.block r.block) nodes (.block r.block) →
    finished (.block r.block top .callSite) →
    ∃ id' r', g.rule? id' = some r' ∧ .block r'.block ∈ nodes ∧ id' ∈ recorded

/-- How a search comes to record a rule: the key of the rule is not finished, and it is met again on
a walk without tokens. The walk does not pass the key searched for, unless that is the key of the
rule. -/
structure Met (start : Key) (known : Memory) (id : RuleId) (r : Rule) (depth : Nat)
    (nodes : List Node) : Prop where
  rule : g.rule? id = some r
  hasKey : g.HasKey start.depth (.block r.block depth .callSite)
  unfinished : Key.block r.block depth .callSite ∉ known.cache
  walk : g.LeftWalk nullable (.block r.block) nodes (.block r.block)
  avoids : start = .block r.block depth .callSite ∨ ∀ n ∈ nodes, start ≠ ⟨n, depth, .callSite⟩

/-- What holds of the recorded rules at every point of a search for a key, begun with what an
analysis remembers. -/
structure Watching (start : Key) (known : Memory) (s : Search) : Prop where
  watch : Watch g top s.view s.memory.leftRecursive s.rounds
  kept : ∀ key ∈ known.cache, key ∈ s.memory.cache
  recorded : ∀ id ∈ s.memory.leftRecursive,
    id ∈ known.leftRecursive ∨ ∃ r depth nodes, Met g nullable start known id r depth nodes
  vigilant : Vigilant g nullable top (· ∈ s.memory.cache) s.memory.leftRecursive

variable {g nullable top} {depth cost n : Nat} {start key q k : Key} {keys keys' : List Key}
  {v v' : View} {recorded recorded' : OrderedSet RuleId} {m : Memory} {round r : Round}
  {below rounds' : List Round} {stack : List Frame} {result : LookaheadSet}

theorem mem_noteLeftRecursion {id : RuleId} :
    id ∈ (noteLeftRecursion g m key).leftRecursive ↔
      (∃ block b, key.node = .block block ∧ key.context = .callSite ∧ g.block? block = some b ∧
        b.kind = .rule ∧ b.rule = id) ∨ id ∈ m.leftRecursive := by
  obtain ⟨node, d, c⟩ := key
  cases node with
  | element e => simp [noteLeftRecursion]
  | block block =>
    cases c with
    | everywhere => simp [noteLeftRecursion]
    | callSite =>
      cases hb : g.block? block with
      | none => simp [noteLeftRecursion, hb]
      | some b =>
        by_cases hk : b.kind = .rule
        · simp [noteLeftRecursion, hb, hk, Memory.addLeftRecursive, eq_comm]
        · simp [noteLeftRecursion, hb, hk]

theorem noted_noteLeftRecursion : Noted g (noteLeftRecursion g m key).leftRecursive key :=
  fun id b hnode hcontext hb hk =>
    mem_noteLeftRecursion.2 (Or.inl ⟨id, b, hnode, hcontext, hb, hk, rfl⟩)

theorem Noted.mono (h : Noted g recorded key) (hm : ∀ id ∈ recorded, id ∈ recorded') :
    Noted g recorded' key :=
  fun id b hnode hcontext hb hk => hm _ (h id b hnode hcontext hb hk)

theorem Housed.mono (h : Housed g top keys key) (hkeys : ∀ k ∈ keys, k ∈ keys') :
    Housed g top keys' key :=
  fun hcontext hdepth node hnode => hkeys _ (h hcontext hdepth node hnode)

theorem Vigilant.mono {finished : Key → Prop} (h : Vigilant g nullable top finished recorded)
    (hm : ∀ id ∈ recorded, id ∈ recorded') : Vigilant g nullable top finished recorded' := by
  intro id r nodes hr hwalk hfinished
  obtain ⟨id', r', hr', hmem, hid'⟩ := h id r nodes hr hwalk hfinished
  exact ⟨id', r', hr', hmem, hm id' hid'⟩

theorem StackInvariant.start_mem (h : StackInvariant g depth v start stack q cost)
    (hstack : stack ≠ []) : start ∈ held (stack.map Frame.round) := by
  induction h with
  | nil => exact absurd rfl hstack
  | @cons f below q n cost hround hbelow ih =>
    rw [List.map_cons, mem_held_cons]
    cases below with
    | nil =>
      cases hbelow
      exact Or.inl rfl
    | cons f' below => exact Or.inr (Or.inr (ih (List.cons_ne_nil _ _)))

/-- A suspended key from which a search has come to a key that looks as far ahead, all of it asked
from calls, lies on a walk without tokens. -/
theorem StackInvariant.leftWalk (hg : g.Linked) (hnullable : g.TellsNullable nullable)
    (h : StackInvariant g depth v start stack q cost)
    (hvalue : g.Below depth v.value g.lookahead) (hnodup : (held (stack.map Frame.round)).Nodup)
    {position : Nat} {f : Frame} (hf : stack[position]? = some f)
    (hcontext : f.round.key.context = .callSite) :
    q.context = .callSite ∧ q.depth ≤ f.round.key.depth ∧
      (q.depth = f.round.key.depth →
        ∃ nodes, g.LeftWalk nullable f.round.key.node nodes q.node ∧ (start = f.round.key ∨
          ∀ n ∈ nodes, start ≠ ⟨n, f.round.key.depth, .callSite⟩)) := by
  induction h generalizing position with
  | nil => simp at hf
  | @cons f' below q n cost hround hbelow ih =>
    have hasks := (hround.meets _ hvalue (Grammar.Below.refl _)).1
    have hle := (hasks.hasKey hg (hg.fits_lookahead depth) hround.key).2
    obtain ⟨-, -, htop, -, hnodup'⟩ := apart_of_nodup hnodup
    have hkey : ∀ d, f'.round.key.context = .callSite → f'.round.key.depth = d →
        f'.round.key = ⟨f'.round.key.node, d, .callSite⟩ := by
      rintro d hcontext rfl
      rw [← hcontext]
    cases position with
    | zero =>
      obtain rfl : f' = f := Option.some.inj hf
      refine ⟨hasks.context_eq hcontext, hle, fun hdepth => ?_⟩
      refine ⟨_, .single (hasks.leftStep hnullable hcontext hround.key.pos hdepth), ?_⟩
      rw [List.forall_mem_singleton, ← hkey _ hcontext rfl]
      exact eq_or_ne _ _
    | succ position =>
      obtain ⟨hcontext', hle', hwalk⟩ := ih hnodup' hf
      refine ⟨hasks.context_eq hcontext', Nat.le_trans hle hle', fun hdepth => ?_⟩
      obtain ⟨nodes, hnodes, havoids⟩ := hwalk (by omega)
      have hstep := hasks.leftStep hnullable hcontext' hround.key.pos (by omega)
      refine ⟨_, hnodes.snoc hstep, havoids.imp_right fun havoids n hn => ?_⟩
      rcases List.mem_append.1 hn with hn | hn
      · exact havoids n hn
      · -- The key searched for is the lowest of the suspended keys.
        have hbottom := hbelow.start_mem fun hnil => by simp [hnil] at hf
        rw [List.mem_singleton.1 hn, ← hkey _ hcontext' (by omega)]
        exact fun heq => htop (heq ▸ hbottom)

theorem Settled.keysRead_eq {scope : Key → Prop} (h : Settled g v scope k)
    (hscope : ∀ q, scope q → v'.value q = v.value q) :
    (g.expand k).keysRead v'.value = (g.expand k).keysRead v.value :=
  (Reading.eval_congr fun q hq => (hscope q (h.reads q hq)).symm).2.symm

/-- Values may grow where a round does not rely on them. -/
theorem Watched.grown {reading : Reading LookaheadSet} (h : Watched g top v recorded below round)
    (hround : RoundInvariant g depth v below round n reading)
    (hgrown : Grown g depth v v' (round :: below)) : Watched g top v' recorded below round := by
  refine ⟨h.noted, h.housed, h.waiting, fun hstable => ?_⟩
  refine (h.ordered hstable).imp_of_mem fun {a b} ha hb hab => ⟨hab.root, fun hread => ?_⟩
  have hsame : (g.expand a).keysRead v'.value = (g.expand a).keysRead v.value :=
    (hround.settled hstable a ha).keysRead_eq fun q hq => hgrown.agree q hq.finished_or_held
  exact hab.noted (hsame ▸ hread)

theorem Watch.grown (h : Watch g top v recorded (stack.map Frame.round))
    (hstack : StackInvariant g depth v start stack q cost)
    (hgrown : Grown g depth v v' (stack.map Frame.round)) :
    Watch g top v' recorded (stack.map Frame.round) := by
  induction hstack with
  | nil => trivial
  | cons hround hbelow ih => exact ⟨h.1.grown hround hgrown, ih h.2 hgrown.tail⟩

/-- A round that differs in its floor and in the mark that its key was met again only; if the mark
is new, the key is noted. -/
structure Marks (g : Grammar) (recorded : OrderedSet RuleId) (r r' : Round) : Prop where
  key : r'.key = r.key
  waiting : r'.waiting = r.waiting
  unstable : r'.unstable = r.unstable
  reentered : r'.reentered = true → r.reentered = true ∨ Noted g recorded r.key

theorem forall₂_marks_key (h : List.Forall₂ (Marks g recorded) below rounds') :
    rounds'.map Round.key = below.map Round.key := by
  induction h with
  | nil => rfl
  | cons hr _ ih => rw [List.map_cons, List.map_cons, hr.key, ih]

theorem Watch.marks (h : Watch g top v recorded below) (hm : ∀ id ∈ recorded, id ∈ recorded')
    (hrounds : List.Forall₂ (Marks g recorded') below rounds') : Watch g top v recorded' rounds' := by
  induction hrounds with
  | nil => trivial
  | @cons r r' below below' hr hrest ih =>
    obtain ⟨⟨hnoted, hhoused, hwaiting, hordered⟩, hbelow⟩ := h
    have hkeys : (r' :: below').map Round.key = (r :: below).map Round.key := by
      rw [List.map_cons, List.map_cons, hr.key, forall₂_marks_key hrest]
    refine ⟨⟨fun hreentered => ?_, ?_, fun hstable => ?_, fun hstable => ?_⟩, ih hbelow⟩
    · rw [hr.key]
      exact (hr.reentered hreentered).elim (fun h => (hnoted h).mono hm) id
    · rw [hkeys, hr.key]
      exact hhoused
    · rw [hkeys, hr.waiting]
      exact hwaiting (hr.unstable ▸ hstable)
    · rw [hr.waiting]
      exact (hordered (hr.unstable ▸ hstable)).imp fun hab =>
        ⟨hab.root, fun hread => (hab.noted hread).mono hm⟩

theorem Marks.refl (r : Round) : Marks g recorded r r := ⟨rfl, rfl, rfl, Or.inl⟩

theorem forall₂_marks_refl (rounds : List Round) : List.Forall₂ (Marks g recorded) rounds rounds :=
  List.forall₂_same.2 fun r _ => Marks.refl r

theorem forall₂_marks_mapTop (stack : List Frame) (number : Nat) :
    List.Forall₂ (Marks g recorded) (stack.map Frame.round)
      ((stack.modifyHead (Frame.mapRound (·.lowerFloor number))).map Frame.round) := by
  cases stack with
  | nil => exact .nil
  | cons f below => exact .cons ⟨rfl, rfl, rfl, Or.inl⟩ (forall₂_marks_refl _)

theorem forall₂_marks_modify (position : Nat)
    (h : ∀ f, stack[position]? = some f → Noted g recorded f.round.key) :
    List.Forall₂ (Marks g recorded) (stack.map Frame.round) ((stack.modify position
      (Frame.mapRound fun r => { r with reentered := true })).map Frame.round) := by
  induction stack generalizing position with
  | nil => simp
  | cons f below ih =>
    cases position with
    | zero => exact .cons ⟨rfl, rfl, rfl, fun _ => Or.inr (h f rfl)⟩ (forall₂_marks_refl _)
    | succ position => exact .cons (Marks.refl _) (ih position h)

theorem mem_held_of_key (h : q ∈ below.map Round.key) : q ∈ held below := by
  obtain ⟨r, hr, rfl⟩ := List.mem_map.1 h
  exact mem_held_iff.2 (Or.inl ⟨r, hr, rfl⟩)

section

variable (hkeys : KeyInvariant g depth v (round :: below))
  (hround : RoundInvariant g depth v below round n (.done result))
  (hstable : round.unstable = false)
  (hsame : round.reentered = true → v.value round.key = result)
  (hvalue : v'.value = Function.update v.value round.key result)
  (hw : Watched g top v recorded below round)
include hkeys hround hstable hsame hvalue hw

/-- The result of a stable round comes after the results that wait for it. -/
theorem Watched.ordered_end : (round.waiting ++ [round.key]).Pairwise (Ordered g top v' recorded) := by
  obtain ⟨hkey, -, -, hapart, -⟩ := hkeys.apart
  have hread : ∀ k ∈ round.waiting,
      (g.expand k).keysRead v'.value = (g.expand k).keysRead v.value := fun k hk =>
    (hround.settled hstable k hk).keysRead_eq fun q hq => by
      rw [hvalue]
      exact hkeys.agree hsame hq
  rw [List.pairwise_append]
  refine ⟨?_, List.pairwise_singleton _ _, fun a ha b hb => ?_⟩
  · refine (hw.ordered hstable).imp_of_mem fun {a b} ha hb hab => ⟨hab.root, fun hmem => ?_⟩
    exact hab.noted (hread a ha ▸ hmem)
  · obtain rfl := List.mem_singleton.1 hb
    constructor
    · rintro hcontext hdepth node hnode rfl
      rcases List.mem_cons.1 (hw.housed hcontext hdepth node hnode) with heq | hmem
      · exact hkey (heq ▸ ha)
      · exact hapart _ ha (mem_held_of_key hmem)
    · intro hmem
      rw [hread a ha] at hmem
      exact hw.noted (hkeys.reentered_of_scope ((hround.settled hstable a ha).reads _ hmem))

omit hkeys hround hsame hvalue in
theorem Watched.housed_end : ∀ k ∈ round.waiting ++ [round.key],
    Housed g top (round.waiting ++ [round.key] ++ below.map Round.key) k := by
  intro k hk
  rcases List.mem_append.1 hk with hk | hk
  · exact (hw.waiting hstable k hk).mono fun q hq => by simpa [or_assoc] using hq
  · obtain rfl := List.mem_singleton.1 hk
    apply hw.housed.mono
    intro q hq
    rw [List.append_assoc, List.mem_append]
    exact Or.inr hq

end

section

variable {number cost' : Nat} {unstable : Bool} {rest : Reading LookaheadSet}
  (hkeys : KeyInvariant g depth v (round :: r :: below))
  (hround : RoundInvariant g depth v (r :: below) round n (.done result))
  (hr : RoundInvariant g depth v below r cost' rest)
  (hvalue : v'.value = Function.update v.value round.key result)
  (hgrown : Grown g depth v v' (r :: below))
  (hw : Watched g top v recorded (r :: below) round) (hwr : Watched g top v recorded below r)
include hkeys

/-- What the topmost round ends with is held by no round below, and is not finished before. -/
theorem apart_of_ended : ∀ k ∈ round.waiting ++ [round.key],
    k ∉ held (r :: below) ∧ ¬ v.finished k := by
  obtain ⟨-, -, hkey, hapart, -⟩ := hkeys.apart
  intro k hk
  rcases List.mem_append.1 hk with hk | hk
  · exact ⟨hapart k hk, hkeys.unfinished k (by simp [hk])⟩
  · obtain rfl := List.mem_singleton.1 hk
    exact ⟨hkey, hkeys.unfinished _ (by simp)⟩

include hr hgrown hw in
/-- What waited for the round below comes before what the topmost round ends with. -/
theorem Watched.ordered_across (hrstable : r.unstable = false) (hstable : round.unstable = false)
    {a b : Key} (ha : a ∈ r.waiting) (hb : b ∈ round.waiting ++ [round.key]) :
    Ordered g top v' recorded a b := by
  obtain ⟨-, -, -, -, hnodup⟩ := hkeys.apart
  obtain ⟨hrkey, -, -, hrapart, -⟩ := apart_of_nodup hnodup
  have hends := apart_of_ended hkeys
  obtain ⟨hheld, hunfinished⟩ := hends b hb
  constructor
  · rintro hcontext hdepth node hnode rfl
    rcases List.mem_append.1 (hw.housed_end hstable b hb hcontext hdepth node hnode) with hmem | hmem
    · exact (hends _ hmem).1 (by simp [ha])
    · rcases List.mem_cons.1 hmem with heq | hmem
      · exact hrkey (heq ▸ ha)
      · exact hrapart _ ha (mem_held_of_key hmem)
  · -- The round below has not read what only the topmost round could rely on.
    intro hread
    have hsettled := hr.settled hrstable a ha
    rw [hsettled.keysRead_eq fun q hq => hgrown.agree q hq.finished_or_held] at hread
    exact ((hsettled.reads b hread).finished_or_held.elim hunfinished hheld).elim

include hround hr hvalue hgrown hw hwr in
/-- The round below keeps the order when the topmost round comes to wait for it. -/
theorem Watched.postpone (hstable : unstable = false → round.unstable = false ∧
      (round.reentered = true → v.value round.key = result)) :
    Watched g top v' recorded below (receive r round number unstable) := by
  refine ⟨hwr.noted, hwr.housed, fun h => ?_, fun h => ?_⟩
  · obtain ⟨hrstable, hunstable⟩ := Bool.or_eq_false_iff.1 h
    have hhoused := hw.housed_end (hstable hunstable).1
    intro k hk
    simp only [receive, List.append_assoc] at hk
    rcases List.mem_append.1 hk with hk | hk
    · apply (hwr.waiting hrstable k hk).mono
      intro q hq
      simp only [receive, List.mem_append] at hq ⊢
      exact hq.imp_left fun hq => Or.inl (Or.inl hq)
    · apply (hhoused k hk).mono
      intro q hq
      simp only [receive, List.mem_append] at hq ⊢
      exact hq.imp_left fun hq => hq.imp_left Or.inr
  · obtain ⟨hrstable, hunstable⟩ := Bool.or_eq_false_iff.1 h
    obtain ⟨hroundStable, hsame⟩ := hstable hunstable
    have hordered := hw.ordered_end hkeys hround hroundStable hsame hvalue
    simp only [receive, List.append_assoc]
    exact List.pairwise_append.2 ⟨(hwr.grown hr hgrown).ordered hrstable, hordered,
      fun a ha b hb => hw.ordered_across hkeys hr hgrown hrstable hroundStable ha hb⟩

end

/-- In a list whose members are related to all later ones, some member of a set has all others of
the set related to it. -/
theorem exists_last {α : Type} {R : α → α → Prop} {P : α → Prop} {xs : List α} (h : xs.Pairwise R)
    (hmem : ∃ x ∈ xs, P x) : ∃ last ∈ xs, P last ∧ ∀ x ∈ xs, P x → x ≠ last → R x last := by
  induction xs with
  | nil => simp at hmem
  | cons y xs ih =>
    rw [List.pairwise_cons] at h
    by_cases hrest : ∃ x ∈ xs, P x
    · obtain ⟨last, hlast, hP, hall⟩ := ih h.2 hrest
      refine ⟨last, by simp [hlast], hP, fun x hx hPx hne => ?_⟩
      rcases List.mem_cons.1 hx with rfl | hx
      · exact h.1 last hlast
      · exact hall x hx hPx hne
    · obtain ⟨x, hx, hP⟩ := hmem
      have hnone : ∀ x ∈ xs, ¬ P x := fun x hx hP => hrest ⟨x, hx, hP⟩
      rcases List.mem_cons.1 hx with rfl | hx
      · refine ⟨x, by simp, hP, fun z hz hPz hne => ?_⟩
        rcases List.mem_cons.1 hz with rfl | hz
        · exact absurd rfl hne
        · exact absurd hPz (hnone z hz)
      · exact absurd hP (hnone x hx)

/-- When results are finished, the walks without tokens among them pass recorded rules. -/
theorem Vigilant.commit (hg : g.Linked)
    (hnullable : g.TellsNullable nullable) (hpos : 1 ≤ top)
    (hold : Vigilant g nullable top v.finished recorded)
    (hclosed : ∀ k, v.finished k → ∀ q ∈ (g.expand k).keysRead g.lookahead, v.finished q)
    (hclosed' : ∀ k, v'.finished k → ∀ q ∈ (g.expand k).keysRead g.lookahead, v'.finished q)
    (hexact : ∀ k, v'.finished k → v'.value k = g.lookahead k)
    (hfinished : ∀ q, v'.finished q → v.finished q ∨ q ∈ keys)
    (hordered : keys.Pairwise (Ordered g top v' recorded)) :
    Vigilant g nullable top v'.finished recorded := by
  intro id r nodes hr hwalk hstart
  by_cases hfin : v.finished (.block r.block top .callSite)
  · exact hold id r nodes hr hwalk hfin
  have hmem : ∀ n ∈ nodes, v'.finished ⟨n, top, .callSite⟩ ∧ ⟨n, top, .callSite⟩ ∈ keys := by
    have hnew := hwalk.forward (P := fun n => v'.finished ⟨n, top, .callSite⟩)
      (fun a b hstep ha => hclosed' _ ha _ (hstep.mem_keysRead hg hnullable hpos)) hstart
    have hidle := hwalk.backward (P := fun n => ¬ v.finished ⟨n, top, .callSite⟩)
      (fun a b hstep hb ha => hb (hclosed _ ha _ (hstep.mem_keysRead hg hnullable hpos))) hfin
    exact fun n hn => ⟨hnew.1 n hn, (hfinished _ (hnew.1 n hn)).resolve_left (hidle.2 n hn)⟩
  have hroots := hg.exists_root_of_leftWalk hwalk (fun n hn => hn)
    ⟨id, r, hr, hg.root?_ruleBlock hr, hwalk.start_mem⟩
  obtain ⟨last, hlast, ⟨n, hn, rfl⟩, hall⟩ := exists_last
    (P := fun k => ∃ n ∈ nodes, k = ⟨n, top, .callSite⟩) hordered
    ⟨_, (hmem _ hwalk.start_mem).2, _, hwalk.start_mem, rfl⟩
  -- The key that was computed last stands for a rule.
  obtain ⟨id', r', hr', hroot, hrootMem⟩ := hroots n hn
  have hself : n = .block r'.block := by
    by_contra hne
    have hkey : (⟨.block r'.block, top, .callSite⟩ : Key) ≠ ⟨n, top, .callSite⟩ := fun heq =>
      hne (congrArg Key.node heq).symm
    exact (hall _ (hmem _ hrootMem).2 ⟨_, hrootMem, rfl⟩ hkey).root rfl rfl _ hroot rfl
  subst hself
  -- It was read for another key of the walk before.
  obtain ⟨a, ha, hstep⟩ := hwalk.exists_before_of_closed hn
  have hne : (⟨a, top, .callSite⟩ : Key) ≠ ⟨.block r'.block, top, .callSite⟩ := by
    obtain ⟨site, -, rfl⟩ := hg.exists_caller hr' hstep
    exact fun heq => Node.noConfusion (congrArg Key.node heq)
  have hread : (⟨.block r'.block, top, .callSite⟩ : Key) ∈
      (g.expand ⟨a, top, .callSite⟩).keysRead v'.value := by
    have hsame := (Reading.eval_congr (F := g.lookahead) (G := v'.value)
      (r := g.expand ⟨a, top, .callSite⟩) fun q hq =>
        (hexact q (hclosed' _ (hmem a ha).1 q hq)).symm).2
    exact hsame ▸ hstep.mem_keysRead hg hnullable hpos
  have hnoted := (hall _ (hmem a ha).2 ⟨a, ha, rfl⟩ hne).noted hread
  obtain ⟨b, hb, hk, hrule⟩ := (hg.rule hr').block
  exact ⟨id', r', hr', hn, hrule ▸ hnoted r'.block b rfl rfl hb hk⟩

end GrammarLookahead.Search
