import GrammarLookahead.Proofs.Analysis.RecursionWatch

/-!
Steps and runs of a search keep what holds of the recorded rules. Main statement:
`Search.Watching.run`.
-/

namespace GrammarLookahead.Search

variable {g : Grammar} {nullable : Rule → Prop} {top depth cost : Nat} {start key q : Key}
  {s t : Search} {v : View} {recorded : OrderedSet RuleId} {known : Memory} {round : Round} {stack : List Frame}
  {result : LookaheadSet}

/-- A search that asks from a call begins with a rule. -/
def BeginsWithRule (g : Grammar) (start : Key) : Prop :=
  start.context = .callSite → ∃ id r, g.rule? id = some r ∧ start.node = .block r.block

theorem Watching.of_view (h : Watching g nullable top start known s)
    (hview : t.view.finished = s.view.finished)
    (hm : ∀ id ∈ s.memory.leftRecursive, id ∈ t.memory.leftRecursive)
    (hrecorded : ∀ id ∈ t.memory.leftRecursive, id ∈ s.memory.leftRecursive ∨
      ∃ r depth nodes, Met g nullable start known id r depth nodes)
    (hrounds : Watch g top t.view t.memory.leftRecursive t.rounds) :
    Watching g nullable top start known t := by
  have hfinished : (· ∈ t.memory.cache) = (· ∈ s.memory.cache) := hview
  refine ⟨hrounds, fun key hkey => ?_, fun id hid => ?_, ?_⟩
  · exact (congrFun hfinished key).mpr (h.kept key hkey)
  · exact (hrecorded id hid).elim (h.recorded id) Or.inr
  · rw [hfinished]
    exact h.vigilant.mono hm

/-- The key that a search comes to is at home on the stack. -/
theorem Watch.housed_next (hg : g.Linked) (hle : depth ≤ top) (hstart : BeginsWithRule g start)
    (hkey : g.HasKey depth q) (hvalue : g.Below depth v.value g.lookahead)
    (hinv : StackInvariant g depth v start stack q cost)
    (hw : Watch g top v recorded (stack.map Frame.round)) :
    Housed g top (q :: (stack.map Frame.round).map Round.key) q := by
  intro hcontext hdepth node hnode
  have hself : (∃ id r, g.rule? id = some r ∧ q.node = .block r.block) →
      (⟨node, top, .callSite⟩ : Key) = q := by
    rintro ⟨id, r, hr, hq⟩
    rw [hq, hg.root?_ruleBlock hr] at hnode
    obtain ⟨node', depth', context'⟩ := q
    obtain rfl := Option.some.inj hnode
    obtain rfl : node' = .block r.block := hq
    obtain rfl : depth' = top := hdepth
    obtain rfl : context' = .callSite := hcontext
    rfl
  cases hinv with
  | nil => exact List.mem_cons.2 (Or.inl (hself (hstart hcontext)))
  | @cons f below _ n c hround hbelow =>
    have hasks := (hround.meets _ hvalue (Grammar.Below.refl _)).1
    have hle' : f.round.key.depth ≤ q.depth := by
      have := hround.key.le
      omega
    rcases hasks.root?_eq hg hcontext hkey.pos hle' with hrule | ⟨hroot, hcontext', hdepth'⟩
    · exact List.mem_cons.2 (Or.inl (hself hrule))
    · exact List.mem_cons.2 (Or.inr
        (hw.1.housed hcontext' (hdepth'.trans hdepth) node (hroot ▸ hnode)))

/-- A round that begins relies on nothing yet. -/
theorem watched_begin {below : List Round} (h : Housed g top (key :: below.map Round.key) key) :
    Watched g top v recorded below { key } :=
  ⟨fun hreentered => absurd hreentered Bool.false_ne_true, h, fun _ _ hk => absurd hk List.not_mem_nil,
    fun _ => .nil⟩

section

variable (hg : g.Linked) (hnullable : g.TellsNullable nullable) (h : Invariant g start.depth start s cost)
  (hw : Watching g nullable top start known s)
include hg h hw

theorem Watching.begin (hle : start.depth ≤ top) (hstart : BeginsWithRule g start)
    (hcontrol : s.control = .look key) : Watching g nullable top start known (s.begin g key) := by
  have hwatch := hw.watch
  rw [rounds_of_look hcontrol] at hwatch
  obtain ⟨c, -, hinv⟩ := h.of_look hcontrol
  have hkey := hinv.hasKey hg h.hasKey h.keys.below
  refine hw.of_view rfl (fun _ => id) (fun _ => Or.inl) ⟨watched_begin ?_, hwatch⟩
  exact hwatch.housed_next hg hle hstart hkey h.keys.below hinv

omit hg h in
theorem Watching.lookPending {number : Nat} (hcontrol : s.control = .look key) :
    Watching g nullable top start known
      { s.mapTop (·.lowerFloor number) with
        control := .answer result
        memory := s.memory.countCacheHit } := by
  have hwatch := hw.watch
  rw [rounds_of_look hcontrol] at hwatch
  refine hw.of_view rfl (fun _ => id) (fun _ => Or.inl) ?_
  exact hwatch.marks (fun _ => id) (forall₂_marks_mapTop s.stack number)

include hnullable in
/-- A rule that is recorded when its key is met again lies on a walk without tokens from the
suspended key to the key that was asked for. -/
theorem Watching.breakCycle {position : Nat} (hcontrol : s.control = .look key)
    (hcache : key ∉ s.memory.cache)
    (hposition : s.stack.findIdx? (·.round.key = key) = some position) :
    Watching g nullable top start known (s.breakCycle g key position) := by
  have hrounds := rounds_of_look hcontrol
  have hwatch := hw.watch
  rw [hrounds] at hwatch
  obtain ⟨c, -, hinv⟩ := h.of_look hcontrol
  obtain ⟨f, hget, hkey⟩ := exists_suspended hposition
  have hmemory : (s.breakCycle g key position).memory =
      noteLeftRecursion g s.memory.countCycleBreak key := rfl
  have hview : (s.breakCycle g key position).view = s.view := view_breakCycle
  have hm : ∀ id ∈ s.memory.leftRecursive,
      id ∈ (noteLeftRecursion g s.memory.countCycleBreak key).leftRecursive := fun id hid =>
    mem_noteLeftRecursion.2 (Or.inr hid)
  refine hw.of_view (congrArg View.finished hview) hm (fun id hid => ?_) ?_
  · rcases mem_noteLeftRecursion.1 hid with ⟨block, b, hnode, hcontext, hb, hk, rfl⟩ | hid
    · have hasKey := hinv.hasKey hg h.hasKey h.keys.below
      obtain ⟨-, -, hwalk⟩ := hinv.leftWalk hg hnullable h.keys.below (hrounds ▸ h.keys.nodup) hget
        (hkey ▸ hcontext)
      obtain ⟨nodes, hnodes, havoids⟩ := hwalk (by rw [hkey])
      obtain ⟨r, hr, rfl⟩ := (hg.block hb).rule hk
      obtain ⟨node, d, c⟩ := key
      obtain rfl : node = .block r.block := hnode
      obtain rfl : c = .callSite := hcontext
      rw [hkey] at hnodes havoids
      refine Or.inr ⟨r, d, nodes, hr, hasKey, fun hmem => hcache (hw.kept _ hmem), hnodes, havoids⟩
    · exact Or.inl hid
  · have hmarked := hwatch.marks hm (forall₂_marks_modify position fun f hf => by
      obtain rfl := Option.some.inj (hget.symm.trans hf)
      rw [hkey]
      exact noted_noteLeftRecursion)
    rw [hview, hmemory]
    exact hmarked.marks (fun _ => id) (forall₂_marks_mapTop _ (s.stack.length - 1 - position))

variable (hcontrol : s.control = .run round (.done result))
include hcontrol

omit hg h in
/-- What is known of the rounds when one of them ends. -/
theorem Watching.ended : Watched g top s.view s.memory.leftRecursive (s.stack.map Frame.round) round ∧
    Watch g top s.view s.memory.leftRecursive (s.stack.map Frame.round) := by
  have hwatch := hw.watch
  rwa [rounds_of_run hcontrol] at hwatch

theorem Watching.again : Watching g nullable top start known ((s.grow round result).again g round) := by
  obtain ⟨hround, hbelow⟩ := hw.ended hcontrol
  obtain ⟨c, n, -, -, -, hstack, -⟩ := h.ended hg hcontrol
  have hrecorded : ((s.grow round result).again g round).memory.leftRecursive =
      s.memory.leftRecursive := by
    show (s.grow round result).memory.leftRecursive = _
    rw [memory_grow]
  have hgrown := hbelow.grown hstack (h.grown_again hg hcontrol)
  refine hw.of_view finished_again (fun _ hid => hrecorded ▸ hid)
    (fun _ hid => Or.inl (hrecorded ▸ hid)) ?_
  rw [rounds_again, hrecorded]
  exact ⟨watched_begin hround.housed, hgrown⟩

theorem Watching.postpone {floor : Nat} (hle : floor < s.stack.length) :
    Watching g nullable top start known ((s.grow round result).postpone round result
      (round.unstable || s.grew round result) floor) := by
  obtain ⟨f, frames, hframes⟩ : ∃ f frames, s.stack = f :: frames :=
    List.exists_cons_of_length_pos (Nat.zero_lt_of_lt hle)
  have hsame := h.stable hg hcontrol
  generalize (round.unstable || s.grew round result) = unstable at hsame ⊢
  obtain ⟨hround, hbelow⟩ := hw.ended hcontrol
  have hgrown := h.grown_postpone hg hcontrol unstable floor
  obtain ⟨c, n, -, hkeys, hinv, hstack, -, hcache, -⟩ := h.ended hg hcontrol
  have hview := @view_postpone s result round hcache unstable floor
  have hmemory : ((s.grow round result).postpone round result unstable floor).memory = s.memory :=
    memory_grow
  refine hw.of_view (by rw [hview]; rfl) (fun _ hid => hmemory ▸ hid)
    (fun _ hid => Or.inl (hmemory ▸ hid)) ?_
  rw [hmemory, rounds_postpone hframes]
  have hbelow' := hbelow.grown hstack hgrown
  have hvalue := congrArg View.value hview
  generalize ((s.grow round result).postpone round result unstable floor).view = v' at *
  rw [hframes] at hstack hbelow hbelow' hkeys hround hinv hgrown
  cases hstack with
  | cons hr _ => exact ⟨hround.postpone hkeys hinv hr hvalue hgrown hbelow.1 hsame, hbelow'.2⟩

include hnullable in
theorem Watching.commit (hpos : 1 ≤ top)
    (hstable : (round.unstable || s.grew round result) = false)
    (hfloor : ∀ f, round.floor = some f → s.stack.length ≤ f) :
    Watching g nullable top start known ((s.grow round result).commit round result) := by
  obtain ⟨hunstable, hsame⟩ := h.stable hg hcontrol hstable
  obtain ⟨hround, hbelow⟩ := hw.ended hcontrol
  have hgrown := h.grown_commit hg hcontrol
  have hkeys' := h.keys_commit hg hcontrol hstable hfloor
  have hrounds := @rounds_commit s round result
  have hview := h.view_commit hg hcontrol
  have hmemory := @leftRecursive_commit s result round
  obtain ⟨c, n, -, hkeys, hinv, hstack, -⟩ := h.ended hg hcontrol
  generalize (s.grow round result).commit round result = t at *
  have hvalue : t.view.value = Function.update s.view.value round.key result := by rw [hview]; rfl
  have hfinished : ∀ q, t.view.finished q →
      s.view.finished q ∨ q ∈ round.waiting ++ [round.key] := by
    rw [hview]
    exact fun q hq => hq.imp_right fun hq => List.mem_append.2 (hq.imp_right List.mem_singleton.2)
  have hordered := hround.ordered_end hkeys hinv hunstable hsame hvalue
  have hkept : ∀ q, q ∈ s.memory.cache → q ∈ t.memory.cache := fun q => hgrown.finished q
  refine ⟨?_, fun q hq => hkept q (hw.kept q hq), hmemory ▸ hw.recorded, ?_⟩
  · rw [hrounds, hmemory]
    exact hbelow.grown hstack hgrown
  · have hvigilant := Vigilant.commit hg hnullable hpos hw.vigilant hkeys.closed hkeys'.closed
      hkeys'.exact hfinished hordered
    rw [hmemory]
    exact hvigilant

end

/-- Every step keeps what holds of the recorded rules. -/
theorem Watching.step (hg : g.Linked) (hnullable : g.TellsNullable nullable) (hpos : 1 ≤ top)
    (hle : start.depth ≤ top) (hstart : BeginsWithRule g start) (h : Invariant g start.depth start s cost)
    (hw : Watching g nullable top start known s) : Watching g nullable top start known (s.step g) := by
  have hmove := move_step g s
  generalize s.step g = t at hmove ⊢
  -- Moves that leave the tables and the rounds as they are.
  have hkeep : ∀ t : Search, t.view = s.view → t.memory.leftRecursive = s.memory.leftRecursive →
      t.rounds = s.rounds → Watching g nullable top start known t := by
    intro t hview hrecorded hrounds
    refine hw.of_view (congrArg View.finished hview) (fun _ hid => hrecorded ▸ hid)
      (fun _ hid => Or.inl (hrecorded ▸ hid)) ?_
    rw [hview, hrecorded, hrounds]
    exact hw.watch
  cases hmove with
  | recalled hcontrol _ => exact hkeep _ rfl rfl (by simp only [rounds, hcontrol])
  | reused hcontrol _ _ => exact hw.lookPending hcontrol
  | metAgain hcontrol hcache hposition => exact hw.breakCycle hg hnullable h hcontrol hcache hposition
  | begun hcontrol _ _ _ => exact hw.begin hg h hle hstart hcontrol
  | asked hcontrol => exact hkeep _ rfl rfl (by simp only [rounds, hcontrol, List.map_cons])
  | resumed hcontrol hstack =>
    exact hkeep _ rfl rfl (by simp only [rounds, hcontrol, hstack, List.map_cons])
  | postponed hcontrol _ hlt => exact hw.postpone hg h hcontrol hlt
  | repeated hcontrol _ _ => exact hw.again hg h hcontrol
  | committed hcontrol hfloor hstable =>
    exact hw.commit hg hnullable h hcontrol hpos hstable hfloor
  | broke hcontrol => exact (h.not_breaking hcontrol).elim
  | stopped _ => exact hw

/-- A whole run keeps what holds of the recorded rules. -/
theorem Watching.run (hg : g.Linked) (hnullable : g.TellsNullable nullable) (hpos : 1 ≤ top)
    (hle : start.depth ≤ top) (hstart : BeginsWithRule g start) {n : Nat}
    (h : Invariant g start.depth start s cost) (hw : Watching g nullable top start known s) :
    Watching g nullable top start known (run g n s) :=
  (h.run_induction hg hw (fun hinv hw => hw.step hg hnullable hpos hle hstart hinv) n).2

end GrammarLookahead.Search
