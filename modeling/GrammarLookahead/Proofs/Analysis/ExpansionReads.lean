import GrammarLookahead.Proofs.Analysis.ExpansionContract

/-!
The keys that an expansion reads. Answered from a family of sets, the expansion of a key asks for
every key that lies one step further. Main statement: `Grammar.Asks.mem_keysRead`.
-/

namespace GrammarLookahead

namespace Reading

variable {α β ι : Type} {F : Key → LookaheadSet} {key : Key}

theorem eval_bind {r : Reading α} (f : α → Reading β) {a : α} (h : r.eval F = .ok a) :
    (r >>= f).eval F = (f a).eval F := by
  induction r with
  | done b =>
    obtain rfl := Except.ok.inj h
    rfl
  | ask key go ih => exact ih (F key) h
  | broken reason => cases h

theorem keysRead_bind (r : Reading α) (f : α → Reading β) {a : α} (h : r.eval F = .ok a) :
    (r >>= f).keysRead F = r.keysRead F ++ (f a).keysRead F := by
  induction r with
  | done b =>
    obtain rfl := Except.ok.inj h
    rfl
  | ask key go ih => exact congrArg (key :: ·) (ih (F key) h)
  | broken reason => cases h

theorem keysRead_look_bind (f : LookaheadSet → Reading β) :
    (look key >>= f).keysRead F = key :: (f (F key)).keysRead F := rfl

theorem mem_keysRead_bind {r : Reading α} (h : key ∈ r.keysRead F) (f : α → Reading β) :
    key ∈ (r >>= f).keysRead F := by
  induction r with
  | done a => simp [keysRead] at h
  | ask k go ih =>
    rcases List.mem_cons.1 h with rfl | h
    · exact List.mem_cons_self
    · exact List.mem_cons_of_mem _ (ih (F k) h)
  | broken reason => simp [keysRead] at h

/-- Joining what several readings of one depth yield asks what each of them asks. -/
theorem mem_keysRead_joinAll {part : ι → Reading LookaheadSet} {xs : List ι} {start : LookaheadSet}
    (hparts : ∀ i ∈ xs, ∃ a, (part i).eval F = .ok a ∧ a.depth = start.depth) {i : ι} (hi : i ∈ xs)
    (hkey : key ∈ (part i).keysRead F) : key ∈ (joinAll start (xs.map part)).keysRead F := by
  induction xs generalizing start with
  | nil => simp at hi
  | cons j xs ih =>
    obtain ⟨a, ha, hdepth⟩ := hparts j (by simp)
    have hall : joinAll start ((j :: xs).map part) =
        (part j >>= fun b => join start b) >>= fun b => joinAll b (xs.map part) := rfl
    have hfirst : (part j >>= fun b => join start b).eval F = .ok (start.addMembers a) := by
      rw [eval_bind _ ha, join_eq_done hdepth]
      rfl
    rw [hall]
    rcases List.mem_cons.1 hi with rfl | hi
    · exact mem_keysRead_bind (mem_keysRead_bind hkey _) _
    · rw [keysRead_bind _ _ hfirst]
      exact List.mem_append_right _ (ih (fun i hi => hparts i (by simp [hi])) hi)

/-- Asking several readings in turn asks what each of them asks, as long as none breaks. -/
theorem mem_keysRead_mapM {part : ι → Reading β} {xs : List ι}
    (hparts : ∀ i ∈ xs, ∃ b, (part i).eval F = .ok b) {i : ι} (hi : i ∈ xs)
    (hkey : key ∈ (part i).keysRead F) : key ∈ (xs.mapM part).keysRead F := by
  induction xs with
  | nil => simp at hi
  | cons j xs ih =>
    rw [List.mapM_cons]
    rcases List.mem_cons.1 hi with rfl | hi
    · exact mem_keysRead_bind hkey _
    · obtain ⟨b, hb⟩ := hparts j (by simp)
      rw [keysRead_bind _ _ hb, List.mem_append]
      exact Or.inr (mem_keysRead_bind (ih (fun i hi => hparts i (by simp [hi])) hi) _)

end Reading

namespace Grammar

variable {g : Grammar} {F : Family} {key q : Key} {depth d : Nat} {c : Context} {n : ElementId}

theorem expand_element (id : ElementId) :
    g.expand (.element id d c) = g.expandElement id d c := rfl

theorem eval_ahead (next : Option ElementId) :
    (ahead next d c).eval F = .ok (behind F (next.map .element) d c) := by
  cases next with
  | none => rfl
  | some n => rfl

/-- The place behind a token is read if something is visible behind one of the tokens. -/
theorem mem_keysRead_expandTokens {tokens : List TokenId} {t : TokenId} (ht : t ∈ tokens)
    (heof : t.isEof = false) (hd : 1 ≤ d) :
    .element n d c ∈ (expandTokens tokens (some n) (d + 1) c).keysRead F := by
  have hall : ¬ tokens.all TokenId.isEof = true := fun hall => by
    simp [List.all_eq_true.1 hall t ht] at heof
  have hlast : ¬ (d + 1 = 1 ∨ tokens.all TokenId.isEof = true) := by
    rintro (h | h)
    · omega
    · exact hall h
  unfold expandTokens
  rw [if_neg hlast, if_neg (by omega)]
  exact List.mem_cons_self

/-- The place behind a call is read as far ahead as some unfinished member of the rule leaves
open. -/
theorem mem_keysRead_expandReference {target : RuleId} {r : Rule} {p : TokenSeq}
    (hr : g.rule? target = some r) (hp : .unfinished p ∈ F (.block r.block d .callSite))
    (hdepth : (F (.block r.block d .callSite)).depth = d) :
    .element n (d - p.length) c ∈ (g.expandReference target (some n) d c).keysRead F := by
  have hmissing : d - p.length ∈ (F (.block r.block d .callSite)).missingDepths.toList :=
    LookaheadSet.mem_missingDepths.2 ⟨p, hp, by rw [LookaheadSet.missing, hdepth]⟩
  have hasked : Key.element n (d - p.length) c ∈
      (ahead (some n) (d - p.length) c >>= fun a => Reading.done (d - p.length, a)).keysRead F :=
    List.mem_cons_self
  simp only [expandReference, hr, Reading.keysRead_look_bind]
  refine List.mem_cons_of_mem _ (Reading.mem_keysRead_bind ?_ _)
  exact @Reading.mem_keysRead_mapM _ Nat F _
    (fun rest => ahead (some n) rest c >>= fun a => .done (rest, a)) _ (fun rest _ => ⟨_, rfl⟩) _
    hmissing hasked

theorem mem_keysRead_expandBlock (hg : g.Linked) (hF : g.Fits depth F) (hd : 1 ≤ d) (hle : d ≤ depth)
    {id : BlockId} {b : Block} (hb : g.block? id = some b) (hn : n ∈ g.entries b) :
    .element n d c ∈ (g.expandBlock id d c).keysRead F := by
  simp only [expandBlock, hb]
  refine Reading.mem_keysRead_joinAll (fun n hn => ⟨_, rfl, ?_⟩) hn List.mem_cons_self
  exact hF.depth_eq _ ⟨hg.contains_entry hb hn, hd, hle⟩

/-- The places behind all calls of a rule are read. -/
theorem mem_keysRead_expandFollow (hg : g.Linked) (hF : g.Fits depth F) (hd : 1 ≤ d)
    (hle : d ≤ depth) {target : RuleId} {r : Rule} (hr : g.rule? target = some r) {site : ElementId}
    (hsite : site ∈ r.callers) (hn : g.next? site = some n) :
    .element n d .everywhere ∈ (g.expandFollow target d).keysRead F := by
  have hasked : Key.element n d .everywhere ∈ (ahead (g.next? site) d .everywhere).keysRead F := by
    rw [hn]
    exact List.mem_cons_self
  simp only [expandFollow, hr]
  refine Reading.mem_keysRead_joinAll (fun site _ => ⟨_, eval_ahead _, ?_⟩) hsite hasked
  rw [depth_behind hF.depth_eq hd hle (hg.contains_site site)]
  split <;> rfl

/-- What lies one step further is read. -/
theorem Asks.mem_keysRead (h : g.Asks F key q) (hg : g.Linked) (hF : g.Fits depth F)
    (hkey : g.HasKey depth key) : q ∈ (g.expand key).keysRead F := by
  obtain ⟨hnode, hpos, hle⟩ := hkey
  cases h with
  | branch hb hn => exact mem_keysRead_expandBlock hg hF hpos hle hb hn
  | @token id n e t d c he ht heof hn hd =>
    have hread := @mem_keysRead_expandTokens F d c n _ t ht heof hd
    rw [← hn] at hread
    simp only [expand_element, expandElement, he]
    cases hk : e.kind with
    | terminal =>
      rw [hk] at hread
      exact hread
    | wildcard =>
      rw [hk] at hread
      exact hread
    | notTerminal =>
      rw [hk] at hread
      exact hread
    | _ => simp [tokensOf, hk] at ht
  | call he hk hr =>
    simp only [expand_element, expandElement, he, hk, expandReference, hr]
    exact List.mem_cons_self
  | @returned id n e name target r d c p he hk hr hp hn =>
    simp only [expand_element, expandElement, he, hk, hn]
    exact mem_keysRead_expandReference hr hp (hF.depth_eq _ ⟨hg.contains_ruleBlock hr, hpos, hle⟩)
  | inner he hk =>
    rcases hk with hk | hk
    · simp only [expand_element, expandElement, he, hk]
      exact List.mem_singleton_self _
    · simp only [expand_element, expandElement, he, hk]
      exact List.mem_singleton_self _
  | exit he hk hb =>
    simp only [expand_element, expandElement, he, hk, expandBlockEnd, hb]
    exact List.mem_cons_self
  | again he hk hb hloop =>
    simp only [expand_element, expandElement, he, hk, expandBlockEnd, hb, hloop, if_true]
    exact List.mem_cons_of_mem _ List.mem_cons_self
  | follower he hk hr hsite hn =>
    simp only [expand_element, expandElement, he, hk]
    exact mem_keysRead_expandFollow hg hF hpos hle hr hsite hn

end Grammar

end GrammarLookahead
