import Mathlib.Data.List.Forall2
import GrammarLookahead.Analysis.Reading
import GrammarLookahead.Proofs.LookaheadSet.Members

/-!
Contracts of readings. `Reading.Meets` says what a reading asks for and what it yields as long as
its questions are answered as promised, and bounds the number of its questions; a contract of a
reading made of parts follows from contracts of the parts. `Reading.LeadsTo` says how far a reading
has come once a family of sets has answered some of its questions.
-/

namespace GrammarLookahead.Reading

variable {α β : Type}

@[simp] theorem pure_eq_done (a : α) : (pure a : Reading α) = .done a := rfl

@[simp] theorem bind_done (a : α) (f : α → Reading β) : (Reading.done a >>= f) = f a := rfl

@[simp] theorem bind_ask (key : Key) (go : LookaheadSet → Reading α) (f : α → Reading β) :
    (Reading.ask key go >>= f) = .ask key fun answer => go answer >>= f := rfl

@[simp] theorem bind_broken (reason : Breakdown) (f : α → Reading β) :
    (Reading.broken reason >>= f) = .broken reason := rfl

instance : LawfulMonad Reading :=
  LawfulMonad.mk' _
    (fun r => by
      induction r with
      | done a => rfl
      | ask key go ih => exact congrArg (Reading.ask key) (funext ih)
      | broken reason => rfl)
    (fun _ _ => rfl)
    (fun r f h => by
      induction r with
      | done a => rfl
      | ask key go ih => exact congrArg (Reading.ask key) (funext ih)
      | broken reason => rfl)

/-- What a reading asks for and yields if its questions are answered as promised: every question
satisfies `asks`, at most `n` questions are asked, and the result satisfies `post`. -/
def Meets (asks : Key → Prop) (answers : Key → LookaheadSet → Prop) (n : Nat) (post : α → Prop) :
    Reading α → Prop
  | .done a => post a
  | .ask key go =>
    asks key ∧ ∃ m, n = m + 1 ∧ ∀ answer, answers key answer → Meets asks answers m post (go answer)
  | .broken _ => False

variable {asks asks' : Key → Prop} {answers answers' : Key → LookaheadSet → Prop} {n m : Nat}
  {post post' : α → Prop} {r : Reading α}

theorem Meets.mono (h : r.Meets asks answers n post) (hasks : ∀ k, asks k → asks' k)
    (hanswers : ∀ k a, asks k → answers' k a → answers k a) (hn : n ≤ m)
    (hpost : ∀ a, post a → post' a) : r.Meets asks' answers' m post' := by
  induction r generalizing n m with
  | done a => exact hpost a h
  | ask key go ih =>
    obtain ⟨hk, k, rfl, hgo⟩ := h
    obtain ⟨m, rfl⟩ : ∃ m', m = m' + 1 := ⟨m - 1, by omega⟩
    refine ⟨hasks key hk, m, rfl, fun answer ha => ?_⟩
    exact ih answer (hgo answer (hanswers key answer hk ha)) (by omega)
  | broken reason => exact h

theorem Meets.weaken (h : r.Meets asks answers n post) (hn : n ≤ m) : r.Meets asks answers m post :=
  h.mono (fun _ h => h) (fun _ _ _ h => h) hn fun _ h => h

theorem Meets.bind {mid : α → Prop} {f : α → Reading β} {post : β → Prop}
    (h : r.Meets asks answers n mid)
    (hf : ∀ a, mid a → (f a).Meets asks answers m post) :
    (r >>= f).Meets asks answers (n + m) post := by
  induction r generalizing n with
  | done a => exact (hf a h).weaken (by omega)
  | ask key go ih =>
    obtain ⟨hk, k, rfl, hgo⟩ := h
    exact ⟨hk, k + m, by omega, fun answer ha => ih answer (hgo answer ha)⟩
  | broken reason => exact h.elim

theorem Meets.look {key : Key} {post : LookaheadSet → Prop} (hk : asks key)
    (h : ∀ a, answers key a → post a) : (Reading.look key).Meets asks answers 1 post :=
  ⟨hk, 0, rfl, h⟩

variable {F G : Key → LookaheadSet} {S T : Key → Prop}

/-- The keys that a reading asks for when a family answers its questions. -/
def keysRead (F : Key → LookaheadSet) : Reading α → List Key
  | .done _ => []
  | .ask key go => key :: keysRead F (go (F key))
  | .broken _ => []

/-- A family that answers as a contract promises gets what the contract promises. -/
theorem Meets.eval (h : r.Meets asks answers n post) (hF : ∀ k, asks k → answers k (F k)) :
    ∃ a, r.eval F = .ok a ∧ post a ∧ ∀ k ∈ r.keysRead F, asks k := by
  induction r generalizing n with
  | done a => exact ⟨a, rfl, h, by simp [keysRead]⟩
  | ask key go ih =>
    obtain ⟨hk, m, rfl, hgo⟩ := h
    obtain ⟨a, ha, hpost, hkeys⟩ := ih (F key) (hgo _ (hF key hk))
    refine ⟨a, ha, hpost, fun k hmem => ?_⟩
    rcases List.mem_cons.1 hmem with rfl | hmem
    · exact hk
    · exact hkeys k hmem
  | broken reason => exact h.elim

/-- Only the answers to the questions that are asked matter. -/
theorem eval_congr (h : ∀ k ∈ r.keysRead F, F k = G k) :
    r.eval F = r.eval G ∧ r.keysRead F = r.keysRead G := by
  induction r with
  | done a => exact ⟨rfl, rfl⟩
  | ask key go ih =>
    have hkey : F key = G key := h key (by simp [keysRead])
    have hgo := ih (F key) fun k hk => h k (by simp [keysRead, hk])
    simp only [Reading.eval, keysRead, ← hkey]
    exact ⟨hgo.1, by rw [hgo.2]⟩
  | broken reason => exact ⟨rfl, rfl⟩

/-- What is left of a reading after a family has answered some of its questions, all of them for
keys of `S`. -/
inductive LeadsTo (F : Key → LookaheadSet) (S : Key → Prop) : Reading α → Reading α → Prop where
  | refl (r : Reading α) : LeadsTo F S r r
  | answer {key : Key} {go : LookaheadSet → Reading α} {rest : Reading α} (hkey : S key)
      (h : LeadsTo F S (go (F key)) rest) : LeadsTo F S (.ask key go) rest

theorem LeadsTo.mono {rest : Reading α} (h : LeadsTo F S r rest)
    (hST : ∀ k, S k → T k ∧ F k = G k) : LeadsTo G T r rest := by
  induction h with
  | refl r => exact .refl r
  | @answer key go rest hkey h ih =>
    obtain ⟨hT, heq⟩ := hST key hkey
    exact .answer hT (heq ▸ ih)

/-- One more answer. -/
theorem LeadsTo.step {key : Key} {go : LookaheadSet → Reading α}
    (h : LeadsTo F S r (.ask key go)) (hkey : S key) : LeadsTo F S r (go (F key)) := by
  generalize hrest : Reading.ask key go = rest at h
  induction h with
  | refl r => exact hrest ▸ .answer hkey (.refl _)
  | answer hk _ ih => exact .answer hk (ih hrest)

theorem LeadsTo.done {a : α} (h : LeadsTo F S r (.done a)) :
    r.eval F = .ok a ∧ ∀ k ∈ r.keysRead F, S k := by
  generalize hrest : Reading.done a = rest at h
  induction h with
  | refl r => exact hrest ▸ ⟨rfl, by simp [keysRead]⟩
  | answer hk _ ih =>
    obtain ⟨heval, hkeys⟩ := ih hrest
    refine ⟨heval, fun k hmem => ?_⟩
    rcases List.mem_cons.1 hmem with rfl | hmem
    · exact hk
    · exact hkeys k hmem

/-- Sets between two bounds. -/
def Between (low high : LookaheadSet) (a : LookaheadSet) : Prop := low ≤ a ∧ a ≤ high

theorem join_eq_done {a b : LookaheadSet} (h : b.depth = a.depth) :
    join a b = .done (a.addMembers b) := by
  unfold join
  rw [LookaheadSet.union_of_depth_eq h]

/-- Joining parts that lie between bounds yields a set between the joined bounds. -/
theorem Meets.joinAll {ι : Type} {part : ι → Reading LookaheadSet} {low high : ι → LookaheadSet}
    {xs : List ι} {start low' high' : LookaheadSet} (hstart : Between low' high' start)
    (hparts : ∀ i ∈ xs, (low i).depth = start.depth ∧
      (part i).Meets asks answers 1 (Between (low i) (high i))) :
    (Reading.joinAll start (xs.map part)).Meets asks answers xs.length
      (Between (.joinSets low' (xs.map low)) (.joinSets high' (xs.map high))) := by
  induction xs generalizing start low' high' with
  | nil => exact hstart
  | cons i xs ih =>
    obtain ⟨hdepth, hpart⟩ := hparts i (by simp)
    have hall : Reading.joinAll start ((i :: xs).map part) =
        (part i >>= fun b => Reading.join start b) >>= fun a => Reading.joinAll a (xs.map part) := rfl
    rw [hall, List.length_cons, Nat.add_comm]
    have hjoin : (part i >>= fun b => Reading.join start b).Meets asks answers 1 fun a =>
        a.depth = start.depth ∧
          Between (low'.addMembers (low i)) (high'.addMembers (high i)) a := by
      apply hpart.bind (m := 0)
      intro b hb
      rw [join_eq_done (hb.1.1.symm.trans hdepth)]
      exact ⟨rfl, LookaheadSet.addMembers_mono hstart.1 hb.1.2,
        LookaheadSet.addMembers_mono hstart.2 hb.2.2⟩
    apply hjoin.bind
    intro a ha
    exact ih ha.2 fun j hj => ha.1 ▸ hparts j (by simp [hj])

/-- Asking several readings in turn, each of at most one question. -/
theorem Meets.mapM {ι : Type} {part : ι → Reading β} {Q : ι → β → Prop} {xs : List ι}
    (hparts : ∀ i ∈ xs, (part i).Meets asks answers 1 (Q i)) :
    (xs.mapM part).Meets asks answers xs.length (List.Forall₂ Q xs) := by
  induction xs with
  | nil => exact .nil
  | cons i xs ih =>
    rw [List.mapM_cons, List.length_cons, Nat.add_comm]
    apply (hparts i (by simp)).bind
    intro b hb
    exact (ih fun j hj => hparts j (by simp [hj])).bind (m := 0) fun bs hbs => .cons hb hbs

end GrammarLookahead.Reading
