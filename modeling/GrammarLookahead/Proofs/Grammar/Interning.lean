import Mathlib.Data.List.GetD
import Mathlib.Data.List.Induction
import Mathlib.Data.List.Nodup
import GrammarLookahead.Vocabulary

/-!
Interning. A vocabulary lists each name once, in the order of first use, and a name keeps its handle
when more names are added. Main statements: `Vocabulary.names_internAll` and
`Vocabulary.get?_internAll`.
-/

namespace GrammarLookahead

section

variable {α : Type} [DecidableEq α]

theorem eraseDups_concat (xs : List α) (x : α) :
    (xs ++ [x]).eraseDups = xs.eraseDups ++ if x ∈ xs then [] else [x] := by
  rw [List.eraseDups_append]
  by_cases h : x ∈ xs
  · simp [List.removeAll, h]
  · simp [List.removeAll, h, List.eraseDups_cons]

theorem nodup_eraseDups (xs : List α) : xs.eraseDups.Nodup := by
  induction xs using List.reverseRecOn with
  | nil => exact List.nodup_nil
  | append_singleton xs x ih =>
    rw [eraseDups_concat]
    split
    · rwa [List.append_nil]
    · rename_i hx
      rw [List.nodup_append]
      refine ⟨ih, List.nodup_singleton x, fun y hy z hz => ?_⟩
      rw [List.mem_singleton.1 hz]
      rintro rfl
      exact hx (List.mem_eraseDups.1 hy)

theorem eraseDups_of_nodup {xs : List α} (h : xs.Nodup) : xs.eraseDups = xs := by
  induction xs using List.reverseRecOn with
  | nil => rfl
  | append_singleton xs x ih =>
    obtain ⟨hxs, -, hne⟩ := List.nodup_append.1 h
    have hx : x ∉ xs := fun hx => hne x hx x (List.mem_singleton_self x) rfl
    rw [eraseDups_concat, ih hxs, if_neg hx]

end

namespace Vocabulary

variable {v : Vocabulary} {name : String} {more : List String} {t u : TokenId}

theorem index_idOf_lt (h : name ∈ v.names) : (v.idOf name).index < v.size :=
  List.idxOf_lt_length_iff.2 h

theorem mem_tokens : t ∈ v.tokens ↔ t.index < v.size := by
  simp only [tokens, List.mem_map, List.mem_range]
  constructor
  · rintro ⟨i, hi, rfl⟩
    exact hi
  · intro h
    exact ⟨t.index, h, rfl⟩

theorem nameOf_eq_get (ht : t ∈ v.tokens) :
    v.nameOf t = v.names.get ⟨t.index, mem_tokens.1 ht⟩ :=
  List.getD_eq_getElem v.names "<unknown>" (mem_tokens.1 ht)

theorem nameOf_mem (ht : t ∈ v.tokens) : v.nameOf t ∈ v.names :=
  nameOf_eq_get ht ▸ List.get_mem _ _

/-- Different tokens have different names. -/
theorem nameOf_inj (ht : t ∈ v.tokens) (hu : u ∈ v.tokens) (h : v.nameOf t = v.nameOf u) :
    t = u := by
  rw [nameOf_eq_get ht, nameOf_eq_get hu] at h
  have hindex : t.index = u.index := congrArg Fin.val (List.nodup_iff_injective_get.1 v.nodup h)
  cases t
  cases u
  exact congrArg Handle.mk hindex

theorem nameOf_idOf (h : name ∈ v.names) : v.nameOf (v.idOf name) = name := by
  rw [nameOf, List.getD_eq_getElem?_getD, idOf, List.getElem?_idxOf h]
  rfl

/-- New names come behind the old ones, each once, in the order of their first use. -/
theorem names_internAll (v : Vocabulary) (more : List String) :
    (v.internAll more).names = (v.names ++ more).eraseDups := by
  induction more using List.reverseRecOn with
  | nil =>
    rw [List.append_nil]
    exact (eraseDups_of_nodup v.nodup).symm
  | append_singleton more name ih =>
    have hlast : v.internAll (more ++ [name]) = (v.internAll more).intern name := by
      rw [internAll, List.foldl_append]
      rfl
    rw [hlast, names_intern, ih, ← List.append_assoc, eraseDups_concat]
    simp only [List.mem_eraseDups]
    split
    · rw [List.append_nil]
    · rfl

theorem mem_names_internAll :
    name ∈ (v.internAll more).names ↔ name ∈ v.names ∨ name ∈ more := by
  rw [names_internAll, List.mem_eraseDups, List.mem_append]

theorem names_prefix_internAll (v : Vocabulary) (more : List String) :
    v.names <+: (v.internAll more).names := by
  have hnodup : v.names.eraseDups = v.names := eraseDups_of_nodup v.nodup
  rw [names_internAll, List.eraseDups_append, hnodup]
  exact List.prefix_append _ _

/-- A name keeps its handle when more names are added. -/
theorem get?_internAll {id : TokenId} (h : v.get? name = some id) (more : List String) :
    (v.internAll more).get? name = some id ∧ (v.internAll more).nameOf id = name := by
  obtain ⟨rest, hrest⟩ := names_prefix_internAll v more
  obtain ⟨hmem, hid⟩ := Option.ite_none_right_eq_some.1 h
  have hid : (v.internAll more).idOf name = id := by
    rw [← Option.some.inj hid, idOf, ← hrest, List.idxOf_append_of_mem hmem]
    rfl
  have hmem : name ∈ (v.internAll more).names := hrest ▸ List.mem_append_left _ hmem
  exact ⟨by rw [get?, if_pos hmem, hid], hid ▸ nameOf_idOf hmem⟩

end Vocabulary

end GrammarLookahead
