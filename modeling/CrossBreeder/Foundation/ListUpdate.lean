import Mathlib.Tactic.Ring

/-!
# Lists with one value updated

`List.modify` and `List.set` replace the value at one index.
-/

namespace CrossBreeder.Foundation

variable {α β : Type*}

theorem mem_modify_cases {list : List α} {k : ℕ} {update : α → α} {value : α}
    (h : value ∈ list.modify k update) :
    value ∈ list ∨ ∃ old, list[k]? = some old ∧ value = update old := by
  obtain ⟨position, hposition, rfl⟩ := List.mem_iff_getElem.mp h
  rw [List.length_modify] at hposition
  rw [List.getElem_modify]
  split_ifs with hk
  · subst hk
    exact Or.inr ⟨_, List.getElem?_eq_getElem hposition, rfl⟩
  · exact Or.inl (List.getElem_mem hposition)

theorem getD_modify (list : List α) (index : ℕ) (update : α → α) (k : ℕ) (fallback : α) :
    (list.modify index update).getD k fallback =
      if index = k ∧ k < list.length then update (list.getD k fallback)
      else list.getD k fallback := by
  simp only [List.getD_eq_getElem?_getD, List.getElem?_modify]
  by_cases hlt : k < list.length
  · by_cases hindex : index = k <;> simp [hlt, hindex]
  · simp [hlt]

theorem modify_concat_length (list : List α) (value : α) (update : α → α) :
    (list ++ [value]).modify list.length update = list ++ [update value] := by
  induction list with
  | nil => rfl
  | cons head list ih => simp [ih]

theorem map_modify_of_comp (g : α → β) (update : α → α)
    (h : ∀ value, g (update value) = g value) (list : List α) (index : ℕ) :
    (list.modify index update).map g = list.map g := by
  refine List.ext_getElem (by simp) fun position hleft hright ↦ ?_
  simp only [List.getElem_map, List.getElem_modify]
  split_ifs
  · exact h _
  · rfl

theorem sum_map_set (g : α → ℕ) {list : List α} {index : ℕ} {old : α}
    (h : list[index]? = some old) (new : α) :
    ((list.set index new).map g).sum + g old = (list.map g).sum + g new := by
  induction list generalizing index with
  | nil => simp at h
  | cons head list ih =>
    rcases index with _ | index
    · obtain rfl : head = old := by simpa using h
      simp only [List.set_cons_zero, List.map_cons, List.sum_cons]
      omega
    · rw [List.getElem?_cons_succ] at h
      have hrest := ih h
      simp only [List.set_cons_succ, List.map_cons, List.sum_cons]
      omega

end CrossBreeder.Foundation
