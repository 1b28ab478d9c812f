import Mathlib.Data.List.Perm.Basic
import Mathlib.Data.List.Range

/-!
# Pools with random removal

A pool is an array of which the first `size` slots are live. Removal takes the value of any live
slot and moves the last live value into it; a value is put back behind the last live slot.
`live_perm_removeAt` and `live_putBack` say that removal and return only move one value between the
pool and the outside, so that the live slots together with the values handed out keep the same
contents up to order.
-/

namespace CrossBreeder.Foundation

open scoped List

variable {Value : Type*}

/-- The values in the first `size` slots of an array. -/
def live (slots : ℕ → Value) (size : ℕ) : List Value := (List.range size).map slots

/-- The array after removal from slot `index` when slot `last` is the last live one. -/
def removeAt (slots : ℕ → Value) (last index : ℕ) : ℕ → Value :=
  Function.update slots index (slots last)

@[simp] theorem length_live (slots : ℕ → Value) (size : ℕ) : (live slots size).length = size := by
  simp [live]

theorem live_succ (slots : ℕ → Value) (size : ℕ) :
    live slots (size + 1) = live slots size ++ [slots size] := by
  simp [live, List.range_succ]

theorem live_update_of_le {slots : ℕ → Value} {size index : ℕ} (h : size ≤ index) (value : Value) :
    live (Function.update slots index value) size = live slots size := by
  refine List.map_congr_left fun slot hslot ↦ Function.update_of_ne ?_ _ _
  have hlt : slot < size := List.mem_range.mp hslot
  omega

theorem live_putBack (slots : ℕ → Value) (size : ℕ) (value : Value) :
    live (Function.update slots size value) (size + 1) = live slots size ++ [value] := by
  rw [live_succ, live_update_of_le le_rfl, Function.update_self]

theorem live_update (slots : ℕ → Value) (size index : ℕ) (value : Value) :
    live (Function.update slots index value) size = (live slots size).set index value := by
  refine List.ext_getElem (by simp) fun slot hleft hright ↦ ?_
  simp only [live, List.getElem_map, List.getElem_range, List.getElem_set]
  by_cases hslot : index = slot
  · subst hslot
    simp
  · rw [Function.update_of_ne (Ne.symm hslot)]
    simp [hslot]

theorem live_perm_removeAt (slots : ℕ → Value) {last index : ℕ} (h : index ≤ last) :
    (live slots (last + 1)).Perm (slots index :: live (removeAt slots last index) last) := by
  rw [live_succ]
  rcases Nat.lt_or_eq_of_le h with hlt | rfl
  · have hindex : index < (live slots last).length := by simpa using hlt
    have hvalue : (live slots last)[index] = slots index := by simp [live]
    have hout := (List.getElem_cons_eraseIdx_perm hindex).symm
    have hin := List.set_perm_cons_eraseIdx hindex (slots last)
    rw [hvalue] at hout
    rw [removeAt, live_update]
    calc live slots last ++ [slots last]
        _ ~ slots last :: live slots last := List.perm_append_singleton _ _
        _ ~ slots last :: slots index :: (live slots last).eraseIdx index := hout.cons _
        _ ~ slots index :: slots last :: (live slots last).eraseIdx index := .swap _ _ _
        _ ~ slots index :: (live slots last).set index (slots last) := hin.symm.cons _
  · rw [removeAt, live_update_of_le le_rfl]
    exact List.perm_append_singleton _ _

end CrossBreeder.Foundation
