import Mathlib.Data.Finset.Card

/-!
# Tables of bounded size

A table takes every key that is not in it yet as long as there is room. So it holds the keys that
are named while fewer different ones have been named than there is room for
(`mem_boundedTable_iff`).
-/

namespace CrossBreeder.Foundation

variable {α : Type*} [DecidableEq α] {room : ℕ} {keys before after table : List α} {k : α}

/-- A key is put behind the others, if it is not there and there is room. -/
def insertBounded (room : ℕ) (table : List α) (k : α) : List α :=
  if k ∈ table then table else if table.length < room then table ++ [k] else table

def boundedTable (room : ℕ) (keys : List α) : List α := keys.foldl (insertBounded room) []

@[simp] theorem boundedTable_nil : boundedTable room ([] : List α) = [] := rfl

@[simp] theorem boundedTable_concat (room : ℕ) (keys : List α) (k : α) :
    boundedTable room (keys ++ [k]) = insertBounded room (boundedTable room keys) k :=
  List.foldl_concat ..

theorem mem_insertBounded {other : α} :
    other ∈ insertBounded room table k ↔ other ∈ table ∨ (other = k ∧ table.length < room) := by
  unfold insertBounded
  grind

theorem mem_insertBounded_of_mem {other : α} (hother : other ∈ table) :
    other ∈ insertBounded room table k :=
  mem_insertBounded.mpr (.inl hother)

theorem length_insertBounded_le (h : table.length ≤ room) :
    (insertBounded room table k).length ≤ room := by
  unfold insertBounded
  split_ifs with hmem hroom
  · exact h
  · rwa [List.length_append]
  · exact h

theorem nodup_insertBounded (h : table.Nodup) : (insertBounded room table k).Nodup := by
  unfold insertBounded
  split_ifs with hmem hroom
  · exact h
  · exact List.nodup_append'.mpr ⟨h, List.nodup_singleton k, by simpa using hmem⟩
  · exact h

theorem length_boundedTable_le (room : ℕ) (keys : List α) :
    (boundedTable room keys).length ≤ room := by
  induction keys using List.reverseRecOn with
  | nil => exact Nat.zero_le room
  | append_singleton keys k ih => exact boundedTable_concat room keys k ▸ length_insertBounded_le ih

theorem nodup_boundedTable (room : ℕ) (keys : List α) : (boundedTable room keys).Nodup := by
  induction keys using List.reverseRecOn with
  | nil => exact List.nodup_nil
  | append_singleton keys k ih => exact boundedTable_concat room keys k ▸ nodup_insertBounded ih

theorem mem_of_mem_boundedTable (h : k ∈ boundedTable room keys) : k ∈ keys := by
  induction keys using List.reverseRecOn with
  | nil => exact h
  | append_singleton keys last ih =>
    rw [boundedTable_concat, mem_insertBounded] at h
    rcases h with h | ⟨rfl, -⟩
    · exact List.mem_append_left _ (ih h)
    · exact List.mem_append_right _ (List.mem_singleton_self k)

theorem length_boundedTable_le_card (room : ℕ) (keys : List α) :
    (boundedTable room keys).length ≤ keys.toFinset.card := by
  rw [← List.toFinset_card_of_nodup (nodup_boundedTable room keys)]
  exact Finset.card_le_card fun k hk ↦
    List.mem_toFinset.mpr (mem_of_mem_boundedTable (List.mem_toFinset.mp hk))

theorem mem_boundedTable_append (h : k ∈ boundedTable room before) :
    k ∈ boundedTable room (before ++ after) := by
  induction after using List.reverseRecOn with
  | nil => rwa [List.append_nil]
  | append_singleton after last ih =>
    rw [← List.append_assoc, boundedTable_concat]
    exact mem_insertBounded_of_mem ih

theorem mem_boundedTable_of_lt (hroom : (boundedTable room keys).length < room) (hk : k ∈ keys) :
    k ∈ boundedTable room keys := by
  induction keys using List.reverseRecOn with
  | nil => exact hk
  | append_singleton keys last ih =>
    rw [boundedTable_concat] at hroom ⊢
    have hbefore : (boundedTable room keys).length < room := by
      unfold insertBounded at hroom
      grind
    rcases List.mem_append.mp hk with hk | hk
    · exact mem_insertBounded_of_mem (ih hbefore hk)
    · exact mem_insertBounded.mpr (.inr ⟨List.mem_singleton.mp hk, hbefore⟩)

theorem mem_boundedTable_iff :
    k ∈ boundedTable room keys ↔ ∃ before after, keys = before ++ k :: after ∧
      before.toFinset.card < room := by
  constructor
  · intro h
    induction keys using List.reverseRecOn with
    | nil => exact nomatch h
    | append_singleton keys last ih =>
      rw [boundedTable_concat, mem_insertBounded] at h
      rcases h with h | ⟨rfl, hroom⟩
      · obtain ⟨before, after, rfl, hcard⟩ := ih h
        exact ⟨before, after ++ [last], by simp, hcard⟩
      · refine ⟨keys, [], rfl, lt_of_le_of_lt ?_ hroom⟩
        rw [← List.toFinset_card_of_nodup (nodup_boundedTable room keys)]
        exact Finset.card_le_card fun other hother ↦
          List.mem_toFinset.mpr (mem_boundedTable_of_lt hroom (List.mem_toFinset.mp hother))
  · rintro ⟨before, after, rfl, hcard⟩
    have hroom := lt_of_le_of_lt (length_boundedTable_le_card room before) hcard
    have hhere : k ∈ boundedTable room (before ++ [k]) := by
      rw [boundedTable_concat]
      exact mem_insertBounded.mpr (.inr ⟨rfl, hroom⟩)
    rw [List.append_cons]
    exact mem_boundedTable_append hhere

end CrossBreeder.Foundation
