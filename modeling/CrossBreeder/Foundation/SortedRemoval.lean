import Mathlib.Data.List.Sigma

/-!
# Removing the first values of a sorted array

A list is copied to an array, the array is sorted, and the first values of the array are unlinked
from the list. The values are told apart by their positions, so that equal values may be in the list
(`removeFirst`). `removeFirst_spec` says what is left when the comparison sorts by a rank, with the
largest first.
-/

namespace CrossBreeder.Foundation

variable {α : Type*}

/-- The list without the values that come first in its sorted array. -/
def removeFirst (le : α → α → Bool) (count : ℕ) (list : List α) : List α :=
  let sorted := list.zipIdx.mergeSort fun x y ↦ le x.1 y.1
  let removed := (sorted.take count).map Prod.snd
  (list.zipIdx.filter fun x ↦ x.2 ∉ removed).map Prod.fst

theorem perm_removeFirst (le : α → α → Bool) (count : ℕ) (list : List α) :
    (removeFirst le count list).Perm
      (((list.zipIdx.mergeSort fun x y ↦ le x.1 y.1).drop count).map Prod.fst) := by
  unfold removeFirst
  set sorted := list.zipIdx.mergeSort fun x y ↦ le x.1 y.1 with hsorted
  have hperm : sorted.Perm list.zipIdx := List.mergeSort_perm _ _
  have hnodup : (sorted.map Prod.snd).Nodup :=
    ((hperm.map Prod.snd).nodup_iff).mpr (List.nodup_zipIdx_map_snd list)
  refine List.Perm.map _ ((hperm.symm.filter _).trans ?_)
  -- no position is in both parts of the array
  have hdisjoint : ∀ x ∈ sorted.drop count, x.2 ∉ (sorted.take count).map Prod.snd := by
    intro x hx hin
    rw [← List.take_append_drop count sorted, List.map_append, List.nodup_append] at hnodup
    exact hnodup.2.2 x.2 hin x.2 (List.mem_map_of_mem hx) rfl
  have htake : (sorted.take count).filter (fun x ↦ x.2 ∉ (sorted.take count).map Prod.snd) =
    [] := by
    refine List.filter_eq_nil_iff.mpr fun x hx ↦ ?_
    have hin : x.2 ∈ (sorted.take count).map Prod.snd := List.mem_map_of_mem hx
    simp only [hin, not_true_eq_false, decide_false, Bool.false_eq_true, not_false_eq_true]
  have hdrop : (sorted.drop count).filter (fun x ↦ x.2 ∉ (sorted.take count).map Prod.snd) =
    sorted.drop count :=
    List.filter_eq_self.mpr fun x hx ↦ decide_eq_true (hdisjoint x hx)
  conv_lhs => rw [← List.take_append_drop count sorted]
  rw [List.filter_append]
  have hsplit := congrArg₂ (· ++ ·) htake hdrop
  simp only [List.nil_append] at hsplit
  rw [List.take_append_drop]
  exact .of_eq hsplit

/-- If the comparison puts larger ranks first, then the values that are left have the smaller ranks.
-/
theorem removeFirst_spec {le : α → α → Bool} {rank : α → ℕ} (count : ℕ) {list : List α}
    (hle : ∀ x ∈ list, ∀ y ∈ list, le x y = decide (rank y ≤ rank x)) :
    ∃ removed, (removeFirst le count list ++ removed).Perm list ∧
      (removeFirst le count list).length = list.length - count ∧
      ∀ kept ∈ removeFirst le count list, ∀ gone ∈ removed, rank kept ≤ rank gone := by
  set sorted := list.zipIdx.mergeSort fun x y ↦ le x.1 y.1 with hsorted
  have hperm : sorted.Perm list.zipIdx := List.mergeSort_perm _ _
  have hkept := perm_removeFirst le count list
  rw [← hsorted] at hkept
  have hmem : ∀ x ∈ list.zipIdx, x.1 ∈ list := fun x hx ↦ List.fst_mem_of_mem_zipIdx hx
  have hranked : sorted.Pairwise fun x y ↦ rank y.1 ≤ rank x.1 := by
    have hcongr : sorted = list.zipIdx.mergeSort fun x y ↦ decide (rank y.1 ≤ rank x.1) := by
      have hmap := @List.map_mergeSort _ _ (fun x y : α × ℕ ↦ le x.1 y.1) (fun x y ↦
        decide (rank y.1 ≤ rank x.1)) id
        list.zipIdx fun x hx y hy ↦ hle x.1 (hmem x hx) y.1 (hmem y hy)
      rwa [List.map_id, List.map_id] at hmap
    rw [hcongr]
    refine (List.pairwise_mergeSort ?_ ?_ list.zipIdx).imp fun h ↦ of_decide_eq_true h
    · intro x y z hxy hyz
      simp only [decide_eq_true_eq] at hxy hyz ⊢
      exact le_trans hyz hxy
    · intro x y
      rcases le_total (rank y.1) (rank x.1) with h | h <;> simp [h]
  rw [← List.take_append_drop count sorted, List.pairwise_append] at hranked
  refine ⟨(sorted.take count).map Prod.fst, ?_, ?_, ?_⟩
  · refine (hkept.append_right _).trans ?_
    rw [← List.map_append]
    refine (List.perm_append_comm.map _).trans ?_
    rw [List.take_append_drop]
    exact (hperm.map _).trans (.of_eq (List.zipIdx_map_fst 0 list))
  · rw [hkept.length_eq, List.length_map, List.length_drop, hperm.length_eq, List.length_zipIdx]
  · intro kept hin gone hgone
    obtain ⟨x, hx, rfl⟩ := List.mem_map.mp (hkept.mem_iff.mp hin)
    obtain ⟨y, hy, rfl⟩ := List.mem_map.mp hgone
    exact hranked.2.2 y hy x hx

theorem map_filter_eq_removeFirst {β : Type*} [DecidableEq β] (le : α → α → Bool)
    (count : ℕ) (f : β → α) {names : List β} (hnodup : names.Nodup) :
    (names.filter fun x ↦ x ∉ (names.mergeSort fun x y ↦ le (f x) (f y)).take count).map f =
      removeFirst le count (names.map f) := by
  set sorted := names.zipIdx.mergeSort fun x y ↦ le (f x.1) (f y.1) with hsorted
  have hnames : names.mergeSort (fun x y ↦ le (f x) (f y)) = sorted.map Prod.fst := by
    have hmap := @List.map_mergeSort _ _ (fun x y : β × ℕ ↦ le (f x.1) (f y.1)) (fun x y ↦
      le (f x) (f y)) Prod.fst names.zipIdx fun _ _ _ _ ↦ rfl
    rw [hsorted, hmap, List.zipIdx_map_fst]
  have hvalues : ((names.map f).zipIdx.mergeSort fun x y ↦ le x.1 y.1) =
    sorted.map (Prod.map f id) := by
    have hmap :=
      @List.map_mergeSort _ _ (fun x y : β × ℕ ↦ le (f x.1) (f y.1)) (fun x y : α × ℕ ↦ le x.1 y.1)
      (Prod.map f id) names.zipIdx fun _ _ _ _ ↦ rfl
    rw [List.zipIdx_map, hsorted, hmap]
  -- a name is removed where its position is
  have hsame : ∀ x ∈ names.zipIdx, x.1 ∈ (sorted.take count).map Prod.fst ↔
    x.2 ∈ (sorted.take count).map Prod.snd := by
    intro x hx
    have hfirst := (List.zipIdx_map_fst 0 names).symm ▸ hnodup
    have hsecond := List.nodup_zipIdx_map_snd names
    have hin : ∀ y ∈ sorted.take count, y ∈ names.zipIdx := fun y hy ↦
      List.mem_mergeSort.mp (List.mem_of_mem_take hy)
    constructor
    · intro hmem
      obtain ⟨y, hy, heq⟩ := List.mem_map.mp hmem
      rw [List.inj_on_of_nodup_map hfirst (hin y hy) hx heq] at hy
      exact List.mem_map_of_mem hy
    · intro hmem
      obtain ⟨y, hy, heq⟩ := List.mem_map.mp hmem
      rw [List.inj_on_of_nodup_map hsecond (hin y hy) hx heq] at hy
      exact List.mem_map_of_mem hy
  unfold removeFirst
  dsimp only
  rw [hvalues, hnames, List.zipIdx_map, List.filter_map, List.map_map, ← List.map_take,
    ← List.map_take, List.map_map]
  conv_lhs => rw [← List.zipIdx_map_fst 0 names]
  rw [List.filter_map, List.map_map]
  refine congrArg _ (List.filter_congr fun x hx ↦ ?_)
  have hsnd : (sorted.take count).map (Prod.snd ∘ Prod.map f id) =
    (sorted.take count).map Prod.snd :=
    List.map_congr_left fun _ _ ↦ rfl
  rw [hsnd]
  simp only [Function.comp_apply, Prod.map_snd, id_eq, hsame x hx]

end CrossBreeder.Foundation
