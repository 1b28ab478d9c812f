import Mathlib.Data.List.Basic
import Mathlib.Tactic.Ring

/-!
# Walks that step over the entry behind a deleted one

A walk that deletes the due entries of a circular list, and goes on behind the entry that follows a
deleted one, tests only every second entry of a run of adjacent due entries. One pass halves every
run (`runs_sweepPass`). The walk deletes all due entries exactly if the run at the end has one entry
less than a power of two and the others are shorter than twice that power (`Swept.clear_iff`).
-/

namespace CrossBreeder.Foundation

variable {α : Type*}

/-- One pass, and whether it has deleted the last entry. -/
def sweepPass (due : α → Bool) : List α → List α × Bool
  | [] => ([], false)
  | [x] => if due x then ([], true) else ([x], false)
  | x :: y :: l =>
    if due x then (y :: (sweepPass due l).1, (sweepPass due l).2)
    else (x :: (sweepPass due (y :: l)).1, (sweepPass due (y :: l)).2)

inductive Swept (due : α → Bool) : List α → List α → Prop
  | stop {l : List α} (hend : (sweepPass due l).2 = false) : Swept due l (sweepPass due l).1
  | again {l result : List α} (hend : (sweepPass due l).2 = true) (hrest :
    Swept due (sweepPass due l).1 result) :
      Swept due l result

/-- The numbers of adjacent due entries before each other entry, and at the end. -/
def runs (due : α → Bool) : List α → List ℕ
  | [] => [0]
  | x :: l => if due x then (runs due l).modifyHead (· + 1) else 0 :: runs due l

variable {due : α → Bool}

variable (due) in
theorem runs_ne_nil (l : List α) : runs due l ≠ [] := by
  induction l with
  | nil => simp [runs]
  | cons x l ih =>
    rw [runs]
    split_ifs
    · obtain ⟨k, ks, hruns⟩ := List.exists_cons_of_ne_nil ih
      simp [hruns]
    · simp

theorem sweepPass_skip {x : α} (hx : due x = true) (y : α) (l : List α) :
    sweepPass due (x :: y :: l) = (y :: (sweepPass due l).1, (sweepPass due l).2) := by
  rw [sweepPass, if_pos hx]

theorem sweepPass_keep {x : α} (hx : due x = false) (l : List α) :
    sweepPass due (x :: l) = (x :: (sweepPass due l).1, (sweepPass due l).2) := by
  cases l with
  | nil => simp [sweepPass, hx]
  | cons y l => rw [sweepPass, if_neg (by simp [hx])]

theorem sweepPass_last {x : α} (hx : due x = true) : sweepPass due [x] = ([], true) := if_pos hx

variable (due) in
theorem runs_sweepPass (l : List α) :
    runs due (sweepPass due l).1 = (runs due l).map (· / 2) ∧
      (sweepPass due l).2 = decide ((runs due l).getLastD 0 % 2 = 1) := by
  induction l using sweepPass.induct due with
  | case1 => exact ⟨rfl, rfl⟩
  | case2 x hx =>
    rw [sweepPass_last hx]
    simp [runs, hx]
  | case3 x hx =>
    rw [sweepPass_keep (by simpa using hx)]
    simp [runs, hx, sweepPass]
  | case4 x y l hx ih =>
    obtain ⟨hruns, hend⟩ := ih
    obtain ⟨k, ks, hks⟩ := List.exists_cons_of_ne_nil (runs_ne_nil due l)
    rw [sweepPass_skip hx]
    by_cases hy : due y = true
    · -- two entries of one run
      simp only [runs, hx, hy, hruns, hend, hks, if_true, List.modifyHead_cons, List.map_cons]
      refine ⟨by congr 1; omega, ?_⟩
      cases ks with
      | nil => simp [show (k + 1 + 1) % 2 = k % 2 by omega]
      | cons k' ks => simp
    · simp only [runs, hx, hy, hruns, hend, hks, if_true, if_false, Bool.false_eq_true,
        List.modifyHead_cons, List.map_cons]
      exact ⟨trivial, by cases ks <;> simp⟩
  | case5 x y l hx ih =>
    obtain ⟨hruns, hend⟩ := ih
    have hx' : due x = false := by simpa using hx
    obtain ⟨k, ks, hks⟩ := List.exists_cons_of_ne_nil (runs_ne_nil due (y :: l))
    rw [sweepPass_keep hx']
    rw [runs, runs, if_neg hx, if_neg hx, hruns, hend, hks]
    exact ⟨rfl, by simp⟩

theorem filter_sweepPass (l : List α) :
    (sweepPass due l).1.filter (!due ·) = l.filter (!due ·) := by
  induction l using sweepPass.induct due with
  | case1 => rfl
  | case2 x hx => simp [sweepPass_last hx, hx]
  | case3 x hx => rw [sweepPass_keep (by simpa using hx)]; rfl
  | case4 x y l hx ih =>
    rw [sweepPass_skip hx,
      List.filter_cons_of_neg (a := x) (by simpa using hx), List.filter_cons, List.filter_cons, ih]
  | case5 x y l hx ih =>
    rw [sweepPass_keep (by simpa using hx), List.filter_cons, List.filter_cons (x := x), ih]

theorem runs_eq_zero_iff (l : List α) : (∀ k ∈ runs due l, k = 0) ↔ ∀ x ∈ l, due x = false := by
  induction l with
  | nil => simp [runs]
  | cons x l ih =>
    by_cases hx : due x = true
    · obtain ⟨k, ks, hks⟩ := List.exists_cons_of_ne_nil (runs_ne_nil due l)
      simp [runs, hx, hks]
    · simp [runs, hx, ih]

theorem Swept.filter {l result : List α} (h : Swept due l result) :
    result.filter (!due ·) = l.filter (!due ·) := by
  induction h with
  | stop => exact filter_sweepPass _
  | again _ _ ih => rw [ih, filter_sweepPass]

variable (due) in
theorem getLastD_runs_mem (l : List α) : (runs due l).getLastD 0 ∈ runs due l := by
  obtain ⟨k, ks, hks⟩ := List.exists_cons_of_ne_nil (runs_ne_nil due l)
  rw [hks, List.getLastD_cons]
  exact List.getLastD_mem_cons

/-- The walk leaves no due entry exactly if the run at the end has one entry less than some power of
two, and no run has twice as many as that power. -/
theorem Swept.clear_iff {l result : List α} (h : Swept due l result) :
    (∀ x ∈ result, due x = false) ↔
      ∃ j, (runs due l).getLastD 0 + 1 = 2 ^ j ∧ ∀ k ∈ runs due l, k < 2 ^ (j + 1) := by
  induction h with
  | @stop l hend =>
    obtain ⟨hruns, hlast⟩ := runs_sweepPass due l
    have hmem := getLastD_runs_mem due l
    have heven : (runs due l).getLastD 0 % 2 = 0 := by
      rw [hend] at hlast
      have hodd := of_decide_eq_false hlast.symm
      omega
    rw [← runs_eq_zero_iff, hruns]
    simp only [List.mem_map, forall_exists_index, and_imp, forall_apply_eq_imp_iff₂]
    generalize (runs due l).getLastD 0 = last at *
    constructor
    · intro hzero
      have hnone := hzero last hmem
      exact ⟨0, by omega, fun k hk ↦ by have := hzero k hk; omega⟩
    · rintro ⟨j, hj, hbound⟩ k hk
      -- the run at the end is even, so that it is empty
      obtain rfl : j = 0 := by
        cases j with
        | zero => rfl
        | succ j =>
          rw [Nat.pow_succ] at hj
          omega
      have hsmall := hbound k hk
      omega
  | @again l result hend hrest ih =>
    obtain ⟨hruns, hlast⟩ := runs_sweepPass due l
    have hodd : (runs due l).getLastD 0 % 2 = 1 := of_decide_eq_true (hlast.symm.trans hend)
    have hhalf : ((runs due l).map (· / 2)).getLastD 0 = (runs due l).getLastD 0 / 2 :=
      List.getLastD_map (f := (· / 2)) (a := 0)
    rw [ih, hruns, hhalf]
    simp only [List.mem_map, forall_exists_index, and_imp, forall_apply_eq_imp_iff₂]
    generalize (runs due l).getLastD 0 = last at *
    constructor
    · rintro ⟨j, hj, hbound⟩
      refine ⟨j + 1, by rw [Nat.pow_succ]; omega, fun k hk ↦ ?_⟩
      have hsmall := hbound k hk
      rw [Nat.pow_succ]
      omega
    · rintro ⟨j, hj, hbound⟩
      cases j with
      | zero => omega
      | succ j =>
        rw [Nat.pow_succ] at hj
        refine ⟨j, by omega, fun k hk ↦ ?_⟩
        have hsmall := hbound k hk
        rw [Nat.pow_succ] at hsmall
        omega

end CrossBreeder.Foundation
