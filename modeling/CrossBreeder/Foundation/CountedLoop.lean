import Mathlib.Tactic.Ring

/-!
# Loops over an index that can stop early

`countLoop stop body m i s` makes at most `m` rounds, from the index `i` on, and stops as soon as
the state says so. A loop over a long range is a loop over its first part followed by one over the
rest (`countLoop_add`), whether the first part stops or not.
-/

namespace CrossBreeder.Foundation

variable {σ : Type*}

/-- At most `m` rounds from the index `i` on. -/
def countLoop (stop : σ → Bool) (body : ℕ → σ → σ) : ℕ → ℕ → σ → ℕ × σ
  | 0, i, s => (i, s)
  | m + 1, i, s => if stop s then (i, s) else countLoop stop body m (i + 1) (body i s)

variable {stop : σ → Bool} {body body' : ℕ → σ → σ}

theorem countLoop_of_stop {s : σ} (hstop : stop s = true) (m i : ℕ) : countLoop stop body m i s =
    (i, s) := by
  cases m with
  | zero => rfl
  | succ m => exact if_pos hstop

theorem countLoop_add (m k : ℕ) : ∀ i s, countLoop stop body (m + k) i s =
    countLoop stop body k (countLoop stop body m i s).1 (countLoop stop body m i s).2 := by
  induction m with
  | zero =>
    intro i s
    rw [Nat.zero_add]
    rfl
  | succ m ih =>
    intro i s
    by_cases hstop : stop s = true
    · rw [countLoop_of_stop hstop, countLoop_of_stop hstop, countLoop_of_stop hstop]
    · rw [Nat.succ_add, countLoop, if_neg hstop, ih, countLoop, if_neg hstop]

theorem countLoop_congr (m : ℕ) : ∀ i s,
    (∀ j, i ≤ j → j < i + m → ∀ t, stop t = false → body j t = body' j t) →
    countLoop stop body m i s = countLoop stop body' m i s := by
  induction m with
  | zero => exact fun _ _ _ ↦ rfl
  | succ m ih =>
    intro i s hbody
    rw [countLoop, countLoop]
    by_cases hstop : stop s = true
    · rw [if_pos hstop, if_pos hstop]
    · rw [if_neg hstop, if_neg hstop, hbody i le_rfl (by omega) s (by simpa using hstop)]
      exact ih (i + 1) _ fun j hle hlt ↦ hbody j (by omega) (by omega)

theorem countLoop_shift (a m : ℕ) : ∀ i s, countLoop stop body m (a + i) s =
    (a + (countLoop stop (fun j ↦ body (a + j)) m i s).1,
      (countLoop stop (fun j ↦ body (a + j)) m i s).2) := by
  induction m with
  | zero => exact fun _ _ ↦ rfl
  | succ m ih =>
    intro i s
    rw [countLoop, countLoop]
    by_cases hstop : stop s = true
    · rw [if_pos hstop, if_pos hstop]
    · rw [if_neg hstop, if_neg hstop, Nat.add_assoc]
      exact ih (i + 1) _

theorem countLoop_fst_of_not_stop (m : ℕ) : ∀ i s, stop (countLoop stop body m i s).2 = false →
    (countLoop stop body m i s).1 = i + m := by
  induction m with
  | zero => exact fun _ _ _ ↦ rfl
  | succ m ih =>
    intro i s hgoes
    by_cases hstop : stop s = true
    · rw [countLoop_of_stop hstop] at hgoes
      rw [hstop] at hgoes
      exact absurd hgoes (by simp)
    · rw [countLoop, if_neg hstop] at hgoes ⊢
      rw [ih (i + 1) _ hgoes]
      omega

theorem countLoop_fst_le (m : ℕ) : ∀ i s, (countLoop stop body m i s).1 ≤ i + m := by
  induction m with
  | zero => exact fun _ _ ↦ le_rfl
  | succ m ih =>
    intro i s
    by_cases hstop : stop s = true
    · rw [countLoop_of_stop hstop]
      exact Nat.le_add_right _ _
    · rw [countLoop, if_neg hstop]
      exact (ih (i + 1) _).trans (by omega)

theorem countLoop_add_of_stop {m i : ℕ} {s : σ} (hstop : stop (countLoop stop body m i s).2 = true)
    (k : ℕ) : countLoop stop body (m + k) i s = countLoop stop body m i s := by
  rw [countLoop_add, countLoop_of_stop hstop]

theorem countLoop_invariant {P : σ → Prop} (hbody : ∀ j s, stop s = false → P s → P (body j s))
    (m : ℕ) : ∀ i s, P s → P (countLoop stop body m i s).2 := by
  induction m with
  | zero => exact fun _ _ hP ↦ hP
  | succ m ih =>
    intro i s hP
    by_cases hstop : stop s = true
    · rw [countLoop_of_stop hstop]
      exact hP
    · rw [countLoop, if_neg hstop]
      exact ih (i + 1) _ (hbody i s (by simpa using hstop) hP)

theorem countLoop_measure {f : σ → ℕ} (hbody : ∀ j s, f (body j s) = f s + 1) (m : ℕ) :
    ∀ i s, f (countLoop stop body m i s).2 + i = f s + (countLoop stop body m i s).1 := by
  induction m with
  | zero => exact fun _ _ ↦ rfl
  | succ m ih =>
    intro i s
    by_cases hstop : stop s = true
    · rw [countLoop_of_stop hstop]
    · rw [countLoop, if_neg hstop]
      have hrest := ih (i + 1) (body i s)
      rw [hbody] at hrest
      omega

theorem countLoop_rel {τ : Type*} {stop' : τ → Bool} {body' : ℕ → τ → τ} {R : σ → τ → Prop}
    (hstop : ∀ s t, R s t → stop s = stop' t) (hbody : ∀ j s t, R s t → R (body j s) (body' j t))
    (m : ℕ) : ∀ i s t, R s t → (countLoop stop body m i s).1 = (countLoop stop' body' m i t).1 ∧
      R (countLoop stop body m i s).2 (countLoop stop' body' m i t).2 := by
  induction m with
  | zero => exact fun _ _ _ hR ↦ ⟨rfl, hR⟩
  | succ m ih =>
    intro i s t hR
    rw [countLoop, countLoop, hstop s t hR]
    by_cases hstopped : stop' t = true
    · rw [if_pos hstopped, if_pos hstopped]
      exact ⟨rfl, hR⟩
    · rw [if_neg hstopped, if_neg hstopped]
      exact ih (i + 1) _ _ (hbody i s t hR)

end CrossBreeder.Foundation
