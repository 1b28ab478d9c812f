import Mathlib.Data.List.Basic

/-!
# Loops over a list that may fail

`List.foldlM` in `Option` goes through a list and fails with the first step that fails. A property
of the state that every step keeps holds in the end (`exists_foldlM_of_steps`), and a step that
fails wherever the property holds makes the loop fail (`foldlM_eq_none_of_step`).
-/

namespace CrossBreeder.Foundation

variable {σ α : Type*} {step : σ → α → Option σ} {items : List α} {Inv : σ → Prop}

theorem exists_foldlM_of_steps
    (hstep : ∀ item ∈ items, ∀ s, Inv s → ∃ t, step s item = some t ∧ Inv t) {s : σ} (h : Inv s) :
    ∃ t, items.foldlM step s = some t ∧ Inv t := by
  induction items generalizing s with
  | nil => exact ⟨s, rfl, h⟩
  | cons item items ih =>
    obtain ⟨t, ht, hinv⟩ := hstep item List.mem_cons_self s h
    rw [List.foldlM_cons, ht]
    exact ih (fun later hlater ↦ hstep later (List.mem_cons_of_mem _ hlater)) hinv

theorem foldlM_eq_none_of_step (hkeep : ∀ s item t, Inv s → step s item = some t → Inv t) {bad : α}
    (hmem : bad ∈ items) (hfail : ∀ s, Inv s → step s bad = none) {s : σ} (h : Inv s) :
    items.foldlM step s = none := by
  induction items generalizing s with
  | nil => exact absurd hmem List.not_mem_nil
  | cons item items ih =>
    rw [List.foldlM_cons]
    cases hresult : step s item with
    | none => rfl
    | some t =>
      rcases List.mem_cons.mp hmem with rfl | hlater
      · rw [hfail s h] at hresult
        cases hresult
      · exact ih hlater (hkeep s item t h hresult)

theorem foldl_eq_of_foldlM {total : σ → α → σ}
    (hsame : ∀ s item t, step s item = some t → total s item = t) {s t : σ}
    (h : items.foldlM step s = some t) : items.foldl total s = t := by
  induction items generalizing s with
  | nil => exact Option.some.inj h
  | cons item items ih =>
    rw [List.foldlM_cons] at h
    cases hresult : step s item with
    | none =>
      rw [hresult] at h
      cases h
    | some middle =>
      rw [hresult] at h
      rw [List.foldl_cons, hsame s item middle hresult]
      exact ih h

end CrossBreeder.Foundation
