import Mathlib.Tactic.Common

/-!
# Rewriting a list in place

A loop goes along a list and changes the element it is at, while it looks at the whole list as it
stands: the elements before are changed already, those behind are not.
-/

namespace CrossBreeder.Foundation

variable {σ α β : Type*}

/-- Each element in turn, with a state, the elements before, which are done, and those behind. -/
def visitEach (visit : σ → List α → α → List α → σ × α) : σ → List α → List α → σ × List α
  | s, done, [] => (s, done)
  | s, done, a :: rest =>
    let (s, a) := visit s done a rest
    visitEach visit s (done ++ [a]) rest

variable {visit : σ → List α → α → List α → σ × α}

@[simp] theorem visitEach_nil (s : σ) (done : List α) : visitEach visit s done [] = (s, done) := rfl

theorem visitEach_cons (s : σ) (done : List α) (a : α) (rest : List α) :
    visitEach visit s done (a :: rest) =
      visitEach visit (visit s done a rest).1 (done ++ [(visit s done a rest).2]) rest := rfl

theorem visitEach_invariant (Inv : σ → List α → List α → Prop)
    (hvisit : ∀ s done a rest, Inv s done (a :: rest) →
      Inv (visit s done a rest).1 (done ++ [(visit s done a rest).2]) rest) (rest : List α) :
    ∀ {s : σ} {done : List α}, Inv s done rest →
      Inv (visitEach visit s done rest).1 (visitEach visit s done rest).2 [] := by
  induction rest with
  | nil => exact fun hinv ↦ hinv
  | cons a rest ih => exact fun hinv ↦ ih (hvisit _ _ _ _ hinv)

theorem map_visitEach (f : α → β) (hvisit : ∀ s done a rest, f (visit s done a rest).2 = f a)
    (rest : List α) :
    ∀ (s : σ) (done : List α),
      (visitEach visit s done rest).2.map f = done.map f ++ rest.map f := by
  induction rest with
  | nil => exact fun _ _ ↦ (List.append_nil _).symm
  | cons a rest ih =>
    intro s done
    rw [visitEach_cons, ih, List.map_append, List.map_singleton, hvisit, List.append_assoc]
    rfl

end CrossBreeder.Foundation
