import Mathlib.Data.List.Basic

/-!
# Glob patterns

A pattern is a list of items: a fixed element, any one element, or a star for any number of
elements. `Matches` says which texts a pattern matches as a whole.

A pattern is a sequence of words, which are free of stars, with stars between them. A matcher that
takes the first occurrence of each word and never comes back to it is right (`matches_star_word`):
what is behind a later occurrence is also behind the first one, and the star that follows the word
takes what lies between.
-/

namespace CrossBreeder.Foundation

inductive GlobItem (α : Type*)
  | lit (a : α)
  | any
  | star
  deriving DecidableEq, Repr

namespace GlobItem

variable {α : Type*}

/-- A pattern matches all of a text. -/
def Matches : List (GlobItem α) → List α → Prop
  | [], s => s = []
  | lit a :: g, s => ∃ v, s = a :: v ∧ Matches g v
  | any :: g, s => ∃ c v, s = c :: v ∧ Matches g v
  | star :: g, s => ∃ u v, s = u ++ v ∧ Matches g v

@[simp]
theorem matches_nil (s : List α) : Matches [] s ↔ s = [] := Iff.rfl

@[simp]
theorem matches_lit_cons (a c : α) (g : List (GlobItem α)) (s : List α) :
    Matches (lit a :: g) (c :: s) ↔ c = a ∧ Matches g s := by
  constructor
  · rintro ⟨v, hv, h⟩
    obtain ⟨rfl, rfl⟩ := List.cons.inj hv
    exact ⟨rfl, h⟩
  · rintro ⟨rfl, h⟩
    exact ⟨s, rfl, h⟩

@[simp]
theorem matches_any_cons (c : α) (g : List (GlobItem α)) (s : List α) :
    Matches (any :: g) (c :: s) ↔ Matches g s := by
  constructor
  · rintro ⟨c', v, hv, h⟩
    obtain ⟨-, rfl⟩ := List.cons.inj hv
    exact h
  · exact fun h ↦ ⟨c, s, rfl, h⟩

@[simp]
theorem not_matches_lit_nil (a : α) (g : List (GlobItem α)) : ¬ Matches (lit a :: g) [] := by
  rintro ⟨v, hv, -⟩
  contradiction

@[simp]
theorem not_matches_any_nil (g : List (GlobItem α)) : ¬ Matches (any :: g) [] := by
  rintro ⟨c, v, hv, -⟩
  contradiction

theorem Matches.star_append {g : List (GlobItem α)} {v : List α} (h : Matches (star :: g) v)
    (u : List α) : Matches (star :: g) (u ++ v) := by
  obtain ⟨u', v', rfl, h⟩ := h
  exact ⟨u ++ u', v', (List.append_assoc ..).symm, h⟩

theorem Matches.star_drop {g : List (GlobItem α)} {s : List α} {k n : ℕ}
    (h : Matches (star :: g) (s.drop n)) (hk : k ≤ n) : Matches (star :: g) (s.drop k) := by
  have hsplit : s.drop k = (s.drop k).take (n - k) ++ s.drop n := by
    rw [show s.drop n =
      (s.drop k).drop (n - k) by rw [List.drop_drop, Nat.add_sub_cancel' hk], List.take_append_drop]
  rw [hsplit]
  exact h.star_append _

theorem matches_append (g h : List (GlobItem α)) (s : List α) :
    Matches (g ++ h) s ↔ ∃ u v, s = u ++ v ∧ Matches g u ∧ Matches h v := by
  induction g generalizing s with
  | nil => simp
  | cons item g ih =>
    rw [List.cons_append]
    constructor
    · intro hmatch
      cases item with
      | lit a =>
        obtain ⟨t, rfl, hrest⟩ := hmatch
        obtain ⟨u, v, rfl, hu, hv⟩ := (ih t).mp hrest
        exact ⟨a :: u, v, rfl, ⟨u, rfl, hu⟩, hv⟩
      | any =>
        obtain ⟨c, t, rfl, hrest⟩ := hmatch
        obtain ⟨u, v, rfl, hu, hv⟩ := (ih t).mp hrest
        exact ⟨c :: u, v, rfl, ⟨c, u, rfl, hu⟩, hv⟩
      | star =>
        obtain ⟨front, t, rfl, hrest⟩ := hmatch
        obtain ⟨u, v, rfl, hu, hv⟩ := (ih t).mp hrest
        exact ⟨front ++ u, v, (List.append_assoc ..).symm, ⟨front, u, rfl, hu⟩, hv⟩
    · rintro ⟨u, v, rfl, hu, hv⟩
      cases item with
      | lit a =>
        obtain ⟨t, rfl, ht⟩ := hu
        exact ⟨t ++ v, rfl, (ih _).mpr ⟨t, v, rfl, ht, hv⟩⟩
      | any =>
        obtain ⟨c, t, rfl, ht⟩ := hu
        exact ⟨c, t ++ v, rfl, (ih _).mpr ⟨t, v, rfl, ht, hv⟩⟩
      | star =>
        obtain ⟨front, t, rfl, ht⟩ := hu
        exact ⟨front, t ++ v, List.append_assoc .., (ih _).mpr ⟨t, v, rfl, ht, hv⟩⟩

theorem Matches.length_eq {w : List (GlobItem α)} {s : List α} (h : Matches w s) (hw : star ∉ w) :
    s.length = w.length := by
  induction w generalizing s with
  | nil => exact congrArg List.length ((matches_nil s).mp h)
  | cons item w ih =>
    obtain ⟨hitem, hrest⟩ := List.ne_and_not_mem_of_not_mem_cons hw
    cases item with
    | lit a =>
      obtain ⟨v, rfl, hv⟩ := h
      rw [List.length_cons, List.length_cons, ih hv hrest]
    | any =>
      obtain ⟨c, v, rfl, hv⟩ := h
      rw [List.length_cons, List.length_cons, ih hv hrest]
    | star => exact absurd rfl hitem

def StandsAt (w : List (GlobItem α)) (s : List α) (k : ℕ) :
    Prop := Matches w ((s.drop k).take w.length)

theorem StandsAt.le {w : List (GlobItem α)} (hw : star ∉ w) {s : List α} {k : ℕ} (hk : k ≤ s.length)
    (h : StandsAt w s k) : k + w.length ≤ s.length := by
  have hlength := Matches.length_eq h hw
  rw [List.length_take, List.length_drop] at hlength
  omega

theorem matches_word_append {w : List (GlobItem α)} (hw : star ∉ w) (g : List (GlobItem α))
    (s : List α) (k : ℕ) :
    Matches (w ++ g) (s.drop k) ↔ StandsAt w s k ∧ Matches g (s.drop (k + w.length)) := by
  rw [matches_append, StandsAt, ← List.drop_drop]
  constructor
  · rintro ⟨u, v, hsplit, hu, hv⟩
    have hlength := hu.length_eq hw
    rw [hsplit, ← hlength, List.take_left, List.drop_left]
    exact ⟨hu, hv⟩
  · rintro ⟨hu, hv⟩
    exact ⟨_, _, (List.take_append_drop ..).symm, hu, hv⟩

theorem matches_star_iff (g : List (GlobItem α)) (s : List α) (start : ℕ)
    (hstart : start ≤ s.length) :
    Matches (star :: g) (s.drop start) ↔ ∃ k, start ≤ k ∧ k ≤ s.length ∧ Matches g (s.drop k) := by
  constructor
  · rintro ⟨u, v, hsplit, hv⟩
    have hlength := congrArg List.length hsplit
    rw [List.length_drop, List.length_append] at hlength
    refine ⟨start + u.length, Nat.le_add_right .., by omega, ?_⟩
    rw [← List.drop_drop, hsplit, List.drop_left]
    exact hv
  · rintro ⟨k, hk, -, hv⟩
    refine ⟨(s.drop start).take (k - start), s.drop k, ?_, hv⟩
    rw [show s.drop k = (s.drop start).drop (k - start) by rw [List.drop_drop,
      Nat.add_sub_cancel' hk], List.take_append_drop]

theorem matches_star_word {w : List (GlobItem α)} (hw : star ∉ w) (g : List (GlobItem α))
    {s : List α} {start k : ℕ} (hstart : start ≤ k) (hk : k ≤ s.length) (hstands : StandsAt w s k)
    (hfirst : ∀ before, start ≤ before → before < k → ¬ StandsAt w s before) :
    Matches (star :: (w ++ star :: g)) (s.drop start) ↔ Matches (star :: g)
      (s.drop (k + w.length)) := by
  rw [matches_star_iff _ _ _ (Nat.le_trans hstart hk)]
  constructor
  · rintro ⟨place, hplace, -, hmatch⟩
    obtain ⟨hthere, hrest⟩ := (matches_word_append hw _ _ _).mp hmatch
    have hle : k ≤ place := Nat.le_of_not_lt fun hlt ↦ hfirst place hplace hlt hthere
    exact hrest.star_drop (Nat.add_le_add_right hle _)
  · exact fun hrest ↦ ⟨k, hstart, hk, (matches_word_append hw _ _ _).mpr ⟨hstands, hrest⟩⟩

theorem not_matches_star_word {w : List (GlobItem α)} (hw : star ∉ w) (g : List (GlobItem α))
    {s : List α} {start : ℕ} (hstart : start ≤ s.length)
    (hnowhere : ∀ k, start ≤ k → k ≤ s.length → ¬ StandsAt w s k) :
    ¬ Matches (star :: (w ++ g)) (s.drop start) := by
  rw [matches_star_iff _ _ _ hstart]
  rintro ⟨k, hk, hle, hmatch⟩
  exact hnowhere k hk hle ((matches_word_append hw _ _ _).mp hmatch).1

theorem matches_star_last {w : List (GlobItem α)} (hw : star ∉ w) {s : List α} {start : ℕ}
    (hstart : start ≤ s.length) :
    Matches (star :: w) (s.drop start) ↔ ∃ k, start ≤ k ∧ StandsAt w s k ∧
      k + w.length = s.length := by
  rw [matches_star_iff _ _ _ hstart]
  constructor
  · rintro ⟨k, hk, hle, hmatch⟩
    have hlength := hmatch.length_eq hw
    rw [List.length_drop] at hlength
    rw [← List.append_nil w] at hmatch
    exact ⟨k, hk, ((matches_word_append hw _ _ _).mp hmatch).1, by omega⟩
  · rintro ⟨k, hk, hstands, hlength⟩
    refine ⟨k, hk, by omega, ?_⟩
    rw [← List.append_nil w]
    refine (matches_word_append hw _ _ _).mpr ⟨hstands, ?_⟩
    rw [hlength, List.drop_length]
    rfl

end GlobItem

end CrossBreeder.Foundation
