import Mathlib.Data.Nat.Basic
import Mathlib.Order.Basic
import Mathlib.Tactic.Common

/-!
# Scanning a list for the largest match

`scanBest` walks a list with a running best: an element that matches and is strictly larger than the
best so far replaces it. `scanBest_spec` says that the result is the given best when no match is
larger than it, and otherwise the number of the first among the matches that no other match exceeds.
-/

namespace CrossBreeder.Foundation

variable {α : Type*}

/-- The number and the size of the largest match in a list whose first element has number
`number`, starting from a best so far. -/
def scanBest (matches? : α → Bool) (size : α → ℕ) : List α → ℕ → ℕ → ℕ → ℕ × ℕ
  | [], _, best, bestSize => (best, bestSize)
  | x :: rest, number, best, bestSize =>
    if matches? x ∧ bestSize < size x then scanBest matches? size rest (number + 1) number (size x)
    else scanBest matches? size rest (number + 1) best bestSize

/-- The first among the matches that are larger than a bound and that no match exceeds. -/
structure IsFirstLargest (matches? : α → Bool) (size : α → ℕ) (list : List α) (bound index : ℕ)
    (x : α) : Prop where
  get : list[index]? = some x
  isMatch : matches? x
  larger : bound < size x
  max : ∀ y ∈ list, matches? y → size y ≤ size x
  first : ∀ before < index, ∀ y, list[before]? = some y → matches? y → size y < size x

variable {size : α → ℕ}

variable {matches? : α → Bool}

theorem IsFirstLargest.cons {rest : List α}
    {bound bound' index : ℕ} {x head : α} (h : IsFirstLargest matches? size rest bound' index x)
    (hbound : bound ≤ bound') (hhead : matches? head → size head ≤ bound') :
    IsFirstLargest matches? size (head :: rest) bound (index + 1) x := by
  constructor
  · simpa using h.get
  · exact h.isMatch
  · exact hbound.trans_lt h.larger
  · intro y hy hmatch
    rcases List.mem_cons.mp hy with rfl | hy
    · exact (hhead hmatch).trans h.larger.le
    · exact h.max y hy hmatch
  · rintro (_ | before) hbefore y hy hmatch
    · obtain rfl : head = y := by simpa using hy
      exact (hhead hmatch).trans_lt h.larger
    · exact h.first before (Nat.lt_of_succ_lt_succ hbefore) y (by simpa using hy) hmatch

/-- The scan ends with the best it started from when no match is larger, and otherwise with the
first match among those that are larger than that best and that no match exceeds. -/
theorem scanBest_spec (matches? : α → Bool) (size : α → ℕ) (list : List α) :
    ∀ number best bestSize : ℕ,
      (scanBest matches? size list number best bestSize = (best, bestSize) ∧
        ∀ x ∈ list, matches? x → size x ≤ bestSize) ∨
      ∃ index x, scanBest matches? size list number best bestSize = (number + index, size x) ∧
        IsFirstLargest matches? size list bestSize index x := by
  induction list with
  | nil => exact fun _ _ _ ↦ Or.inl ⟨rfl, by simp⟩
  | cons head rest ih =>
    intro number best bestSize
    simp only [scanBest]
    split_ifs with hhead
    · refine Or.inr ?_
      rcases ih (number + 1) number (size head) with ⟨hscan, hle⟩ | ⟨index, x, hscan, hfirst⟩
      · have hmax : ∀ y ∈ head :: rest, matches? y → size y ≤ size head := by
          intro y hy hmatch
          rcases List.mem_cons.mp hy with rfl | hy
          · exact le_rfl
          · exact hle y hy hmatch
        exact ⟨0, head, by simpa using hscan, ⟨rfl, hhead.1, hhead.2, hmax, by simp⟩⟩
      · refine ⟨index + 1, x, ?_, hfirst.cons hhead.2.le fun _ ↦ le_rfl⟩
        rw [hscan, Nat.add_assoc, Nat.add_comm 1]
    · have hskip : matches? head → size head ≤ bestSize := fun hmatch ↦
        not_lt.mp fun hlt ↦ hhead ⟨hmatch, hlt⟩
      rcases ih (number + 1) best bestSize with ⟨hscan, hle⟩ | ⟨index, x, hscan, hfirst⟩
      · refine Or.inl ⟨hscan, fun y hy hmatch ↦ ?_⟩
        rcases List.mem_cons.mp hy with rfl | hy
        · exact hskip hmatch
        · exact hle y hy hmatch
      · refine Or.inr ⟨index + 1, x, ?_, hfirst.cons le_rfl hskip⟩
        rw [hscan, Nat.add_assoc, Nat.add_comm 1]

def IsLargest (matches? : α → Bool) (size : α → ℕ) (list : List α) (x : α) : Prop :=
  matches? x ∧ 0 < size x ∧ ∀ y ∈ list, matches? y → size y ≤ size x

instance (matches? : α → Bool) (size : α → ℕ) (list : List α) (x : α) :
    Decidable (IsLargest matches? size list x) :=
  inferInstanceAs (Decidable (_ ∧ _ ∧ _))

variable {list : List α}

theorem IsFirstLargest.isLargest {index : ℕ}
    {x : α} (h : IsFirstLargest matches? size list 0 index x) : IsLargest matches? size list x :=
  ⟨h.isMatch, h.larger, h.max⟩

theorem IsLargest.size_eq {x y : α}
    (hx : IsLargest matches? size list x) (hy : IsLargest matches? size list y) (hmem : x ∈ list)
    (hmem' : y ∈ list) : size x = size y :=
  le_antisymm (hy.2.2 x hmem hx.1) (hx.2.2 y hmem' hy.1)

/-- A largest match of one kind that is a match of the other kind at the place of a largest match of
that kind is largest there too. -/
theorem IsLargest.transfer {first second : α → Bool} {x y : α}
    (hsecond : ∀ x ∈ list, ∀ y ∈ list, size x = size y → first x → first y → second x → second y)
    (hx : IsLargest first size list x) (hx' : IsLargest second size list x)
    (hy : IsLargest first size list y) (hmem : x ∈ list) (hmem' : y ∈ list) :
    IsLargest second size list y := by
  have hsize := hx.size_eq hy hmem hmem'
  refine ⟨hsecond x hmem y hmem' hsize hx.1 hy.1 hx'.1, hy.2.1, fun z hz hmatch ↦ ?_⟩
  rw [← hsize]
  exact hx'.2.2 z hz hmatch

/-- Two scans of a list end at the same number exactly when the same elements are largest matches.
-/
theorem scanBest_eq_iff {first second : α → Bool}
    (hfirst : ∀ x ∈ list, ∀ y ∈ list, size x = size y → second x → second y → first x → first y)
    (hsecond : ∀ x ∈ list, ∀ y ∈ list, size x = size y → first x → first y → second x → second y) :
    (scanBest first size list 1 0 0).1 = (scanBest second size list 1 0 0).1 ↔
      ∀ x ∈ list, IsLargest first size list x ↔ IsLargest second size list x := by
  rcases scanBest_spec first size list 1 0 0 with ⟨hscan, hnone⟩ | ⟨index, x, hscan, hx⟩ <;>
  rcases scanBest_spec second size list 1 0 0 with ⟨hscan', hnone'⟩ | ⟨index', x', hscan', hx'⟩ <;>
  rw [hscan, hscan']
  · refine iff_of_true rfl fun x hmem ↦ iff_of_false ?_ ?_
    · exact fun h ↦ absurd (hnone x hmem h.1) (not_le.mpr h.2.1)
    · exact fun h ↦ absurd (hnone' x hmem h.1) (not_le.mpr h.2.1)
  · refine iff_of_false (by simp; omega) fun h ↦ ?_
    have hmem := List.mem_of_getElem? hx'.get
    have hlargest := (h x' hmem).mpr hx'.isLargest
    exact absurd (hnone x' hmem hlargest.1) (not_le.mpr hx'.larger)
  · refine iff_of_false (by simp) fun h ↦ ?_
    have hmem := List.mem_of_getElem? hx.get
    have hlargest := (h x hmem).mp hx.isLargest
    exact absurd (hnone' x hmem hlargest.1) (not_le.mpr hx.larger)
  · have hmem := List.mem_of_getElem? hx.get
    have hmem' := List.mem_of_getElem? hx'.get
    constructor
    · intro hnumber
      obtain rfl : index = index' := Nat.add_left_cancel hnumber
      obtain rfl : x = x' := Option.some.inj (hx.get.symm.trans hx'.get)
      intro y hy
      constructor
      · exact fun h ↦ hx.isLargest.transfer hsecond hx'.isLargest h hmem hy
      · exact fun h ↦ hx'.isLargest.transfer hfirst hx.isLargest h hmem hy
    · intro h
      have hboth := (h x hmem).mp hx.isLargest
      have hboth' := (h x' hmem').mpr hx'.isLargest
      have hsize := hx.isLargest.size_eq hboth' hmem hmem'
      show 1 + index = 1 + index'
      congr 1
      rcases Nat.lt_trichotomy index index' with hlt | heq | hlt
      · exact absurd hsize (hx'.first index hlt x hx.get hboth.1).ne
      · exact heq
      · exact absurd hsize (hx.first index' hlt x' hx'.get hboth'.1).ne'

end CrossBreeder.Foundation
