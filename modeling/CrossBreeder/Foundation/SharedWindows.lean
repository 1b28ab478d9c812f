import Mathlib.Data.List.Basic
import Mathlib.Data.Nat.Basic

/-!
# Lists kept as windows into one array

Several lists are filled one after the other, and all their items go into one array: first those of
a leading list, then those of each further list, which is known by its offset and length. A list is
opened by a window of length zero, whose offset is set when it gets its first item.

`Holds` says which lists the windows stand for.
-/

namespace CrossBreeder.Foundation

variable {α : Type*}

structure Window where
  offset : ℕ
  total : ℕ
  deriving DecidableEq, Repr

structure Windowed (α : Type*) where
  items : List α
  leading : ℕ
  windows : List Window
  deriving DecidableEq, Repr

namespace Windowed

def empty : Windowed α := ⟨[], 0, []⟩

def leadingItems (w : Windowed α) : List α := w.items.take w.leading

def itemsOf (w : Windowed α) (window : Window) : List α :=
  (w.items.drop window.offset).take window.total

/-- A window that gets the next item of the array. -/
def extend (next : ℕ) (window : Window) : Window where
  offset := if window.total = 0 then next else window.offset
  total := window.total + 1

/-- The next item, for the last list that was opened. -/
def push (w : Windowed α) (item : α) : Windowed α where
  items := w.items ++ [item]
  leading := if w.windows = [] then w.leading + 1 else w.leading
  windows := w.windows.modify (w.windows.length - 1) (extend w.items.length)

def openWindow (w : Windowed α) : Windowed α :=
  { w with windows := w.windows ++ [⟨0, 0⟩] }

/-- The array holds a leading list and the lists of its windows, one behind the other. -/
structure Holds (w : Windowed α) (first : List α) (lists : List (List α)) : Prop where
  items : w.items = first ++ lists.flatten
  leading : w.leading = first.length
  length : w.windows.length = lists.length
  windows : ∀ k window list, w.windows[k]? = some window → lists[k]? = some list →
    window.total = list.length ∧
      (list ≠ [] → window.offset = first.length + (lists.take k).flatten.length)

theorem holds_empty : Holds (empty : Windowed α) [] [] :=
  ⟨rfl, rfl, rfl, fun k window list h ↦ by simp [empty] at h⟩

namespace Holds

variable {w : Windowed α} {first : List α} {lists : List (List α)}

theorem leadingItems_eq (h : Holds w first lists) : w.leadingItems = first := by
  rw [leadingItems, h.items, h.leading, List.take_left]

theorem window_eq (h : Holds w first lists) {k : ℕ} {window : Window} {list : List α}
    (hwindow : w.windows[k]? = some window) (hlist : lists[k]? = some list) :
    w.itemsOf window = list := by
  obtain ⟨htotal, hoffset⟩ := h.windows k window list hwindow hlist
  obtain ⟨hk, rfl⟩ := List.getElem?_eq_some_iff.mp hlist
  unfold itemsOf
  rw [htotal]
  by_cases hempty : lists[k] = []
  · simp [hempty]
  · have hsplit : w.items = (first ++ (lists.take k).flatten) ++
        (lists[k] ++ (lists.drop (k + 1)).flatten) := by
      have hlists : lists.flatten = (lists.take k).flatten ++
          (lists[k] ++ (lists.drop (k + 1)).flatten) := by
        conv_lhs => rw [← List.take_append_drop k lists]
        rw [List.flatten_append, List.drop_eq_getElem_cons hk, List.flatten_cons]
      rw [h.items, List.append_assoc, ← hlists]
    rw [hoffset hempty, hsplit, List.drop_left' (by simp), List.take_left]

theorem map_getD_window (h : Holds w first lists) {k : ℕ} {window : Window} {list : List α}
    (hwindow : w.windows[k]? = some window) (hlist : lists[k]? = some list) (fallback : α) :
    ((List.range window.total).map fun j ↦ w.items.getD (window.offset + j) fallback) = list := by
  have hitems := h.window_eq hwindow hlist
  have htotal := (h.windows k window list hwindow hlist).1
  refine List.ext_getElem (by simp [htotal]) fun j hleft hright ↦ ?_
  simp only [List.getElem_map, List.getElem_range]
  have hread : list[j]? = w.items[window.offset + j]? := by
    rw [← hitems, itemsOf, List.getElem?_take, if_pos (by omega), List.getElem?_drop]
  rw [List.getD_eq_getElem?_getD, ← hread, List.getElem?_eq_getElem hright, Option.getD_some]

theorem map_getD_leading (h : Holds w first lists) (fallback : α) :
    ((List.range w.leading).map fun j ↦ w.items.getD (0 + j) fallback) = first := by
  have hitems := h.leadingItems_eq
  have htotal := h.leading
  refine List.ext_getElem (by simp [htotal]) fun j hleft hright ↦ ?_
  simp only [List.getElem_map, List.getElem_range]
  have hread : first[j]? = w.items[0 + j]? := by
    rw [← hitems, leadingItems, List.getElem?_take, if_pos (by omega), Nat.zero_add]
  rw [List.getD_eq_getElem?_getD, ← hread, List.getElem?_eq_getElem hright, Option.getD_some]

theorem map_itemsOf (h : Holds w first lists) : w.windows.map w.itemsOf = lists := by
  refine List.ext_getElem (by simp [h.length]) fun k hleft hright ↦ ?_
  rw [List.getElem_map]
  exact h.window_eq (List.getElem?_eq_getElem _) (List.getElem?_eq_getElem hright)

theorem openWindow (h : Holds w first lists) : Holds w.openWindow first (lists ++ [[]]) := by
  refine ⟨?_, h.leading, ?_, fun k window list hwindow hlist ↦ ?_⟩
  · show w.items = _
    rw [h.items]
    simp
  · simp [Windowed.openWindow, h.length]
  · rcases Nat.lt_or_ge k lists.length with hlt | hge
    · have hlt' : k < w.windows.length := h.length ▸ hlt
      rw [List.getElem?_append_left hlt] at hlist
      have hold : w.windows[k]? = some window := by
        rw [← hwindow]
        exact (List.getElem?_append_left hlt').symm
      rw [List.take_append_of_le_length (Nat.le_of_lt hlt)]
      exact h.windows k window list hold hlist
    · obtain rfl : k = lists.length := by
        have hbound := (List.getElem?_eq_some_iff.mp hlist).1
        rw [List.length_append, List.length_singleton] at hbound
        omega
      rw [List.getElem?_concat_length] at hlist
      obtain rfl := Option.some.inj hlist
      have hnew : w.openWindow.windows[lists.length]? = some ⟨0, 0⟩ := by
        rw [← h.length]
        exact List.getElem?_concat_length
      obtain rfl := Option.some.inj (hwindow.symm.trans hnew)
      exact ⟨rfl, fun hne ↦ absurd rfl hne⟩

theorem push_leading (h : Holds w first []) (item : α) :
    Holds (w.push item) (first ++ [item]) [] := by
  have hnone : w.windows = [] := List.length_eq_zero_iff.mp h.length
  refine ⟨?_, ?_, ?_, fun k window list _ hlist ↦ by simp at hlist⟩
  · simp [push, h.items]
  · simp [push, hnone, h.leading]
  · simp [push, hnone]

theorem push_last {front : List (List α)} {last : List α} (h : Holds w first (front ++ [last]))
    (item : α) : Holds (w.push item) first (front ++ [last ++ [item]]) := by
  have hlength : w.windows.length = front.length + 1 := by simpa using h.length
  have hsome : w.windows ≠ [] := List.ne_nil_of_length_pos (by omega)
  have hlast : w.windows.length - 1 = front.length := by omega
  refine ⟨?_, ?_, ?_, fun k window list hwindow hlist ↦ ?_⟩
  · simp [push, h.items]
  · simp [push, hsome, h.leading]
  · simp [push, hlength]
  · simp only [push, hlast, List.getElem?_modify] at hwindow
    obtain ⟨old, hold, hupdate⟩ := Option.map_eq_some_iff.mp hwindow
    rcases Nat.lt_or_ge k front.length with hlt | hge
    · rw [List.getElem?_append_left hlt] at hlist
      rw [if_neg (by omega)] at hupdate
      obtain rfl : old = window := hupdate
      have hspec := h.windows k old list hold
        (by rw [List.getElem?_append_left hlt]; exact hlist)
      rw [List.take_append_of_le_length (Nat.le_of_lt hlt)] at hspec ⊢
      exact hspec
    · obtain rfl : k = front.length := by
        have hbound := (List.getElem?_eq_some_iff.mp hlist).1
        rw [List.length_append, List.length_singleton] at hbound
        omega
      rw [List.getElem?_concat_length] at hlist
      obtain rfl := Option.some.inj hlist
      rw [if_pos rfl] at hupdate
      obtain rfl := hupdate
      obtain ⟨htotal, hoffset⟩ := h.windows front.length old last hold List.getElem?_concat_length
      refine ⟨by simp [extend, htotal], fun _ ↦ ?_⟩
      rw [List.take_left] at hoffset ⊢
      by_cases hempty : last = []
      · simp [extend, htotal, hempty, h.items]
      · have hne : old.total ≠ 0 := by
          rw [htotal]
          exact fun hzero ↦ hempty (List.length_eq_zero_iff.mp hzero)
        simp only [extend, if_neg hne]
        exact hoffset hempty

end Holds

end Windowed

end CrossBreeder.Foundation
