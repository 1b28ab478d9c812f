import Mathlib.Tactic.Common

/-!
# Texts of parts

`terminated sep parts` writes every part with a separator behind it, and any text is one of this
kind, without the last separator (`terminated_splitOn`). `partOffsets` are the places where the
parts begin.
-/

namespace CrossBreeder.Foundation

variable {α : Type*} {sep : α} {parts : List (List α)}

def terminated (sep : α) (parts : List (List α)) : List α := parts.flatMap fun part ↦ part ++ [sep]

@[simp] theorem terminated_nil : terminated sep [] = [] := rfl

@[simp] theorem terminated_cons (part : List α) (parts : List (List α)) :
    terminated sep (part :: parts) = part ++ sep :: terminated sep parts := by
  simp [terminated]

theorem terminated_ne_nil (sep : α) (h : parts ≠ []) : terminated sep parts ≠ [] := by
  obtain ⟨part, parts, rfl⟩ := List.exists_cons_of_ne_nil h
  simp

theorem dropLast_terminated_cons (part : List α) (h : parts ≠ []) :
    (terminated sep (part :: parts)).dropLast = part ++ sep :: (terminated sep parts).dropLast := by
  obtain ⟨c, text, htext⟩ := List.exists_cons_of_ne_nil (terminated_ne_nil sep h)
  rw [terminated_cons, htext, List.dropLast_append_cons, List.dropLast_cons_cons]

theorem dropLast_terminated_append (h : parts ≠ []) :
    (terminated sep parts).dropLast ++ [sep] = terminated sep parts := by
  induction parts with
  | nil => exact absurd rfl h
  | cons part parts ih =>
    cases parts with
    | nil => simp
    | cons next parts =>
      rw [dropLast_terminated_cons part (by simp), terminated_cons part, ← ih (by simp)]
      simp

theorem surrounded_of_mem_dropLast {part : List α} (hpart : part ∈ parts.dropLast) :
    (sep :: part ++ [sep]) <:+: sep :: (terminated sep parts).dropLast := by
  induction parts with
  | nil => cases hpart
  | cons first parts ih =>
    cases parts with
    | nil => cases hpart
    | cons next parts =>
      rw [dropLast_terminated_cons first (by simp)]
      rw [List.dropLast_cons_cons] at hpart
      rcases List.mem_cons.mp hpart with rfl | hlater
      · exact List.IsPrefix.isInfix ⟨(terminated sep (next :: parts)).dropLast, by simp⟩
      · exact (ih hlater).trans (List.IsSuffix.isInfix ⟨sep :: first, by simp⟩)

/-! ### Where the parts are -/

@[simp] theorem terminated_append_singleton (parts : List (List α)) (part : List α) :
    terminated sep (parts ++ [part]) = terminated sep parts ++ (part ++ [sep]) := by
  simp [terminated]

/-- Where the parts begin, if the first begins at `start`. -/
def partOffsets : List (List α) → ℕ → List ℕ
  | [], _ => []
  | part :: parts, start => start :: partOffsets parts (start + (part.length + 1))

theorem partOffsets_append_singleton (sep : α) (parts : List (List α)) (part : List α) (start : ℕ) :
    partOffsets (parts ++ [part]) start = partOffsets parts start ++
      [start + (terminated sep parts).length] := by
  induction parts generalizing start with
  | nil => rfl
  | cons first parts ih =>
    have hlength : (terminated sep (first :: parts)).length =
      first.length + 1 + (terminated sep parts).length := by
      rw [terminated_cons, List.length_append, List.length_cons]
      omega
    rw [List.cons_append, partOffsets, partOffsets, ih, hlength, Nat.add_assoc start]
    rfl

theorem forall₂_partOffsets (sep : α) (before : List α) (parts : List (List α)) (behind : List α) :
    List.Forall₂ (fun start part ↦ ∃ rest, (before ++ (terminated sep parts ++ behind)).drop
      start = part ++ sep :: rest) (partOffsets parts before.length) parts := by
  induction parts generalizing before with
  | nil => exact .nil
  | cons part parts ih =>
    refine .cons ⟨terminated sep parts ++ behind, ?_⟩ ?_
    · rw [List.drop_left, terminated_cons, List.append_assoc, List.cons_append]
    · have hlater := ih (before ++ (part ++ [sep]))
      have hstart : (before ++ (part ++ [sep])).length = before.length + (part.length + 1) := by
        rw [List.length_append, List.length_append, List.length_singleton]
      have htext : before ++ (part ++ [sep]) ++ (terminated sep parts ++ behind) =
          before ++ (terminated sep (part :: parts) ++ behind) := by
        simp
      rwa [hstart, htext] at hlater

variable [DecidableEq α]

theorem terminated_splitOn (sep : α) (text : List α) : terminated sep (text.splitOn sep) = text ++
    [sep] := by
  induction text with
  | nil => simp
  | cons c text ih =>
    rw [List.splitOn_cons_eq_if_modifyHead]
    by_cases hsep : c = sep
    · rw [if_pos (by simpa using hsep), terminated_cons, ih, hsep]
      rfl
    · rw [if_neg (by simpa using hsep)]
      cases hsplit : text.splitOn sep with
      | nil => exact absurd hsplit (List.splitOn_ne_nil _ _)
      | cons part parts =>
        rw [hsplit, terminated_cons] at ih
        rw [List.modifyHead_cons, terminated_cons, List.cons_append, ih]
        rfl

/-- A part of a text that is not the last one stands between two separators, if there is one before
the text. -/
theorem surrounded_of_mem_dropLast_splitOn {text part : List α}
    (hpart : part ∈ (text.splitOn sep).dropLast) : (sep :: part ++ [sep]) <:+: sep :: text := by
  have hbetween : (sep :: part ++ [sep]) <:+: sep :: (terminated sep (text.splitOn sep)).dropLast :=
    surrounded_of_mem_dropLast hpart
  rwa [terminated_splitOn, List.dropLast_concat] at hbetween

theorem sep_notMem_of_mem_splitOn {text : List α} : ∀ part ∈ text.splitOn sep, sep ∉ part := by
  induction text with
  | nil => simp
  | cons c text ih =>
    rw [List.splitOn_cons_eq_if_modifyHead]
    by_cases hsep : c = sep
    · rw [if_pos (by simpa using hsep)]
      exact List.forall_mem_cons.mpr ⟨List.not_mem_nil, ih⟩
    · rw [if_neg (by simpa using hsep)]
      cases hsplit : text.splitOn sep with
      | nil => exact absurd hsplit (List.splitOn_ne_nil _ _)
      | cons part parts =>
        rw [hsplit] at ih
        obtain ⟨hpart, hparts⟩ := List.forall_mem_cons.mp ih
        rw [List.modifyHead_cons]
        exact List.forall_mem_cons.mpr ⟨List.not_mem_cons_of_ne_of_not_mem (Ne.symm hsep) hpart,
          hparts⟩

theorem mem_of_mem_splitOn {text part : List α} (hpart : part ∈ text.splitOn sep) {c : α}
    (hc : c ∈ part) : c ∈ text := by
  have hterminated : c ∈ terminated sep (text.splitOn sep) :=
    List.mem_flatMap.mpr ⟨part, hpart, List.mem_append_left _ hc⟩
  rw [terminated_splitOn] at hterminated
  rcases List.mem_append.mp hterminated with hmem | hmem
  · exact hmem
  · obtain rfl := List.mem_singleton.mp hmem
    exact absurd hc (sep_notMem_of_mem_splitOn part hpart)

end CrossBreeder.Foundation
