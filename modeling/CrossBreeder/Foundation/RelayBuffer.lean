import Mathlib.Data.List.GetD
import Mathlib.Data.Nat.Basic
import Mathlib.Tactic.Common

/-!
# A buffer with a position for reading and one for writing

Data is received into memory at `rpos` and sent from memory at `wpos`; what lies between is pending.
Both positions go back to the start when everything has been sent.
-/

namespace CrossBreeder.Foundation

variable {α : Type*}

/-- Memory with the position behind the data received and the position of the data to send next. -/
structure RelayBuffer (α : Type*) where
  memory : ℕ → α
  rpos : ℕ
  wpos : ℕ

variable {b : RelayBuffer α}

namespace RelayBuffer

def pending (b : RelayBuffer α) : List α :=
  (List.range (b.rpos - b.wpos)).map fun offset ↦ b.memory (b.wpos + offset)

def rewind (b : RelayBuffer α) : RelayBuffer α := { b with rpos := 0, wpos := 0 }

def fill (b : RelayBuffer α) (data : List α) : RelayBuffer α where
  memory k := if b.rpos ≤ k then data.getD (k - b.rpos) (b.memory k) else b.memory k
  rpos := b.rpos + data.length
  wpos := b.wpos

/-- Some of the pending data sent. -/
def drain (b : RelayBuffer α) (count : ℕ) : RelayBuffer α :=
  if b.wpos + count = b.rpos then b.rewind else { b with wpos := b.wpos + count }

@[simp] theorem length_pending (b : RelayBuffer α) : b.pending.length = b.rpos - b.wpos := by
  simp [pending]

@[simp] theorem pending_rewind (b : RelayBuffer α) : b.rewind.pending = [] := rfl

theorem pending_eq_nil (h : b.wpos = b.rpos) : b.pending = [] := by
  simp [pending, h]

theorem pending_fill (b : RelayBuffer α) (data : List α) (h : b.wpos ≤ b.rpos) :
    (b.fill data).pending = b.pending ++ data := by
  have hlength : b.rpos + data.length - b.wpos = (b.rpos - b.wpos) + data.length := by omega
  refine List.ext_getElem (by simp [fill, hlength]) fun offset hleft hright ↦ ?_
  rw [List.getElem_append]
  simp only [length_pending, fill] at hleft
  split_ifs with hold
  · rw [length_pending] at hold
    simp only [pending, fill, List.getElem_map, List.getElem_range]
    rw [if_neg (by omega)]
  · rw [length_pending] at hold
    simp only [pending, fill, List.getElem_map, List.getElem_range, List.length_map,
      List.length_range]
    have hread : b.wpos + offset - b.rpos = offset - (b.rpos - b.wpos) := by omega
    have hbound : offset - (b.rpos - b.wpos) < data.length := by omega
    rw [if_pos (by omega), hread, List.getD_eq_getElem _ _ hbound]

theorem pending_drain (b : RelayBuffer α) (count : ℕ) :
    (b.drain count).pending = b.pending.drop count := by
  unfold drain
  split_ifs with hall
  · rw [pending_rewind, List.drop_of_length_le]
    rw [length_pending]
    omega
  · refine List.ext_getElem (by simp; omega) fun offset hleft hright ↦ ?_
    simp only [pending, List.getElem_map, List.getElem_range, List.getElem_drop, Nat.add_assoc]

def Within (b : RelayBuffer α) (space : ℕ) : Prop := b.wpos ≤ b.rpos ∧ b.rpos ≤ space

theorem Within.rewind {space : ℕ} : b.rewind.Within space :=
  ⟨le_rfl, Nat.zero_le _⟩

theorem Within.fill {space : ℕ} (h : b.Within space) {data : List α}
    (hdata : data.length ≤ space - b.rpos) : (b.fill data).Within space := by
  obtain ⟨horder, hspace⟩ := h
  refine ⟨Nat.le_trans horder (Nat.le_add_right _ _), ?_⟩
  show b.rpos + data.length ≤ space
  omega

theorem Within.drain {space : ℕ} (h : b.Within space) {count : ℕ}
    (hcount : count ≤ b.rpos - b.wpos) : (b.drain count).Within space := by
  obtain ⟨horder, hspace⟩ := h
  unfold RelayBuffer.drain
  split_ifs
  · exact Within.rewind
  · refine ⟨?_, hspace⟩
    show b.wpos + count ≤ b.rpos
    omega

end RelayBuffer

end CrossBreeder.Foundation
