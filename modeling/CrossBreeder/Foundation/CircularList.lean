import Mathlib.Data.List.GetD
import Mathlib.Data.List.Nodup
import Mathlib.Data.Nat.Basic
import Mathlib.Logic.Function.Iterate

/-!
# Circular singly linked lists

The nodes of a circular list are addresses of an arbitrary type, linked by a successor function and
closed by a head node that carries no data. `IsRing next head nodes` says that following `next` from
`head` visits exactly `nodes`, in order and without repetition, and comes back to `head`.

The two updates of such a list are appending behind the last node (`IsRing.append`) and unlinking
the node behind a given one (`IsRing.unlink`).
-/

namespace CrossBreeder.Foundation

variable {Node : Type*}

/-- Following `next` from `node` visits `rest` and then returns to `head`. -/
def LinkedFrom (next : Node → Node) (head : Node) : Node → List Node → Prop
  | node, [] => next node = head
  | node, successor :: rest => next node = successor ∧ LinkedFrom next head successor rest

/-- The circular list with head `head` and data nodes `nodes`. -/
structure IsRing (next : Node → Node) (head : Node) (nodes : List Node) : Prop where
  linked : LinkedFrom next head head nodes
  nodup : (head :: nodes).Nodup

def nodeAt (head : Node) (nodes : List Node) (position : ℕ) : Node :=
  (head :: nodes).getD position head

def lastNode (head : Node) (nodes : List Node) : Node := nodeAt head nodes nodes.length

@[simp] theorem nodeAt_zero (head : Node) (nodes : List Node) : nodeAt head nodes 0 = head := rfl

variable {nodes : List Node}

variable {index : ℕ}

variable {head : Node}

theorem nodeAt_succ (h : index < nodes.length) :
    nodeAt head nodes (index + 1) = nodes[index] := by
  simp [nodeAt, List.getD_eq_getElem?_getD, h]

theorem nodeAt_mem (head : Node) (nodes : List Node) (position : ℕ) :
    nodeAt head nodes position ∈ head :: nodes := by
  unfold nodeAt
  rcases lt_or_ge position (head :: nodes).length with h | h
  · rw [List.getD_eq_getElem _ _ h]
    exact List.getElem_mem h
  · rw [List.getD_eq_default _ _ h]
    exact List.mem_cons_self

@[simp] theorem lastNode_nil (head : Node) : lastNode head [] = head := rfl

@[simp] theorem lastNode_append_singleton (head : Node) (nodes : List Node) (node : Node) :
    lastNode head (nodes ++ [node]) = node := by
  simp [lastNode, nodeAt, List.getD_eq_getElem?_getD]

theorem nodeAt_eraseIdx_of_le {index position : ℕ}
    (h : position ≤ index) : nodeAt head (nodes.eraseIdx index) position =
      nodeAt head nodes position := by
  cases position with
  | zero => rfl
  | succ position =>
    simp only [nodeAt, List.getD_eq_getElem?_getD, List.getElem?_cons_succ]
    rw [List.getElem?_eraseIdx_of_lt (by omega)]

theorem lastNode_eraseIdx (h : index < nodes.length) :
    lastNode head (nodes.eraseIdx index) =
      if index + 1 = nodes.length then nodeAt head nodes index else lastNode head nodes := by
  have hlength := List.length_eraseIdx_of_lt h
  unfold lastNode
  rw [hlength]
  split_ifs with hlast
  · rw [← hlast, Nat.add_sub_cancel, nodeAt_eraseIdx_of_le le_rfl]
  · obtain ⟨before, hbefore⟩ : ∃ before, nodes.length = before + 2 := ⟨nodes.length - 2, by omega⟩
    rw [hbefore]
    simp only [nodeAt, List.getD_eq_getElem?_getD, Nat.add_succ_sub_one, List.getElem?_cons_succ]
    rw [List.getElem?_eraseIdx_of_ge (by omega)]

theorem nodeAt_injOn (hnodup : (head :: nodes).Nodup)
    {left right : ℕ} (hleft : left ≤ nodes.length) (hright : right ≤ nodes.length)
    (h : nodeAt head nodes left = nodeAt head nodes right) : left = right := by
  have hl : left < (head :: nodes).length := by simp; omega
  have hr : right < (head :: nodes).length := by simp; omega
  unfold nodeAt at h
  rw [List.getD_eq_getElem _ _ hl, List.getD_eq_getElem _ _ hr] at h
  exact (List.Nodup.getElem_inj_iff hnodup).mp h

section Linked

variable {next other : Node → Node} {head node : Node}

theorem LinkedFrom.congr (hlinked : LinkedFrom next head node nodes)
    (hagree : ∀ m ∈ node :: nodes, other m = next m) : LinkedFrom other head node nodes := by
  induction nodes generalizing node with
  | nil =>
    simp only [LinkedFrom] at hlinked ⊢
    rw [hagree node List.mem_cons_self, hlinked]
  | cons successor rest ih =>
    obtain ⟨hnext, hrest⟩ := hlinked
    exact ⟨by rw [hagree node List.mem_cons_self, hnext],
      ih hrest fun m hm ↦ hagree m (List.mem_cons_of_mem _ hm)⟩

theorem LinkedFrom.next_getD (hlinked : LinkedFrom next head node nodes)
    (hindex : index ≤ nodes.length) :
    next ((node :: nodes).getD index head) = nodes.getD index head := by
  induction nodes generalizing node index with
  | nil =>
    have hzero : index = 0 := by simpa using hindex
    subst hzero
    exact hlinked
  | cons successor rest ih =>
    obtain ⟨hnext, hrest⟩ := hlinked
    cases index with
    | zero => exact hnext
    | succ index => simpa using ih hrest (by simpa using hindex)

theorem linkedFrom_append_cons {front : List Node} {middle : Node} {back : List Node} :
    LinkedFrom next head node (front ++ middle :: back) ↔
      LinkedFrom next middle node front ∧ LinkedFrom next head middle back := by
  induction front generalizing node with
  | nil => rfl
  | cons successor rest ih => simp only [List.cons_append, LinkedFrom, ih, and_assoc]

/-- Making the successor of `skipped` the successor of `node` links `node` to what followed
`skipped`. -/
theorem LinkedFrom.relink [DecidableEq Node] {skipped : Node} {back : List Node}
    (hlinked : LinkedFrom next head skipped back) (hback : ∀ m ∈ back, m ≠ node) :
    LinkedFrom (Function.update next node (next skipped)) head node back := by
  cases back with
  | nil => simpa [LinkedFrom] using hlinked
  | cons successor rest =>
    obtain ⟨hnext, hrest⟩ := hlinked
    refine ⟨by simpa using hnext, hrest.congr fun m hm ↦ ?_⟩
    exact Function.update_of_ne (hback m hm) _ _

end Linked

namespace IsRing

variable {next other : Node → Node} {head : Node} {nodes : List Node}

theorem head_notMem (hring : IsRing next head nodes) : head ∉ nodes :=
  (List.nodup_cons.mp hring.nodup).1

theorem empty (hnext : next head = head) : IsRing next head [] :=
  ⟨hnext, List.nodup_singleton head⟩

/-- The successor of the node at a position is the node at the next position, and the successor of
the last node is the head. -/
theorem next_nodeAt (hring : IsRing next head nodes) {position : ℕ}
    (hposition : position ≤ nodes.length) :
    next (nodeAt head nodes position) = nodes.getD position head :=
  hring.linked.next_getD hposition

theorem next_nodeAt_ne_head (hring : IsRing next head nodes) {position : ℕ}
    (hposition : position < nodes.length) : next (nodeAt head nodes position) ≠ head := by
  rw [hring.next_nodeAt (Nat.le_of_lt hposition), List.getD_eq_getElem _ _ hposition]
  intro h
  exact hring.head_notMem (h ▸ List.getElem_mem hposition)

theorem exists_iterate_eq_nodeAt (hring : IsRing next head nodes) (steps : ℕ) :
    ∃ position ≤ nodes.length, next^[steps] head = nodeAt head nodes position := by
  induction steps with
  | zero => exact ⟨0, Nat.zero_le _, rfl⟩
  | succ steps ih =>
    obtain ⟨position, hposition, hnode⟩ := ih
    rw [Function.iterate_succ_apply', hnode, hring.next_nodeAt hposition]
    rcases Nat.lt_or_eq_of_le hposition with hlt | rfl
    · exact ⟨position + 1, hlt, by rw [nodeAt_succ hlt, List.getD_eq_getElem _ _ hlt]⟩
    · exact ⟨0, Nat.zero_le _, List.getD_eq_default _ _ le_rfl⟩

theorem next_lastNode (hring : IsRing next head nodes) : next (lastNode head nodes) = head := by
  rw [lastNode, hring.next_nodeAt le_rfl, List.getD_eq_default _ _ le_rfl]

variable [DecidableEq Node]

theorem append (hring : IsRing next head nodes) {fresh : Node} (hfresh : fresh ∉ head :: nodes) :
    IsRing (Function.update (Function.update next fresh head) (lastNode head nodes) fresh) head
      (nodes ++ [fresh]) := by
  have hnodup : (head :: (nodes ++ [fresh])).Nodup := by
    rw [← List.cons_append]
    exact hring.nodup.append (List.nodup_singleton fresh) (by simpa using hfresh)
  refine ⟨?_, hnodup⟩
  have hfreshLast : fresh ≠ lastNode head nodes := fun h ↦
    hfresh (h ▸ nodeAt_mem head nodes nodes.length)
  rcases List.eq_nil_or_concat nodes with rfl | ⟨front, last, rfl⟩
  · refine ⟨by simp, ?_⟩
    simp only [lastNode_nil] at hfreshLast
    simp [LinkedFrom, Function.update_of_ne hfreshLast]
  · rw [List.concat_eq_append] at *
    rw [lastNode_append_singleton] at hfreshLast ⊢
    rw [List.append_assoc]
    refine linkedFrom_append_cons.mpr ⟨?_, by simp, ?_⟩
    · refine LinkedFrom.congr (linkedFrom_append_cons.mp hring.linked).1 fun m hm ↦ ?_
      have hlast : m ≠ last := by
        rintro rfl
        have hdisjoint := hring.nodup
        rw [← List.cons_append] at hdisjoint
        exact (List.nodup_append.mp hdisjoint).2.2 m hm m (by simp) rfl
      have hnew : m ≠ fresh := by
        rintro rfl
        exact hfresh (by rw [← List.cons_append]; exact List.mem_append_left _ hm)
      rw [Function.update_of_ne hlast, Function.update_of_ne hnew]
    · simp [LinkedFrom, Function.update_of_ne hfreshLast]

theorem unlink (hring : IsRing next head nodes) (hindex : index < nodes.length) :
    IsRing (Function.update next (nodeAt head nodes index) (next nodes[index])) head
      (nodes.eraseIdx index) := by
  have hsublist : List.Sublist (head :: nodes.eraseIdx index) (head :: nodes) :=
    (List.eraseIdx_sublist nodes index).cons_cons head
  refine ⟨?_, hring.nodup.sublist hsublist⟩
  obtain ⟨front, middle, back, rfl, rfl⟩ :
      ∃ front middle back, nodes = front ++ middle :: back ∧ index = front.length :=
    ⟨nodes.take index, nodes[index], nodes.drop (index + 1), by simp, by simp; omega⟩
  have hdisjoint : ∀ m ∈ head :: front, m ∉ middle :: back := by
    have hall := hring.nodup
    rw [← List.cons_append] at hall
    exact fun m hm hm' ↦ (List.nodup_append.mp hall).2.2 m hm m hm' rfl
  obtain ⟨hfront, hback⟩ := linkedFrom_append_cons.mp hring.linked
  have hnodes : (front ++ middle :: back).eraseIdx front.length = front ++ back := by
    rw [List.eraseIdx_append_of_length_le le_rfl, Nat.sub_self, List.eraseIdx_cons_zero]
  have hmiddle : (front ++ middle :: back)[front.length] = middle := by simp
  rw [hnodes, hmiddle]
  rcases List.eq_nil_or_concat front with rfl | ⟨start, last, rfl⟩
  · refine hback.relink fun m hm h ↦ ?_
    have hhead : m = head := h
    exact hdisjoint head List.mem_cons_self (hhead ▸ List.mem_cons_of_mem _ hm)
  · rw [List.concat_eq_append] at *
    have hnode : nodeAt head (start ++ [last] ++ middle :: back) (start ++ [last]).length =
      last := by
      simp [nodeAt, List.getD_eq_getElem?_getD]
    rw [hnode, List.append_assoc, List.singleton_append]
    refine linkedFrom_append_cons.mpr ⟨?_, hback.relink fun m hm h ↦ ?_⟩
    · refine (linkedFrom_append_cons.mp hfront).1.congr fun m hm ↦ ?_
      have hlast : m ≠ last := by
        rintro rfl
        have hall := hring.nodup
        rw [List.append_assoc, ← List.cons_append] at hall
        exact (List.nodup_append.mp hall).2.2 m hm m (by simp) rfl
      exact Function.update_of_ne hlast _ _
    · exact hdisjoint last (by simp) (h ▸ List.mem_cons_of_mem _ hm)

end IsRing

end CrossBreeder.Foundation
