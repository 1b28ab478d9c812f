import CrossBreeder.Foundation.IntrusiveList

/-!
# Nodes that are linked anew

`relink` links some nodes one behind the other, whatever they were linked to before, and leaves the
links of the others alone. `Ends` says that a walk along the links comes to an end, and through
which nodes it may go.
-/

namespace CrossBreeder.Foundation

variable {Node : Type*} {next : Node → Option Node} {among : Node → Prop} {nodes : List Node}
  {start stop : Option Node}

/-! ### Walks that end -/

inductive Ends (next : Node → Option Node) (among : Node → Prop) : Option Node → Prop
  | nil : Ends next among none
  | cons {node : Node} (hmem : among node) (hrest : Ends next among (next node)) :
    Ends next among (some node)

namespace Ends

theorem mono {more : Node → Prop} (hmore : ∀ node, among node → more node)
    (h : Ends next among start) :
    Ends next more start := by
  induction h with
  | nil => exact .nil
  | cons hmem _ ih => exact .cons (hmore _ hmem) ih

theorem congr {other : Node → Option Node} (hsame : ∀ node, among node → other node = next node)
    (h : Ends next among start) : Ends other among start := by
  induction h with
  | nil => exact .nil
  | cons hmem _ ih =>
    refine .cons hmem ?_
    rw [hsame _ hmem]
    exact ih

theorem of_linked (hlinked : Linked next nodes stop) (hmem : ∀ node ∈ nodes, among node)
    (h : Ends next among stop) : Ends next among (nodes.head?.or stop) := by
  induction nodes with
  | nil => exact h
  | cons node rest ih =>
    refine .cons (hmem node List.mem_cons_self) ?_
    rw [hlinked.1]
    exact ih hlinked.2 fun later hlater ↦ hmem later (List.mem_cons_of_mem _ hlater)

theorem exists_linked (h : Ends next among start) :
    ∃ nodes, Linked next nodes none ∧ nodes.head? = start ∧ ∀ node ∈ nodes, among node := by
  induction h with
  | nil => exact ⟨[], trivial, rfl, by simp⟩
  | @cons node hmem _ ih =>
    obtain ⟨rest, hlinked, hhead, hrest⟩ := ih
    refine ⟨node :: rest, ⟨by rw [hhead, Option.or_none], hlinked⟩, rfl, fun later hlater ↦ ?_⟩
    rcases List.mem_cons.mp hlater with rfl | hlater
    · exact hmem
    · exact hrest later hlater

end Ends

theorem Linked.nodup (h : Linked next nodes none) : nodes.Nodup := by
  induction nodes with
  | nil => exact List.nodup_nil
  | cons node rest ih =>
    refine List.nodup_cons.mpr ⟨fun hmem ↦ ?_, ih h.2⟩
    obtain ⟨front, back, rfl⟩ := List.append_of_mem hmem
    have hagain : Linked next (node :: back) none := (linked_append.mp h.2).2
    have hsame := congrArg List.length (h.unique hagain rfl)
    simp at hsame
    omega

/-! ### Setting links anew -/

section Relink

variable [DecidableEq Node]

/-- The nodes are linked one behind the other, and the last one to `stop`. -/
def relink (next : Node → Option Node) : List Node → Option Node → Node → Option Node
  | [], _ => next
  | node :: rest, stop => Function.update (relink next rest stop) node (rest.head?.or stop)

theorem relink_of_notMem {node : Node} (hnode : node ∉ nodes) :
    relink next nodes stop node = next node := by
  induction nodes with
  | nil => rfl
  | cons first rest ih =>
    rw [List.mem_cons, not_or] at hnode
    exact (Function.update_of_ne hnode.1 _ _).trans (ih hnode.2)

theorem linked_relink (hnodup : nodes.Nodup) : Linked (relink next nodes stop) nodes stop := by
  induction nodes with
  | nil => trivial
  | cons node rest ih =>
    obtain ⟨hnot, hrest⟩ := List.nodup_cons.mp hnodup
    exact ⟨Function.update_self .., (ih hrest).update_of_notMem hnot⟩

theorem eq_relink {other : Node → Option Node} (hnodup : nodes.Nodup)
    (hlinked : Linked other nodes stop) (hsame : ∀ node, node ∉ nodes → other node = next node) :
    other = relink next nodes stop := by
  funext node
  by_cases hmem : node ∈ nodes
  · obtain ⟨front, back, rfl⟩ := List.append_of_mem hmem
    rw [hlinked.next_eq, (linked_relink hnodup).next_eq]
  · rw [hsame node hmem, relink_of_notMem hmem]

theorem Ends.relink (hnodup : nodes.Nodup) (hmem : ∀ node ∈ nodes, among node)
    (hstop : Ends (relink next nodes stop) among stop) (h : Ends next among start) :
    Ends (Foundation.relink next nodes stop) among start := by
  induction h with
  | nil => exact .nil
  | @cons node hnode _ ih =>
    by_cases hin : node ∈ nodes
    · -- from here on the walk is among the nodes
      obtain ⟨front, back, rfl⟩ := List.append_of_mem hin
      have hall : Linked (Foundation.relink next (front ++ node :: back) stop)
        (front ++ node :: back) stop := linked_relink hnodup
      have hlinked := (linked_append.mp hall).2
      exact Ends.of_linked hlinked (fun later hlater ↦ hmem later (List.mem_append_right _ hlater))
        hstop
    · refine .cons hnode ?_
      rw [relink_of_notMem hin]
      exact ih

end Relink

end CrossBreeder.Foundation
