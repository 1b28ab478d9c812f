import Mathlib.Data.List.Nodup

/-!
# Intrusive lists

Lists whose links are fields of the elements, given as functions from elements to elements. `Linked
next nodes stop` says that each node is linked to the one behind it and the last one to `stop`, and
`DoublyLinked` that a list can be walked in both directions from its two ends. `bypass` and
`DoublyLinked.unlink` take a node out, and `DoublyLinked.push` and `DoublyLinked.append` put one in
at an end.

`Chain link slot start nodes stop` says that the slots from `start` on lead through the nodes.
-/

namespace CrossBreeder.Foundation

variable {Node Slot : Type*}

/-! ### Links -/

/-- Each node is linked to the one behind it, and the last one to `stop`. -/
def Linked (next : Node → Option Node) : List Node → Option Node → Prop
  | [], _ => True
  | node :: rest, stop => next node = rest.head?.or stop ∧ Linked next rest stop

variable {stop : Option Node}

variable {nodes : List Node}

theorem Linked.congr {next other : Node → Option Node}
    (hsame : ∀ node ∈ nodes, other node = next node) (h : Linked next nodes stop) :
    Linked other nodes stop := by
  induction nodes with
  | nil => trivial
  | cons node rest ih =>
    refine ⟨?_, ih (fun later hlater ↦ hsame later (List.mem_cons_of_mem _ hlater)) h.2⟩
    rw [hsame node List.mem_cons_self]
    exact h.1

variable {next : Node → Option Node}

variable {front back : List Node}

theorem linked_append :
    Linked next (front ++ back) stop ↔ Linked next front (back.head?.or stop) ∧
      Linked next back stop := by
  induction front with
  | nil => simp [Linked]
  | cons node rest ih =>
    have hhead : (rest ++ back).head?.or stop = rest.head?.or (back.head?.or stop) := by
      cases rest <;> simp
    simp only [List.cons_append, Linked, hhead, ih, and_assoc]

variable {node : Node}

theorem Linked.next_eq
    (h : Linked next (front ++ node :: back) stop) :
    next node = back.head?.or stop :=
  (linked_append.mp h).2.1

theorem Linked.unique {nodes nodes' : List Node} (h : Linked next nodes none)
    (h' : Linked next nodes' none) (hhead : nodes.head? = nodes'.head?) : nodes = nodes' := by
  induction nodes generalizing nodes' with
  | nil => exact (List.head?_eq_none_iff.mp hhead.symm).symm
  | cons node rest ih =>
    obtain ⟨rest', rfl⟩ := List.head?_eq_some_iff.mp hhead.symm
    have hnext : rest.head? = rest'.head? := by
      rw [← Option.or_none (o := rest.head?), ← h.1, h'.1, Option.or_none]
    rw [ih h.2 h'.2 hnext]

section Update

variable [DecidableEq Node]

theorem Linked.update_of_notMem
    {target : Option Node} (hnode : node ∉ nodes) (h : Linked next nodes stop) :
    Linked (Function.update next node target) nodes stop :=
  h.congr fun _ hmem ↦ Function.update_of_ne (ne_of_mem_of_not_mem hmem hnode) _ _

theorem Linked.relink_last {front : List Node} {last : Node}
    {stop target : Option Node} (hlast : last ∉ front) (h : Linked next (front ++ [last]) stop) :
    Linked (Function.update next last target) (front ++ [last]) target := by
  obtain ⟨hfront, -⟩ := linked_append.mp h
  refine linked_append.mpr ⟨hfront.update_of_notMem hlast, ?_, trivial⟩
  simp

/-- The links after the node before `node` was linked to what is behind it. -/
def bypass (next : Node → Option Node) (before : Option Node) (node : Node) : Node → Option Node :=
  match before with
  | some last => Function.update next last (next node)
  | none => next

theorem Linked.bypass_of_notMem {stop before : Option Node}
    (hbefore : ∀ last, before = some last → last ∉ nodes) (h : Linked next nodes stop) :
    Linked (Foundation.bypass next before node) nodes stop := by
  cases before with
  | none => exact h
  | some last => exact h.update_of_notMem (hbefore last rfl)

theorem Linked.bypass
    (hnodup : (front ++ node :: back).Nodup) (h : Linked next (front ++ node :: back) none) :
    Linked (bypass next front.getLast? node) (front ++ back) none := by
  obtain ⟨hfront, hnext, hback⟩ := linked_append.mp h
  have hapart : ∀ other ∈ front, other ∉ back := by
    intro other hother hmem
    exact (List.nodup_append.mp hnodup).2.2 other hother other (List.mem_cons_of_mem _ hmem) rfl
  obtain rfl | ⟨init, last, rfl⟩ := List.eq_nil_or_concat front
  · exact hback
  · rw [List.concat_eq_append] at *
    have hlast : last ∉ init := by
      intro hmem
      exact (List.nodup_append.mp (List.nodup_append.mp hnodup).1).2.2 last hmem last
        List.mem_cons_self rfl
    rw [List.getLast?_concat]
    refine linked_append.mpr ⟨?_, hback.update_of_notMem (hapart last (by simp))⟩
    rw [← hnext]
    exact hfront.relink_last hlast

end Update

/-! ### Doubly linked lists -/

structure DoublyLinked (next prev : Node → Option Node) (head tail : Option Node)
    (nodes : List Node) : Prop where
  forward : Linked next nodes none
  backward : Linked prev nodes.reverse none
  head_eq : head = nodes.head?
  tail_eq : tail = nodes.getLast?
  nodup : nodes.Nodup

namespace DoublyLinked

variable {next prev : Node → Option Node} {head tail : Option Node} {nodes front back : List Node}
  {node : Node}

theorem next_eq (h : DoublyLinked next prev head tail (front ++ node :: back)) :
    next node = back.head? := by
  simpa using h.forward.next_eq

theorem prev_eq (h : DoublyLinked next prev head tail (front ++ node :: back)) :
    prev node = front.getLast? := by
  have hbackward := h.backward
  rw [List.reverse_append, List.reverse_cons, List.append_assoc, List.singleton_append] at hbackward
  rw [hbackward.next_eq, Option.or_none, List.head?_reverse]

theorem congr {next' prev' : Node → Option Node} (hnext : ∀ node ∈ nodes, next' node = next node)
    (hprev : ∀ node ∈ nodes, prev' node = prev node) (h : DoublyLinked next prev head tail nodes) :
    DoublyLinked next' prev' head tail nodes where
  forward := h.forward.congr hnext
  backward := h.backward.congr fun node hnode ↦ hprev node (List.mem_reverse.mp hnode)
  head_eq := h.head_eq
  tail_eq := h.tail_eq
  nodup := h.nodup

variable [DecidableEq Node]

theorem unlink (h : DoublyLinked next prev head tail (front ++ node :: back)) :
    DoublyLinked (bypass next (prev node) node) (bypass prev (next node) node)
      (if prev node = none then next node else head) (if next node = none then prev node else tail)
      (front ++ back) := by
  have hnext := h.next_eq
  have hprev := h.prev_eq
  have hreverse : (front ++ node :: back).reverse = back.reverse ++ node :: front.reverse := by
    simp
  refine ⟨?_, ?_, ?_, ?_, ?_⟩
  · rw [hprev]
    exact h.forward.bypass h.nodup
  · have hbackward := h.backward
    have hnodup := List.nodup_reverse.mpr h.nodup
    rw [hreverse] at hbackward hnodup
    rw [hnext, ← List.getLast?_reverse, List.reverse_append]
    exact hbackward.bypass hnodup
  · rw [hprev, hnext, h.head_eq]
    rcases front with _ | ⟨first, rest⟩
    · simp
    · simp [List.getLast?_cons]
  · rw [hprev, hnext, h.tail_eq]
    rcases back with _ | ⟨first, rest⟩
    · simp
    · simp [List.getLast?_append, List.getLast?_cons]
  · exact h.nodup.sublist (List.Sublist.append_left (List.sublist_cons_self _ _) _)

theorem push (hnode : node ∉ nodes) (h : DoublyLinked next prev head tail nodes) :
    DoublyLinked (Function.update next node head)
      (Function.update (head.elim prev fun first ↦ Function.update prev first (some node)) node
      none) (some node) (if tail = none then some node else tail) (node :: nodes) := by
  refine ⟨⟨?_, h.forward.update_of_notMem hnode⟩, ?_, rfl, ?_, List.nodup_cons.mpr ⟨hnode, h.nodup⟩⟩
  · rw [Function.update_self, h.head_eq, Option.or_none]
  · rw [List.reverse_cons]
    refine linked_append.mpr ⟨?_, by simp [Linked]⟩
    refine Linked.update_of_notMem (by simpa using hnode) ?_
    rw [h.head_eq]
    rcases nodes with _ | ⟨first, rest⟩
    · trivial
    · have hfirst : first ∉ rest.reverse := by simpa using (List.nodup_cons.mp h.nodup).1
      have hbackward := h.backward
      rw [List.reverse_cons] at hbackward ⊢
      exact hbackward.relink_last hfirst
  · rw [h.tail_eq]
    rcases nodes with _ | ⟨first, rest⟩
    · rfl
    · simp [List.getLast?_cons]

theorem append (hnode : node ∉ nodes) (h : DoublyLinked next prev head tail nodes) :
    DoublyLinked
      (Function.update (tail.elim next fun last ↦ Function.update next last (some node)) node
        none) (Function.update prev node tail) (if tail = none then some node else head) (some node)
      (nodes ++ [node]) := by
  refine ⟨?_, ?_, ?_, ?_, ?_⟩
  · refine linked_append.mpr ⟨?_, by simp [Linked]⟩
    refine Linked.update_of_notMem hnode ?_
    rw [h.tail_eq]
    obtain rfl | ⟨init, last, rfl⟩ := List.eq_nil_or_concat nodes
    · trivial
    · rw [List.concat_eq_append] at *
      have hlast : last ∉ init := by
        have hnodup := List.nodup_reverse.mpr h.nodup
        rw [List.reverse_append] at hnodup
        simpa using (List.nodup_cons.mp hnodup).1
      rw [List.getLast?_concat]
      exact h.forward.relink_last hlast
  · rw [List.reverse_append, List.reverse_singleton, List.singleton_append]
    refine ⟨?_, h.backward.update_of_notMem (by simpa using hnode)⟩
    rw [Function.update_self, h.tail_eq, List.head?_reverse, Option.or_none]
  · rw [h.tail_eq, h.head_eq]
    rcases nodes with _ | ⟨first, rest⟩
    · rfl
    · simp [List.getLast?_cons]
  · simp
  · rw [List.nodup_append]
    refine ⟨h.nodup, List.nodup_singleton _, ?_⟩
    intro left hleft right hright heq
    rw [List.mem_singleton.mp hright] at heq
    exact hnode (heq ▸ hleft)

end DoublyLinked

/-! ### Chains of slots -/

section Chains

variable {link other : Slot → Option Node} {slot : Node → Slot} {start : Slot}
  {nodes front back : List Node} {node : Node} {stop target : Option Node}

/-- The slots from `start` on lead through the nodes to `stop`. -/
def Chain (link : Slot → Option Node) (slot : Node → Slot) : Slot → List Node → Option Node → Prop
  | start, [], stop => link start = stop
  | start, node :: rest, stop => link start = some node ∧ Chain link slot (slot node) rest stop

def lastSlot (slot : Node → Slot) (start : Slot) (nodes : List Node) : Slot :=
  nodes.getLast?.elim start slot

@[simp] theorem lastSlot_nil : lastSlot slot start [] = start := rfl

@[simp] theorem lastSlot_concat : lastSlot slot start (nodes ++ [node]) = slot node := by
  simp [lastSlot]

theorem lastSlot_cons : lastSlot slot start (node :: nodes) = lastSlot slot (slot node) nodes := by
  cases nodes <;> simp [lastSlot, List.getLast?_cons]

theorem lastSlot_append :
    lastSlot slot start (front ++ back) = lastSlot slot (lastSlot slot start front) back := by
  induction front generalizing start with
  | nil => rfl
  | cons node rest ih => rw [List.cons_append, lastSlot_cons, lastSlot_cons, ih]

theorem lastSlot_mem : lastSlot slot start nodes ∈ start :: nodes.map slot := by
  obtain rfl | ⟨init, last, rfl⟩ := List.eq_nil_or_concat nodes
  · simp
  · simp [List.concat_eq_append]

theorem Chain.link_start (h : Chain link slot start nodes stop) :
    link start = nodes.head?.or stop := by
  cases nodes with
  | nil => exact h
  | cons node rest => exact h.1

theorem Chain.unique {nodes' : List Node} (h : Chain link slot start nodes none)
    (h' : Chain link slot start nodes' none) : nodes = nodes' := by
  induction nodes generalizing start nodes' with
  | nil =>
    cases nodes' with
    | nil => rfl
    | cons node rest =>
      have hnone : link start = none := h
      exact absurd (hnone.symm.trans h'.1) (by simp)
  | cons node rest ih =>
    cases nodes' with
    | nil =>
      have hnone : link start = none := h'
      exact absurd (hnone.symm.trans h.1) (by simp)
    | cons node' rest' =>
      obtain rfl : node = node' := Option.some.inj (h.1.symm.trans h'.1)
      rw [ih h.2 h'.2]

theorem Chain.congr {start' : Slot} (hstart : other start' = link start)
    (hsame : ∀ node ∈ nodes, other (slot node) = link (slot node))
    (h : Chain link slot start nodes stop) :
    Chain other slot start' nodes stop := by
  induction nodes generalizing start start' with
  | nil => exact hstart.trans h
  | cons node rest ih =>
    exact ⟨hstart.trans h.1, ih (hsame node List.mem_cons_self)
      (fun later hlater ↦ hsame later (List.mem_cons_of_mem _ hlater)) h.2⟩

theorem chain_append : Chain link slot start (front ++ back) stop ↔
    Chain link slot start front (back.head?.or stop) ∧
      Chain link slot (lastSlot slot start front) back stop := by
  induction front generalizing start with
  | nil =>
    refine ⟨fun h ↦ ⟨h.link_start, h⟩, fun h ↦ h.2⟩
  | cons node rest ih =>
    rw [List.cons_append, lastSlot_cons]
    refine ⟨fun h ↦ ?_, fun h ↦ ⟨h.1.1, ih.mpr ⟨h.1.2, h.2⟩⟩⟩
    exact ⟨⟨h.1, (ih.mp h.2).1⟩, (ih.mp h.2).2⟩

theorem lastSlot_notMem (hnodup : (start :: (front ++ back).map slot).Nodup) :
    lastSlot slot start front ∉ back.map slot := by
  intro hmem
  rw [List.map_append, ← List.cons_append] at hnodup
  exact (List.nodup_append.mp hnodup).2.2 _ lastSlot_mem _ hmem rfl

variable [DecidableEq Slot]

theorem Chain.update_of_notMem {written : Slot} (hwritten : written ∉ start :: nodes.map slot)
    (h : Chain link slot start nodes stop) :
    Chain (Function.update link written target) slot start nodes stop := by
  refine h.congr (Function.update_of_ne ?_ _ _) fun node hnode ↦ Function.update_of_ne ?_ _ _
  · rintro rfl
    exact hwritten List.mem_cons_self
  · rintro rfl
    exact hwritten (List.mem_cons_of_mem _ (List.mem_map_of_mem hnode))

theorem Chain.write_last (hnodup : (start :: nodes.map slot).Nodup)
    (h : Chain link slot start nodes stop) :
    Chain (Function.update link (lastSlot slot start nodes) target) slot start nodes target := by
  induction nodes generalizing start with
  | nil => exact Function.update_self _ _ _
  | cons node rest ih =>
    obtain ⟨hstart, hrest⟩ := List.nodup_cons.mp hnodup
    rw [lastSlot_cons]
    refine ⟨?_, ih hrest h.2⟩
    rw [Function.update_of_ne (ne_of_mem_of_not_mem lastSlot_mem hstart).symm]
    exact h.1

theorem Chain.remove (hnodup : (start :: (front ++ node :: back).map slot).Nodup)
    (h : Chain link slot start (front ++ node :: back) stop) :
    Chain (Function.update link (lastSlot slot start front) (link (slot node))) slot start
      (front ++ back) stop := by
  obtain ⟨hfront, hnode, hback⟩ := chain_append.mp h
  have hlast := lastSlot_notMem hnodup
  have hfrontNodup : (start :: front.map slot).Nodup := by
    rw [List.map_append, ← List.cons_append] at hnodup
    exact (List.nodup_append.mp hnodup).1
  refine chain_append.mpr ⟨?_, ?_⟩
  · rw [← hback.link_start]
    exact hfront.write_last hfrontNodup
  · refine hback.congr (Function.update_self _ _ _) fun later hlater ↦ Function.update_of_ne ?_ _ _
    rintro heq
    rw [← heq] at hlast
    exact hlast (by simp [List.mem_map_of_mem hlater])

theorem Chain.insert (hnodup : (start :: (front ++ node :: back).map slot).Nodup)
    (h : Chain link slot start (front ++ back) stop) :
    Chain (Function.update (Function.update link (slot node) (link (lastSlot slot start front)))
      (lastSlot slot start front) (some node)) slot start (front ++ node :: back) stop := by
  obtain ⟨hfront, hback⟩ := chain_append.mp h
  have hlast := lastSlot_notMem hnodup
  rw [List.map_append, ← List.cons_append] at hnodup
  obtain ⟨hfrontNodup, hbackNodup, hapart⟩ := List.nodup_append.mp hnodup
  have hnode : slot node ∉ start :: front.map slot := fun hmem ↦
    hapart _ hmem (slot node) (by simp) rfl
  rw [List.map_cons, List.nodup_cons] at hbackNodup
  refine chain_append.mpr ⟨?_, Function.update_self _ _ _, ?_⟩
  · exact (hfront.update_of_notMem hnode).write_last hfrontNodup
  · refine hback.congr ?_ fun later hlater ↦ ?_
    · rw [Function.update_of_ne, Function.update_self]
      exact fun heq ↦ hlast (by simp [← heq])
    · rw [Function.update_of_ne, Function.update_of_ne]
      · intro heq
        exact hbackNodup.1 (heq ▸ List.mem_map_of_mem hlater)
      · intro heq
        rw [← heq] at hlast
        exact hlast (by simp [List.mem_map_of_mem hlater])

end Chains

end CrossBreeder.Foundation
