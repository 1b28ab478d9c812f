import Mathlib.Data.List.Nodup
import Mathlib.Data.List.Perm.Subperm

/-!
# Walks along a finite list of edges

A recursion that follows edges from node to node ends if the walks from the node where it starts are
bounded. Where no two edges have the same head, a walk that passes an edge twice has come back to
its start (`Walk.nodup`): the walks from a node that no walk leads back to are no longer than the
list of edges (`Walk.length_le`), and from any other node there are walks of every length
(`exists_walk`).
-/

namespace CrossBreeder.Foundation

variable {α ε : Type*}

def Edge (tail head : ε → α) (edges : List ε) (left right : α) : Prop :=
  ∃ e ∈ edges, tail e = left ∧ head e = right

def LeadsBack (tail head : ε → α) (edges : List ε) (node : α) : Prop :=
  Relation.TransGen (Edge tail head edges) node node

inductive Walk (tail head : ε → α) (edges : List ε) : α → List ε → Prop
  | nil (node : α) : Walk tail head edges node []
  | cons {e : ε} {rest : List ε} (hmem : e ∈ edges) (hrest : Walk tail head edges (head e) rest) :
      Walk tail head edges (tail e) (e :: rest)

variable {tail head : ε → α} {edges : List ε} {node other : α}

def HeadsDistinct (head : ε → α) (edges : List ε) : Prop :=
  ∀ e ∈ edges, ∀ f ∈ edges, head e = head f → e = f

/-! ### Loops -/

theorem leadsBack_of_edge (hdistinct : HeadsDistinct head edges)
    (hedge : Edge tail head edges node other) (hback : LeadsBack tail head edges other) :
    LeadsBack tail head edges node := by
  obtain ⟨e, he, rfl, rfl⟩ := hedge
  -- the last edge of the loop is the one that was taken
  obtain ⟨before, hbefore, f, hf, rfl, hhead⟩ := Relation.TransGen.tail'_iff.mp hback
  obtain rfl := hdistinct f hf e he hhead
  exact Relation.TransGen.head' ⟨f, hf, rfl, rfl⟩ hbefore

theorem leadsBack_of_transGen (hdistinct : HeadsDistinct head edges)
    (hreach : Relation.TransGen (Edge tail head edges) node other)
    (hback : LeadsBack tail head edges other) :
    LeadsBack tail head edges node := by
  induction hreach with
  | single hedge => exact leadsBack_of_edge hdistinct hedge hback
  | tail _ hedge ih => exact ih (leadsBack_of_edge hdistinct hedge hback)

/-! ### Walks -/

variable {walk : List ε}

theorem Walk.transGen (h : Walk tail head edges node walk) :
    ∀ e ∈ walk, Relation.TransGen (Edge tail head edges) node (head e) := by
  induction h with
  | nil => exact fun e he ↦ absurd he List.not_mem_nil
  | @cons first rest hmem _ ih =>
    have hfirst : Edge tail head edges (tail first) (head first) := ⟨first, hmem, rfl, rfl⟩
    intro e he
    rcases List.mem_cons.mp he with rfl | hrest
    · exact .single hfirst
    · exact .head hfirst (ih e hrest)

theorem Walk.subset (h : Walk tail head edges node walk) : walk ⊆ edges := by
  induction h with
  | nil => exact List.nil_subset _
  | cons hmem _ ih => exact List.cons_subset.mpr ⟨hmem, ih⟩

theorem Walk.nodup (hdistinct : HeadsDistinct head edges) (h : Walk tail head edges node walk)
    (hback : ¬ LeadsBack tail head edges node) : walk.Nodup := by
  induction h with
  | nil => exact List.nodup_nil
  | @cons e rest hmem hrest ih =>
    have hnext : ¬ LeadsBack tail head edges (head e) := fun hloop ↦
      hback (leadsBack_of_edge hdistinct ⟨e, hmem, rfl, rfl⟩ hloop)
    exact List.nodup_cons.mpr ⟨fun hagain ↦ hnext (hrest.transGen e hagain), ih hnext⟩

theorem Walk.length_le (hdistinct : HeadsDistinct head edges)
    (h : Walk tail head edges node walk) (hback : ¬ LeadsBack tail head edges node) :
    walk.length ≤ edges.length :=
  (List.subperm_of_subset (h.nodup hdistinct hback) h.subset).length_le

theorem exists_walk (hback : LeadsBack tail head edges node) (length : ℕ) :
    ∃ walk, walk.length = length ∧ Walk tail head edges node walk := by
  -- wherever the walk is, there are edges that lead to the loop
  have hall : ∀ here, Relation.TransGen (Edge tail head edges) here node →
      ∃ walk, walk.length = length ∧ Walk tail head edges here walk := by
    induction length with
    | zero => exact fun here _ ↦ ⟨[], rfl, .nil here⟩
    | succ length ih =>
      intro here hhere
      obtain ⟨next, ⟨e, he, rfl, rfl⟩, hnext⟩ := Relation.TransGen.head'_iff.mp hhere
      have hagain : Relation.TransGen (Edge tail head edges) (head e) node := by
        rcases Relation.reflTransGen_iff_eq_or_transGen.mp hnext with hsame | hmore
        · rw [← hsame]
          exact hback
        · exact hmore
      obtain ⟨walk, hlength, hwalk⟩ := ih (head e) hagain
      exact ⟨e :: walk, by rw [List.length_cons, hlength], .cons he hwalk⟩
  exact hall node hback

end CrossBreeder.Foundation
