import Mathlib.Data.List.Infix

/-!
# Walks in a tree of files

A tree of files without links tells for each place, the list of names on the way to it, what is
there. A path is a list of steps, and a walk takes them from the root.
-/

namespace CrossBreeder.Foundation

inductive FileKind
  | file | directory
  deriving DecidableEq, Repr

structure FileTree (Name : Type*) where
  kind : List Name → Option FileKind
  root : kind [] = some .directory
  parent : ∀ place name, kind (place ++ [name]) ≠ none → kind place = some .directory

inductive PathStep (Name : Type*)
  | stay
  | up
  | down (name : Name)

namespace FileTree

variable {Name : Type*} (tree : FileTree Name)

/-- One step, which is possible in directories only. The directory above the root is the root. -/
def step (place : List Name) : PathStep Name → Option (List Name)
  | .stay => if tree.kind place = some .directory then some place else none
  | .up => if tree.kind place = some .directory then some place.dropLast else none
  | .down name => if (tree.kind (place ++ [name])).isSome then some (place ++ [name]) else none

def walk (steps : List (PathStep Name)) : Option (List Name) := steps.foldlM tree.step []

variable {tree} {place final : List Name} {steps rest : List (PathStep Name)}

theorem kind_dropLast (hplace : tree.kind place = some .directory) :
    tree.kind place.dropLast = some .directory := by
  cases place using List.reverseRecOn with
  | nil => exact hplace
  | append_singleton above name =>
    rw [List.dropLast_concat]
    exact tree.parent above name (by rw [hplace]; exact Option.some_ne_none _)

theorem directory_of_step {s : PathStep Name} (hs : ∀ name, s ≠ .down name)
    (hstep : tree.step place s = some final) : tree.kind final = some .directory := by
  cases s with
  | stay =>
    obtain ⟨hdirectory, hfinal⟩ := Option.ite_none_right_eq_some.mp hstep
    exact Option.some.inj hfinal ▸ hdirectory
  | up =>
    obtain ⟨hdirectory, hfinal⟩ := Option.ite_none_right_eq_some.mp hstep
    exact Option.some.inj hfinal ▸ kind_dropLast hdirectory
  | down name => exact absurd rfl (hs name)

theorem below_of_step {s : PathStep Name} (hs : s ≠ .up) (hstep : tree.step place s = some final) :
    place <+: final := by
  cases s with
  | stay =>
    obtain ⟨-, hfinal⟩ := Option.ite_none_right_eq_some.mp hstep
    exact Option.some.inj hfinal ▸ List.prefix_refl _
  | up => exact absurd rfl hs
  | down name =>
    obtain ⟨-, hfinal⟩ := Option.ite_none_right_eq_some.mp hstep
    exact Option.some.inj hfinal ▸ List.prefix_append _ _

theorem below_of_foldlM (hup : ∀ s ∈ rest, s ≠ .up)
    (hwalk : rest.foldlM tree.step place = some final) : place <+: final := by
  induction rest generalizing place with
  | nil => exact Option.some.inj hwalk ▸ List.prefix_refl _
  | cons s rest ih =>
    rw [List.foldlM_cons] at hwalk
    obtain ⟨next, hnext, hrest⟩ := Option.bind_eq_some_iff.mp hwalk
    exact (below_of_step (hup s List.mem_cons_self) hnext).trans
      (ih (fun later hlater ↦ hup later (List.mem_cons_of_mem _ hlater)) hrest)

theorem below_of_foldlM_of_file (hup : ∀ s ∈ rest.dropLast, s ≠ .up)
    (hwalk : rest.foldlM tree.step place = some final) (hfile : tree.kind final = some .file) :
    place <+: final := by
  cases rest using List.reverseRecOn with
  | nil => exact Option.some.inj hwalk ▸ List.prefix_refl _
  | append_singleton front last =>
    rw [List.dropLast_concat] at hup
    refine below_of_foldlM (fun s hs ↦ ?_) hwalk
    rcases List.mem_append.mp hs with hfront | hlast
    · exact hup s hfront
    · rw [List.mem_singleton.mp hlast]
      rintro rfl
      -- the last step would come to a directory
      rw [List.foldlM_append] at hwalk
      obtain ⟨before, -, hstep⟩ := Option.bind_eq_some_iff.mp hwalk
      obtain ⟨next, hnext, hnil⟩ := Option.bind_eq_some_iff.mp hstep
      cases Option.some.inj hnil
      have hdirectory := directory_of_step (by rintro name ⟨⟩) hnext
      rw [hfile] at hdirectory
      cases hdirectory

theorem file_below (hup : ∀ s ∈ (steps ++ rest).dropLast, s ≠ .up) (hrest : rest ≠ [])
    (hwalk : tree.walk (steps ++ rest) = some final) (hfile : tree.kind final = some .file) :
    ∃ place, tree.walk steps = some place ∧ place <+: final := by
  unfold walk at hwalk
  rw [List.foldlM_append] at hwalk
  obtain ⟨place, hplace, hlater⟩ := Option.bind_eq_some_iff.mp hwalk
  refine ⟨place, hplace, below_of_foldlM_of_file (fun s hs ↦ hup s ?_) hlater hfile⟩
  rw [List.dropLast_append_of_ne_nil hrest]
  exact List.mem_append_right _ hs

theorem directory_of_foldlM {s : PathStep Name}
    (hwalk : (s :: rest).foldlM tree.step place = some final) :
    tree.kind place = some .directory := by
  rw [List.foldlM_cons] at hwalk
  obtain ⟨next, hnext, -⟩ := Option.bind_eq_some_iff.mp hwalk
  cases s with
  | stay => exact (Option.ite_none_right_eq_some.mp hnext).1
  | up => exact (Option.ite_none_right_eq_some.mp hnext).1
  | down name =>
    refine tree.parent place name fun hnone ↦ ?_
    have hsome := (Option.ite_none_right_eq_some.mp hnext).1
    rw [hnone] at hsome
    cases hsome

end FileTree

end CrossBreeder.Foundation
