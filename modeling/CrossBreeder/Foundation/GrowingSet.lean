import Mathlib.Data.List.Induction
import Mathlib.Data.Set.Insert

/-!
# Sets that grow along a run

A loop adds at most one value to a set in each round, with a number that is greater than those of
the values before. What was in the set when a value was added can be told from the set at the end,
by the numbers, and so a property of all values with those before them holds at the end if and only
if it held in every round (`GrowsAlong.forall_iff`).
-/

namespace CrossBreeder.Foundation

def AtEach {ι : Type*} (P : List ι → ι → Prop) (items : List ι) : Prop :=
  ∀ front item back, items = front ++ item :: back → P front item

section AtEach

variable {ι : Type*} {P P' : List ι → ι → Prop} {items : List ι} {last : ι}

theorem atEach_nil : AtEach P [] := by
  intro front item back hsplit
  simp at hsplit

theorem atEach_concat : AtEach P (items ++ [last]) ↔ AtEach P items ∧ P items last := by
  constructor
  · refine fun h ↦
      ⟨fun front item back hsplit ↦ h front item (back ++ [last]) ?_, h items last [] rfl⟩
    rw [hsplit]
    simp
  · rintro ⟨hitems, hlast⟩ front item back hsplit
    rcases List.eq_nil_or_concat back with rfl | ⟨init, other, rfl⟩
    · obtain ⟨rfl, hitem⟩ := List.append_inj' hsplit rfl
      obtain rfl : last = item := by simpa using hitem
      exact hlast
    · have hinit : items ++ [last] = (front ++ item :: init) ++ [other] := by
        rw [hsplit]
        simp
      exact hitems front item init (List.append_inj' hinit rfl).1

theorem AtEach.mono (hmore : ∀ front item, P front item → P' front item) (h : AtEach P items) :
    AtEach P' items :=
  fun front item back hsplit ↦ hmore front item (h front item back hsplit)

theorem AtEach.congr (h : AtEach (fun front item ↦ (P front item ↔ P' front item)) items) :
    AtEach P items ↔ AtEach P' items :=
  ⟨fun hall front item back hsplit ↦ (h front item back hsplit).mp (hall front item back hsplit),
    fun hall front item back hsplit ↦ (h front item back hsplit).mpr (hall front item back hsplit)⟩

theorem atEach_foldl {σ : Type*} {step : σ → ι → σ} {s : σ} (Inv : σ → Prop) (hstart : Inv s)
    (hstep : ∀ state, ∀ item ∈ items, Inv state → Inv (step state item)) :
    AtEach (fun front _ ↦ Inv (front.foldl step s)) items ∧ Inv (items.foldl step s) := by
  induction items using List.reverseRecOn with
  | nil => exact ⟨atEach_nil, hstart⟩
  | append_singleton items last ih =>
    obtain ⟨heach, hlast⟩ :=
      ih fun state item hitem ↦ hstep state item (List.mem_append_left _ hitem)
    refine ⟨atEach_concat.mpr ⟨heach, hlast⟩, ?_⟩
    rw [List.foldl_append]
    exact hstep _ last (List.mem_append_right _ (List.mem_singleton_self last)) hlast

end AtEach

inductive Grows {β : Type*} (key : β → ℕ) (before : Set β) : Set β → Prop
  | same : Grows key before before
  | add {new : β} (hnew : ∀ old ∈ before, key old < key new) : Grows key before (insert new before)

section Grows

variable {β ι σ : Type*} {key : β → ℕ} {before after : Set β}

theorem Grows.subset (h : Grows key before after) : before ⊆ after := by
  cases h with
  | same => exact Set.Subset.rfl
  | add _ => exact Set.subset_insert _ _

def earlier (key : β → ℕ) (values : Set β) (value : β) : Set β :=
  {other ∈ values | key other < key value}

theorem earlier_insert_of_mem {new value : β} (hnew : ∀ old ∈ before, key old < key new)
    (hmem : value ∈ before) : earlier key (insert new before) value = earlier key before value := by
  ext other
  constructor
  · rintro ⟨rfl | hother, hlt⟩
    · exact absurd hlt (hnew value hmem).asymm
    · exact ⟨hother, hlt⟩
  · rintro ⟨hother, hlt⟩
    exact ⟨.inr hother, hlt⟩

theorem earlier_insert_self {new : β} (hnew : ∀ old ∈ before, key old < key new) :
    earlier key (insert new before) new = before := by
  ext other
  constructor
  · rintro ⟨rfl | hother, hlt⟩
    · exact absurd hlt (lt_irrefl _)
    · exact hother
  · intro hother
    exact ⟨.inr hother, hnew other hother⟩

theorem Grows.forall_iff (h : Grows key before after) (Q : Set β → β → Prop) :
    (∀ value ∈ after, Q (earlier key after value) value) ↔
      (∀ value ∈ before, Q (earlier key before value) value) ∧ ∀ new ∈ after, new ∉ before →
      Q before new := by
  cases h with
  | same => exact ⟨fun hall ↦ ⟨hall, fun new hmem hnot ↦ absurd hmem hnot⟩, fun hall ↦ hall.1⟩
  | @add new hnew =>
    have hfresh : new ∉ before := fun hmem ↦ lt_irrefl _ (hnew new hmem)
    constructor
    · refine fun hall ↦ ⟨fun value hmem ↦ ?_, fun value hmem hnot ↦ ?_⟩
      · rw [← earlier_insert_of_mem hnew hmem]
        exact hall value (.inr hmem)
      · obtain rfl : value = new := hmem.resolve_right hnot
        have hlast := hall value (.inl rfl)
        rwa [earlier_insert_self hnew] at hlast
    · rintro ⟨hall, hlast⟩ value (rfl | hmem)
      · rw [earlier_insert_self hnew]
        exact hlast value (.inl rfl) hfresh
      · rw [earlier_insert_of_mem hnew hmem]
        exact hall value hmem

section Run

variable {step : σ → ι → σ} {s : σ} {content : σ → Set β} {items : List ι}

def GrowsAlong (key : β → ℕ) (content : σ → Set β) (step : σ → ι → σ) (s : σ) (items : List ι) :
    Prop :=
  content s = ∅ ∧ AtEach (fun front item ↦
    Grows key (content (front.foldl step s)) (content (step (front.foldl step s) item))) items

theorem growsAlong_concat {last : ι} : GrowsAlong key content step s (items ++ [last]) ↔
    GrowsAlong key content step s items ∧
      Grows key (content (items.foldl step s)) (content (step (items.foldl step s) last)) := by
  unfold GrowsAlong
  rw [atEach_concat, and_assoc]

theorem GrowsAlong.append_left {front back : List ι}
    (h : GrowsAlong key content step s (front ++ back)) : GrowsAlong key content step s front :=
  ⟨h.1, fun first item middle hfront ↦ h.2 first item (middle ++ back) (by rw [hfront]; simp)⟩

theorem GrowsAlong.injOn (h : GrowsAlong key content step s items) :
    Set.InjOn key (content (items.foldl step s)) := by
  induction items using List.reverseRecOn with
  | nil =>
    rw [List.foldl_nil, h.1]
    exact fun left hleft ↦ absurd hleft (Set.notMem_empty left)
  | append_singleton items last ih =>
    obtain ⟨hitems, hlast⟩ := growsAlong_concat.mp h
    have hold := ih hitems
    rw [List.foldl_append, List.foldl_cons, List.foldl_nil]
    generalize content (step (items.foldl step s) last) = after at hlast
    cases hlast with
    | same => exact hold
    | add hnew =>
      rintro left (rfl | hleft) right (rfl | hright) heq
      · rfl
      · exact absurd heq (hnew right hright).ne'
      · exact absurd heq (hnew left hleft).ne
      · exact hold hleft hright heq

theorem GrowsAlong.subset (h : GrowsAlong key content step s items) :
    AtEach (fun front item ↦
      content (step (front.foldl step s) item) ⊆ content (items.foldl step s)) items := by
  induction items using List.reverseRecOn with
  | nil => exact atEach_nil
  | append_singleton items last ih =>
    obtain ⟨hitems, hlast⟩ := growsAlong_concat.mp h
    rw [atEach_concat, List.foldl_append]
    exact ⟨(ih hitems).mono fun _ _ hsub ↦ hsub.trans hlast.subset, Set.Subset.rfl⟩

theorem GrowsAlong.exists_added (h : GrowsAlong key content step s items) {value : β}
    (hmem : value ∈ content (items.foldl step s)) :
    ∃ front item back, items = front ++ item :: back ∧ value ∈ content
      (step (front.foldl step s) item) ∧ value ∉ content (front.foldl step s) := by
  induction items using List.reverseRecOn with
  | nil =>
    rw [List.foldl_nil, h.1] at hmem
    exact absurd hmem (Set.notMem_empty value)
  | append_singleton items last ih =>
    by_cases hbefore : value ∈ content (items.foldl step s)
    · obtain ⟨front, item, back, rfl, hadded⟩ := ih (growsAlong_concat.mp h).1 hbefore
      exact ⟨front, item, back ++ [last], by simp, hadded⟩
    · rw [List.foldl_append] at hmem
      exact ⟨items, last, [], rfl, hmem, hbefore⟩

theorem GrowsAlong.forall_iff (h : GrowsAlong key content step s items) (Q : Set β → β → Prop) :
    (∀ value ∈ content (items.foldl step s), Q (earlier key (content (items.foldl step s)) value)
      value) ↔ AtEach (fun front item ↦ ∀ new ∈ content (step (front.foldl step s) item),
        new ∉ content (front.foldl step s) → Q (content (front.foldl step s)) new) items := by
  induction items using List.reverseRecOn with
  | nil =>
    rw [List.foldl_nil, h.1]
    exact ⟨fun _ ↦ atEach_nil, fun _ value hmem ↦ absurd hmem (Set.notMem_empty value)⟩
  | append_singleton items last ih =>
    obtain ⟨hitems, hlast⟩ := growsAlong_concat.mp h
    rw [atEach_concat, ← ih hitems, List.foldl_append]
    exact hlast.forall_iff Q

end Run

end Grows

end CrossBreeder.Foundation
