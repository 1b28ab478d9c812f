import Mathlib.Data.Finset.Card

/-!
# Pools of shared handles

A slot of a pool has a handle, for example a descriptor, and counts its references. The first
reference opens the handle and the last one closes it. `Accounts` says that the counts are right for
a set of holders: the handles of slots with references are open and different, all the others that
were ever opened are closed, and no handle is closed twice.
-/

namespace CrossBreeder.Foundation

variable {Tag Holder : Type*}

structure HandleSlot (Tag : Type*) where
  handle : Option ℕ
  count : ℕ
  tag : Tag

/-- The slots, how many handles were opened so far, and those that were closed, the last one first.
-/
structure HandlePool (Tag : Type*) where
  slots : ℕ → HandleSlot Tag
  opened : ℕ
  closed : List ℕ

namespace HandlePool

def openSlot (pool : HandlePool Tag) (i : ℕ) (tag : Tag) : HandlePool Tag :=
  { pool with
    slots := Function.update pool.slots i ⟨some pool.opened, 1, tag⟩, opened := pool.opened + 1 }

def pass (pool : HandlePool Tag) : HandlePool Tag :=
  { pool with opened := pool.opened + 1, closed := pool.opened :: pool.closed }

def failSlot (pool : HandlePool Tag) (i : ℕ) : HandlePool Tag :=
  { pool with slots := Function.update pool.slots i { pool.slots i with handle := none } }

def share (pool : HandlePool Tag) (i : ℕ) : HandlePool Tag :=
  { pool with slots := Function.update pool.slots i { pool.slots i with
    count := (pool.slots i).count + 1 } }

/-- One reference less, and the last one closes the handle. -/
def release (pool : HandlePool Tag) (i : ℕ) : HandlePool Tag :=
  { pool with
    slots := Function.update pool.slots i { pool.slots i with count := (pool.slots i).count - 1 }
    closed := if (pool.slots i).count = 1 then (pool.slots i).handle.toList ++ pool.closed
      else pool.closed }

end HandlePool

/-- How many holders refer to a slot. -/
def references (holders : Finset Holder) (holds : Holder → Option ℕ) (i : ℕ) : ℕ :=
  (holders.filter fun holder ↦ holds holder = some i).card

structure Accounts (pool : HandlePool Tag) (holders : Finset Holder) (holds : Holder → Option ℕ) :
    Prop where
  count : ∀ i, (pool.slots i).count = references holders holds i
  isOpen : ∀ i, 0 < (pool.slots i).count →
    ∃ handle, (pool.slots i).handle = some handle ∧ handle < pool.opened ∧ handle ∉ pool.closed
  held : ∀ handle < pool.opened, handle ∉ pool.closed →
    ∃ i, 0 < (pool.slots i).count ∧ (pool.slots i).handle = some handle
  distinct : ∀ i j, 0 < (pool.slots i).count → 0 < (pool.slots j).count →
    (pool.slots i).handle = (pool.slots j).handle → i = j
  stale : ∀ i handle, (pool.slots i).count = 0 → (pool.slots i).handle = some handle →
    handle ∈ pool.closed
  closedOnce : pool.closed.Nodup
  wasOpen : ∀ handle ∈ pool.closed, handle < pool.opened

section References

variable [DecidableEq Holder] {holders : Finset Holder} {holds : Holder → Option ℕ}
    {holder : Holder}

theorem references_update_some (hmem : holder ∈ holders) (hnone : holds holder = none) (i j : ℕ) :
    references holders (Function.update holds holder (some i)) j =
      references holders holds j + if i = j then 1 else 0 := by
  unfold references
  split_ifs with hij
  · subst hij
    rw [← Finset.card_insert_of_notMem (a := holder) (by simp [hnone])]
    congr 1
    ext other
    by_cases hother : other = holder
    · simp [hother, hmem]
    · simp [hother]
  · rw [Nat.add_zero]
    congr 1
    refine Finset.filter_congr fun other _ ↦ ?_
    by_cases hother : other = holder
    · simp [hother, hnone, hij]
    · simp [hother]

theorem references_update_none {i : ℕ} (hmem : holder ∈ holders) (hsome : holds holder = some i)
    (j : ℕ) : references holders (Function.update holds holder none) j + (if i = j then 1 else 0) =
      references holders holds j := by
  have hback :=
    @references_update_some _ _ _ (Function.update holds holder none) _ hmem (by simp) i j
  rw [Function.update_idem, ← hsome, Function.update_eq_self] at hback
  exact hback.symm

theorem references_insert_none (hnone : holds holder = none) (i : ℕ) :
    references (insert holder holders) holds i = references holders holds i := by
  unfold references
  rw [Finset.filter_insert, if_neg (by simp [hnone])]

omit [DecidableEq Holder] in
theorem references_pos {i : ℕ} (hmem : holder ∈ holders) (hsome : holds holder = some i) :
    0 < references holders holds i :=
  Finset.card_pos.mpr ⟨holder, Finset.mem_filter.mpr ⟨hmem, hsome⟩⟩

end References

namespace Accounts

variable [DecidableEq Holder] {pool : HandlePool Tag} {holders : Finset Holder}
    {holds : Holder → Option ℕ}
  {holder : Holder} {i : ℕ}

theorem openSlot (h : Accounts pool holders holds) (hmem : holder ∈ holders)
    (hnone : holds holder = none) (hfree : (pool.slots i).count = 0) (tag : Tag) :
    Accounts (pool.openSlot i tag) holders (Function.update holds holder (some i)) where
  count j := by
    rw [references_update_some hmem hnone, HandlePool.openSlot]
    by_cases hij : i = j
    · subst hij
      simp [← h.count, hfree]
    · simp [Function.update_of_ne (Ne.symm hij), hij, h.count]
  isOpen j hpos := by
    dsimp only [HandlePool.openSlot] at hpos ⊢
    by_cases hij : j = i
    · subst hij
      refine ⟨pool.opened, by simp, by simp, fun hclosed ↦ ?_⟩
      exact Nat.lt_irrefl _ (h.wasOpen _ hclosed)
    · rw [Function.update_of_ne hij] at hpos ⊢
      obtain ⟨handle, hhandle, hlt, hopen⟩ := h.isOpen j hpos
      exact ⟨handle, hhandle, Nat.lt_succ_of_lt hlt, hopen⟩
  held handle hlt hopen := by
    dsimp only [HandlePool.openSlot] at hlt hopen ⊢
    rcases Nat.lt_succ_iff_lt_or_eq.mp hlt with hlt | rfl
    · obtain ⟨j, hpos, hhandle⟩ := h.held handle hlt hopen
      have hij : j ≠ i := fun heq ↦ by simp [heq, hfree] at hpos
      exact ⟨j, by simpa [hij] using hpos, by simpa [hij] using hhandle⟩
    · exact ⟨i, by simp, by simp⟩
  distinct j k hj hk heq := by
    -- the new handle is different from all that were there
    have hnew : ∀ other, other ≠ i → 0 < (pool.slots other).count →
        (pool.slots other).handle ≠ some pool.opened := by
      intro other _ hpos hhandle
      obtain ⟨handle, hsome, hlt, -⟩ := h.isOpen other hpos
      rw [hsome] at hhandle
      exact Nat.lt_irrefl _ (Option.some.inj hhandle ▸ hlt)
    dsimp only [HandlePool.openSlot] at hj hk heq
    by_cases hji : j = i
    · by_cases hki : k = i
      · rw [hji, hki]
      · simp only [hji, Function.update_self, Function.update_of_ne hki] at hk heq
        exact absurd heq.symm (hnew k hki hk)
    · by_cases hki : k = i
      · simp only [hki, Function.update_self, Function.update_of_ne hji] at hj heq
        exact absurd heq (hnew j hji hj)
      · simp only [Function.update_of_ne hji, Function.update_of_ne hki] at hj hk heq
        exact h.distinct j k hj hk heq
  stale j handle hzero hhandle := by
    dsimp only [HandlePool.openSlot] at hzero hhandle
    have hij : j ≠ i := fun heq ↦ by simp [heq] at hzero
    rw [Function.update_of_ne hij] at hzero hhandle
    exact h.stale j handle hzero hhandle
  closedOnce := h.closedOnce
  wasOpen handle hclosed := Nat.lt_succ_of_lt (h.wasOpen handle hclosed)

omit [DecidableEq Holder] in
/-- An update that does not change which slots have references, and keeps the handles of those. -/
theorem of_counts (h : Accounts pool holders holds) {slots : ℕ → HandleSlot Tag}
    {others : Finset Holder} {holds' : Holder → Option ℕ}
    (hcount : ∀ j, (slots j).count = references others holds' j)
    (hpos : ∀ j, 0 < (slots j).count ↔ 0 < (pool.slots j).count)
    (hhandle : ∀ j, 0 < (slots j).count → (slots j).handle = (pool.slots j).handle)
    (hkept : ∀ j handle, (slots j).handle = some handle → (pool.slots j).handle = some handle) :
    Accounts { pool with slots := slots } others holds' where
  count := hcount
  isOpen j hj := by
    rw [hhandle j hj]
    exact h.isOpen j ((hpos j).mp hj)
  held handle hlt hopen := by
    obtain ⟨j, hj, hsome⟩ := h.held handle hlt hopen
    exact ⟨j, (hpos j).mpr hj, (hhandle j ((hpos j).mpr hj)).trans hsome⟩
  distinct j k hj hk heq := by
    rw [hhandle j hj, hhandle k hk] at heq
    exact h.distinct j k ((hpos j).mp hj) ((hpos k).mp hk) heq
  stale j handle hzero hsome := by
    have hnone : ¬0 < (pool.slots j).count := fun hj ↦ Nat.lt_irrefl 0 (hzero ▸ (hpos j).mpr hj)
    exact h.stale j handle (by omega) (hkept j handle hsome)
  closedOnce := h.closedOnce
  wasOpen := h.wasOpen

omit [DecidableEq Holder] in
theorem of_references (h : Accounts pool holders holds) {others : Finset Holder}
    {holds' : Holder → Option ℕ} (hsame : ∀ j, references others holds' j = references holders holds
      j) : Accounts pool others holds' :=
  h.of_counts (fun j ↦ (h.count j).trans (hsame j).symm) (fun _ ↦ Iff.rfl) (fun _ _ ↦
    rfl) fun _ _ hhandle ↦ hhandle

omit [DecidableEq Holder] in
theorem pass (h : Accounts pool holders holds) : Accounts pool.pass holders holds where
  count := h.count
  isOpen j hj := by
    obtain ⟨handle, hhandle, hlt, hopen⟩ := h.isOpen j hj
    refine ⟨handle, hhandle, Nat.lt_succ_of_lt hlt, fun hclosed ↦ ?_⟩
    rcases List.mem_cons.mp hclosed with rfl | hclosed
    · exact Nat.lt_irrefl _ hlt
    · exact hopen hclosed
  held handle hlt hopen := by
    rcases Nat.lt_succ_iff_lt_or_eq.mp hlt with hlt | rfl
    · exact h.held handle hlt fun hclosed ↦ hopen (List.mem_cons_of_mem _ hclosed)
    · exact absurd List.mem_cons_self hopen
  distinct := h.distinct
  stale j handle hzero hhandle := List.mem_cons_of_mem _ (h.stale j handle hzero hhandle)
  closedOnce :=
    List.nodup_cons.mpr ⟨fun hclosed ↦ Nat.lt_irrefl _ (h.wasOpen _ hclosed), h.closedOnce⟩
  wasOpen handle hclosed := by
    rcases List.mem_cons.mp hclosed with rfl | hclosed
    · exact Nat.lt_succ_self _
    · exact Nat.lt_succ_of_lt (h.wasOpen handle hclosed)

omit [DecidableEq Holder] in
theorem failSlot (h : Accounts pool holders holds) (hfree : (pool.slots i).count = 0) :
    Accounts (pool.failSlot i) holders holds := by
  have hcount : ∀ j, (Function.update pool.slots i { pool.slots i with handle := none } j).count =
      (pool.slots j).count := fun j ↦ by
    by_cases hij : j = i
    · simp [hij]
    · simp [hij]
  refine h.of_counts (fun j ↦ ?_) (fun j ↦ by rw [hcount]) (fun j hj ↦ ?_) fun j handle hsome ↦ ?_
  · rw [hcount, h.count]
  · have hij : j ≠ i := fun heq ↦ by simp [heq, hfree] at hj
    rw [Function.update_of_ne hij]
  · have hij : j ≠ i := fun heq ↦ by simp [heq] at hsome
    rwa [Function.update_of_ne hij] at hsome

theorem share (h : Accounts pool holders holds) (hmem : holder ∈ holders)
    (hnone : holds holder = none) (hused : 0 < (pool.slots i).count) :
    Accounts (pool.share i) holders (Function.update holds holder (some i)) := by
  have hsame :
    ∀ j, (Function.update pool.slots i { pool.slots i with count := (pool.slots i).count + 1 }
      j).handle = (pool.slots j).handle := fun j ↦ by
    by_cases hij : j = i
    · simp [hij]
    · simp [hij]
  refine h.of_counts (fun j ↦ ?_) (fun j ↦ ?_) (fun j _ ↦ hsame j) fun j handle hsome ↦
    (hsame j).symm.trans hsome
  · rw [references_update_some hmem hnone, ← h.count]
    by_cases hij : i = j
    · subst hij
      simp
    · simp [Function.update_of_ne (Ne.symm hij), hij]
  · by_cases hij : j = i
    · subst hij
      simp [hused]
    · simp [hij]

theorem release (h : Accounts pool holders holds) (hmem : holder ∈ holders)
    (hsome : holds holder = some i) :
    Accounts (pool.release i) holders (Function.update holds holder none) := by
  have hcount : ∀ j, ((pool.release i).slots j).count = references holders
    (Function.update holds holder none) j := by
    intro j
    have hless := references_update_none hmem hsome j
    rw [← h.count] at hless
    unfold HandlePool.release
    by_cases hij : j = i
    · subst hij
      simp only [if_true] at hless
      simp only [Function.update_self]
      omega
    · rw [if_neg (Ne.symm hij), Nat.add_zero] at hless
      simp [hij, hless]
  have hused : 0 < (pool.slots i).count := by
    rw [h.count]
    exact references_pos hmem hsome
  obtain ⟨handle, hhandle, hlt, hopen⟩ := h.isOpen i hused
  have hother : ∀ j, j ≠ i → (pool.release i).slots j = pool.slots j :=
    fun j hij ↦ Function.update_of_ne hij _ _
  have hown : (pool.release i).slots i = { pool.slots i with count := (pool.slots i).count - 1 } :=
    Function.update_self _ _ _
  by_cases hlast : (pool.slots i).count = 1
  · have hclosed : (pool.release i).closed = handle :: pool.closed := by
      simp [HandlePool.release, hlast, hhandle]
    -- the slot has no reference left, and its handle is not that of another slot
    have hne : ∀ j, 0 < ((pool.release i).slots j).count → j ≠ i := fun j hj heq ↦ by
      rw [heq, hown] at hj
      simp [hlast] at hj
    refine ⟨hcount, fun j hj ↦ ?_, fun other hbound hothers ↦ ?_, fun j k hj hk heq ↦ ?_,
      fun j other hzero hsome' ↦ ?_, ?_, ?_⟩
    · have hij := hne j hj
      rw [hother j hij] at hj ⊢
      obtain ⟨other, hsome', hlt', hopen'⟩ := h.isOpen j hj
      refine ⟨other, hsome', hlt', fun hmem' ↦ ?_⟩
      rw [hclosed] at hmem'
      rcases List.mem_cons.mp hmem' with rfl | hmem'
      · exact hij (h.distinct j i hj hused (hsome'.trans hhandle.symm))
      · exact hopen' hmem'
    · rw [hclosed, List.mem_cons, not_or] at hothers
      obtain ⟨j, hj, hsome'⟩ := h.held other hbound hothers.2
      have hij : j ≠ i := fun heq ↦ by
        rw [heq, hhandle] at hsome'
        exact hothers.1 (Option.some.inj hsome').symm
      exact ⟨j, by rwa [hother j hij], by rwa [hother j hij]⟩
    · have hji := hne j hj
      have hki := hne k hk
      rw [hother j hji] at hj heq
      rw [hother k hki] at hk heq
      exact h.distinct j k hj hk heq
    · rw [hclosed]
      by_cases hij : j = i
      · rw [hij, hown] at hsome'
        rw [← Option.some.inj (hhandle.symm.trans hsome')]
        exact List.mem_cons_self
      · rw [hother j hij] at hzero hsome'
        exact List.mem_cons_of_mem _ (h.stale j other hzero hsome')
    · rw [hclosed]
      exact List.nodup_cons.mpr ⟨hopen, h.closedOnce⟩
    · intro other hmem'
      rw [hclosed] at hmem'
      rcases List.mem_cons.mp hmem' with rfl | hmem'
      · exact hlt
      · exact h.wasOpen other hmem'
  · have hclosed : (pool.release i).closed = pool.closed := by
      simp [HandlePool.release, hlast]
    have hhandles : ∀ j, ((pool.release i).slots j).handle = (pool.slots j).handle := fun j ↦ by
      by_cases hij : j = i
      · rw [hij, hown]
      · rw [hother j hij]
    have hsame := h.of_counts hcount (fun j ↦ ?_) (fun j _ ↦ hhandles j) fun j other hsome' ↦
      (hhandles j).symm.trans hsome'
    · rwa [← hclosed] at hsame
    · by_cases hij : j = i
      · rw [hij, hown]
        dsimp only
        omega
      · rw [hother j hij]

omit [DecidableEq Holder] in
theorem empty {pool : HandlePool Tag} {holders : Finset Holder} {holds : Holder → Option ℕ}
    (hslots : ∀ i, (pool.slots i).count = 0 ∧ (pool.slots i).handle = none)
    (hopened : pool.opened = 0) (hclosed : pool.closed = [])
    (hholds : ∀ holder ∈ holders, holds holder = none) : Accounts pool holders holds where
  count i := by
    rw [(hslots i).1]
    exact (Finset.card_eq_zero.mpr (Finset.filter_eq_empty_iff.mpr fun holder hmem ↦ by
      simp [hholds holder hmem])).symm
  isOpen i hpos := absurd hpos (by simp [(hslots i).1])
  held handle hlt := absurd hlt (by simp [hopened])
  distinct i j hpos := absurd hpos (by simp [(hslots i).1])
  stale i handle _ hsome := absurd hsome (by simp [(hslots i).2])
  closedOnce := by simp [hclosed]
  wasOpen := by simp [hclosed]

omit [DecidableEq Holder] in
theorem notMem_closed_iff (h : Accounts pool holders holds) {handle : ℕ}
    (hhandle : (pool.slots i).handle = some handle) :
    handle ∉ pool.closed ↔ 0 < (pool.slots i).count := by
  constructor
  · intro hopen
    by_contra hzero
    exact hopen (h.stale i handle (by omega) hhandle)
  · intro hpos
    obtain ⟨other, hother, -, hopen⟩ := h.isOpen i hpos
    rwa [← Option.some.inj (hother.symm.trans hhandle)]

end Accounts

end CrossBreeder.Foundation
