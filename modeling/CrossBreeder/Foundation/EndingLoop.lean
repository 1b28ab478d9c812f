import Mathlib.Tactic.Common

/-!
# Loops that return from inside

The body of a `while (1)` either returns or goes on with other values of the variables. `Returns`
says what the loop returns, however many rounds it takes; it returns one value at most
(`Returns.unique`). `runRounds` makes a given number of rounds at most.

Two loops are compared round by round: `runRounds_simulate` carries a relation between their
variables to one between what they return.
-/

namespace CrossBreeder.Foundation

variable {σ τ ρ υ : Type*}

inductive Round (σ ρ : Type*)
  | ret (value : ρ)
  | again (state : σ)

/-- Two rounds correspond: both return or both go on. -/
def Round.Agree (Rel : σ → τ → Prop) (Post : ρ → υ → Prop) : Round σ ρ → Round τ υ → Prop
  | .ret value, .ret value' => Post value value'
  | .again s, .again t => Rel s t
  | _, _ => False

inductive Returns (body : σ → Round σ ρ) : σ → ρ → Prop
  | ret {s : σ} {value : ρ} (hbody : body s = .ret value) : Returns body s value
  | again {s t : σ} {value : ρ} (hbody : body s = .again t) (hrest : Returns body t value) :
      Returns body s value

/-- The loop with a bound on its rounds. -/
def runRounds (body : σ → Round σ ρ) : ℕ → σ → Option ρ
  | 0, _ => none
  | rounds + 1, s => match body s with
    | .ret value => some value
    | .again s => runRounds body rounds s

variable {body : σ → Round σ ρ} {other : τ → Round τ υ}

variable {s : σ}

variable {value : ρ}

namespace Returns

theorem of_again {s t : σ} (hbody : body s = .again t) (h : Returns body s value) :
    Returns body t value := by
  cases h with
  | ret hret =>
    rw [hbody] at hret
    cases hret
  | again hnext hrest =>
    rw [hbody] at hnext
    cases hnext
    exact hrest

theorem of_ret {value value' : ρ} (hbody : body s = .ret value) (h : Returns body s value') :
    value' = value := by
  cases h with
  | ret hret =>
    rw [hbody] at hret
    cases hret
    rfl
  | again hnext hrest =>
    rw [hbody] at hnext
    cases hnext

theorem unique {value value' : ρ} (h : Returns body s value) (h' : Returns body s value') :
    value = value' := by
  induction h with
  | ret hbody => exact (of_ret hbody h').symm
  | again hbody hrest ih => exact ih (h'.of_again hbody)

theorem invariant (Inv : σ → Prop) (Post : ρ → Prop)
    (hret : ∀ s value, Inv s → body s = .ret value → Post value)
    (hagain : ∀ s t, Inv s → body s = .again t → Inv t) (h : Returns body s value) (hs : Inv s) :
    Post value := by
  induction h with
  | ret hbody => exact hret _ _ hs hbody
  | again hbody hrest ih => exact ih (hagain _ _ hs hbody)

theorem exists_rounds (h : Returns body s value) :
    ∃ rounds, runRounds body rounds s = some value := by
  induction h with
  | ret hbody => exact ⟨1, by rw [runRounds, hbody]⟩
  | again hbody hrest ih =>
    obtain ⟨rounds, hrun⟩ := ih
    exact ⟨rounds + 1, by rw [runRounds, hbody]; exact hrun⟩

end Returns

theorem returns_of_runRounds (rounds : ℕ) :
    ∀ {s : σ} {value : ρ}, runRounds body rounds s = some value →
    Returns body s value := by
  induction rounds with
  | zero => exact fun h ↦ nomatch h
  | succ rounds ih =>
    intro s value h
    rw [runRounds] at h
    cases hbody : body s with
    | ret result =>
      rw [hbody] at h
      exact .ret (by rw [hbody, Option.some.inj h])
    | again t =>
      rw [hbody] at h
      exact .again hbody (ih h)

theorem runRounds_of_le {rounds more : ℕ} (hle : rounds ≤ more)
    (hrun : runRounds body rounds s = some value) : runRounds body more s = some value := by
  induction rounds generalizing more s with
  | zero => exact nomatch hrun
  | succ rounds ih =>
    obtain ⟨more, rfl⟩ :=
      Nat.exists_eq_add_of_le' (Nat.le_trans (Nat.succ_le_succ (Nat.zero_le rounds)) hle)
    rw [runRounds] at hrun ⊢
    cases hbody : body s with
    | ret result =>
      rw [hbody] at hrun
      exact hrun
    | again t =>
      rw [hbody] at hrun
      exact ih (Nat.le_of_succ_le_succ hle) hrun

theorem runRounds_simulate (Rel : σ → τ → Prop) (Post : ρ → υ → Prop)
    (hround : ∀ s t, Rel s t → Round.Agree Rel Post (body s) (other t)) (rounds : ℕ) :
    ∀ {s : σ} {t : τ} {value : ρ}, Rel s t → runRounds body rounds s = some value →
      ∃ value', runRounds other rounds t = some value' ∧ Post value value' := by
  induction rounds with
  | zero => exact fun _ h ↦ nomatch h
  | succ rounds ih =>
    intro s t value hrel hrun
    have h := hround s t hrel
    rw [runRounds] at hrun ⊢
    cases hbody : body s with
    | ret result =>
      rw [hbody] at hrun h
      cases hother : other t with
      | ret result' =>
        rw [hother] at h
        exact ⟨result', rfl, Option.some.inj hrun ▸ h⟩
      | again t' =>
        rw [hother] at h
        exact h.elim
    | again s' =>
      rw [hbody] at hrun h
      cases hother : other t with
      | ret result' =>
        rw [hother] at h
        exact h.elim
      | again t' =>
        rw [hother] at h
        exact ih h hrun

theorem exists_runRounds (size : σ → ℕ) (hsize : ∀ s t, body s = .again t → size t < size s)
    (rounds : ℕ) : ∀ {s : σ}, size s < rounds → ∃ value, runRounds body rounds s = some value := by
  induction rounds with
  | zero => exact fun h ↦ absurd h (Nat.not_lt_zero _)
  | succ rounds ih =>
    intro s hs
    rw [runRounds]
    cases hbody : body s with
    | ret value => exact ⟨value, rfl⟩
    | again t => exact ih (by have := hsize s t hbody; omega)

theorem returns_iff (size : σ → ℕ) (hsize : ∀ s t, body s = .again t → size t < size s) {rounds : ℕ}
    (hs : size s < rounds) (value : ρ) :
    Returns body s value ↔ runRounds body rounds s = some value := by
  refine ⟨fun h ↦ ?_, returns_of_runRounds rounds⟩
  obtain ⟨value', hrun⟩ := exists_runRounds size hsize rounds hs
  rw [hrun, h.unique (returns_of_runRounds rounds hrun)]

end CrossBreeder.Foundation
