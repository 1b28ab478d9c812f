import CrossBreeder.Haveged.ProcedureB

/-!
# The tuples that `aisSeq` counts

The loop of `aisSeq` reads tuples at every `2 ^ uln2` bits. A tuple that lies inside the buffer is
counted by `window` (`seqTuple_of_lt`). A loop that has filled all counters does the same on a
longer buffer (`seqLoop_of_eval`), and one that needs more input and has read whole tuples goes on
where it was (`seqLoop_append`).
-/

namespace CrossBreeder.Haveged

open Foundation Function

namespace ProcB

/-! ### Contexts that differ in the accounts only -/

def forget (p : ProcB) : ProcB := { p with bitsUsed := 0, deadman := 0 }

/-- The same context, with a timer that is at most `k` ahead. -/
structure Alike (k : ℕ) (p q : ProcB) : Prop where
  forget : p.forget = q.forget
  deadman : q.deadman ≤ p.deadman + k

theorem Alike.refl (p : ProcB) : Alike 0 p p := ⟨rfl, le_rfl⟩

theorem Alike.trans {p q s : ProcB} (h : Alike 0 p q) (h' : Alike 0 q s) : Alike 0 p s :=
  ⟨h.forget.trans h'.forget, h'.deadman.trans h.deadman⟩

section Alike

variable {k : ℕ} {p q : ProcB}

theorem Alike.apply {α : Type} (h : Alike k p q) (f : ProcB → α)
    (hf : ∀ s : ProcB, f s.forget = f s) : f p = f q := by
  rw [← hf p, h.forget, hf]

theorem Alike.exists_eq (h : Alike k p q) :
    ∃ used deadman, deadman ≤ p.deadman + k ∧
      q = { p with bitsUsed := used, deadman := deadman } := by
  refine ⟨q.bitsUsed, q.deadman, h.deadman, ?_⟩
  have heq := h.forget
  unfold ProcB.forget at heq
  cases p
  cases q
  simp only [mk.injEq] at heq ⊢
  grind

theorem Alike.testState (h : Alike k p q) : p.testState = q.testState :=
  h.apply (·.testState) fun _ ↦ rfl

theorem Alike.procState (h : Alike k p q) : p.procState = q.procState :=
  h.apply (·.procState) fun _ ↦ rfl

theorem Alike.testId (h : Alike k p q) : p.testId = q.testId := h.apply (·.testId) fun _ ↦ rfl

theorem Alike.bridge (h : Alike k p q) : p.bridge = q.bridge := h.apply (·.bridge) fun _ ↦ rfl

theorem Alike.einsen (h : Alike k p q) : p.einsen = q.einsen := h.apply (·.einsen) fun _ ↦ rfl

end Alike

/-! ### One tuple -/

section Tuple

variable {bit bit' : ℕ → ℕ} {limit limit' : ℕ}

theorem tupleBits_snd_le (fuel : ℕ) : ∀ hilf j, (tupleBits bit limit fuel hilf j).2 ≤ j + fuel := by
  induction fuel with
  | zero => exact fun _ _ ↦ le_rfl
  | succ fuel ih =>
    intro hilf j
    rw [tupleBits]
    split_ifs
    · exact (ih _ _).trans (by omega)
    · exact Nat.le_add_right _ _

theorem tupleBits_snd_ge (fuel : ℕ) : ∀ hilf j, j ≤ (tupleBits bit limit fuel hilf j).2 := by
  induction fuel with
  | zero => exact fun _ _ ↦ le_rfl
  | succ fuel ih =>
    intro hilf j
    rw [tupleBits]
    split_ifs
    · exact (Nat.le_succ j).trans (ih _ _)
    · exact le_rfl

theorem tupleBits_mono (hlimit : limit ≤ limit') (hbit : ∀ j < limit, bit' j = bit j) (fuel : ℕ) :
    ∀ hilf j, (tupleBits bit limit fuel hilf j).2 = j + fuel →
      tupleBits bit' limit' fuel hilf j = tupleBits bit limit fuel hilf j := by
  induction fuel with
  | zero => exact fun _ _ _ ↦ rfl
  | succ fuel ih =>
    intro hilf j hall
    rw [tupleBits] at hall
    rw [tupleBits, tupleBits]
    split_ifs at hall with hj
    · rw [if_pos hj, if_pos (hj.trans_le hlimit), hbit j hj]
      exact ih _ _ (by omega)
    · exact absurd hall (by simp)

theorem tupleBits_snd (fuel : ℕ) : ∀ hilf j, j + fuel ≤ limit →
    (tupleBits bit limit fuel hilf j).2 = j + fuel := by
  induction fuel with
  | zero => exact fun _ _ _ ↦ rfl
  | succ fuel ih =>
    intro hilf j hle
    rw [tupleBits, if_pos (by omega), ih _ _ (by omega)]
    omega

def tupleValue (uln2 : ℕ) (bit : ℕ → ℕ) : ℕ := (tupleBits bit uln2 uln2 0 0).1

theorem tupleBits_eq {uln2 : ℕ} (hle : uln2 ≤ limit) : tupleBits bit limit uln2 0 0 =
    (tupleValue uln2 bit, uln2) := by
  have hsnd : (tupleBits bit uln2 uln2 0 0).2 = uln2 := by
    simpa using tupleBits_snd uln2 0 0 (by omega)
  rw [tupleBits_mono hle (fun _ _ ↦ rfl) uln2 0 0 (by omega)]
  exact Prod.ext rfl hsnd

def window (uln2 mask : ℕ) (bit : ℕ → ℕ) (p : ProcB) : ProcB :=
  if p.full &&& 1 <<< tupleValue uln2 bit = 0 then
    countTuple mask p (tupleValue uln2 bit) (bit uln2)
  else { p with bridge := 0 }

theorem window_bridge (uln2 mask : ℕ) (bit : ℕ → ℕ) (p : ProcB) :
    (window uln2 mask bit p).bridge = 0 := by
  unfold window
  split_ifs <;> rfl

theorem seqTuple_of_lt {uln2 mask : ℕ} {p : ProcB} (hbridge : p.bridge = 0) (hlt : uln2 < limit) :
    seqTuple uln2 mask bit limit p = (window uln2 mask bit p, false) := by
  unfold seqTuple window
  rw [hbridge, Nat.zero_shiftRight, Nat.zero_and, Nat.sub_zero, tupleBits_eq hlt.le]
  simp only [lt_irrefl, if_false, if_neg (not_le.mpr hlt)]
  split_ifs <;> rfl

theorem seqTuple_mono {uln2 mask : ℕ} {p : ProcB} (hlimit : limit ≤ limit')
    (hbit : ∀ j < limit, bit' j = bit j) (hgoes : (seqTuple uln2 mask bit limit p).2 = false) :
    seqTuple uln2 mask bit' limit' p = seqTuple uln2 mask bit limit p := by
  have hle := @tupleBits_snd_le bit limit (uln2 - p.bridge >>> 4) (p.bridge &&& 15) (p.bridge >>> 4)
  have hge := @tupleBits_snd_ge bit limit (uln2 - p.bridge >>> 4) (p.bridge &&& 15) (p.bridge >>> 4)
  have hmono := @tupleBits_mono bit bit' limit limit' hlimit hbit (uln2 - p.bridge >>> 4)
    (p.bridge &&& 15) (p.bridge >>> 4)
  unfold seqTuple at hgoes ⊢
  generalize tupleBits bit limit (uln2 - p.bridge >>> 4) (p.bridge &&& 15) (p.bridge >>> 4) =
    tuple at *
  by_cases hshort : tuple.2 < uln2
  · rw [if_pos hshort] at hgoes
    exact absurd hgoes (by simp)
  rw [hmono (by omega)]
  simp only [if_neg hshort] at hgoes ⊢
  by_cases hfull : p.full &&& 1 <<< tuple.1 = 0
  · simp only [if_pos hfull] at hgoes ⊢
    by_cases hout : limit ≤ tuple.2
    · rw [if_pos hout] at hgoes
      exact absurd hgoes (by simp)
    · rw [if_neg hout, if_neg (by omega), hbit _ (by omega)]
  · rw [if_neg hfull, if_neg hfull]

theorem countTuple_testState (mask : ℕ) (p : ProcB) (hilf one : ℕ) :
    (countTuple mask p hilf one).testState = .eval ∨
      (countTuple mask p hilf one).testState = p.testState :=
  ite_eq_or_eq _ _ _

/-- A round does not change the state of the test unless it counts the last tuple. It counts a tuple
only if the bit behind it is in the buffer. -/
theorem seqTuple_cases (uln2 mask : ℕ) (bit : ℕ → ℕ) (limit : ℕ) (p : ProcB) :
    (seqTuple uln2 mask bit limit p).1.testState = p.testState ∨
      (seqTuple uln2 mask bit limit p).1.testState = .eval ∧
      (seqTuple uln2 mask bit limit p).2 = false ∧
        (seqTuple uln2 mask bit limit p).1.deadman = 0 ∧ uln2 < limit := by
  unfold seqTuple
  dsimp only
  split_ifs with hshort hfull hout
  · exact .inl rfl
  · exact .inl rfl
  · obtain heval | hsame := countTuple_testState mask p _ _
    · exact .inr ⟨heval, rfl, rfl, by omega⟩
    · exact .inl hsame
  · exact .inl rfl

theorem deadman_seqTuple_le (uln2 mask : ℕ) (bit : ℕ → ℕ) (limit : ℕ) (p : ProcB) :
    (seqTuple uln2 mask bit limit p).1.deadman ≤ p.deadman := by
  unfold seqTuple
  dsimp only
  split_ifs
  · exact le_rfl
  · exact le_rfl
  · exact Nat.zero_le _
  · exact le_rfl

theorem seqTuple_alike {uln2 mask k : ℕ} {p q : ProcB} (h : Alike k p q) :
    (seqTuple uln2 mask bit limit p).2 = (seqTuple uln2 mask bit limit q).2 ∧
      Alike k (seqTuple uln2 mask bit limit p).1 (seqTuple uln2 mask bit limit q).1 := by
  obtain ⟨used, deadman, hle, rfl⟩ := h.exists_eq
  unfold seqTuple
  dsimp only
  split_ifs
  · exact ⟨rfl, rfl, hle⟩
  · exact ⟨rfl, rfl, hle⟩
  · exact ⟨rfl, rfl, Nat.zero_le _⟩
  · exact ⟨rfl, rfl, hle⟩

end Tuple

/-! ### The loop -/

section Loop

variable {uln2 mask r : ℕ} {bit bit' : ℕ → ℕ}

theorem seqLoop_of_ne {p : ProcB} (hstate : p.testState ≠ .input) (fuel i : ℕ) :
    seqLoop uln2 mask bit r fuel i p = (i, p) := by
  cases fuel with
  | zero => rfl
  | succ fuel => exact if_neg fun hgoes ↦ hstate hgoes.2

theorem seqLoop_succ {p : ProcB} {fuel i : ℕ} (hi : i < r) (hstate : p.testState = .input)
    (hgoes : (seqTuple uln2 mask (fun j ↦ bit (i + j)) (r - i) p).2 = false) :
    seqLoop uln2 mask bit r (fuel + 1) i p =
      seqLoop uln2 mask bit r fuel (i + 2 ^ uln2)
      (seqTuple uln2 mask (fun j ↦ bit (i + j)) (r - i) p).1 := by
  rw [seqLoop, if_pos ⟨hi, hstate⟩]
  simp only [hgoes, Bool.false_eq_true, if_false]

theorem seqLoop_invariant {P : ProcB → Prop}
    (hround : ∀ i p, i < r → p.testState = .input → P p →
      P (seqTuple uln2 mask (fun j ↦ bit (i + j)) (r - i) p).1)
    (fuel : ℕ) : ∀ i p, P p → P (seqLoop uln2 mask bit r fuel i p).2 := by
  induction fuel with
  | zero => exact fun _ _ hP ↦ hP
  | succ fuel ih =>
    intro i p hP
    rw [seqLoop]
    dsimp only
    split_ifs with hgoes hstop
    · exact hround i p hgoes.1 hgoes.2 hP
    · exact ih _ _ (hround i p hgoes.1 hgoes.2 hP)
    · exact hP

theorem deadman_seqLoop_le (fuel i : ℕ) (p : ProcB) :
    (seqLoop uln2 mask bit r fuel i p).2.deadman ≤ p.deadman :=
  seqLoop_invariant (P := fun s ↦ s.deadman ≤ p.deadman)
    (fun _ _ _ _ hle ↦ (deadman_seqTuple_le _ _ _ _ _).trans hle) fuel i p le_rfl

theorem testState_seqLoop (fuel i : ℕ) {p : ProcB} (hstate : p.testState = .input) :
    (seqLoop uln2 mask bit r fuel i p).2.testState = .input ∨
      (seqLoop uln2 mask bit r fuel i p).2.testState = .eval ∧
      (seqLoop uln2 mask bit r fuel i p).2.deadman = 0 := by
  refine seqLoop_invariant (P := fun s ↦ s.testState = .input ∨ s.testState = .eval ∧
    s.deadman = 0) ?_ fuel i p (.inl hstate)
  intro i s _ hinput _
  obtain hsame | ⟨heval, -, hzero, -⟩ := seqTuple_cases uln2 mask (fun j ↦ bit (i + j)) (r - i) s
  · exact .inl (hsame.trans hinput)
  · exact .inr ⟨heval, hzero⟩

theorem seqLoop_fst (fuel : ℕ) : ∀ i p, p.testState = .input →
    2 ^ uln2 ∣ (seqLoop uln2 mask bit r fuel i p).1 - i ∧ i ≤ (seqLoop uln2 mask bit r fuel i p).1 ∧
      ((seqLoop uln2 mask bit r fuel i p).2.testState = .eval →
        (seqLoop uln2 mask bit r fuel i p).1 + uln2 + 1 ≤ r + 2 ^ uln2) := by
  induction fuel with
  | zero =>
    intro i p hstate
    refine ⟨by simp [seqLoop], le_rfl, fun heval ↦ ?_⟩
    rw [seqLoop, hstate] at heval
    exact absurd heval (by simp)
  | succ fuel ih =>
    intro i p hstate
    have hpos := Nat.two_pow_pos uln2
    have hcases := seqTuple_cases uln2 mask (fun j ↦ bit (i + j)) (r - i) p
    rw [seqLoop]
    dsimp only
    split_ifs with hgoes hstop
    · refine ⟨by simp, le_rfl, fun heval ↦ ?_⟩
      obtain hsame | ⟨-, hfalse, -⟩ := hcases
      · dsimp only at heval
        rw [hsame, hstate] at heval
        exact absurd heval (by simp)
      · rw [hfalse] at hstop
        exact absurd hstop (by simp)
    · obtain hsame | ⟨heval, -, -, hlimit⟩ := hcases
      · obtain ⟨⟨k, hk⟩, hle, hend⟩ := ih (i + 2 ^ uln2) _ (hsame.trans hstate)
        refine ⟨⟨k + 1, ?_⟩, by omega, hend⟩
        rw [Nat.mul_succ, ← hk]
        omega
      · rw [seqLoop_of_ne (by simp [heval])]
        refine ⟨by simp, by omega, fun _ ↦ ?_⟩
        omega
    · refine ⟨by simp, le_rfl, fun heval ↦ ?_⟩
      rw [hstate] at heval
      exact absurd heval (by simp)

theorem seqLoop_fuel (fuel : ℕ) : ∀ fuel' i p, r ≤ i + fuel → r ≤ i + fuel' →
    seqLoop uln2 mask bit r fuel i p = seqLoop uln2 mask bit r fuel' i p := by
  have hend : ∀ fuel i p, r ≤ i → seqLoop uln2 mask bit r fuel i p = (i, p) := by
    intro fuel i p hle
    cases fuel with
    | zero => rfl
    | succ fuel => exact if_neg fun hgoes ↦ absurd hgoes.1 (not_lt.mpr hle)
  have hpos : 0 < 2 ^ uln2 := Nat.two_pow_pos uln2
  induction fuel with
  | zero =>
    intro fuel' i p hle _
    rw [hend fuel' i p hle, hend 0 i p hle]
  | succ fuel ih =>
    intro fuel' i p hle hle'
    cases fuel' with
    | zero => rw [hend _ i p hle', hend _ i p hle']
    | succ fuel' =>
      rw [seqLoop, seqLoop]
      dsimp only
      split_ifs
      · rfl
      · exact ih _ _ _ (by omega) (by omega)
      · rfl

theorem seqLoop_of_eval {r' : ℕ} (hr : r ≤ r') (hbit : ∀ n < r, bit' n = bit n) (fuel : ℕ) :
    ∀ fuel' i p, fuel ≤ fuel' → p.testState = .input →
      (seqLoop uln2 mask bit r fuel i p).2.testState = .eval →
      seqLoop uln2 mask bit' r' fuel' i p = seqLoop uln2 mask bit r fuel i p := by
  induction fuel with
  | zero =>
    intro fuel' i p _ hstate heval
    rw [seqLoop, hstate] at heval
    exact absurd heval (by simp)
  | succ fuel ih =>
    intro fuel' i p hfuel hstate heval
    obtain ⟨fuel', rfl⟩ : ∃ k, fuel' = k + 1 := ⟨fuel' - 1, by omega⟩
    have hcases := seqTuple_cases uln2 mask (fun j ↦ bit (i + j)) (r - i) p
    by_cases hi : i < r
    · cases hgoes : (seqTuple uln2 mask (fun j ↦ bit (i + j)) (r - i) p).2 with
      | true =>
        rw [seqLoop, if_pos ⟨hi, hstate⟩] at heval
        simp only [hgoes, if_true] at heval
        obtain hsame | ⟨-, hfalse, -⟩ := hcases
        · rw [hsame, hstate] at heval
          exact absurd heval (by simp)
        · rw [hgoes] at hfalse
          exact absurd hfalse (by simp)
      | false =>
        have hsame := @seqTuple_mono (fun j ↦ bit (i + j)) (fun j ↦ bit' (i + j)) (r - i) (r' - i)
          uln2 mask p (by omega) (fun j hj ↦ hbit _ (by omega)) hgoes
        rw [seqLoop_succ hi hstate hgoes] at heval ⊢
        rw [seqLoop_succ (by omega) hstate (by rw [hsame]; exact hgoes), hsame]
        obtain hinput | ⟨hended, -⟩ := hcases
        · exact ih fuel' _ _ (by omega) (hinput.trans hstate) heval
        · rw [seqLoop_of_ne (by simp [hended]), seqLoop_of_ne (by simp [hended])]
    · rw [seqLoop, if_neg fun h ↦ hi h.1, hstate] at heval
      exact absurd heval (by simp)

theorem seqLoop_shift (a r fuel : ℕ) : ∀ i p, seqLoop uln2 mask bit (a + r) fuel (a + i) p =
    (a + (seqLoop uln2 mask (fun n ↦ bit (a + n)) r fuel i p).1,
      (seqLoop uln2 mask (fun n ↦ bit (a + n)) r fuel i p).2) := by
  induction fuel with
  | zero => exact fun _ _ ↦ rfl
  | succ fuel ih =>
    intro i p
    rw [seqLoop, seqLoop]
    simp only [Nat.add_assoc, Nat.add_sub_add_left, Nat.add_lt_add_iff_left]
    split_ifs
    · rfl
    · exact ih _ _
    · rfl

/-- A loop that needs more input and has read whole tuples goes on in a longer buffer where it was.
-/
theorem seqLoop_append {more : ℕ} (hbit : ∀ n < r, bit' n = bit n) (hr : 2 ^ uln2 ∣ r) (fuel : ℕ) :
    ∀ i p, 2 ^ uln2 ∣ i → i ≤ r → r ≤ i + fuel → p.bridge = 0 → p.testState = .input →
      (seqLoop uln2 mask bit r fuel i p).2.testState = .input →
      (seqLoop uln2 mask bit r fuel i p).1 = r ∧ (seqLoop uln2 mask bit r fuel i p).2.bridge = 0 ∧
        seqLoop uln2 mask bit' (r + more) (fuel + more) i p =
          seqLoop uln2 mask bit' (r + more) (r + more) r (seqLoop uln2 mask bit r fuel i p).2 := by
  induction fuel with
  | zero =>
    intro i p _ hle hfuel hbridge _ _
    obtain rfl : i = r := by omega
    refine ⟨rfl, hbridge, ?_⟩
    rw [seqLoop]
    exact seqLoop_fuel _ _ _ _ (by omega) (by omega)
  | succ fuel ih =>
    intro i p hi hle hfuel hbridge hstate hopen
    obtain rfl | hlt := hle.eq_or_lt
    · rw [seqLoop, if_neg fun h ↦ lt_irrefl _ h.1] at hopen ⊢
      exact ⟨rfl, hbridge, seqLoop_fuel _ _ _ _ (by omega) (by omega)⟩
    · -- the tuple is in the buffer
      have hwhole : i + 2 ^ uln2 ≤ r := by
        obtain ⟨a, rfl⟩ := hi
        obtain ⟨b, rfl⟩ := hr
        have hab : a + 1 ≤ b := Nat.lt_of_mul_lt_mul_left hlt
        calc 2 ^ uln2 * a + 2 ^ uln2 = 2 ^ uln2 * (a + 1) := (Nat.mul_succ _ _).symm
          _ ≤ 2 ^ uln2 * b := Nat.mul_le_mul_left _ hab
      have hlog : uln2 < 2 ^ uln2 := Nat.lt_two_pow_self
      have htuple := @seqTuple_of_lt (fun j ↦ bit (i + j)) (r - i) uln2 mask p hbridge (by omega)
      have hgoes : (seqTuple uln2 mask (fun j ↦ bit (i + j)) (r - i) p).2 = false := by rw [htuple]
      have hsame := @seqTuple_mono (fun j ↦ bit (i + j)) (fun j ↦ bit' (i + j)) (r - i)
        (r + more - i) uln2 mask p (by omega) (fun j hj ↦ hbit _ (by omega)) hgoes
      rw [seqLoop_succ hlt hstate hgoes, htuple] at hopen ⊢
      rw [Nat.add_right_comm fuel 1 more,
        seqLoop_succ (by omega) hstate (by rw [hsame]; exact hgoes), hsame, htuple]
      have hinput : (window uln2 mask (fun j ↦ bit (i + j)) p).testState = .input := by
        by_contra hended
        rw [seqLoop_of_ne hended] at hopen
        exact hended hopen
      exact ih _ _ (Nat.dvd_add hi dvd_rfl) hwhole (by omega) (window_bridge _ _ _ _) hinput hopen

theorem seqLoop_alike {k : ℕ} (fuel : ℕ) : ∀ i p q, Alike k p q →
    (seqLoop uln2 mask bit r fuel i p).1 = (seqLoop uln2 mask bit r fuel i q).1 ∧
      Alike k (seqLoop uln2 mask bit r fuel i p).2 (seqLoop uln2 mask bit r fuel i q).2 := by
  induction fuel with
  | zero => exact fun _ _ _ h ↦ ⟨rfl, h⟩
  | succ fuel ih =>
    intro i p q h
    obtain ⟨hstop, halike⟩ := @seqTuple_alike (fun j ↦ bit (i + j)) (r - i) uln2 mask k p q h
    rw [seqLoop, seqLoop, h.testState]
    dsimp only
    rw [hstop]
    split_ifs
    · exact ⟨rfl, halike⟩
    · exact ih _ _ _ halike
    · exact ⟨rfl, h⟩

theorem deadman_lt_of_begin (fuel : ℕ) {p : ProcB} (hfuel : r ≤ fuel) (hbridge : p.bridge = 0)
    (hfull : p.full = 0) (hstate : p.testState = .input) (hdeadman : p.deadman = r)
    (huln2 : uln2 < 4) : (seqLoop uln2 mask bit r fuel 0 p).2.deadman < aisLength := by
  by_cases hshort : r ≤ uln2
  · refine (deadman_seqLoop_le fuel 0 p).trans_lt ?_
    rw [hdeadman]
    unfold aisLength
    omega
  · obtain ⟨fuel, rfl⟩ : ∃ k, fuel = k + 1 := ⟨fuel - 1, by omega⟩
    have htuple := @seqTuple_of_lt (fun j ↦ bit (0 + j)) (r - 0) uln2 mask p hbridge (by omega)
    rw [seqLoop_succ (by omega) hstate (by rw [htuple]), htuple]
    refine (deadman_seqLoop_le _ _ _).trans_lt ?_
    unfold window
    rw [hfull, Nat.zero_and, if_pos rfl]
    exact Nat.succ_pos _

end Loop

end ProcB

end CrossBreeder.Haveged
