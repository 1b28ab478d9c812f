import CrossBreeder.Haveged.TupleCounts
import Mathlib.Data.List.GetD
import Mathlib.Tactic.IntervalCases

/-!
# Stretches of equal tuples

On a stretch of equal tuples the loop of `aisSeq` adds their number to one counter
(`seqLoop_block`), until that counter is full.
-/

namespace CrossBreeder.Haveged

open Foundation Function

namespace ProcB

/-! ### Equal tuples -/

section Block

variable {uln2 mask r : ℕ} {bit : ℕ → ℕ} {p : ProcB}

theorem seqLoop_window {i : ℕ} (hi : i + uln2 < r) (hbridge : p.bridge = 0)
    (hstate : p.testState = .input) :
    seqLoop uln2 mask bit r r i p = seqLoop uln2 mask bit r r (i + 2 ^ uln2)
      (window uln2 mask (fun j ↦ bit (i + j)) p) := by
  have hpos := Nat.two_pow_pos uln2
  have htuple := @seqTuple_of_lt (fun j ↦ bit (i + j)) (r - i) uln2 mask p hbridge (by omega)
  calc seqLoop uln2 mask bit r r i p = seqLoop uln2 mask bit r (r + 1) i p :=
    seqLoop_fuel _ _ _ _ (by omega) (by omega)
    _ = seqLoop uln2 mask bit r r (i + 2 ^ uln2) (window uln2 mask (fun j ↦ bit (i + j)) p) := by
      rw [seqLoop_succ (by omega) hstate (by rw [htuple]), htuple]

theorem window_congr {bit' : ℕ → ℕ} (hbit : ∀ j ≤ uln2, bit j = bit' j) :
    window uln2 mask bit p = window uln2 mask bit' p := by
  have hvalue : tupleValue uln2 bit = tupleValue uln2 bit' := by
    unfold tupleValue
    rw [tupleBits_mono le_rfl (fun j hj ↦ hbit j hj.le) uln2 0 0 (tupleBits_snd _ _ _ (by omega))]
  unfold window
  rw [hvalue, hbit uln2 le_rfl]

theorem seqLoop_skip {i : ℕ} {pattern : ℕ → ℕ} (hbits : ∀ j ≤ uln2, bit (i + j) = pattern j)
    (hi : i + uln2 < r) (hbridge : p.bridge = 0) (hstate : p.testState = .input)
    (hfull : p.full &&& 1 <<< tupleValue uln2 pattern ≠ 0) :
    seqLoop uln2 mask bit r r i p = seqLoop uln2 mask bit r r (i + 2 ^ uln2) p := by
  rw [seqLoop_window hi hbridge hstate, window_congr hbits, window, if_neg hfull]
  have hsame : ({ p with bridge := 0 } : ProcB) = p := by rw [← hbridge]
  rw [hsame]

/-- A number of tuples of one kind is added to its counter. -/
def tally (mask kind one m : ℕ) (p : ProcB) : ProcB :=
  { p with
    counter := update p.counter kind (p.counter kind + m)
    full := if p.counter kind + m = aisLength then p.full ||| 1 <<< kind else p.full
    testState := if p.counter kind + m = aisLength ∧ p.full ||| 1 <<< kind = mask then .eval
      else p.testState
    deadman := 0
    einsen := update p.einsen kind (p.einsen kind + m * one)
    bridge := 0 }

theorem countTuple_eq_tally (mask kind one : ℕ) (p : ProcB) :
    countTuple mask p kind one = tally mask kind one 1 p := by
  unfold countTuple tally
  dsimp only
  rw [update_self, Nat.one_mul]
  split_ifs with hfull hmask <;> simp_all

theorem tally_tally {kind one m : ℕ} (hlt : p.counter kind + 1 < aisLength) :
    tally mask kind one m (tally mask kind one 1 p) = tally mask kind one (m + 1) p := by
  have hcount : p.counter kind + 1 + m = p.counter kind + (m + 1) := by omega
  have hones : p.einsen kind + 1 * one + m * one = p.einsen kind + (m + 1) * one := by
    rw [Nat.add_assoc, ← Nat.add_mul, Nat.add_comm 1 m]
  unfold tally
  simp only [hlt.ne, false_and, if_false, update_self, update_idem, hcount, hones]

/-- A stretch of equal tuples that does not overfill their counter. -/
theorem seqLoop_block {pattern : ℕ → ℕ} (m : ℕ) : ∀ {i : ℕ} {p : ProcB},
    (∀ n ≤ m, ∀ j ≤ uln2, bit (i + n * 2 ^ uln2 + j) = pattern j) → i + m * 2 ^ uln2 + uln2 < r →
    p.bridge = 0 → p.testState = .input → p.full &&& 1 <<< tupleValue uln2 pattern = 0 →
    p.counter (tupleValue uln2 pattern) + (m + 1) ≤ aisLength →
    seqLoop uln2 mask bit r r i p = seqLoop uln2 mask bit r r (i + (m + 1) * 2 ^ uln2)
      (tally mask (tupleValue uln2 pattern) (pattern uln2) (m + 1) p) := by
  induction m with
  | zero =>
    intro i p hbits hi hbridge hstate hfull _
    rw [Nat.zero_mul, Nat.add_zero] at hi
    have hpattern : ∀ j ≤ uln2, bit (i + j) = pattern j := by simpa using hbits 0 le_rfl
    rw [seqLoop_window hi hbridge hstate, window_congr hpattern, window, if_pos hfull,
      countTuple_eq_tally, Nat.zero_add, Nat.one_mul]
  | succ m ih =>
    intro i p hbits hi hbridge hstate hfull hroom
    have hpattern : ∀ j ≤ uln2, bit (i + j) = pattern j := by simpa using hbits 0 (Nat.zero_le _)
    have hstep : i + (m + 1) * 2 ^ uln2 = i + 2 ^ uln2 + m * 2 ^ uln2 := by
      rw [Nat.succ_mul]
      omega
    have hlt : p.counter (tupleValue uln2 pattern) + 1 < aisLength := by omega
    rw [seqLoop_window
      (by omega) hbridge hstate, window_congr hpattern, window, if_pos hfull, countTuple_eq_tally,
      ih, tally_tally hlt]
    · congr 1
      rw [Nat.succ_mul (m + 1), Nat.add_assoc, Nat.add_comm (2 ^ uln2)]
    · intro n hn j hj
      rw [← hbits (n + 1) (by omega) j hj, Nat.succ_mul]
      congr 1
      omega
    · omega
    · rfl
    · unfold tally
      rw [if_neg fun h ↦ hlt.ne h.1]
      exact hstate
    · unfold tally
      rw [if_neg hlt.ne]
      exact hfull
    · unfold tally
      dsimp only
      rw [update_self]
      omega

/-- The counters of the first `k` kinds are full, and those of the others are at `start`. -/
structure Filled (mask k : ℕ) (start : ℕ → ℕ) (p : ProcB) : Prop where
  full : p.full = 2 ^ k - 1
  bridge : p.bridge = 0
  testState : p.testState = if 2 ^ k - 1 = mask then .eval else .input
  counter : ∀ j, k ≤ j → p.counter j = start j

/-- The next kind is filled by a stretch of its tuples. -/
theorem Filled.fill {k m i next : ℕ} {start pattern : ℕ → ℕ} (h : Filled mask k start p)
    (hk : k < 8) (hmask : 2 ^ k - 1 ≠ mask)
    (hbits : ∀ n ≤ m, ∀ j ≤ uln2, bit (i + n * 2 ^ uln2 + j) = pattern j)
    (hkind : tupleValue uln2 pattern = k) (hi : i + m * 2 ^ uln2 + uln2 < r)
    (hroom : start k + (m + 1) = aisLength) (hnext : i + (m + 1) * 2 ^ uln2 = next) :
    ∃ q, seqLoop uln2 mask bit r r i p = seqLoop uln2 mask bit r r next q ∧
      Filled mask (k + 1) start q ∧ q.results = p.results ∧
      q.einsen = update p.einsen k (p.einsen k + (m + 1) * pattern uln2) := by
  have hroom' : p.counter k + (m + 1) = aisLength := by rw [h.counter k le_rfl, hroom]
  have hstate : p.testState = .input := by rw [h.testState, if_neg hmask]
  have hbit : (2 ^ k - 1) &&& 1 <<< k = 0 ∧ (2 ^ k - 1) ||| 1 <<< k = 2 ^ (k + 1) - 1 := by
    interval_cases k <;> decide
  have hloop := @seqLoop_block uln2 mask r bit pattern m i p hbits hi h.bridge hstate
    (by rw [hkind, h.full, hbit.1]) (by rw [hkind, hroom'])
  rw [hnext] at hloop
  refine ⟨_, hloop, ?_, rfl, ?_⟩
  · rw [hkind]
    unfold tally
    refine ⟨?_, rfl, ?_, fun j hj ↦ ?_⟩
    · rw [if_pos hroom', h.full, hbit.2]
    · simp only [hroom', h.full, hbit.2, hstate, true_and]
    · dsimp only
      rw [update_of_ne (by omega), h.counter j (by omega)]
  · rw [hkind]
    rfl

theorem seqLoop_of_le {i : ℕ} (hle : r ≤ i) : seqLoop uln2 mask bit r r i p = (i, p) := by
  cases r with
  | zero => rfl
  | succ r => exact if_neg fun hgoes ↦ absurd hgoes.1 (not_lt.mpr hle)

theorem filled_begin {tid r : ℕ} (hinit : p.testState = .init) (hmask : (0 : ℕ) ≠ seqBitx tid) :
    Filled (seqBitx tid) 0 ((p.seqBegin tid).timed r).counter ((p.seqBegin tid).timed r) ∧
      (∀ k < 2 ^ tid, ((p.seqBegin tid).timed r).counter k = 0) ∧
      (∀ k < 2 ^ tid, ((p.seqBegin tid).timed r).einsen k = 0) ∧
      ((p.seqBegin tid).timed r).results = p.results := by
  unfold seqBegin timed
  rw [if_pos hinit]
  exact ⟨⟨rfl, rfl, (if_neg hmask).symm, fun _ _ ↦ rfl⟩, fun k hk ↦ if_pos hk,
    fun k hk ↦ if_pos hk, rfl⟩

end Block

end ProcB

/-! ### Words of equal digits -/

def digits (d : ℕ) : UInt32 := .ofNat (d * 0x11111111)

/-- The words of a buffer from `lo` to `hi` have the same digit. -/
def Stretch (noise : List UInt32) (lo hi d : ℕ) :
    Prop := ∀ n, lo ≤ n → n < hi → noise.getD n 0 = digits d

theorem testBit_digits {d : ℕ} (hd : d < 16) {n : ℕ} (hn : n < 32) :
    (digits d).toNat.testBit n = d.testBit (n % 4) := by
  interval_cases d <;> interval_cases n <;> decide

theorem Stretch.aisBitTest {noise : List UInt32} {lo hi d n : ℕ} (h : Stretch noise lo hi d)
    (hd : d < 16) (hlo : lo * 32 ≤ n) (hhi : n < hi * 32) : aisBitTest noise n =
      (d.testBit (n % 4)).toNat := by
  unfold Haveged.aisBitTest
  rw [h (n / 32) (by omega) (by omega), testBit_digits hd (Nat.mod_lt _ (by
    decide)), show n % 32 % 4 = n % 4 by omega]

theorem Stretch.tuples {noise : List UInt32} {lo hi d i m uln2 offs : ℕ} (h : Stretch noise lo hi d)
    (hd : d < 16) (huln2 : uln2 = 2 ∨ uln2 = 3) (halign : (i + offs) % 4 = 0)
    (hlo : lo * 32 ≤ i + offs) (hhi : i + m * 2 ^ uln2 + uln2 + offs < hi * 32) :
    ∀ n ≤ m, ∀ j ≤ uln2, Haveged.aisBitTest noise (i + n * 2 ^ uln2 + j + offs) =
      (d.testBit j).toNat := by
  intro n hn j hj
  rcases huln2 with rfl | rfl
  · rw [h.aisBitTest hd (by omega) (by omega), show (i + n * 2 ^ 2 + j + offs) % 4 = j by omega]
  · rw [h.aisBitTest hd (by omega) (by omega), show (i + n * 2 ^ 3 + j + offs) % 4 = j by omega]

def wordRuns (runs : List (ℕ × UInt32)) :
    List UInt32 := runs.flatMap fun run ↦ List.replicate run.1 run.2

theorem length_wordRuns (runs : List (ℕ × UInt32)) :
    (wordRuns runs).length = (runs.map (·.1)).sum := by
  unfold wordRuns
  rw [List.length_flatMap]
  simp only [List.length_replicate]

theorem getD_wordRuns (before : List (ℕ × UInt32)) (count : ℕ) (word : UInt32)
    (behind : List (ℕ × UInt32)) {n : ℕ} (hle : (before.map (·.1)).sum ≤ n)
    (hlt : n < (before.map (·.1)).sum + count) :
    (wordRuns (before ++ (count, word) :: behind)).getD n 0 = word := by
  have hsplit : wordRuns (before ++ (count, word) :: behind) =
      wordRuns before ++ (List.replicate count word ++ wordRuns behind) := by
    unfold wordRuns
    rw [List.flatMap_append, List.flatMap_cons]
  rw [hsplit, List.getD_append_right _ _ _ _ (by rw [length_wordRuns]; exact hle), length_wordRuns,
    List.getD_append _ _ _ _
      (by rw [List.length_replicate]; omega), List.getD_replicate _ (by omega)]

theorem stretch_wordRuns (before : List (ℕ × UInt32)) (count d : ℕ) (behind : List (ℕ × UInt32)) :
    Stretch (wordRuns (before ++ (count, digits d) :: behind)) (before.map (·.1)).sum
      ((before.map (·.1)).sum + count) d :=
  fun _ hle hlt ↦ getD_wordRuns before count (digits d) behind hle hlt

theorem Stretch.append_left {first second : List UInt32} {lo hi d : ℕ} (h : Stretch first lo hi d)
    (hhi : hi ≤ first.length) : Stretch (first ++ second) lo hi d := by
  intro n hlo hlt
  rw [List.getD_append _ _ _ _ (by omega)]
  exact h n hlo hlt

theorem Stretch.append_right {first second : List UInt32} {lo hi d : ℕ}
    (h : Stretch second lo hi d) :
    Stretch (first ++ second) (first.length + lo) (first.length + hi) d := by
  intro n hlo hlt
  rw [List.getD_append_right _ _ _ _ (by omega)]
  exact h _ (by omega) (by omega)

namespace ProcB

variable {p : ProcB} {noise : List UInt32}

/-- The next kind is filled by words of equal digits, with zeros behind the tuples. -/
theorem Filled.stretch {mask k lo hi d uln2 : ℕ} {start : ℕ → ℕ} (h : Filled mask k start p)
    (hstretch : Stretch noise lo hi d) (offs r i m next : ℕ) (hroom : start k + (m + 1) = aisLength)
    (hnext : i + (m + 1) * 2 ^ uln2 = next) (huln2 : uln2 = 2 ∨ uln2 = 3) (hd : d < 2 ^ uln2)
    (hkind : tupleValue uln2 (fun j ↦ (d.testBit j).toNat) = k) (hk : k < 8)
    (hmask : 2 ^ k - 1 ≠ mask) (halign : (i + offs) % 4 = 0) (hlo : lo * 32 ≤ i + offs)
    (hhi : i + m * 2 ^ uln2 + uln2 + offs < hi * 32) (hr : i + m * 2 ^ uln2 + uln2 < r) :
    ∃ q, seqLoop uln2 mask (fun n ↦ aisBitTest noise (n + offs)) r r i p =
        seqLoop uln2 mask (fun n ↦ aisBitTest noise (n + offs)) r r next q ∧
      Filled mask (k + 1) start q ∧ q.results = p.results ∧ q.einsen = p.einsen := by
  have hsmall : d < 16 := by
    rcases huln2 with rfl | rfl <;> omega
  obtain ⟨q, hloop, hfilled, hresults, heinsen⟩ :=
    @Filled.fill uln2 mask r (fun n ↦ aisBitTest noise (n + offs)) p k m i next start _
    h hk hmask (hstretch.tuples hsmall huln2 halign hlo hhi) hkind hr hroom hnext
  refine ⟨q, hloop, hfilled, hresults, ?_⟩
  rw [heinsen, Nat.testBit_lt_two_pow hd, Bool.toNat_false, Nat.mul_zero, Nat.add_zero,
    update_eq_self]

end ProcB

end CrossBreeder.Haveged
