import CrossBreeder.Haveged.ProcedureB
import Mathlib.Data.List.Lex

/-!
# Test procedure A

The online tests 0 to 5 of `havegetest.c`. Test 0 collects its sample over as many buffers as it
takes, the tests 1 to 4 work on 2500 bytes that are put together in `aux` when a buffer ends inside
of them, and test 5 takes the bytes of the tests before it. A test that needs more input than a
buffer has leaves the context in which it goes on (`testA_append_of_open`), so that a call on a
joined buffer is the call on the first one followed by the call on the second one, as long as the
procedure is not over (`testsA_append`).
-/

namespace CrossBreeder.Haveged

open Function

/-! ### The context -/

/-- The counters of `fips140`, which are local in the source. -/
structure FipsCounts where
  ones : ℕ
  poker : ℕ → ℕ
  runs : ℕ → ℕ
  runLength : ℕ
  maxRun : ℕ
  current : ℕ
  last : ℕ

/-- `procA`. The bytes that are collected for a test are `aux`, as many as `bridge`, and the number
of results is `testRun`. A result has no final value where the source leaves the old one. The sample
of test 0 and the counts of `fips140` are kept when the source is done with them. -/
structure ProcA where
  procState : TestState
  procRetry : ℕ
  testState : TestState
  bytesUsed : ℕ
  chain5 : List ℕ
  options : ℕ
  aux : List ℕ
  sample : List (List ℕ)
  counts : List FipsCounts
  results : List (ℕ × Option ℕ)

/-- `procReps`: test 0 once, the others `AIS_A_REPS` times. -/
def procReps : ℕ := 1 + 5 * 257

def fipsLength : ℕ := 20000 >>> 3

def test0Length : ℕ := 65536

def test0Used : ℕ := test0Length * 6

def test5Length : ℕ := 5000

def noiseBytes (noise : List UInt32) : List ℕ :=
  noise.flatMap fun word ↦ (List.range 4).map fun k ↦ word.toNat / 256 ^ k % 256

/-! ### What the tests count -/

namespace FipsCounts

def fipsAdd (s : FipsCounts) : FipsCounts :=
  let index := (if s.runLength < 5 then s.runLength else 5) + 6 * s.current
  { s with runs := update s.runs index (s.runs index + 1) }

def fipsBit (s : FipsCounts) (bit : ℕ) : FipsCounts :=
  let s := { s with current := bit, ones := s.ones + bit }
  if s.current ≠ s.last then { s.fipsAdd with runLength := 0, last := s.current }
  else { s with runLength := s.runLength + 1 }

def fipsByte (s : FipsCounts) (c : ℕ) : FipsCounts :=
  let high := update s.poker (c >>> 4) (s.poker (c >>> 4) + 1)
  let low := update high (c &&& 15) (high (c &&& 15) + 1)
  (List.range 8).foldl (fun s k ↦ s.fipsBit (c >>> (7 - k) &&& 1)) { s with poker := low }

end FipsCounts

/-- The counters at the end of the loop of `fips140`. -/
def fipsCounts (block : List ℕ) : FipsCounts :=
  (block.foldl FipsCounts.fipsByte
    { ones := 0, poker := fun _ ↦ 0, runs := fun _ ↦ 0, runLength := 0, maxRun := 0, current := 0,
      last := 256 }).fipsAdd

/-- `FIPS_RUNS_LOW` and `FIPS_RUNS_HIGH`. -/
def fipsLow : List ℕ := [2267, 1079, 502, 223, 90, 90]

def fipsHigh : List ℕ := [2733, 1421, 748, 402, 223, 223]

def fipsResults (s : FipsCounts) : List (ℕ × Option ℕ) :=
  let poker := ((List.range 16).map fun j ↦ s.poker j * s.poker j).sum
  let runs := (List.range 12).any fun j ↦ s.runs j < fipsLow.getD (j % 6) 0 ||
    fipsHigh.getD (j % 6) 0 < s.runs j
  [((decide (10346 ≤ s.ones ∨ s.ones ≤ 9654)).toNat ||| 1 <<< 8, some s.ones),
    ((decide (poker ≤ 1562822 ∨ 1580438 ≤ poker)).toNat ||| 2 <<< 8, some poker),
    (3 <<< 8 ||| runs.toNat, some 0),
    ((decide (34 ≤ s.maxRun)).toNat ||| 4 <<< 8, some s.maxRun)]

def sortedSample (aux : List ℕ) : List (List ℕ) :=
  ((List.range test0Length).map fun i ↦ (aux.drop (6 * i)).take 6).mergeSort fun a b ↦
    decide (a ≤ b)

/-- The number of strings of a sample that are equal to the one before. -/
def equalNeighbours (sample : List (List ℕ)) : ℕ :=
  ((sample.zip sample.tail).filter fun pair ↦ pair.1 = pair.2).length

/-- `PIPELINE5`: four bytes. -/
def pipeline5 (src : List ℕ) (n : ℕ) : ℕ :=
  ((List.range 4).map fun k ↦ src.getD (n + k) 0 * 256 ^ k).sum

def xor5 (src : List ℕ) (src1 src2 shift a : ℕ) :
    ℕ := 1 &&& (pipeline5 src src1 >>> a ^^^ pipeline5 src src2 >>> (shift + a))

def test5XOR (src : List ℕ) (shift : ℕ) : ℕ :=
  let src2 := shift >>> 3
  let first := ((List.range 8).map (xor5 src 0 src2 (shift &&& 7))).sum
  (List.range ((test5Length - 8) / 24)).foldl
    (fun rv m ↦
      rv + ((List.range 24).map (xor5 src (3 + 3 * m) (src2 + 3 + 3 * m) (shift &&& 7))).sum) first

/-- The shift at which the first half is farthest from what is expected. -/
def test5Shift (src : List ℕ) : ℕ :=
  ((List.range test5Length).foldl
    (fun best i ↦
      let z := (test5XOR src (i + 1) - 2500) + (2500 - test5XOR src (i + 1))
      if best.1 < z then (z, i) else best) ((0, 0) : ℕ × ℕ)).2

namespace ProcA

/-! ### The tests -/

/-- `TEST_INIT` of a test. -/
def begun (p : ProcA) : ProcA := if p.testState = .init then
    { p with testState := .input, aux := [] } else p

/-- `TEST_EVAL` of `test0`. -/
def evaluate0 (p : ProcA) : ProcA :=
  let sample := sortedSample p.aux
  { p with
    bytesUsed := p.bytesUsed + test0Used
    aux := []
    sample := sample
    results := p.results ++ [(equalNeighbours sample, some test0Length)]
    testState := .done }

/-- `test0`: the context, and the bytes that are left. -/
def test0 (p : ProcA) (data : List ℕ) : ProcA × List ℕ :=
  let needed := test0Used - p.begun.aux.length
  let p := { p.begun with aux := p.begun.aux ++ data.take needed }
  (if p.aux.length < test0Used then p else p.evaluate0, data.drop needed)

/-- `TEST_EVAL` of `fips140`. -/
def evaluateFips (p : ProcA) (block : List ℕ) : ProcA :=
  { p with
    bytesUsed := p.bytesUsed + fipsLength
    aux := []
    chain5 := block
    counts := p.counts ++ [fipsCounts block]
    results := p.results ++ fipsResults (fipsCounts block)
    testState := .done }

/-- `fips140`. Bytes in `aux` are completed, else the data is used in place. -/
def fips140 (p : ProcA) (data : List ℕ) : ProcA × List ℕ :=
  let needed := fipsLength - p.begun.aux.length
  if data.length + p.begun.aux.length < fipsLength then
    ({ p.begun with aux := p.begun.aux ++ data }, [])
  else (p.begun.evaluateFips (p.begun.aux ++ data.take needed), data.drop needed)

/-- `test5`, which is skipped in some of the repetitions. -/
def test5 (p : ProcA) : ProcA :=
  let cycle := p.options &&& 0x01ff
  if cycle ≠ 0 ∧ (p.results.length - 1) / 5 % cycle ≠ 0 then
    { p with results := p.results ++ [(0xff00, none)], testState := .done }
  else
    let z := test5XOR (p.chain5.drop (test5Length / 8)) (test5Shift p.chain5 + 1)
    { p with
      results := p.results ++ [(5 <<< 8 ||| (decide (z ≤ 2326 ∨ 2674 ≤ z)).toNat, some z)],
        testState := .done }

def testId (p : ProcA) : ℕ := if p.results.length < 6 then p.results.length else 1 +
    (p.results.length - 6) % 5

def testA (p : ProcA) (data : List ℕ) : ProcA × List ℕ :=
  if p.testId = 0 then p.test0 data else if p.testId = 5 then (p.test5, data) else p.fips140 data

/-! ### The procedure -/

/-- The end: a single failure is given a second chance. -/
def evaluate (p : ProcA) : ProcA × ℕ :=
  let ct := (p.results.map (·.1 &&& 1)).sum
  if ct = 1 ∧ p.procRetry = 0 then ({ p with procRetry := ct, procState := .retry }, ct)
  else ({ p with procState := .done }, ct)

/-- The loop over the tests. -/
def testsA : ℕ → ProcA → List ℕ → ProcA × ℕ
  | 0, p, _ => evaluate { p with procState := .eval }
  | fuel + 1, p, data =>
    if p.results.length < procReps then
      let ran := p.testA data
      if ran.1.testState = .done then testsA fuel { ran.1 with testState := .input } ran.2
        else (ran.1, 0)
    else evaluate { p with procState := .eval }

def restart (p : ProcA) : ProcA :=
  { p with procState := .input, testState := .init, counts := [], results := [] }

end ProcA

/-- `aisProcedureA`: the context after a buffer, and the number of failures. -/
def aisProcedureA (p : ProcA) (noise : List UInt32) : ProcA × ℕ :=
  let run := fun p : ProcA ↦ p.testsA procReps (noiseBytes noise)
  match p.procState with
  | .init => run { p with bytesUsed := 0, procRetry := 0 }.restart
  | .retry => run p.restart
  | .input => run p
  | .eval => p.evaluate
  | .done => (p, 0)

def feedA (p : ProcA) (buffers : List (List UInt32)) : ProcA :=
  buffers.foldl (fun p noise ↦ (aisProcedureA p noise).1) p

namespace ProcA

/-! ### A test over two buffers -/

section Append

variable {p : ProcA} {xs ys : List ℕ}

theorem begun_of_input (hstate : p.testState = .input) : p.begun = p := if_neg (by simp [hstate])

theorem test0_append_of_done (hdone : (p.test0 xs).1.testState = .done)
    (hready : p.begun.testState = .input) :
    p.test0 (xs ++ ys) = ((p.test0 xs).1, (p.test0 xs).2 ++ ys) := by
  unfold test0 at hdone ⊢
  dsimp only at hdone ⊢
  generalize hneeded : test0Used - p.begun.aux.length = needed at *
  split_ifs at hdone with hshort
  · rw [hready] at hdone
    exact absurd hdone (by simp)
  · have hle : needed ≤ xs.length := by
      rw [List.length_append, List.length_take] at hshort
      omega
    rw [List.take_append_of_le_length hle, List.drop_append_of_le_length hle]

theorem test0_append_of_open (hopen : (p.test0 xs).1.testState ≠ .done)
    (hready : p.begun.testState = .input) :
    (p.test0 xs).1.testState = .input ∧ (p.test0 xs).1.results = p.begun.results ∧
      (p.test0 xs).1.procState = p.begun.procState ∧ p.test0
      (xs ++ ys) = (p.test0 xs).1.test0 ys := by
  have hone : (p.test0 xs).1 = { p.begun with aux := p.begun.aux ++ xs } := by
    unfold test0 at hopen ⊢
    dsimp only at hopen ⊢
    split_ifs at hopen ⊢ with hshort
    · rw [List.length_append, List.length_take] at hshort
      rw [List.take_of_length_le (by omega)]
    · exact absurd rfl hopen
  have hshort : p.begun.aux.length + xs.length < test0Used := by
    by_contra hlong
    refine hopen ?_
    unfold test0
    dsimp only
    rw [if_neg (by rw [List.length_append, List.length_take]; omega)]
    rfl
  have hagain : (p.test0 xs).1.begun = (p.test0 xs).1 := by
    refine begun_of_input ?_
    rw [hone]
    exact hready
  refine ⟨by rw [hone]; exact hready, by rw [hone], by rw [hone], ?_⟩
  rw [test0, test0, hagain, hone]
  have hlength : (p.begun.aux ++ xs).length = p.begun.aux.length + xs.length := List.length_append
  rw [hlength, List.take_append, List.drop_append,
    List.take_of_length_le (by omega : xs.length ≤ _),
    List.drop_of_length_le
      (by omega : xs.length ≤ _), List.nil_append, List.append_assoc, Nat.sub_sub]

theorem fips140_append_of_done (hdone : (p.fips140 xs).1.testState = .done)
    (hready : p.begun.testState = .input) :
    p.fips140 (xs ++ ys) = ((p.fips140 xs).1, (p.fips140 xs).2 ++ ys) := by
  unfold fips140 at hdone ⊢
  split_ifs at hdone with hshort
  · rw [hready] at hdone
    exact absurd hdone (by simp)
  · have hle : fipsLength - p.begun.aux.length ≤ xs.length := by omega
    rw [if_neg
      (by rw [List.length_append]; omega), if_neg hshort, List.take_append_of_le_length hle,
      List.drop_append_of_le_length hle]

theorem fips140_append_of_open (hopen : (p.fips140 xs).1.testState ≠ .done)
    (hready : p.begun.testState = .input) :
    (p.fips140 xs).1.testState = .input ∧ (p.fips140 xs).1.results = p.begun.results ∧
      (p.fips140 xs).1.procState = p.begun.procState ∧ p.fips140
      (xs ++ ys) = (p.fips140 xs).1.fips140 ys := by
  have hshort : xs.length + p.begun.aux.length < fipsLength := by
    by_contra hlong
    refine hopen ?_
    unfold fips140
    rw [if_neg hlong]
    rfl
  have hone : (p.fips140 xs).1 = { p.begun with aux := p.begun.aux ++ xs } := by
    unfold fips140
    rw [if_pos hshort]
  have hagain : (p.fips140 xs).1.begun = (p.fips140 xs).1 := by
    refine begun_of_input ?_
    rw [hone]
    exact hready
  refine ⟨by rw [hone]; exact hready, by rw [hone], by rw [hone], ?_⟩
  rw [fips140, fips140, hagain, hone]
  have hlength : (p.begun.aux ++ xs).length = p.begun.aux.length + xs.length := List.length_append
  have hboth : (xs ++ ys).length + p.begun.aux.length =
    ys.length + (p.begun.aux.length + xs.length) := by
    rw [List.length_append]
    omega
  rw [hlength, hboth, List.take_append, List.drop_append,
    List.take_of_length_le (by omega : xs.length ≤ _),
    List.drop_of_length_le (by
      omega : xs.length ≤ _), List.nil_append, List.append_assoc, List.append_assoc, Nat.sub_sub]
  rfl

theorem test5_testState : p.test5.testState = .done := by
  unfold test5
  dsimp only
  split_ifs <;> rfl

theorem testA_append_of_done (hdone : (p.testA xs).1.testState = .done)
    (hready : p.begun.testState = .input) :
    p.testA (xs ++ ys) = ((p.testA xs).1, (p.testA xs).2 ++ ys) := by
  unfold testA at hdone ⊢
  split_ifs at hdone ⊢
  · exact test0_append_of_done hdone hready
  · rfl
  · exact fips140_append_of_done hdone hready

theorem begun_results (p : ProcA) : p.begun.results = p.results := by
  unfold begun
  split_ifs <;> rfl

theorem begun_procState (p : ProcA) : p.begun.procState = p.procState := by
  unfold begun
  split_ifs <;> rfl

theorem testA_append_of_open (hopen : (p.testA xs).1.testState ≠ .done)
    (hready : p.begun.testState = .input) :
    (p.testA xs).1.testState = .input ∧ (p.testA xs).1.results = p.results ∧
      (p.testA xs).1.procState = p.procState ∧ p.testA (xs ++ ys) = (p.testA xs).1.testA ys := by
  have hsame : (p.testA xs).1.results = p.results → (p.testA xs).1.testId = p.testId := by
    intro hresults
    unfold testId
    rw [hresults]
  rw [← begun_results p, ← begun_procState p] at *
  rw [testA] at hopen
  by_cases hzero : p.testId = 0
  · rw [if_pos hzero] at hopen
    have hran : p.testA xs = p.test0 xs := if_pos hzero
    obtain ⟨hstate, hresults, hproc, hrest⟩ := @test0_append_of_open p xs ys hopen hready
    rw [hran] at hsame ⊢
    refine ⟨hstate, hresults, hproc, ?_⟩
    rw [testA, testA, hsame hresults, if_pos hzero, if_pos hzero, hrest]
  by_cases hfive : p.testId = 5
  · rw [if_neg hzero, if_pos hfive] at hopen
    exact absurd test5_testState hopen
  · rw [if_neg hzero, if_neg hfive] at hopen
    have hran : p.testA xs = p.fips140 xs := by rw [testA, if_neg hzero, if_neg hfive]
    obtain ⟨hstate, hresults, hproc, hrest⟩ := @fips140_append_of_open p xs ys hopen hready
    rw [hran] at hsame ⊢
    refine ⟨hstate, hresults, hproc, ?_⟩
    rw [testA, testA, hsame hresults, if_neg hzero, if_neg hzero, if_neg hfive, if_neg hfive, hrest]

end Append

/-! ### A call over two buffers -/

section Calls

variable {p : ProcA} {xs ys : List ℕ}

theorem results_of_done (hdone : (p.testA xs).1.testState = .done)
    (hready : p.begun.testState = .input) :
    p.results.length < (p.testA xs).1.results.length ∧ (p.testA xs).1.procState = p.procState := by
  rw [← begun_results p, ← begun_procState p]
  unfold testA at hdone ⊢
  split_ifs at hdone ⊢
  · unfold test0 at hdone ⊢
    dsimp only at hdone ⊢
    split_ifs at hdone ⊢
    · rw [hready] at hdone
      exact absurd hdone (by simp)
    · unfold evaluate0
      rw [List.length_append]
      exact ⟨Nat.lt_succ_self _, rfl⟩
  · rw [begun_results, begun_procState]
    unfold test5
    dsimp only
    split_ifs
    · exact ⟨by simp, rfl⟩
    · exact ⟨by simp, rfl⟩
  · unfold fips140 at hdone ⊢
    split_ifs at hdone ⊢
    · rw [hready] at hdone
      exact absurd hdone (by simp)
    · unfold evaluateFips fipsResults
      exact ⟨by simp, rfl⟩

theorem evaluate_procState (p : ProcA) :
    p.evaluate.1.procState = .done ∨ p.evaluate.1.procState = .retry := by
  unfold evaluate
  dsimp only
  split_ifs
  · exact .inr rfl
  · exact .inl rfl

theorem testsA_fuel (fuel : ℕ) :
    ∀ {fuel' : ℕ} {p : ProcA} {data : List ℕ}, p.begun.testState = .input →
    procReps ≤ p.results.length + fuel → procReps ≤ p.results.length + fuel' →
    p.testsA fuel data = p.testsA fuel' data := by
  have hover : ∀ {fuel : ℕ} {p : ProcA} {data : List ℕ}, procReps ≤ p.results.length →
      p.testsA fuel data = evaluate { p with procState := .eval } := by
    intro fuel p data hle
    cases fuel with
    | zero => rfl
    | succ fuel => rw [testsA, if_neg (not_lt.mpr hle)]
  induction fuel with
  | zero =>
    intro fuel' p data _ hle _
    rw [hover (by omega), hover (by omega)]
  | succ fuel ih =>
    intro fuel' p data hready hle hle'
    by_cases hmore : p.results.length < procReps
    · obtain ⟨fuel', rfl⟩ : ∃ k, fuel' = k + 1 := ⟨fuel' - 1, by omega⟩
      rw [testsA, testsA, if_pos hmore, if_pos hmore]
      dsimp only
      split_ifs with hdone
      · have hgrown := (results_of_done hdone hready).1
        exact ih (p := { (p.testA data).1 with testState := .input }) rfl
          (by dsimp only; omega) (by dsimp only; omega)
      · rfl
    · rw [hover (by omega), hover (by omega)]

theorem testsA_append (fuel : ℕ) : ∀ {p : ProcA} {xs : List ℕ}, p.begun.testState = .input →
    p.procState = .input → procReps ≤ p.results.length + fuel →
    ((p.testsA fuel xs).1.procState = .input ∧ (p.testsA fuel xs).1.testState = .input ∧
        ∀ ys, p.testsA fuel (xs ++ ys) = (p.testsA fuel xs).1.testsA procReps ys) ∨
      (((p.testsA fuel xs).1.procState = .done ∨ (p.testsA fuel xs).1.procState = .retry) ∧
        ∀ ys, p.testsA fuel (xs ++ ys) = p.testsA fuel xs) := by
  induction fuel with
  | zero => exact fun _ _ _ ↦ .inr ⟨evaluate_procState _, fun _ ↦ rfl⟩
  | succ fuel ih =>
    intro p xs hready hproc hle
    by_cases hmore : p.results.length < procReps
    · by_cases hdone : (p.testA xs).1.testState = .done
      · obtain ⟨hgrown, hkept⟩ := results_of_done hdone hready
        have hstep : ∀ ys, p.testsA (fuel + 1) (xs ++ ys) =
            testsA fuel { (p.testA xs).1 with testState := .input } ((p.testA xs).2 ++ ys) := by
          intro ys
          rw [testsA, if_pos hmore, testA_append_of_done hdone hready]
          exact if_pos hdone
        have hfirst : p.testsA (fuel + 1) xs =
            testsA fuel { (p.testA xs).1 with testState := .input } (p.testA xs).2 := by
          simpa using hstep []
        rw [hfirst]
        simp only [hstep]
        exact ih rfl (hkept.trans hproc) (by dsimp only; omega)
      · have hfirst : p.testsA (fuel + 1) xs = ((p.testA xs).1, 0) := by
          rw [testsA, if_pos hmore]
          exact if_neg hdone
        obtain ⟨hstate, hresults, hkept, -⟩ := @testA_append_of_open p xs [] hdone hready
        rw [hfirst]
        refine .inl ⟨hkept.trans hproc, hstate, fun ys ↦ ?_⟩
        obtain ⟨-, -, -, hjoined⟩ := @testA_append_of_open p xs ys hdone hready
        have hrest : (p.testA xs).1.testsA (fuel + 1) ys = p.testsA (fuel + 1) (xs ++ ys) := by
          rw [testsA, testsA, hresults, if_pos hmore, if_pos hmore, hjoined]
        rw [← hrest]
        refine testsA_fuel _ ?_ (by rw [hresults]; exact hle) (Nat.le_add_left _ _)
        rw [begun_of_input hstate]
        exact hstate
    · have hover : ∀ ys, p.testsA (fuel + 1) ys = evaluate { p with procState := .eval } := by
        intro ys
        rw [testsA, if_neg hmore]
      rw [hover xs]
      exact .inr ⟨evaluate_procState _, fun ys ↦ hover _⟩

end Calls

/-! ### Buffer by buffer -/

theorem noiseBytes_append (first second : List UInt32) :
    noiseBytes (first ++ second) = noiseBytes first ++ noiseBytes second :=
  List.flatMap_append

variable {p : ProcA} {noise : List UInt32}

theorem aisProcedureA_of_input (hproc : p.procState = .input) :
    aisProcedureA p noise = p.testsA procReps (noiseBytes noise) := by
  unfold aisProcedureA
  rw [hproc]

theorem feedA_of_done (hproc : p.procState = .done) (buffers : List (List UInt32)) :
    feedA p buffers = p := by
  have hcall : ∀ noise, aisProcedureA p noise = (p, 0) := by
    intro noise
    unfold aisProcedureA
    rw [hproc]
  unfold feedA
  induction buffers with
  | nil => rfl
  | cons noise buffers ih => rw [List.foldl_cons, hcall, ih]

theorem feedA_append (buffers : List (List UInt32)) :
    ∀ {b : ProcA} {fed : List UInt32}, b.begun.testState = .input →
    b.procState = .input →
      (b.testsA procReps (noiseBytes (fed ++ buffers.flatten))).1.procState ≠ .retry →
    feedA (b.testsA procReps (noiseBytes fed)).1 buffers =
      (b.testsA procReps (noiseBytes (fed ++ buffers.flatten))).1 := by
  induction buffers with
  | nil =>
    intro b fed _ _ _
    rw [List.flatten_nil, List.append_nil]
    rfl
  | cons noise buffers ih =>
    intro b fed hready hproc hretry
    rw [List.flatten_cons] at hretry ⊢
    obtain ⟨hinput, hstate, hjoined⟩ | ⟨hended, hjoined⟩ :=
      @testsA_append procReps b (noiseBytes fed) hready hproc (Nat.le_add_left _ _)
    · rw [← List.append_assoc] at hretry ⊢
      rw [feedA, List.foldl_cons, aisProcedureA_of_input hinput, ← hjoined, ← noiseBytes_append]
      exact ih hready hproc hretry
    · rw [noiseBytes_append, hjoined] at hretry ⊢
      exact feedA_of_done (hended.resolve_right hretry) _

theorem feedA_flatten (hproc : p.procState = .init) {buffers : List (List UInt32)}
    (hne : buffers ≠ []) (hretry : (aisProcedureA p buffers.flatten).1.procState ≠ .retry) :
    feedA p buffers = (aisProcedureA p buffers.flatten).1 := by
  obtain ⟨noise, buffers, rfl⟩ := List.exists_cons_of_ne_nil hne
  have hcall : ∀ noise, aisProcedureA p noise =
      ({ p with bytesUsed := 0, procRetry := 0 } : ProcA).restart.testsA procReps
        (noiseBytes noise) := by
    intro noise
    unfold aisProcedureA
    rw [hproc]
  rw [hcall] at hretry ⊢
  rw [feedA, List.foldl_cons, hcall]
  rw [List.flatten_cons] at hretry ⊢
  exact feedA_append buffers rfl rfl hretry

end ProcA

end CrossBreeder.Haveged
