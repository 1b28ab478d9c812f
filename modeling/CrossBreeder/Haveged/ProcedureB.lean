import CrossBreeder.Foundation.CountedLoop
import Mathlib.Data.UInt
import Mathlib.Algebra.BigOperators.Group.List.Basic

/-!
# Test procedure B

The online tests 6a, 6b, 7a, 7b and 8 of `havegetest.c`. A call gets a buffer of words, goes on with
the test that is under way, and starts the next ones as long as there is input. The tests that count
tuples of bits share `aisSeq`, and keep the bits of a tuple that is cut at the end of a buffer in
`bridge`.

The verdicts on the counters are a parameter (`Verdicts`): what is counted depends on them only when
the procedure is repeated. A buffer has fewer than `2 ^ 27` words, so that the number of its bits is
an `H_UINT`.
-/

namespace CrossBreeder.Haveged

open Foundation Function

/-! ### The context -/

/-- `TEST_STATE`. -/
inductive TestState
  | init
  | input
  | eval
  | done
  | retry
  deriving DecidableEq, Repr

structure Verdicts where
  test6a : ℕ → Bool
  test6b : ℕ → ℕ → Bool
  test7 : ℕ → ℕ → Bool
  test8 : List ℕ → Bool

/-- `procB`. The number of results is `testNbr`, and `deadman` is the timer that the source keeps in
`lastpos[0]` until test 8 clears it. -/
structure ProcB where
  procState : TestState
  procRetry : ℕ
  testId : ℕ
  testState : TestState
  bitsUsed : ℕ
  bridge : ℕ
  counter : ℕ → ℕ
  einsen : ℕ → ℕ
  full : ℕ
  deadman : ℕ
  lastpos : ℕ → ℕ
  distances : List ℕ
  results : List ℕ

def aisLength : ℕ := 100000

/-- `Q` and `K` of test 8. -/
def test8Q : ℕ := 2560

def test8K : ℕ := 256000

def aisBitTest (noise : List UInt32) (n : ℕ) : ℕ :=
  ((noise.getD (n / 32) 0).toNat.testBit (n % 32)).toNat

def noiseByte (noise : List UInt32) (n : ℕ) : ℕ :=
  (noise.getD (n / 4) 0).toNat / 256 ^ (n % 4) % 256

namespace ProcB

def record (p : ProcB) (tid : ℕ) (failed : Bool) : ProcB :=
  { p with results := p.results ++ [tid <<< 8 ||| failed.toNat] }

/-! ### The tests -/

def used (p : ProcB) (i : ℕ) : ProcB := { p with bitsUsed := p.bitsUsed + i }

/-- `TEST_INIT` of `test6a`. -/
def test6aBegin (p : ProcB) : ProcB :=
  if p.testState = .init then
    { p with bridge := 0, counter := update p.counter 0 0, testState := .input } else p

/-- One round of the loop of `test6a`. -/
def test6aBit (bit : ℕ → ℕ) (i : ℕ) (p : ProcB) : ProcB :=
  { p with counter := update p.counter 0 (p.counter 0 + bit i), bridge := p.bridge + 1 }

def test6aFull (p : ProcB) : Bool := aisLength ≤ p.bridge

/-- `TEST_INPUT` of `test6a`. -/
def test6aInput (noise : List UInt32) (offs : ℕ) (p : ProcB) : ℕ × ProcB :=
  countLoop test6aFull (test6aBit fun i ↦ aisBitTest noise (i + offs)) (noise.length * 32 - offs) 0
    p

/-- `TEST_EVAL` of `test6a`. -/
def test6aEnd (verdicts : Verdicts) (tid : ℕ) (p : ProcB) : ProcB :=
  if p.bridge < aisLength then
    p else { p.record tid (verdicts.test6a (p.counter 0)) with testState := .done }

/-- `test6a`: the ones. -/
def test6a (verdicts : Verdicts) (p : ProcB) (noise : List UInt32) (offs tid : ℕ) : ProcB × ℕ :=
  let loop := p.test6aBegin.test6aInput noise offs
  ((loop.2.used loop.1).test6aEnd verdicts tid, loop.1 + offs)

def tupleBits (bit : ℕ → ℕ) (limit : ℕ) : ℕ → ℕ → ℕ → ℕ × ℕ
  | 0, hilf, j => (hilf, j)
  | fuel + 1, hilf, j => if j < limit then tupleBits bit limit fuel (hilf + hilf + bit j) (j + 1)
    else (hilf, j)

/-- A tuple is counted, with the bit behind it. -/
def countTuple (mask : ℕ) (p : ProcB) (hilf one : ℕ) : ProcB :=
  let counter := update p.counter hilf (p.counter hilf + 1)
  let full := if counter hilf = aisLength then p.full ||| 1 <<< hilf else p.full
  { p with
    counter := counter
    full := full
    testState := if counter hilf = aisLength ∧ full = mask then .eval else p.testState
    deadman := 0
    einsen := update p.einsen hilf (p.einsen hilf + one)
    bridge := 0 }

/-- One round of the loop of `aisSeq`, with the bits of the tuple and the number of bits that are
left. -/
def seqTuple (uln2 mask : ℕ) (bit : ℕ → ℕ) (limit : ℕ) (p : ProcB) : ProcB × Bool :=
  let tuple := tupleBits bit limit (uln2 - p.bridge >>> 4) (p.bridge &&& 15) (p.bridge >>> 4)
  if tuple.2 < uln2 then ({ p with bridge := tuple.1 ||| tuple.2 <<< 4 }, true)
  else if p.full &&& 1 <<< tuple.1 = 0 then
    if limit ≤ tuple.2 then ({ p with bridge := tuple.1 ||| tuple.2 <<< 4 }, true)
    else (countTuple mask p tuple.1 (bit tuple.2), false)
  else ({ p with bridge := 0 }, false)

/-- The loop of `aisSeq`. -/
def seqLoop (uln2 mask : ℕ) (bit : ℕ → ℕ) (r : ℕ) : ℕ → ℕ → ProcB → ℕ × ProcB
  | 0, i, p => (i, p)
  | fuel + 1, i, p =>
    if i < r ∧ p.testState = .input then
      let tuple := seqTuple uln2 mask (fun j ↦ bit (i + j)) (r - i) p
      if tuple.2 then (i, tuple.1) else seqLoop uln2 mask bit r fuel (i + 2 ^ uln2) tuple.1
    else (i, p)

def seqBitx (uln2 : ℕ) : ℕ := [1, 3, 15, 255].getD uln2 0

/-- The evaluation of `aisSeq`: one result for the pairs, and one for every two kinds of longer
tuples. -/
def evalSeq (verdicts : Verdicts) (p : ProcB) (tid : ℕ) : ProcB :=
  if 2 ^ tid = 2 then p.record tid (verdicts.test6b (p.einsen 0) (p.einsen 1))
  else (List.range (2 ^ tid / 2)).foldl
    (fun p k ↦ p.record tid (verdicts.test7 (p.einsen (2 * k)) (p.einsen (2 * k + 1)))) p

/-- `TEST_INIT` of `aisSeq`. -/
def seqBegin (tid : ℕ) (p : ProcB) : ProcB :=
  if p.testState = .init then
    { p with
      deadman := 0
      bridge := 0
      full := 0
      counter := fun k ↦ if k < 2 ^ tid then 0 else p.counter k
      einsen := fun k ↦ if k < 2 ^ tid then 0 else p.einsen k
      testState := .input } else p

def timed (p : ProcB) (r : ℕ) : ProcB := { p with deadman := p.deadman + r }

/-- `TEST_INPUT` of `aisSeq`. -/
def seqInput (noise : List UInt32) (offs tid : ℕ) (p : ProcB) : ℕ × ProcB :=
  let r := noise.length * 32 - offs
  seqLoop tid (seqBitx tid) (fun n ↦ aisBitTest noise (n + offs)) r r 0 (p.timed r)

/-- `TEST_EVAL` of `aisSeq`, if all kinds of tuples are full or the timer has run out. -/
def seqEnd (verdicts : Verdicts) (tid : ℕ) (p : ProcB) : ProcB :=
  if p.testState ≠ .eval ∧ p.deadman < aisLength then
    p else { evalSeq verdicts p tid with testState := .done }

/-- `aisSeq`: tuples of `2 ^ tid` bits. -/
def aisSeq (verdicts : Verdicts) (p : ProcB) (noise : List UInt32) (offs tid : ℕ) : ProcB × ℕ :=
  let loop := (p.seqBegin tid).seqInput noise offs tid
  ((loop.2.used loop.1).seqEnd verdicts tid, loop.1 + offs)

/-- `TEST_INIT` of `test8`. -/
def test8Begin (p : ProcB) : ProcB :=
  if p.testState = .init then
    { p with lastpos := fun _ ↦ 0, distances := [], bridge := 0, testState := .input }
  else p

/-- One round of the loops of `test8`. -/
def test8Byte (byte : ℕ → ℕ) (i : ℕ) (p : ProcB) : ProcB :=
  { p with
    distances := if i < test8Q then p.distances else p.distances ++ [i - p.lastpos (byte i)]
    lastpos := update p.lastpos (byte i) i }

/-- `TEST_INPUT` of `test8`, from a byte of the buffer on. -/
def test8Input (noise : List UInt32) (offs : ℕ) (p : ProcB) : ℕ × ProcB :=
  let d := p.bridge
  let r := noise.length * 4 - offs + d
  countLoop (fun _ ↦ false) (test8Byte fun i ↦ noiseByte noise (offs + (i - d)))
    (min r (test8K + test8Q) - d) d p

/-- `TEST_EVAL` of `test8`. -/
def test8End (verdicts : Verdicts) (tid i : ℕ) (p : ProcB) : ProcB :=
  if i < test8K + test8Q then { p with bridge := i }
  else { p.record tid (verdicts.test8 p.distances) with testState := .done }

/-- `test8`: the distances between equal bytes. -/
def test8 (verdicts : Verdicts) (p : ProcB) (noise : List UInt32) (offs tid : ℕ) : ProcB × ℕ :=
  let loop := p.test8Begin.test8Input noise (offs >>> 3)
  ((loop.2.used loop.1).test8End verdicts tid loop.1, loop.1 <<< 3)

/-! ### The procedure -/

def test (verdicts : Verdicts) (p : ProcB) (noise : List UInt32) (offs tid : ℕ) : ProcB × ℕ :=
  if tid = 4 then test8 verdicts p noise offs tid
  else if tid = 0 then test6a verdicts p noise offs tid
  else aisSeq verdicts p noise offs tid

/-- The end: a single failure is given a second chance. -/
def evaluate (p : ProcB) : ProcB × ℕ :=
  let ct := (p.results.map (· &&& 255)).sum
  if ct = 1 ∧ p.procRetry = 0 then ({ p with procRetry := ct, procState := .retry }, ct)
  else ({ p with procState := .done }, ct)

/-- The tests from a number on, at an offset in bits. -/
def tests (verdicts : Verdicts) (noise : List UInt32) : ℕ → ℕ → ProcB → ℕ → ProcB × ℕ
  | 0, _, p, _ => evaluate { p with procState := .eval }
  | fuel + 1, i, p, ct =>
    let ran := test verdicts p noise ct i
    if ran.1.testState = .input then (ran.1, 0)
    else tests verdicts noise fuel (i + 1) { ran.1 with testId := i + 1, testState := .init } ran.2

def restart (p : ProcB) : ProcB :=
  { p with testId := 0, results := [], procState := .input, testState := .init }

end ProcB

/-- `aisProcedureB`: the context after a buffer, and the number of failures. -/
def aisProcedureB (verdicts : Verdicts) (p : ProcB) (noise : List UInt32) : ProcB × ℕ :=
  let run := fun p : ProcB ↦ ProcB.tests verdicts noise (5 - p.testId) p.testId p 0
  match p.procState with
  | .init => run { p with bitsUsed := 0, procRetry := 0 }.restart
  | .retry => run p.restart
  | .input => run p
  | .eval => p.evaluate
  | .done => (p, 0)

def feedB (verdicts : Verdicts) (p : ProcB) (buffers : List (List UInt32)) : ProcB :=
  buffers.foldl (fun p noise ↦ (aisProcedureB verdicts p noise).1) p

end CrossBreeder.Haveged
