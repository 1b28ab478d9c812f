import CrossBreeder.Haveged.CutCalls
import CrossBreeder.Haveged.ConstantTuples
import CrossBreeder.Haveged.ProcedureA

/-!
# Cutting the input of the tests

A run over several buffers comes to the counts of a run in a single buffer
(`sameCounts_of_undisturbed`): for procedure A however the words are cut, for procedure B as long as
the timer ends no test and no buffer ends inside a tuple.

In the input of `sameCounts_cutTuple` the first buffer ends in the middle of a tuple of eight bits.
-/

namespace CrossBreeder.Haveged

open Foundation Function

namespace ProcB

variable {verdicts : Verdicts} {p q : ProcB} {noise : List UInt32} {offs tid : ℕ}

/-! ### Tests that have enough input -/

theorem test6aInput_eq (hbridge : p.bridge = 0) (hlength : aisLength ≤ noise.length * 32 - offs) :
    test6aInput noise offs p = countLoop test6aFull
      (test6aBit fun i ↦ aisBitTest noise (i + offs)) aisLength 0 p ∧
      aisLength ≤ (test6aInput noise offs p).2.bridge := by
  obtain ⟨more, hmore⟩ := Nat.exists_eq_add_of_le hlength
  have hcount := @countLoop_measure _ test6aFull (test6aBit fun i ↦ aisBitTest noise (i + offs))
    (fun s ↦ s.bridge) (fun _ _ ↦ rfl) aisLength 0 p
  have hstop : test6aFull (countLoop test6aFull (test6aBit fun i ↦ aisBitTest noise (i + offs))
    aisLength 0 p).2 = true := by
    by_contra hgoes
    have hall := countLoop_fst_of_not_stop aisLength 0 p (by simpa using hgoes)
    exact hgoes (decide_eq_true (by omega))
  have hinput : test6aInput noise offs p =
      countLoop test6aFull (test6aBit fun i ↦ aisBitTest noise (i + offs)) aisLength 0 p := by
    unfold test6aInput
    rw [hmore, countLoop_add_of_stop hstop]
  refine ⟨hinput, ?_⟩
  rw [hinput]
  exact of_decide_eq_true hstop

theorem test6a_zeros (hinit : p.testState = .init) (hlength : aisLength ≤ noise.length * 32)
    (hzero : ∀ n < aisLength, aisBitTest noise n = 0) :
    (test6a verdicts p noise 0 0).2 = aisLength ∧
      (test6a verdicts p noise 0 0).1.testState = .done ∧
      (test6a verdicts p noise 0 0).1.results = p.results ++ [(verdicts.test6a 0).toNat] := by
  have hbegin : p.test6aBegin =
    { p with bridge := 0, counter := update p.counter 0 0, testState := .input } := if_pos hinit
  have hbridge : p.test6aBegin.bridge = 0 := by rw [hbegin]
  obtain ⟨hinput, hfull⟩ := @test6aInput_eq p.test6aBegin noise 0 hbridge hlength
  have hindex := test6aInput_fst hbridge hfull
  have hones : (test6aInput noise 0 p.test6aBegin).2.counter 0 = 0 ∧
      (test6aInput noise 0 p.test6aBegin).2.results = p.results := by
    have hbits : test6aInput noise 0 p.test6aBegin =
      countLoop test6aFull (test6aBit fun _ ↦ 0) aisLength 0 p.test6aBegin := by
      rw [hinput]
      exact countLoop_congr _ _ _ fun j _ hj t _ ↦ test6aBit_congr (hzero _ (by omega))
    rw [hbits]
    refine countLoop_invariant (P := fun s : ProcB ↦ s.counter 0 = 0 ∧ s.results = p.results) ?_ _ _
      _ ?_
    · intro j s _ hs
      unfold test6aBit
      exact ⟨by simpa using hs.1, hs.2⟩
    · rw [hbegin]
      exact ⟨by simp, rfl⟩
  unfold test6a test6aEnd
  dsimp only
  rw [if_neg (by unfold used; dsimp only; omega), hindex]
  refine ⟨Nat.add_zero _, rfl, ?_⟩
  unfold used record
  rw [hones.1, hones.2, Nat.zero_shiftLeft, Nat.zero_or]

theorem aisSeq_of_eval {i : ℕ} (hloop : seqInput noise offs tid (p.seqBegin tid) = (i, q))
    (heval : q.testState = .eval) :
    (aisSeq verdicts p noise offs tid).2 = i + offs ∧
      (aisSeq verdicts p noise offs tid).1.testState = .done ∧
      (aisSeq verdicts p noise offs tid).1 =
      { evalSeq verdicts (q.used i) tid with testState := .done } := by
  unfold aisSeq
  rw [hloop]
  dsimp only
  rw [@seqEnd_of_eval verdicts (q.used i) tid heval]
  exact ⟨rfl, rfl, rfl⟩

theorem einsen_evalSeq : (evalSeq verdicts p tid).einsen = p.einsen := by
  unfold evalSeq
  split_ifs
  · rfl
  · refine List.foldlRecOn (motive := fun s : ProcB ↦ s.einsen = p.einsen) _ _ rfl ?_
    exact fun s hs _ _ ↦ hs

theorem einsen_test8 : (test8 verdicts p noise offs tid).1.einsen = p.einsen := by
  have hbegin : p.test8Begin.einsen = p.einsen := by
    unfold test8Begin
    split_ifs <;> rfl
  have hloop : (test8Input noise (offs >>> 3) p.test8Begin).2.einsen = p.einsen := by
    refine countLoop_invariant (P := fun s : ProcB ↦ s.einsen = p.einsen) ?_ _ _ _ hbegin
    exact fun _ _ _ h ↦ h
  unfold test8 test8End
  dsimp only
  split_ifs <;> exact hloop

theorem test8_done (hinit : p.testState = .init)
    (hlength : test8K + test8Q ≤ noise.length * 4 - offs >>> 3) :
    (test8 verdicts p noise offs tid).1.testState = .done := by
  have hbridge : p.test8Begin.bridge = 0 := by
    unfold test8Begin
    rw [if_pos hinit]
  have hindex := @test8Input_fst p.test8Begin noise (offs >>> 3)
  rw [hbridge] at hindex
  unfold test8 test8End
  dsimp only
  rw [if_neg (by omega)]

/-- A test of tuples whose counters are all full, and the tests behind it. -/
theorem tests_of_eval {i next fuel : ℕ} (hpos : 0 < tid) (hlt : tid < 4)
    (hloop : seqInput noise offs tid (p.seqBegin tid) = (i, q)) (heval : q.testState = .eval)
    (hnext : i + offs = next) :
    ∃ s, tests verdicts noise (fuel + 1) tid p offs = tests verdicts noise fuel (tid + 1) s next ∧
      s.testState = .init ∧
      s.testId = tid + 1 ∧ s.procState = p.procState ∧ p.results <+: s.results ∧
      s.results = (evalSeq verdicts (q.used i) tid).results ∧ s.einsen = q.einsen := by
  obtain ⟨hoffs, hdone, hran⟩ := @aisSeq_of_eval verdicts p q noise offs tid i hloop heval
  have hkeeps := @keeps_aisSeq verdicts p noise offs tid
  refine ⟨{ (aisSeq verdicts p noise offs tid).1 with testId := tid + 1, testState := .init }, ?_,
    rfl, rfl, hkeeps.procState, hkeeps.results, ?_, ?_⟩
  · rw [tests, test_tuple hpos hlt]
    rw [if_neg (by simp [hdone]), hoffs, hnext]
  · rw [hran]
  · rw [hran]
    exact einsen_evalSeq

theorem tests_of_zeros {fuel : ℕ} (hinit : p.testState = .init)
    (hlength : aisLength ≤ noise.length * 32) (hzero : ∀ n < aisLength, aisBitTest noise n = 0) :
    ∃ s, tests verdicts noise (fuel + 1) 0 p 0 = tests verdicts noise fuel 1 s aisLength ∧
      s.testState = .init ∧
      s.testId = 1 ∧ s.procState = p.procState ∧ s.results = p.results ++
      [(verdicts.test6a 0).toNat] := by
  obtain ⟨hend, hdone, hresults⟩ := @test6a_zeros verdicts p noise hinit hlength hzero
  have hkeeps := @keeps_test6a verdicts p noise 0 0
  refine ⟨{ (test6a verdicts p noise 0 0).1 with testId := 1, testState := .init }, ?_, rfl, rfl,
    hkeeps.procState, hresults⟩
  rw [tests, test_zero]
  rw [if_neg (by simp [hdone]), hend]

theorem tests_three_done {i next : ℕ} (hloop : seqInput noise offs 3 (p.seqBegin 3) = (i, q))
    (heval : q.testState = .eval) (hnext : i + offs = next)
    (hlength : test8K + test8Q ≤ noise.length * 4 - next >>> 3) {more : List ℕ}
    (hresults : p.results = 1 :: 257 :: more) :
    (tests verdicts noise 2 3 p offs).1.procState = .done ∧
      (tests verdicts noise 2 3 p offs).1.einsen = q.einsen := by
  obtain ⟨s, hrun, hs, -, -, hprefix, -, heinsen⟩ :=
    @tests_of_eval verdicts p q noise offs 3 i next 1 (by decide) (by decide) hloop heval hnext
  have hdone := @test8_done verdicts s noise next 4 hs hlength
  have hkeeps := @keeps_test8 verdicts s noise next 4
  have heinsen' := @einsen_test8 verdicts s noise next 4
  obtain ⟨rest, hrest⟩ := hprefix.trans hkeeps.results
  rw [hrun, tests_four, if_neg (by simp [hdone])]
  unfold evaluate
  rw [← hrest, hresults, if_neg (by simp)]
  exact ⟨rfl, heinsen'.trans heinsen⟩

end ProcB

/-! ### A cut inside a tuple -/

/-- The tests 6a, 6b and 7a, and the first 28 bits of test 7b. -/
def cutFirst : List UInt32 :=
  wordRuns [(9375, digits 0), (6250, digits 15), (12500, digits 0), (12500, digits 2),
    (12500, digits 1), (1, 0x33333330), (12500, digits 3)]

/-- The rest of test 7b, and test 8. -/
def cutSecond : List UInt32 :=
  wordRuns [(1, 8), (24999, digits 0), (25000, digits 4), (25000, digits 2), (25000, digits 6),
    (25000, digits 1), (25000, digits 5), (24999, digits 3), (25000, digits 7), (64640, digits 0)]

theorem length_cutFirst : cutFirst.length = 65626 := length_wordRuns _

theorem length_cutSecond : cutSecond.length = 264639 := length_wordRuns _

namespace ProcB

variable {verdicts : Verdicts} {p q : ProcB} {noise : List UInt32}

structure Head (noise : List UInt32) : Prop where
  length : 65626 ≤ noise.length
  zeros : Stretch noise 0 9375 0
  ones : Stretch noise 9375 15625 15
  kind0 : Stretch noise 15625 28125 0
  kind1 : Stretch noise 28125 40625 2
  kind2 : Stretch noise 40625 53125 1
  word : noise.getD 53125 0 = 0x33333330
  kind3 : Stretch noise 53126 65626 3

theorem head_cutFirst : Head cutFirst where
  length := length_cutFirst.ge
  zeros := stretch_wordRuns [] 9375 0 _
  ones := stretch_wordRuns [(9375, digits 0)] 6250 15 _
  kind0 := stretch_wordRuns [(9375, digits 0), (6250, digits 15)] 12500 0 _
  kind1 := stretch_wordRuns [(9375, digits 0), (6250, digits 15), (12500, digits 0)] 12500 2 _
  kind2 := stretch_wordRuns [(9375, digits 0), (6250, digits 15), (12500, digits 0),
    (12500, digits 2)] 12500 1 _
  word := getD_wordRuns [(9375, digits 0), (6250, digits 15), (12500, digits 0), (12500, digits 2),
    (12500, digits 1)] 1 0x33333330 _ le_rfl (Nat.lt_succ_self _)
  kind3 := stretch_wordRuns [(9375, digits 0), (6250, digits 15), (12500, digits 0),
    (12500, digits 2), (12500, digits 1), (1, 0x33333330)] 12500 3 _

theorem Head.append {first : List UInt32} (h : Head first) (second : List UInt32) :
    Head (first ++ second) := by
  have hlength := h.length
  refine ⟨by rw [List.length_append]; omega, h.zeros.append_left (by
    omega), h.ones.append_left (by omega),
    h.kind0.append_left
      (by omega), h.kind1.append_left (by omega), h.kind2.append_left (by omega), ?_,
    h.kind3.append_left (by omega)⟩
  rw [List.getD_append _ _ _ _ (by omega)]
  exact h.word

theorem Head.test6b (h : Head noise) (hinit : p.testState = .init) :
    ∃ q, seqInput noise 100000 1 (p.seqBegin 1) = (400000, q) ∧ q.testState = .eval ∧
      q.einsen 0 = 0 ∧ q.einsen 1 = 100000 ∧ q.results = p.results := by
  have hlength := h.length
  obtain ⟨hfilled, hcounter, heinsen, hresults⟩ :=
    @filled_begin p 1 (noise.length * 32 - 100000) hinit (by decide)
  unfold seqInput
  obtain ⟨q, hloop, hq, hqResults, hqEinsen⟩ :=
    @Filled.fill 1 (seqBitx 1) (noise.length * 32 - 100000)
    (fun n ↦ aisBitTest noise (n + 100000)) _ 0 99999 0 200000 _ (fun _ ↦
      0) hfilled (by decide) (by decide)
    (fun n hn j hj ↦ by
      rw [h.zeros.aisBitTest (by decide) (by omega) (by omega), Nat.zero_testBit]
      rfl)
    rfl (by omega) (by rw [hcounter 0 (by decide)]; rfl) rfl
  obtain ⟨s, hloop', hs, hsResults, hsEinsen⟩ :=
    @Filled.fill 1 (seqBitx 1) (noise.length * 32 - 100000)
    (fun n ↦ aisBitTest noise (n + 100000)) q 1 99999 200000 400000 _ (fun _ ↦
      1) hq (by decide) (by decide)
    (fun n hn j hj ↦ by
      rw [h.ones.aisBitTest (by decide) (by omega) (by omega)]
      have hone : ∀ y < 4, Nat.testBit 15 y = true := by decide
      rw [hone _ (Nat.mod_lt _ (by decide))]
      rfl)
    rfl (by omega) (by rw [hcounter 1 (by decide)]; rfl) rfl
  have heval : s.testState = .eval := hs.testState.trans (if_pos rfl)
  refine ⟨s, ?_, heval, ?_, ?_, ?_⟩
  · rw [hloop, hloop', seqLoop_of_ne (by simp [heval])]
  · rw [hsEinsen, hqEinsen]
    simp [heinsen 0 (by decide)]
  · rw [hsEinsen, hqEinsen]
    simp [heinsen 1 (by decide)]
  · rw [hsResults, hqResults, hresults]

theorem Head.threes (h : Head noise) {n : ℕ} (hlo : 1700004 ≤ n) (hhi : n < 2100032) :
    aisBitTest noise n = (Nat.testBit 3 (n % 4)).toNat := by
  by_cases hword : n < 1700032
  · have hdigits : ∀ y < 32, 4 ≤ y →
      Nat.testBit (0x33333330 : UInt32).toNat y = Nat.testBit 3 (y % 4) := by decide
    unfold aisBitTest
    rw [show n / 32 = 53125 by omega, h.word, hdigits _ (Nat.mod_lt _ (by decide)) (by omega),
      show n % 32 % 4 = n % 4 by omega]
  · exact h.kind3.aisBitTest (by decide) (by omega) (by omega)

/-- Test 7a on its four kinds. The last one begins with a tuple that is passed over, so that the
test ends in the first four bits of a word. -/
theorem Head.test7a (h : Head noise) (hinit : p.testState = .init) :
    ∃ q, seqInput noise 500000 2 (p.seqBegin 2) = (1600004, q) ∧ q.testState = .eval ∧
      q.results = p.results := by
  have hlength := h.length
  obtain ⟨hfilled, hcounter, -, hresults⟩ :=
    @filled_begin p 2 (noise.length * 32 - 500000) hinit (by decide)
  unfold seqInput
  generalize hr : noise.length * 32 - 500000 = r at *
  have hroom : ∀ k < 2 ^ 2, ((p.seqBegin 2).timed r).counter k + (99999 + 1) = aisLength := by
    intro k hk
    rw [hcounter k hk]
    rfl
  obtain ⟨q0, hloop0, hq0, hresults0, -⟩ :=
    hfilled.stretch h.kind0 500000 r 0 99999 400000 (hroom 0 (by decide)) rfl
    (.inl rfl) (by decide) rfl (by decide) (by decide) rfl (by omega) (by omega) (by omega)
  obtain ⟨q1, hloop1, hq1, hresults1, -⟩ :=
    hq0.stretch h.kind1 500000 r 400000 99999 800000 (hroom 1 (by decide)) rfl
    (.inl rfl) (by decide) rfl (by decide) (by decide) rfl (by omega) (by omega) (by omega)
  obtain ⟨q2, hloop2, hq2, hresults2, -⟩ :=
    hq1.stretch h.kind2 500000 r 800000 99999 1200000 (hroom 2 (by decide)) rfl
    (.inl rfl) (by decide) rfl (by decide) (by decide) rfl (by omega) (by omega) (by omega)
  have hskip :=
    @seqLoop_skip 2 (seqBitx 2) r (fun n ↦ aisBitTest noise (n + 500000)) q2 1200000 (fun _ ↦ 0)
    (fun j hj ↦ by
      have hword : ∀ y ≤ 2, (Nat.testBit (0x33333330 : UInt32).toNat y).toNat = 0 := by decide
      unfold aisBitTest
      rw [show (1200000 + j + 500000) / 32 =
        53125 by omega, h.word, show (1200000 + j + 500000) % 32 = j by omega, hword j hj])
    (by omega) hq2.bridge (hq2.testState.trans (if_neg (by decide))) (by rw [hq2.full]; decide)
  obtain ⟨q3, hloop3, hq3, hresults3, -⟩ :=
    @Filled.fill 2 (seqBitx 2) r (fun n ↦ aisBitTest noise (n + 500000)) q2 3 99999
    1200004 1600004 _ (fun j ↦ (Nat.testBit 3 j).toNat) hq2 (by decide) (by decide)
    (fun n hn j hj ↦ by
      rw [h.threes (by omega) (by omega), show (1200004 + n * 2 ^ 2 + j + 500000) % 4 = j by omega])
    rfl (by omega) (hroom 3 (by decide)) rfl
  have heval : q3.testState = .eval := hq3.testState.trans (if_pos rfl)
  refine ⟨q3, ?_, heval, ?_⟩
  · rw [hloop0, hloop1, hloop2, hskip, show 1200000 + 2 ^ 2 = 1200004 from rfl, hloop3,
      seqLoop_of_ne (by simp [heval])]
  · rw [hresults3, hresults2, hresults1, hresults0, hresults]

theorem Head.tests (h : Head noise) (hinit : p.testState = .init) (hnone : p.results = [])
    (hsix : verdicts.test6a 0 = true) (hsixb : verdicts.test6b 0 100000 = true) :
    ∃ q more, ProcB.tests verdicts noise 5 0 p 0 = ProcB.tests verdicts noise 2 3 q 2100004 ∧
      q.testState = .init ∧
      q.testId = 3 ∧ q.procState = p.procState ∧ q.results = 1 :: 257 :: more := by
  have hlength := h.length
  obtain ⟨s, hrun, hs, -, hproc, hresults⟩ :=
    @tests_of_zeros verdicts p noise 4 hinit (by unfold aisLength; omega) (fun n hn ↦ by
      unfold aisLength at hn
      rw [h.zeros.aisBitTest (by decide) (by omega) (by omega), Nat.zero_testBit]
      rfl)
  obtain ⟨q, hloop, heval, hzero, hone, hresults'⟩ := h.test6b hs
  obtain ⟨s', hrun', hs', -, hproc', -, hrecorded, -⟩ :=
    @tests_of_eval verdicts s q noise 100000 1 400000 500000 3 (by decide)
    (by decide) hloop heval rfl
  obtain ⟨q', hloop', heval', -⟩ := h.test7a hs'
  obtain ⟨s'', hrun'', hs'', hid, hproc'', hprefix, -⟩ :=
    @tests_of_eval verdicts s' q' noise 500000 2 1600004 2100004 2
    (by decide) (by decide) hloop' heval' rfl
  have htwo : s'.results = [1, 257] := by
    rw [hrecorded]
    unfold evalSeq record used
    rw [if_pos (pow_one 2), hzero, hone, hsixb, hresults', hresults, hnone, hsix]
    rfl
  obtain ⟨more, hmore⟩ := hprefix
  refine ⟨s'', more, hrun.trans (hrun'.trans hrun''), hs'', hid, hproc''.trans (hproc'.trans hproc),
    ?_⟩
  rw [← hmore, htwo]
  rfl

/-- The first tuples of test 7b, of which the last one has only four bits in the word. -/
theorem Head.test7b (h : Head noise) (hinit : p.testState = .init) {r : ℕ} (hr : 28 ≤ r) :
    ∃ q, seqLoop 3 (seqBitx 3) (fun n ↦ aisBitTest noise (n + 2100004)) r r 0
      ((p.seqBegin 3).timed r) =
        seqLoop 3 (seqBitx 3) (fun n ↦ aisBitTest noise (n + 2100004)) r r 32 q ∧
      Filled (seqBitx 3) 0 q.counter q ∧
      (∀ k < 2 ^ 3, q.counter k = if k = 6 then 4 else 0) ∧ q.einsen 0 = 0 ∧
      q.deadman = 0 ∧ q.results = p.results := by
  obtain ⟨hfilled, hcounter, heinsen, hresults⟩ := @filled_begin p 3 r hinit (by decide)
  have hblock := @seqLoop_block 3 (seqBitx 3) r (fun n ↦ aisBitTest noise (n + 2100004)) (fun j ↦
    (Nat.testBit 3 j).toNat) 3 0 ((p.seqBegin 3).timed r)
    (fun n hn j hj ↦ by
      rw [h.threes (by omega) (by omega), show (0 + n * 2 ^ 3 + j + 2100004) % 4 = j by omega])
    (by omega) hfilled.bridge (hfilled.testState.trans (if_neg
      (by decide))) (by rw [hfilled.full]; rfl)
    (by rw [hcounter _ (by decide)]; unfold aisLength; omega)
  generalize (p.seqBegin 3).timed r = s at *
  have hkind : tupleValue 3 (fun j ↦ (Nat.testBit 3 j).toNat) = 6 := rfl
  rw [hkind] at hblock
  have hsix := hcounter 6 (by decide)
  have hroom : s.counter 6 + (3 + 1) ≠ aisLength := by
    rw [hsix]
    decide
  refine ⟨_, hblock, ⟨?_, rfl, ?_, fun _ _ ↦ rfl⟩, fun k hk ↦ ?_, ?_, rfl, hresults⟩
  · unfold tally
    rw [if_neg hroom, hfilled.full]
  · unfold tally
    rw [if_neg fun hfull ↦ hroom hfull.1, hfilled.testState]
  · unfold tally
    dsimp only
    split_ifs with hk6
    · rw [hk6, update_self, hsix]
    · rw [update_of_ne hk6, hcounter k hk]
  · unfold tally
    dsimp only
    rw [update_of_ne (by decide), heinsen 0 (by decide)]

structure Tail (noise : List UInt32) (base : ℕ) : Prop where
  length : noise.length = base + 264639
  word : noise.getD base 0 = 8
  kind0 : Stretch noise (base + 1) (base + 25000) 0
  kind1 : Stretch noise (base + 25000) (base + 50000) 4
  kind2 : Stretch noise (base + 50000) (base + 75000) 2
  kind3 : Stretch noise (base + 75000) (base + 100000) 6
  kind4 : Stretch noise (base + 100000) (base + 125000) 1
  kind5 : Stretch noise (base + 125000) (base + 150000) 5
  kind6 : Stretch noise (base + 150000) (base + 174999) 3
  kind7 : Stretch noise (base + 174999) (base + 199999) 7

theorem tail_cutSecond : Tail cutSecond 0 where
  length := length_cutSecond
  word := getD_wordRuns [] 1 8 _ le_rfl (Nat.lt_succ_self _)
  kind0 := stretch_wordRuns [(1, 8)] 24999 0 _
  kind1 := stretch_wordRuns [(1, 8), (24999, digits 0)] 25000 4 _
  kind2 := stretch_wordRuns [(1, 8), (24999, digits 0), (25000, digits 4)] 25000 2 _
  kind3 :=
    stretch_wordRuns [(1, 8), (24999, digits 0), (25000, digits 4), (25000, digits 2)] 25000 6 _
  kind4 := stretch_wordRuns [(1, 8), (24999, digits 0), (25000, digits 4), (25000, digits 2),
    (25000, digits 6)] 25000 1 _
  kind5 := stretch_wordRuns [(1, 8), (24999, digits 0), (25000, digits 4), (25000, digits 2),
    (25000, digits 6), (25000, digits 1)] 25000 5 _
  kind6 := stretch_wordRuns [(1, 8), (24999, digits 0), (25000, digits 4), (25000, digits 2),
    (25000, digits 6), (25000, digits 1), (25000, digits 5)] 24999 3 _
  kind7 := stretch_wordRuns [(1, 8), (24999, digits 0), (25000, digits 4), (25000, digits 2),
    (25000, digits 6), (25000, digits 1), (25000, digits 5), (24999, digits 3)] 25000 7 _

theorem Tail.append {second : List UInt32} (h : Tail second 0) (first : List UInt32) :
    Tail (first ++ second) first.length := by
  obtain ⟨hlength, hword, h0, h1, h2, h3, h4, h5, h6, h7⟩ := h
  rw [Nat.zero_add] at *
  refine ⟨by rw [List.length_append,
    hlength], ?_, h0.append_right, h1.append_right, h2.append_right, h3.append_right,
    h4.append_right, h5.append_right, h6.append_right, h7.append_right⟩
  rw [List.getD_append_right _ _ _ _ le_rfl, Nat.sub_self]
  exact hword

theorem Tail.zeros {base : ℕ} (h : Tail noise base) {n : ℕ} (hlo : base * 32 + 4 ≤ n)
    (hhi : n < (base + 25000) * 32) : aisBitTest noise n = 0 := by
  by_cases hword : n < (base + 1) * 32
  · have hzero : ∀ y < 32, 4 ≤ y → Nat.testBit (8 : UInt32).toNat y = false := by decide
    unfold aisBitTest
    rw [show n / 32 =
      base by omega, h.word, hzero _ (Nat.mod_lt _ (by decide)) (by omega), Bool.toNat_false]
  · rw [h.kind0.aisBitTest (by decide) (by omega) (by omega), Nat.zero_testBit, Bool.toNat_false]

/-- The other kinds, at the offset of the first buffer and at the one in a buffer of its own. -/
theorem Tail.test7b {base : ℕ} (h : Tail noise base) (offs r i next : ℕ)
    (hr : r = noise.length * 32 - offs) (hnext : i + 174999 * 32 = next) {start : ℕ → ℕ}
    (hq : Filled (seqBitx 3) 1 start q)
    (hstart : ∀ k < 2 ^ 3, 1 ≤ k → start k = if k = 6 then 4 else 0)
    (hoffs : i + offs = (base + 25000) * 32 ∨ i + offs = (base + 25000) * 32 + 4) :
    ∃ s, seqLoop 3 (seqBitx 3) (fun n ↦ aisBitTest noise (n + offs)) r r i q = (next, s) ∧
      s.testState = .eval ∧ s.einsen = q.einsen := by
  have hlength := h.length
  have hroom : ∀ k < 2 ^ 3, 1 ≤ k → k ≠ 6 → start k + (99999 + 1) = aisLength := by
    intro k hk hpos hne
    rw [hstart k hk hpos, if_neg hne]
    rfl
  obtain ⟨q1, hloop1, hq1, -, heinsen1⟩ := hq.stretch h.kind1 offs r i 99999 (i + 25000 * 32)
    (hroom 1 (by decide) le_rfl (by decide)) (by omega) (.inr rfl)
      (by decide) rfl (by decide) (by decide) (by omega) (by omega) (by omega) (by omega)
  obtain ⟨q2, hloop2, hq2, -, heinsen2⟩ :=
    hq1.stretch h.kind2 offs r (i + 25000 * 32) 99999 (i + 50000 * 32)
    (hroom 2 (by decide) (by decide) (by decide)) (by omega) (.inr rfl)
      (by decide) rfl (by decide) (by decide) (by omega) (by omega) (by omega) (by omega)
  obtain ⟨q3, hloop3, hq3, -, heinsen3⟩ :=
    hq2.stretch h.kind3 offs r (i + 50000 * 32) 99999 (i + 75000 * 32)
    (hroom 3 (by decide) (by decide) (by decide)) (by omega) (.inr rfl)
      (by decide) rfl (by decide) (by decide) (by omega) (by omega) (by omega) (by omega)
  obtain ⟨q4, hloop4, hq4, -, heinsen4⟩ :=
    hq3.stretch h.kind4 offs r (i + 75000 * 32) 99999 (i + 100000 * 32)
    (hroom 4 (by decide) (by decide) (by decide)) (by omega) (.inr rfl)
      (by decide) rfl (by decide) (by decide) (by omega) (by omega) (by omega) (by omega)
  obtain ⟨q5, hloop5, hq5, -, heinsen5⟩ :=
    hq4.stretch h.kind5 offs r (i + 100000 * 32) 99999 (i + 125000 * 32)
    (hroom 5 (by decide) (by decide) (by decide)) (by omega) (.inr rfl)
      (by decide) rfl (by decide) (by decide) (by omega) (by omega) (by omega) (by omega)
  obtain ⟨q6, hloop6, hq6, -, heinsen6⟩ :=
    hq5.stretch h.kind6 offs r (i + 125000 * 32) 99995 (i + 149999 * 32)
    (by rw [hstart 6 (by decide) (by decide), if_pos rfl]; rfl) (by omega) (.inr rfl)
      (by decide) rfl (by decide) (by decide) (by omega) (by omega) (by omega) (by omega)
  obtain ⟨q7, hloop7, hq7, -, heinsen7⟩ :=
    hq6.stretch h.kind7 offs r (i + 149999 * 32) 99999 (i + 174999 * 32)
    (hroom 7 (by decide) (by decide) (by decide)) (by omega) (.inr rfl)
      (by decide) rfl (by decide) (by decide) (by omega) (by omega) (by omega) (by omega)
  have heval : q7.testState = .eval := hq7.testState.trans (if_pos rfl)
  refine ⟨q7, ?_, heval, ?_⟩
  · rw [hloop1, hloop2, hloop3, hloop4, hloop5, hloop6, hloop7,
      seqLoop_of_ne (by simp [heval]), hnext]
  · rw [heinsen7, heinsen6, heinsen5, heinsen4, heinsen3, heinsen2, heinsen1]

theorem einsen_single (hproc : p.procState = .init) (hsix : verdicts.test6a 0 = true)
    (hsixb : verdicts.test6b 0 100000 = true) :
    (aisProcedureB verdicts p (cutFirst ++ cutSecond)).1.procState = .done ∧
      (aisProcedureB verdicts p (cutFirst ++ cutSecond)).1.einsen 0 = 0 := by
  have hhead := head_cutFirst.append cutSecond
  have htail := tail_cutSecond.append cutFirst
  have hlength := htail.length
  have hbegin : p.started.testState = .init ∧ p.started.results = [] := by
    unfold started
    rw [hproc]
    exact ⟨rfl, rfl⟩
  rw [length_cutFirst] at htail hlength
  rw [aisProcedureB_of_init hproc]
  generalize cutFirst ++ cutSecond = noise at *
  obtain ⟨q, more, hrun, hq, -, -, hresults⟩ := hhead.tests hbegin.1 hbegin.2 hsix hsixb
  obtain ⟨q0, hloop, hfilled, hstart, hzero, -, -⟩ :=
    @Head.test7b q noise hhead hq (noise.length * 32 - 2100004) (by omega)
  obtain ⟨q1, hloop1, hq1, -, heinsen1⟩ := @Filled.fill 3 (seqBitx 3) (noise.length * 32 - 2100004)
    (fun n ↦ aisBitTest noise (n + 2100004)) q0 0 99999 32 800032 _ (fun _ ↦
      0) hfilled (by decide) (by decide)
    (fun n hn j hj ↦ htail.zeros (by omega) (by omega)) rfl (by omega)
        (by rw [hstart 0 (by decide), if_neg (by decide)]; rfl) rfl
  obtain ⟨s, hloop2, heval, heinsen2⟩ := htail.test7b 2100004 (noise.length * 32 - 2100004) 800032
    6400000 rfl rfl hq1 (fun k hk _ ↦ hstart k hk) (.inr (by omega))
  obtain ⟨hdone, heinsen⟩ := @tests_three_done verdicts q s noise 2100004 6400000 8500004
    (hloop.trans (hloop1.trans hloop2)) heval
    rfl
    (by rw [Nat.shiftRight_eq_div_pow, hlength]; unfold test8K test8Q; omega) more hresults
  rw [hrun]
  refine ⟨hdone, ?_⟩
  rw [heinsen, heinsen2, heinsen1, update_self, hzero]

theorem call_cutFirst (hproc : p.procState = .init) (hsix : verdicts.test6a 0 = true)
    (hsixb : verdicts.test6b 0 100000 = true) :
    ∃ q, (aisProcedureB verdicts p cutFirst).1 = q ∧ q.procState = .input ∧ q.testId = 3 ∧
      q.einsen 0 = 0 ∧
      Filled (seqBitx 3) 0 q.counter q ∧ (∀ k < 2 ^ 3, q.counter k = if k = 6 then 4 else 0) ∧
      ∃ more, q.results = 1 :: 257 :: more := by
  have hbegin : p.started.testState = .init ∧ p.started.results = [] ∧
    p.started.procState = .input := by
    unfold started
    rw [hproc]
    exact ⟨rfl, rfl, rfl⟩
  rw [aisProcedureB_of_init hproc]
  obtain ⟨q, more, hrun, hq, hid, hqproc, hresults⟩ :=
    head_cutFirst.tests hbegin.1 hbegin.2.1 hsix hsixb
  have hbits : cutFirst.length * 32 - 2100004 = 28 := by rw [length_cutFirst]
  obtain ⟨q0, hloop, hfilled, hstart, hzero, hdeadman, hresults0⟩ :=
    @Head.test7b q cutFirst head_cutFirst hq 28 le_rfl
  rw [@seqLoop_of_le 3 (seqBitx 3) 28 _ q0 32 (by decide)] at hloop
  have hstate : q0.testState = .input := hfilled.testState.trans (if_neg (by decide))
  have hran : (aisSeq verdicts q cutFirst 2100004 3).1 = q0.used 32 := by
    have hinput : seqInput cutFirst 2100004 3 (q.seqBegin 3) = (32, q0) := by
      unfold seqInput
      rw [hbits]
      exact hloop
    unfold aisSeq
    rw [hinput]
    refine seqEnd_of_lt ?_ ?_
    · unfold used
      rw [hstate]
      decide
    · unfold used
      rw [hdeadman]
      decide
  have hkeeps := @keeps_aisSeq verdicts q cutFirst 2100004 3
  rw [hran] at hkeeps
  rw [hrun, tests, test_tuple (by decide) (by decide)]
  rw [hran, if_pos (by exact hstate)]
  refine ⟨_, rfl, hkeeps.procState.trans (hqproc.trans hbegin.2.2), hkeeps.testId.trans hid, hzero,
    ⟨hfilled.full, hfilled.bridge, hfilled.testState, fun _ _ ↦ rfl⟩, hstart, more, ?_⟩
  rw [← hresults]
  exact hresults0

theorem call_cutSecond (hproc : p.procState = .input) (hid : p.testId = 3) (hzero : p.einsen 0 = 0)
    (hfilled : Filled (seqBitx 3) 0 p.counter p)
    (hstart : ∀ k < 2 ^ 3, p.counter k = if k = 6 then 4 else 0) {more : List ℕ}
    (hresults : p.results = 1 :: 257 :: more) :
    (aisProcedureB verdicts p cutSecond).1.procState = .done ∧
      (aisProcedureB verdicts p cutSecond).1.einsen 0 = 1 := by
  have htail := tail_cutSecond
  have hlength := htail.length
  rw [aisProcedureB_of_input hproc, hid]
  generalize cutSecond = noise at *
  have hstate : p.testState = .input := hfilled.testState.trans (if_neg (by decide))
  have hbegin : p.seqBegin 3 = p := if_neg (by simp [hstate])
  obtain ⟨r, hr⟩ : ∃ r, r = noise.length * 32 - 0 := ⟨_, rfl⟩
  have hblock := @seqLoop_block 3 (seqBitx 3) r (fun n ↦ aisBitTest noise (n + 0)) (fun j ↦
    if j = 3 then 1 else 0) 0 0
    (p.timed r)
    (fun n hn j hj ↦ by
      have hword : ∀ y ≤ 3, (Nat.testBit (8 : UInt32).toNat y).toNat = if y = 3 then 1 else 0 := by
        decide
      unfold aisBitTest
      rw [show (0 + n * 2 ^ 3 + j + 0) / 32 =
        0 by omega, htail.word, show (0 + n * 2 ^ 3 + j + 0) % 32 = j by omega, hword j hj])
    (by omega) hfilled.bridge hstate
    (by rw [show (p.timed r).full = p.full from rfl, hfilled.full]; rfl)
    (by rw [show (p.timed r).counter = p.counter from rfl, hstart _ (by decide)]; decide)
  have hnone : p.counter 0 = 0 := hstart 0 (by decide)
  have hfirst :
    Filled (seqBitx 3) 0 (update p.counter 0 1) (tally (seqBitx 3) 0 1 1 (p.timed r)) := by
    have hroom : p.counter 0 + 1 ≠ aisLength := by
      rw [hnone]
      decide
    unfold tally timed
    refine ⟨?_, rfl, ?_, fun k _ ↦ by rw [hnone]⟩
    · rw [if_neg hroom, hfilled.full]
    · rw [if_neg fun hfull ↦ hroom hfull.1, hfilled.testState]
  obtain ⟨q1, hloop1, hq1, -, heinsen1⟩ :=
    @Filled.fill 3 (seqBitx 3) r (fun n ↦ aisBitTest noise (n + 0)) _ 0 99998 8 800000
    _ (fun _ ↦ 0) hfirst
      (by decide) (by decide) (fun n hn j hj ↦ htail.zeros (by omega) (by omega)) rfl (by omega)
    (by rw [update_self]; rfl) rfl
  obtain ⟨s, hloop2, heval, heinsen2⟩ := htail.test7b 0 r 800000 6399968 hr rfl hq1
    (fun k hk hpos ↦ by rw [update_of_ne (by omega), hstart k hk]) (.inl (by omega))
  have hinput : seqInput noise 0 3 (p.seqBegin 3) = (6399968, s) := by
    unfold seqInput
    rw [hbegin, ← hr]
    exact hblock.trans (hloop1.trans hloop2)
  obtain ⟨hdone, heinsen⟩ := @tests_three_done verdicts p s noise 0 6399968 6399968 hinput heval rfl
    (by rw [Nat.shiftRight_eq_div_pow, hlength]; unfold test8K test8Q; omega) more hresults
  refine ⟨hdone, ?_⟩
  rw [show 5 - 3 = 2 from rfl, heinsen, heinsen2, heinsen1, update_self]
  unfold tally timed
  dsimp only
  rw [update_self, hzero]

end ProcB

/-! ### Both procedures -/

structure ProcA.SameCounts (p q : ProcA) : Prop where
  procState : p.procState = q.procState
  sample : p.sample = q.sample
  counts : p.counts = q.counts
  results : p.results = q.results

/-- Buffer by buffer, the procedures count what they count in a single buffer. Procedure B does so
as long as the timer ends no test and the buffers do not end inside a tuple. A run in a single
buffer that is to be repeated is not complete. -/
theorem sameCounts_of_undisturbed (verdicts : Verdicts) {a : ProcA} {b : ProcB}
    (ha : a.procState = .init) (hb : b.procState = .init) {buffers : List (List UInt32)}
    (hne : buffers ≠ []) : ((aisProcedureA a buffers.flatten).1.procState ≠ .retry →
      ProcA.SameCounts (feedA a buffers) (aisProcedureA a buffers.flatten).1) ∧
    ((aisProcedureB verdicts b buffers.flatten).1.procState ≠ .retry →
      ProcB.Undisturbed verdicts b buffers →
      ProcB.SameCounts (feedB verdicts b buffers)
      (aisProcedureB verdicts b buffers.flatten).1) := by
  refine ⟨fun hretry ↦ ?_, ProcB.feedB_flatten hb hne⟩
  rw [ProcA.feedA_flatten ha hne hretry]
  exact ⟨rfl, rfl, rfl, rfl⟩

/-- Contexts that have run no test. -/
def freshA : ProcA :=
  { procState := .init, procRetry := 0, testState := .init, bytesUsed := 0, chain5 := [],
    options := 0, aux := [],
    sample := [], counts := [], results := [] }

def freshB : ProcB :=
  { procState := .init, procRetry := 0, testId := 0, testState := .init, bitsUsed := 0, bridge := 0,
    counter := fun _ ↦ 0,
    einsen := fun _ ↦ 0, full := 0, deadman := 0, lastpos := fun _ ↦
      0, distances := [], results := [] }

def lenient : Verdicts := ⟨fun _ ↦ false, fun _ _ ↦ false, fun _ _ ↦ false, fun _ ↦ false⟩

namespace ProcB

variable {verdicts : Verdicts} {p : ProcB} {noise : List UInt32} {offs : ℕ}

structure Waiting (count : ℕ) (p : ProcB) : Prop where
  testState : p.testState = .input
  full : p.full = 0
  bridge : p.bridge = 0
  deadman : p.deadman = 0
  counter : p.counter 0 = count

theorem Waiting.seqInput {count m : ℕ} (h : Waiting count p) (hzero : ∀ n, aisBitTest noise n = 0)
    (hbits : noise.length * 32 - offs = (m + 1) * 2) (hroom : count + (m + 1) < aisLength) :
    Waiting (count + (m + 1)) (p.seqInput noise offs 1).2 := by
  have hcounter := h.counter
  have hblock :=
    @seqLoop_block 1 (seqBitx 1) ((m + 1) * 2) (fun n ↦ aisBitTest noise (n + offs)) (fun _ ↦ 0) m 0
    (p.timed ((m + 1) * 2)) (fun _ _ _ _ ↦ hzero _) (by omega) h.bridge h.testState
    (by rw [show (p.timed ((m + 1) * 2)).full = p.full from rfl, h.full, Nat.zero_and])
    (by change p.counter 0 + (m + 1) ≤ aisLength; omega)
  rw [@seqLoop_of_le 1 (seqBitx 1) ((m + 1) * 2) _ _ (0 + (m + 1) * 2 ^ 1) (by omega)] at hblock
  have hinput : (p.seqInput noise offs 1).2 =
    tally (seqBitx 1) 0 0 (m + 1) (p.timed ((m + 1) * 2)) := by
    unfold ProcB.seqInput
    rw [hbits, hblock]
    rfl
  have hopen : p.counter 0 + (m + 1) ≠ aisLength := by omega
  rw [hinput]
  unfold tally timed
  refine ⟨?_, ?_, rfl, rfl, ?_⟩
  · rw [if_neg fun hfull ↦ hopen hfull.1, h.testState]
  · rw [if_neg hopen, h.full]
  · change update p.counter 0 (p.counter 0 + (m + 1)) 0 = count + (m + 1)
    rw [update_self, hcounter]

theorem Waiting.aisSeq {count m : ℕ} (h : Waiting count (p.seqBegin 1))
    (hzero : ∀ n, aisBitTest noise n = 0) (hbits : noise.length * 32 - offs = (m + 1) * 2)
    (hroom : count + (m + 1) < aisLength) :
    Waiting (count + (m + 1)) (aisSeq verdicts p noise offs 1).1 := by
  have hinput := h.seqInput hzero hbits hroom
  unfold ProcB.aisSeq
  dsimp only
  rw [seqEnd_of_lt
    (by exact hinput.testState.trans_ne (by decide)) (by exact hinput.deadman.trans_lt (by decide))]
  exact ⟨hinput.testState, hinput.full, hinput.bridge, hinput.deadman, hinput.counter⟩

/-- Some words of zeros more than test 6a needs: test 6b is under way, at the end of a pair. -/
theorem started_zeros {words : ℕ} (hproc : p.procState = .init)
    (hzero : ∀ n, aisBitTest noise n = 0) (hlength : noise.length = 3126 + words)
    (hroom : words < 3000) : Waiting (16 * (words + 1)) (aisProcedureB verdicts p noise).1 ∧
      (aisProcedureB verdicts p noise).1.procState = .input ∧
      (aisProcedureB verdicts p noise).1.testId = 1 ∧
      WholeTuples verdicts noise 5 0 p.started 0 := by
  have hbegin : p.started.testState = .init ∧ p.started.procState = .input := by
    unfold started
    rw [hproc]
    exact ⟨rfl, rfl⟩
  obtain ⟨hend, hdone, -⟩ :=
    @test6a_zeros verdicts p.started noise hbegin.1 (by unfold aisLength; omega) fun n _ ↦ hzero n
  have hkeeps := @keeps_test6a verdicts p.started noise 0 0
  obtain ⟨s, hs⟩ : ∃ s, s = ({ (test6a verdicts p.started noise 0 0).1 with
    testId := 1, testState := .init } : ProcB) :=
    ⟨_, rfl⟩
  have hinit : s.testState = .init := by rw [hs]
  have hwaits : Waiting 0 (s.seqBegin 1) := by
    unfold seqBegin
    rw [if_pos hinit]
    exact ⟨rfl, rfl, rfl, rfl, rfl⟩
  have hbits : noise.length * 32 - aisLength = (16 * words + 15 + 1) * 2 := by
    unfold aisLength
    omega
  have hwaiting := @Waiting.aisSeq verdicts s noise aisLength 0 (16 * words + 15) hwaits hzero hbits
    (by unfold aisLength; omega)
  have hkept := @keeps_aisSeq verdicts s noise aisLength 1
  have htest : test verdicts p.started noise 0 0 = test6a verdicts p.started noise 0 0 := test_zero
  have hpairs : test verdicts s noise aisLength 1 = aisSeq verdicts s noise aisLength 1 :=
    test_tuple (by decide) (by decide)
  have hcall : aisProcedureB verdicts p noise = ((aisSeq verdicts s noise aisLength 1).1, 0) := by
    rw [aisProcedureB_of_init hproc, tests, htest]
    rw [if_neg (by simp [hdone]), hend, Nat.zero_add, ← hs, tests, hpairs]
    exact if_pos hwaiting.testState
  refine ⟨?_, ?_, ?_, ?_⟩
  · rw [hcall]
    dsimp only
    rw [show 16 * (words + 1) = 0 + (16 * words + 15 + 1) by omega]
    exact hwaiting
  · rw [hcall]
    refine hkept.procState.trans ?_
    rw [hs]
    exact hkeeps.procState.trans hbegin.2
  · rw [hcall]
    refine hkept.testId.trans ?_
    rw [hs]
  · rw [WholeTuples, htest, if_neg (by simp [hdone]), hend, Nat.zero_add, ← hs, WholeTuples, hpairs,
      if_pos hwaiting.testState, hbits]
    exact fun _ _ ↦ ⟨_, Nat.mul_comm _ _⟩

end ProcB

theorem ProcA.testsA_short {p : ProcA} {data : List ℕ} (hnone : p.results = [])
    (hinit : p.testState = .init) (hshort : data.length < test0Used) :
    (p.testsA procReps data).1.procState = p.procState := by
  have hfirst : p.testA data = p.test0 data := by
    unfold testA testId
    rw [hnone]
    rfl
  have hbegun : p.begun = { p with testState := .input, aux := [] } := if_pos hinit
  have hopen : (p.test0 data).1 = { p with testState := .input, aux := data } := by
    unfold test0
    dsimp only
    rw [hbegun, List.nil_append, List.length_nil, Nat.sub_zero, List.take_of_length_le hshort.le,
      if_pos hshort]
  rw [show procReps = procReps - 1 + 1 from rfl, testsA, hnone, if_pos (by decide), hfirst]
  dsimp only
  rw [hopen]
  rfl

def zerosFirst : List UInt32 := wordRuns [(3126, digits 0)]

/-- Zeros that are cut between two pairs of test 6b. -/
theorem sameCounts_zeros :
    ProcA.SameCounts (feedA freshA [zerosFirst, [0]]) (aisProcedureA freshA (zerosFirst ++ [0])).1 ∧
      ProcB.SameCounts (feedB lenient freshB [zerosFirst, [0]])
        (aisProcedureB lenient freshB (zerosFirst ++ [0])).1 := by
  have hlength : zerosFirst.length = 3126 := length_wordRuns _
  have hzero : ∀ n, zerosFirst.getD n 0 = 0 := by
    intro n
    by_cases hn : n < 3126
    · exact getD_wordRuns [] 3126 (digits 0) [] (Nat.zero_le _) (by simpa using hn)
    · exact List.getD_eq_default _ _ (by omega)
  have hfirst : ∀ n, aisBitTest zerosFirst n = 0 := fun n ↦ by
    unfold aisBitTest
    rw [hzero]
    simp
  have hsecond : ∀ n, aisBitTest [0] n = 0 := fun n ↦ by
    unfold aisBitTest
    cases n / 32 <;> simp
  have hboth : ∀ n, aisBitTest (zerosFirst ++ [0]) n = 0 := by
    intro n
    by_cases hn : n < zerosFirst.length * 32
    · rw [aisBitTest_append_left hn, hfirst]
    · rw [@aisBitTest_append_right zerosFirst [0] n (n - zerosFirst.length * 32)
        (by omega), hsecond]
  generalize zerosFirst = first at *
  obtain ⟨hwaits, hproc, hid, hwhole⟩ :=
    @ProcB.started_zeros lenient freshB first 0 rfl hfirst hlength (by decide)
  obtain ⟨-, hproc', -⟩ :=
    @ProcB.started_zeros lenient freshB (first ++ [0]) 1 rfl hboth (by simp [hlength]) (by decide)
  have hflat : [first, [0]].flatten = first ++ [0] := by simp
  obtain ⟨hA, hB⟩ := @sameCounts_of_undisturbed lenient freshA freshB rfl rfl [first, [0]] (by simp)
  rw [hflat] at hA hB
  refine ⟨hA ?_, hB ?_ ⟨fun h ↦ absurd h (lt_irrefl _), fun _ ↦ hwhole, fun _ _ ↦ ?_, fun h ↦
    absurd rfl h, trivial⟩⟩
  · have hbytes : ∀ noise : List UInt32, (noiseBytes noise).length = noise.length * 4 := by
      intro noise
      unfold noiseBytes
      simp [List.length_flatMap]
    have hshort : (noiseBytes (first ++ [0])).length < test0Used := by
      rw [hbytes, List.length_append, hlength]
      decide
    have hopen : (aisProcedureA freshA (first ++ [0])).1.procState = .input :=
      ProcA.testsA_short (p := freshA.restart) rfl rfl hshort
    simp [hopen]
  · simp [hproc']
  · right
    have hresumed : (aisProcedureB lenient freshB first).1.seqBegin 1 =
      (aisProcedureB lenient freshB first).1 :=
      if_neg (by simp [hwaits.testState])
    rw [ProcB.started_of_input hproc, hid, hresumed]
    have hcounts := @ProcB.Waiting.seqInput _ [0] 0 _ 15 hwaits hsecond rfl (by decide)
    rw [hcounts.deadman]
    decide

/-- Both runs are complete, and one has counted a one behind a tuple that the other has not. Of the
verdicts it only matters that a test on zeros fails. -/
theorem sameCounts_cutTuple :
    ¬ ∃ verdicts : Verdicts, verdicts.test6a 0 = true ∧ verdicts.test6b 0 100000 = true ∧
      ∀ (b : ProcB) (buffers : List (List UInt32)), b.procState = .init → buffers ≠ [] →
      (∀ noise ∈ buffers, noise ≠ []) →
        (feedB verdicts b buffers).procState = .done →
        (aisProcedureB verdicts b buffers.flatten).1.procState = .done →
        ProcB.SameCounts (feedB verdicts b buffers)
        (aisProcedureB verdicts b buffers.flatten).1 := by
  rintro ⟨verdicts, hsix, hsixb, hsame⟩
  obtain ⟨q, hcall, hproc, hid, hzero, hfilled, hstart, more, hresults⟩ :=
    @ProcB.call_cutFirst verdicts freshB rfl hsix hsixb
  obtain ⟨hdone, heinsen⟩ :=
    @ProcB.call_cutSecond verdicts q hproc hid hzero hfilled hstart more hresults
  obtain ⟨hdone', heinsen'⟩ := @ProcB.einsen_single verdicts freshB rfl hsix hsixb
  have hfirst : cutFirst ≠ [] := List.ne_nil_of_length_pos (by rw [length_cutFirst]; decide)
  have hsecond : cutSecond ≠ [] := List.ne_nil_of_length_pos (by rw [length_cutSecond]; decide)
  generalize cutFirst = first at *
  generalize cutSecond = second at *
  have hfed : feedB verdicts freshB [first, second] = (aisProcedureB verdicts q second).1 := by
    rw [feedB, List.foldl_cons, List.foldl_cons, List.foldl_nil, hcall]
  have hflat : [first, second].flatten = first ++ second := by
    rw [List.flatten_cons, List.flatten_cons, List.flatten_nil, List.append_nil]
  have h :=
    hsame freshB [first, second] rfl
      (by simp) (by simp [hfirst, hsecond]) (by rw [hfed]; exact hdone)
    (by rw [hflat]; exact hdone')
  rw [hfed, hflat] at h
  have hones := congrFun h.einsen 0
  rw [heinsen, heinsen'] at hones
  exact absurd hones (by decide)

end CrossBreeder.Haveged
