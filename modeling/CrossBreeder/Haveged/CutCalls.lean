import CrossBreeder.Haveged.CutTests

/-!
# Procedure B over several buffers

A call on a buffer that leaves a test open, followed by a call on a second buffer, counts what a
single call on both counts (`tests_append_of_open`), and a call that ends the procedure does not
look at more input (`tests_append_of_ended`). By induction over the buffers (`feedB_append`), the
procedure counts what it counts in a single buffer (`feedB_flatten`), as long as it is
`Undisturbed`: the timer ends no test, and no buffer but the last ends inside a tuple.
-/

namespace CrossBreeder.Haveged

open Foundation Function

namespace ProcB

variable {verdicts : Verdicts} {p q : ProcB} {first second noise : List UInt32} {offs tid k : ℕ}

/-! ### A call over two buffers -/

/-- A test that counts tuples and that a buffer leaves open gets whole tuples only. -/
def WholeTuples (verdicts : Verdicts) (noise : List UInt32) : ℕ → ℕ → ProcB → ℕ → Prop
  | 0, _, _, _ => True
  | fuel + 1, i, p, ct =>
    if (test verdicts p noise ct i).1.testState = .input then
      0 < i → i < 4 → 2 ^ i ∣ noise.length * 32 - ct
    else WholeTuples verdicts noise fuel (i + 1)
      { (test verdicts p noise ct i).1 with testId := i + 1, testState := .init }
        (test verdicts p noise ct i).2

theorem tests_shift (fuel : ℕ) : ∀ i p ct, i + fuel = 5 →
    tests verdicts (first ++ second) fuel i p (first.length * 32 + ct) =
      tests verdicts second fuel i p ct := by
  induction fuel with
  | zero =>
    intro i p ct _
    rw [tests, tests]
  | succ fuel ih =>
    intro i p ct hi
    obtain ⟨hsame, hoffs⟩ := @test_shift verdicts p first second ct i
    rw [tests, tests]
    rw [hsame]
    split_ifs
    · rfl
    · obtain rfl | hlt : i = 4 ∨ i < 4 := by omega
      · obtain rfl : fuel = 0 := by omega
        rw [tests, tests]
      · rw [hoffs hlt]
        exact ih _ _ _ (by omega)

theorem wholeTuples_shift (fuel : ℕ) : ∀ i p ct, i + fuel = 5 →
    (WholeTuples verdicts (first ++ second) fuel i p (first.length * 32 + ct) ↔
      WholeTuples verdicts second fuel i p ct) := by
  induction fuel with
  | zero =>
    intro i p ct _
    rw [WholeTuples, WholeTuples]
  | succ fuel ih =>
    intro i p ct hi
    obtain ⟨hsame, hoffs⟩ := @test_shift verdicts p first second ct i
    rw [WholeTuples, WholeTuples, hsame]
    split_ifs
    · rw [show (first ++ second).length * 32 - (first.length * 32 + ct) = second.length * 32 - ct by
        rw [List.length_append]; omega]
    · obtain rfl | hlt : i = 4 ∨ i < 4 := by omega
      · obtain rfl : fuel = 0 := by omega
        rw [WholeTuples, WholeTuples]
      · rw [hoffs hlt]
        exact ih _ _ _ (by omega)

theorem Alike.begin (h : Alike k p q) (i : ℕ) :
    Alike k { p with testId := i, testState := .init }
    { q with testId := i, testState := .init } := by
  obtain ⟨used, deadman, hle, rfl⟩ := h.exists_eq
  exact ⟨rfl, hle⟩

theorem Alike.evaluate (h : Alike k p q) :
    Alike k (ProcB.evaluate { p with procState := .eval }).1
    (ProcB.evaluate { q with procState := .eval }).1 := by
  obtain ⟨used, deadman, hle, rfl⟩ := h.exists_eq
  unfold ProcB.evaluate
  dsimp only
  split_ifs
  · exact ⟨rfl, hle⟩
  · exact ⟨rfl, hle⟩

theorem Alike.tests (fuel : ℕ) : ∀ {i : ℕ} {p q : ProcB} {ct : ℕ}, i + fuel = 5 → Alike 0 p q →
    (0 < i → i < 4 → p.TimerHolds noise ct i) →
    Alike 0 (tests verdicts noise fuel i p ct).1 (tests verdicts noise fuel i q ct).1 ∧
      (WholeTuples verdicts noise fuel i p ct ↔ WholeTuples verdicts noise fuel i q ct) := by
  induction fuel with
  | zero => exact fun _ h _ ↦ ⟨h.evaluate, Iff.rfl⟩
  | succ fuel ih =>
    intro i p q ct hi h hholds
    obtain ⟨hoffs, halike⟩ := @Alike.test verdicts _ _ noise ct i h hholds (by omega)
    rw [ProcB.tests, ProcB.tests, WholeTuples, WholeTuples]
    rw [hoffs, halike.testState]
    split_ifs
    · exact ⟨halike, Iff.rfl⟩
    · exact ih (by omega) (halike.begin _) fun _ hlt ↦ timerHolds_of_init rfl hlt

/-- The counts of a call agree: the contexts are alike as long as there is a test under way. -/
structure Agree (p q : ProcB) : Prop where
  forget : p.forgetBridge = q.forgetBridge
  alike : p.procState = .input → Alike 0 p q

theorem Alike.agree (h : Alike 0 p q) : Agree p q := ⟨h.forgetBridge, fun _ ↦ h⟩

theorem evaluate_forgetBridge (h : p.forgetBridge = q.forgetBridge) :
    (evaluate { p with procState := .eval }).1.forgetBridge =
    (evaluate { q with procState := .eval }).1.forgetBridge := by
  have heval : ∀ s : ProcB, (evaluate { s with procState := .eval }).1.forgetBridge =
      (evaluate { s.forgetBridge with procState := .eval }).1.forgetBridge := by
    intro s
    unfold evaluate forgetBridge forget
    dsimp only
    split_ifs <;> rfl
  rw [heval p, h, ← heval q]

theorem evaluate_procState (p : ProcB) : (evaluate p).1.procState ≠ .input := by
  unfold evaluate
  dsimp only
  split_ifs <;> simp

/-! ### What the tests leave alone -/

structure Keeps (p q : ProcB) : Prop where
  testId : q.testId = p.testId
  procState : q.procState = p.procState
  results : p.results <+: q.results

theorem Keeps.refl (p : ProcB) : Keeps p p := ⟨rfl, rfl, List.prefix_rfl⟩

theorem Keeps.trans {p q s : ProcB} (h : Keeps p q) (h' : Keeps q s) : Keeps p s :=
  ⟨h'.testId.trans h.testId, h'.procState.trans h.procState, h.results.trans h'.results⟩

theorem keeps_record (tid : ℕ) (failed : Bool) : Keeps p (p.record tid failed) :=
  ⟨rfl, rfl, List.prefix_append _ _⟩

theorem keeps_test6a : Keeps p (test6a verdicts p noise offs tid).1 := by
  have hbegin : Keeps p p.test6aBegin := by
    unfold test6aBegin
    split_ifs
    · exact ⟨rfl, rfl, List.prefix_rfl⟩
    · exact .refl p
  have hloop : Keeps p (test6aInput noise offs p.test6aBegin).2 := by
    refine countLoop_invariant (P := Keeps p) ?_ _ _ _ hbegin
    exact fun _ _ _ h ↦ ⟨h.testId, h.procState, h.results⟩
  unfold test6a test6aEnd
  dsimp only
  split_ifs
  · exact ⟨hloop.testId, hloop.procState, hloop.results⟩
  · exact ⟨hloop.testId, hloop.procState, hloop.results.trans (List.prefix_append _ _)⟩

theorem keeps_seqTuple {uln2 mask limit : ℕ} {bit : ℕ → ℕ} :
    Keeps p (seqTuple uln2 mask bit limit p).1 := by
  unfold seqTuple
  dsimp only
  split_ifs <;> exact ⟨rfl, rfl, List.prefix_rfl⟩

theorem keeps_evalSeq : Keeps p (evalSeq verdicts p tid) := by
  unfold evalSeq
  split_ifs
  · exact keeps_record _ _
  · refine List.foldlRecOn (motive := Keeps p) _ _ (.refl p) ?_
    exact fun s hs _ _ ↦ hs.trans (keeps_record _ _)

theorem keeps_aisSeq : Keeps p (aisSeq verdicts p noise offs tid).1 := by
  have hbegin : Keeps p (p.seqBegin tid) := by
    unfold seqBegin
    split_ifs
    · exact ⟨rfl, rfl, List.prefix_rfl⟩
    · exact .refl p
  have hloop : Keeps p (seqInput noise offs tid (p.seqBegin tid)).2 :=
    seqLoop_invariant (P := Keeps p) (fun _ _ _ _ h ↦ h.trans keeps_seqTuple) _ _ _
      ⟨hbegin.testId, hbegin.procState, hbegin.results⟩
  unfold aisSeq seqEnd
  dsimp only
  split_ifs
  · exact ⟨hloop.testId, hloop.procState, hloop.results⟩
  · have heval := @keeps_evalSeq verdicts ((seqInput noise offs tid (p.seqBegin tid)).2.used
      (seqInput noise offs tid (p.seqBegin tid)).1) tid
    exact ⟨heval.testId.trans hloop.testId, heval.procState.trans hloop.procState,
      hloop.results.trans heval.results⟩

theorem keeps_test8 : Keeps p (test8 verdicts p noise offs tid).1 := by
  have hbegin : Keeps p p.test8Begin := by
    unfold test8Begin
    split_ifs
    · exact ⟨rfl, rfl, List.prefix_rfl⟩
    · exact .refl p
  have hloop : Keeps p (test8Input noise (offs >>> 3) p.test8Begin).2 := by
    refine countLoop_invariant (P := Keeps p) ?_ _ _ _ hbegin
    exact fun _ _ _ h ↦ ⟨h.testId, h.procState, h.results⟩
  unfold test8 test8End
  dsimp only
  split_ifs
  · exact ⟨hloop.testId, hloop.procState, hloop.results⟩
  · exact ⟨hloop.testId, hloop.procState, hloop.results.trans (List.prefix_append _ _)⟩

theorem keeps_test : Keeps p (test verdicts p noise offs tid).1 := by
  unfold test
  split_ifs
  · exact keeps_test8
  · exact keeps_test6a
  · exact keeps_aisSeq

/-! ### A call that is cut in two -/

theorem Fits.of_four_lt (htid : 4 < tid) : Fits noise tid offs :=
  ⟨by omega, by omega, by omega, by omega⟩

theorem tests_append_of_ended (fuel : ℕ) : ∀ {i : ℕ} {p q : ProcB} {ct : ℕ}, i + fuel = 5 →
    p.testState = .init → p.procState = .input → Alike 0 p q → Fits first i ct →
    (tests verdicts first fuel i p ct).1.procState ≠ .input →
    Alike 0 (tests verdicts first fuel i p ct).1
      (tests verdicts (first ++ second) fuel i q ct).1 := by
  induction fuel with
  | zero => exact fun _ _ _ h _ _ ↦ h.evaluate
  | succ fuel ih =>
    intro i p q ct hi hinit hproc h hfits hended
    rw [tests] at hended
    rw [tests, tests]
    by_cases hopen : (test verdicts p first ct i).1.testState = .input
    · rw [if_pos hopen] at hended
      exact absurd (keeps_test.procState.trans hproc) hended
    · rw [if_neg hopen] at hended
      obtain ⟨hoffs, halike⟩ :=
        @test_done_append verdicts p first second ct i hinit hfits (by omega) hopen
      obtain ⟨hoffs', halike'⟩ := @Alike.test verdicts p q (first ++ second) ct i h
        (fun _ hlt ↦ timerHolds_of_init hinit hlt) (by omega)
      have hwhole := halike.trans halike'
      rw [if_neg hopen, if_neg (by rw [← hwhole.testState]; exact hopen), ← hoffs', hoffs]
      have hnext : Fits first (i + 1) (test verdicts p first ct i).2 := by
        obtain rfl | hlt : i = 4 ∨ i < 4 := by omega
        · exact .of_four_lt (by omega)
        · exact hfits.next hinit hlt hopen
      exact ih (by omega) rfl (keeps_test.procState.trans hproc) (hwhole.begin _) hnext hended

/-- The first buffer has left a test open that reads bits. -/
theorem tests_open (htid : tid < 4) {fuel : ℕ} (hfuel : tid + (fuel + 1) = 5)
    (hinit : p.testState = .init) (h : Alike 0 p q) (hfits : Fits first tid offs)
    (hopen : (test verdicts p first offs tid).1.testState = .input)
    (hwhole : 0 < tid → 2 ^ tid ∣ first.length * 32 - offs)
    (hholds : 0 < tid → (test verdicts p first offs tid).1.TimerHolds second 0 tid) :
    Alike 0 (tests verdicts second (fuel + 1) tid (test verdicts p first offs tid).1 0).1
        (tests verdicts (first ++ second) (fuel + 1) tid q offs).1 ∧
      (WholeTuples verdicts second (fuel + 1) tid (test verdicts p first offs tid).1 0 →
        WholeTuples verdicts (first ++ second) (fuel + 1) tid q offs) := by
  obtain ⟨hoffs, halike⟩ :=
    @test_open_append verdicts p first second offs tid hinit hfits htid hopen hwhole hholds
  obtain ⟨hoffs', halike'⟩ := @Alike.test verdicts p q (first ++ second) offs tid h
    (fun _ hlt ↦ timerHolds_of_init hinit hlt) (by omega)
  have hboth := halike.trans halike'
  rw [tests, tests, WholeTuples, WholeTuples, ← hoffs', hoffs, ← hboth.testState]
  split_ifs with hmore
  · refine ⟨hboth, fun hpart hpos hlt ↦ ?_⟩
    have hbits := hfits.bits htid
    rw [List.length_append, show (first.length + second.length) * 32 - offs =
      (first.length * 32 - offs) + (second.length * 32 - 0) by omega]
    exact Nat.dvd_add (hwhole hpos) (hpart hpos hlt)
  · rw [tests_shift _ _ _ _ (by omega), wholeTuples_shift _ _ _ _ (by omega)]
    obtain ⟨hrest, hsame⟩ := @Alike.tests verdicts second fuel (tid + 1) _ _
      (test verdicts (test verdicts p first offs tid).1 second 0 tid).2
        (by omega) (hboth.begin (tid + 1))
      fun _ hlt ↦ timerHolds_of_init rfl hlt
    exact ⟨hrest, hsame.mp⟩

theorem tests_four : tests verdicts noise 1 4 p offs =
    if (test8 verdicts p noise offs 4).1.testState = .input then
      ((test8 verdicts p noise offs 4).1, 0)
    else evaluate
      { ({ (test8 verdicts p noise offs 4).1 with testId := 5, testState := .init } : ProcB) with
      procState := .eval } := by
  rw [tests, tests, test_four]

theorem tests_open_four (hinit : p.testState = .init) (h : Alike 0 p q) (hfits : Fits first 4 offs)
    (hopen : (test verdicts p first offs 4).1.testState = .input) :
    Agree (tests verdicts second 1 4 (test verdicts p first offs 4).1 0).1
        (tests verdicts (first ++ second) 1 4 q offs).1 ∧
      WholeTuples verdicts (first ++ second) 1 4 q offs := by
  have hbytes : offs >>> 3 ≤ first.length * 4 := by
    have hlt := hfits.bytes rfl
    rw [Nat.shiftRight_eq_div_pow]
    omega
  rw [test_four] at hopen ⊢
  obtain ⟨hforget, halike⟩ := (@test8_append verdicts p first second offs 4 hinit hbytes).2 hopen
  obtain ⟨-, hsame⟩ := @Alike.test8 verdicts p q (first ++ second) offs 4 h
  have hboth := hforget.trans hsame.forgetBridge
  rw [tests_four, tests_four, WholeTuples, test_four]
  generalize ProcB.test8 verdicts (ProcB.test8 verdicts p first offs 4).1 second 0 4 = next at *
  generalize ProcB.test8 verdicts q (first ++ second) offs 4 = whole at *
  have hstate : next.1.testState = whole.1.testState := by
    have hfields := congrArg (fun s : ProcB ↦ s.testState) hboth
    exact hfields
  rw [← hstate]
  split_ifs with hmore
  · exact ⟨((halike hmore).trans hsame).agree, fun _ hlt ↦ absurd hlt (lt_irrefl _)⟩
  · rw [WholeTuples]
    have hnext := congrArg (fun s : ProcB ↦ { s with testId := 5, testState := .init }) hboth
    have heval := @evaluate_forgetBridge { next.1 with testId := 5, testState := .init }
      { whole.1 with testId := 5, testState := .init } hnext
    exact ⟨⟨heval, fun hinput ↦ absurd hinput (evaluate_procState _)⟩, trivial⟩

/-- The call on the first buffer needs more input, and gets it from the second one. -/
theorem tests_append_of_open (fuel : ℕ) : ∀ {i : ℕ} {p q : ProcB} {ct : ℕ}, i + fuel = 5 →
    p.testState = .init →
    p.testId = i → Alike 0 p q → Fits first i ct → WholeTuples verdicts first fuel i p ct →
    ∀ {one : ProcB}, (tests verdicts first fuel i p ct).1 = one → one.procState = .input →
    (0 < one.testId → one.testId < 4 → one.TimerHolds second 0 one.testId) →
    Agree (tests verdicts second (5 - one.testId) one.testId one 0).1
      (tests verdicts (first ++ second) fuel i q ct).1 ∧
      (WholeTuples verdicts second (5 - one.testId) one.testId one 0 →
        WholeTuples verdicts (first ++ second) fuel i q ct) := by
  induction fuel with
  | zero =>
    intro i p q ct _ _ _ _ _ _ one hone hinput
    rw [← hone, tests] at hinput
    exact absurd hinput (evaluate_procState _)
  | succ fuel ih =>
    intro i p q ct hi hinit hid h hfits hwhole one hone hinput hholds
    rw [tests] at hone
    rw [WholeTuples] at hwhole
    by_cases hopen : (test verdicts p first ct i).1.testState = .input
    · rw [if_pos hopen] at hone hwhole
      have honeId : one.testId = i := by
        rw [← hone]
        exact keeps_test.testId.trans hid
      rw [honeId] at hholds ⊢
      rw [← hone] at hholds ⊢
      rw [show 5 - i = fuel + 1 by omega]
      obtain rfl | hlt : i = 4 ∨ i < 4 := by omega
      · obtain rfl : fuel = 0 := by omega
        obtain ⟨hagree, hrest⟩ := @tests_open_four verdicts p q first second ct hinit h hfits hopen
        exact ⟨hagree, fun _ ↦ hrest⟩
      · obtain ⟨halike, hrest⟩ := tests_open hlt hi hinit h hfits hopen (fun hpos ↦ hwhole hpos hlt)
          fun hpos ↦ hholds hpos hlt
        exact ⟨halike.agree, hrest⟩
    · rw [if_neg hopen] at hone hwhole
      obtain ⟨hoffs, halike⟩ :=
        @test_done_append verdicts p first second ct i hinit hfits (by omega) hopen
      obtain ⟨hoffs', halike'⟩ := @Alike.test verdicts p q (first ++ second) ct i h
        (fun _ hlt ↦ timerHolds_of_init hinit hlt) (by omega)
      have hboth := halike.trans halike'
      have hnext : Fits first (i + 1) (test verdicts p first ct i).2 := by
        obtain rfl | hlt : i = 4 ∨ i < 4 := by omega
        · exact .of_four_lt (by omega)
        · exact hfits.next hinit hlt hopen
      obtain ⟨hagree, hrest⟩ :=
        ih (i := i + 1) (by omega) rfl rfl (hboth.begin (i + 1)) hnext hwhole hone hinput hholds
      rw [tests, WholeTuples]
      rw [if_neg (by rw [← hboth.testState]; exact hopen),
            if_neg (by rw [← hboth.testState]; exact hopen), ← hoffs', hoffs]
      exact ⟨hagree, hrest⟩

/-! ### Buffer by buffer -/

/-- Where a call begins. -/
def started (p : ProcB) : ProcB :=
  match p.procState with
  | .init => { p with bitsUsed := 0, procRetry := 0 }.restart
  | .retry => p.restart
  | _ => p

/-- The timer ends no test, and a buffer that is followed by another one ends at the end of a tuple.
-/
def Undisturbed (verdicts : Verdicts) : ProcB → List (List UInt32) → Prop
  | _, [] => True
  | p, noise :: buffers =>
    (0 < p.started.testId → p.started.testId < 4 → p.started.TimerHolds noise 0 p.started.testId) ∧
      (buffers ≠ [] → WholeTuples verdicts noise (5 - p.started.testId) p.started.testId
        p.started 0) ∧
      Undisturbed verdicts (aisProcedureB verdicts p noise).1 buffers

theorem aisProcedureB_of_init (hproc : p.procState = .init) :
    aisProcedureB verdicts p noise = tests verdicts noise 5 0 p.started 0 := by
  unfold aisProcedureB started
  rw [hproc]
  rfl

theorem aisProcedureB_of_input (hproc : p.procState = .input) :
    aisProcedureB verdicts p noise = tests verdicts noise (5 - p.testId) p.testId p 0 := by
  unfold aisProcedureB
  rw [hproc]

theorem aisProcedureB_of_done (hproc : p.procState = .done) : aisProcedureB verdicts p noise =
    (p, 0) := by
  unfold aisProcedureB
  rw [hproc]

theorem started_of_input (hproc : p.procState = .input) : p.started = p := by
  unfold started
  rw [hproc]

theorem feedB_of_done (hproc : p.procState = .done) (buffers : List (List UInt32)) :
    feedB verdicts p buffers = p := by
  unfold feedB
  induction buffers with
  | nil => rfl
  | cons noise buffers ih => rw [List.foldl_cons, aisProcedureB_of_done hproc, ih]

theorem Alike.timerHolds (h : Alike 0 p q) (hholds : p.TimerHolds noise offs tid)
    (hstate : p.testState ≠ .init) :
    q.TimerHolds noise offs tid := by
  unfold TimerHolds seqBegin at hholds ⊢
  rw [if_neg hstate] at hholds
  rw [if_neg (h.testState ▸ hstate)]
  obtain ⟨-, hloop⟩ := @seqInput_alike _ _ noise offs tid _ h
  rw [← hloop.testState]
  exact hholds.imp_right hloop.deadman.trans_lt

theorem Alike.trans_agree {s : ProcB} (h : Alike 0 p q) (h' : Agree q s) : Agree p s :=
  ⟨h.forgetBridge.trans h'.forget, fun hinput ↦ h.trans (h'.alike (h.procState ▸ hinput))⟩

theorem Agree.procState (h : Agree p q) : p.procState = q.procState := by
  have hfields := congrArg (fun s : ProcB ↦ s.procState) h.forget
  exact hfields

theorem tests_cases (fuel : ℕ) : ∀ {i : ℕ} {p : ProcB} {ct : ℕ}, i + fuel = 5 → p.testId = i →
    p.procState = .input →
    (tests verdicts noise fuel i p ct).1.procState = .input ∧
      (tests verdicts noise fuel i p ct).1.testId ≤ 5 ∧
        (tests verdicts noise fuel i p ct).1.testState = .input ∨
      (tests verdicts noise fuel i p ct).1.procState = .done ∨
      (tests verdicts noise fuel i p ct).1.procState = .retry := by
  induction fuel with
  | zero =>
    intro i p ct _ _ _
    rw [tests]
    unfold evaluate
    dsimp only
    split_ifs
    · exact .inr (.inr rfl)
    · exact .inr (.inl rfl)
  | succ fuel ih =>
    intro i p ct hi hid hproc
    have hkeeps := @keeps_test verdicts p noise ct i
    rw [tests]
    split_ifs with hopen
    · refine .inl ⟨hkeeps.procState.trans hproc, ?_, hopen⟩
      rw [hkeeps.testId, hid]
      omega
    · exact ih (i := i + 1) (by omega) rfl (hkeeps.procState.trans hproc)

/-- What is left of the input, after a call on what is fed already. -/
theorem feedB_append (buffers : List (List UInt32)) :
    ∀ {s b : ProcB} {fed : List UInt32}, b.testState = .init → b.testId = 0 →
    b.procState = .input → Agree s (tests verdicts fed 5 0 b 0).1 →
    (buffers ≠ [] → WholeTuples verdicts fed 5 0 b 0) → Undisturbed verdicts s buffers →
    (tests verdicts (fed ++ buffers.flatten) 5 0 b 0).1.procState ≠ .retry →
    (feedB verdicts s buffers).forgetBridge =
      (tests verdicts (fed ++ buffers.flatten) 5 0 b 0).1.forgetBridge := by
  induction buffers with
  | nil =>
    intro s b fed _ _ _ hagree _ _ _
    rw [List.flatten_nil, List.append_nil]
    exact hagree.forget
  | cons noise buffers ih =>
    intro s b fed hinit hid hproc hagree hwhole hrest hretry
    have hfits : Fits fed 0 0 := ⟨fun _ ↦ rfl, fun _ ↦ dvd_zero _, fun _ ↦ Nat.zero_le _, by omega⟩
    rw [List.flatten_cons] at hretry ⊢
    obtain ⟨hinput, hle, hstate⟩ | hended := @tests_cases verdicts fed 5 0 b 0 rfl hid hproc
    · -- the test that is open goes on
      have halike := hagree.alike (hagree.procState.trans hinput)
      have hsInput := halike.procState.trans hinput
      have hholds := hrest.1
      have htuples := hrest.2.1
      have hlater := hrest.2.2
      rw [started_of_input hsInput] at hholds htuples
      have hone :=
        fun hpos hlt ↦ halike.timerHolds (hholds hpos hlt) (by rw [halike.testState, hstate]; simp)
      rw [halike.testId] at hone htuples
      obtain ⟨hcall, htuplesIff⟩ :=
        @Alike.tests verdicts noise (5 - (tests verdicts fed 5 0 b 0).1.testId)
        (tests verdicts fed 5 0 b 0).1.testId s (tests verdicts fed 5 0 b 0).1 0
          (by omega) halike (by rwa [← halike.testId])
      obtain ⟨hjoined, hjoinedTuples⟩ :=
        @tests_append_of_open verdicts fed noise 5 0 b b 0 rfl hinit hid (.refl b) hfits
        (hwhole (by simp)) _ rfl hinput hone
      rw [← List.append_assoc] at hretry ⊢
      rw [feedB, List.foldl_cons]
      refine ih hinit hid hproc ?_ (fun hne ↦ hjoinedTuples (htuplesIff.mp (htuples hne))) hlater
        hretry
      rw [aisProcedureB_of_input hsInput, halike.testId]
      exact hcall.trans_agree hjoined
    · -- the procedure has ended, and nothing changes any more
      have hnot : (tests verdicts fed 5 0 b 0).1.procState ≠ .input := by
        rcases hended with hend | hend <;> simp [hend]
      have hwholeRun := @tests_append_of_ended verdicts fed (noise ++ buffers.flatten) 5 0 b b 0 rfl
        hinit hproc (.refl b) hfits hnot
      have hdone := hended.resolve_right (by rwa [hwholeRun.procState])
      rw [feedB_of_done (hagree.procState.trans hdone)]
      exact hagree.forget.trans hwholeRun.forgetBridge

structure SameCounts (p q : ProcB) : Prop where
  procState : p.procState = q.procState
  counter : p.counter = q.counter
  einsen : p.einsen = q.einsen
  lastpos : p.lastpos = q.lastpos
  distances : p.distances = q.distances
  results : p.results = q.results

theorem sameCounts_of_forgetBridge (h : p.forgetBridge = q.forgetBridge) : SameCounts p q := by
  unfold forgetBridge forget at h
  simp only [mk.injEq] at h
  obtain ⟨hproc, -, -, -, -, -, hcounter, heinsen, -, -, hlastpos, hdistances, hresults⟩ := h
  exact ⟨hproc, hcounter, heinsen, hlastpos, hdistances, hresults⟩

theorem feedB_flatten (hproc : p.procState = .init) {buffers : List (List UInt32)}
    (hne : buffers ≠ []) (hretry : (aisProcedureB verdicts p buffers.flatten).1.procState ≠ .retry)
    (h : Undisturbed verdicts p buffers) :
    SameCounts (feedB verdicts p buffers) (aisProcedureB verdicts p buffers.flatten).1 := by
  obtain ⟨noise, buffers, rfl⟩ := List.exists_cons_of_ne_nil hne
  have hbegin : p.started.testState = .init ∧ p.started.testId = 0 ∧
    p.started.procState = .input := by
    unfold started
    rw [hproc]
    exact ⟨rfl, rfl, rfl⟩
  have htuples := h.2.1
  have hlater := h.2.2
  rw [hbegin.2.1] at htuples
  rw [aisProcedureB_of_init hproc] at hretry hlater ⊢
  rw [List.flatten_cons] at hretry ⊢
  rw [feedB, List.foldl_cons, aisProcedureB_of_init hproc]
  exact sameCounts_of_forgetBridge (feedB_append buffers hbegin.1 hbegin.2.1 hbegin.2.2
    (Alike.refl _).agree htuples hlater hretry)

end ProcB

end CrossBreeder.Haveged
