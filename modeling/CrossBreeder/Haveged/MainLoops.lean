import CrossBreeder.Foundation.Transition
import CrossBreeder.Haveged.IoBuffer

/-!
# What haveged credits and writes

One collector: `havege_ndread` hands out the words of the collection buffer and fills it again when
it is used up, with the online tests on each fill, and `havege_rng` returns an error once a test has
failed. The two main loops only sleep on this error and then credit or write what is in the buffer.
`outputsTested_iff` says which runs put out tested words only, and `failedTest_credited` is one that
does not.
-/

namespace CrossBreeder.Haveged

open Foundation

/-! ### The collector -/

inductive HErr
  | noErr
  | noTestTot
  | noTestRun
  | exit
  deriving DecidableEq, Repr

/-- One round of the loop in `havege_ndread`: what `havege_gather` collects, and what the tests say.
-/
structure Round where
  words : List UInt32
  failed : Bool
  discard : Bool
  deriving DecidableEq, Repr

/-- `H_COLLECT`: the collection buffer, the words that were read from it, and `havege_err`. -/
structure Collector where
  result : List UInt32
  nptr : ℕ
  havegeErr : HErr
  deriving DecidableEq, Repr

/-- `havege_ndcreate` after the startup tests: nothing can be read before the first fill. -/
def ndcreate : Collector := ⟨[], 0, .noErr⟩

/-- The loop that fills the buffer. A failed test is reported, and ends it: `testsDiscard` is
negative then. -/
def fill : List Round → HErr → Option (Collector × List Round)
  | [], _ => none
  | round :: rest, err =>
    let err := if round.failed then .noTestRun else err
    if err = .noErr ∧ round.discard = true then
      fill rest err else some (⟨round.words, 0, err⟩, rest)

/-- `havege_ndread` with the rounds that its fills take. -/
def ndread (h : Collector) (rounds : List Round) : Option (UInt32 × Collector × List Round) :=
  if h.nptr < h.result.length then
    some (h.result.getD h.nptr 0, { h with nptr := h.nptr + 1 }, rounds)
  else (fill rounds h.havegeErr).map fun (h, rest) ↦ (h.result.getD 0 0, { h with nptr := 1 }, rest)

/-- The loop of `havege_rng`. -/
def readWords : ℕ → Collector → List Round → Option (List UInt32 × Collector × List Round)
  | 0, h, rounds => some ([], h, rounds)
  | sz + 1, h, rounds =>
    (ndread h rounds).bind fun (word, h, rounds) ↦
      (readWords sz h rounds).map fun (words, h, rounds) ↦ (word :: words, h, rounds)

/-- What `havege_rng` returns. -/
def rngResult (h : Collector) (sz : ℕ) : ℤ := if h.havegeErr = .noErr then sz else -1

/-! ### The loops -/

/-- Words that are put out, with the words that were asked for and what `havege_rng` returned. -/
structure Output where
  words : List UInt32
  bytes : ℕ
  requested : ℕ
  returned : ℤ
  deriving DecidableEq, Repr

/-- The bytes come from a call of `havege_rng` that succeeded for the full request. -/
structure Output.Tested (output : Output) : Prop where
  success : output.returned = output.requested
  words : output.words.length = output.requested
  bytes : output.bytes ≤ wordSize * output.requested

inductive Phase
  | daemon
  /-- The kernel has refused the entropy, and `run_app` starts. -/
  | refused
  /-- The loop of `run_app`, with the buffers that are left if there is a limit. -/
  | app (left : Option ℕ)
  | done
  deriving DecidableEq, Repr

structure Process where
  phase : Phase
  collector : Collector
  outputs : List Output
  deriving DecidableEq, Repr

/-- The numbers that do not change: the pool size, `buffersz`, and the bytes behind the last buffer.
-/
structure Params where
  poolSize : ℕ
  buffersz : ℕ
  bufres : ℕ

inductive LoopEvent
  /-- The loop of `run_daemon`: the entropy count, and whether the kernel takes the entropy. -/
  | credit (current : ℤ) (accepted : Bool) (rounds : List Round)
  /-- `havege_run` makes a new collector. -/
  | start
  /-- The loop of `run_app` with a random number. -/
  | write (rand : ℕ) (rounds : List Round)
  /-- The rest of `run_app`. -/
  | rest (rounds : List Round)

def LoopEvent.loopRounds : LoopEvent → List Round
  | .credit _ _ rounds => rounds
  | .write _ rounds => rounds
  | _ => []

/-- Words are read with all of some rounds and put out, whatever `havege_rng` returns. -/
def Process.emit (p : Process) (sz bytes : ℕ) (rounds : List Round) (phase : Phase) :
    Option Process :=
  (readWords sz p.collector rounds).bind fun (words, h, left) ↦
    if left = [] then some ⟨phase, h, p.outputs ++ [⟨words, bytes, sz, rngResult h sz⟩]⟩ else none

/-- One event. The rounds of an event are those that its reads take. -/
def Process.next (params : Params) (p : Process) : LoopEvent → Option Process
  | .credit current accepted rounds =>
    if p.phase ≠ .daemon then none
    else match daemonWords params.poolSize current with
      | none => if rounds = [] then some p else none
      | some sz =>
        p.emit sz (fillBytes params.poolSize current).toNat rounds (if accepted then .daemon
          else .refused)
  | .start => if p.phase ≠ .refused then none
    else some { p with phase := .app none, collector := ndcreate }
  | .write rand rounds =>
    let sz := appWords params.buffersz rand
    -- nothing was written: the program exits
    let stop := fun phase ↦ if sz = 0 then Phase.done else phase
    match p.phase with
    | .app none => p.emit sz (sz * wordSize) rounds (stop (.app none))
    | .app (some (left + 1)) => p.emit sz (sz * wordSize) rounds (stop (.app (some left)))
    | _ => none
  | .rest rounds =>
    if p.phase ≠ .app (some 0) then none
    else if restWords params.bufres = 0 then if rounds = [] then
      some { p with phase := .done } else none
    else (readWords (restWords params.bufres) p.collector rounds).bind fun (words, h, left) ↦
      if left ≠ [] then none
      -- this call is checked
      else if rngResult h (restWords params.bufres) < 1 then some ⟨.done, h, p.outputs⟩
      else some ⟨.done, h, p.outputs ++
        [⟨words, params.bufres, restWords params.bufres, rngResult h (restWords params.bufres)⟩]⟩

def Process.begin (phase : Phase) : Process := ⟨phase, ndcreate, []⟩

/-! ### A failed test stays -/

def AllPassed (rounds : List Round) : Prop := ∀ round ∈ rounds, round.failed = false

theorem allPassed_append {first second : List Round} :
    AllPassed (first ++ second) ↔ AllPassed first ∧ AllPassed second := by
  unfold AllPassed
  simp only [List.mem_append, or_imp, forall_and]

theorem fill_spec (rounds : List Round) :
    ∀ {err : HErr} {h : Collector} {rest : List Round}, fill rounds err = some (h, rest) →
      ∃ used, rounds = used ++ rest ∧ (h.havegeErr = .noErr ↔ err = .noErr ∧ AllPassed used) := by
  induction rounds with
  | nil => exact fun hfill ↦ absurd hfill (by simp [fill])
  | cons round rounds ih =>
    intro err h rest hfill
    unfold fill at hfill
    dsimp only at hfill
    have herr : (if round.failed then HErr.noTestRun else err) = .noErr ↔
      err = .noErr ∧ round.failed = false := by
      cases round.failed <;> simp
    generalize (if round.failed then HErr.noTestRun else err) = status at hfill herr
    split_ifs at hfill with hagain
    · obtain ⟨used, rfl, hiff⟩ := ih hfill
      refine ⟨round :: used, rfl, hiff.trans ?_⟩
      rw [herr]
      unfold AllPassed
      simp only [List.forall_mem_cons, and_assoc]
    · obtain ⟨rfl, rfl⟩ := Prod.mk.inj (Option.some.inj hfill)
      refine ⟨[round], rfl, herr.trans ?_⟩
      unfold AllPassed
      simp

theorem ndread_spec {h h' : Collector} {rounds rest : List Round} {word : UInt32}
    (hread : ndread h rounds = some (word, h', rest)) :
    ∃ used, rounds = used ++ rest ∧
      (h'.havegeErr = .noErr ↔ h.havegeErr = .noErr ∧ AllPassed used) := by
  unfold ndread at hread
  split_ifs at hread
  · simp only [Option.some.injEq, Prod.mk.injEq] at hread
    obtain ⟨-, rfl, rfl⟩ := hread
    exact ⟨[], rfl, by simp [AllPassed]⟩
  · obtain ⟨⟨filled, left⟩, hfill, heq⟩ := Option.map_eq_some_iff.mp hread
    simp only [Prod.mk.injEq] at heq
    obtain ⟨-, rfl, rfl⟩ := heq
    obtain ⟨used, hused, herr⟩ := fill_spec rounds hfill
    exact ⟨used, hused, herr⟩

theorem readWords_spec (sz : ℕ) :
    ∀ {h h' : Collector} {rounds rest : List Round} {words : List UInt32},
      readWords sz h rounds = some (words, h', rest) →
      words.length = sz ∧ ∃ used, rounds = used ++ rest ∧
        (h'.havegeErr = .noErr ↔ h.havegeErr = .noErr ∧ AllPassed used) := by
  induction sz with
  | zero =>
    intro h h' rounds rest words hread
    simp only [readWords, Option.some.injEq, Prod.mk.injEq] at hread
    obtain ⟨rfl, rfl, rfl⟩ := hread
    exact ⟨rfl, [], rfl, by simp [AllPassed]⟩
  | succ sz ih =>
    intro h h' rounds rest words hread
    obtain ⟨⟨word, middle, between⟩, hone, hread⟩ := Option.bind_eq_some_iff.mp hread
    obtain ⟨⟨others, last, left⟩, hmore, heq⟩ := Option.map_eq_some_iff.mp hread
    simp only [Prod.mk.injEq] at heq
    obtain ⟨rfl, rfl, rfl⟩ := heq
    obtain ⟨first, rfl, hfirst⟩ := ndread_spec hone
    obtain ⟨hlength, second, rfl, hsecond⟩ := ih hmore
    refine ⟨by rw [List.length_cons, hlength], first ++ second, (List.append_assoc _ _ _).symm, ?_⟩
    rw [hsecond, hfirst, allPassed_append, and_assoc]

/-- What is put out is tested if the collector had no error and all rounds passed, and not
otherwise. -/
theorem emit_spec {p p' : Process} {sz bytes : ℕ} {rounds : List Round} {phase : Phase}
    (hbytes : bytes ≤ wordSize * sz) (hemit : p.emit sz bytes rounds phase = some p') :
    ∃ output, p'.outputs = p.outputs ++ [output] ∧
      (output.Tested ↔ p.collector.havegeErr = .noErr ∧ AllPassed rounds) ∧
      (p'.collector.havegeErr = .noErr ↔ p.collector.havegeErr = .noErr ∧ AllPassed rounds) := by
  obtain ⟨⟨words, h, left⟩, hread, hleft⟩ := Option.bind_eq_some_iff.mp hemit
  obtain ⟨hlength, used, hused, herr⟩ := readWords_spec sz hread
  dsimp only at hleft
  split_ifs at hleft with hnone
  obtain rfl := Option.some.inj hleft
  rw [hnone, List.append_nil] at hused
  subst hused
  refine ⟨_, rfl, ?_, herr⟩
  rw [← herr]
  unfold rngResult
  constructor
  · intro htested
    by_contra hfailed
    have hsuccess := htested.success
    simp only [if_neg hfailed] at hsuccess
    omega
  · intro hpassed
    exact ⟨by simp [hpassed], hlength, hbytes⟩

variable {params : Params}

/-- One event adds to the outputs. When the collector had no error, what is added is tested if the
rounds passed, and only then; and the collector stays without an error, or the program is over. -/
theorem next_spec {p p' : Process} {event : LoopEvent} (hnext : p.next params event = some p') :
    ∃ added, p'.outputs = p.outputs ++ added ∧ (p.collector.havegeErr = .noErr →
      ((∀ output ∈ added, output.Tested) ↔ AllPassed event.loopRounds) ∧
      (AllPassed event.loopRounds → p'.collector.havegeErr = .noErr ∨ p'.phase = .done)) := by
  -- what both loops do
  have hloop : ∀ {sz bytes : ℕ} {rounds : List Round} {phase : Phase}, bytes ≤ wordSize * sz →
      p.emit sz bytes rounds phase = some p' →
      ∃ added, p'.outputs = p.outputs ++ added ∧ (p.collector.havegeErr = .noErr →
        ((∀ output ∈ added, output.Tested) ↔ AllPassed rounds) ∧
        (AllPassed rounds → p'.collector.havegeErr = .noErr ∨ p'.phase = .done)) := by
    intro sz bytes rounds phase hbytes hemit
    obtain ⟨output, houtputs, htested, herr⟩ := emit_spec hbytes hemit
    refine ⟨[output], houtputs, fun hclean ↦ ⟨?_, fun hpassed ↦ .inl (herr.mpr ⟨hclean, hpassed⟩)⟩⟩
    rw [List.forall_mem_singleton, htested]
    exact and_iff_right hclean
  have hpassed : AllPassed [] := by simp [AllPassed]
  cases event with
  | credit current accepted rounds =>
    dsimp only [Process.next] at hnext
    by_cases hphase : p.phase ≠ .daemon
    · rw [if_pos hphase] at hnext
      exact absurd hnext (by simp)
    rw [if_neg hphase] at hnext
    cases hwords : daemonWords params.poolSize current with
    | none =>
      simp only [hwords] at hnext
      split_ifs at hnext with hrounds
      obtain rfl := Option.some.inj hnext
      exact ⟨[], by simp, fun hclean ↦ ⟨by simp [LoopEvent.loopRounds, hrounds,
        hpassed], fun _ ↦ .inl hclean⟩⟩
    | some sz =>
      simp only [hwords] at hnext
      refine hloop ?_ hnext
      unfold daemonWords at hwords
      dsimp only at hwords
      split_ifs at hwords
      obtain rfl := Option.some.inj hwords
      unfold wordSize
      omega
  | start =>
    dsimp only [Process.next] at hnext
    split_ifs at hnext
    obtain rfl := Option.some.inj hnext
    exact ⟨[], by simp, fun _ ↦ ⟨by simp [LoopEvent.loopRounds, hpassed], fun _ ↦ .inl rfl⟩⟩
  | write rand rounds =>
    have hbytes : appWords params.buffersz rand * wordSize ≤
      wordSize * appWords params.buffersz rand := by
      rw [Nat.mul_comm]
    dsimp only [Process.next] at hnext
    split at hnext
    · exact hloop hbytes hnext
    · exact hloop hbytes hnext
    · exact absurd hnext (by simp)
  | rest rounds =>
    dsimp only [Process.next] at hnext
    split_ifs at hnext with hphase hzero hrounds
    · obtain rfl := Option.some.inj hnext
      exact ⟨[],
        by simp, fun hclean ↦ ⟨by simp [LoopEvent.loopRounds, hpassed], fun _ ↦ .inl hclean⟩⟩
    · obtain ⟨⟨words, h, left⟩, hread, hrest⟩ := Option.bind_eq_some_iff.mp hnext
      obtain ⟨hlength, used, -, -⟩ := readWords_spec _ hread
      split_ifs at hrest with hleft hfailed
      · obtain rfl := Option.some.inj hrest
        exact ⟨[], by simp, fun _ ↦ ⟨by simp [LoopEvent.loopRounds, hpassed], fun _ ↦ .inr rfl⟩⟩
      · obtain rfl := Option.some.inj hrest
        refine ⟨_, rfl, fun _ ↦ ⟨?_, fun _ ↦ .inr rfl⟩⟩
        rw [List.forall_mem_singleton]
        refine ⟨fun _ ↦ hpassed, fun _ ↦ ⟨?_, hlength, ?_⟩⟩
        · unfold rngResult at hfailed ⊢
          split_ifs at hfailed ⊢
          · rfl
          · omega
        · unfold restWords wordSize
          dsimp only
          omega

/-! ### Whole runs -/

def Process.Sound (p : Process) : Prop := p.collector.havegeErr = .noErr ∨ p.phase = .done

theorem next_of_done {p : Process} (hdone : p.phase = .done) (event : LoopEvent) :
    p.next params event = none := by
  cases event <;> simp [Process.next, hdone]

theorem outputs_grow (events : List LoopEvent) :
    ∀ {p last : Process}, runSteps (Process.next params) p events = some last →
      p.outputs <+: last.outputs := by
  induction events with
  | nil =>
    intro p last hrun
    obtain rfl := Option.some.inj hrun
    exact List.prefix_rfl
  | cons event events ih =>
    intro p last hrun
    obtain ⟨p', hnext, hrun⟩ := Option.bind_eq_some_iff.mp hrun
    obtain ⟨added, houtputs, -⟩ := next_spec hnext
    exact List.IsPrefix.trans ⟨added, houtputs.symm⟩ (ih hrun)

theorem run_spec (events : List LoopEvent) :
    ∀ {p last : Process}, p.Sound → (∀ output ∈ p.outputs, output.Tested) →
      runSteps (Process.next params) p events = some last →
      ((∀ output ∈ last.outputs, output.Tested) ↔ ∀ event ∈ events, AllPassed event.loopRounds) ∧
      ((∀ event ∈ events, AllPassed event.loopRounds) → last.Sound) := by
  induction events with
  | nil =>
    intro p last hsound htested hrun
    obtain rfl := Option.some.inj hrun
    exact ⟨by simpa using htested, fun _ ↦ hsound⟩
  | cons event events ih =>
    intro p last hsound htested hrun
    obtain ⟨p', hnext, hrun⟩ := Option.bind_eq_some_iff.mp hrun
    obtain hclean | hdone := hsound
    · obtain ⟨added, houtputs, hspec⟩ := next_spec hnext
      obtain ⟨hadded, hsound⟩ := hspec hclean
      rw [List.forall_mem_cons]
      by_cases hpassed : AllPassed event.loopRounds
      · have htested' : ∀ output ∈ p'.outputs, output.Tested := by
          rw [houtputs, List.forall_mem_append]
          exact ⟨htested, hadded.mpr hpassed⟩
        obtain ⟨hiff, hlast⟩ := ih (hsound hpassed) htested' hrun
        exact ⟨hiff.trans (and_iff_right hpassed).symm, fun hall ↦ hlast hall.2⟩
      · refine ⟨⟨fun hall ↦ absurd ?_ hpassed, fun hall ↦ absurd hall.1 hpassed⟩, fun hall ↦
          absurd hall.1 hpassed⟩
        -- the untested output of this event is still there at the end
        refine hadded.mp fun output hmem ↦ hall output ((outputs_grow events hrun).subset ?_)
        rw [houtputs]
        exact List.mem_append_right _ hmem
    · rw [next_of_done hdone] at hnext
      exact absurd hnext (by simp)

structure TestedOnly (params : Params) (phase : Phase) (events : List LoopEvent) (last : Process) :
    Prop where
  tested : ∀ output ∈ last.outputs, output.Tested
  silent : ∀ first second middle, events = first ++ second →
    runSteps (Process.next params) (.begin phase) first = some middle →
      middle.collector.havegeErr ≠ .noErr →
    last.outputs = middle.outputs

/-- A run puts out only tested words if and only if no online test fails in the fills that the loops
of `run_daemon` and `run_app` take. Only the last call of `havege_rng` in `run_app` is checked. -/
theorem outputsTested_iff {params : Params} {phase : Phase} {events : List LoopEvent}
    {last : Process} (hrun : runSteps (Process.next params) (.begin phase) events = some last) :
    TestedOnly params phase events last ↔ ∀ event ∈ events, AllPassed event.loopRounds := by
  have hsound : (Process.begin phase).Sound := .inl rfl
  have hnone : ∀ output ∈ (Process.begin phase).outputs, output.Tested := by simp [Process.begin]
  constructor
  · intro honly
    exact (run_spec events hsound hnone hrun).1.mp honly.tested
  · intro hpassed
    refine ⟨(run_spec events hsound hnone hrun).1.mpr hpassed, ?_⟩
    rintro first second middle rfl hfirst hfailed
    have hfirstPassed : ∀ event ∈ first, AllPassed event.loopRounds :=
      fun event hmem ↦ hpassed event (List.mem_append_left _ hmem)
    have hdone := ((run_spec first hsound hnone hfirst).2 hfirstPassed).resolve_left hfailed
    rw [runSteps_append, hfirst, Option.bind_some] at hrun
    cases second with
    | nil => rw [Option.some.inj hrun]
    | cons event second =>
      obtain ⟨_, hnext, -⟩ := Option.bind_eq_some_iff.mp hrun
      rw [next_of_done hdone] at hnext
      exact absurd hnext (by simp)

/-- A daemon that fills four bytes of a pool of 4096 bits, with one round of the collector. -/
def fourBytes (failed : Bool) : List LoopEvent := [.credit 4064 true [⟨[7, 8], failed, false⟩]]

theorem outputsTested_fourBytes :
    runSteps (Process.next ⟨4096, 32768, 0⟩) (.begin .daemon) (fourBytes false) =
      some ⟨.daemon, ⟨[7, 8], 1, .noErr⟩, [⟨[7], 4, 1, 1⟩]⟩ ∧
    TestedOnly ⟨4096, 32768, 0⟩ .daemon
      (fourBytes false) ⟨.daemon, ⟨[7, 8], 1, .noErr⟩, [⟨[7], 4, 1, 1⟩]⟩ := by
  have hrun : runSteps (Process.next ⟨4096, 32768, 0⟩) (.begin .daemon) (fourBytes false) =
      some ⟨.daemon, ⟨[7, 8], 1, .noErr⟩, [⟨[7], 4, 1, 1⟩]⟩ := by decide
  exact ⟨hrun, (outputsTested_iff hrun).mpr (by simp [fourBytes, LoopEvent.loopRounds, AllPassed])⟩

/-- The test fails, `havege_rng` returns -1, and the four bytes are credited. -/
theorem failedTest_credited :
    ¬ ∀ params phase events last, runSteps (Process.next params) (.begin phase) events = some last →
      TestedOnly params phase events last := by
  intro hall
  have hrun : runSteps (Process.next ⟨4096, 32768, 0⟩) (.begin .daemon) (fourBytes true) =
      some ⟨.daemon, ⟨[7, 8], 1, .noTestRun⟩, [⟨[7], 4, 1, -1⟩]⟩ := by decide
  have htested := (hall _ _ _ _ hrun).tested _ (List.mem_singleton_self _)
  exact absurd htested.success (by decide)

end CrossBreeder.Haveged
