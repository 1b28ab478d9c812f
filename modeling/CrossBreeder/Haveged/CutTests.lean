import CrossBreeder.Haveged.TupleCounts
import Mathlib.Data.List.GetD

/-!
# The tests over two buffers

A test of procedure B that needs more input than a buffer has goes on in the next one. Test 6a, the
tests of tuples and test 8 each end with the counts that they would have if the two buffers were one
(`test6a_append`, `aisSeq_append`, `test8_append`): a test that is over in the first buffer does not
look at the second one (`test_done_append`), and one that is not over goes on in the second one
(`test_open_append`).
-/

namespace CrossBreeder.Haveged

open Foundation Function

/-! ### Bits and bytes of joined buffers -/

section Words

variable {first second : List UInt32}

theorem aisBitTest_append_left {n : ℕ} (hn : n < first.length * 32) :
    aisBitTest (first ++ second) n = aisBitTest first n := by
  unfold aisBitTest
  rw [List.getD_append _ _ _ _ (by omega)]

theorem aisBitTest_append_right {n k : ℕ} (hn : n = first.length * 32 + k) :
    aisBitTest (first ++ second) n = aisBitTest second k := by
  unfold aisBitTest
  rw [hn, show (first.length * 32 + k) / 32 = first.length + k / 32 by omega,
    show (first.length * 32 + k) % 32 = k % 32 by omega,
    List.getD_append_right _ _ _ _ (Nat.le_add_right _ _), Nat.add_sub_cancel_left]

theorem noiseByte_append_left {n : ℕ} (hn : n < first.length * 4) :
    noiseByte (first ++ second) n = noiseByte first n := by
  unfold noiseByte
  rw [List.getD_append _ _ _ _ (by omega)]

theorem noiseByte_append_right {n k : ℕ} (hn : n = first.length * 4 + k) :
    noiseByte (first ++ second) n = noiseByte second k := by
  unfold noiseByte
  rw [hn, show (first.length * 4 + k) / 4 = first.length + k / 4 by omega,
    show (first.length * 4 + k) % 4 = k % 4 by omega,
    List.getD_append_right _ _ _ _ (Nat.le_add_right _ _), Nat.add_sub_cancel_left]

end Words

namespace ProcB

variable {verdicts : Verdicts} {p q : ProcB} {first second noise : List UInt32} {offs tid k : ℕ}

/-! ### Test 6a -/

theorem test6aInput_shift : test6aInput (first ++ second) (first.length * 32 + offs) p =
    test6aInput second offs p := by
  unfold test6aInput
  have hbit : (fun i ↦ aisBitTest (first ++ second) (i + (first.length * 32 + offs))) =
      fun i ↦ aisBitTest second (i + offs) :=
    funext fun i ↦ aisBitTest_append_right (by omega)
  rw [hbit, show (first ++ second).length * 32 - (first.length * 32 + offs) =
    second.length * 32 - offs by
    rw [List.length_append]; omega]

theorem test6aBit_congr {bit bit' : ℕ → ℕ} {i j : ℕ} (hbit : bit i = bit' j) :
    test6aBit bit i p = test6aBit bit' j p := by
  unfold test6aBit
  rw [hbit]

theorem test6aInput_split (hoffs : offs ≤ first.length * 32) :
    test6aInput (first ++ second) offs p =
      countLoop test6aFull
        (test6aBit fun i ↦ aisBitTest (first ++ second) (i + offs)) (second.length * 32)
        (test6aInput first offs p).1 (test6aInput first offs p).2 := by
  have hfirst : test6aInput first offs p = countLoop test6aFull
      (test6aBit fun i ↦ aisBitTest (first ++ second) (i + offs)) (first.length * 32 - offs) 0
        p := by
    refine countLoop_congr _ _ _ fun j _ hj t _ ↦ ?_
    exact test6aBit_congr (aisBitTest_append_left (by omega)).symm
  rw [hfirst, ← countLoop_add]
  unfold test6aInput
  rw [show (first ++ second).length * 32 - offs = first.length * 32 - offs + second.length * 32 by
    rw [List.length_append]; omega]

theorem test6aInput_of_full (hoffs : offs ≤ first.length * 32)
    (hfull : aisLength ≤ (test6aInput first offs p).2.bridge) :
    test6aInput (first ++ second) offs p = test6aInput first offs p := by
  rw [test6aInput_split hoffs, countLoop_of_stop (by simpa [test6aFull] using hfull)]

theorem test6aInput_append (hoffs : offs ≤ first.length * 32)
    (hopen : (test6aInput first offs p).2.bridge < aisLength) :
    test6aInput (first ++ second) offs p =
      (first.length * 32 - offs + (test6aInput second 0 (test6aInput first offs p).2).1,
        (test6aInput second 0 (test6aInput first offs p).2).2) := by
  have hindex : (test6aInput first offs p).1 = first.length * 32 - offs + 0 := by
    have hgoes : test6aFull (test6aInput first offs p).2 = false := by
      simpa [test6aFull] using hopen
    exact (countLoop_fst_of_not_stop _ _ _ hgoes).trans (Nat.add_comm _ _)
  rw [test6aInput_split hoffs, hindex, countLoop_shift]
  have hbit : (fun j ↦ test6aBit (fun i ↦ aisBitTest (first ++ second) (i + offs))
    (first.length * 32 - offs + j)) =
      test6aBit fun i ↦ aisBitTest second (i + 0) := by
    funext j p
    exact test6aBit_congr (aisBitTest_append_right (by omega))
  rw [hbit]
  rfl

theorem test6aInput_alike (h : Alike k p q) :
    (test6aInput noise offs p).1 = (test6aInput noise offs q).1 ∧
      Alike k (test6aInput noise offs p).2 (test6aInput noise offs q).2 := by
  refine countLoop_rel ?_ ?_ _ _ _ _ h
  · intro s t hst
    unfold test6aFull
    rw [hst.bridge]
  · intro j s t hst
    obtain ⟨used, deadman, hle, rfl⟩ := hst.exists_eq
    exact ⟨rfl, hle⟩

/-! ### The tuples -/

theorem seqInput_shift :
    seqInput (first ++ second) (first.length * 32 + offs) tid p = seqInput second offs tid p := by
  unfold seqInput
  have hbit : (fun n ↦ aisBitTest (first ++ second) (n + (first.length * 32 + offs))) =
      fun n ↦ aisBitTest second (n + offs) :=
    funext fun n ↦ aisBitTest_append_right (by omega)
  rw [hbit, show (first ++ second).length * 32 - (first.length * 32 + offs) =
    second.length * 32 - offs by
    rw [List.length_append]; omega]

theorem seqInput_alike (h : Alike k p q) :
    (seqInput noise offs tid p).1 = (seqInput noise offs tid q).1 ∧
      Alike k (seqInput noise offs tid p).2 (seqInput noise offs tid q).2 := by
  refine seqLoop_alike _ _ _ _ ?_
  obtain ⟨used, deadman, hle, rfl⟩ := h.exists_eq
  refine ⟨rfl, ?_⟩
  unfold timed
  dsimp only
  omega

theorem testState_seqInput (hstate : p.testState = .input) :
    (seqInput noise offs tid p).2.testState = .input ∨
      (seqInput noise offs tid p).2.testState = .eval ∧ (seqInput noise offs tid p).2.deadman = 0 :=
  @testState_seqLoop tid (seqBitx tid) (noise.length * 32 - offs) (fun n ↦
    aisBitTest noise (n + offs))
    (noise.length * 32 - offs) 0 (p.timed (noise.length * 32 - offs)) hstate

theorem alike_timed (r more : ℕ) : Alike more (p.timed r) (p.timed (r + more)) :=
  ⟨rfl, (Nat.add_assoc _ _ _).ge⟩

theorem seqInput_of_eval (hoffs : offs ≤ first.length * 32) (hstate : p.testState = .input)
    (heval : (seqInput first offs tid p).2.testState = .eval) :
    (seqInput (first ++ second) offs tid p).1 = (seqInput first offs tid p).1 ∧
      Alike 0 (seqInput first offs tid p).2 (seqInput (first ++ second) offs tid p).2 := by
  have hlength : (first ++ second).length * 32 - offs =
    first.length * 32 - offs + second.length * 32 := by
    rw [List.length_append]
    omega
  have hend : first.length * 32 - offs + offs = first.length * 32 := by omega
  unfold seqInput at heval ⊢
  rw [hlength]
  generalize first.length * 32 - offs = r at *
  have hlonger :=
    @seqLoop_of_eval tid (seqBitx tid) r _ (fun n ↦ aisBitTest (first ++ second) (n + offs))
    (r + second.length * 32) (Nat.le_add_right _ _) (fun n hn ↦ aisBitTest_append_left (by omega)) r
    (r + second.length * 32) 0 (p.timed r) (Nat.le_add_right _ _) hstate heval
  obtain ⟨hindex, halike⟩ := @seqLoop_alike tid (seqBitx tid) (r + second.length * 32)
    (fun n ↦ aisBitTest (first ++ second) (n + offs)) _ (r + second.length * 32) 0 _ _
    (alike_timed r (second.length * 32))
  rw [hlonger] at hindex halike
  refine ⟨hindex.symm, halike.forget, ?_⟩
  -- the timer was reset in both
  obtain hinput | ⟨-, hzero⟩ := @testState_seqLoop tid (seqBitx tid) (r + second.length * 32)
    (fun n ↦ aisBitTest (first ++ second) (n + offs)) (r + second.length * 32) 0
      (p.timed (r + second.length * 32)) hstate
  · rw [halike.testState, hinput] at heval
    exact absurd heval (by simp)
  · rw [hzero]
    exact Nat.zero_le _

theorem seqInput_append (hoffs : offs ≤ first.length * 32)
    (hwhole : 2 ^ tid ∣ first.length * 32 - offs) (hbridge : p.bridge = 0)
    (hstate : p.testState = .input) (hopen : (seqInput first offs tid p).2.testState = .input) :
    (seqInput (first ++ second) offs tid p).1 =
        first.length * 32 - offs + (seqInput second 0 tid (seqInput first offs tid p).2).1 ∧
      Alike 0 (seqInput second 0 tid (seqInput first offs tid p).2).2
      (seqInput (first ++ second) offs tid p).2 := by
  have hlength : (first ++ second).length * 32 - offs =
    first.length * 32 - offs + second.length * 32 := by
    rw [List.length_append]
    omega
  have hend : first.length * 32 - offs + offs = first.length * 32 := by omega
  unfold seqInput at hopen ⊢
  rw [hlength, Nat.sub_zero]
  generalize first.length * 32 - offs = r at *
  -- the first buffer with the timer of both
  obtain ⟨-, hpart⟩ :=
    @seqLoop_alike tid (seqBitx tid) r (fun n ↦ aisBitTest first (n + offs)) _ r 0 _ _
    (alike_timed (p := p) r (second.length * 32))
  obtain ⟨-, -, hgoes⟩ := @seqLoop_append tid (seqBitx tid) r (fun n ↦ aisBitTest first (n + offs))
    (fun n ↦ aisBitTest (first ++ second) (n + offs)) (second.length * 32)
    (fun n hn ↦
      aisBitTest_append_left (by omega)) hwhole r 0 (p.timed (r + second.length * 32)) (dvd_zero _)
    (Nat.zero_le _) (by omega) hbridge hstate (hpart.testState.symm.trans hopen)
  generalize (seqLoop tid (seqBitx tid) (fun n ↦ aisBitTest first (n + offs)) r r 0 (p.timed r)).2 =
    one at *
  generalize (seqLoop tid (seqBitx tid) (fun n ↦ aisBitTest first (n + offs)) r r 0
    (p.timed (r + second.length * 32))).2 = other at *
  -- then the second one
  have hbit : (fun n ↦ aisBitTest (first ++ second) (r + n + offs)) =
    fun n ↦ aisBitTest second (n + 0) := by
    funext n
    exact aisBitTest_append_right (by omega)
  have hshift :=
    @seqLoop_shift tid (seqBitx tid) (fun n ↦ aisBitTest (first ++ second) (n + offs)) r
    (second.length * 32) (second.length * 32) 0 other
  rw [Nat.add_zero, hbit] at hshift
  rw [seqLoop_fuel _ (second.length * 32) r _ (by omega) le_rfl] at hgoes
  obtain ⟨hindex, halike⟩ := @seqLoop_alike tid (seqBitx tid) (second.length * 32)
    (fun n ↦ aisBitTest second (n + 0)) 0 (second.length * 32) 0 (one.timed (second.length * 32))
      other
    ⟨hpart.forget, hpart.deadman⟩
  rw [hgoes, hshift, hindex]
  exact ⟨rfl, halike⟩

/-! ### Test 8 -/

theorem test8Input_shift : test8Input (first ++ second) (first.length * 4 + offs) p =
    test8Input second offs p := by
  unfold test8Input
  have hbyte : (fun i ↦ noiseByte (first ++ second) (first.length * 4 + offs + (i - p.bridge))) =
      fun i ↦ noiseByte second (offs + (i - p.bridge)) :=
    funext fun n ↦ noiseByte_append_right (by omega)
  dsimp only
  rw [hbyte, show (first ++ second).length * 4 - (first.length * 4 + offs) =
    second.length * 4 - offs by
    rw [List.length_append]; omega]

/-- The context without `bridge`, which test 8 does not look at between its bytes. -/
def forgetBridge (p : ProcB) : ProcB := { p.forget with bridge := 0 }

theorem Alike.forgetBridge (h : Alike k p q) : p.forgetBridge = q.forgetBridge := by
  unfold ProcB.forgetBridge
  rw [h.forget]

theorem forgetBridge_test8Byte (byte : ℕ → ℕ) (i : ℕ) (h : p.forgetBridge = q.forgetBridge) :
    (test8Byte byte i p).forgetBridge = (test8Byte byte i q).forgetBridge := by
  have hcongr := congrArg (test8Byte byte i) h
  exact hcongr

theorem test8Byte_congr {byte byte' : ℕ → ℕ} {i : ℕ} (hbyte : byte i = byte' i) :
    test8Byte byte i p = test8Byte byte' i p := by
  unfold test8Byte
  rw [hbyte]

theorem test8Input_fst : (test8Input noise offs p).1 =
    p.bridge + (min (noise.length * 4 - offs + p.bridge) (test8K + test8Q) - p.bridge) :=
  countLoop_fst_of_not_stop _ _ _ rfl

theorem test8Input_eq (hbridge : p.bridge = 0) : test8Input noise offs p =
    countLoop (fun _ ↦ false) (test8Byte fun i ↦ noiseByte noise (offs + i))
      (min (noise.length * 4 - offs) (test8K + test8Q)) 0 p := by
  unfold test8Input
  simp only [hbridge, Nat.add_zero, Nat.sub_zero]

theorem test8Input_of_full (hbridge : p.bridge = 0) (hoffs : offs ≤ first.length * 4)
    (hfull : test8K + test8Q ≤ (test8Input first offs p).1) :
    test8Input (first ++ second) offs p = test8Input first offs p := by
  rw [test8Input_fst, hbridge] at hfull
  have henough : test8K + test8Q ≤ first.length * 4 - offs := by omega
  rw [test8Input_eq hbridge, test8Input_eq hbridge, min_eq_right henough,
    min_eq_right (by rw [List.length_append]; omega)]
  refine countLoop_congr _ _ _ fun j _ hj t _ ↦ test8Byte_congr (noiseByte_append_left ?_)
  omega

theorem test8Input_append (hbridge : p.bridge = 0) (hoffs : offs ≤ first.length * 4)
    (hopen : (test8Input first offs p).1 < test8K + test8Q)
    (hq : (test8Input first offs p).2.forgetBridge = q.forgetBridge)
    (hqbridge : q.bridge = (test8Input first offs p).1) :
    (test8Input (first ++ second) offs p).1 = (test8Input second 0 q).1 ∧
      (test8Input (first ++ second) offs p).2.forgetBridge =
      (test8Input second 0 q).2.forgetBridge := by
  have hend : first.length * 4 - offs + offs = first.length * 4 := by omega
  have hlength : (first ++ second).length * 4 - offs =
    first.length * 4 - offs + second.length * 4 := by
    rw [List.length_append]
    omega
  rw [test8Input_fst, hbridge] at hopen hqbridge
  rw [test8Input_eq hbridge] at hq
  rw [test8Input_eq hbridge, hlength]
  unfold test8Input
  dsimp only
  generalize first.length * 4 - offs = r at *
  have hr : min r (test8K + test8Q) = r := by omega
  rw [hr] at hq
  obtain rfl : q.bridge = r := by omega
  -- the bytes of the first buffer, then those of the second one
  have hrounds : min (q.bridge + second.length * 4) (test8K + test8Q) =
      q.bridge + (min (second.length * 4 - 0 + q.bridge) (test8K + test8Q) - q.bridge) := by omega
  have hfirst : countLoop (fun _ ↦ false) (test8Byte fun i ↦ noiseByte (first ++ second) (offs + i))
    q.bridge 0 p =
      countLoop (fun _ ↦ false) (test8Byte fun i ↦ noiseByte first (offs + i)) q.bridge 0 p :=
    countLoop_congr _ _ _ fun j _ hj t _ ↦ test8Byte_congr (noiseByte_append_left (by omega))
  have hindex : (countLoop (fun _ ↦ false) (test8Byte fun i ↦ noiseByte first (offs + i)) q.bridge 0
    p).1 = q.bridge :=
    (countLoop_fst_of_not_stop _ _ _ rfl).trans (Nat.zero_add _)
  rw [hrounds, countLoop_add, hfirst, hindex]
  generalize min (second.length * 4 - 0 + q.bridge) (test8K + test8Q) - q.bridge = m
  have hsecond : ∀ t, countLoop (fun _ ↦ false) (test8Byte fun i ↦
    noiseByte (first ++ second) (offs + i)) m q.bridge t =
      countLoop (fun _ ↦ false) (test8Byte fun i ↦ noiseByte second (0 + (i - q.bridge)))
        m q.bridge t :=
    fun t ↦ countLoop_congr _ _ _ fun j hle _ _ _ ↦
      test8Byte_congr (noiseByte_append_right (by omega))
  rw [hsecond]
  exact countLoop_rel (R := fun s t : ProcB ↦ s.forgetBridge = t.forgetBridge) (fun _ _ _ ↦ rfl)
    (fun j _ _ ↦ forgetBridge_test8Byte _ j) m _ _ _ hq

/-! ### One test -/

/-- The timer does not end the test in this buffer. -/
def TimerHolds (p : ProcB) (noise : List UInt32) (offs tid : ℕ) : Prop :=
  ((p.seqBegin tid).seqInput noise offs tid).2.testState = .eval ∨
    ((p.seqBegin tid).seqInput noise offs tid).2.deadman < aisLength

theorem timerHolds_of_init (hinit : p.testState = .init) (htid : tid < 4) :
    p.TimerHolds noise offs tid := by
  right
  unfold seqBegin
  rw [if_pos hinit]
  exact deadman_lt_of_begin _ le_rfl rfl rfl rfl (Nat.zero_add _) htid

theorem Alike.used (h : Alike k p q) (i : ℕ) : Alike k (p.used i) (q.used i) := by
  obtain ⟨used, deadman, hle, rfl⟩ := h.exists_eq
  exact ⟨rfl, hle⟩

theorem Alike.test6a (h : Alike 0 p q) :
    (test6a verdicts p noise offs tid).2 = (test6a verdicts q noise offs tid).2 ∧
      Alike 0 (test6a verdicts p noise offs tid).1 (test6a verdicts q noise offs tid).1 := by
  have hbegin : Alike 0 p.test6aBegin q.test6aBegin := by
    obtain ⟨used, deadman, hle, rfl⟩ := h.exists_eq
    unfold test6aBegin
    split_ifs
    · exact ⟨rfl, hle⟩
    · exact ⟨rfl, hle⟩
  obtain ⟨hindex, hloop⟩ := @test6aInput_alike _ _ noise offs _ hbegin
  unfold ProcB.test6a
  dsimp only
  rw [hindex]
  refine ⟨rfl, ?_⟩
  obtain ⟨used, deadman, hle, heq⟩ :=
    (hloop.used (test6aInput noise offs q.test6aBegin).1).exists_eq
  rw [heq]
  unfold test6aEnd
  split_ifs
  · exact ⟨rfl, hle⟩
  · exact ⟨rfl, hle⟩

theorem Alike.evalSeq (h : Alike k p q) :
    Alike k (evalSeq verdicts p tid) (evalSeq verdicts q tid) := by
  have hrecord : ∀ {s t : ProcB} (failed : Bool), Alike k s t →
    Alike k (s.record tid failed) (t.record tid failed) := by
    intro s t failed hst
    obtain ⟨used, deadman, hle, rfl⟩ := hst.exists_eq
    exact ⟨rfl, hle⟩
  unfold ProcB.evalSeq
  split_ifs
  · rw [h.einsen]
    exact hrecord _ h
  · generalize List.range (2 ^ tid / 2) = kinds
    induction kinds generalizing p q with
    | nil => exact h
    | cons kind kinds ih =>
      rw [List.foldl_cons, List.foldl_cons]
      refine ih ?_
      rw [h.einsen]
      exact hrecord _ h

theorem seqEnd_of_eval (heval : p.testState = .eval) :
    p.seqEnd verdicts tid = { evalSeq verdicts p tid with testState := .done } :=
  if_neg fun h ↦ h.1 heval

theorem seqEnd_of_lt (hstate : p.testState ≠ .eval) (hlt : p.deadman < aisLength) :
    p.seqEnd verdicts tid = p :=
  if_pos ⟨hstate, hlt⟩

theorem Alike.seqEnd (h : Alike 0 p q) (hholds : p.testState = .eval ∨ p.deadman < aisLength) :
    Alike 0 (p.seqEnd verdicts tid) (q.seqEnd verdicts tid) := by
  by_cases heval : p.testState = .eval
  · rw [seqEnd_of_eval heval, seqEnd_of_eval (h.testState ▸ heval)]
    have hresults := @Alike.evalSeq verdicts _ _ tid _ h
    exact ⟨congrArg (fun s : ProcB ↦ { s with testState := .done }) hresults.forget,
      hresults.deadman⟩
  · have hlt := hholds.resolve_left heval
    rw [seqEnd_of_lt heval hlt, seqEnd_of_lt (h.testState ▸ heval) (h.deadman.trans_lt hlt)]
    exact h

theorem Alike.aisSeq (h : Alike 0 p q) (hholds : p.TimerHolds noise offs tid) :
    (aisSeq verdicts p noise offs tid).2 = (aisSeq verdicts q noise offs tid).2 ∧
      Alike 0 (aisSeq verdicts p noise offs tid).1 (aisSeq verdicts q noise offs tid).1 := by
  have hbegin : Alike 0 (p.seqBegin tid) (q.seqBegin tid) := by
    obtain ⟨used, deadman, hle, rfl⟩ := h.exists_eq
    unfold seqBegin
    split_ifs
    · exact ⟨rfl, le_rfl⟩
    · exact ⟨rfl, hle⟩
  obtain ⟨hindex, hloop⟩ := @seqInput_alike _ _ noise offs tid _ hbegin
  unfold ProcB.aisSeq
  dsimp only
  rw [hindex]
  refine ⟨rfl, ?_⟩
  exact (hloop.used _).seqEnd hholds

theorem Alike.test8 (h : Alike 0 p q) :
    (test8 verdicts p noise offs tid).2 = (test8 verdicts q noise offs tid).2 ∧
      Alike 0 (test8 verdicts p noise offs tid).1 (test8 verdicts q noise offs tid).1 := by
  have hbegin : Alike 0 p.test8Begin q.test8Begin := by
    obtain ⟨used, deadman, hle, rfl⟩ := h.exists_eq
    unfold test8Begin
    split_ifs
    · exact ⟨rfl, hle⟩
    · exact ⟨rfl, hle⟩
  have hinput : (test8Input noise (offs >>> 3) p.test8Begin).1 =
    (test8Input noise (offs >>> 3) q.test8Begin).1 ∧
      Alike 0 (test8Input noise (offs >>> 3) p.test8Begin).2
        (test8Input noise (offs >>> 3) q.test8Begin).2 := by
    unfold test8Input
    rw [hbegin.bridge]
    refine countLoop_rel (fun _ _ _ ↦ rfl) (fun j s t hst ↦ ?_) _ _ _ _ hbegin
    obtain ⟨used, deadman, hle, rfl⟩ := hst.exists_eq
    exact ⟨rfl, hle⟩
  obtain ⟨hindex, hloop⟩ := hinput
  unfold ProcB.test8
  dsimp only
  rw [hindex]
  refine ⟨rfl, ?_⟩
  obtain ⟨used, deadman, hle, heq⟩ :=
    (hloop.used (test8Input noise (offs >>> 3) q.test8Begin).1).exists_eq
  rw [heq]
  unfold test8End
  split_ifs
  · exact ⟨rfl, hle⟩
  · exact ⟨rfl, hle⟩

theorem Alike.test (h : Alike 0 p q) (hholds : 0 < tid → tid < 4 → p.TimerHolds noise offs tid)
    (htid : tid < 5) : (test verdicts p noise offs tid).2 = (test verdicts q noise offs tid).2 ∧
      Alike 0 (test verdicts p noise offs tid).1 (test verdicts q noise offs tid).1 := by
  unfold ProcB.test
  split_ifs
  · exact h.test8
  · exact h.test6a
  · exact h.aisSeq (hholds (by omega) (by omega))

theorem test_shift :
    (test verdicts p (first ++ second) (first.length * 32 + offs) tid).1 =
      (test verdicts p second offs tid).1 ∧
      (tid < 4 → (test verdicts p (first ++ second) (first.length * 32 + offs) tid).2 =
        first.length * 32 + (test verdicts p second offs tid).2) := by
  unfold test
  split_ifs with height hsix
  · refine ⟨?_, fun hlt ↦ absurd height hlt.ne⟩
    unfold test8
    have hoffs : (first.length * 32 + offs) >>> 3 = first.length * 4 + offs >>> 3 := by
      rw [Nat.shiftRight_eq_div_pow, Nat.shiftRight_eq_div_pow]
      omega
    rw [hoffs, test8Input_shift]
  · unfold test6a
    dsimp only
    rw [test6aInput_shift]
    exact ⟨rfl, fun _ ↦ by omega⟩
  · unfold aisSeq
    dsimp only
    rw [seqInput_shift]
    exact ⟨rfl, fun _ ↦ by omega⟩

/-! ### A test over two buffers -/

theorem testState_test6aInput (hstate : p.testState = .input) :
    (test6aInput noise offs p).2.testState = .input := by
  refine countLoop_invariant (P := fun s : ProcB ↦ s.testState = .input) ?_ _ _ _ hstate
  exact fun _ _ _ h ↦ h

theorem Alike.test6aEnd (h : Alike k p q) :
    Alike k (p.test6aEnd verdicts tid) (q.test6aEnd verdicts tid) := by
  obtain ⟨used, deadman, hle, rfl⟩ := h.exists_eq
  unfold ProcB.test6aEnd
  split_ifs
  · exact ⟨rfl, hle⟩
  · exact ⟨rfl, hle⟩

theorem test6aEnd_of_lt (hlt : p.bridge < aisLength) : p.test6aEnd verdicts tid = p := if_pos hlt

theorem test6aEnd_testState (hge : ¬ p.bridge < aisLength) :
    (p.test6aEnd verdicts tid).testState = .done := by
  unfold ProcB.test6aEnd
  rw [if_neg hge]

theorem test6aInput_fst (hbridge : p.bridge = 0)
    (hfull : aisLength ≤ (test6aInput noise offs p).2.bridge) :
    (test6aInput noise offs p).1 = aisLength := by
  have hcount : (test6aInput noise offs p).2.bridge + 0 = p.bridge + (test6aInput noise offs p).1 :=
    countLoop_measure (f := fun s : ProcB ↦ s.bridge) (fun _ _ ↦ rfl) _ _ _
  have hle : (test6aInput noise offs p).2.bridge ≤ aisLength := by
    refine countLoop_invariant (P := fun s : ProcB ↦ s.bridge ≤ aisLength) ?_ _ _ _
      (hbridge ▸ Nat.zero_le _)
    intro j s hgoes _
    have hlt : s.bridge < aisLength := by simpa [test6aFull] using hgoes
    exact hlt
  omega

theorem test6a_append (hinit : p.testState = .init) (hoffs : offs ≤ first.length * 32) :
    ((test6a verdicts p first offs tid).1.testState ≠ .input →
      test6a verdicts p (first ++ second) offs tid = test6a verdicts p first offs tid) ∧
    ((test6a verdicts p first offs tid).1.testState = .input →
      (test6a verdicts p (first ++ second) offs tid).2 =
        first.length * 32 + (test6a verdicts (test6a verdicts p first offs tid).1 second 0 tid).2 ∧
      Alike 0 (test6a verdicts (test6a verdicts p first offs tid).1 second 0 tid).1
        (test6a verdicts p (first ++ second) offs tid).1) := by
  have hbegin : p.test6aBegin.testState = .input := by
    unfold test6aBegin
    rw [if_pos hinit]
  have hstate : (test6aInput first offs p.test6aBegin).2.testState = .input :=
    testState_test6aInput hbegin
  by_cases hlt : (test6aInput first offs p.test6aBegin).2.bridge < aisLength
  · have hone : (test6a verdicts p first offs tid).1 =
        (test6aInput first offs p.test6aBegin).2.used (test6aInput first offs p.test6aBegin).1 :=
      test6aEnd_of_lt hlt
    have hopen : (test6a verdicts p first offs tid).1.testState = .input := by
      rw [hone]; exact hstate
    refine ⟨fun hdone ↦ absurd hopen hdone, fun _ ↦ ?_⟩
    have hagain : (test6a verdicts p first offs tid).1.test6aBegin =
      (test6a verdicts p first offs tid).1 :=
      if_neg (by simp [hopen])
    obtain ⟨hindex, hloop⟩ := @test6aInput_alike (test6a verdicts p first offs tid).1
      (test6aInput first offs p.test6aBegin).2 second 0 0 (by rw [hone]; exact ⟨rfl, le_rfl⟩)
    have hboth := @test6aInput_append p.test6aBegin first second offs hoffs hlt
    rw [test6a, test6a]
    rw [hagain, hboth, hindex]
    refine ⟨by omega, Alike.test6aEnd ?_⟩
    exact ⟨hloop.forget, hloop.deadman⟩
  · have hdone : (test6a verdicts p first offs tid).1.testState = .done := test6aEnd_testState hlt
    refine ⟨fun _ ↦ ?_, fun hopen ↦ absurd hopen (by simp [hdone])⟩
    rw [test6a, test6a, test6aInput_of_full hoffs (by omega)]

theorem aisSeq_append (hinit : p.testState = .init) (hoffs : offs ≤ first.length * 32)
    (htid : tid < 4) : ((aisSeq verdicts p first offs tid).1.testState ≠ .input →
      (aisSeq verdicts p (first ++ second) offs tid).2 = (aisSeq verdicts p first offs tid).2 ∧
      Alike 0 (aisSeq verdicts p first offs tid).1
      (aisSeq verdicts p (first ++ second) offs tid).1) ∧
    ((aisSeq verdicts p first offs tid).1.testState = .input → 2 ^ tid ∣ first.length * 32 - offs →
      (aisSeq verdicts p first offs tid).1.TimerHolds second 0 tid →
      (aisSeq verdicts p (first ++ second) offs tid).2 =
        first.length * 32 + (aisSeq verdicts (aisSeq verdicts p first offs tid).1 second 0 tid).2 ∧
      Alike 0 (aisSeq verdicts (aisSeq verdicts p first offs tid).1 second 0 tid).1
        (aisSeq verdicts p (first ++ second) offs tid).1) := by
  have hbegin : (p.seqBegin tid).testState = .input ∧ (p.seqBegin tid).bridge = 0 := by
    unfold seqBegin
    rw [if_pos hinit]
    exact ⟨rfl, rfl⟩
  have hholds := @timerHolds_of_init _ first offs tid hinit htid
  obtain hstate | ⟨hended, -⟩ := @testState_seqInput (p.seqBegin tid) first offs tid hbegin.1
  · have hone : (aisSeq verdicts p first offs tid).1 =
        (seqInput first offs tid (p.seqBegin tid)).2.used
          (seqInput first offs tid (p.seqBegin tid)).1 :=
      seqEnd_of_lt (by simp [used, hstate]) (hholds.resolve_left (by simp [hstate]))
    have hopen : (aisSeq verdicts p first offs tid).1.testState = .input := by
      rw [hone]; exact hstate
    refine ⟨fun hdone ↦ absurd hopen hdone, fun _ hwhole hagainHolds ↦ ?_⟩
    have hagain : (aisSeq verdicts p first offs tid).1.seqBegin tid =
      (aisSeq verdicts p first offs tid).1 :=
      if_neg (by simp [hopen])
    obtain ⟨hindex, hloop⟩ := @seqInput_alike (aisSeq verdicts p first offs tid).1
      (seqInput first offs tid (p.seqBegin tid)).2 second 0 tid 0
        (by rw [hone]; exact ⟨rfl, le_rfl⟩)
    obtain ⟨hboth, hrest⟩ :=
      @seqInput_append (p.seqBegin tid) first second offs tid hoffs hwhole hbegin.2 hbegin.1 hstate
    unfold TimerHolds at hagainHolds
    rw [hagain] at hagainHolds
    have halike := hloop.trans hrest
    rw [aisSeq, aisSeq]
    rw [hagain, hboth, hindex]
    refine ⟨by omega, Alike.seqEnd ?_ hagainHolds⟩
    exact ⟨halike.forget, halike.deadman⟩
  · have hdone : (aisSeq verdicts p first offs tid).1.testState = .done := by
      have hend := @seqEnd_of_eval verdicts ((seqInput first offs tid (p.seqBegin tid)).2.used
        (seqInput first offs tid (p.seqBegin tid)).1) tid hended
      exact congrArg (fun s : ProcB ↦ s.testState) hend
    refine ⟨fun _ ↦ ?_, fun hopen ↦ absurd hopen (by simp [hdone])⟩
    obtain ⟨hindex, hloop⟩ :=
      @seqInput_of_eval (p.seqBegin tid) first second offs tid hoffs hbegin.1 hended
    rw [aisSeq, aisSeq]
    rw [hindex]
    exact ⟨rfl, (hloop.used _).seqEnd (.inl hended)⟩

theorem test8Input_keeps : (test8Input noise offs p).2.deadman = p.deadman ∧
    (test8Input noise offs p).2.testState = p.testState ∧
    (test8Input noise offs p).2.bridge = p.bridge := by
  refine countLoop_invariant
    (P := fun s : ProcB ↦ s.deadman = p.deadman ∧ s.testState = p.testState ∧ s.bridge = p.bridge)
      ?_ _ _ _ ⟨rfl, rfl, rfl⟩
  exact fun _ _ _ h ↦ h

theorem test8End_of_lt {i : ℕ} (hlt : i < test8K + test8Q) : p.test8End verdicts tid i =
    { p with bridge := i } := if_pos hlt

theorem test8End_of_le {i : ℕ} (hle : ¬ i < test8K + test8Q) :
    p.test8End verdicts tid i =
      { p.record tid (verdicts.test8 p.distances) with testState := .done } := if_neg hle

theorem test8_append (hinit : p.testState = .init) (hoffs : offs >>> 3 ≤ first.length * 4) :
    ((test8 verdicts p first offs tid).1.testState ≠ .input →
      test8 verdicts p (first ++ second) offs tid = test8 verdicts p first offs tid) ∧
    ((test8 verdicts p first offs tid).1.testState = .input →
      (test8 verdicts (test8 verdicts p first offs tid).1 second 0 tid).1.forgetBridge =
        (test8 verdicts p (first ++ second) offs tid).1.forgetBridge ∧
      ((test8 verdicts (test8 verdicts p first offs tid).1 second 0 tid).1.testState = .input →
        Alike 0 (test8 verdicts (test8 verdicts p first offs tid).1 second 0 tid).1
          (test8 verdicts p (first ++ second) offs tid).1)) := by
  have hbegin : p.test8Begin.testState = .input ∧ p.test8Begin.bridge = 0 := by
    unfold test8Begin
    rw [if_pos hinit]
    exact ⟨rfl, rfl⟩
  obtain ⟨hdeadman, hstate, -⟩ := @test8Input_keeps p.test8Begin first (offs >>> 3)
  by_cases hlt : (test8Input first (offs >>> 3) p.test8Begin).1 < test8K + test8Q
  · have hone : (test8 verdicts p first offs tid).1 =
        { (test8Input first (offs >>> 3) p.test8Begin).2.used
          (test8Input first (offs >>> 3) p.test8Begin).1 with
          bridge := (test8Input first (offs >>> 3) p.test8Begin).1 } := test8End_of_lt hlt
    have hopen : (test8 verdicts p first offs tid).1.testState = .input := by
      rw [hone]
      exact hstate.trans hbegin.1
    refine ⟨fun hdone ↦ absurd hopen hdone, fun _ ↦ ?_⟩
    have hagain : (test8 verdicts p first offs tid).1.test8Begin =
      (test8 verdicts p first offs tid).1 :=
      if_neg (by simp [hopen])
    obtain ⟨hindex, hforget⟩ :=
      @test8Input_append p.test8Begin (test8 verdicts p first offs tid).1 first second
      (offs >>> 3) hbegin.2 hoffs hlt (by rw [hone]; rfl) (by rw [hone])
    obtain ⟨hdeadman', hstate', -⟩ := @test8Input_keeps (test8 verdicts p first offs tid).1 second 0
    obtain ⟨hdeadman'', -, -⟩ := @test8Input_keeps p.test8Begin (first ++ second) (offs >>> 3)
    have hsame : (test8 verdicts p first offs tid).1.deadman = p.test8Begin.deadman := by
      rw [hone]
      exact hdeadman
    generalize test8 verdicts p first offs tid = ran at *
    rw [test8, test8]
    rw [hagain, Nat.zero_shiftRight, hindex]
    generalize test8Input second 0 ran.1 = one at *
    generalize test8Input (first ++ second) (offs >>> 3) p.test8Begin = other at *
    by_cases hmore : one.1 < test8K + test8Q
    · rw [test8End_of_lt hmore, test8End_of_lt hmore]
      have halike : Alike 0 { one.2.used one.1 with bridge := one.1 }
        { other.2.used one.1 with bridge := one.1 } := by
        refine ⟨congrArg (fun s : ProcB ↦ { s with bridge := one.1 }) hforget.symm, ?_⟩
        change other.2.deadman ≤ one.2.deadman + 0
        omega
      exact ⟨halike.forgetBridge, fun _ ↦ halike⟩
    · rw [test8End_of_le hmore, test8End_of_le hmore]
      refine ⟨?_, fun h ↦ absurd h (by simp)⟩
      have hrecord :=
        congrArg (fun s : ProcB ↦
          ({ s.record tid (verdicts.test8 s.distances) with testState := .done } : ProcB))
        hforget.symm
      exact hrecord
  · have hdone : (test8 verdicts p first offs tid).1.testState = .done := by
      have hend := @test8End_of_le verdicts ((test8Input first (offs >>> 3) p.test8Begin).2.used
        (test8Input first (offs >>> 3) p.test8Begin).1) tid _ hlt
      exact congrArg (fun s : ProcB ↦ s.testState) hend
    refine ⟨fun _ ↦ ?_, fun hopen ↦ absurd hopen (by simp [hdone])⟩
    rw [test8, test8, test8Input_of_full hbegin.2 hoffs (by omega)]

structure Fits (noise : List UInt32) (tid offs : ℕ) : Prop where
  first : tid = 0 → offs = 0
  even : tid < 4 → 2 ∣ offs
  bits : tid < 4 → offs ≤ noise.length * 32
  bytes : tid = 4 → offs < noise.length * 32 + 8

theorem Fits.next (hfits : Fits noise tid offs) (hinit : p.testState = .init) (htid : tid < 4)
    (hdone : (test verdicts p noise offs tid).1.testState ≠ .input) :
    Fits noise (tid + 1) (test verdicts p noise offs tid).2 := by
  have hoffs := hfits.bits htid
  unfold test at hdone ⊢
  rw [if_neg (by omega)] at hdone ⊢
  by_cases hzero : tid = 0
  · rw [if_pos hzero] at hdone ⊢
    have hbegin : p.test6aBegin.bridge = 0 := by
      unfold test6aBegin
      rw [if_pos hinit]
    have hstate : p.test6aBegin.testState = .input := by
      unfold test6aBegin
      rw [if_pos hinit]
    have hfull : aisLength ≤ (test6aInput noise offs p.test6aBegin).2.bridge := by
      by_contra hlt
      refine hdone ?_
      unfold test6a
      dsimp only
      rw [test6aEnd_of_lt (by unfold used; dsimp only; omega)]
      exact testState_test6aInput hstate
    have hindex := test6aInput_fst hbegin hfull
    have hle : (test6aInput noise offs p.test6aBegin).1 ≤ 0 + (noise.length * 32 - offs) :=
      countLoop_fst_le _ _ _
    have hend : (test6a verdicts p noise offs tid).2 = aisLength := by
      unfold test6a
      dsimp only
      rw [hindex, hfits.first hzero, Nat.add_zero]
    rw [hend]
    rw [hindex] at hle
    exact ⟨by omega, fun _ ↦ by decide, by omega, by omega⟩
  · rw [if_neg hzero] at hdone ⊢
    have hbegin : (p.seqBegin tid).testState = .input := by
      unfold seqBegin
      rw [if_pos hinit]
    have hholds := @timerHolds_of_init _ noise offs tid hinit htid
    have heval : (seqInput noise offs tid (p.seqBegin tid)).2.testState = .eval := by
      by_contra hne
      refine hdone ?_
      have hopen := @seqEnd_of_lt verdicts ((seqInput noise offs tid (p.seqBegin tid)).2.used
        (seqInput noise offs tid (p.seqBegin tid)).1) tid hne (hholds.resolve_left hne)
      have hinput : (seqInput noise offs tid (p.seqBegin tid)).2.testState = .input :=
        (testState_seqInput hbegin).resolve_right fun h ↦ hne h.1
      exact (congrArg (fun s : ProcB ↦ s.testState) hopen).trans hinput
    obtain ⟨hstep, -, hend⟩ := @seqLoop_fst tid (seqBitx tid) (noise.length * 32 - offs)
      (fun n ↦ aisBitTest noise (n + offs)) (noise.length * 32 - offs) 0
      ((p.seqBegin tid).timed (noise.length * 32 - offs)) hbegin
    have hread := hend heval
    have heven := hfits.even htid
    unfold aisSeq seqInput
    dsimp only
    generalize seqLoop tid (seqBitx tid) (fun n ↦ aisBitTest noise (n + offs))
      (noise.length * 32 - offs)
      (noise.length * 32 - offs) 0 ((p.seqBegin tid).timed (noise.length * 32 - offs)) = loop at *
    obtain rfl | rfl | rfl : tid = 1 ∨ tid = 2 ∨ tid = 3 := by omega
    · exact ⟨by omega, by omega, by omega, by omega⟩
    · exact ⟨by omega, by omega, by omega, by omega⟩
    · exact ⟨by omega, by omega, by omega, by omega⟩

theorem test_zero : test verdicts p noise offs 0 = test6a verdicts p noise offs 0 := rfl

theorem test_four : test verdicts p noise offs 4 = test8 verdicts p noise offs 4 := rfl

theorem test_tuple (hpos : 0 < tid) (hlt : tid < 4) :
    test verdicts p noise offs tid = aisSeq verdicts p noise offs tid := by
  unfold test
  rw [if_neg hlt.ne, if_neg hpos.ne']

theorem test_done_append (hinit : p.testState = .init) (hfits : Fits first tid offs)
    (htid : tid < 5) (hdone : (test verdicts p first offs tid).1.testState ≠ .input) :
    (test verdicts p (first ++ second) offs tid).2 = (test verdicts p first offs tid).2 ∧
      Alike 0 (test verdicts p first offs tid).1
      (test verdicts p (first ++ second) offs tid).1 := by
  unfold test at hdone ⊢
  split_ifs at hdone ⊢ with height hzero
  · have hbytes : offs >>> 3 ≤ first.length * 4 := by
      have hlt := hfits.bytes height
      rw [Nat.shiftRight_eq_div_pow]
      omega
    rw [(test8_append hinit hbytes).1 hdone]
    exact ⟨rfl, .refl _⟩
  · rw [(test6a_append hinit (hfits.bits (by omega))).1 hdone]
    exact ⟨rfl, .refl _⟩
  · exact (aisSeq_append hinit (hfits.bits (by omega)) (by omega)).1 hdone

theorem test_open_append (hinit : p.testState = .init) (hfits : Fits first tid offs)
    (htid : tid < 4) (hopen : (test verdicts p first offs tid).1.testState = .input)
    (hwhole : 0 < tid → 2 ^ tid ∣ first.length * 32 - offs)
    (hholds : 0 < tid → (test verdicts p first offs tid).1.TimerHolds second 0 tid) :
    (test verdicts p (first ++ second) offs tid).2 =
        first.length * 32 + (test verdicts (test verdicts p first offs tid).1 second 0 tid).2 ∧
      Alike 0 (test verdicts (test verdicts p first offs tid).1 second 0 tid).1
        (test verdicts p (first ++ second) offs tid).1 := by
  obtain rfl | hpos := Nat.eq_zero_or_pos tid
  · rw [test_zero] at hopen
    rw [test_zero, test_zero, test_zero]
    exact (test6a_append hinit (hfits.bits htid)).2 hopen
  · have htest := hholds hpos
    rw [test_tuple hpos htid] at hopen htest
    rw [test_tuple hpos htid, test_tuple hpos htid, test_tuple hpos htid]
    exact (aisSeq_append hinit (hfits.bits htid) htid).2 hopen (hwhole hpos) htest

end ProcB

end CrossBreeder.Haveged
