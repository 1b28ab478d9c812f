import CrossBreeder.Haveged.MainLoops
import Mathlib.Algebra.Group.Action.Defs
import Mathlib.Algebra.Order.BigOperators.Group.Finset

/-!
# The size of a sample

`run_app` announces `bufct` buffers of `APP_BUFF_SIZE` words and `bufres` bytes behind them. Each
round of its loop writes a number of words that depends on `rand`, and exits if that number is 0. A
run writes what was announced exactly if each number is `APP_BUFF_SIZE`, and one without a limit
goes on exactly if no number is 0 and none is more than the buffer holds (`sized_iff`).
-/

namespace CrossBreeder.Haveged

/-- Where `run_app` is. Behind `overrun` the memory is not that of the buffer. -/
inductive SampleStatus
  | loop
  | rest
  | returned
  | exited
  | overrun
  deriving DecidableEq, Repr

/-- The locals of `run_app`, with how often `rand` was called and how many bytes were written. -/
structure SampleState where
  ct : ℕ
  drawn : ℕ
  written : ℕ
  status : SampleStatus
  deriving DecidableEq, Repr

/-- What `run_app` is called with. -/
structure SampleRun where
  bufct : ℕ
  bufres : ℕ
  buffersz : ℕ
  chr : Bool
  rand : ℕ → ℕ
  bufct_lt : bufct < 2 ^ 32
  bufres_lt : bufres < appBuffSize * wordSize
  accepted : ∃ long optarg, acceptBuffer long optarg = some buffersz

namespace SampleRun

/-- `limits` of the loop. -/
def Limits (r : SampleRun) : Prop := r.bufct ≠ 0 ∨ r.bufres ≠ 0

instance (r : SampleRun) : Decidable r.Limits := inferInstanceAs (Decidable (_ ∨ _))

/-- The words of `io_buf`. -/
def room (r : SampleRun) : ℕ := ioSz (.app r.bufct r.bufres) / wordSize

def start (r : SampleRun) : SampleState :=
  ⟨0, 0, 0, if r.bufct = 0 ∧ r.chr = false then .exited else .loop⟩

/-- One round of the loop, or what follows it. -/
def step (r : SampleRun) (s : SampleState) : SampleState :=
  match s.status with
  | .loop =>
    if r.Limits ∧ ¬ s.ct < r.bufct then { s with ct := (s.ct + 1) % 2 ^ 32, status := .rest }
    else
      let bufsize := appWords r.buffersz (r.rand s.drawn)
      let s := { s with ct := if r.Limits then (s.ct + 1) % 2 ^ 32 else s.ct, drawn := s.drawn + 1 }
      if r.room < bufsize then { s with status := .overrun }
      -- `fwrite` returns 0
      else if bufsize * wordSize = 0 then { s with status := .exited }
      -- how long to sleep depends on another call of `rand`
      else { s with
        drawn := if r.Limits then s.drawn else s.drawn + 1
        written := s.written + bufsize * wordSize }
  | .rest =>
    let ct := restWords r.bufres
    if ct = 0 then { s with ct := ct, status := .returned }
    else if r.room < ct then { s with ct := ct, status := .overrun }
    else if r.bufres = 0 then { s with ct := ct, status := .exited }
    else { s with ct := ct, written := s.written + r.bufres, status := .returned }
  | _ => s

def after (r : SampleRun) (n : ℕ) : SampleState := r.step^[n] r.start

/-- A run returns with all that was announced, and one without a limit never exits. -/
def Sized (r : SampleRun) : Prop :=
  if r.Limits then
    ∃ n, (r.after n).status = .returned ∧
      (r.after n).written = r.bufct * appBuffSize * wordSize + r.bufres
  else ∀ n, (r.after n).status = .loop

def words (r : SampleRun) (i : ℕ) :
    ℕ := appWords r.buffersz (r.rand (if r.Limits then i else 2 * i))

/-! ### The rounds -/

variable {r : SampleRun}

theorem room_eq (r : SampleRun) : r.room = appBuffSize := Nat.mul_div_cancel _ (by decide)

theorem after_succ (r : SampleRun) (n : ℕ) : r.after (n + 1) = r.step (r.after n) :=
  Function.iterate_succ_apply' _ _ _

theorem after_loop (hstart : 0 < r.bufct ∨ r.chr = true) (n : ℕ) (hlimit : r.Limits → n ≤ r.bufct)
    (hwords : ∀ i < n, 0 < r.words i ∧ r.words i ≤ appBuffSize) :
    r.after n =
      { ct := if r.Limits then n else 0
        drawn := if r.Limits then n else 2 * n
        written := (∑ i ∈ Finset.range n, r.words i) * wordSize
        status := .loop } := by
  induction n with
  | zero =>
    have hopen : ¬ (r.bufct = 0 ∧ r.chr = false) := by
      rintro ⟨hzero, hchr⟩
      rcases hstart with hpos | hdevice
      · omega
      · exact absurd (hchr.symm.trans hdevice) (by decide)
    change r.start = _
    unfold start
    rw [if_neg hopen]
    simp
  | succ n ih =>
    obtain ⟨hpos, hle⟩ := hwords n (Nat.lt_succ_self n)
    have hbytes : ¬ r.words n * wordSize = 0 := by unfold wordSize; omega
    have hlt := r.bufct_lt
    rw [after_succ, ih (fun hlimits ↦ Nat.le_of_succ_le (hlimit hlimits)) fun i hi ↦
      hwords i (Nat.lt_succ_of_lt hi), Finset.sum_range_succ, Nat.add_mul]
    unfold step
    by_cases hlimits : r.Limits
    · have hbelow := hlimit hlimits
      have hdraw : appWords r.buffersz (r.rand n) = r.words n := by rw [words, if_pos hlimits]
      simp only [hlimits, if_true, true_and, hdraw, room_eq]
      rw [if_neg (by omega), if_neg (by omega), if_neg hbytes, Nat.mod_eq_of_lt (by omega)]
    · have hdraw : appWords r.buffersz (r.rand (2 * n)) = r.words n := by rw [words, if_neg hlimits]
      simp only [hlimits, if_false, false_and, hdraw, room_eq]
      rw [if_neg (by omega), if_neg hbytes]
      rfl

theorem after_of_stopped {n m : ℕ} (hle : n ≤ m) (hloop : (r.after n).status ≠ .loop)
    (hrest : (r.after n).status ≠ .rest) : r.after m = r.after n := by
  induction m, hle using Nat.le_induction with
  | base => rfl
  | succ m _ ih =>
    rw [after_succ, ih]
    unfold step
    split
    · exact absurd ‹_› hloop
    · exact absurd ‹_› hrest
    · rfl

theorem after_bad (hstart : 0 < r.bufct ∨ r.chr = true) {n : ℕ} (hlimit : r.Limits → n < r.bufct)
    (hwords : ∀ i < n, 0 < r.words i ∧ r.words i ≤ appBuffSize)
    (hbad : ¬ (0 < r.words n ∧ r.words n ≤ appBuffSize)) :
    (r.after (n + 1)).status = .overrun ∨ (r.after (n + 1)).status = .exited := by
  have hdraw : appWords r.buffersz (r.rand (if r.Limits then n else 2 * n)) = r.words n := rfl
  rw [after_succ, after_loop hstart n (fun hlimits ↦ (hlimit hlimits).le) hwords]
  unfold step
  dsimp only
  rw [if_neg (fun ⟨hlimits, hover⟩ ↦
    hover (by rw [if_pos hlimits]; exact hlimit hlimits)), hdraw, room_eq]
  by_cases hover : appBuffSize < r.words n
  · rw [if_pos hover]
    exact .inl rfl
  · have hzero : r.words n = 0 := by
      by_contra hne
      exact hbad ⟨Nat.pos_of_ne_zero hne, not_lt.mp hover⟩
    rw [if_neg hover, hzero, Nat.zero_mul, if_pos rfl]
    exact .inr rfl

theorem not_room_lt (r : SampleRun) : ¬ r.room < restWords r.bufres := by
  have := r.bufres_lt
  rw [room_eq]
  unfold restWords wordSize appBuffSize at *
  omega

theorem after_rest (hstart : 0 < r.bufct ∨ r.chr = true) (hlimits : r.Limits)
    (hwords : ∀ i < r.bufct, 0 < r.words i ∧ r.words i ≤ appBuffSize) :
    (r.after (r.bufct + 2)).status = .returned ∧
      (r.after (r.bufct + 2)).written =
      (∑ i ∈ Finset.range r.bufct, r.words i) * wordSize + r.bufres := by
  have hend : (r.after (r.bufct + 1)).status = .rest ∧
      (r.after (r.bufct + 1)).written = (∑ i ∈ Finset.range r.bufct, r.words i) * wordSize := by
    rw [after_succ, after_loop hstart _ (fun _ ↦ le_rfl) hwords]
    unfold step
    simp [hlimits]
  have hroom := not_room_lt r
  rw [after_succ, step, hend.1]
  by_cases hnone : restWords r.bufres = 0
  · have hzero : r.bufres = 0 := by
      unfold restWords wordSize at hnone
      omega
    rw [if_pos hnone, hzero]
    exact ⟨rfl, hend.2⟩
  · have hsome : r.bufres ≠ 0 := fun hzero ↦ hnone (by rw [hzero]; rfl)
    rw [if_neg hnone, if_neg hroom, if_neg hsome]
    exact ⟨rfl, congrArg (· + r.bufres) hend.2⟩

theorem stops_of_bad (hbad : ¬ ((0 < r.bufct ∨ r.chr = true) ∧
    ∀ i, (r.Limits → i < r.bufct) → 0 < r.words i ∧ r.words i ≤ appBuffSize)) :
    ∃ n, (r.after n).status = .overrun ∨ (r.after n).status = .exited := by
  by_cases hstart : 0 < r.bufct ∨ r.chr = true
  · have hround : ∃ i, (r.Limits → i < r.bufct) ∧ ¬ (0 < r.words i ∧ r.words i ≤ appBuffSize) := by
      by_contra hnone
      push Not at hnone
      exact hbad ⟨hstart, fun i hi ↦ hnone i hi⟩
    classical
    refine ⟨Nat.find hround + 1, after_bad hstart (Nat.find_spec hround).1 (fun i hi ↦
      ?_) (Nat.find_spec hround).2⟩
    by_contra hfirst
    exact Nat.find_min hround hi ⟨fun hlimits ↦ hi.trans ((Nat.find_spec hround).1 hlimits), hfirst⟩
  · refine ⟨0, .inr ?_⟩
    push Not at hstart
    change (if r.bufct = 0 ∧ r.chr = false then SampleStatus.exited else .loop) = .exited
    rw [if_pos ⟨Nat.le_zero.mp hstart.1, Bool.eq_false_of_not_eq_true hstart.2⟩]

theorem returned_unique {n m : ℕ} (hn : (r.after n).status = .returned)
    (hm : (r.after m).status ≠ .loop) (hm' : (r.after m).status ≠ .rest) :
    r.after m = r.after n := by
  rcases le_total n m with hle | hle
  · exact after_of_stopped hle (by simp [hn]) (by simp [hn])
  · exact (after_of_stopped hle hm hm').symm

theorem sum_words (hwords : ∀ i < r.bufct, 0 < r.words i ∧ r.words i ≤ appBuffSize) :
    (∑ i ∈ Finset.range r.bufct, r.words i) = r.bufct * appBuffSize ↔
      ∀ i < r.bufct, r.words i = appBuffSize := by
  have hconst : r.bufct * appBuffSize = ∑ _ ∈ Finset.range r.bufct, appBuffSize := by
    rw [Finset.sum_const, Finset.card_range, smul_eq_mul]
  rw [hconst, Finset.sum_eq_sum_iff_of_le fun i hi ↦ (hwords i (Finset.mem_range.mp hi)).2]
  simp only [Finset.mem_range]

theorem sized_iff_of_limits (hlimits : r.Limits) :
    r.Sized ↔ (0 < r.bufct ∨ r.chr = true) ∧ ∀ i < r.bufct, r.words i = appBuffSize := by
  unfold Sized
  rw [if_pos hlimits]
  by_cases hgood : (0 < r.bufct ∨ r.chr = true) ∧ ∀ i, (r.Limits → i < r.bufct) → 0 < r.words i ∧
    r.words i ≤ appBuffSize
  · have hwords : ∀ i < r.bufct, 0 < r.words i ∧ r.words i ≤ appBuffSize :=
      fun i hi ↦ hgood.2 i fun _ ↦ hi
    obtain ⟨hreturned, hwritten⟩ := after_rest hgood.1 hlimits hwords
    rw [and_iff_right hgood.1, ← sum_words hwords]
    constructor
    · rintro ⟨n, hstatus, hbytes⟩
      have hsame : r.after (r.bufct + 2) = r.after n :=
        returned_unique hstatus (by simp [hreturned]) (by simp [hreturned])
      rw [← hsame, hwritten] at hbytes
      unfold wordSize at hbytes
      omega
    · exact fun htotal ↦ ⟨_, hreturned, by rw [hwritten, htotal]⟩
  · obtain ⟨m, hstopped⟩ := stops_of_bad hgood
    refine iff_of_false ?_ ?_
    · rintro ⟨n, hstatus, -⟩
      have hsame : r.after m = r.after n := by
        refine returned_unique hstatus ?_ ?_
        · rcases hstopped with h | h <;> simp [h]
        · rcases hstopped with h | h <;> simp [h]
      rw [hsame, hstatus] at hstopped
      simp at hstopped
    · rintro ⟨hstart, hwhole⟩
      refine hgood ⟨hstart, fun i hi ↦ ?_⟩
      rw [hwhole i (hi hlimits)]
      exact ⟨by decide, le_rfl⟩

theorem sized_iff_of_unlimited (hlimits : ¬ r.Limits) :
    r.Sized ↔ (0 < r.bufct ∨ r.chr = true) ∧ ∀ i, 0 < r.words i ∧ r.words i ≤ appBuffSize := by
  unfold Sized
  rw [if_neg hlimits]
  constructor
  · intro hforever
    by_contra hbad
    obtain ⟨n, hstopped⟩ := stops_of_bad (r := r) fun hgood ↦
      hbad ⟨hgood.1, fun i ↦ hgood.2 i fun h ↦ absurd h hlimits⟩
    rw [hforever n] at hstopped
    simp at hstopped
  · rintro ⟨hstart, hwords⟩ n
    rw [after_loop hstart n (fun h ↦ absurd h hlimits) fun i _ ↦ hwords i]

/-- A run is as long as announced exactly if it starts, each round writes a whole buffer where there
is a limit, and each round writes something that fits where there is none. -/
theorem sized_iff (r : SampleRun) :
    r.Sized ↔ (0 < r.bufct ∨ r.chr = true) ∧
      if r.Limits then ∀ i < r.bufct, appWords r.buffersz (r.rand i) = appBuffSize
      else ∀ i, 0 < appWords r.buffersz (r.rand (2 * i)) ∧ appWords r.buffersz
      (r.rand (2 * i)) ≤ appBuffSize := by
  by_cases hlimits : r.Limits
  · have hdraw : ∀ i, r.words i = appWords r.buffersz (r.rand i) :=
      fun i ↦ by rw [words, if_pos hlimits]
    rw [sized_iff_of_limits hlimits, if_pos hlimits]
    simp only [hdraw]
  · have hdraw : ∀ i, r.words i = appWords r.buffersz (r.rand (2 * i)) :=
      fun i ↦ by rw [words, if_neg hlimits]
    rw [sized_iff_of_unlimited hlimits, if_neg hlimits]
    simp only [hdraw]

/-- Two buffers with the default of `-b`. -/
def twoBuffers : SampleRun where
  bufct := 2
  bufres := 0
  buffersz := 64
  chr := false
  rand := fun i ↦ 1000003 * (i + 1)
  bufct_lt := by decide
  bufres_lt := by decide
  accepted := ⟨64, none, rfl⟩

theorem not_sized_twoBuffers : ¬ twoBuffers.Sized := by
  rw [sized_iff_of_limits (by decide)]
  exact fun ⟨_, hwhole⟩ ↦ absurd (hwhole 0 (by decide)) (by decide)

end SampleRun

end CrossBreeder.Haveged
