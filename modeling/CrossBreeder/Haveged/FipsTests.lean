import CrossBreeder.Haveged.ProcedureA
import Mathlib.Data.List.SplitBy

/-!
# The FIPS 140-1 tests

What `fips140` counts in a block of 20000 bits against what its tests are about. The maximum over
the runs is never updated, and a run is counted when the bit behind it is seen, under the value of
that bit, except for the last one, and with an additional run of length 1 in front of the first bit.
The results are right exactly if no run is as long as the last test forbids, and the numbers of runs
pass the third test exactly if they pass it in this form (`fipsMatches_iff`).
-/

namespace CrossBreeder.Haveged

open Function

/-! ### What the tests are about -/

def byteBits (c : ℕ) : List ℕ := (List.range 8).map fun k ↦ c >>> (7 - k) &&& 1

def fipsBits (block : List ℕ) : List ℕ := block.flatMap byteBits

def fipsNibbles (block : List ℕ) : List ℕ := block.flatMap fun c ↦ [c >>> 4, c &&& 15]

def maximalRuns (bits : List ℕ) : List (List ℕ) := bits.splitBy (· == ·)

/-- The lengths that are counted together: 1 to 5 on their own, and 6 or more. -/
def OfClass (c : ℕ) (run : List ℕ) : Prop := if c < 5 then run.length = c + 1 else 6 ≤ run.length

instance (c : ℕ) (run : List ℕ) : Decidable (OfClass c run) :=
  inferInstanceAs (Decidable (ite _ _ _))

def runCount (bits : List ℕ) (value c : ℕ) : ℕ :=
  (maximalRuns bits).countP fun run ↦ run.head? = some value ∧ OfClass c run

def WithinLimits (count : ℕ → ℕ → ℕ) : Prop :=
  ∀ value < 2, ∀ c < 6, fipsLow.getD c 0 ≤ count value c ∧ count value c ≤ fipsHigh.getD c 0

structure FipsMatches (block : List ℕ) (results : List (ℕ × Option ℕ)) : Prop where
  length : results.length = 4
  monobit : (results.getD 0 (0, none)).1 &&& 1 = 0 ↔ 9654 < (fipsBits block).count 1 ∧
    (fipsBits block).count 1 < 10346
  poker : (results.getD 1 (0, none)).1 &&& 1 = 0 ↔
    1562822 < ((List.range 16).map fun j ↦ (fipsNibbles block).count j ^ 2).sum ∧
      ((List.range 16).map fun j ↦ (fipsNibbles block).count j ^ 2).sum < 1580438
  runs : (results.getD 2 (0, none)).1 &&& 1 = 0 ↔ WithinLimits (runCount (fipsBits block))
  longRun : (results.getD 3 (0, none)).1 &&& 1 = 0 ↔ ∀ run ∈ maximalRuns (fipsBits block),
    run.length < 34

def LastRun (bits : List ℕ) (value c : ℕ) : Prop :=
  ∃ run ∈ (maximalRuns bits).getLast?, run.head? = some value ∧ OfClass c run

instance (bits : List ℕ) (value c : ℕ) : Decidable (LastRun bits value c) :=
  inferInstanceAs (Decidable (∃ run ∈ (maximalRuns bits).getLast?, run.head? = some value ∧
    OfClass c run))

/-- The numbers of runs when the last one is counted for the other value, and one more run of length
1 for the value that the first bit does not have. -/
def movedCount (bits : List ℕ) (value c : ℕ) : ℕ :=
  runCount bits value c + (if bits.head? = some (1 - value) ∧ c = 0 then 1 else 0) +
    (if LastRun bits (1 - value) c then 1 else 0) - (if LastRun bits value c then 1 else 0)

/-! ### Runs one after the other -/

variable {bits run : List ℕ}

namespace FipsCounts

def spell (run : ℕ × ℕ) : List ℕ := List.replicate (run.2 + 1) run.1

def slot (repeats value : ℕ) : ℕ := min repeats 5 + 6 * value

/-- How often each counter is increased when the bits of some runs are seen. -/
def starts : ℕ → List (ℕ × ℕ) → ℕ → ℕ
  | _, [], _ => 0
  | repeats, run :: runs, j => (if slot repeats run.1 = j then 1 else 0) + starts run.2 runs j

variable {s : FipsCounts}

theorem fipsAdd_runs (s : FipsCounts) (j : ℕ) :
    s.fipsAdd.runs j = s.runs j + if slot s.runLength s.current = j then 1 else 0 := by
  have hindex : (if s.runLength < 5 then s.runLength else 5) + 6 * s.current =
    slot s.runLength s.current := by
    unfold slot
    split_ifs <;> omega
  unfold fipsAdd
  dsimp only
  rw [hindex]
  by_cases hj : j = slot s.runLength s.current
  · rw [hj, update_self, if_pos rfl]
  · rw [update_of_ne hj, if_neg (Ne.symm hj), Nat.add_zero]

theorem foldl_repeat {value : ℕ} (hlast : s.last = value) (hcurrent : s.current = value) (n : ℕ) :
    (List.replicate n value).foldl fipsBit s =
      { s with ones := s.ones + n * value, runLength := s.runLength + n } := by
  induction n generalizing s with
  | zero => simp
  | succ n ih =>
    have hone : s.fipsBit value =
      { s with ones := s.ones + value, runLength := s.runLength + 1 } := by
      unfold fipsBit
      rw [if_neg (by simp [hlast]), ← hcurrent]
    rw [List.replicate_succ, List.foldl_cons, hone, ih (by exact hlast) (by exact hcurrent)]
    congr 1
    · dsimp only
      rw [Nat.add_one_mul]
      omega
    · dsimp only
      omega

theorem foldl_spell {run : ℕ × ℕ} (hlast : run.1 ≠ s.last) :
    (spell run).foldl fipsBit s =
      { s with
        ones := s.ones + (run.2 + 1) * run.1
        runs := { s with current := run.1 }.fipsAdd.runs
        runLength := run.2
        current := run.1
        last := run.1 } := by
  have hone : s.fipsBit run.1 =
      { s with
        ones := s.ones + run.1
        runs := { s with current := run.1 }.fipsAdd.runs
        runLength := 0
        current := run.1
        last := run.1 } := by
    unfold fipsBit
    rw [if_pos hlast]
    rfl
  unfold spell
  rw [List.replicate_succ, List.foldl_cons, hone, foldl_repeat rfl rfl]
  congr 1
  · dsimp only
    rw [Nat.add_one_mul]
    omega
  · exact Nat.zero_add _

/-- Runs of which each has another value than the one before. -/
theorem foldl_spells (runs : List (ℕ × ℕ)) : ∀ {s : FipsCounts},
    (runs.map Prod.fst).IsChain (· ≠ ·) → (∀ run ∈ runs.head?, run.1 ≠ s.last) →
    ((runs.flatMap spell).foldl fipsBit s).maxRun = s.maxRun ∧
    (∀ j, ((runs.flatMap spell).foldl fipsBit s).runs j = s.runs j + starts s.runLength runs j) ∧
    ∀ run ∈ runs.getLast?, ((runs.flatMap spell).foldl fipsBit s).runLength = run.2 ∧
      ((runs.flatMap spell).foldl fipsBit s).current = run.1 := by
  induction runs with
  | nil => exact fun _ _ ↦ ⟨rfl, fun _ ↦ rfl, by simp⟩
  | cons run runs ih =>
    intro s hchain hlast
    rw [List.flatMap_cons, List.foldl_append, foldl_spell (hlast run rfl)]
    have hnext : ∀ following ∈ runs.head?, following.1 ≠ run.1 := by
      intro following hfollowing
      cases runs with
      | nil => cases hfollowing
      | cons other runs =>
        obtain rfl := Option.some.inj hfollowing
        exact Ne.symm (List.isChain_cons_cons.mp hchain).1
    obtain ⟨hmax, hruns, hend⟩ := @ih { s with
      ones := s.ones + (run.2 + 1) * run.1
      runs := { s with current := run.1 }.fipsAdd.runs
      runLength := run.2
      current := run.1
      last := run.1 } hchain.tail hnext
    refine ⟨hmax, fun j ↦ ?_, fun last hmem ↦ ?_⟩
    · rw [hruns, fipsAdd_runs, starts, Nat.add_assoc]
    · cases runs with
      | nil =>
        obtain rfl := Option.some.inj hmem
        exact ⟨rfl, rfl⟩
      | cons other runs => exact hend last (by rwa [List.getLast?_cons_cons] at hmem)

def spellCount (runs : List (ℕ × ℕ)) (value c : ℕ) :
    ℕ := runs.countP fun run ↦ run.1 = value ∧ min run.2 5 = c

theorem spellCount_cons (run : ℕ × ℕ) (runs : List (ℕ × ℕ)) (value c : ℕ) :
    spellCount (run :: runs) value c =
      (if run.1 = value ∧ min run.2 5 = c then 1 else 0) + spellCount runs value c := by
  unfold spellCount
  rw [List.countP_cons, Nat.add_comm]
  simp only [decide_eq_true_eq]

/-- Counting a run with the value of the bit behind it exchanges the values, except for the last
run. -/
theorem starts_add {value c : ℕ} (hvalue : value < 2) (hc : c < 6) (runs : List (ℕ × ℕ)) :
    ∀ (repeats : ℕ) (run : ℕ × ℕ),
    (∀ other ∈ run :: runs, other.1 < 2) → ((run :: runs).map Prod.fst).IsChain (· ≠ ·) →
    ∀ last ∈ (run :: runs).getLast?,
    starts repeats (run :: runs) (c + 6 * value) +
      (if last.1 = 1 - value ∧ min last.2 5 = c then 1 else 0) =
      (if run.1 = value ∧ min repeats 5 = c then 1 else 0) + spellCount (run :: runs)
      (1 - value) c := by
  have hslot : ∀ repeats other, slot repeats other = c + 6 * value ↔
    other = value ∧ min repeats 5 = c := by
    intro repeats other
    unfold slot
    omega
  induction runs with
  | nil =>
    intro repeats run _ _ last hlast
    obtain rfl : run = last := Option.some.inj hlast
    rw [starts, starts, spellCount_cons]
    simp only [hslot]
    have hnil : spellCount [] (1 - value) c = 0 := rfl
    omega
  | cons following runs ih =>
    intro repeats run hbits hchain last hlast
    obtain ⟨hne, hrest⟩ := List.isChain_cons_cons.mp hchain
    have hlater :=
      ih run.2 following (fun other hother ↦ hbits other (List.mem_cons_of_mem _ hother)) hrest last
      (by rwa [List.getLast?_cons_cons] at hlast)
    have hrun := hbits run List.mem_cons_self
    have hfollowing := hbits following (List.mem_cons_of_mem _ List.mem_cons_self)
    have hexchange : following.1 = value ↔ run.1 = 1 - value := by omega
    rw [starts, Nat.add_assoc, hlater, spellCount_cons run]
    simp only [hslot, hexchange]

/-! ### The bits of a block -/

def withPoker (s : FipsCounts) (poker : ℕ → ℕ) : FipsCounts := { s with poker := poker }

theorem foldl_withPoker (bits : List ℕ) (poker : ℕ → ℕ) :
    ∀ s : FipsCounts, bits.foldl fipsBit (s.withPoker poker) =
      (bits.foldl fipsBit s).withPoker poker := by
  induction bits with
  | nil => exact fun _ ↦ rfl
  | cons bit bits ih =>
    intro s
    have hone : (s.withPoker poker).fipsBit bit = (s.fipsBit bit).withPoker poker := by
      unfold fipsBit withPoker
      dsimp only
      split_ifs <;> rfl
    rw [List.foldl_cons, hone, ih, List.foldl_cons]

theorem fipsByte_eq (s : FipsCounts) (c : ℕ) :
    s.fipsByte c =
      ((byteBits c).foldl fipsBit s).withPoker fun j ↦ s.poker j + [c >>> 4, c &&& 15].count j := by
  have hpoker : update (update s.poker (c >>> 4) (s.poker (c >>> 4) + 1)) (c &&& 15)
      (update s.poker (c >>> 4) (s.poker (c >>> 4) + 1) (c &&& 15) + 1) =
        fun j ↦ s.poker j + [c >>> 4, c &&& 15].count j := by
    ext j
    simp only [update_apply, List.count_cons, List.count_nil, beq_iff_eq]
    split_ifs <;> grind
  rw [← foldl_withPoker, ← hpoker, byteBits, List.foldl_map]
  rfl

theorem foldl_fipsByte (block : List ℕ) : ∀ s : FipsCounts,
    block.foldl fipsByte s =
      ((fipsBits block).foldl fipsBit s).withPoker fun j ↦ s.poker j +
      (fipsNibbles block).count j := by
  induction block with
  | nil => exact fun _ ↦ rfl
  | cons c block ih =>
    intro s
    have hcount : ∀ j, (fipsNibbles (c :: block)).count j = [c >>> 4, c &&& 15].count
      j + (fipsNibbles block).count j :=
      fun j ↦ List.count_append
    rw [List.foldl_cons, ih, fipsByte_eq, foldl_withPoker, fipsBits, fipsBits, List.flatMap_cons,
      List.foldl_append]
    simp only [hcount, withPoker, Nat.add_assoc]

theorem foldl_ones (bits : List ℕ) : ∀ s : FipsCounts,
    (bits.foldl fipsBit s).ones = s.ones + bits.sum := by
  induction bits with
  | nil => exact fun _ ↦ rfl
  | cons bit bits ih =>
    intro s
    have hone : (s.fipsBit bit).ones = s.ones + bit := by
      unfold fipsBit
      dsimp only
      split_ifs <;> rfl
    rw [List.foldl_cons, ih, hone, List.sum_cons, Nat.add_assoc]

theorem lt_two_of_mem {block : List ℕ} {bit : ℕ} (hmem : bit ∈ fipsBits block) : bit < 2 := by
  obtain ⟨c, -, hbit⟩ := List.mem_flatMap.mp hmem
  obtain ⟨k, -, rfl⟩ := List.mem_map.mp hbit
  rw [Nat.and_one_is_mod]
  exact Nat.mod_lt _ (by omega)

theorem sum_eq_count {bits : List ℕ} (hbits : ∀ bit ∈ bits, bit < 2) : bits.sum = bits.count 1 := by
  induction bits with
  | nil => rfl
  | cons bit bits ih =>
    have hbit := hbits bit List.mem_cons_self
    rw [List.sum_cons, ih fun other hother ↦ hbits other (List.mem_cons_of_mem _ hother),
      List.count_cons]
    split_ifs with hone
    · have : bit = 1 := by simpa using hone
      omega
    · have : bit ≠ 1 := by simpa using hone
      omega

/-! ### The runs of a list of bits -/

def toSpell (run : List ℕ) : ℕ × ℕ := (run.headD 0, run.length - 1)

theorem spell_toSpell (hmem : run ∈ maximalRuns bits) : spell (toSpell run) = run := by
  obtain ⟨bit, rest, rfl⟩ := List.exists_cons_of_ne_nil (List.ne_nil_of_mem_splitBy hmem)
  have hchain : (bit :: rest).IsChain (· = ·) :=
    (List.isChain_of_mem_splitBy hmem).imp fun _ _ h ↦ by simpa using h
  have hreplicate := List.isChain_eq_iff_eq_replicate.mp hchain bit rfl
  rw [hreplicate]
  simp [spell, toSpell, List.replicate_succ]

theorem flatMap_toSpell (bits : List ℕ) :
    ((maximalRuns bits).map toSpell).flatMap spell = bits := by
  rw [List.flatMap_map, List.flatMap, List.map_congr_left fun run hmem ↦
    spell_toSpell hmem, List.map_id', maximalRuns, List.flatten_splitBy]

theorem eq_of_mem_run {bit : ℕ} (hmem : run ∈ maximalRuns bits) (hbit : bit ∈ run) :
    bit = (toSpell run).1 :=
  List.eq_of_mem_replicate (by rwa [← spell_toSpell hmem] at hbit)

theorem isChain_toSpell (bits : List ℕ) :
    (((maximalRuns bits).map toSpell).map Prod.fst).IsChain (· ≠ ·) := by
  rw [List.map_map, List.isChain_map]
  refine (List.isChain_getLast_head_splitBy (· == ·) bits).imp_of_mem_imp ?_
  intro run following hrun hfollowing ⟨hne, hne', hdiffer⟩
  rw [eq_of_mem_run hrun (List.getLast_mem hne), eq_of_mem_run hfollowing (List.head_mem hne'),
    beq_eq_false_iff_ne] at hdiffer
  exact hdiffer

theorem ofClass_iff (hmem : run ∈ maximalRuns bits) (value : ℕ) {c : ℕ} (hc : c < 6) :
    (run.head? = some value ∧ OfClass c run) ↔
      (toSpell run).1 = value ∧ min (toSpell run).2 5 = c := by
  obtain ⟨bit, rest, rfl⟩ := List.exists_cons_of_ne_nil (List.ne_nil_of_mem_splitBy hmem)
  unfold OfClass toSpell
  rw [List.head?_cons, Option.some.injEq, List.headD_cons, List.length_cons]
  refine and_congr_right fun _ ↦ ?_
  split_ifs <;> omega

theorem runCount_eq (bits : List ℕ) (value : ℕ) {c : ℕ} (hc : c < 6) :
    runCount bits value c = spellCount ((maximalRuns bits).map toSpell) value c := by
  unfold runCount spellCount
  rw [List.countP_map]
  refine List.countP_congr fun run hmem ↦ ?_
  rw [decide_eq_true_eq, ofClass_iff hmem value hc]
  simp

theorem lastRun_iff (hlast : (maximalRuns bits).getLast? = some run) (value : ℕ) {c : ℕ}
    (hc : c < 6) : LastRun bits value c ↔ (toSpell run).1 = value ∧ min (toSpell run).2 5 = c := by
  rw [← ofClass_iff (List.mem_of_getLast? hlast) value hc]
  unfold LastRun
  rw [hlast]
  simp

/-! ### What `fips140` counts -/

variable {block : List ℕ}

/-- The counters in front of the first bit. -/
def start : FipsCounts :=
  { ones := 0, poker := fun _ ↦ 0, runs := fun _ ↦ 0, runLength := 0, maxRun := 0,
    current := 0, last := 256 }

theorem fipsCounts_eq (block : List ℕ) :
    fipsCounts block =
      (((fipsBits block).foldl fipsBit start).withPoker (fipsNibbles block).count).fipsAdd := by
  unfold fipsCounts
  rw [foldl_fipsByte]
  congr 2
  ext j
  exact Nat.zero_add _

theorem ones_fipsCounts (block : List ℕ) : (fipsCounts block).ones = (fipsBits block).count 1 := by
  rw [fipsCounts_eq, ← sum_eq_count fun _ ↦ lt_two_of_mem]
  exact (foldl_ones _ _).trans (Nat.zero_add _)

theorem poker_fipsCounts (block : List ℕ) :
    (fipsCounts block).poker = (fipsNibbles block).count := by
  rw [fipsCounts_eq]
  rfl

theorem fipsBits_ne_nil (hblock : block ≠ []) : fipsBits block ≠ [] := by
  obtain ⟨c, block, rfl⟩ := List.exists_cons_of_ne_nil hblock
  exact List.cons_ne_nil _ _

theorem toSpell_lt_two {run : List ℕ} (hmem : run ∈ maximalRuns (fipsBits block)) :
    (toSpell run).1 < 2 := by
  obtain ⟨bit, rest, rfl⟩ := List.exists_cons_of_ne_nil (List.ne_nil_of_mem_splitBy hmem)
  refine lt_two_of_mem (show bit ∈ fipsBits block from ?_)
  rw [← List.flatten_splitBy (· == ·) (fipsBits block)]
  exact List.mem_flatten_of_mem hmem List.mem_cons_self

theorem head_bits {bits first : List ℕ} {rest : List (List ℕ)}
    (hruns : maximalRuns bits = first :: rest) (value : ℕ) :
    bits.head? = some value ↔ (toSpell first).1 = value := by
  obtain ⟨bit, others, rfl⟩ := List.exists_cons_of_ne_nil
    (List.ne_nil_of_mem_splitBy (show first ∈ bits.splitBy _ from hruns ▸ List.mem_cons_self))
  rw [← List.flatten_splitBy (· == ·) bits, ← maximalRuns, hruns]
  exact Option.some_inj

theorem runs_fipsCounts (hblock : block ≠ []) :
    (fipsCounts block).maxRun = 0 ∧
    ∀ value < 2, ∀ c < 6, (fipsCounts block).runs (c + 6 * value) = movedCount (fipsBits block)
      (1 - value) c := by
  have hne : maximalRuns (fipsBits block) ≠ [] := List.splitBy_ne_nil.mpr (fipsBits_ne_nil hblock)
  obtain ⟨first, rest, hruns⟩ := List.exists_cons_of_ne_nil hne
  obtain ⟨last, hlast⟩ := Option.ne_none_iff_exists'.mp (mt List.getLast?_eq_none_iff.mp hne)
  have hmap : (maximalRuns (fipsBits block)).map toSpell = toSpell first :: rest.map toSpell := by
    rw [hruns]; rfl
  have hlast' : toSpell last ∈ (toSpell first :: rest.map toSpell).getLast? := by
    rw [← hmap, List.getLast?_map, hlast]
    rfl
  have hbits : ∀ other ∈ toSpell first :: rest.map toSpell, other.1 < 2 := by
    intro other hother
    rw [← hmap] at hother
    obtain ⟨run, hmem, rfl⟩ := List.mem_map.mp hother
    exact toSpell_lt_two hmem
  have hchain := isChain_toSpell (fipsBits block)
  rw [hmap] at hchain
  have hstart : ∀ run ∈ (toSpell first :: rest.map toSpell).head?, run.1 ≠ start.last := by
    intro run hrun
    obtain rfl := Option.some.inj hrun
    have hlt : (toSpell first).1 < 2 := hbits _ List.mem_cons_self
    exact ne_of_lt (hlt.trans (by decide))
  obtain ⟨hmax, hcounts, hend⟩ := foldl_spells _ hchain hstart
  obtain ⟨hlength, hcurrent⟩ := hend _ hlast'
  rw [← hmap, flatMap_toSpell] at hmax hcounts hlength hcurrent
  refine ⟨?_, fun value hvalue c hc ↦ ?_⟩
  · rw [fipsCounts_eq]
    exact hmax
  · have hmoved := starts_add hvalue hc (rest.map toSpell) 0 (toSpell first) hbits hchain _ hlast'
    have hslot : slot (toSpell last).2 (toSpell last).1 = c + 6 * value ↔
        (toSpell last).1 = value ∧ min (toSpell last).2 5 = c := by
      unfold slot
      have := hbits _ (List.mem_of_mem_getLast? hlast')
      omega
    rw [fipsCounts_eq, fipsAdd_runs]
    change ((fipsBits block).foldl fipsBit start).runs _ +
      (if slot ((fipsBits block).foldl fipsBit start).runLength
        ((fipsBits block).foldl fipsBit start).current = _
        then 1 else 0) = _
    rw [hcounts, hlength, hcurrent, hmap]
    unfold movedCount
    rw [runCount_eq _ _ hc, hmap]
    simp only [hslot, head_bits hruns, lastRun_iff hlast _ hc,
      Nat.sub_sub_self (Nat.le_of_lt_succ hvalue)]
    have hzero : (min 0 5 = c) ↔ c = 0 := by omega
    have hruns0 : start.runs (c + 6 * value) = 0 := rfl
    have hlength0 : start.runLength = 0 := rfl
    rw [hruns0, hlength0]
    simp only [hzero] at hmoved
    omega

end FipsCounts

/-! ### The results -/

open FipsCounts

variable {block : List ℕ}

theorem and_one_result (flag : Bool) {k : ℕ} (hk : k &&& 1 = 0) :
    (flag.toNat ||| k) &&& 1 = 0 ↔ flag = false := by
  rw [Nat.and_or_distrib_right, hk, Nat.or_zero]
  cases flag <;> decide

theorem withinLimits_swap (count : ℕ → ℕ → ℕ) :
    WithinLimits (fun value ↦ count (1 - value)) ↔ WithinLimits count := by
  constructor
  · intro hwithin value hvalue c hc
    have hother := hwithin (1 - value) (by omega) c hc
    dsimp only at hother
    rwa [Nat.sub_sub_self (Nat.le_of_lt_succ hvalue)] at hother
  · exact fun hwithin value hvalue ↦ hwithin (1 - value) (by omega)

theorem monobit_fipsResults (block : List ℕ) :
    ((fipsResults (fipsCounts block)).getD 0 (0, none)).1 &&& 1 = 0 ↔
      9654 < (fipsBits block).count 1 ∧ (fipsBits block).count 1 < 10346 := by
  refine (and_one_result _ (by decide)).trans ?_
  rw [decide_eq_false_iff_not, ones_fipsCounts]
  omega

theorem poker_fipsResults (block : List ℕ) :
    ((fipsResults (fipsCounts block)).getD 1 (0, none)).1 &&& 1 = 0 ↔
      1562822 < ((List.range 16).map fun j ↦ (fipsNibbles block).count j ^ 2).sum ∧
        ((List.range 16).map fun j ↦ (fipsNibbles block).count j ^ 2).sum < 1580438 := by
  refine (and_one_result _ (by decide)).trans ?_
  simp only [decide_eq_false_iff_not, poker_fipsCounts, ← sq]
  omega

theorem runs_fipsResults (hblock : block ≠ []) :
    ((fipsResults (fipsCounts block)).getD 2 (0, none)).1 &&& 1 = 0 ↔ WithinLimits
      (movedCount (fipsBits block)) := by
  have hresult : ∀ flag : Bool, (3 <<< 8 ||| flag.toNat) &&& 1 = 0 ↔ flag = false := fun flag ↦ by
    rw [Nat.or_comm]
    exact and_one_result flag (by decide)
  refine (hresult _).trans (Iff.trans ?_ (withinLimits_swap _))
  have hruns := (runs_fipsCounts hblock).2
  simp only [List.any_eq_false, List.mem_range, Bool.or_eq_true, decide_eq_true_eq, not_or, not_lt]
  constructor
  · intro hwithin value hvalue c hc
    have hone := hwithin (c + 6 * value) (by omega)
    rwa [show (c + 6 * value) % 6 = c by omega, hruns value hvalue c hc] at hone
  · intro hwithin j hj
    have hone := hwithin (j / 6) (by omega) (j % 6) (by omega)
    dsimp only at hone
    rwa [← hruns (j / 6) (by omega) (j % 6) (by omega), Nat.mod_add_div] at hone

theorem longRun_fipsResults (hblock : block ≠ []) :
    ((fipsResults (fipsCounts block)).getD 3 (0, none)).1 &&& 1 = 0 := by
  refine (and_one_result _ (by decide)).mpr ?_
  rw [(runs_fipsCounts hblock).1]
  rfl

/-- The four results are right for exactly the blocks without a long run whose numbers of runs pass
the third test if and only if they do in the form in which they are counted. -/
theorem fipsMatches_iff (hblock : block.length = fipsLength) :
    FipsMatches block (fipsResults (fipsCounts block)) ↔
      (∀ run ∈ maximalRuns (fipsBits block), run.length < 34) ∧
        (WithinLimits (runCount (fipsBits block)) ↔
        WithinLimits (movedCount (fipsBits block))) := by
  have hne : block ≠ [] := List.ne_nil_of_length_pos (hblock ▸ by decide)
  constructor
  · intro hmatches
    exact ⟨hmatches.longRun.mp (longRun_fipsResults hne),
      hmatches.runs.symm.trans (runs_fipsResults hne)⟩
  · rintro ⟨hshort, hruns⟩
    exact
      { length := rfl
        monobit := monobit_fipsResults block
        poker := poker_fipsResults block
        runs := (runs_fipsResults hne).trans hruns.symm
        longRun := iff_of_true (longRun_fipsResults hne) hshort }

theorem maximalRuns_of_isChain {bits : List ℕ} (hchain : bits.IsChain (· ≠ ·)) :
    maximalRuns bits = bits.map fun bit ↦ [bit] := by
  refine List.splitBy_eq_iff.mpr ⟨?_, ?_, ?_, ?_⟩
  · rw [← List.flatMap_def, List.flatMap_singleton']
  · simp
  · intro run hmem
    obtain ⟨bit, -, rfl⟩ := List.mem_map.mp hmem
    exact List.isChain_singleton _
  · rw [List.isChain_map]
    exact hchain.imp fun bit other hne ↦
      ⟨List.cons_ne_nil _ _, List.cons_ne_nil _ _, beq_eq_false_iff_ne.mpr hne⟩

theorem isChain_alternating (n : ℕ) : (fipsBits (List.replicate n 0x55)).IsChain (· ≠ ·) := by
  induction n with
  | zero => exact List.isChain_nil
  | succ n ih =>
    have hsplit : fipsBits (List.replicate (n + 1) 0x55) =
      [0, 1, 0, 1, 0, 1, 0, 1] ++ fipsBits (List.replicate n 0x55) := rfl
    rw [hsplit]
    refine List.isChain_append.mpr ⟨by decide, ih, ?_⟩
    intro bit hbit other hother
    obtain rfl := Option.some.inj hbit
    cases n with
    | zero => cases hother
    | succ n =>
      obtain rfl := Option.some.inj hother
      decide

/-- Zeros and ones in turn. -/
theorem fipsMatches_iff_alternating :
    FipsMatches (List.replicate 2500 0x55)
      (fipsResults (fipsCounts (List.replicate 2500 0x55))) := by
  have hlength : (List.replicate 2500 0x55).length = fipsLength := List.length_replicate
  have hruns := maximalRuns_of_isChain (isChain_alternating 2500)
  have hone : ∀ run ∈ maximalRuns (fipsBits (List.replicate 2500 0x55)), run.length = 1 := by
    intro run hmem
    rw [hruns] at hmem
    obtain ⟨bit, -, rfl⟩ := List.mem_map.mp hmem
    rfl
  have hclass : ∀ run ∈ maximalRuns (fipsBits (List.replicate 2500 0x55)), ¬ OfClass 1 run := by
    intro run hmem hclass
    exact absurd ((hone run hmem).symm.trans hclass) (by decide)
  have hcount : runCount (fipsBits (List.replicate 2500 0x55)) 0 1 = 0 :=
    List.countP_eq_zero.mpr fun run hmem ↦ by simp [hclass run hmem]
  have hlast : ∀ value, ¬ LastRun (fipsBits (List.replicate 2500 0x55)) value 1 := by
    rintro value ⟨run, hmem, -, htwo⟩
    exact hclass run (List.mem_of_getLast? hmem) htwo
  have hmoved : movedCount (fipsBits (List.replicate 2500 0x55)) 0 1 = 0 := by
    rw [movedCount, hcount, if_neg (hlast _), if_neg (hlast _)]
    rfl
  refine (fipsMatches_iff hlength).mpr ⟨fun run hmem ↦
    ?_, iff_of_false (fun hwithin ↦ ?_) fun hwithin ↦ ?_⟩
  · rw [hone run hmem]
    decide
  · exact absurd (hcount ▸ (hwithin 0 (by decide) 1 (by decide)).1) (by decide)
  · exact absurd (hmoved ▸ (hwithin 0 (by decide) 1 (by decide)).1) (by decide)

theorem maximalRuns_zeros (n : ℕ) :
    maximalRuns (fipsBits (List.replicate (n + 1) 0)) = [List.replicate ((n + 1) * 8) 0] := by
  have hbyte : byteBits 0 = List.replicate 8 0 := rfl
  rw [fipsBits, List.flatMap_replicate, hbyte, List.flatten_replicate_replicate]
  exact List.splitBy_of_isChain (List.ne_nil_of_length_pos (by rw [List.length_replicate]; omega))
    (List.isChain_replicate_of_rel _ rfl)

/-- A block of zeros is one run, and passes the test of the long runs. -/
theorem not_fipsMatches_zeros :
    ¬ FipsMatches (List.replicate 2500 0) (fipsResults (fipsCounts (List.replicate 2500 0))) := by
  intro hmatches
  have hne : List.replicate 2500 0 ≠ [] := List.cons_ne_nil _ _
  have hmem :
    List.replicate ((2499 + 1) * 8) 0 ∈ maximalRuns (fipsBits (List.replicate 2500 0)) := by
    rw [maximalRuns_zeros 2499]
    exact List.mem_singleton_self _
  have hshort := hmatches.longRun.mp (longRun_fipsResults hne) _ hmem
  rw [List.length_replicate] at hshort
  omega

end CrossBreeder.Haveged
