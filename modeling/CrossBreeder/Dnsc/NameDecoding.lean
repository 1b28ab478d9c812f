import CrossBreeder.Foundation.EndingLoop
import Mathlib.Data.Int.Order.Basic
import Mathlib.Data.Nat.Init

/-!
# Decoding a name

`ReadName` collects the bytes of a name, and follows pointers, until it meets a zero byte. Both
loops go where the packet leads them. The first ends exactly if the walk through the packet does
(`Walk`), and the writes of both stay inside the block of 256 bytes exactly if there is a byte,
there are at most 255 of them, and the labels span at most 256 (`readsSafely_iff`).
-/

namespace CrossBreeder.Dnsc

open Foundation (Round Returns runRounds)

/-! ### The code -/

/-- The memory that `name` points into, seen from there, and the indices that were written. -/
structure NameBlock where
  cell : ℤ → UInt8
  written : List ℤ

/-- `name[i] = c`. -/
def NameBlock.set (name : NameBlock) (i : ℤ) (c : UInt8) : NameBlock :=
  ⟨Function.update name.cell i c, i :: name.written⟩

/-- The variables of the first loop, and the places of the packet that it looked at. -/
structure ReadState where
  jumped : Bool
  count : ℕ
  p : ℕ
  name : NameBlock
  reader : ℕ
  seen : List ℕ

/-- `offset`, from the two bytes of a pointer. -/
def pointed (high low : UInt8) : ℕ := high.toNat * 256 + low.toNat - 49152

/-- `offset`, for a pointer at a place. -/
def offsetAt (mem : ℕ → UInt8) (reader : ℕ) : ℕ := pointed (mem reader) (mem (reader + 1))

/-- The branch for a pointer. The reader is set to one before the place and moves on. -/
def ReadState.jump (mem : ℕ → UInt8) (s : ReadState) : ReadState :=
  { s with
    reader := offsetAt mem s.reader
    jumped := true
    seen := (s.reader + 1) :: s.reader :: s.seen }

/-- The branch for a byte of the name. -/
def ReadState.take (mem : ℕ → UInt8) (s : ReadState) : ReadState :=
  { s with
    reader := s.reader + 1
    p := s.p + 1
    count := if s.jumped then s.count else s.count + 1
    name := s.name.set s.p (mem s.reader)
    seen := s.reader :: s.seen }

def readRound (mem : ℕ → UInt8) (s : ReadState) : Round ReadState ReadState :=
  if mem s.reader = 0 then .ret { s with seen := s.reader :: s.seen }
  else if 192 ≤ mem s.reader then .again (s.jump mem)
  else .again (s.take mem)

/-- The end of the string, and the second byte of a pointer. -/
def ReadState.completed (s : ReadState) : ReadState :=
  { s with name := s.name.set s.p 0, count := if s.jumped then s.count + 1 else s.count }

/-- The loop that moves the characters of a label. -/
def shiftLabel : ℕ → ℕ → NameBlock → NameBlock
  | 0, _, name => name
  | j + 1, i, name => shiftLabel j (i + 1) (name.set i (name.cell (i + 1)))

structure ConvertState where
  i : ℕ
  name : NameBlock

/-- One round of the second loop, and what comes behind it. The index is less than the length of the
string if no zero byte is up to it. -/
def convertRound (s : ConvertState) : Round ConvertState NameBlock :=
  if ∀ k ∈ List.range (s.i + 1), s.name.cell k ≠ 0 then
    let p := (s.name.cell s.i).toNat
    .again ⟨s.i + p + 1, (shiftLabel p s.i s.name).set (s.i + p : ℕ) 46⟩
  else .ret (s.name.set (s.i - 1) 0)

/-- What `ReadName` leaves behind. -/
structure NameResult where
  name : NameBlock
  count : ℕ
  seen : List ℕ

/-- The variables at the start, with what is in the memory that `malloc` returns. -/
def readStart (heap : ℤ → UInt8) (reader : ℕ) : ReadState where
  reader := reader
  p := 0
  jumped := false
  count := 1
  name := NameBlock.set ⟨heap, []⟩ 0 0
  seen := []

/-- `ReadName` on a packet and what is behind it in memory, with a bound on the rounds of its
loops. -/
def readName (mem : ℕ → UInt8) (heap : ℤ → UInt8) (reader rounds : ℕ) : Option NameResult :=
  (runRounds (readRound mem) rounds (readStart heap reader)).bind fun s ↦
    (runRounds convertRound rounds ⟨0, s.completed.name⟩).map fun name ↦
      ⟨name, s.completed.count, s.seen⟩

/-! ### Where the packet leads -/

/-- From a place the bytes of a name are found, up to a zero byte and through pointers. -/
inductive Walk (mem : ℕ → UInt8) : ℕ → List UInt8 → ℕ → Prop
  | root {place : ℕ} (hzero : mem place = 0) : Walk mem place [] 1
  | pointer {place : ℕ} {text : List UInt8} {size : ℕ} (hpointer : 192 ≤ mem place)
      (hrest : Walk mem (offsetAt mem place) text size) : Walk mem place text 2
  | literal {place : ℕ} {text : List UInt8} {size : ℕ} (hne : mem place ≠ 0) (hlow :
    ¬ 192 ≤ mem place)
      (hrest : Walk mem (place + 1) text size) : Walk mem place (mem place :: text) (size + 1)

/-- The bytes that the labels of a text take, each with its length byte, where the last one may go
beyond the end. -/
def spanned : List UInt8 → ℕ
  | [] => 0
  | c :: text => c.toNat + 1 + spanned (text.drop c.toNat)
  termination_by text => text.length
  decreasing_by exact Nat.lt_succ_of_le (List.length_drop ▸ Nat.sub_le ..)

/-- It terminates, and writes in its block only. -/
def ReadsSafely (mem : ℕ → UInt8) (heap : ℤ → UInt8) (reader : ℕ) : Prop :=
  ∃ rounds result, readName mem heap reader rounds = some result ∧ ∀ i ∈ result.name.written,
    0 ≤ i ∧ i ≤ 255

/-! ### The first loop -/

variable {mem : ℕ → UInt8} {heap : ℤ → UInt8} {text : List UInt8} {start size : ℕ}
    {name result : NameBlock}

@[simp] theorem NameBlock.cell_set (name : NameBlock) (i k : ℤ) (c : UInt8) :
    (name.set i c).cell k = if k = i then c else name.cell k := by
  simp [NameBlock.set, Function.update_apply]

@[simp] theorem NameBlock.written_set (name : NameBlock) (i : ℤ) (c : UInt8) :
    (name.set i c).written = i :: name.written := rfl

theorem ne_zero_of_pointer (hpointer : 192 ≤ mem start) : mem start ≠ 0 := by
  intro hzero
  have hle := UInt8.le_iff_toNat_le.mp hpointer
  rw [hzero] at hle
  exact absurd hle (by decide)

theorem readRound_of_pointer {s : ReadState} (hpointer : 192 ≤ mem s.reader) :
    readRound mem s = .again (s.jump mem) :=
  (if_neg (ne_zero_of_pointer hpointer)).trans (if_pos hpointer)

theorem of_readRound_eq_ret {s value : ReadState} (hround : readRound mem s = .ret value) :
    mem s.reader = 0 ∧ value = { s with seen := s.reader :: s.seen } := by
  by_cases hzero : mem s.reader = 0
  · exact ⟨hzero, (Round.ret.inj ((if_pos hzero).symm.trans hround)).symm⟩
  · have hnext := (if_neg hzero).symm.trans hround
    split_ifs at hnext

theorem of_readRound_eq_again {s t : ReadState} (hround : readRound mem s = .again t) :
    (192 ≤ mem s.reader ∧ t = s.jump mem) ∨
      (mem s.reader ≠ 0 ∧ ¬ 192 ≤ mem s.reader ∧ t = s.take mem) := by
  by_cases hzero : mem s.reader = 0
  · exact nomatch (if_pos hzero).symm.trans hround
  · have hnext := (if_neg hzero).symm.trans hround
    by_cases hpointer : 192 ≤ mem s.reader
    · exact .inl ⟨hpointer, (Round.again.inj ((if_pos hpointer).symm.trans hnext)).symm⟩
    · exact .inr ⟨hzero, hpointer, (Round.again.inj ((if_neg hpointer).symm.trans hnext)).symm⟩

def NameBlock.write (name : NameBlock) : ℕ → List UInt8 → NameBlock
  | _, [] => name
  | p, c :: text => (name.set p c).write (p + 1) text

theorem Walk.ne_zero (hwalk : Walk mem start text size) : ∀ c ∈ text, c ≠ 0 := by
  induction hwalk with
  | root => exact fun _ h ↦ nomatch h
  | pointer hpointer hrest ih => exact ih
  | literal hne hlow hrest ih => exact List.forall_mem_cons.mpr ⟨hne, ih⟩

theorem exists_returns_of_walk (hwalk : Walk mem start text size) (s : ReadState)
    (hs : s.reader = start) :
    ∃ s', Returns (readRound mem) s s' ∧ s'.p = s.p + text.length ∧
      s'.name = s.name.write s.p text ∧
      s'.completed.count + 1 = s.count + if s.jumped then 2 else size := by
  induction hwalk generalizing s with
  | root hzero =>
    subst hs
    refine ⟨_, .ret (if_pos hzero), rfl, rfl, ?_⟩
    cases s.jumped <;> rfl
  | @pointer place text size hpointer hrest ih =>
    subst hs
    obtain ⟨s', hreturns, hp, hname, hcount⟩ := ih (s.jump mem) rfl
    refine ⟨s', .again (readRound_of_pointer hpointer) hreturns, hp, hname, ?_⟩
    rw [hcount]
    cases s.jumped <;> rfl
  | @literal place text size hne hlow hrest ih =>
    subst hs
    have hround : readRound mem s = .again (s.take mem) := (if_neg hne).trans (if_neg hlow)
    obtain ⟨s', hreturns, hp, hname, hcount⟩ := ih (s.take mem) rfl
    refine ⟨s', .again hround hreturns, ?_, hname, ?_⟩
    · rw [hp, List.length_cons]
      dsimp only [ReadState.take]
      omega
    · rw [hcount]
      unfold ReadState.take
      by_cases hjumped : s.jumped = true
      · simp [hjumped]
      · simp only [hjumped, Bool.false_eq_true, if_false]
        omega

theorem exists_walk_of_returns {s s' : ReadState} (hreturns : Returns (readRound mem) s s') :
    ∃ text size, Walk mem s.reader text size := by
  induction hreturns with
  | ret hbody => exact ⟨[], 1, .root (of_readRound_eq_ret hbody).1⟩
  | again hbody hrest ih =>
    obtain ⟨text, size, hwalk⟩ := ih
    rcases of_readRound_eq_again hbody with ⟨hpointer, rfl⟩ | ⟨hne, hlow, rfl⟩
    · exact ⟨text, 2, .pointer hpointer hwalk⟩
    · exact ⟨_, _, .literal hne hlow hwalk⟩

/-! ### The second loop -/

def NameBlock.HoldsAt (name : NameBlock) (i : ℕ) (bytes : List UInt8) : Prop :=
  ∀ k c, bytes[k]? = some c → name.cell (i + k : ℕ) = c

theorem cell_shiftLabel (j i : ℕ) (name : NameBlock) (k : ℤ) :
    (shiftLabel j i name).cell k = if (i : ℤ) ≤ k ∧ k < i + j then name.cell
      (k + 1) else name.cell k := by
  induction j generalizing i name with
  | zero =>
    rw [if_neg (by omega)]
    rfl
  | succ j ih =>
    rw [shiftLabel, ih, NameBlock.cell_set, NameBlock.cell_set]
    grind

theorem mem_written_shiftLabel (j i : ℕ) (name : NameBlock) (k : ℤ) :
    k ∈ (shiftLabel j i name).written ↔ k ∈ name.written ∨ ((i : ℤ) ≤ k ∧ k < i + j) := by
  induction j generalizing i name with
  | zero =>
    rw [shiftLabel]
    grind
  | succ j ih =>
    rw [shiftLabel, ih, NameBlock.written_set, List.mem_cons]
    grind

/-- The block behind a round, for a label whose length byte is at the index. -/
def moved (name : NameBlock) (i : ℕ) (c : UInt8) : NameBlock :=
  (shiftLabel c.toNat i name).set (i + c.toNat : ℕ) 46

theorem cell_moved (name : NameBlock) (i : ℕ) (c : UInt8) (k : ℤ) :
    (moved name i c).cell k =
      if k = i + c.toNat then 46 else if (i : ℤ) ≤ k ∧ k < i + c.toNat then
      name.cell (k + 1) else name.cell k := by
  rw [moved, NameBlock.cell_set, cell_shiftLabel]
  push_cast
  rfl

theorem mem_written_moved (name : NameBlock) (i : ℕ) (c : UInt8) (k : ℤ) :
    k ∈ (moved name i c).written ↔ k ∈ name.written ∨ ((i : ℤ) ≤ k ∧ k < i + c.toNat + 1) := by
  rw [moved, NameBlock.written_set, List.mem_cons, mem_written_shiftLabel]
  grind

def Filled (name : NameBlock) (i : ℕ) : Prop := ∀ k < i, name.cell k ≠ 0

variable {i : ℕ}

theorem convertRound_of_cons {c : UInt8} (hfilled : Filled name i) (hne : c ≠ 0)
    (hc : name.cell i = c) : convertRound ⟨i, name⟩ = .again ⟨i + c.toNat + 1, moved name i c⟩ := by
  have hall : ∀ k ∈ List.range (i + 1), name.cell k ≠ 0 := by
    intro k hk
    rcases Nat.lt_succ_iff_lt_or_eq.mp (List.mem_range.mp hk) with hlt | rfl
    · exact hfilled k hlt
    · exact hc ▸ hne
  refine (if_pos hall).trans ?_
  rw [hc]
  rfl

theorem convertRound_of_zero {i z : ℕ} (hz : z ≤ i) (hzero : name.cell z = 0) :
    convertRound ⟨i, name⟩ = .ret (name.set (i - 1) 0) :=
  if_neg fun hall ↦ hall z (List.mem_range.mpr (Nat.lt_succ_of_le hz)) hzero

variable {text : List UInt8}

theorem holdsAt_moved {c : UInt8} (hholds : name.HoldsAt i (c :: text ++ [0]))
    (hend : c.toNat ≤ text.length) :
    (moved name i c).HoldsAt (i + c.toNat + 1) (text.drop c.toNat ++ [0]) := by
  intro k b hb
  rw [cell_moved, if_neg (by push_cast; omega), if_neg (by push_cast; omega)]
  rw [← List.drop_append_of_le_length hend, List.getElem?_drop] at hb
  have hbyte := hholds (c.toNat + k + 1) b hb
  rwa [show i + (c.toNat + k + 1) = i + c.toNat + 1 + k by omega] at hbyte

theorem filled_moved {c : UInt8} (hholds : name.HoldsAt i (c :: text ++ [0]))
    (hfilled : Filled name i) (hne : ∀ b ∈ text, b ≠ 0) (hend : c.toNat ≤ text.length) :
    Filled (moved name i c) (i + c.toNat + 1) := by
  intro k hk
  rw [cell_moved]
  by_cases hdot : k = i + c.toNat
  · rw [if_pos (by omega)]
    decide
  rw [if_neg (by omega)]
  by_cases hlow : k < i
  · rw [if_neg (by omega)]
    exact hfilled k hlow
  · rw [if_pos (by omega)]
    obtain ⟨j, rfl⟩ := Nat.exists_eq_add_of_le (Nat.le_of_not_lt hlow)
    have hj : j < text.length := by omega
    have hbyte :=
      hholds (j + 1) text[j] (List.getElem?_append_left hj ▸ List.getElem?_eq_getElem hj)
    have hcell : name.cell ((i + j : ℕ) + 1) = text[j] := by
      rw [← hbyte]
      push_cast
      rw [Int.add_assoc]
    rw [hcell]
    exact hne _ (List.getElem_mem hj)

theorem cell_moved_end {c : UInt8} (hholds : name.HoldsAt i (c :: text ++ [0]))
    (hend : text.length < c.toNat) : (moved name i c).cell (i + text.length : ℕ) = 0 := by
  have hzero := hholds (text.length + 1) 0 (by simp)
  rw [cell_moved, if_neg (by push_cast; omega), if_pos (by push_cast; omega), ← hzero]
  push_cast
  rw [Int.add_assoc]

theorem spanned_cons (c : UInt8) (text : List UInt8) :
    spanned (c :: text) = c.toNat + 1 + spanned (text.drop c.toNat) := by
  rw [spanned]

@[simp] theorem spanned_nil : spanned [] = 0 := by rw [spanned]

theorem exists_returns_convert (hne : ∀ c ∈ text, c ≠ 0) (hfilled : Filled name i)
    (hholds : name.HoldsAt i (text ++ [0])) :
    ∃ result, Returns convertRound ⟨i, name⟩ result ∧
      ∀ w, w ∈ result.written ↔
        w ∈ name.written ∨ if text = [] then w = i - 1 else (i : ℤ) ≤ w ∧ w < i + spanned text := by
  induction hlength : text.length using Nat.strong_induction_on generalizing text i name with
  | _ length ih =>
    subst hlength
    cases text with
    | nil =>
      refine ⟨_, .ret (convertRound_of_zero (Nat.le_refl i) (hholds 0 0 rfl)), fun w ↦ ?_⟩
      rw [NameBlock.written_set, List.mem_cons, if_pos rfl, or_comm]
    | cons c text =>
      obtain ⟨hc, hne⟩ := List.forall_mem_cons.mp hne
      have hround := convertRound_of_cons hfilled hc (hholds 0 c rfl)
      rcases Nat.lt_or_ge text.length c.toNat with hend | hend
      · have hdrop : text.drop c.toNat = [] := List.drop_eq_nil_of_le (Nat.le_of_lt hend)
        refine ⟨_, .again hround
          (.ret (convertRound_of_zero (by omega) (cell_moved_end hholds hend))), fun w ↦ ?_⟩
        rw [if_neg (List.cons_ne_nil c text), spanned_cons, NameBlock.written_set, List.mem_cons,
          mem_written_moved, hdrop, spanned_nil]
        push_cast
        grind
      · have hshorter : (text.drop c.toNat).length < (c :: text).length := by
          rw [List.length_drop, List.length_cons]
          omega
        obtain ⟨result, hreturns, hwritten⟩ :=
          ih _ hshorter (fun b hb ↦ hne b (List.mem_of_mem_drop hb))
          (filled_moved hholds hfilled hne hend) (holdsAt_moved hholds hend) rfl
        refine ⟨result, .again hround hreturns, fun w ↦ ?_⟩
        rw [if_neg (List.cons_ne_nil c text), spanned_cons, hwritten, mem_written_moved]
        by_cases hnil : text.drop c.toNat = []
        · rw [if_pos hnil, hnil, spanned_nil]
          push_cast
          grind
        · rw [if_neg hnil]
          push_cast
          grind

/-! ### Both loops -/

theorem eq_of_getElem?_singleton {k : ℕ} {b c : UInt8} (hb : [c][k]? = some b) : k = 0 ∧ c = b := by
  cases k with
  | zero => exact ⟨rfl, Option.some.inj hb⟩
  | succ k => exact nomatch hb

theorem cell_write (name : NameBlock) (p : ℕ) (text : List UInt8) (k : ℤ) (hk : k < p) :
    (name.write p text).cell k = name.cell k := by
  induction text generalizing name p with
  | nil => rfl
  | cons c text ih =>
    rw [NameBlock.write, ih _ _ (by push_cast; omega), NameBlock.cell_set, if_neg (by omega)]

theorem holdsAt_write (name : NameBlock) (p : ℕ) (text : List UInt8) :
    ((name.write p text).set (p + text.length : ℕ) 0).HoldsAt p (text ++ [0]) := by
  induction text generalizing name p with
  | nil =>
    intro k c hc
    obtain ⟨rfl, rfl⟩ := eq_of_getElem?_singleton hc
    exact (NameBlock.cell_set ..).trans (if_pos rfl)
  | cons c text ih =>
    intro k b hb
    cases k with
    | zero =>
      obtain rfl := Option.some.inj hb
      rw [NameBlock.cell_set, if_neg (by rw [List.length_cons]; omega), NameBlock.write,
        cell_write _ _ _ _ (by push_cast; omega), NameBlock.cell_set]
      exact if_pos rfl
    | succ k =>
      have hrest := ih (name.set p c) (p + 1) k b hb
      rwa [show p + 1 + k =
        p + (k + 1) by omega, show p + 1 + text.length = p + (c :: text).length by
        rw [List.length_cons]; omega] at hrest

theorem mem_written_write (name : NameBlock) (p : ℕ) (text : List UInt8) (w : ℤ) :
    w ∈ (name.write p text).written ↔ w ∈ name.written ∨ ((p : ℤ) ≤ w ∧ w < p + text.length) := by
  induction text generalizing name p with
  | nil =>
    rw [NameBlock.write, List.length_nil]
    grind
  | cons c text ih =>
    rw [NameBlock.write, ih, NameBlock.written_set, List.mem_cons, List.length_cons]
    push_cast
    grind

theorem exists_walk_of_readName {reader rounds : ℕ} {r : NameResult}
    (hread : readName mem heap reader rounds = some r) :
    ∃ text block s, Walk mem reader text r.count ∧ block.HoldsAt 0 (text ++ [0]) ∧
      (∀ w, w ∈ block.written ↔ 0 ≤ w ∧ w ≤ (text.length : ℤ)) ∧
      Returns convertRound ⟨0, block⟩ r.name ∧
      Returns (readRound mem) (readStart heap reader) s ∧ r.seen = s.seen := by
  obtain ⟨s, hfirst, hsecond⟩ := Option.bind_eq_some_iff.mp hread
  obtain ⟨name, hconvert, rfl⟩ := Option.map_eq_some_iff.mp hsecond
  have hreturns := Foundation.returns_of_runRounds rounds hfirst
  obtain ⟨text, size, hwalk⟩ := exists_walk_of_returns hreturns
  obtain ⟨s', hreturns', hp, hname, hcount⟩ :=
    exists_returns_of_walk hwalk (readStart heap reader) rfl
  obtain rfl := hreturns.unique hreturns'
  have hsize : s.completed.count = size := by
    have hstart : s.completed.count + 1 = 1 + size := hcount
    omega
  have hblock : s.completed.name =
    ((NameBlock.set ⟨heap, []⟩ 0 0).write 0 text).set (0 + text.length : ℕ) 0 := by
    change s.name.set s.p 0 = _
    rw [hp, hname]
    rfl
  refine ⟨text, s.completed.name, s, hsize ▸ hwalk, hblock ▸ holdsAt_write _ 0 text, fun w ↦ ?_,
    Foundation.returns_of_runRounds rounds hconvert, hreturns, rfl⟩
  rw [hblock, NameBlock.written_set, List.mem_cons, mem_written_write, NameBlock.written_set,
    List.mem_singleton]
  push_cast
  omega

theorem exists_readName_of_walk (heap : ℤ → UInt8) (hwalk : Walk mem start text size) :
    ∃ rounds r, readName mem heap start rounds = some r := by
  obtain ⟨s, hreturns, hp, hname, -⟩ := exists_returns_of_walk hwalk (readStart heap start) rfl
  have hholds : s.completed.name.HoldsAt 0 (text ++ [0]) := by
    have hblock : s.completed.name =
      ((readStart heap start).name.write 0 text).set (0 + text.length : ℕ) 0 := by
      change s.name.set s.p 0 = _
      rw [hp, hname]
      rfl
    exact hblock ▸ holdsAt_write _ 0 text
  obtain ⟨result, hconvert, -⟩ :=
    exists_returns_convert hwalk.ne_zero (fun k hk ↦ absurd hk (Nat.not_lt_zero k)) hholds
  obtain ⟨rounds₁, hfirst⟩ := hreturns.exists_rounds
  obtain ⟨rounds₂, hsecond⟩ := hconvert.exists_rounds
  refine ⟨max rounds₁ rounds₂, ⟨result, s.completed.count, s.seen⟩, ?_⟩
  unfold readName
  rw [Foundation.runRounds_of_le (Nat.le_max_left ..) hfirst, Option.bind_some,
    Foundation.runRounds_of_le (Nat.le_max_right ..) hsecond]
  rfl

theorem readName_of_le {reader rounds more : ℕ} {r : NameResult} (hle : rounds ≤ more)
    (hread : readName mem heap reader rounds = some r) :
    readName mem heap reader more = some r := by
  obtain ⟨s, hfirst, hsecond⟩ := Option.bind_eq_some_iff.mp hread
  obtain ⟨name, hconvert, rfl⟩ := Option.map_eq_some_iff.mp hsecond
  unfold readName
  rw [Foundation.runRounds_of_le hle hfirst, Option.bind_some,
    Foundation.runRounds_of_le hle hconvert]
  rfl

theorem Walk.unique {text' : List UInt8} {size' : ℕ} (hwalk : Walk mem start text size)
    (hwalk' : Walk mem start text' size') : text = text' ∧ size = size' := by
  induction hwalk generalizing text' size' with
  | root hzero =>
    cases hwalk' with
    | root => exact ⟨rfl, rfl⟩
    | pointer hpointer => exact absurd hzero (ne_zero_of_pointer hpointer)
    | literal hne => exact absurd hzero hne
  | pointer hpointer hrest ih =>
    cases hwalk' with
    | root hzero => exact absurd hzero (ne_zero_of_pointer hpointer)
    | pointer hpointer' hrest' => exact ⟨(ih hrest').1, rfl⟩
    | literal hne hlow => exact absurd hpointer hlow
  | literal hne hlow hrest ih =>
    cases hwalk' with
    | root hzero => exact absurd hzero hne
    | pointer hpointer => exact absurd hpointer hlow
    | literal hne' hlow' hrest' =>
      obtain ⟨rfl, rfl⟩ := ih hrest'
      exact ⟨rfl, rfl⟩

theorem mem_written_of_readName {reader rounds : ℕ} {r : NameResult}
    (hwalk : Walk mem reader text size) (hread : readName mem heap reader rounds = some r) (w : ℤ) :
    w ∈ r.name.written ↔
      (0 ≤ w ∧ w ≤ (text.length : ℤ)) ∨ if text = [] then w = -1 else 0 ≤ w ∧
      w < (spanned text : ℤ) := by
  obtain ⟨text', block, s, hwalk', hholds, hwritten, hconvert, -⟩ := exists_walk_of_readName hread
  obtain ⟨rfl, rfl⟩ := hwalk.unique hwalk'
  obtain ⟨result, hconvert', hmem⟩ :=
    exists_returns_convert hwalk.ne_zero (fun k hk ↦ absurd hk (Nat.not_lt_zero k)) hholds
  rw [hconvert.unique hconvert', hmem, hwritten]
  simp

/-- It ends and stays in its block exactly if the walk ends with one byte or more and with 255 at
most, and with labels that span 256 bytes at most. -/
theorem readsSafely_iff (mem : ℕ → UInt8) (heap : ℤ → UInt8) (reader : ℕ) :
    ReadsSafely mem heap reader ↔
      ∃ text size, Walk mem reader text size ∧ 1 ≤ text.length ∧ text.length ≤ 255 ∧
      spanned text ≤ 256 := by
  constructor
  · rintro ⟨rounds, r, hread, hinside⟩
    obtain ⟨text, block, s, hwalk, -⟩ := exists_walk_of_readName hread
    have hmem := mem_written_of_readName hwalk hread
    have hne : text ≠ [] := by
      rintro rfl
      have hbefore := hinside (-1) ((hmem _).mpr (.inr ((if_pos rfl).mpr rfl)))
      omega
    have hlast := hinside text.length ((hmem _).mpr (.inl ⟨by omega, by omega⟩))
    refine ⟨text, r.count, hwalk, List.length_pos_iff.mpr hne, by omega, ?_⟩
    by_contra hlong
    have hend := hinside 256 ((hmem _).mpr (.inr (by rw [if_neg hne]; omega)))
    omega
  · rintro ⟨text, size, hwalk, hpos, hshort, hspan⟩
    obtain ⟨rounds, r, hread⟩ := exists_readName_of_walk heap hwalk
    refine ⟨rounds, r, hread, fun w hw ↦ ?_⟩
    rw [mem_written_of_readName hwalk hread, if_neg (List.length_pos_iff.mp hpos)] at hw
    omega

theorem not_walk_selfPointer {place : ℕ} (hplace : place = 0) :
    ¬ Walk (fun i ↦ if i = 0 then 192 else 0) place text size := by
  intro hwalk
  induction hwalk with
  | root hzero =>
    subst hplace
    exact absurd hzero (by decide)
  | pointer hpointer hrest ih =>
    subst hplace
    exact ih rfl
  | literal hne hlow hrest ih =>
    subst hplace
    exact absurd hlow (by decide)

/-- The root name is ended before the block, and a pointer to itself is followed for ever. -/
theorem not_readsSafely_root :
    ¬ ReadsSafely (fun _ ↦ 0) (fun _ ↦ 0) 0 ∧ ¬ ReadsSafely (fun i ↦ if i = 0 then 192 else 0)
      (fun _ ↦ 0) 0 := by
  constructor
  · rintro ⟨rounds, r, hread, hinside⟩
    have hwalk : Walk (fun _ ↦ 0) 0 [] 1 := .root rfl
    have hbefore :=
      hinside (-1) ((mem_written_of_readName hwalk hread _).mpr (.inr ((if_pos rfl).mpr rfl)))
    omega
  · rintro ⟨rounds, r, hread, -⟩
    obtain ⟨text, block, s, hwalk, -⟩ := exists_walk_of_readName hread
    exact not_walk_selfPointer rfl hwalk

end CrossBreeder.Dnsc
