import CrossBreeder.Haveged.ProcedureA

/-!
# The autocorrelation test

The comment at `test5XOR` gives the sum that the test is about, bit by bit. The fast version takes
the first 8 bits out of one word and then 24 bits out of a word in each round, but the pointers move
on by 3 bytes from the start, so that the bits 8 to 23 are left out and the 16 bits behind the end
are counted in their place. On a little-endian host the two sums are the same exactly if these bits
come to the same number (`test5XOR_eq_iff`).
-/

namespace CrossBreeder.Haveged

/-! ### The reference -/

def test5Term (src : List ℕ) (i j : ℕ) : ℕ :=
  1 &&& (src.getD (i >>> 3) 0 >>> (i &&& 7) ^^^ src.getD (j >>> 3) 0 >>> (j &&& 7))

/-- The reference implementation in the comment at `test5XOR`. -/
def test5Reference (src : List ℕ) (shift : ℕ) : ℕ :=
  ((List.range test5Length).map fun i ↦ test5Term src i (i + shift)).sum

/-- The terms from one bit to another. -/
def termsFrom (src : List ℕ) (shift start count : ℕ) : ℕ :=
  ((List.range count).map fun k ↦ test5Term src (start + k) (start + k + shift)).sum

/-! ### Bits of words -/

section Words

variable {src : List ℕ}

theorem getD_lt (hsrc : ∀ byte ∈ src, byte < 256) (n : ℕ) : src.getD n 0 < 256 := by
  rw [List.getD_eq_getElem?_getD]
  cases hbyte : src[n]? with
  | none => simp
  | some byte => exact hsrc byte (List.mem_of_getElem? hbyte)

theorem low_bit (low high : ℕ) {r : ℕ} (hr : r < 8) :
    (low + 256 * high) / 2 ^ r % 2 = low / 2 ^ r % 2 := by
  have hsplit : 256 * high = 2 ^ r * (2 * (2 ^ (7 - r) * high)) := by
    have hpow : (2 : ℕ) ^ r * 2 ^ (7 - r) = 2 ^ 7 := by
      rw [← Nat.pow_add, Nat.add_sub_cancel' (by omega)]
    calc 256 * high = 2 * (2 ^ 7 * high) := by ring
      _ = 2 ^ r * (2 * (2 ^ (7 - r) * high)) := by rw [← hpow]; ring
  rw [hsplit, Nat.add_mul_div_left _ _ (Nat.two_pow_pos r), Nat.add_mul_mod_self_left]

theorem digits_bit {digits : List ℕ} (hdigits : ∀ digit ∈ digits, digit < 256) (q : ℕ) {r : ℕ}
    (hr : r < 8) :
    digits.foldr (fun digit high ↦ digit + 256 * high) 0 / 256 ^ q / 2 ^ r % 2 =
      digits.getD q 0 / 2 ^ r % 2 := by
  induction digits generalizing q with
  | nil => simp
  | cons digit digits ih =>
    obtain ⟨hdigit, hothers⟩ := List.forall_mem_cons.mp hdigits
    rw [List.foldr_cons]
    generalize digits.foldr (fun digit high ↦ digit + 256 * high) 0 = high at ih
    cases q with
    | zero => rw [Nat.pow_zero, Nat.div_one, low_bit _ _ hr, List.getD_cons_zero]
    | succ q =>
      have hnext : (digit + 256 * high) / 256 = high := by omega
      rw [Nat.pow_succ', ← Nat.div_div_eq_div_mul, hnext, ih hothers, List.getD_cons_succ]

theorem word_eq (byte : ℕ → ℕ) : ((List.range 4).map fun k ↦ byte k * 256 ^ k).sum =
    ((List.range 4).map byte).foldr (fun digit high ↦ digit + 256 * high) 0 := by
  have hrange : List.range 4 = [0, 1, 2, 3] := rfl
  have hsum : ∀ a b c d : ℕ, [a, b, c, d].sum = a + (b + (c + (d + 0))) := fun _ _ _ _ ↦ rfl
  have hdigits : ∀ a b c d : ℕ, [a, b, c, d].foldr (fun digit high ↦ digit + 256 * high) 0 =
      a + 256 * (b + 256 * (c + 256 * (d + 256 * 0))) := fun _ _ _ _ ↦ rfl
  rw [hrange, List.map_cons, List.map_cons, List.map_cons, List.map_cons, List.map_nil, hsum,
    List.map_cons, List.map_cons, List.map_cons, List.map_cons, List.map_nil, hdigits]
  ring

theorem pipeline5_bit (hsrc : ∀ byte ∈ src, byte < 256) (n : ℕ) {b : ℕ} (hb : b < 32) :
    pipeline5 src n / 2 ^ b % 2 = src.getD (n + b / 8) 0 / 2 ^ (b % 8) % 2 := by
  have hword : pipeline5 src n =
      ((List.range 4).map fun k ↦ src.getD (n + k) 0).foldr (fun digit high ↦
        digit + 256 * high) 0 :=
    word_eq fun k ↦ src.getD (n + k) 0
  have hbyte : ((List.range 4).map fun k ↦ src.getD (n + k) 0).getD (b / 8) 0 =
    src.getD (n + b / 8) 0 := by
    rw [List.getD_eq_getElem?_getD, List.getElem?_map, List.getElem?_range (by omega)]
    rfl
  have hpower : 2 ^ b = 256 ^ (b / 8) * 2 ^ (b % 8) := by
    have hbase : (256 : ℕ) ^ (b / 8) = 2 ^ (8 * (b / 8)) := Nat.pow_mul 2 8 (b / 8) |>.symm
    rw [hbase, ← Nat.pow_add, Nat.div_add_mod]
  rw [hword, hpower, ← Nat.div_div_eq_div_mul, digits_bit ?_ _ (Nat.mod_lt _ (by omega)), hbyte]
  intro digit hdigit
  obtain ⟨k, -, rfl⟩ := List.mem_map.mp hdigit
  exact getD_lt hsrc _

theorem one_and_xor (x y : ℕ) : 1 &&& (x ^^^ y) = (x % 2 + y % 2) % 2 := by
  have hxor : (x ^^^ y) % 2 = x % 2 ^^^ y % 2 := Nat.xor_mod_two_pow (n := 1)
  rw [Nat.and_comm, Nat.and_one_is_mod, hxor]
  rcases Nat.mod_two_eq_zero_or_one x with hx | hx <;> rcases Nat.mod_two_eq_zero_or_one y with hy
    | hy <;> rw [hx, hy] <;> rfl

theorem xor5_eq (hsrc : ∀ byte ∈ src, byte < 256) (n shift : ℕ) {a : ℕ} (ha : a < 24) :
    xor5 src n ((shift >>> 3) + n) (shift &&& 7) a = test5Term src (8 * n + a)
      (8 * n + a + shift) := by
  have hlow : shift &&& 7 = shift % 8 := Nat.and_two_pow_sub_one_eq_mod shift 3
  have hhigh : shift >>> 3 = shift / 8 := Nat.shiftRight_eq_div_pow shift 3
  have hlow' : ∀ i, i &&& 7 = i % 8 := fun i ↦ Nat.and_two_pow_sub_one_eq_mod i 3
  have hhigh' : ∀ i, i >>> 3 = i / 8 := fun i ↦ Nat.shiftRight_eq_div_pow i 3
  unfold xor5 test5Term
  rw [one_and_xor, one_and_xor, hlow, hhigh, hlow', hlow', hhigh', hhigh']
  simp only [Nat.shiftRight_eq_div_pow]
  rw [pipeline5_bit hsrc n (by omega), pipeline5_bit hsrc _ (by omega)]
  have hfirst : n + a / 8 = (8 * n + a) / 8 := by omega
  have hfirst' : a % 8 = (8 * n + a) % 8 := by omega
  have hsecond : shift / 8 + n + (shift % 8 + a) / 8 = (8 * n + a + shift) / 8 := by omega
  have hsecond' : (shift % 8 + a) % 8 = (8 * n + a + shift) % 8 := by omega
  rw [hfirst, hfirst', hsecond, hsecond']

end Words

/-! ### Sums over bits -/

theorem termsFrom_add (src : List ℕ) (shift start count more : ℕ) :
    termsFrom src shift start (count + more) = termsFrom src shift start count + termsFrom src shift
      (start + count) more := by
  unfold termsFrom
  rw [List.range_add, List.map_append, List.sum_append, List.map_map]
  simp only [Function.comp_def, Nat.add_assoc]

theorem sum_rounds (src : List ℕ) (shift start : ℕ) : ∀ rounds,
    ((List.range rounds).map fun m ↦ termsFrom src shift (start + 24 * m) 24).sum =
      termsFrom src shift start (24 * rounds) := by
  intro rounds
  induction rounds with
  | zero => simp [termsFrom]
  | succ rounds ih =>
    rw [List.range_succ, List.map_append, List.sum_append, ih, Nat.mul_add_one, termsFrom_add,
      List.map_singleton, List.sum_singleton]

theorem foldl_add_sum (terms : ℕ → ℕ) (rounds : List ℕ) : ∀ first,
    rounds.foldl (fun sum m ↦ sum + terms m) first = first + (rounds.map terms).sum := by
  induction rounds with
  | nil => exact fun _ ↦ rfl
  | cons m rounds ih =>
    intro first
    rw [List.foldl_cons, ih, List.map_cons, List.sum_cons, Nat.add_assoc]

section Counts

variable {src : List ℕ}

theorem test5XOR_eq_terms (hsrc : ∀ byte ∈ src, byte < 256) (shift : ℕ) :
    test5XOR src shift = termsFrom src shift 0 8 + termsFrom src shift 24 4992 := by
  have hterms : ∀ n count, count ≤ 24 →
      ((List.range count).map (xor5 src n ((shift >>> 3) + n) (shift &&& 7))).sum =
        termsFrom src shift (8 * n) count := by
    intro n count hcount
    congr 1
    refine List.map_congr_left fun a ha ↦ ?_
    exact xor5_eq hsrc n shift (Nat.lt_of_lt_of_le (List.mem_range.mp ha) hcount)
  have hrounds : ∀ m,
    ((List.range 24).map (xor5 src (3 + 3 * m) ((shift >>> 3) + 3 + 3 * m) (shift &&& 7))).sum =
      termsFrom src shift (24 + 24 * m) 24 := by
    intro m
    rw [Nat.add_assoc, hterms (3 + 3 * m) 24 (Nat.le_refl 24)]
    congr 1
    omega
  have hstart := hterms 0 8 (by omega)
  rw [Nat.add_zero] at hstart
  unfold test5XOR
  rw [foldl_add_sum, hstart]
  simp only [hrounds]
  rw [sum_rounds]
  rfl

theorem test5Reference_eq_terms (src : List ℕ) (shift : ℕ) :
    test5Reference src shift =
      termsFrom src shift 0 8 + termsFrom src shift 8 16 + termsFrom src shift 24 4976 := by
  have hwhole : test5Reference src shift = termsFrom src shift 0 test5Length := by
    simp only [test5Reference, termsFrom, Nat.zero_add]
  rw [hwhole, show test5Length = 8 + 16 + 4976 from rfl, termsFrom_add, termsFrom_add]

/-- The fast version gives the sum of the reference exactly if the bits it counts behind the end
make up for those it leaves out. -/
theorem test5XOR_eq_reference_iff (hsrc : ∀ byte ∈ src, byte < 256) (shift : ℕ) :
    test5XOR src shift = test5Reference src shift ↔
      termsFrom src shift 8 16 = termsFrom src shift 5000 16 := by
  have hend : termsFrom src shift 24 4992 =
    termsFrom src shift 24 4976 + termsFrom src shift 5000 16 :=
    termsFrom_add src shift 24 4976 16
  rw [test5XOR_eq_terms hsrc, test5Reference_eq_terms, hend]
  omega

/-- The scan over all shifts works on the sample, and the final test on what is behind its first
5000 bits: for each of them the two sums agree exactly if the bits 8 to 23 and 5000 to 5015 differ
from those at the shift equally often. No read goes behind byte 1252 of what it works on. -/
theorem test5XOR_eq_iff (hsrc : ∀ byte ∈ src, byte < 256) (shift : ℕ) :
    (test5XOR src shift = test5Reference src shift ↔
      termsFrom src shift 8 16 = termsFrom src shift 5000 16) ∧
      (test5XOR (src.drop (test5Length / 8)) shift =
      test5Reference (src.drop (test5Length / 8)) shift ↔
        termsFrom (src.drop (test5Length / 8)) shift 8 16 =
        termsFrom (src.drop (test5Length / 8)) shift 5000 16) :=
  ⟨test5XOR_eq_reference_iff hsrc shift,
    test5XOR_eq_reference_iff (fun byte hbyte ↦ hsrc byte (List.mem_of_mem_drop hbyte)) shift⟩

end Counts

def ninthBit : List ℕ := 0 :: 1 :: List.replicate 2498 0

theorem ninthBit_lt : ∀ byte ∈ ninthBit, byte < 256 := by
  intro byte hbyte
  rcases List.mem_cons.mp hbyte with rfl | hbyte
  · decide
  · rcases List.mem_cons.mp hbyte with rfl | hbyte
    · decide
    · rw [List.eq_of_mem_replicate hbyte]
      decide

theorem test5XOR_eq_iff_ninthBit :
    (test5XOR ninthBit 1 = test5Reference ninthBit 1 ↔
      termsFrom ninthBit 1 8 16 = termsFrom ninthBit 1 5000 16) ∧
      (test5XOR (ninthBit.drop (test5Length / 8)) 1 =
      test5Reference (ninthBit.drop (test5Length / 8)) 1 ↔
        termsFrom (ninthBit.drop (test5Length / 8)) 1 8 16 =
        termsFrom (ninthBit.drop (test5Length / 8)) 1 5000 16) :=
  test5XOR_eq_iff ninthBit_lt 1

/-- The reference sees the ninth bit, the fast version does not. -/
theorem not_test5XOR_ninthBit :
    ¬∀ src : List ℕ, src.length = fipsLength →
      (∀ byte ∈ src, byte < 256) → ∀ shift, 1 ≤ shift → shift ≤ test5Length →
      test5XOR src shift = test5Reference src shift ∧
        test5XOR (src.drop (test5Length / 8)) shift = test5Reference
        (src.drop (test5Length / 8)) shift := by
  intro hall
  have hlength : ninthBit.length = fipsLength := by
    simp only [ninthBit, List.length_cons, List.length_replicate]
    decide
  have hsame := (hall ninthBit hlength ninthBit_lt test5Length (by decide) (Nat.le_refl _)).1
  rw [test5XOR_eq_reference_iff ninthBit_lt] at hsame
  exact absurd hsame (by decide +kernel)

end CrossBreeder.Haveged
