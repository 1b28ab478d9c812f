import Mathlib.Data.List.TakeWhile
import Mathlib.Tactic.Ring

/-!
# Numbers and fields of a text

A number in a base is printed as `printf` does (`numeral`) and read as `strtol` does, up to the
first character that is not a digit (`readNumeral`); `readNumeral_numeral` says that the number
comes back. `scanField` is the conversion `%ns` of `scanf`: white space is skipped and a field of at
most so many characters is read. `atoi` and `scanDecimal` read numbers with a sign, which stop at
the bounds of a `long` before they are converted to an `int`, and `unsignedInt` is the conversion to
an `unsigned int`.
-/

namespace CrossBreeder.Foundation

/-! ### Numerals -/

/-- A number in a base, as `%d` and `%x` print it. -/
def numeral (base n : ℕ) : List UInt8 := (Nat.toDigits base n).map fun c ↦ UInt8.ofNat c.toNat

def digitValue (c : UInt8) : ℕ :=
  if 48 ≤ c ∧ c ≤ 57 then c.toNat - 48
  else if 97 ≤ c ∧ c ≤ 122 then c.toNat - 87
  else if 65 ≤ c ∧ c ≤ 90 then c.toNat - 55
  else 36

def digitsValue (base : ℕ) (digits : List UInt8) :
    ℕ := digits.foldl (fun value c ↦ value * base + digitValue c) 0

/-- A number without a sign, as `strtol` reads it. -/
def readNumeral (base : ℕ) (text : List UInt8) : ℕ :=
  digitsValue base (text.takeWhile fun c ↦ digitValue c < base)

theorem digitValue_digitChar {d : ℕ} (hd : d < 16) :
    digitValue (UInt8.ofNat d.digitChar.toNat) = d := by
  revert d
  decide

section Numerals

variable {base : ℕ} (hbase : 1 < base) (hsmall : base ≤ 16)

include hbase hsmall

omit hsmall in
theorem numeral_induction {P : ℕ → List UInt8 → Prop}
    (hdigit : ∀ d < base, P d [UInt8.ofNat d.digitChar.toNat])
    (hmore : ∀ n digits, base ≤ n → P (n / base) digits →
      P n (digits ++ [UInt8.ofNat (n % base).digitChar.toNat])) (n : ℕ) : P n (numeral base n) := by
  induction n using Nat.strong_induction_on with
  | h n ih =>
    unfold numeral
    by_cases hlt : n < base
    · rw [Nat.toDigits_of_lt_base hlt]
      exact hdigit n hlt
    · have hle : base ≤ n := Nat.le_of_not_lt hlt
      rw [Nat.toDigits_of_base_le hbase hle, List.map_append]
      exact hmore n _ hle (ih (n / base) (Nat.div_lt_self (by omega) hbase))

theorem digitValue_of_mem_numeral (n : ℕ) : ∀ c ∈ numeral base n, digitValue c < base := by
  refine numeral_induction hbase (P := fun _ digits ↦ ∀ c ∈ digits, digitValue c < base) ?_ ?_ n
  · intro d hd c hc
    rw [List.mem_singleton.mp hc, digitValue_digitChar (by omega)]
    exact hd
  · intro n digits _ ih c hc
    have hmod : n % base < base := Nat.mod_lt _ (by omega)
    rcases List.mem_append.mp hc with hc | hc
    · exact ih c hc
    · rw [List.mem_singleton.mp hc, digitValue_digitChar (by omega)]
      exact hmod

theorem digitsValue_numeral (n : ℕ) : digitsValue base (numeral base n) = n := by
  refine numeral_induction hbase (P := fun n digits ↦ digitsValue base digits = n) ?_ ?_ n
  · intro d hd
    simp [digitsValue, digitValue_digitChar (show d < 16 by omega)]
  · intro n digits _ ih
    have hmod : n % base < base := Nat.mod_lt _ (by omega)
    unfold digitsValue at ih ⊢
    rw [List.foldl_append, ih]
    simp only [List.foldl_cons, List.foldl_nil, digitValue_digitChar (show n % base < 16 by omega)]
    rw [Nat.mul_comm]
    exact Nat.div_add_mod n base

theorem readNumeral_numeral (n : ℕ) {rest : List UInt8}
    (hrest : ∀ c ∈ rest.head?, base ≤ digitValue c) :
    readNumeral base (numeral base n ++ rest) = n := by
  have htake : (numeral base n ++ rest).takeWhile (fun c ↦ digitValue c < base) =
    numeral base n := by
    rw [List.takeWhile_append_of_pos fun c hc ↦
      decide_eq_true (digitValue_of_mem_numeral hbase hsmall n c hc)]
    cases rest with
    | nil => simp
    | cons c rest =>
      have hc : base ≤ digitValue c := hrest c rfl
      rw [List.takeWhile_cons_of_neg (by simpa using hc), List.append_nil]
  unfold readNumeral
  rw [htake]
  exact digitsValue_numeral hbase hsmall n

theorem numeral_head (n : ℕ) (hzero : (numeral base n).head? = some 48) : n = 0 := by
  revert hzero
  refine numeral_induction hbase
    (P := fun n digits ↦ digits ≠ [] ∧ (digits.head? = some 48 → n = 0)) ?_ ?_ n |>.2
  · intro d hd
    refine ⟨by simp, fun hzero ↦ ?_⟩
    have hvalue := congrArg digitValue (Option.some.inj hzero)
    rwa [digitValue_digitChar (by omega)] at hvalue
  · intro n digits hle ⟨hne, ih⟩
    refine ⟨by simp, fun hzero ↦ ?_⟩
    rw [List.head?_append, Option.or_of_isSome (by simpa using hne)] at hzero
    have hquotient := ih hzero
    rcases Nat.div_eq_zero_iff.mp hquotient with hbaseZero | hlt <;> omega

end Numerals

theorem numeral_ne_nil (base n : ℕ) : numeral base n ≠ [] := by
  unfold numeral
  simp

theorem length_numeral_le {base n k : ℕ} (hbase : 1 < base) (hk : 0 < k) (hn : n < base ^ k) :
    (numeral base n).length ≤ k := by
  unfold numeral
  rw [List.length_map]
  exact (Nat.length_toDigits_le_iff hbase hk).mpr hn

/-! ### Fields -/

/-- `isspace` in the C locale. -/
def isSpace (c : UInt8) : Bool := c = 32 ∨ (9 ≤ c ∧ c ≤ 13)

/-- The conversion `%ns` of `scanf`, with the rest of the input. -/
def scanField (width : ℕ) (input : List UInt8) : Option (List UInt8 × List UInt8) :=
  let input := input.dropWhile isSpace
  let field := (input.takeWhile fun c ↦ !isSpace c).take width
  if field = [] then none else some (field, input.drop field.length)

theorem scanField_cons (width : ℕ) {c : UInt8} (hc : isSpace c = true) (input : List UInt8) :
    scanField width (c :: input) = scanField width input := by
  unfold scanField
  rw [List.dropWhile_cons_of_pos hc]

theorem scanField_spec {width : ℕ} {input field rest : List UInt8}
    (hscan : scanField width input = some (field, rest)) : field ≠ [] ∧ field.length ≤ width := by
  unfold scanField at hscan
  dsimp only at hscan
  split_ifs at hscan with hempty
  obtain ⟨rfl, -⟩ := Prod.mk.inj (Option.some.inj hscan)
  exact ⟨hempty, List.length_take_le _ _⟩

theorem scanField_append {width : ℕ} {field rest : List UInt8} (hne : field ≠ [])
    (hlength : field.length ≤ width) (hspace : ∀ c ∈ field, isSpace c = false)
    (hrest : ∀ c ∈ rest.head?, isSpace c = true) :
    scanField width (field ++ rest) = some (field, rest) := by
  have hdrop : (field ++ rest).dropWhile isSpace = field ++ rest := by
    cases field with
    | nil => exact absurd rfl hne
    | cons c field => rw [List.cons_append, List.dropWhile_cons_of_neg (by simp [hspace c])]
  have htake : (field ++ rest).takeWhile (fun c ↦ !isSpace c) = field := by
    rw [List.takeWhile_append_of_pos fun c hc ↦ by simp [hspace c hc]]
    cases rest with
    | nil => simp
    | cons c rest => rw [List.takeWhile_cons_of_neg (by simp [hrest c rfl]), List.append_nil]
  unfold scanField
  dsimp only
  rw [hdrop, htake, List.take_of_length_le hlength, if_neg hne, List.drop_left]

/-! ### Numbers with a sign -/

/-- A value narrowed to an `int` of 32 bits. -/
def narrowInt (value : ℤ) : ℤ := value.bmod (2 ^ 32)

theorem narrowInt_range (value : ℤ) : -2 ^ 31 ≤ narrowInt value ∧ narrowInt value ≤ 2 ^ 31 - 1 := by
  have hlow : -((2 ^ 32 : ℕ) / 2 : ℤ) ≤ value.bmod (2 ^ 32) := Int.le_bmod (by decide)
  have hhigh : value.bmod (2 ^ 32) < ((2 ^ 32 : ℕ) + 1) / 2 := Int.bmod_lt (by decide)
  unfold narrowInt
  omega

theorem narrowInt_eq_self {value : ℤ} (hlow : -2 ^ 31 ≤ value) (hhigh : value ≤ 2 ^ 31 - 1) :
    narrowInt value = value :=
  Int.bmod_eq_of_le (by omega) (by omega)

/-- A value taken for an `unsigned int` of 32 bits. -/
def unsignedInt (value : ℤ) : ℕ := (value % 2 ^ 32).toNat

/-- The value in a `long` of so many bits that is closest to a number. -/
def saturate (long : ℕ) (value : ℤ) : ℤ := max (-2 ^ (long - 1)) (min value (2 ^ (long - 1) - 1))

/-- A number behind blanks and a sign. -/
def readSigned (text : List UInt8) : ℤ :=
  match text.dropWhile isSpace with
  | 45 :: digits => -readNumeral 10 digits
  | 43 :: digits => readNumeral 10 digits
  | digits => readNumeral 10 digits

/-- `strtol` in base ten, which `atol` is. -/
def strtol (long : ℕ) (text : List UInt8) : ℤ := saturate long (readSigned text)

def atoi (long : ℕ) (text : List UInt8) : ℤ := narrowInt (strtol long text)

/-- The conversion `%d` of `scanf`, with the rest of the input. -/
def scanDecimal (long : ℕ) (input : List UInt8) : Option (ℤ × List UInt8) :=
  let input := input.dropWhile isSpace
  let signed := input.head? = some 45 ∨ input.head? = some 43
  let digits := if signed then input.drop 1 else input
  let rest := digits.dropWhile fun c ↦ digitValue c < 10
  if digits.length = rest.length then none
  else some (narrowInt (strtol long input), rest)

theorem saturate_eq_self {long : ℕ} {value : ℤ} (hlow : -2 ^ (long - 1) ≤ value)
    (hhigh : value ≤ 2 ^ (long - 1) - 1) : saturate long value = value := by
  rw [saturate, min_eq_left hhigh, max_eq_right hlow]

theorem readSigned_of_head {text : List UInt8}
    (hhead : ∀ c ∈ text.head?, isSpace c = false ∧ c ≠ 43 ∧ c ≠ 45) :
    readSigned text = readNumeral 10 text := by
  have hdrop : text.dropWhile isSpace = text := by
    cases text with
    | nil => rfl
    | cons c text => exact List.dropWhile_cons_of_neg (by simp [hhead c rfl])
  unfold readSigned
  rw [hdrop]
  split
  · exact absurd rfl (hhead 45 rfl).2.2
  · exact absurd rfl (hhead 43 rfl).2.1
  · rfl

theorem unsignedInt_lt (value : ℤ) : unsignedInt value < 2 ^ 32 := by
  unfold unsignedInt
  omega

end CrossBreeder.Foundation
