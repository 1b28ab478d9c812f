import Mathlib.Data.List.TakeWhile
import Mathlib.Tactic.Ring

/-!
# Bytes and C strings

Memory is a list of bytes and a C string is the part before the first zero byte (`cstr`). Reads past
the end of the list see a zero, which stands for the terminator of a string that is stored without
one. `strnlen` and `strncmpEq` are the library functions of those names, the second reduced to the
question whether the result is zero; `strncmpEq_iff` characterises it by the two strings. `toLower`
is `tolower` in the C locale.
-/

namespace CrossBreeder.Foundation

/-- `tolower` in the C locale. -/
def toLower (byte : UInt8) : UInt8 :=
  if 65 ≤ byte.toNat ∧ byte.toNat ≤ 90 then UInt8.ofNat (byte.toNat + 32) else byte

theorem toNat_toLower (byte : UInt8) :
    (toLower byte).toNat = if 65 ≤ byte.toNat ∧ byte.toNat ≤ 90 then byte.toNat + 32
      else byte.toNat := by
  unfold toLower
  split_ifs with h
  · rw [UInt8.toNat_ofNat']
    omega
  · rfl

@[simp] theorem toLower_toLower (byte : UInt8) : toLower (toLower byte) = toLower byte := by
  apply UInt8.toNat_inj.mp
  rw [toNat_toLower, toNat_toLower]
  split_ifs <;> omega

theorem eq_of_toLower_eq {left right : UInt8} (h : toLower left = toLower right)
    (hleft : left.toNat < 65 ∨ 122 < left.toNat) : left = right := by
  have hnat := congrArg UInt8.toNat h
  rw [toNat_toLower, toNat_toLower] at hnat
  apply UInt8.toNat_inj.mp
  split_ifs at hnat <;> omega

theorem toLower_eq_iff {byte target : UInt8} (h : target.toNat < 65 ∨ 122 < target.toNat) :
    toLower byte = target ↔ byte = target := by
  have htarget : toLower target = target := by
    apply UInt8.toNat_inj.mp
    rw [toNat_toLower, if_neg (by omega)]
  constructor
  · intro hlower
    exact (eq_of_toLower_eq (htarget.trans hlower.symm) h).symm
  · rintro rfl
    exact htarget

def cstr (memory : List UInt8) : List UInt8 := memory.takeWhile (· ≠ 0)

@[simp] theorem cstr_nil : cstr [] = [] := rfl

theorem cstr_cons (byte : UInt8) (rest : List UInt8) :
    cstr (byte :: rest) = if byte = 0 then [] else byte :: cstr rest := by
  unfold cstr
  rw [List.takeWhile_cons]
  by_cases h : byte = 0 <;> simp [h]

theorem map_toLower_cstr (memory : List UInt8) :
    (cstr memory).map toLower = cstr (memory.map toLower) := by
  induction memory with
  | nil => rfl
  | cons byte rest ih =>
    rw [List.map_cons, cstr_cons, cstr_cons]
    by_cases hzero : byte = 0
    · simp [hzero, toLower]
    · rw [if_neg hzero, if_neg (mt (toLower_eq_iff (by decide)).mp hzero), List.map_cons, ih]

variable {memory : List UInt8}

theorem cstr_of_zero_notMem (h : (0 : UInt8) ∉ memory) :
    cstr memory = memory := by
  unfold cstr
  rw [List.takeWhile_eq_self_iff]
  intro byte hbyte
  have hne : byte ≠ 0 := fun hzero ↦ h (hzero ▸ hbyte)
  simpa using hne

theorem cstr_append_zero (text rest : List UInt8) : cstr (text ++ 0 :: rest) = cstr text := by
  induction text with
  | nil => simp [cstr_cons]
  | cons byte text ih => rw [List.cons_append, cstr_cons, cstr_cons, ih]

theorem cstr_drop {start : ℕ} (h : start ≤ (cstr memory).length) :
    cstr (memory.drop start) = (cstr memory).drop start := by
  induction memory generalizing start with
  | nil => simp
  | cons byte rest ih =>
    cases start with
    | zero => rfl
    | succ start =>
      rw [cstr_cons] at h ⊢
      split_ifs at h ⊢ with hbyte
      · simp at h
      · exact ih (by simpa using h)

theorem length_cstr_le (memory : List UInt8) : (cstr memory).length ≤ memory.length :=
  (List.takeWhile_prefix _).length_le

def strnlen (memory : List UInt8) (maxlen : ℕ) : ℕ := (cstr (memory.take maxlen)).length

theorem cstr_take_of_lt {maxlen : ℕ} (h : (cstr memory).length < maxlen) :
    cstr (memory.take maxlen) = cstr memory := by
  induction memory generalizing maxlen with
  | nil => simp
  | cons byte rest ih =>
    obtain _ | maxlen := maxlen
    · omega
    · rw [List.take_succ_cons, cstr_cons, cstr_cons]
      rw [cstr_cons] at h
      by_cases hbyte : byte = 0
      · simp [hbyte]
      · simp only [hbyte, if_false, List.length_cons] at h ⊢
        rw [ih (by omega)]

theorem cstr_take_of_le {maxlen : ℕ} (h : maxlen ≤ (cstr memory).length) :
    cstr (memory.take maxlen) = memory.take maxlen := by
  induction memory generalizing maxlen with
  | nil => simp
  | cons byte rest ih =>
    obtain _ | maxlen := maxlen
    · simp
    · rw [cstr_cons] at h
      by_cases hbyte : byte = 0
      · simp [hbyte] at h
      · simp only [hbyte, if_false, List.length_cons] at h
        rw [List.take_succ_cons, cstr_cons, if_neg hbyte, ih (by omega)]

theorem strnlen_eq_min (memory : List UInt8) (maxlen : ℕ) :
    strnlen memory maxlen = min (cstr memory).length maxlen := by
  unfold strnlen
  have hle := length_cstr_le memory
  rcases Nat.lt_or_ge (cstr memory).length maxlen with h | h
  · rw [cstr_take_of_lt h]
    omega
  · rw [cstr_take_of_le h, List.length_take]
    omega

/-- `strncmp(left, right, count) == 0`. -/
def strncmpEq : List UInt8 → List UInt8 → ℕ → Bool
  | _, _, 0 => true
  | left, right, count + 1 =>
    if left.headD 0 ≠ right.headD 0 then false
    else if left.headD 0 = 0 then true
    else strncmpEq left.tail right.tail count

theorem strncmpEq_iff (left right : List UInt8) (count : ℕ) :
    strncmpEq left right count = true ↔ cstr (left.take count) = cstr (right.take count) := by
  induction count generalizing left right with
  | zero => simp [strncmpEq]
  | succ count ih =>
    rcases left with _ | ⟨x, left⟩ <;> rcases right with _ | ⟨y, right⟩
    · simp [strncmpEq]
    · by_cases hy : y = 0
      · simp [strncmpEq, cstr_cons, hy]
      · simp [strncmpEq, cstr_cons, hy, Ne.symm hy]
    · by_cases hx : x = 0 <;> simp [strncmpEq, cstr_cons, hx]
    · by_cases hxy : x = y
      · subst hxy
        by_cases hx : x = 0
        · simp [strncmpEq, cstr_cons, hx]
        · simpa [strncmpEq, cstr_cons, hx] using ih left right
      · have hdiffer : cstr (x :: left.take count) ≠ cstr (y :: right.take count) := by
          rw [cstr_cons, cstr_cons]
          split_ifs with hx hy hy
          · exact absurd (hx.trans hy.symm) hxy
          · simp
          · simp
          · simp [hxy]
        simpa [strncmpEq, hxy] using hdiffer

/-! ### Files and numbers -/

/-- `fgets`: the bytes up to and with the next newline, as far as there is room, and the rest of the
file. -/
def fgets : ℕ → List UInt8 → List UInt8 × List UInt8
  | 0, file => ([], file)
  | _ + 1, [] => ([], [])
  | room + 1, c :: file =>
    if c = 10 then ([c], file)
    else ((c :: (fgets room file).1), (fgets room file).2)

/-- A byte in decimal, as `%d` prints it. -/
def decimal (byte : UInt8) : List UInt8 :=
  if byte < 10 then [48 + byte]
  else if byte < 100 then [48 + byte / 10, 48 + byte % 10]
  else [48 + byte / 100, 48 + byte / 10 % 10, 48 + byte % 10]

end CrossBreeder.Foundation
