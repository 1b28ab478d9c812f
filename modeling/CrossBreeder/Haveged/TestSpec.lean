import CrossBreeder.Foundation.TextFields
import Mathlib.Data.List.Induction

/-!
# The test specification

`testsConfigure` reads which tests are run at the start and which ones during production. The digit
behind an `a` is read by `atoi`, which also takes blanks, a sign and more digits, while one
character is stepped over.
-/

namespace CrossBreeder.Haveged

open Foundation (isSpace readNumeral readSigned readSigned_of_head digitValue)

/-! ### The options -/

def aRun : ℕ := 0x400

def aWarn : ℕ := 0x200

def bRun : ℕ := 0x2000

def bWarn : ℕ := 0x1000

inductive TestGroup
  | tot
  | run
  deriving DecidableEq, Repr

/-- `*tot` and `*run`. -/
@[ext] structure TestMasks where
  tot : ℕ
  run : ℕ
  deriving DecidableEq, Repr

namespace TestMasks

def get (masks : TestMasks) : TestGroup → ℕ
  | .tot => masks.tot
  | .run => masks.run

/-- A group gets other options. -/
def set (masks : TestMasks) (group : TestGroup) (mask : ℕ) : TestMasks :=
  match group with
  | .tot => { masks with tot := mask }
  | .run => { masks with run := mask }

def add (masks : TestMasks) (group : TestGroup) (mask : ℕ) :
    TestMasks := masks.set group (masks.get group ||| mask)

end TestMasks

/-- `atoi`. What it returns for a number that is not an `int` is given. -/
def atoi (beyond : List UInt8 → ℤ) (text : List UInt8) : ℤ :=
  if -2 ^ 31 ≤ readSigned text ∧ readSigned text < 2 ^ 31 then readSigned text else beyond text

/-- The test for `W` or `w`: whether it is there, and what is behind. -/
def warnOption : List UInt8 → Bool × List UInt8
  | [] => (false, [])
  | c :: options => if c = 87 ∨ c = 119 then (true, options) else (false, c :: options)

/-- What is behind an `A`: the options, and the rest of the string. -/
def aOptions (beyond : List UInt8 → ℤ) (options : List UInt8) : ℕ × List UInt8 :=
  let c := atoi beyond options
  let (cycle, options) := if 1 ≤ c ∧ c < 9 then (1 <<< c.toNat, options.drop 1) else (0, options)
  let (warn, options) := warnOption options
  (cycle ||| aRun ||| if warn then aWarn else 0, options)

/-- What is behind a `B`. -/
def bOptions (options : List UInt8) : ℕ × List UInt8 :=
  let (warn, options) := warnOption options
  (bRun ||| if warn then bWarn else 0, options)

theorem length_warnOption (options : List UInt8) :
    (warnOption options).2.length ≤ options.length := by
  unfold warnOption
  cases options with
  | nil => exact le_refl _
  | cons c options =>
    dsimp only
    split_ifs <;> simp

theorem length_aOptions (beyond : List UInt8 → ℤ) (options : List UInt8) :
    (aOptions beyond options).2.length ≤ options.length := by
  unfold aOptions
  dsimp only
  split_ifs
  · exact le_trans (length_warnOption _) (by simp)
  · exact length_warnOption _

/-- The loop, with the group of the section that it is in. -/
def configureLoop (beyond : List UInt8 → ℤ) (current : Option TestGroup) (masks : TestMasks) :
    List UInt8 → Option TestMasks
  | [] => some masks
  | c :: options =>
    if c = 84 ∨ c = 116 then configureLoop beyond (some .tot) (masks.set .tot 0) options
    else if c = 67 ∨ c = 99 then configureLoop beyond (some .run) (masks.set .run 0) options
    else if c = 65 ∨ c = 97 then
      match current with
      | none => none
      | some group =>
        configureLoop beyond (some group) (masks.add group (aOptions beyond options).1)
          (aOptions beyond options).2
    else if c = 66 ∨ c = 98 then
      match current with
      | none => none
      | some group => configureLoop beyond (some group) (masks.add group (bOptions options).1)
        (bOptions options).2
    else none
  termination_by options => options.length
  decreasing_by
    · exact Nat.lt_succ_self _
    · exact Nat.lt_succ_self _
    · exact Nat.lt_succ_of_le (length_aOptions beyond options)
    · exact Nat.lt_succ_of_le (length_warnOption options)

def defaultTestOptions : List UInt8 := [116, 97, 56, 98]

/-- `testsConfigure`, with what is in `*tot` and `*run` before. -/
def testsConfigure (beyond : List UInt8 → ℤ) (masks : TestMasks) (options : Option (List UInt8)) :
    Option TestMasks :=
  configureLoop beyond none masks (options.getD defaultTestOptions)

/-! ### Sections and items -/

def letter (lower : UInt8) (upper : Bool) : UInt8 := if upper then lower - 32 else lower

inductive SpecItem
  | a (upper : Bool) (digit : Option (Fin 8)) (warn : Option Bool)
  | b (upper : Bool) (warn : Option Bool)

namespace SpecItem

def text : SpecItem → List UInt8
  | a upper digit warn =>
    letter 97 upper :: (digit.toList.map (fun d ↦ UInt8.ofNat (49 + d.val)) ++
      warn.toList.map (letter 119))
  | b upper warn => letter 98 upper :: warn.toList.map (letter 119)

/-- The options that an item stands for. -/
def mask : SpecItem → ℕ
  | a _ digit warn => digit.elim 0 (fun d ↦ 1 <<< (d.val + 1)) ||| aRun ||| if warn.isSome then
    aWarn else 0
  | b _ warn => bRun ||| if warn.isSome then bWarn else 0

end SpecItem

structure SpecSection where
  group : TestGroup
  upper : Bool
  items : List SpecItem

namespace SpecSection

def text (s : SpecSection) : List UInt8 :=
  letter (match s.group with | .tot => 116 | .run => 99) s.upper :: s.items.flatMap SpecItem.text

def mask (s : SpecSection) : ℕ := s.items.foldl (fun mask item ↦ mask ||| item.mask) 0

end SpecSection

def lastMask (group : TestGroup) (before : ℕ) (sections : List SpecSection) : ℕ :=
  ((sections.filter (·.group = group)).getLast?.map SpecSection.mask).getD before

/-! ### Numbers -/

variable {beyond : List UInt8 → ℤ} {options rest text : List UInt8} {c : UInt8}

def Numeric (c : UInt8) : Prop := isSpace c = true ∨ c = 43 ∨ c = 45 ∨ digitValue c < 10

instance (c : UInt8) : Decidable (Numeric c) := inferInstanceAs (Decidable (_ ∨ _))

theorem readNumeral_of_head (hhead : ∀ c ∈ text.head?, ¬ digitValue c < 10) :
    readNumeral 10 text = 0 := by
  cases text with
  | nil => rfl
  | cons c text =>
    unfold readNumeral
    rw [List.takeWhile_cons_of_neg (by simpa using hhead c rfl)]
    rfl

theorem atoi_of_digits {d : ℕ} (hsmall : d < 10)
    (hhead : ∀ c ∈ text.head?, isSpace c = false ∧ c ≠ 43 ∧ c ≠ 45)
    (hvalue : readNumeral 10 text = d) : atoi beyond text = d := by
  unfold atoi
  rw [readSigned_of_head hhead, hvalue]
  exact if_pos (by omega)

theorem bounds_of_digit (hdigit : digitValue c < 10) : 48 ≤ c ∧ c ≤ 57 := by
  unfold digitValue at hdigit
  split_ifs at hdigit with hrange hlower hupper
  · exact hrange
  · have hlow : 97 ≤ c.toNat := UInt8.le_iff_toNat_le.mp hlower.1
    omega
  · have hlow : 65 ≤ c.toNat := UInt8.le_iff_toNat_le.mp hupper.1
    omega
  · omega

theorem ofNat_digitValue (hdigit : digitValue c < 10) : UInt8.ofNat (48 + digitValue c) = c := by
  have hbounds := bounds_of_digit hdigit
  have hlow : 48 ≤ c.toNat := UInt8.le_iff_toNat_le.mp hbounds.1
  have hvalue : digitValue c = c.toNat - 48 := by
    unfold digitValue
    rw [if_pos hbounds]
  rw [hvalue, Nat.add_sub_cancel' hlow]
  exact UInt8.ofNat_toNat

theorem plain_of_digit (hdigit : digitValue c < 10) : isSpace c = false ∧ c ≠ 43 ∧ c ≠ 45 := by
  have hbounds := bounds_of_digit hdigit
  unfold isSpace
  grind

theorem atoi_of_not_numeric (hhead : ∀ x ∈ text.head?, ¬ Numeric x) : atoi beyond text = 0 := by
  refine atoi_of_digits (by decide) (fun x hx ↦ ?_) (readNumeral_of_head fun x hx hdigit ↦
    hhead x hx (.inr (.inr (.inr hdigit))))
  have hx := hhead x hx
  unfold Numeric at hx
  simp only [not_or] at hx
  exact ⟨by simpa using hx.1, hx.2.1, hx.2.2.1⟩

theorem atoi_one_digit (hdigit : digitValue c < 10) (hrest : ∀ x ∈ rest.head?, ¬ Numeric x) :
    atoi beyond (c :: rest) = digitValue c := by
  refine atoi_of_digits hdigit (fun x hx ↦ Option.some.inj hx ▸ plain_of_digit hdigit) ?_
  have hend : rest.takeWhile (fun c ↦ digitValue c < 10) = [] := by
    cases rest with
    | nil => rfl
    | cons x rest =>
      exact List.takeWhile_cons_of_neg fun hx ↦
        hrest x rfl (.inr (.inr (.inr (of_decide_eq_true hx))))
  unfold readNumeral
  rw [List.takeWhile_cons_of_pos (by simpa using hdigit), hend]
  exact Nat.zero_add _

theorem atoi_cases (beyond : List UInt8 → ℤ) (text : List UInt8) :
    atoi beyond text = 0 ∨
      (∃ d rest, text = d :: rest ∧ digitValue d < 10 ∧ atoi beyond text = digitValue d) ∨
      ∃ c x rest, text = c :: x :: rest ∧ Numeric x := by
  cases text with
  | nil => exact .inl rfl
  | cons c rest =>
    by_cases hrest : ∀ x ∈ rest.head?, ¬ Numeric x
    · by_cases hdigit : digitValue c < 10
      · exact .inr (.inl ⟨c, rest, rfl, hdigit, atoi_one_digit hdigit hrest⟩)
      left
      have hzero : readNumeral 10 rest = 0 := readNumeral_of_head fun x hx hx' ↦
        hrest x hx (.inr (.inr (.inr hx')))
      by_cases hspace : isSpace c = true
      · have hsame : atoi (fun _ ↦ beyond (c :: rest)) rest = atoi beyond (c :: rest) := by
          unfold atoi readSigned
          rw [List.dropWhile_cons_of_pos hspace]
        exact hsame ▸ atoi_of_not_numeric hrest
      by_cases hsign : c = 43 ∨ c = 45
      · unfold atoi readSigned
        rw [List.dropWhile_cons_of_neg hspace]
        rcases hsign with rfl | rfl
        · simp [hzero]
        · simp [hzero]
      · refine atoi_of_not_numeric fun x hx ↦ ?_
        obtain rfl := Option.some.inj hx
        unfold Numeric
        tauto
    · push Not at hrest
      obtain ⟨x, hx, hnumeric⟩ := hrest
      obtain ⟨rest, rfl⟩ := List.head?_eq_some_iff.mp hx
      exact .inr (.inr ⟨c, x, rest, rfl, hnumeric⟩)

/-! ### Items -/

/-- What may follow an item: the end, or a letter that something begins with. -/
def Follows (rest : List UInt8) : Prop := ∀ c ∈ rest.head?, ¬ Numeric c ∧ c ≠ 87 ∧ c ≠ 119

def digitText (digit : Option (Fin 8)) :
    List UInt8 := digit.toList.map fun d ↦ UInt8.ofNat (49 + d.val)

theorem warnOption_text {warn : Option Bool} (hrest : Follows rest) :
    warnOption (warn.toList.map (letter 119) ++ rest) = (warn.isSome, rest) := by
  cases warn with
  | none =>
    cases rest with
    | nil => rfl
    | cons c rest => exact if_neg (not_or.mpr (hrest c rfl).2)
  | some upper => cases upper <;> rfl

theorem exists_warnOption (options : List UInt8) :
    ∃ warn : Option Bool, options = warn.toList.map (letter 119) ++ (warnOption options).2 ∧
      warn.isSome = (warnOption options).1 := by
  cases options with
  | nil => exact ⟨none, rfl, rfl⟩
  | cons c options =>
    unfold warnOption
    dsimp only
    split_ifs with hwarn
    · rcases hwarn with rfl | rfl
      · exact ⟨some true, rfl, rfl⟩
      · exact ⟨some false, rfl, rfl⟩
    · exact ⟨none, rfl, rfl⟩

theorem aOptions_text (beyond : List UInt8 → ℤ) (upper : Bool) (digit : Option (Fin 8))
    (warn : Option Bool) (hrest : Follows rest) :
    aOptions beyond (digitText digit ++ (warn.toList.map (letter 119) ++ rest)) =
      ((SpecItem.a upper digit warn).mask, rest) := by
  have hwarn : ∀ x ∈ (warn.toList.map (letter 119) ++ rest).head?, ¬ Numeric x := by
    cases warn with
    | none => exact fun x hx ↦ (hrest x hx).1
    | some upper =>
      intro x hx
      obtain rfl := Option.some.inj hx
      cases upper <;> decide
  cases digit with
  | none =>
    have hzero : atoi beyond (digitText none ++ (warn.toList.map (letter 119) ++ rest)) = 0 :=
      atoi_of_not_numeric hwarn
    unfold aOptions
    rw [hzero]
    dsimp only
    rw [if_neg (by decide)]
    rw [digitText, Option.toList_none, List.map_nil, List.nil_append, warnOption_text hrest]
    rfl
  | some d =>
    have hdigit : digitValue (UInt8.ofNat (49 + d.val)) = d.val + 1 := by
      revert d
      decide
    have hvalue := @atoi_one_digit beyond _ (UInt8.ofNat (49 + d.val)) (by omega) hwarn
    change aOptions beyond (UInt8.ofNat (49 + d.val) :: (warn.toList.map (letter 119) ++ rest)) = _
    unfold aOptions
    rw [hvalue, hdigit]
    dsimp only
    rw [if_pos (by omega)]
    rw [List.drop_one, List.tail_cons, warnOption_text hrest]
    rfl

/-- The options behind an `A` that are read are written out, or what is left begins with nothing
that is known. -/
theorem aOptions_cases (beyond : List UInt8 → ℤ) (options : List UInt8) :
    (∃ digit warn, options = digitText digit ++
      (warn.toList.map (letter 119) ++ (aOptions beyond options).2) ∧
      (aOptions beyond options).1 = (SpecItem.a false digit warn).mask) ∨
      ∃ x rest, (aOptions beyond options).2 = x :: rest ∧ Numeric x := by
  by_cases hrange : 1 ≤ atoi beyond options ∧ atoi beyond options < 9
  · rcases atoi_cases beyond options with hzero | ⟨d, rest, rfl, hdigit, hvalue⟩ | ⟨c, x,
      rest, rfl, hx⟩
    · omega
    · left
      rw [hvalue] at hrange
      obtain ⟨warn, htext, hsome⟩ := exists_warnOption rest
      have hchar : UInt8.ofNat (48 + digitValue d) = d := ofNat_digitValue hdigit
      have hpredecessor : 49 + (digitValue d - 1) = 48 + digitValue d := by omega
      refine ⟨some ⟨digitValue d - 1, by omega⟩, warn, ?_, ?_⟩
      · unfold aOptions
        rw [hvalue]
        dsimp only
        rw [if_pos hrange]
        change d :: rest = UInt8.ofNat (49 + (digitValue d - 1)) :: (warn.toList.map (letter 119) ++
          (warnOption rest).2)
        rw [← htext, hpredecessor, hchar]
      · unfold aOptions
        rw [hvalue]
        dsimp only
        rw [if_pos hrange]
        rw [List.drop_one, List.tail_cons, ← hsome]
        change _ = 1 <<< (digitValue d - 1 + 1) ||| aRun ||| _
        rw [Nat.sub_add_cancel (by omega)]
        rfl
    · right
      have hplain : x ≠ 87 ∧ x ≠ 119 := by
        constructor
        · rintro rfl
          exact absurd hx (by decide)
        · rintro rfl
          exact absurd hx (by decide)
      refine ⟨x, rest, ?_, hx⟩
      unfold aOptions
      dsimp only
      rw [if_pos hrange]
      exact congrArg Prod.snd (if_neg (not_or.mpr hplain))
  · left
    obtain ⟨warn, htext, hsome⟩ := exists_warnOption options
    refine ⟨none, warn, ?_, ?_⟩
    · unfold aOptions
      dsimp only
      rw [if_neg hrange]
      exact htext
    · unfold aOptions
      dsimp only
      rw [if_neg hrange]
      rw [← hsome]
      rfl

/-! ### The loop -/

def addItems (current : Option TestGroup) (masks : TestMasks) (items : List SpecItem) : TestMasks :=
  current.elim masks fun group ↦ items.foldl (fun masks item ↦ masks.add group item.mask) masks

def beginSection (masks : TestMasks) (s : SpecSection) : TestMasks :=
  addItems (some s.group) (masks.set s.group 0) s.items

theorem exists_letter {lower : UInt8} (hc : c = lower - 32 ∨ c = lower) :
    ∃ upper, c = letter lower upper := by
  rcases hc with rfl | rfl
  · exact ⟨true, rfl⟩
  · exact ⟨false, rfl⟩

def specText (items : List SpecItem) (sections : List SpecSection) : List UInt8 :=
  items.flatMap SpecItem.text ++ sections.flatMap SpecSection.text

@[simp] theorem specText_cons_item (item : SpecItem) (items : List SpecItem)
    (sections : List SpecSection) :
    specText (item :: items) sections = item.text ++ specText items sections := by
  simp [specText]

@[simp] theorem specText_cons_section (s : SpecSection) (sections : List SpecSection) :
    specText [] (s :: sections) =
      letter (match s.group with | .tot => 116 | .run => 99) s.upper :: specText s.items
      sections := by
  simp [specText, SpecSection.text]

theorem follows_letter {lower : UInt8} (upper : Bool) (hletter : lower ∈ [116, 99, 97, 98]) :
    Follows (letter lower upper :: rest) := by
  intro x hx
  obtain rfl := Option.some.inj hx
  simp only [List.mem_cons, List.not_mem_nil, or_false] at hletter
  rcases hletter with rfl | rfl | rfl | rfl
  all_goals cases upper <;> decide

theorem follows_specText (items : List SpecItem) (sections : List SpecSection) :
    Follows (specText items sections) := by
  cases items with
  | nil =>
    cases sections with
    | nil => exact fun x hx ↦ nomatch hx
    | cons s sections =>
      rw [specText_cons_section]
      refine follows_letter s.upper ?_
      cases s.group <;> decide
  | cons item items =>
    rw [specText_cons_item]
    cases item with
    | a upper digit warn => exact follows_letter upper (by decide)
    | b upper warn => exact follows_letter upper (by decide)

theorem configureLoop_cons (beyond : List UInt8 → ℤ) (current : Option TestGroup)
    (masks : TestMasks) (c : UInt8) (options : List UInt8) :
    configureLoop beyond current masks (c :: options) =
      if c = 84 ∨ c = 116 then configureLoop beyond (some .tot) (masks.set .tot 0) options
      else if c = 67 ∨ c = 99 then configureLoop beyond (some .run) (masks.set .run 0) options
      else if c = 65 ∨ c = 97 then
        current.elim none fun group ↦
          configureLoop beyond (some group) (masks.add group (aOptions beyond options).1)
          (aOptions beyond options).2
      else if c = 66 ∨ c = 98 then
        current.elim none fun group ↦
          configureLoop beyond (some group) (masks.add group (bOptions options).1)
          (bOptions options).2
      else none := by
  rw [configureLoop.eq_def]
  cases current <;> rfl

theorem configureLoop_of_numeric (current : Option TestGroup) (masks : TestMasks) (hc : Numeric c) :
    configureLoop beyond current masks (c :: rest) = none := by
  have hletters : ¬(c = 84 ∨ c = 116) ∧ ¬(c = 67 ∨ c = 99) ∧ ¬(c = 65 ∨ c = 97) ∧
    ¬(c = 66 ∨ c = 98) := by
    refine ⟨?_, ?_, ?_, ?_⟩ <;>
      · rintro (rfl | rfl) <;> exact absurd hc (by decide)
  rw [configureLoop_cons, if_neg hletters.1, if_neg hletters.2.1, if_neg hletters.2.2.1,
    if_neg hletters.2.2.2]

theorem configureLoop_item (group : TestGroup) (masks : TestMasks) (item : SpecItem)
    (hrest : Follows rest) : configureLoop beyond (some group) masks (item.text ++ rest) =
      configureLoop beyond (some group) (masks.add group item.mask) rest := by
  cases item with
  | a upper digit warn =>
    have hoptions := aOptions_text beyond upper digit warn hrest
    have htext : (SpecItem.a upper digit warn).text ++ rest =
        letter 97 upper :: (digitText digit ++ (warn.toList.map (letter 119) ++ rest)) := by
      simp [SpecItem.text, digitText]
    rw [htext]
    cases upper
    all_goals
      rw [configureLoop_cons,
        if_neg (by decide), if_neg (by decide), if_pos (by decide), Option.elim_some, hoptions]
  | b upper warn =>
    have hoptions : bOptions (warn.toList.map (letter 119) ++ rest) =
      ((SpecItem.b upper warn).mask, rest) := by
      unfold bOptions
      rw [warnOption_text hrest]
      rfl
    have htext : (SpecItem.b upper warn).text ++ rest =
      letter 98 upper :: (warn.toList.map (letter 119) ++ rest) := rfl
    rw [htext]
    cases upper
    all_goals
      rw [configureLoop_cons,
        if_neg (by decide), if_neg (by decide), if_neg (by decide), if_pos (by decide),
        Option.elim_some, hoptions]

theorem configureLoop_section (current : Option TestGroup) (masks : TestMasks) (group : TestGroup)
    (upper : Bool) :
    configureLoop beyond current masks
      (letter (match group with | .tot => 116 | .run => 99) upper :: rest) =
      configureLoop beyond (some group) (masks.set group 0) rest := by
  cases group
  · cases upper
    all_goals rw [configureLoop_cons, if_pos (by decide)]
  · cases upper
    all_goals rw [configureLoop_cons, if_neg (by decide), if_pos (by decide)]

theorem configureLoop_items (group : TestGroup) (masks : TestMasks) (items : List SpecItem)
    (sections : List SpecSection) :
    configureLoop beyond (some group) masks (specText items sections) =
      configureLoop beyond (some group) (addItems (some group) masks items)
      (specText [] sections) := by
  induction items generalizing masks with
  | nil => rfl
  | cons item items ih =>
    rw [specText_cons_item, configureLoop_item group masks item (follows_specText items sections),
      ih]
    rfl

theorem configureLoop_sections (current : Option TestGroup) (masks : TestMasks)
    (sections : List SpecSection) :
    configureLoop beyond current masks (specText [] sections) = some
      (sections.foldl beginSection masks) := by
  induction sections generalizing current masks with
  | nil => rw [show specText [] [] = [] from rfl, configureLoop]; rfl
  | cons s sections ih =>
    rw [specText_cons_section, configureLoop_section, configureLoop_items, ih]
    rfl

theorem exists_of_configureLoop {current : Option TestGroup} {masks result : TestMasks}
    (hloop : configureLoop beyond current masks options = some result) :
    ∃ items sections, (current = none → items = []) ∧ options = specText items sections ∧
      result = sections.foldl beginSection (addItems current masks items) := by
  induction hlength : options.length using Nat.strong_induction_on generalizing options
    current masks with
  | _ length ih =>
    subst hlength
    cases options with
    | nil =>
      rw [configureLoop] at hloop
      exact ⟨[], [], fun _ ↦ rfl, rfl, by cases current <;> exact (Option.some.inj hloop).symm⟩
    | cons c options =>
      rw [configureLoop_cons] at hloop
      split_ifs at hloop with htot hrun ha hb
      · obtain ⟨items, sections, -, htext, hresult⟩ := ih _ (Nat.lt_succ_self _) hloop rfl
        obtain ⟨upper, rfl⟩ : ∃ upper, c = letter 116 upper := exists_letter htot
        exact ⟨[], ⟨.tot, upper, items⟩ :: sections, fun _ ↦ rfl,
          by rw [specText_cons_section, htext], by
          cases current <;> exact hresult⟩
      · obtain ⟨items, sections, -, htext, hresult⟩ := ih _ (Nat.lt_succ_self _) hloop rfl
        obtain ⟨upper, rfl⟩ : ∃ upper, c = letter 99 upper := exists_letter hrun
        exact ⟨[], ⟨.run, upper, items⟩ :: sections, fun _ ↦ rfl,
          by rw [specText_cons_section, htext], by
          cases current <;> exact hresult⟩
      · cases current with
        | none => exact nomatch hloop
        | some group =>
          obtain ⟨upper, rfl⟩ : ∃ upper, c = letter 97 upper := exists_letter ha
          rw [Option.elim_some] at hloop
          rcases aOptions_cases beyond options with ⟨digit, warn, hoptions, hmask⟩ | ⟨x,
            rest, hrest, hx⟩
          · obtain ⟨items, sections, -, htext, hresult⟩ :=
              ih _ (Nat.lt_succ_of_le (length_aOptions beyond options)) hloop rfl
            refine ⟨.a upper digit warn :: items, sections, (fun h ↦ nomatch h), ?_, ?_⟩
            · rw [specText_cons_item, ← htext]
              nth_rewrite 1 [hoptions]
              simp [SpecItem.text, digitText]
            · rw [hresult, hmask]
              rfl
          · -- what is left would have to begin with a letter
            rw [hrest, configureLoop_of_numeric _ _ hx] at hloop
            exact nomatch hloop
      · cases current with
        | none => exact nomatch hloop
        | some group =>
          obtain ⟨upper, rfl⟩ : ∃ upper, c = letter 98 upper := exists_letter hb
          rw [Option.elim_some] at hloop
          obtain ⟨warn, hoptions, hsome⟩ := exists_warnOption options
          obtain ⟨items, sections, -, htext, hresult⟩ :=
            ih _ (Nat.lt_succ_of_le (length_warnOption options)) hloop rfl
          refine ⟨.b upper warn :: items, sections, (fun h ↦ nomatch h), ?_, ?_⟩
          · rw [specText_cons_item, ← htext]
            nth_rewrite 1 [hoptions]
            rfl
          · have hmask : (bOptions options).1 = (SpecItem.b upper warn).mask := by
              change (bRun ||| if (warnOption options).1 then bWarn else 0) = _
              rw [← hsome]
              rfl
            rw [hresult, hmask]
            rfl

/-! ### The masks -/

@[simp] theorem TestMasks.get_set (masks : TestMasks) (group other : TestGroup) (mask : ℕ) :
    (masks.set group mask).get other = if group = other then mask else masks.get other := by
  cases group <;> cases other <;> rfl

theorem get_addItems (masks : TestMasks) (group other : TestGroup) (items : List SpecItem) :
    (addItems (some group) masks items).get other =
      if group = other then items.foldl (fun mask item ↦ mask ||| item.mask) (masks.get other)
      else masks.get other := by
  induction items generalizing masks with
  | nil => simp [addItems]
  | cons item items ih =>
    change (addItems (some group) (masks.add group item.mask) items).get other = _
    rw [ih, TestMasks.add, TestMasks.get_set]
    by_cases hgroup : group = other
    · subst hgroup
      simp
    · simp [hgroup]

theorem get_sections (masks : TestMasks) (group : TestGroup) (sections : List SpecSection) :
    (sections.foldl beginSection masks).get group = lastMask group (masks.get group) sections := by
  induction sections using List.reverseRecOn with
  | nil => rfl
  | append_singleton sections s ih =>
    rw [List.foldl_append, List.foldl_cons, List.foldl_nil, beginSection, get_addItems,
      TestMasks.get_set]
    by_cases hgroup : s.group = group
    · simp [lastMask, hgroup, SpecSection.mask]
    · rw [if_neg hgroup, if_neg hgroup, ih, lastMask, lastMask, List.filter_append]
      simp [hgroup]

/-- The parser accepts the strings of sections of items and no others, and each mask is then the
union of the items of the last section of its group. -/
theorem testsConfigure_eq_some_iff (beyond : List UInt8 → ℤ) (masks result : TestMasks)
    (options : List UInt8) : testsConfigure beyond masks (some options) = some result ↔
      ∃ sections : List SpecSection, options = sections.flatMap SpecSection.text ∧
        ∀ group, result.get group = lastMask group (masks.get group) sections := by
  constructor
  · intro hresult
    obtain ⟨items, sections, hitems, htext, rfl⟩ := exists_of_configureLoop hresult
    obtain rfl := hitems rfl
    exact ⟨sections, htext, fun group ↦ get_sections masks group sections⟩
  · rintro ⟨sections, rfl, hmasks⟩
    have hloop : testsConfigure beyond masks (some (sections.flatMap SpecSection.text)) = _ :=
      configureLoop_sections none masks sections
    have hresult : sections.foldl beginSection masks = result := by
      ext
      · exact (get_sections masks .tot sections).trans (hmasks .tot).symm
      · exact (get_sections masks .run sections).trans (hmasks .run).symm
    rw [hloop, hresult]

end CrossBreeder.Haveged
