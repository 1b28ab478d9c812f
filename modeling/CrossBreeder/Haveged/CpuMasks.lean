import CrossBreeder.Foundation.EndingLoop
import CrossBreeder.Foundation.FallibleFold
import CrossBreeder.Foundation.TextFields
import Mathlib.Data.List.Induction
import Mathlib.Tactic.NormNum

/-!
# Maps of processors

`TOPO_MAP` is a set of processors in eight words. A mask is moved into the map word by word with no
bound on the words: the parser stays inside the map exactly if the words from the first that is not
zero are eight at most, and what was there before counts as well (`MasksFit`). A range of a list is
counted up with `<=`, so that it never ends if its end is the largest `int` (`RangesEnd`).
-/

namespace CrossBreeder.Haveged

open Foundation (Round runRounds exists_runRounds exists_foldlM_of_steps foldlM_eq_none_of_step
  digitValue narrowInt narrowInt_range narrowInt_eq_self unsignedInt)

/-! ### The code -/

/-- `TOPO_MAP`. There are eight words. -/
structure TopoMap where
  bits : ℕ → ℕ
  msw : ℕ
  source : ℕ

/-- A map of `calloc`. -/
def TopoMap.cleared : TopoMap := ⟨fun _ ↦ 0, 0, 0⟩

/-- `cfg_bitSet`, where the number is divided as an unsigned one. -/
def cfgBitSet (map : TopoMap) (n : ℤ) : TopoMap :=
  let word := unsignedInt n / 32
  if word < 8 then
    { map with
      bits := Function.update map.bits word (map.bits word ||| 1 <<< (unsignedInt n % 32))
      msw := max map.msw word }
  else map

def cfgBitMerge (map other : TopoMap) : TopoMap :=
  let bits := fun i ↦ if i < 8 then map.bits i ||| other.bits i else map.bits i
  { map with
    bits := bits
    msw := (List.range 8).foldl (fun msw i ↦ if bits i ≠ 0 ∧ msw < i then i else msw) map.msw }

/-- The processors that `cfg_bitNext` goes through. -/
def cpusOf (map : TopoMap) : List ℕ :=
  (List.range 256).filter fun n ↦ n / 32 ≤ map.msw ∧ (map.bits (n / 32)).testBit (n % 32)

/-- The terms that `strtok` finds between commas. -/
def mapTerms (input : List UInt8) : List (List UInt8) :=
  ((input.takeWhile (· ≠ 0)).splitOn 44).filter (· ≠ [])

def maskValue (term : List UInt8) : ℕ :=
  term.foldl (fun m c ↦ if digitValue c < 16 then (m * 16 + digitValue c) % 2 ^ 32 else m) 0

/-- One term of a mask. The word that is moved up last is the first that may be outside. -/
def shiftMask (map : TopoMap) (term : List UInt8) : Option TopoMap :=
  if 8 ≤ map.msw + 1 then none
  else some {
    bits := fun i ↦ if i = 0 then maskValue term else if i ≤ map.msw + 1 then map.bits (i - 1)
      else map.bits i
    msw := if map.bits map.msw ≠ 0 then map.msw + 1 else map.msw
    source := map.source }

/-- `vfs_parseMask`, which has no result if it writes outside the map. -/
def vfsParseMask (map : TopoMap) (input : List UInt8) : Option TopoMap :=
  (mapTerms input).foldlM shiftMask { map with bits := fun _ ↦ 0 }

/-- A term of a list: whether there is a `-`, and the numbers before and behind it. -/
structure ListBounds where
  isRange : Bool
  first : ℤ
  last : ℤ

/-- A character of a term. -/
def listChar (bounds : ListBounds) (c : UInt8) : ListBounds :=
  if 48 ≤ c ∧ c ≤ 57 then
    if bounds.isRange then { bounds with last := narrowInt (bounds.last * 10 + digitValue c) }
    else { bounds with first := narrowInt (bounds.first * 10 + digitValue c) }
  else if c = 45 then { bounds with isRange := true }
  else bounds

def listBounds (term : List UInt8) : ListBounds := term.foldl listChar ⟨false, 0, 0⟩

/-- `while(++bounds[0] <= bounds[1])`, for an `int` that wraps. -/
def rangeRound (last : ℤ) (s : TopoMap × ℤ) : Round (TopoMap × ℤ) TopoMap :=
  let next := narrowInt (s.2 + 1)
  if next ≤ last then .again (cfgBitSet s.1 next, next) else .ret s.1

def listTerm (rounds : ℕ) (map : TopoMap) (term : List UInt8) : Option TopoMap :=
  let bounds := listBounds term
  let map := cfgBitSet map bounds.first
  if bounds.isRange then runRounds (rangeRound bounds.last) rounds (map, bounds.first) else some map

/-- `vfs_parseList`, with a bound on the rounds for each term. -/
def vfsParseList (rounds : ℕ) (map : TopoMap) (input : List UInt8) : Option TopoMap :=
  (mapTerms input).foldlM (listTerm rounds) { map with bits := fun _ ↦ 0 }

/-! ### Lists -/

/-- No range of the list ends at the largest `int`. -/
def RangesEnd (input : List UInt8) : Prop :=
  ∀ term ∈ mapTerms input, (listBounds term).isRange = true → (listBounds term).last ≠ 2 ^ 31 - 1

variable {map : TopoMap} {term value input : List UInt8} {terms values : List (List UInt8)}
    {rounds : ℕ}

theorem listBounds_range (term : List UInt8) : -2 ^ 31 ≤ (listBounds term).first ∧
    (listBounds term).last ≤ 2 ^ 31 - 1 := by
  unfold listBounds
  induction term using List.reverseRecOn with
  | nil => exact ⟨by decide, by decide⟩
  | append_singleton term c ih =>
    rw [List.foldl_concat]
    unfold listChar
    split_ifs
    · exact ⟨ih.1, (narrowInt_range _).2⟩
    · exact ⟨(narrowInt_range _).1, ih.2⟩
    · exact ih
    · exact ih

theorem exists_runRounds_rangeRound {last : ℤ} (hlast : last < 2 ^ 31 - 1) (s : TopoMap × ℤ)
    (hs : -2 ^ 31 ≤ s.2) : ∃ map, runRounds (rangeRound last) (2 ^ 33 + 1) s = some map := by
  -- only the first number may be above the end, and wrap
  refine exists_runRounds (fun s ↦ if s.2 ≤ last then (last - s.2).toNat else 2 ^ 33 - 1) ?_ _ ?_
  · intro s t hround
    unfold rangeRound at hround
    dsimp only at hround
    split_ifs at hround with hnext
    cases hround
    have hrange := narrowInt_range (s.2 + 1)
    have hup : s.2 ≤ last → s.2 < narrowInt (s.2 + 1) := by
      intro hle
      by_cases hlow : -2 ^ 31 ≤ s.2
      · rw [narrowInt_eq_self (by omega) (by omega)]
        omega
      · omega
    rw [if_pos hnext]
    split_ifs with hle
    · have := hup hle
      omega
    · omega
  · split_ifs <;> omega

theorem runRounds_rangeRound_max (rounds : ℕ) (s : TopoMap × ℤ) :
    runRounds (rangeRound (2 ^ 31 - 1)) rounds s = none := by
  induction rounds generalizing s with
  | zero => rfl
  | succ rounds ih =>
    have hround : rangeRound (2 ^ 31 - 1) s =
      .again (cfgBitSet s.1 (narrowInt (s.2 + 1)), narrowInt (s.2 + 1)) :=
      if_pos (narrowInt_range _).2
    rw [runRounds, hround]
    exact ih _

theorem listTerm_eq (rounds : ℕ) (map : TopoMap) (term : List UInt8) :
    listTerm rounds map term =
      if (listBounds term).isRange then
        runRounds (rangeRound (listBounds term).last) rounds
          (cfgBitSet map (listBounds term).first, (listBounds term).first)
      else some (cfgBitSet map (listBounds term).first) :=
  rfl

theorem isSome_vfsParseList (hends : RangesEnd input) (map : TopoMap) :
    (vfsParseList (2 ^ 33 + 1) map input).isSome := by
  obtain ⟨result, hresult, -⟩ : ∃ result, vfsParseList (2 ^ 33 + 1) map input = some result ∧
    True := by
    refine exists_foldlM_of_steps (fun term hterm map _ ↦ ?_) trivial
    rw [listTerm_eq]
    split_ifs with hrange
    · obtain ⟨hfirst, hlast⟩ := listBounds_range term
      have hsmall := lt_of_le_of_ne hlast (hends term hterm hrange)
      obtain ⟨result, hresult⟩ :=
        exists_runRounds_rangeRound hsmall (cfgBitSet map (listBounds term).first, _) hfirst
      exact ⟨result, hresult, trivial⟩
    · exact ⟨_, rfl, trivial⟩
  rw [hresult]
  rfl

theorem rangesEnd_of_isSome (hsome : (vfsParseList rounds map input).isSome) : RangesEnd input := by
  intro term hterm hrange hlast
  have hnone : vfsParseList rounds map input = none := by
    refine foldlM_eq_none_of_step (fun _ _ _ _ _ ↦ trivial) hterm (fun map _ ↦ ?_) trivial
    rw [listTerm_eq, if_pos hrange, hlast]
    exact runRounds_rangeRound_max rounds _
  rw [hnone] at hsome
  cases hsome

/-! ### Masks -/

def maskSpan (terms : List (List UInt8)) : ℕ := ((terms.map maskValue).dropWhile (· = 0)).length

/-- The masks, read one after the other into one map, stay inside it. Once the last word is taken
another mask must have no words at all, as the place of the first word is not reset. -/
def MasksFit (values : List (List UInt8)) : Prop :=
  (∀ value ∈ values, maskSpan (mapTerms value) ≤ 8) ∧
    values.Pairwise fun earlier later ↦ maskSpan (mapTerms earlier) = 8 → mapTerms later = []

/-- What is known of a map while a mask is read: the word of the first term that is not zero is the
last that is not zero. -/
structure MaskState (start : ℕ) (terms : List (List UInt8)) (map : TopoMap) : Prop where
  msw_eq : map.msw = max start (maskSpan terms - 1)
  above : ∀ i, maskSpan terms ≤ i → map.bits i = 0
  top : 0 < maskSpan terms → map.bits (maskSpan terms - 1) ≠ 0

theorem maskSpan_concat (terms : List (List UInt8)) (term : List UInt8) :
    maskSpan (terms ++ [term]) =
      if maskSpan terms = 0 then (if maskValue term = 0 then 0 else 1) else maskSpan terms + 1 := by
  unfold maskSpan
  rw [List.map_append, List.dropWhile_append]
  cases (terms.map maskValue).dropWhile (· = 0) with
  | nil => by_cases hzero : maskValue term = 0 <;> simp [hzero]
  | cons value rest => simp

theorem MaskState.shift {start : ℕ} (hstate : MaskState start terms map) (hmsw : map.msw < 7)
    (term : List UInt8) :
    ∃ next, shiftMask map term = some next ∧ MaskState start (terms ++ [term]) next := by
  obtain ⟨hmsw_eq, habove, htop⟩ := hstate
  refine ⟨_, if_neg (by omega), ?_⟩
  have hspan := maskSpan_concat terms term
  by_cases hzero : maskSpan terms = 0
  · rw [if_pos hzero] at hspan
    have hbits : ∀ i, map.bits i = 0 := fun i ↦ habove i (by omega)
    refine ⟨?_, fun i hi ↦ ?_, fun hpos ↦ ?_⟩
    · dsimp only
      rw [if_neg (not_not.mpr (hbits _)), hspan]
      split_ifs <;> omega
    · dsimp only
      split_ifs with hfirst
      · subst hfirst
        by_contra hvalue
        rw [if_neg hvalue] at hspan
        omega
      · exact hbits _
      · exact hbits _
    · have hvalue : maskValue term ≠ 0 := fun hvalue ↦ by rw [if_pos hvalue] at hspan; omega
      rw [if_neg hvalue] at hspan
      rw [hspan]
      exact hvalue
  · rw [if_neg hzero] at hspan
    refine ⟨?_, fun i hi ↦ ?_, fun hpos ↦ ?_⟩
    · dsimp only
      rw [hspan]
      split_ifs with hword
      · have hle : ¬ maskSpan terms ≤ map.msw := fun hle ↦ hword (habove _ hle)
        omega
      · have hne : map.msw ≠ maskSpan terms - 1 :=
          fun heq ↦ htop (by omega) (heq ▸ not_not.mp hword)
        omega
    · dsimp only
      rw [if_neg (by omega)]
      split_ifs
      · exact habove _ (by omega)
      · exact habove _ (by omega)
    · dsimp only
      rw [hspan, Nat.add_sub_cancel, if_neg hzero, if_pos (by omega)]
      exact htop (by omega)

/-- A mask is read exactly if its words are in the map, and leaves the place of the first word
there. -/
theorem foldlM_shiftMask (hstart : map.msw ≤ 7) (hcleared : ∀ i, map.bits i = 0)
    (terms : List (List UInt8)) :
    (terms.foldlM shiftMask map = none ∧ ¬ (maskSpan terms ≤ 8 ∧ (map.msw = 7 → terms = []))) ∨
      ∃ next, terms.foldlM shiftMask map = some next ∧ MaskState map.msw terms next ∧
        maskSpan terms ≤ 8 ∧ (map.msw = 7 → terms = []) := by
  induction terms using List.reverseRecOn with
  | nil =>
    have hnone : MaskState map.msw [] map :=
      ⟨(Nat.max_zero _).symm, fun i _ ↦ hcleared i, fun h ↦ absurd h (by decide)⟩
    exact .inr ⟨map, rfl, hnone, by decide, fun _ ↦ rfl⟩
  | append_singleton terms term ih =>
    have hspan := maskSpan_concat terms term
    have hgrows : maskSpan terms ≤ maskSpan (terms ++ [term]) := by
      rw [hspan]
      split_ifs <;> omega
    rw [List.foldlM_append]
    rcases ih with ⟨hnone, hover⟩ | ⟨next, hnext, hstate, hfits⟩
    · rw [hnone]
      exact .inl ⟨rfl, fun ⟨hle, hfull⟩ ↦ hover ⟨by omega, fun h ↦ absurd (hfull h) (by simp)⟩⟩
    · rw [hnext]
      have hmsw := hstate.msw_eq
      by_cases hroom : next.msw < 7
      · obtain ⟨last, hlast, hstate'⟩ := hstate.shift hroom term
        refine .inr ⟨last, ?_, hstate', ?_, fun h ↦ absurd h (by omega)⟩
        · exact congrArg (· >>= pure) hlast
        · rw [hspan]
          split_ifs <;> omega
      · refine .inl ⟨congrArg (· >>= pure)
          (if_pos (by omega) : shiftMask next term = none), fun ⟨hle, hfull⟩ ↦ ?_⟩
        have hlow : map.msw ≠ 7 := fun h ↦ absurd (hfull h) (by simp)
        rw [hspan, if_neg (by omega)] at hle
        omega

theorem vfsParseMask_spec (hstart : map.msw ≤ 7) (value : List UInt8) :
    (vfsParseMask map value = none ∧
      ¬ (maskSpan (mapTerms value) ≤ 8 ∧ (map.msw = 7 → mapTerms value = []))) ∨
      ∃ next, vfsParseMask map value = some next ∧ next.msw = max map.msw
      (maskSpan (mapTerms value) - 1) ∧
        maskSpan (mapTerms value) ≤ 8 ∧ (map.msw = 7 → mapTerms value = []) := by
  have hcleared : ({ map with bits := fun _ ↦ 0 } : TopoMap).msw ≤ 7 := hstart
  rcases foldlM_shiftMask hcleared (fun _ ↦ rfl) (mapTerms value) with hnone | ⟨next, hnext,
    hstate, hfits⟩
  · exact .inl hnone
  · exact .inr ⟨next, hnext, hstate.msw_eq, hfits⟩

theorem isSome_foldlM_vfsParseMask (hstart : map.msw ≤ 7) :
    (values.foldlM vfsParseMask map).isSome ↔
    MasksFit values ∧ (map.msw = 7 → ∀ value ∈ values, mapTerms value = []) := by
  induction values generalizing map with
  | nil => exact ⟨fun _ ↦ ⟨⟨nofun, .nil⟩, nofun⟩, fun _ ↦ rfl⟩
  | cons value values ih =>
    rw [List.foldlM_cons]
    unfold MasksFit at ih ⊢
    rw [List.forall_mem_cons, List.forall_mem_cons, List.pairwise_cons]
    rcases vfsParseMask_spec hstart value with ⟨hnone, hover⟩ | ⟨next, hnext, hmsw, hle, hfull⟩
    · rw [hnone]
      exact ⟨fun h ↦
        (by cases h), fun ⟨⟨⟨hle, _⟩, _⟩, hfull⟩ ↦ absurd ⟨hle, fun h ↦ (hfull h).1⟩ hover⟩
    · rw [hnext]
      have hiff : next.msw = 7 ↔ map.msw = 7 ∨ maskSpan (mapTerms value) = 8 := by omega
      refine (ih (by omega)).trans ?_
      rw [hiff]
      grind

end CrossBreeder.Haveged
