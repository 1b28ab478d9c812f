import CrossBreeder.Foundation.Glob
import CrossBreeder.Rinetd.Configuration
import Mathlib.Data.List.GetD

/-!
# The patterns of rinetd

`matchBody` of `match.c` again, with the places of the text that it looks at. It always ends
(`matchLooks_isSome`), with the result of `matches?` (`matches?_eq`).

The general theory of patterns does not apply when a question mark before the first star meets the
end of the text, which it steps over (`RunsOver`), nor to texts with a bar: a bar of the text is
taken for the bar of the pattern, and a question mark behind a star does not match it (`MeetsBar`).
`match_correct_iff` says that nothing else goes wrong.
-/

namespace CrossBreeder.Rinetd

open Foundation GlobItem

/-! ### The looks at the text -/

structure Look where
  position : ℕ
  against : UInt8
  deriving DecidableEq, Repr

def after {β : Type} (looks : List Look) (rest : Option (β × List Look)) : Option (β × List Look) :=
  rest.map fun r ↦ (r.1, looks ++ r.2)

/-- The inner loop of `matchBody` with its looks. -/
def findWordLooks (memory p : List UInt8) (word wordLen last : ℕ) :
    ℕ → ℕ → ℕ → Option (WordSearch × List Look)
  | 0, _, _ => none
  | fuel + 1, s, wordPos =>
    if wordPos = wordLen then
      some (if charAt p last = 0 ∨ charAt p last = 124 then .accepted else .found s, [])
    else
      let look : Look := ⟨s, charAt p (word + wordPos)⟩
      if wordCharMatches (charAt memory s) (charAt p (word + wordPos)) then
        after [look] (findWordLooks memory p word wordLen last fuel (s + 1) (wordPos + 1))
      else if charAt memory (s - wordPos) = 0 then some (.missing, [look, ⟨s - wordPos, 0⟩])
      else after [look, ⟨s - wordPos, 0⟩] (findWordLooks memory p word wordLen last fuel
        (s - wordPos + 1) 0)

/-- The room for the inner loop: every place of the memory is tried, with at most all of the
pattern. -/
def searchFuel (memory p : List UInt8) : ℕ := (memory.length + 2) * (p.length + 2)

/-- The number of characters that are compared for a word, with the bar or the end behind it. -/
def wordLength (p : List UInt8) (pos last : ℕ) : ℕ :=
  if charAt p last = 42 then last - (pos + 1) else last - (pos + 1) + 1

/-- The outer loop of `matchBody` with its looks. -/
def matchLooks (memory p : List UInt8) : ℕ → ℕ → ℕ → Bool → Option (Bool × List Look)
  | 0, _, _, _ => none
  | fuel + 1, s, pos, escaped =>
    let look : Look := ⟨s, charAt p pos⟩
    let retry := match nextPattern p (p.length + 1) pos with
      | none => some (false, [])
      | some pos => matchLooks memory p fuel 0 pos false
    if escaped then
      if charAt memory s = 0 ∧ charAt p pos = 0 then some (true, [look])
      else if charAt p pos ≠ charAt memory s then after [look] retry
      else after [look] (matchLooks memory p fuel (s + 1) (pos + 1) false)
    else if charAt p pos = 92 then matchLooks memory p fuel s (pos + 1) true
    else if charAt p pos = 42 then
      let last := wordEnd p (p.length + 1) (pos + 1)
      match findWordLooks memory p (pos + 1) (wordLength p pos last) last (searchFuel memory p) s 0
        with
      | none => none
      | some (.accepted, looks) => some (true, looks)
      | some (.found s, looks) => after looks (matchLooks memory p fuel s last false)
      | some (.missing, looks) => after looks <| match nextPattern p (p.length + 1) last with
        | none => some (false, [])
        | some pos => matchLooks memory p fuel 0 pos false
    else if charAt p pos = 63 then matchLooks memory p fuel (s + 1) (pos + 1) false
    else if charAt memory s = 0 ∧ (charAt p pos = 0 ∨ charAt p pos = 124) then some (true, [look])
    else if charAt p pos ≠ charAt memory s then after [look] retry
    else after [look] (matchLooks memory p fuel (s + 1) (pos + 1) false)

/-- The run of `match`, with its looks. -/
def matchRun (memory p : List UInt8) : Option (Bool × List Look) :=
  matchLooks memory p (p.length + 2) 0 0 false

theorem after_eq_some {β : Type} {looks all : List Look} {rest : Option (β × List Look)}
    {result : β} (h : after looks rest = some (result, all)) :
    ∃ more, rest = some (result, more) ∧ all = looks ++ more := by
  obtain ⟨r, hr, heq⟩ := Option.map_eq_some_iff.mp h
  obtain ⟨rfl, rfl⟩ := Prod.mk.inj heq
  exact ⟨r.2, hr, rfl⟩

theorem after_isSome {β : Type} (looks : List Look) (rest : Option (β × List Look)) :
    (after looks rest).isSome = rest.isSome := Option.isSome_map

variable {memory p : List UInt8} {looks : List Look} {search : WordSearch}

theorem findWord_eq {word wordLen last fuel s wordPos : ℕ}
    (h : findWordLooks memory p word wordLen last fuel s wordPos = some (search, looks)) :
    findWord memory p word wordLen last fuel s wordPos = search := by
  induction fuel generalizing s wordPos looks with
  | zero => contradiction
  | succ fuel ih =>
    unfold findWordLooks at h
    unfold findWord
    by_cases hend : wordPos = wordLen
    · rw [if_pos hend] at h ⊢
      exact (Prod.mk.inj (Option.some.inj h)).1
    · rw [if_neg hend] at h ⊢
      by_cases hchar : wordCharMatches (charAt memory s) (charAt p (word + wordPos)) = true
      · rw [if_pos hchar] at h ⊢
        obtain ⟨more, hmore, -⟩ := after_eq_some h
        exact ih hmore
      · rw [if_neg hchar] at h ⊢
        by_cases hzero : charAt memory (s - wordPos) = 0
        · rw [if_pos hzero] at h ⊢
          exact (Prod.mk.inj (Option.some.inj h)).1
        · rw [if_neg hzero] at h ⊢
          obtain ⟨more, hmore, -⟩ := after_eq_some h
          exact ih hmore

variable {fuel s pos : ℕ}

theorem matchLoop_eq {escaped result : Bool}
    (h : matchLooks memory p fuel s pos escaped = some (result, looks)) :
    matchLoop memory p fuel s pos escaped = result := by
  induction fuel generalizing s pos escaped looks with
  | zero => contradiction
  | succ fuel ih =>
    have hretry : ∀ {place : ℕ} {looks : List Look},
        (match nextPattern p (p.length + 1) place with
          | none => some (false, [])
          | some pos => matchLooks memory p fuel 0 pos false) = some (result, looks) →
        (match nextPattern p (p.length + 1) place with
          | none => false
          | some pos => matchLoop memory p fuel 0 pos false) = result := by
      intro place looks h
      cases hnext : nextPattern p (p.length + 1) place with
      | none =>
        rw [hnext] at h
        exact (Prod.mk.inj (Option.some.inj h)).1
      | some pos =>
        rw [hnext] at h
        exact ih h
    have hafter : ∀ {front looks : List Look} {s pos : ℕ} {escaped : Bool},
        after front (matchLooks memory p fuel s pos escaped) = some (result, looks) →
        matchLoop memory p fuel s pos escaped = result := by
      intro front looks s pos escaped h
      obtain ⟨more, hmore, -⟩ := after_eq_some h
      exact ih hmore
    unfold matchLooks at h
    unfold matchLoop
    dsimp only at h ⊢
    by_cases hescaped : escaped = true
    · rw [if_pos hescaped] at h ⊢
      by_cases hend : charAt memory s = 0 ∧ charAt p pos = 0
      · rw [if_pos hend] at h ⊢
        exact (Prod.mk.inj (Option.some.inj h)).1
      · rw [if_neg hend] at h ⊢
        by_cases hne : charAt p pos ≠ charAt memory s
        · rw [if_pos hne] at h ⊢
          obtain ⟨more, hmore, -⟩ := after_eq_some h
          exact hretry hmore
        · rw [if_neg hne] at h ⊢
          exact hafter h
    rw [if_neg hescaped] at h ⊢
    by_cases hescape : charAt p pos = 92
    · rw [if_pos hescape] at h ⊢
      exact ih h
    rw [if_neg hescape] at h ⊢
    by_cases hstar : charAt p pos = 42
    · rw [if_pos hstar] at h ⊢
      split at h
      · contradiction
      · rename_i hsearch
        rw [← wordLength, ← searchFuel, findWord_eq hsearch]
        exact (Prod.mk.inj (Option.some.inj h)).1
      · rename_i hsearch
        rw [← wordLength, ← searchFuel, findWord_eq hsearch]
        exact hafter h
      · rename_i hsearch
        rw [← wordLength, ← searchFuel, findWord_eq hsearch]
        obtain ⟨more, hmore, -⟩ := after_eq_some h
        exact hretry hmore
    rw [if_neg hstar] at h ⊢
    by_cases hany : charAt p pos = 63
    · rw [if_pos hany] at h ⊢
      exact ih h
    rw [if_neg hany] at h ⊢
    by_cases hend : charAt memory s = 0 ∧ (charAt p pos = 0 ∨ charAt p pos = 124)
    · rw [if_pos hend] at h ⊢
      exact (Prod.mk.inj (Option.some.inj h)).1
    rw [if_neg hend] at h ⊢
    by_cases hne : charAt p pos ≠ charAt memory s
    · rw [if_pos hne] at h ⊢
      obtain ⟨more, hmore, -⟩ := after_eq_some h
      exact hretry hmore
    · rw [if_neg hne] at h ⊢
      exact hafter h

variable {result : Bool}

theorem matches?_eq (h : matchRun memory p = some (result, looks)) :
    matches? memory p = result := matchLoop_eq h

/-! ### Places in the pattern and in the text -/

variable {k : ℕ} {l : List UInt8}

theorem charAt_of_lt (hk : k < l.length) : charAt l k = l[k] := List.getD_eq_getElem _ _ hk

theorem charAt_of_le (hk : l.length ≤ k) : charAt l k = 0 := List.getD_eq_default _ _ hk

theorem lt_length_of_charAt (h : charAt l k ≠ 0) : k < l.length :=
  Nat.lt_of_not_le fun hle ↦ h (charAt_of_le hle)

theorem charAt_ne_zero (h0 : 0 ∉ l) (hk : k < l.length) : charAt l k ≠ 0 := by
  rw [charAt_of_lt hk]
  exact fun heq ↦ h0 (heq ▸ List.getElem_mem hk)

theorem drop_eq_charAt_cons (hk : k < l.length) : l.drop k = charAt l k :: l.drop (k + 1) := by
  rw [charAt_of_lt hk, List.drop_eq_getElem_cons hk]

theorem drop_eq_nil_of_charAt (h0 : 0 ∉ l) (h : charAt l k = 0) : l.drop k = [] :=
  List.drop_eq_nil_iff.mpr (Nat.le_of_not_lt fun hk ↦ charAt_ne_zero h0 hk h)

/-- The text of a pattern: digits, dots, question marks, stars and bars. -/
def PatternText (p : List UInt8) : Prop := ∀ c ∈ p,
    (48 ≤ c ∧ c ≤ 57) ∨ c = 46 ∨ c = 63 ∨ c = 42 ∨ c = 124

instance (p : List UInt8) : Decidable (PatternText p) := inferInstanceAs (Decidable (∀ c ∈ p, _))

theorem PatternText.zero_notMem (h : PatternText p) : 0 ∉ p := by
  intro hzero
  have := h 0 hzero
  revert this
  decide

theorem PatternText.charAt_ne (h : PatternText p) (pos : ℕ) : charAt p pos ≠ 92 := by
  intro heq
  have hlt : pos < p.length := lt_length_of_charAt (by rw [heq]; decide)
  have := h 92 (heq ▸ charAt_of_lt hlt ▸ List.getElem_mem hlt)
  revert this
  decide

variable {rest : List (List UInt8)}

theorem splitOn_append {w : List UInt8} (hw : 124 ∉ w) {q cur : List UInt8}
    (h : (w ++ q).splitOn 124 = cur :: rest) :
    ∃ cur', q.splitOn 124 = cur' :: rest ∧ cur = w ++ cur' := by
  induction w generalizing cur with
  | nil => exact ⟨cur, h, rfl⟩
  | cons c w ih =>
    obtain ⟨hc, hw⟩ := List.ne_and_not_mem_of_not_mem_cons hw
    rw [List.cons_append, List.splitOn_cons_eq_if_modifyHead, if_neg (by simpa using hc.symm)] at h
    cases hsplit : (w ++ q).splitOn 124 with
    | nil => exact absurd hsplit (List.splitOn_ne_nil _ _)
    | cons inner rest' =>
      rw [hsplit] at h
      obtain ⟨rfl, rfl⟩ := List.cons.inj h
      obtain ⟨cur', hcur, rfl⟩ := ih hw hsplit
      exact ⟨cur', hcur, rfl⟩

variable {cur : List UInt8}

theorem nextPattern_spec (h0 : 0 ∉ p) {fuel pos : ℕ} (hfuel : p.length < pos + fuel)
    (hsplit : (p.drop pos).splitOn 124 = cur :: rest) :
    (nextPattern p fuel pos = none ∧ rest = []) ∨
      ∃ next, nextPattern p fuel pos = some next ∧ pos < next ∧ next ≤ p.length ∧
      (p.drop next).splitOn 124 = rest := by
  induction fuel generalizing pos cur with
  | zero =>
    rw [List.drop_eq_nil_of_le (by omega), List.splitOn_nil] at hsplit
    exact Or.inl ⟨rfl, (List.cons.inj hsplit).2.symm⟩
  | succ fuel ih =>
    unfold nextPattern
    by_cases hend : charAt p pos = 0
    · rw [drop_eq_nil_of_charAt h0 hend, List.splitOn_nil] at hsplit
      rw [if_pos hend]
      exact Or.inl ⟨rfl, (List.cons.inj hsplit).2.symm⟩
    · have hlt := lt_length_of_charAt hend
      rw [if_neg hend]
      rw [drop_eq_charAt_cons hlt] at hsplit
      by_cases hbar : charAt p pos = 124
      · rw [if_pos hbar]
        rw [hbar, List.splitOn_cons_eq_if_modifyHead, if_pos (beq_self_eq_true _)] at hsplit
        exact Or.inr ⟨pos + 1, rfl, Nat.lt_succ_self pos, hlt, (List.cons.inj hsplit).2⟩
      · rw [if_neg hbar]
        obtain ⟨cur', hcur, -⟩ :=
          splitOn_append (w := [charAt p pos]) (by simpa using Ne.symm hbar) hsplit
        rcases ih (by omega) hcur with hnone | ⟨next, hnext, hpos, hle, hrest⟩
        · exact Or.inl hnone
        · exact Or.inr ⟨next, hnext, by omega, hle, hrest⟩

theorem wordEnd_spec {fuel pos : ℕ} (hpos : pos ≤ p.length) (hfuel : p.length < pos + fuel) :
    ∃ w, wordEnd p fuel pos = pos + w.length ∧ p.drop pos = w ++ p.drop (pos + w.length) ∧
      pos + w.length ≤ p.length ∧ (∀ c ∈ w, c ≠ 42 ∧ c ≠ 0 ∧ c ≠ 124) ∧
      (charAt p (pos + w.length) = 42 ∨ charAt p (pos + w.length) = 0 ∨
      charAt p (pos + w.length) = 124) := by
  induction fuel generalizing pos with
  | zero => omega
  | succ fuel ih =>
    unfold wordEnd
    by_cases hend : charAt p pos = 42 ∨ charAt p pos = 0 ∨ charAt p pos = 124
    · rw [if_pos hend]
      exact ⟨[], rfl, rfl, hpos, by simp, hend⟩
    · rw [if_neg hend]
      obtain ⟨hstar, hzero, hbar⟩ : charAt p pos ≠ 42 ∧ charAt p pos ≠ 0 ∧ charAt p pos ≠ 124 := by
        simpa using hend
      have hlt := lt_length_of_charAt hzero
      obtain ⟨w, hword, hdrop, hle, hw, hclose⟩ := ih (Nat.succ_le_of_lt hlt) (by omega)
      have hlength : pos + (charAt p pos :: w).length = pos + 1 + w.length := by
        rw [List.length_cons]
        omega
      rw [drop_eq_charAt_cons hlt]
      refine ⟨charAt p pos :: w, ?_, ?_, ?_, ?_, ?_⟩
      · rw [hword, hlength]
      · rw [hlength, hdrop, List.cons_append]
      · rwa [hlength]
      · intro c hc
        rcases List.mem_cons.mp hc with rfl | hc
        · exact ⟨hstar, hzero, hbar⟩
        · exact hw c hc
      · rwa [hlength]

/-! ### The steps of the outer loop -/

/-- The code behind the label `nextPattern`, and the run from the next alternative. -/
def nextRun (memory p : List UInt8) (fuel place : ℕ) : Option (Bool × List Look) :=
  match nextPattern p (p.length + 1) place with
  | none => some (false, [])
  | some pos => matchLooks memory p fuel 0 pos false

section

variable {fuel s pos : ℕ}

theorem matchLooks_star (h : charAt p pos = 42) : matchLooks memory p (fuel + 1) s pos false =
    match findWordLooks memory p (pos + 1) (wordLength p pos (wordEnd p (p.length + 1) (pos + 1)))
        (wordEnd p (p.length + 1) (pos + 1)) (searchFuel memory p) s 0 with
    | none => none
    | some (.accepted, looks) => some (true, looks)
    | some (.found s, looks) =>
      after looks (matchLooks memory p fuel s (wordEnd p (p.length + 1) (pos + 1)) false)
    | some (.missing, looks) =>
      after looks (nextRun memory p fuel (wordEnd p (p.length + 1) (pos + 1))) := by
  rw [matchLooks, if_neg Bool.false_ne_true, if_neg (by rw [h]; decide), if_pos h]
  rfl

theorem matchLooks_any (h : charAt p pos = 63) :
    matchLooks memory p (fuel + 1) s pos false = matchLooks memory p fuel (s + 1)
      (pos + 1) false := by
  rw [matchLooks, if_neg Bool.false_ne_true,
    if_neg (by rw [h]; decide), if_neg (by rw [h]; decide), if_pos h]

/-- The default case: a character, a bar or the end. -/
theorem matchLooks_plain (hescape : charAt p pos ≠ 92) (hstar : charAt p pos ≠ 42)
    (hany : charAt p pos ≠ 63) : matchLooks memory p (fuel + 1) s pos false =
      if charAt memory s = 0 ∧ (charAt p pos = 0 ∨ charAt p pos = 124) then
      some (true, [⟨s, charAt p pos⟩])
      else if charAt p pos ≠ charAt memory s then after [⟨s, charAt p pos⟩]
      (nextRun memory p fuel pos)
      else after [⟨s, charAt p pos⟩] (matchLooks memory p fuel (s + 1) (pos + 1) false) := by
  rw [matchLooks, if_neg Bool.false_ne_true, if_neg hescape, if_neg hstar, if_neg hany]
  rfl

end

/-! ### Every run ends -/

variable {word wordLen last fuel start wordPos : ℕ}

theorem findWordLooks_isSome (hword : wordPos ≤ wordLen)
    (hfuel : (memory.length - start) * (wordLen + 1) + (wordLen - wordPos) < fuel) :
    (findWordLooks memory p word wordLen last fuel (start + wordPos) wordPos).isSome := by
  induction fuel generalizing start wordPos with
  | zero => omega
  | succ fuel ih =>
    unfold findWordLooks
    by_cases hend : wordPos = wordLen
    · rw [if_pos hend]
      rfl
    · rw [if_neg hend, Nat.add_sub_cancel]
      by_cases hchar :
        wordCharMatches (charAt memory (start + wordPos)) (charAt p (word + wordPos)) = true
      · rw [if_pos hchar, after_isSome]
        have hnext : (findWordLooks memory p word wordLen last fuel (start + (wordPos + 1))
          (wordPos + 1)).isSome :=
          ih (by omega) (by omega)
        exact hnext
      · rw [if_neg hchar]
        by_cases hzero : charAt memory start = 0
        · rw [if_pos hzero]
          rfl
        · rw [if_neg hzero, after_isSome]
          have hlt := lt_length_of_charAt hzero
          have hplaces : (memory.length - start) * (wordLen + 1) =
              (memory.length - (start + 1)) * (wordLen + 1) + (wordLen + 1) := by
            rw [← Nat.succ_mul]
            congr 1
            omega
          have hnext : (findWordLooks memory p word wordLen last fuel (start + 1 + 0) 0).isSome :=
            ih (by omega) (by omega)
          exact hnext

theorem wordLength_le {pos last : ℕ} (hlast : last ≤ p.length) :
    wordLength p pos last ≤ p.length + 1 := by
  unfold wordLength
  split_ifs <;> omega

theorem search_isSome {pos last s : ℕ} (hlast : last ≤ p.length) :
    (findWordLooks memory p (pos + 1) (wordLength p pos last) last (searchFuel memory p) s
      0).isSome := by
  have hlength : wordLength p pos last ≤ p.length + 1 := wordLength_le hlast
  refine findWordLooks_isSome (Nat.zero_le _) ?_
  calc (memory.length - s) * (wordLength p pos last + 1) + (wordLength p pos last - 0)
      < (memory.length - s) * (wordLength p pos last + 1) + (wordLength p pos last + 1) := by omega
    _ = (memory.length - s + 1) * (wordLength p pos last + 1) := (Nat.succ_mul ..).symm
    _ ≤ (memory.length + 2) * (p.length + 2) := Nat.mul_le_mul (by omega) (by omega)

theorem matchLooks_isSome (hp : PatternText p) (hpos : pos ≤ p.length)
    (hfuel : p.length < pos + fuel) : (matchLooks memory p fuel s pos false).isSome := by
  induction fuel generalizing s pos with
  | zero => omega
  | succ fuel ih =>
    have hnext : ∀ place, pos ≤ place → place ≤ p.length →
      (nextRun memory p fuel place).isSome := by
      intro place hplace hle
      cases hsplit : (p.drop place).splitOn 124 with
      | nil => exact absurd hsplit (List.splitOn_ne_nil _ _)
      | cons cur rest =>
        unfold nextRun
        have hroom : p.length < place + (p.length + 1) := by omega
        rcases nextPattern_spec hp.zero_notMem hroom hsplit with ⟨hnone, -⟩ | ⟨next, hsome,
          hlt, hnext, -⟩
        · rw [hnone]
          rfl
        · rw [hsome]
          exact ih hnext (by omega)
    by_cases hstar : charAt p pos = 42
    · have hlt : pos < p.length := lt_length_of_charAt (by rw [hstar]; decide)
      have hroom : p.length < pos + 1 + (p.length + 1) := by omega
      obtain ⟨w, hlast, -, hle, -, -⟩ := wordEnd_spec (Nat.succ_le_of_lt hlt) hroom
      have hends : (findWordLooks memory p (pos + 1) (wordLength p pos (pos + 1 + w.length))
        (pos + 1 + w.length)
          (searchFuel memory p) s 0).isSome := search_isSome hle
      obtain ⟨⟨search, looks⟩, hsearch⟩ := Option.isSome_iff_exists.mp hends
      rw [matchLooks_star hstar, hlast, hsearch]
      cases search with
      | accepted => rfl
      | found s => exact (after_isSome ..).trans (ih hle (by omega))
      | missing => exact (after_isSome ..).trans (hnext _ (by omega) hle)
    by_cases hany : charAt p pos = 63
    · have hlt : pos < p.length := lt_length_of_charAt (by rw [hany]; decide)
      rw [matchLooks_any hany]
      exact ih hlt (by omega)
    rw [matchLooks_plain (hp.charAt_ne pos) hstar hany]
    by_cases hend : charAt memory s = 0 ∧ (charAt p pos = 0 ∨ charAt p pos = 124)
    · rw [if_pos hend]
      rfl
    rw [if_neg hend]
    by_cases hne : charAt p pos ≠ charAt memory s
    · rw [if_pos hne, after_isSome]
      exact hnext pos (Nat.le_refl _) hpos
    · have hlt : pos < p.length := lt_length_of_charAt fun hzero ↦
        hend ⟨by rw [← not_not.mp hne, hzero], Or.inl hzero⟩
      rw [if_neg hne, after_isSome]
      exact ih hlt (by omega)

theorem matchRun_isSome (hp : PatternText p) : (matchRun memory p).isSome :=
  matchLooks_isSome hp (Nat.zero_le _) (by omega)

/-! ### The search for a word -/

/-- The characters of the word are found from a place on, when a look is as `fits` says. -/
def WordAt (fits : ℕ → UInt8 → Prop) (p : List UInt8) (word wordLen k : ℕ) : Prop :=
  ∀ j < wordLen, fits (k + j) (charAt p (word + j))

/-- The search finds the first place of the word, or arrives at a zero first. -/
theorem findWordLooks_spec (fits : ℕ → UInt8 → Prop)
    (hword : wordPos ≤ wordLen)
    (hfits : ∀ look ∈ looks,
      wordCharMatches (charAt memory look.position) look.against = true ↔
      fits look.position look.against)
    (hfront : ∀ j < wordPos, fits (start + j) (charAt p (word + j)))
    (h : findWordLooks memory p word wordLen last fuel (start + wordPos) wordPos =
      some (search, looks)) :
    ∃ k, start ≤ k ∧
      (∀ before, start ≤ before → before < k → charAt memory before ≠ 0 ∧
      ¬ WordAt fits p word wordLen before) ∧ ((WordAt fits p word wordLen k ∧
          search = if charAt p last = 0 ∨ charAt p last = 124 then .accepted
          else .found (k + wordLen)) ∨
        (charAt memory k = 0 ∧ ¬ WordAt fits p word wordLen k ∧ search = .missing)) := by
  induction fuel generalizing start wordPos looks with
  | zero => contradiction
  | succ fuel ih =>
    unfold findWordLooks at h
    by_cases hend : wordPos = wordLen
    · rw [if_pos hend] at h
      obtain ⟨rfl, -⟩ := Prod.mk.inj (Option.some.inj h)
      subst hend
      exact ⟨start, Nat.le_refl _, fun _ hle hlt ↦ absurd hlt (by omega), Or.inl ⟨hfront, rfl⟩⟩
    · rw [if_neg hend, Nat.add_sub_cancel] at h
      by_cases hchar :
        wordCharMatches (charAt memory (start + wordPos)) (charAt p (word + wordPos)) = true
      · rw [if_pos hchar] at h
        obtain ⟨more, hmore, rfl⟩ := after_eq_some h
        rw [Nat.add_assoc] at hmore
        refine ih (by omega) (fun look hlook ↦ hfits look (List.mem_append_right _
          hlook)) (fun j hj ↦ ?_) hmore
        rcases Nat.lt_succ_iff_lt_or_eq.mp hj with hlt | rfl
        · exact hfront j hlt
        · exact (hfits ⟨start + j, charAt p (word + j)⟩ (by simp)).mp hchar
      · rw [if_neg hchar] at h
        have hfails : ∀ more, looks = [⟨start + wordPos, charAt p (word + wordPos)⟩, ⟨start, 0⟩] ++
          more →
            ¬ WordAt fits p word wordLen start := fun more hlooks hthere ↦
          hchar ((hfits ⟨start + wordPos, charAt p (word + wordPos)⟩
            (by simp [hlooks])).mpr (hthere wordPos (by omega)))
        by_cases hzero : charAt memory start = 0
        · rw [if_pos hzero] at h
          obtain ⟨rfl, rfl⟩ := Prod.mk.inj (Option.some.inj h)
          exact ⟨start, Nat.le_refl _, fun _ hle hlt ↦
            absurd hlt (by omega), Or.inr ⟨hzero, hfails [] rfl, rfl⟩⟩
        · rw [if_neg hzero] at h
          obtain ⟨more, hmore, rfl⟩ := after_eq_some h
          obtain ⟨k, hk, hbefore, hfound⟩ :=
            ih (Nat.zero_le _) (fun look hlook ↦ hfits look (List.mem_append_right _ hlook))
              (fun j hj ↦ absurd hj (Nat.not_lt_zero j)) hmore
          refine ⟨k, by omega, fun before hle hlt ↦ ?_, hfound⟩
          rcases Nat.eq_or_lt_of_le hle with rfl | hmore
          · exact ⟨hzero, hfails more rfl⟩
          · exact hbefore before hmore hlt

def inMemory (text garbage : List UInt8) : List UInt8 := text ++ 0 :: garbage

section

variable {text garbage : List UInt8}

theorem charAt_inMemory (hk : k < text.length) : charAt (inMemory text garbage) k = charAt text k :=
  List.getD_append _ _ _ _ hk

@[simp]
theorem charAt_inMemory_length : charAt (inMemory text garbage) text.length = 0 := by
  rw [charAt, inMemory, List.getD_append_right _ _ _ _ (Nat.le_refl _), Nat.sub_self]
  rfl

theorem charAt_inMemory_eq_zero_iff (h0 : 0 ∉ text) (hk : k ≤ text.length) :
    charAt (inMemory text garbage) k = 0 ↔ k = text.length := by
  constructor
  · intro hzero
    by_contra hne
    have hlt : k < text.length := by omega
    rw [charAt_inMemory hlt] at hzero
    exact charAt_ne_zero h0 hlt hzero
  · rintro rfl
    exact charAt_inMemory_length

theorem charAt_of_bar (hk : k ≤ text.length) (h : charAt (inMemory text garbage) k = 124) :
    charAt text k = 124 := by
  rcases Nat.eq_or_lt_of_le hk with rfl | hlt
  · rw [charAt_inMemory_length] at h
    contradiction
  · rwa [charAt_inMemory hlt] at h

theorem findWordLooks_within (h0 : 0 ∉ text)
    (hstart : start ≤ text.length) (hword : wordPos ≤ wordLen)
    (hinside : wordPos < wordLen → start + wordPos ≤ text.length)
    (hclose : ∀ j, j + 1 < wordLen → charAt p (word + j) ≠ 0 ∧ charAt p (word + j) ≠ 124)
    (h : findWordLooks (inMemory text garbage) p word wordLen last fuel (start + wordPos) wordPos =
      some (search, looks)) :
    ∀ look ∈ looks, look.position ≤ text.length := by
  induction fuel generalizing start wordPos looks with
  | zero => contradiction
  | succ fuel ih =>
    unfold findWordLooks at h
    by_cases hend : wordPos = wordLen
    · rw [if_pos hend] at h
      obtain ⟨-, rfl⟩ := Prod.mk.inj (Option.some.inj h)
      simp
    · rw [if_neg hend, Nat.add_sub_cancel] at h
      have hplace := hinside (by omega)
      by_cases hchar : wordCharMatches (charAt (inMemory text garbage) (start + wordPos))
        (charAt p (word + wordPos)) = true
      · rw [if_pos hchar] at h
        obtain ⟨more, hmore, rfl⟩ := after_eq_some h
        rw [Nat.add_assoc] at hmore
        have hnext : wordPos + 1 < wordLen → start + (wordPos + 1) ≤ text.length := by
          intro hmorePos
          by_contra hout
          -- at the zero only the bar or the end behind the word matches
          have hzero : charAt (inMemory text garbage) (start + wordPos) = 0 := by
            rw [show start + wordPos = text.length by omega]
            exact charAt_inMemory_length
          rw [hzero, wordCharMatches, decide_eq_true_iff] at hchar
          obtain ⟨hend0, hbar⟩ := hclose wordPos hmorePos
          rcases hchar with heq | ⟨-, heq⟩ | ⟨hne, -⟩
          · exact hend0 heq.symm
          · exact hbar heq
          · exact hne rfl
        intro look hlook
        rcases List.mem_append.mp hlook with hhere | hlater
        · obtain rfl := List.mem_singleton.mp hhere
          exact hplace
        · exact ih hstart (by omega) hnext hmore look hlater
      · rw [if_neg hchar] at h
        have hhere : ∀ look ∈ [(⟨start + wordPos, charAt p (word + wordPos)⟩ : Look), ⟨start, 0⟩],
            look.position ≤ text.length := by
          intro look hlook
          rcases List.mem_cons.mp hlook with rfl | hlook
          · exact hplace
          · obtain rfl := List.mem_singleton.mp hlook
            exact hstart
        by_cases hzero : charAt (inMemory text garbage) start = 0
        · rw [if_pos hzero] at h
          obtain ⟨-, rfl⟩ := Prod.mk.inj (Option.some.inj h)
          exact hhere
        · rw [if_neg hzero] at h
          obtain ⟨more, hmore, rfl⟩ := after_eq_some h
          have hlt : start + 1 ≤ text.length := by
            have hne : start ≠ text.length :=
              fun heq ↦ hzero ((charAt_inMemory_eq_zero_iff h0 hstart).mpr heq)
            omega
          have hagain : findWordLooks (inMemory text garbage) p word wordLen last fuel
            (start + 1 + 0) 0 =
              some (search, more) := hmore
          intro look hlook
          rcases List.mem_append.mp hlook with hfirst | hlater
          · exact hhere look hfirst
          · exact ih hlt (Nat.zero_le _) (fun _ ↦ hlt) hagain look hlater

/-! ### What the patterns mean -/

def globItem (c : UInt8) : GlobItem UInt8 := if c = 42 then star else if c = 63 then any else lit c

def AlternativeMatches (alternative text : List UInt8) :
    Prop := Matches (alternative.map globItem) text

/-- A character of a stored text is what a word has there: any character, the end, or the character
itself. -/
def charFits (text word : UInt8) : Prop :=
  if word = 63 then text ≠ 0 else if word = 0 ∨ word = 124 then text = 0 else text = word

/-- A look at a bar of the text that expects a bar of the pattern, or has a question mark. -/
def MeetsBar (text : List UInt8) (looks : List Look) : Prop :=
  ∃ look ∈ looks, charAt text look.position = 124 ∧ (look.against = 124 ∨ look.against = 63)

theorem wordCharMatches_iff {text word : UInt8} (h : ¬ (text = 124 ∧ (word = 124 ∨ word = 63))) :
    wordCharMatches text word = true ↔ charFits text word := by
  rw [wordCharMatches, decide_eq_true_iff, charFits]
  by_cases hany : word = 63
  · subst hany
    rw [if_pos rfl]
    constructor
    · rintro (rfl | ⟨-, hbar⟩ | ⟨hne, -⟩)
      · decide
      · exact absurd hbar (by decide)
      · exact hne
    · exact fun hne ↦ Or.inr (Or.inr ⟨hne, fun hbar ↦ h ⟨hbar, Or.inr rfl⟩, rfl⟩)
  rw [if_neg hany]
  by_cases hclose : word = 0 ∨ word = 124
  · rw [if_pos hclose]
    constructor
    · rintro (rfl | ⟨hzero, -⟩ | ⟨-, -, hany'⟩)
      · exact hclose.resolve_right fun hbar ↦ h ⟨hbar, Or.inl hbar⟩
      · exact hzero
      · exact absurd hany' hany
    · rintro rfl
      rcases hclose with rfl | hbar
      · exact Or.inl rfl
      · exact Or.inr (Or.inl ⟨rfl, hbar⟩)
  · rw [if_neg hclose]
    constructor
    · rintro (heq | ⟨-, hbar⟩ | ⟨-, -, hany'⟩)
      · exact heq
      · exact absurd (Or.inr hbar) hclose
      · exact absurd hany' hany
    · exact Or.inl

variable (garbage) in
theorem standsAt_iff (h0 : 0 ∉ text) {w : List UInt8} (hw : ∀ c ∈ w, c ≠ 42 ∧ c ≠ 0 ∧ c ≠ 124)
    (hk : k ≤ text.length) :
    (∀ j < w.length, charFits (charAt (inMemory text garbage) (k + j)) (charAt w j)) ↔ StandsAt
      (w.map globItem) text k := by
  unfold StandsAt
  induction w generalizing k with
  | nil => simp
  | cons c w ih =>
    obtain ⟨⟨hstar, hzero, hbar⟩, hw⟩ := List.forall_mem_cons.mp hw
    have hsplit : (∀ j < (c :: w).length, charFits (charAt (inMemory text garbage) (k + j))
      (charAt (c :: w) j)) ↔
        charFits (charAt (inMemory text garbage) k) c ∧
          ∀ j < w.length, charFits (charAt (inMemory text garbage) (k + 1 + j)) (charAt w j) := by
      rw [List.length_cons, Nat.forall_lt_succ_left]
      simp only [Nat.add_assoc, Nat.add_comm 1]
      rfl
    rw [hsplit, List.length_map, List.length_cons, List.map_cons]
    rcases Nat.eq_or_lt_of_le hk with rfl | hlt
    · rw [charAt_inMemory_length, List.drop_length, List.take_nil]
      simp only [charFits, globItem, hstar, hzero, hbar, if_false, or_self]
      by_cases hany : c = 63
      · simp [hany]
      · simp [hany, Ne.symm hzero]
    · have hchar := charAt_ne_zero h0 hlt
      rw [ih hw hlt, charAt_inMemory hlt, drop_eq_charAt_cons hlt, List.take_succ_cons,
        List.length_map]
      simp only [charFits, globItem, hstar, hzero, hbar, if_false, or_self]
      by_cases hany : c = 63
      · simp [hany, hchar]
      · simp [hany]

theorem star_notMem_map {w : List UInt8} (hw : 42 ∉ w) : star ∉ w.map globItem := by
  intro hmem
  obtain ⟨c, hc, hitem⟩ := List.mem_map.mp hmem
  unfold globItem at hitem
  split_ifs at hitem with hstar
  exact hw (hstar ▸ hc)

/-- A word behind a star, as the pattern holds it: the characters, and what closes it. -/
structure WordOf (p : List UInt8) (word : ℕ) (w : List UInt8) : Prop where
  drop : p.drop word = w ++ p.drop (word + w.length)
  plain : ∀ c ∈ w, c ≠ 42 ∧ c ≠ 0 ∧ c ≠ 124
  close : charAt p (word + w.length) = 42 ∨ charAt p (word + w.length) = 0 ∨
    charAt p (word + w.length) = 124

namespace WordOf

variable {word : ℕ} {w : List UInt8}

theorem star_notMem (h : WordOf p word w) : 42 ∉ w := fun hmem ↦ (h.plain 42 hmem).1 rfl

theorem charAt_eq (h : WordOf p word w) {j : ℕ} (hj : j < w.length) :
    charAt p (word + j) = charAt w j := by
  have hdrop : charAt p (word + j) = charAt (p.drop word) j := by simp [charAt]
  rw [hdrop, h.drop]
  exact List.getD_append _ _ _ _ hj

theorem close_last (h : WordOf p word w) {wordLen : ℕ} (hlength : wordLen ≤ w.length + 1) {j : ℕ}
    (hj : j + 1 < wordLen) : charAt p (word + j) ≠ 0 ∧ charAt p (word + j) ≠ 124 := by
  have hlt : j < w.length := by omega
  rw [h.charAt_eq hlt, charAt_of_lt hlt]
  exact (h.plain _ (List.getElem_mem hlt)).2

theorem wordAt_iff (h : WordOf p word w) (h0 : 0 ∉ text) (hk : k ≤ text.length) :
    WordAt (fun position c ↦ charFits (charAt (inMemory text garbage) position) c) p
      word w.length k ↔ StandsAt (w.map globItem) text k := by
  refine (forall₂_congr fun j hj ↦ ?_).trans (standsAt_iff garbage h0 h.plain hk)
  rw [h.charAt_eq hj]

variable (garbage) in
theorem lastWordAt_iff (h : WordOf p word w) (h0 : 0 ∉ text) (hk : k ≤ text.length)
    (hclose : charAt p (word + w.length) = 0 ∨ charAt p (word + w.length) = 124) :
    WordAt (fun position c ↦ charFits (charAt (inMemory text garbage) position) c) p word
      (w.length + 1) k ↔ StandsAt (w.map globItem) text k ∧ k + w.length = text.length := by
  have hlast : charFits (charAt (inMemory text garbage) (k + w.length))
    (charAt p (word + w.length)) ↔
      charAt (inMemory text garbage) (k + w.length) = 0 := by
    have hany : charAt p (word + w.length) ≠ 63 := by
      rcases hclose with heq | heq <;> rw [heq] <;> decide
    rw [charFits, if_neg hany, if_pos hclose]
  have hsplit : WordAt (fun position c ↦ charFits (charAt (inMemory text garbage) position) c) p
    word (w.length + 1) k ↔
      WordAt (fun position c ↦ charFits (charAt (inMemory text garbage) position) c) p
        word w.length k ∧ charAt (inMemory text garbage) (k + w.length) = 0 := by
    rw [← hlast]
    exact Nat.forall_lt_succ_right
  rw [hsplit, h.wordAt_iff h0 hk]
  refine and_congr_right fun hstands ↦ charAt_inMemory_eq_zero_iff h0 ?_
  have hle := StandsAt.le (star_notMem_map h.star_notMem) hk hstands
  rwa [List.length_map] at hle

theorem wordLength_eq {pos : ℕ} (h : charAt p (pos + 1 + w.length) = 42) :
    wordLength p pos (pos + 1 + w.length) = w.length := by
  rw [wordLength, if_pos h]
  omega

theorem lastWordLength_eq {pos : ℕ} (h : charAt p (pos + 1 + w.length) ≠ 42) :
    wordLength p pos (pos + 1 + w.length) = w.length + 1 := by
  rw [wordLength, if_neg h]
  omega

variable {pos s fuel : ℕ} {search : WordSearch} {looks : List Look}

/-- The result of a search, for an alternative that starts with a star and a word, and what it has
behind the word. -/
def SearchMeans (text : List UInt8) (s : ℕ) (whole behind : List UInt8) : WordSearch → Prop
  | .accepted => AlternativeMatches whole (text.drop s)
  | .missing => ¬ AlternativeMatches whole (text.drop s)
  | .found k => k ≤ text.length ∧ (∃ g, behind = 42 :: g) ∧
    (AlternativeMatches whole (text.drop s) ↔ AlternativeMatches behind (text.drop k))

theorem search_within (h : WordOf p (pos + 1) w) (h0 : 0 ∉ text) (hs : s ≤ text.length)
    (hsearch : findWordLooks (inMemory text garbage) p (pos + 1)
      (wordLength p pos (pos + 1 + w.length))
      (pos + 1 + w.length) fuel s 0 = some (search, looks)) :
    ∀ look ∈ looks, look.position ≤ text.length := by
  have hlength : wordLength p pos (pos + 1 + w.length) ≤ w.length + 1 := by
    unfold wordLength
    split_ifs <;> omega
  exact findWordLooks_within h0 hs (Nat.zero_le _) (fun _ ↦ hs) (fun j hj ↦
    h.close_last hlength hj) hsearch

/-- What the search finds out about the rest of the alternative. -/
theorem search_spec (h : WordOf p (pos + 1) w) (h0 : 0 ∉ text) (hs : s ≤ text.length)
    (hsearch : findWordLooks (inMemory text garbage) p (pos + 1)
      (wordLength p pos (pos + 1 + w.length)) (pos + 1 + w.length) fuel s 0 = some (search, looks))
    (hbar : ¬ MeetsBar text looks)
    (hcur : (charAt p (pos + 1 + w.length) = 42 ∧ ∃ g, cur = 42 :: g) ∨
      (charAt p (pos + 1 + w.length) ≠ 42 ∧ cur = [])) :
    SearchMeans text s (42 :: (w ++ cur)) cur search := by
  have hfits : ∀ look ∈ looks, wordCharMatches (charAt (inMemory text garbage) look.position)
    look.against = true ↔
      charFits (charAt (inMemory text garbage) look.position) look.against :=
    fun look hlook ↦ wordCharMatches_iff fun ⟨hmeets, hagainst⟩ ↦
      hbar ⟨look, hlook, charAt_of_bar (h.search_within h0 hs hsearch look hlook) hmeets, hagainst⟩
  obtain ⟨k, hk, hbefore, hfound⟩ :=
    findWordLooks_spec (fun position c ↦ charFits (charAt (inMemory text garbage) position) c)
      (Nat.zero_le _) hfits (fun j hj ↦ absurd hj (Nat.not_lt_zero j)) hsearch
  have hword := star_notMem_map h.star_notMem
  -- the places that were left are places of the text
  have hle : k ≤ text.length := by
    by_contra hbeyond
    exact (hbefore text.length hs (by omega)).1 charAt_inMemory_length
  have hitems : (42 :: (w ++ cur)).map globItem = star :: (w.map globItem ++ cur.map globItem) := by
    rw [List.map_cons, List.map_append]
    rfl
  rcases hcur with ⟨hstar, g, rfl⟩ | ⟨hclose, rfl⟩
  · rw [wordLength_eq hstar] at hbefore hfound
    have hfirst : ∀ before, s ≤ before → before < k → ¬ StandsAt (w.map globItem) text before :=
      fun before hle' hlt ↦
      mt (h.wordAt_iff h0 (by omega)).mpr (hbefore before hle' hlt).2
    rw [h.wordAt_iff h0 hle] at hfound
    rcases hfound with ⟨hstands, rfl⟩ | ⟨hzero, hnot, rfl⟩
    · rw [hstar, if_neg (by decide)]
      rw [SearchMeans, AlternativeMatches, AlternativeMatches, hitems]
      refine ⟨?_, ⟨g, rfl⟩, ?_⟩
      · have hend := StandsAt.le hword hle hstands
        rwa [List.length_map] at hend
      · have hgreedy := matches_star_word hword (g.map globItem) hk hle hstands hfirst
        rwa [List.length_map] at hgreedy
    · obtain rfl := (charAt_inMemory_eq_zero_iff h0 hle).mp hzero
      rw [SearchMeans, AlternativeMatches, hitems]
      refine not_matches_star_word hword _ hs fun place hplace hplace' ↦ ?_
      rcases Nat.eq_or_lt_of_le hplace' with rfl | hlt
      · exact hnot
      · exact hfirst place hplace hlt
  · have hclose' := h.close.resolve_left hclose
    rw [lastWordLength_eq hclose] at hbefore hfound
    rw [h.lastWordAt_iff garbage h0 hle hclose'] at hfound
    rcases hfound with ⟨⟨hstands, hend⟩, rfl⟩ | ⟨hzero, hnot, rfl⟩
    · rw [if_pos hclose', SearchMeans, AlternativeMatches, hitems, List.map_nil, List.append_nil]
      exact (matches_star_last hword hs).mpr ⟨k, hk, hstands, by rwa [List.length_map]⟩
    · obtain rfl := (charAt_inMemory_eq_zero_iff h0 hle).mp hzero
      rw [SearchMeans, AlternativeMatches, hitems, List.map_nil, List.append_nil]
      intro hmatch
      obtain ⟨place, hplace, hstands, hend⟩ := (matches_star_last hword hs).mp hmatch
      rw [List.length_map] at hend
      have hthere := (h.lastWordAt_iff garbage h0 (by omega) hclose').mpr ⟨hstands, hend⟩
      rcases Nat.lt_or_ge place text.length with hlt | hge
      · exact (hbefore place hplace hlt).2 hthere
      · obtain rfl : place = text.length := by omega
        exact hnot ⟨hstands, hend⟩

end WordOf

/-! ### The outer loop -/

/-- A question mark before the first star meets the end of the text. -/
def Overruns (alternative text : List UInt8) : Prop :=
  ∃ u v, alternative = u ++ 63 :: v ∧ 42 ∉ u ∧ AlternativeMatches u text

/-- An alternative that is reached, since none before it matches, overruns the text. -/
def RunsOver (text : List UInt8) : List (List UInt8) → Prop
  | [] => False
  | alternative :: rest => Overruns alternative text ∨
    (¬ AlternativeMatches alternative text ∧ RunsOver text rest)

/-- What a run does: it looks behind the end of the text if it overruns it, else it stays within and
its result is right. -/
structure Outcome (text : List UInt8) (overrun matched : Prop) (result : Bool) (looks : List Look) :
    Prop where
  beyond : overrun → ∃ look ∈ looks, text.length < look.position
  within : ¬ overrun → ∀ look ∈ looks, look.position ≤ text.length
  result : ¬ overrun → (result = true ↔ matched)

namespace Outcome

variable {overrun matched overrun' matched' : Prop} {result : Bool} {looks : List Look}

theorem congr (h : Outcome text overrun matched result looks) (hoverrun : overrun ↔ overrun')
    (hmatched : matched ↔ matched') :
    Outcome text overrun' matched' result looks := by
  rw [← propext hoverrun, ← propext hmatched]
  exact h

theorem append (h : Outcome text overrun matched result looks) {front : List Look}
    (hfront : ∀ look ∈ front, look.position ≤ text.length) :
    Outcome text overrun matched result (front ++ looks) where
  beyond hover := by
    obtain ⟨look, hlook, hout⟩ := h.beyond hover
    exact ⟨look, List.mem_append_right _ hlook, hout⟩
  within hstays look hlook := by
    rcases List.mem_append.mp hlook with hmem | hmem
    · exact hfront look hmem
    · exact h.within hstays look hmem
  result := h.result

end Outcome

theorem not_overruns_nil : ¬ Overruns [] text := by
  rintro ⟨u, v, heq, -⟩
  simp at heq

theorem not_overruns_star (g : List UInt8) : ¬ Overruns (42 :: g) text := by
  rintro ⟨u, v, heq, hu, -⟩
  cases u with
  | nil => simp at heq
  | cons c u =>
    obtain ⟨rfl, -⟩ := List.cons.inj heq
    exact hu List.mem_cons_self

theorem overruns_any_cons (g : List UInt8) (c : UInt8) (t : List UInt8) :
    Overruns (63 :: g) (c :: t) ↔ Overruns g t := by
  constructor
  · rintro ⟨u, v, heq, hu, hmatch⟩
    cases u with
    | nil => simp [AlternativeMatches] at hmatch
    | cons d u =>
      obtain ⟨rfl, rfl⟩ := List.cons.inj heq
      exact ⟨u, v, rfl, fun hmem ↦ hu (List.mem_cons_of_mem _ hmem),
        (matches_any_cons ..).mp hmatch⟩
  · rintro ⟨u, v, rfl, hu, hmatch⟩
    refine ⟨63 :: u, v, rfl, ?_, (matches_any_cons ..).mpr hmatch⟩
    simpa using hu

theorem overruns_any_nil (g : List UInt8) : Overruns (63 :: g) [] :=
  ⟨[], g, rfl, List.not_mem_nil, rfl⟩

section

variable {c : UInt8} (hstar : c ≠ 42) (hany : c ≠ 63)

include hstar hany

theorem globItem_of_ne : globItem c = lit c := by rw [globItem, if_neg hstar, if_neg hany]

theorem alternativeMatches_cons (g t : List UInt8) (d : UInt8) :
    AlternativeMatches (c :: g) (d :: t) ↔ d = c ∧ AlternativeMatches g t := by
  rw [AlternativeMatches, List.map_cons, globItem_of_ne hstar hany, matches_lit_cons]
  rfl

theorem not_alternativeMatches_nil (g : List UInt8) : ¬ AlternativeMatches (c :: g) [] := by
  rw [AlternativeMatches, List.map_cons, globItem_of_ne hstar hany]
  exact not_matches_lit_nil _ _

theorem overruns_cons (g t : List UInt8) (d : UInt8) :
    Overruns (c :: g) (d :: t) ↔ d = c ∧ Overruns g t := by
  constructor
  · rintro ⟨u, v, heq, hu, hmatch⟩
    cases u with
    | nil => exact absurd (List.cons.inj heq).1 hany
    | cons e u =>
      obtain ⟨rfl, rfl⟩ := List.cons.inj heq
      obtain ⟨hd, hrest⟩ := (alternativeMatches_cons hstar hany _ _ _).mp hmatch
      exact ⟨hd, u, v, rfl, fun hmem ↦ hu (List.mem_cons_of_mem _ hmem), hrest⟩
  · rintro ⟨rfl, u, v, rfl, hu, hmatch⟩
    refine ⟨d :: u, v, rfl, ?_, (alternativeMatches_cons hstar hany _ _ _).mpr ⟨rfl, hmatch⟩⟩
    simpa [Ne.symm hstar] using hu

theorem not_overruns_cons_nil (g : List UInt8) : ¬ Overruns (c :: g) [] := by
  rintro ⟨u, v, heq, -, hmatch⟩
  cases u with
  | nil => exact hany (List.cons.inj heq).1
  | cons e u =>
    obtain ⟨rfl, -⟩ := List.cons.inj heq
    exact not_alternativeMatches_nil hstar hany _ hmatch

end

theorem not_meetsBar_left {front more : List Look} (h : ¬ MeetsBar text (front ++ more)) :
    ¬ MeetsBar text front :=
  fun ⟨look, hlook, hmeets⟩ ↦ h ⟨look, List.mem_append_left _ hlook, hmeets⟩

theorem not_meetsBar_right {front more : List Look} (h : ¬ MeetsBar text (front ++ more)) :
    ¬ MeetsBar text more :=
  fun ⟨look, hlook, hmeets⟩ ↦ h ⟨look, List.mem_append_right _ hlook, hmeets⟩

theorem findWordLooks_first {word wordLen last fuel s : ℕ} (hword : wordLen ≠ 0)
    (h : findWordLooks memory p word wordLen last fuel s 0 = some (search, looks)) :
    ∃ look ∈ looks, look.position = s := by
  cases fuel with
  | zero => contradiction
  | succ fuel =>
    unfold findWordLooks at h
    rw [if_neg hword.symm] at h
    refine ⟨⟨s, charAt p (word + 0)⟩, ?_, rfl⟩
    split_ifs at h with hchar hzero
    · obtain ⟨more, -, rfl⟩ := after_eq_some h
      exact List.mem_append_left _ List.mem_cons_self
    · obtain ⟨-, rfl⟩ := Prod.mk.inj (Option.some.inj h)
      exact List.mem_cons_self
    · obtain ⟨more, -, rfl⟩ := after_eq_some h
      exact List.mem_append_left _ List.mem_cons_self

theorem findWordLooks_empty {word last fuel s : ℕ} (hstar : charAt p last = 42)
    (h : findWordLooks memory p word 0 last fuel s 0 = some (search, looks)) :
    search = .found s := by
  cases fuel with
  | zero => contradiction
  | succ fuel =>
    unfold findWordLooks at h
    rw [if_pos rfl, hstar, if_neg (by decide)] at h
    exact (Prod.mk.inj (Option.some.inj h)).1.symm

theorem looks_beyond (hp : PatternText p) (hs : text.length < s)
    (h : matchLooks memory p fuel s pos false = some (result, looks)) :
    ∃ look ∈ looks, text.length < look.position := by
  induction fuel generalizing s pos looks with
  | zero => contradiction
  | succ fuel ih =>
    by_cases hstar : charAt p pos = 42
    · rw [matchLooks_star hstar] at h
      generalize hlast : wordEnd p (p.length + 1) (pos + 1) = last at h
      cases hsearch : findWordLooks memory p (pos + 1) (wordLength p pos last) last
        (searchFuel memory p) s 0 with
      | none =>
        rw [hsearch] at h
        contradiction
      | some found =>
        obtain ⟨search, front⟩ := found
        rw [hsearch] at h
        by_cases hword : wordLength p pos last = 0
        · have hclose : charAt p last = 42 := by
            by_contra hne
            rw [wordLength, if_neg hne] at hword
            omega
          rw [hword] at hsearch
          obtain rfl := findWordLooks_empty hclose hsearch
          obtain ⟨more, hmore, rfl⟩ := after_eq_some h
          obtain ⟨look, hlook, hout⟩ := ih hs hmore
          exact ⟨look, List.mem_append_right _ hlook, hout⟩
        · obtain ⟨look, hlook, hplace⟩ := findWordLooks_first hword hsearch
          refine ⟨look, ?_, hplace ▸ hs⟩
          cases search with
          | accepted =>
            obtain ⟨-, rfl⟩ := Prod.mk.inj (Option.some.inj h)
            exact hlook
          | found k =>
            obtain ⟨more, -, rfl⟩ := after_eq_some h
            exact List.mem_append_left _ hlook
          | missing =>
            obtain ⟨more, -, rfl⟩ := after_eq_some h
            exact List.mem_append_left _ hlook
    by_cases hany : charAt p pos = 63
    · rw [matchLooks_any hany] at h
      exact ih (Nat.lt_succ_of_lt hs) h
    rw [matchLooks_plain (hp.charAt_ne pos) hstar hany] at h
    refine ⟨⟨s, charAt p pos⟩, ?_, hs⟩
    split_ifs at h with hend hne
    · obtain ⟨-, rfl⟩ := Prod.mk.inj (Option.some.inj h)
      exact List.mem_cons_self
    · obtain ⟨more, -, rfl⟩ := after_eq_some h
      exact List.mem_append_left _ List.mem_cons_self
    · obtain ⟨more, -, rfl⟩ := after_eq_some h
      exact List.mem_append_left _ List.mem_cons_self

theorem alternative_eq_nil (hp : 0 ∉ p) {pos : ℕ} (hclose : charAt p pos = 0 ∨ charAt p pos = 124)
    (hsplit : (p.drop pos).splitOn 124 = cur :: rest) : cur = [] := by
  rcases hclose with hzero | hbar
  · rw [drop_eq_nil_of_charAt hp hzero, List.splitOn_nil] at hsplit
    exact (List.cons.inj hsplit).1.symm
  · rw [drop_eq_charAt_cons
      (lt_length_of_charAt (by rw [hbar]; decide)), hbar, List.splitOn_cons_eq_if_modifyHead,
      if_pos (beq_self_eq_true _)] at hsplit
    exact (List.cons.inj hsplit).1.symm

/-- Behind a word stands a star or nothing. -/
theorem behind_word (hp : 0 ∉ p) {place : ℕ} (hclose : charAt p place = 42 ∨ charAt p place = 0 ∨
    charAt p place = 124) (hsplit : (p.drop place).splitOn 124 = cur :: rest) :
    (charAt p place = 42 ∧ ∃ g, cur = 42 :: g) ∨ (charAt p place ≠ 42 ∧ cur = []) := by
  by_cases hagain : charAt p place = 42
  · rw [drop_eq_charAt_cons (lt_length_of_charAt (by rw [hagain]; decide)), hagain] at hsplit
    obtain ⟨g, -, rfl⟩ := splitOn_append (w := [42]) (by decide) hsplit
    exact Or.inl ⟨hagain, g, rfl⟩
  · exact Or.inr ⟨hagain, alternative_eq_nil hp (hclose.resolve_left hagain) hsplit⟩

/-- A plain character that the text does not have refutes the alternative, and nothing is stepped
over. -/
theorem fails_of_ne (h0 : 0 ∉ text) (hp : PatternText p) (hs : s ≤ text.length)
    (hsplit : (p.drop pos).splitOn 124 = cur :: rest) (hstar : charAt p pos ≠ 42)
    (hany : charAt p pos ≠ 63) (hend : ¬ (charAt (inMemory text garbage) s = 0 ∧
      (charAt p pos = 0 ∨ charAt p pos = 124)))
    (hne : charAt p pos ≠ charAt (inMemory text garbage) s) :
    ¬ Overruns cur (text.drop s) ∧ ¬ AlternativeMatches cur (text.drop s) := by
  by_cases hclose : charAt p pos = 0 ∨ charAt p pos = 124
  · obtain rfl := alternative_eq_nil hp.zero_notMem hclose hsplit
    refine ⟨not_overruns_nil, fun hmatch ↦ hend ⟨?_, hclose⟩⟩
    have hall : text.length ≤ s := List.drop_eq_nil_iff.mp hmatch
    exact (charAt_inMemory_eq_zero_iff h0 hs).mpr (Nat.le_antisymm hs hall)
  · obtain ⟨hzero, hbarChar⟩ := not_or.mp hclose
    have hlt := lt_length_of_charAt hzero
    rw [drop_eq_charAt_cons hlt] at hsplit
    obtain ⟨behind, -, rfl⟩ :=
      splitOn_append (w := [charAt p pos]) (by simpa using Ne.symm hbarChar) hsplit
    rcases Nat.eq_or_lt_of_le hs with rfl | hinside
    · rw [List.drop_length]
      exact ⟨not_overruns_cons_nil hstar hany behind,
        not_alternativeMatches_nil hstar hany behind⟩
    · rw [charAt_inMemory hinside] at hne
      rw [drop_eq_charAt_cons hinside]
      exact ⟨fun hover ↦ hne ((overruns_cons hstar hany _ _ _).mp hover).1.symm,
        fun hmatch ↦ hne ((alternativeMatches_cons hstar hany _ _ _).mp hmatch).1.symm⟩

/-- The run from a place in the text and one in the pattern, by what is left of the current
alternative there and by the alternatives behind it. -/
theorem matchLooks_spec (h0 : 0 ∉ text) (hp : PatternText p)
    (hs : s ≤ text.length) (hpos : pos ≤ p.length)
    (hsplit : (p.drop pos).splitOn 124 = cur :: rest) (hbar : ¬ MeetsBar text looks)
    (h : matchLooks (inMemory text garbage) p fuel s pos false = some (result, looks)) :
    Outcome text
      (Overruns cur (text.drop s) ∨ (¬ AlternativeMatches cur (text.drop s) ∧ RunsOver text rest))
      (AlternativeMatches cur (text.drop s) ∨ ∃ alternative ∈ rest,
      AlternativeMatches alternative text) result looks := by
  induction fuel generalizing s pos cur rest looks with
  | zero => contradiction
  | succ fuel ih =>
    have hfirst : ∀ k ≤ text.length, ∀ look ∈ [(⟨k, charAt p pos⟩ : Look)],
      look.position ≤ text.length := by
      intro k hk look hlook
      obtain rfl := List.mem_singleton.mp hlook
      exact hk
    -- the alternatives that are left, once the current one has failed
    have hnext : ∀ {place : ℕ} {behind : List UInt8} {front more : List Look}, place ≤ p.length →
        (p.drop place).splitOn 124 = behind :: rest → ¬ Overruns cur (text.drop s) →
        ¬ AlternativeMatches cur (text.drop s) → (∀ look ∈ front, look.position ≤ text.length) →
          looks = front ++ more →
        nextRun (inMemory text garbage) p fuel place = some (result, more) →
        Outcome text (Overruns cur (text.drop s) ∨
          (¬ AlternativeMatches cur (text.drop s) ∧ RunsOver text rest))
          (AlternativeMatches cur (text.drop s) ∨ ∃ alternative ∈ rest,
            AlternativeMatches alternative text) result looks := by
      intro place behind front more hplace hbehind hstays hfails hfront hlooks hrun
      subst hlooks
      refine Outcome.append ?_ hfront
      have hover : RunsOver text rest ↔
          Overruns cur (text.drop s) ∨
            (¬ AlternativeMatches cur (text.drop s) ∧ RunsOver text rest) := by
        rw [or_iff_right hstays, and_iff_right hfails]
      have hmatched : (∃ alternative ∈ rest, AlternativeMatches alternative text) ↔
          AlternativeMatches cur (text.drop s) ∨ ∃ alternative ∈ rest,
            AlternativeMatches alternative text :=
        (or_iff_right hfails).symm
      unfold nextRun at hrun
      have hroom : p.length < place + (p.length + 1) := by omega
      rcases nextPattern_spec hp.zero_notMem hroom hbehind with ⟨hnone, rfl⟩ | ⟨next, hsome,
        -, hle, hrest⟩
      · rw [hnone] at hrun
        obtain ⟨rfl, rfl⟩ := Prod.mk.inj (Option.some.inj hrun)
        refine Outcome.congr ⟨False.elim, fun _ look hlook ↦ absurd hlook List.not_mem_nil, fun _ ↦
          ?_⟩ hover hmatched
        simp
      · rw [hsome] at hrun
        cases rest with
        | nil => exact absurd hrest (List.splitOn_ne_nil _ _)
        | cons first rest =>
          refine (ih (Nat.zero_le _) hle hrest (not_meetsBar_right hbar) hrun).congr ?_ ?_
          · exact hover
          · exact (List.exists_mem_cons_iff ..).symm.trans hmatched
    by_cases hstar : charAt p pos = 42
    · have hlt : pos < p.length := lt_length_of_charAt (by rw [hstar]; decide)
      rw [drop_eq_charAt_cons hlt, hstar] at hsplit
      obtain ⟨tail, htail, rfl⟩ := splitOn_append (w := [42]) (by decide) hsplit
      have hroom : p.length < pos + 1 + (p.length + 1) := by omega
      obtain ⟨w, hlast, hdrop, hle, hplain, hclose⟩ := wordEnd_spec (Nat.succ_le_of_lt hlt) hroom
      have hword : WordOf p (pos + 1) w := ⟨hdrop, hplain, hclose⟩
      rw [hdrop] at htail
      obtain ⟨behind, hbehind, rfl⟩ := splitOn_append (fun hmem ↦ (hplain 124 hmem).2.2 rfl) htail
      have hcur := behind_word hp.zero_notMem hclose hbehind
      rw [matchLooks_star hstar, hlast] at h
      cases hsearch :
        findWordLooks (inMemory text garbage) p (pos + 1) (wordLength p pos (pos + 1 + w.length))
          (pos + 1 + w.length) (searchFuel (inMemory text garbage) p) s 0 with
      | none =>
        rw [hsearch] at h
        contradiction
      | some found =>
        obtain ⟨search, front⟩ := found
        rw [hsearch] at h
        have hwithin := hword.search_within h0 hs hsearch
        have hstays : ¬ Overruns (42 :: (w ++ behind)) (text.drop s) := not_overruns_star _
        cases search with
        | accepted =>
          obtain ⟨rfl, rfl⟩ := Prod.mk.inj (Option.some.inj h)
          have hmatch : AlternativeMatches (42 :: (w ++ behind)) (text.drop s) :=
            hword.search_spec h0 hs hsearch hbar hcur
          have hnever : ¬ (Overruns (42 :: (w ++ behind)) (text.drop s) ∨
              (¬ AlternativeMatches (42 :: (w ++ behind)) (text.drop s) ∧ RunsOver text rest)) := by
            rintro (hover | ⟨hfails, -⟩)
            · exact hstays hover
            · exact hfails hmatch
          exact ⟨fun hover ↦ absurd hover hnever, fun _ ↦ hwithin, fun _ ↦
            iff_of_true rfl (Or.inl hmatch)⟩
        | missing =>
          obtain ⟨more, hmore, rfl⟩ := after_eq_some h
          have hfails : ¬ AlternativeMatches (42 :: (w ++ behind)) (text.drop s) :=
            hword.search_spec h0 hs hsearch (not_meetsBar_left hbar) hcur
          exact hnext hle hbehind hstays hfails hwithin rfl hmore
        | found k =>
          obtain ⟨more, hmore, rfl⟩ := after_eq_some h
          obtain ⟨hk, ⟨g, rfl⟩, hmatch⟩ :=
            hword.search_spec h0 hs hsearch (not_meetsBar_left hbar) hcur
          have hstays' : ¬ Overruns (42 :: g) (text.drop k) := not_overruns_star _
          refine ((ih hk hle hbehind (not_meetsBar_right hbar) hmore).congr ?_
            (or_congr_left hmatch.symm)).append hwithin
          rw [or_iff_right hstays', ← hmatch]
          exact (or_iff_right hstays).symm
    by_cases hany : charAt p pos = 63
    · have hlt : pos < p.length := lt_length_of_charAt (by rw [hany]; decide)
      rw [drop_eq_charAt_cons hlt, hany] at hsplit
      obtain ⟨behind, hbehind, rfl⟩ := splitOn_append (w := [63]) (by decide) hsplit
      rw [matchLooks_any hany] at h
      rcases Nat.eq_or_lt_of_le hs with rfl | hinside
      · -- the question mark steps over the end
        rw [List.drop_length]
        have hover : Overruns (63 :: behind) [] := overruns_any_nil behind
        exact ⟨fun _ ↦ looks_beyond hp (Nat.lt_succ_self _) h, fun hstays ↦
          absurd (Or.inl hover) hstays, fun hstays ↦ absurd (Or.inl hover) hstays⟩
      · rw [drop_eq_charAt_cons hinside]
        have hmatch : AlternativeMatches behind (text.drop (s + 1)) ↔
            AlternativeMatches ([63] ++ behind) (charAt text s :: text.drop (s + 1)) :=
              (matches_any_cons ..).symm
        have hover := overruns_any_cons behind (charAt text s) (text.drop (s + 1))
        refine (ih hinside hlt hbehind hbar h).congr ?_ ?_
        · rw [← hmatch]
          exact or_congr_left hover.symm
        · rw [← hmatch]
    rw [matchLooks_plain (hp.charAt_ne pos) hstar hany] at h
    by_cases hend : charAt (inMemory text garbage) s = 0 ∧ (charAt p pos = 0 ∨ charAt p pos = 124)
    · rw [if_pos hend] at h
      obtain ⟨rfl, rfl⟩ := Prod.mk.inj (Option.some.inj h)
      obtain rfl := (charAt_inMemory_eq_zero_iff h0 hs).mp hend.1
      obtain rfl := alternative_eq_nil hp.zero_notMem hend.2 hsplit
      have hmatch : AlternativeMatches [] (text.drop text.length) := by
        rw [List.drop_length]
        rfl
      have hnever : ¬ (Overruns [] (text.drop text.length) ∨
          (¬ AlternativeMatches [] (text.drop text.length) ∧ RunsOver text rest)) := by
        rintro (hover | ⟨hfails, -⟩)
        · exact not_overruns_nil hover
        · exact hfails hmatch
      exact ⟨fun hover ↦ absurd hover hnever, fun _ ↦ hfirst _ hs, fun _ ↦
        iff_of_true rfl (Or.inl hmatch)⟩
    rw [if_neg hend] at h
    by_cases hne : charAt p pos ≠ charAt (inMemory text garbage) s
    · rw [if_pos hne] at h
      obtain ⟨more, hmore, hlooks⟩ := after_eq_some h
      obtain ⟨hstays, hfails⟩ := fails_of_ne h0 hp hs hsplit hstar hany hend hne
      exact hnext hpos hsplit hstays hfails (hfirst s hs) hlooks hmore
    · have heq : charAt p pos = charAt (inMemory text garbage) s := not_not.mp hne
      rw [if_neg hne] at h
      obtain ⟨more, hmore, rfl⟩ := after_eq_some h
      have hzero : charAt p pos ≠ 0 := fun hzero ↦ hend ⟨heq ▸ hzero, Or.inl hzero⟩
      have hbarChar : charAt p pos ≠ 124 := fun hmeets ↦
        hbar ⟨⟨s, charAt p pos⟩, List.mem_append_left _ List.mem_cons_self,
          charAt_of_bar hs (heq ▸ hmeets), Or.inl hmeets⟩
      have hlt := lt_length_of_charAt hzero
      have hinside : s < text.length := by
        refine Nat.lt_of_le_of_ne hs fun hfull ↦ hzero ?_
        rw [heq, hfull, charAt_inMemory_length]
      rw [charAt_inMemory hinside] at heq
      rw [drop_eq_charAt_cons hlt] at hsplit
      obtain ⟨behind, hbehind, rfl⟩ :=
        splitOn_append (w := [charAt p pos]) (by simpa using Ne.symm hbarChar) hsplit
      have hmatch := alternativeMatches_cons hstar hany behind (text.drop (s + 1)) (charAt text s)
      have hover := overruns_cons hstar hany behind (text.drop (s + 1)) (charAt text s)
      rw [and_iff_right heq.symm] at hmatch hover
      rw [drop_eq_charAt_cons hinside]
      refine ((ih hinside hlt hbehind (not_meetsBar_right hbar) hmore).congr ?_
        (or_congr_left hmatch.symm)).append (hfirst s hs)
      exact or_congr hover.symm (and_congr_left' (not_congr hmatch.symm))

/-! ### The result -/

/-- The run ends, stays within the text and its zero, and accepts the text if an alternative of the
pattern matches all of it. -/
def MatchCorrect (text garbage p : List UInt8) : Prop :=
  ∃ result looks, matchRun (inMemory text garbage) p = some (result, looks) ∧
    (∀ look ∈ looks, look.position ≤ text.length) ∧
    (result = true ↔ ∃ alternative ∈ p.splitOn 124, AlternativeMatches alternative text)

theorem MatchCorrect.matches? (h : MatchCorrect text garbage p) :
    Rinetd.matches? (inMemory text garbage) p = true ↔
      ∃ alternative ∈ p.splitOn 124, AlternativeMatches alternative text := by
  obtain ⟨result, looks, hrun, -, hresult⟩ := h
  rw [matches?_eq hrun]
  exact hresult

/-- The run meets a bar of the text where it expects a bar of the pattern or has a question mark
behind a star. -/
def RunMeetsBar (text garbage p : List UInt8) : Prop :=
  ∃ result looks, matchRun (inMemory text garbage) p = some (result, looks) ∧ MeetsBar text looks

theorem matchCorrect_iff (h0 : 0 ∉ text) (hp : PatternText p)
    (hbar : ¬ RunMeetsBar text garbage p) :
    MatchCorrect text garbage p ↔ ¬ RunsOver text (p.splitOn 124) := by
  have hends : (matchRun (inMemory text garbage) p).isSome := matchRun_isSome hp
  obtain ⟨⟨result, looks⟩, hrun⟩ := Option.isSome_iff_exists.mp hends
  cases hsplit : p.splitOn 124 with
  | nil => exact absurd hsplit (List.splitOn_ne_nil _ _)
  | cons cur rest =>
    have houtcome := matchLooks_spec h0 hp (Nat.zero_le _) (Nat.zero_le _) (by rwa [List.drop_zero])
      (fun hmeets ↦ hbar ⟨result, looks, hrun, hmeets⟩) hrun
    rw [List.drop_zero] at houtcome
    constructor
    · rintro ⟨result', looks', hrun', hwithin, -⟩ hover
      obtain ⟨-, rfl⟩ := Prod.mk.inj (Option.some.inj (hrun.symm.trans hrun'))
      obtain ⟨look, hlook, hout⟩ := houtcome.beyond hover
      exact absurd (hwithin look hlook) (Nat.not_le_of_lt hout)
    · intro hstays
      refine ⟨result, looks, hrun, houtcome.within hstays, (houtcome.result hstays).trans ?_⟩
      rw [hsplit]
      simp

theorem not_runMeetsBar (hbar : 124 ∉ text) : ¬ RunMeetsBar text garbage p := by
  rintro ⟨result, looks, -, look, -, hmeets, -⟩
  have hlt : look.position < text.length := lt_length_of_charAt (by rw [hmeets]; decide)
  rw [charAt_of_lt hlt] at hmeets
  exact hbar (hmeets ▸ List.getElem_mem hlt)

def starAndAny (n : ℕ) : List UInt8 := 42 :: List.replicate n 63

theorem patternText_starAndAny (n : ℕ) : PatternText (starAndAny n) := by
  intro c hc
  rcases List.mem_cons.mp hc with rfl | hc
  · decide
  · obtain rfl := List.eq_of_mem_replicate hc
    decide

theorem splitOn_starAndAny (n : ℕ) : (starAndAny n).splitOn 124 = [starAndAny n] := by
  refine List.splitOn_eq_singleton fun hbar ↦ ?_
  rcases List.mem_cons.mp hbar with heq | hc
  · contradiction
  · have := List.eq_of_mem_replicate hc
    contradiction

theorem not_runsOver_starAndAny (n : ℕ) : ¬ RunsOver text ((starAndAny n).splitOn 124) := by
  rw [splitOn_starAndAny]
  rintro (hover | ⟨-, hnone⟩)
  · exact not_overruns_star _ hover
  · exact hnone

theorem matches_any (t : List UInt8) : Matches ((List.replicate t.length 63).map globItem) t := by
  induction t with
  | nil => rfl
  | cons c t ih => exact (matches_any_cons ..).mpr ih

theorem wordEnd_starAndAny (n : ℕ) :
    wordEnd (starAndAny n) ((starAndAny n).length + 1) 1 = n + 1 := by
  have hlength : (starAndAny n).length = n + 1 := by
    rw [starAndAny, List.length_cons, List.length_replicate]
  have hroom : (starAndAny n).length < 1 + ((starAndAny n).length + 1) := by omega
  obtain ⟨w, hlast, -, hle, -, hclose⟩ := wordEnd_spec (by omega) hroom
  rw [hlast]
  by_contra hne
  have hlt : w.length < n := by omega
  have hany : charAt (starAndAny n) (1 + w.length) = 63 := by
    rw [Nat.add_comm, charAt_of_lt (by omega)]
    simp [starAndAny]
  rw [hany] at hclose
  revert hclose
  decide

theorem wordCharMatches_any {c : UInt8} (h : wordCharMatches c 63 = true) : c ≠ 0 ∧ c ≠ 124 := by
  rw [wordCharMatches, decide_eq_true_iff] at h
  rcases h with rfl | ⟨-, hbar⟩ | ⟨hzero, hbar, -⟩
  · decide
  · contradiction
  · exact ⟨hzero, hbar⟩

theorem wordCharMatches_end {c : UInt8} (h : wordCharMatches c 0 = true) : c = 0 := by
  rw [wordCharMatches, decide_eq_true_iff] at h
  rcases h with rfl | ⟨-, hbar⟩ | ⟨-, -, hany⟩
  · rfl
  · contradiction
  · contradiction

/-- With a bar in the text, the characters from the last bar on are not matched by a star and as
many question marks. -/
theorem matchRun_starAndAny (h0 : 0 ∉ text) {front behind : List UInt8}
    (htext : text = front ++ 124 :: behind)
    (hrun : matchRun (inMemory text garbage) (starAndAny (behind.length + 1)) =
      some (result, looks)) : result = false := by
  generalize hn : behind.length + 1 = n at hrun
  have hsize : text.length = front.length + n := by
    rw [htext, List.length_append, List.length_cons]
    omega
  have hlength : (starAndAny n).length = n + 1 := by
    rw [starAndAny, List.length_cons, List.length_replicate]
  have hclose : charAt (starAndAny n) (n + 1) = 0 := charAt_of_le (by omega)
  have hany : ∀ j < n, charAt (starAndAny n) (0 + 1 + j) = 63 := by
    intro j hj
    rw [charAt_of_lt (by omega)]
    simp [starAndAny, Nat.add_comm]
  have hword : wordLength (starAndAny n) 0 (n + 1) = n + 1 := by
    rw [wordLength, hclose, if_neg (by decide)]
    omega
  rw [matchRun, matchLooks_star rfl, Nat.zero_add, wordEnd_starAndAny, hword] at hrun
  cases hsearch : findWordLooks (inMemory text garbage) (starAndAny n) 1 (n + 1) (n + 1)
      (searchFuel (inMemory text garbage) (starAndAny n)) 0 0 with
  | none =>
    rw [hsearch] at hrun
    contradiction
  | some found =>
    obtain ⟨search, seen⟩ := found
    rw [hsearch] at hrun
    obtain ⟨k, -, hbefore, hfound⟩ := findWordLooks_spec
      (fun position c ↦ wordCharMatches (charAt (inMemory text garbage) position) c = true)
        (Nat.zero_le _)
      (fun _ _ ↦ Iff.rfl) (fun j hj ↦ absurd hj (Nat.not_lt_zero j)) hsearch
    rcases hfound with ⟨hthere, -⟩ | ⟨-, -, rfl⟩
    · -- the question marks would have to take the bar
      exfalso
      have hle : k ≤ text.length := by
        by_contra hbeyond
        exact (hbefore text.length (Nat.zero_le _) (by omega)).1 charAt_inMemory_length
      have hchars : ∀ j < n, charAt (inMemory text garbage) (k + j) ≠ 0 ∧
        charAt (inMemory text garbage) (k + j) ≠ 124 := by
        intro j hj
        have hfits := hthere j (by omega)
        rw [← Nat.zero_add 1, hany j hj] at hfits
        exact wordCharMatches_any hfits
      have hzero : charAt (inMemory text garbage) (k + n) = 0 := by
        have hfits := hthere n (Nat.lt_succ_self n)
        rw [Nat.add_comm 1, hclose] at hfits
        exact wordCharMatches_end hfits
      have hinside : k + n ≤ text.length := by
        by_contra hbeyond
        refine (hchars (text.length - k) (by omega)).1 ?_
        rw [Nat.add_sub_cancel' hle]
        exact charAt_inMemory_length
      have hend := (charAt_inMemory_eq_zero_iff h0 hinside).mp hzero
      obtain rfl : k = front.length := by omega
      refine (hchars 0 (by omega)).2 ?_
      rw [Nat.add_zero, charAt_inMemory (by omega), charAt_of_lt (by omega)]
      simp [htext]
    · obtain ⟨more, hmore, -⟩ := after_eq_some hrun
      rw [nextRun, nextPattern, if_pos hclose] at hmore
      exact (Prod.mk.inj (Option.some.inj hmore)).1.symm

/-- For every text, and whatever lies behind it in memory: a run on a pattern that meets no bar of
the text ends, stays within the text and accepts exactly what an alternative of the pattern matches,
if and only if no alternative that is reached has a question mark before its first star that meets
the end of the text. This holds for all patterns that do not run over the text if and only if the
text has no bar. -/
theorem match_correct_iff (text garbage : List UInt8) (h0 : 0 ∉ text) :
    (∀ p, PatternText p → ¬ RunMeetsBar text garbage p →
      (MatchCorrect text garbage p ↔ ¬ RunsOver text (p.splitOn 124))) ∧
    ((∀ p, PatternText p → ¬ RunsOver text (p.splitOn 124) → MatchCorrect text garbage p) ↔
      124 ∉ text) := by
  refine ⟨fun p hp hbar ↦ matchCorrect_iff h0 hp hbar, ?_⟩
  constructor
  · intro hall hbar
    obtain ⟨front, behind, htext⟩ := List.append_of_mem hbar
    obtain ⟨result, looks, hrun, -, hresult⟩ :=
      hall (starAndAny (behind.length + 1)) (patternText_starAndAny _) (not_runsOver_starAndAny _)
    have hmatch : AlternativeMatches (starAndAny (behind.length + 1)) text :=
      ⟨front, 124 :: behind, htext, matches_any (124 :: behind)⟩
    have haccepted :=
      hresult.mpr ⟨_, by rw [splitOn_starAndAny]; exact List.mem_singleton_self _, hmatch⟩
    rw [matchRun_starAndAny h0 htext hrun] at haccepted
    contradiction
  · exact fun hbar p hp hstays ↦ (matchCorrect_iff h0 hp (not_runMeetsBar hbar)).mpr hstays

/-- The text `1.2` against `1.*`, and against every pattern that does not run over it. -/
theorem match_correct_dotted :
    MatchCorrect [49, 46, 50] [7] [49, 46, 42] ∧
      ∀ p, PatternText p → ¬ RunsOver [49, 46, 50] (p.splitOn 124) → MatchCorrect
      [49, 46, 50] [7] p := by
  have hall := (match_correct_iff [49, 46, 50] [7] (by decide)).2.mpr (by decide)
  refine ⟨hall _ (by simp [PatternText]) ?_, hall⟩
  rw [show ([49, 46, 42] : List UInt8).splitOn 124 = [[49, 46, 42]] from
    List.splitOn_eq_singleton (by decide)]
  rintro (⟨u, v, heq, -⟩ | ⟨-, hnone⟩)
  · have hmem : (63 : UInt8) ∈ ([49, 46, 42] : List UInt8) :=
      heq ▸ List.mem_append_right u List.mem_cons_self
    revert hmem
    decide
  · exact hnone

/-- The text `1` runs through the pattern `1?`, with a zero behind its end, and is accepted. -/
theorem match_overrun :
    matchRun (inMemory [49] [0]) [49, 63] = some (true, [⟨0, 49⟩, ⟨2, 0⟩]) ∧ ¬ MatchCorrect [49] [0]
      [49, 63] := by
  have hrun : matchRun (inMemory [49] [0]) [49, 63] = some (true, [⟨0, 49⟩, ⟨2, 0⟩]) := by decide
  refine ⟨hrun, ?_⟩
  rintro ⟨result, looks, hrun', hwithin, -⟩
  obtain ⟨-, rfl⟩ := Prod.mk.inj (Option.some.inj (hrun.symm.trans hrun'))
  exact absurd (hwithin ⟨2, 0⟩ (by decide)) (by decide)

end

end CrossBreeder.Rinetd
