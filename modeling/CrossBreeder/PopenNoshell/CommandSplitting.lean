import CrossBreeder.Foundation.CString
import CrossBreeder.Foundation.SeparatedText
import CrossBreeder.PopenNoshell.QuotedWords
import Mathlib.Data.List.Forall2

/-!
# Splitting a command

`popen_noshell_split_command_to_argv` copies a command without its quotes and ends each argument
where a blank stood. An argument counts if it has a character, so that an empty word in quotes is
left out (`splitsRight_iff`); all else is as a shell would have it.
-/

namespace CrossBreeder.PopenNoshell

open Foundation (cstr cstr_append_zero cstr_of_zero_notMem terminated partOffsets)

/-! ### The code -/

/-- Why there is no list: `NULL` is returned, or a byte is written outside of the copy. -/
inductive Stop
  | null
  | outside
  deriving DecidableEq, Repr

/-- The copy and the variables of the loop. Pointers into the copy are offsets. The ints of the
source are numbers, which is right for a text shorter than `2 ^ 31`. -/
structure SplitState where
  command : List UInt8
  j : ℕ
  start : Option ℕ
  argv : List ℕ
  inSq : Bool
  inDq : Bool
  deriving Repr

def popenBashMetaCharacters : List UInt8 := [33, 92, 36, 96, 10, 124, 38, 59, 40, 41, 60, 62]

/-- `command[j++] = c`. -/
def store (s : SplitState) (c : UInt8) : Except Stop SplitState :=
  if s.j < s.command.length then .ok { s with command := s.command.set s.j c, j := s.j + 1 }
    else .error .outside

def popenNoshellAddToken (s : SplitState) : Except Stop SplitState :=
  match s.start with
  | none => .ok s
  | some start =>
    if 0 ≤ (s.j : ℤ) - 1 - start then (store s 0).map fun s ↦ { s with argv := s.argv ++ [start] }
      else .ok s

/-- The rest of a round, where `start` is set. -/
def splitChar (s : SplitState) (c : UInt8) : Except Stop SplitState :=
  if c ∈ popenBashMetaCharacters then .error .null
  else if c = 32 ∨ c = 9 then
    if s.inSq || s.inDq then store s c
    else (popenNoshellAddToken s).map fun s ↦ { s with start := none }
  else if c = 39 ∧ ¬ s.inDq then .ok { s with inSq := !s.inSq }
  else if c = 34 ∧ ¬ s.inSq then .ok { s with inDq := !s.inDq }
  else store s c

def splitRound (s : SplitState) (c : UInt8) : Except Stop SplitState :=
  splitChar { s with start := some (s.start.getD s.j) } c

/-- `popen_noshell_split_command_to_argv` where memory is there: the list with its `NULL`, and the
copy. -/
def popenNoshellSplitCommandToArgv (commandOriginal : List UInt8) :
    Except Stop (List (Option ℕ) × List UInt8) := do
  let s ← commandOriginal.foldlM splitRound
    { command := List.replicate (commandOriginal.length + 1) 0, j := 0, start := none, argv := [],
      inSq := false,
      inDq := false }
  if s.inSq || s.inDq then .error .null
  else
    let s ← popenNoshellAddToken s
    if s.argv = [] then .error .null else .ok (s.argv.map some ++ [none], s.command)

/-! ### What is asked for -/

def HasMeta (text : List UInt8) : Prop := ∃ c ∈ text, c ∈ popenBashMetaCharacters

instance (text : List UInt8) : Decidable (HasMeta text) :=
  inferInstanceAs (Decidable (∃ c ∈ text, _))

/-- There is a string at an offset, with its terminator. -/
def StringAt (command : List UInt8) (start : ℕ) (value : List UInt8) : Prop :=
  cstr (command.drop start) = value ∧ start + value.length < command.length

/-- The result is that of a shell: it is `NULL` for a special character, an open quote and no words,
and otherwise the words in order and a `NULL`, all with writes inside the copy. -/
structure SplitsRight (text : List UInt8) (result : Except Stop (List (Option ℕ) × List UInt8)) :
    Prop where
  inside : result ≠ .error .outside
  null_iff : result = .error .null ↔ HasMeta text ∨ Unmatched text ∨ Spells text []
  words : ∀ argv command, result = .ok (argv, command) →
    ∃ words starts, Spells text words ∧ argv = starts.map some ++ [none] ∧
      List.Forall₂ (StringAt command) starts (words.map wordValue)

/-! ### The copy and the reader -/

variable {text : List UInt8} {c : UInt8} {r : Reader} {room : ℕ}

def kept (words : List (List UInt8)) : List (List UInt8) := words.filter (· ≠ [])

@[simp] theorem kept_append (words more : List (List UInt8)) :
    kept (words ++ more) = kept words ++ kept more :=
  List.filter_append _ _

/-- What the loop has for a reader, with room for so many bytes. -/
def stateOf (r : Reader) (room : ℕ) : SplitState where
  command := terminated 0 (kept r.words) ++ r.word.getD [] ++ List.replicate room 0
  j := (terminated 0 (kept r.words) ++ r.word.getD []).length
  start := r.word.map fun _ ↦ (terminated 0 (kept r.words)).length
  argv := partOffsets (kept r.words) 0
  inSq := r.quote = some .single
  inDq := r.quote = some .double

theorem openQuote_stateOf (r : Reader) (room : ℕ) :
    ((stateOf r room).inSq || (stateOf r room).inDq) = true ↔ r.quote ≠ none := by
  rcases r with ⟨_ | _ | _, word, words⟩ <;> simp [stateOf]

theorem stateOf_append_nil (r : Reader) (room : ℕ) :
    { stateOf r room with start := some ((stateOf r room).start.getD (stateOf r room).j) } =
      stateOf (r.append []) room := by
  rcases r with ⟨quote, _ | word, words⟩ <;> simp [stateOf, Reader.append]

theorem store_stateOf (r : Reader) (room : ℕ) (c : UInt8) (hword : r.word ≠ none) :
    store (stateOf r (room + 1)) c = .ok (stateOf (r.append [c]) room) := by
  obtain ⟨word, hword⟩ := Option.ne_none_iff_exists'.mp hword
  have hroom : (stateOf r (room + 1)).j < (stateOf r (room + 1)).command.length := by
    simp [stateOf]
  unfold store
  rw [if_pos hroom]
  simp [stateOf, Reader.append, hword, List.replicate_succ, Nat.add_assoc]

theorem addToken_stateOf (r : Reader) (room : ℕ) :
    ∃ s room', popenNoshellAddToken (stateOf r (room + 1)) = .ok s ∧ room ≤ room' ∧
      { s with start := none } = stateOf r.endWord room' := by
  rcases r with ⟨quote, _ | word, words⟩
  · exact ⟨_, room + 1, rfl, Nat.le_succ room, by simp [stateOf, Reader.endWord]⟩
  · by_cases hword : word = []
    · subst hword
      refine ⟨stateOf ⟨quote, some [], words⟩ (room + 1), room + 1, ?_, Nat.le_succ room, ?_⟩
      · have hempty : ¬ (0 : ℤ) ≤
          (terminated 0 (kept words) ++ []).length - 1 - (terminated 0 (kept words)).length := by
          rw [List.append_nil]
          omega
        exact if_neg hempty
      · have hkept : kept (words ++ [[]]) = kept words := by simp [kept]
        simp only [stateOf, Reader.endWord, Option.getD_some, Option.toList_some, Option.getD_none,
          hkept]
        rfl
    · have hlength := List.length_pos_iff.mpr hword
      have hlong : (0 : ℤ) ≤
          (terminated 0 (kept words) ++ word).length - 1 - (terminated 0 (kept words)).length := by
        rw [List.length_append]
        omega
      have hkept : kept (words ++ [word]) = kept words ++ [word] := by simp [kept, hword]
      have hstore := store_stateOf ⟨quote, some word, words⟩ room 0 (by simp)
      refine ⟨{ stateOf (Reader.append ⟨quote, some word, words⟩ [0]) room with
        argv := partOffsets (kept words) 0 ++ [(terminated 0 (kept words)).length] }, room, ?_,
          le_refl room, ?_⟩
      · refine (if_pos hlong).trans ?_
        rw [hstore]
        rfl
      · have hoffsets : partOffsets (kept words) 0 ++ [(terminated 0 (kept words)).length] =
            partOffsets (kept words ++ [word]) 0 := by
          rw [Foundation.partOffsets_append_singleton 0, Nat.zero_add]
        simp [stateOf, Reader.endWord, Reader.append, hkept, hoffsets]
        exact ⟨rfl, rfl⟩

theorem splitChar_stateOf (r : Reader) (room : ℕ) (hc : c ∉ popenBashMetaCharacters)
    (hword : r.word ≠ none) :
    ∃ room', room ≤ room' ∧ splitChar (stateOf r (room + 1)) c = .ok
      (stateOf (r.read c) room') := by
  have hstore := store_stateOf r room c hword
  unfold splitChar
  rw [if_neg hc]
  by_cases hblank : c = 32 ∨ c = 9
  · rw [if_pos hblank]
    cases hquote : r.quote with
    | none =>
      obtain ⟨s, room', htoken, hroom, hs⟩ := addToken_stateOf r room
      have hread : r.read c = r.endWord := by
        unfold Reader.read
        rw [hquote]
        exact if_pos hblank
      rw [if_neg (by simp [stateOf, hquote]), htoken, hread]
      exact ⟨room', hroom, congrArg Except.ok hs⟩
    | some q =>
      have hread : r.read c = r.append [c] := by
        unfold Reader.read
        rw [hquote]
        exact if_neg fun h : c = q.char ↦ not_blank_char q (h ▸ hblank)
      rw [if_pos (by cases q <;> simp [stateOf, hquote]), hstore, hread]
      exact ⟨room, le_refl room, rfl⟩
  · rw [if_neg hblank]
    obtain ⟨word, hword⟩ := Option.ne_none_iff_exists'.mp hword
    have hopen : r.append [] = r := by
      rcases r with ⟨quote, word', words⟩
      simp [Reader.append, show word' = some word from hword]
    unfold Reader.read
    rw [hopen]
    by_cases hsingle : c = 39
    · subst hsingle
      cases hquote : r.quote with
      | none => exact ⟨room + 1, Nat.le_succ room, by simp [stateOf, hquote, Blank, quoteOf]⟩
      | some q =>
        cases q with
        | single => exact ⟨room + 1, Nat.le_succ room, by simp [stateOf, hquote, Quote.char]⟩
        | double => exact ⟨room, le_refl room, by simpa [stateOf, hquote, Quote.char] using hstore⟩
    · by_cases hdouble : c = 34
      · subst hdouble
        cases hquote : r.quote with
        | none => exact ⟨room + 1, Nat.le_succ room, by simp [stateOf, hquote, Blank, quoteOf]⟩
        | some q =>
          cases q with
          | single =>
            exact ⟨room, le_refl room, by simpa [stateOf, hquote, Quote.char] using hstore⟩
          | double => exact ⟨room + 1, Nat.le_succ room, by simp [stateOf, hquote, Quote.char]⟩
      · have hplain : quoteOf c = none := (if_neg hsingle).trans (if_neg hdouble)
        refine ⟨room, le_refl room, ?_⟩
        rw [if_neg (fun h ↦ hsingle h.1), if_neg (fun h ↦ hdouble h.1), hstore]
        cases hquote : r.quote with
        | none =>
          rw [if_neg (show ¬ Blank c from hblank), if_pos hplain]
        | some q =>
          have hq : c ≠ q.char := by
            rintro rfl
            rw [quoteOf_char] at hplain
            exact nomatch hplain
          dsimp only
          rw [if_neg hq]

theorem stateOf_read_append_nil (r : Reader) (c : UInt8) (room : ℕ) :
    stateOf ((r.append []).read c) room = stateOf (r.read c) room := by
  rcases r with ⟨quote, _ | word, words⟩
  · have hended : ∀ room, stateOf (Reader.endWord ⟨none, some [], words⟩) room = stateOf ⟨none,
      none, words⟩ room := by
      intro room
      have hkept : kept (words ++ [[]]) = kept words := by simp [kept]
      simp only [stateOf, Reader.endWord, Option.toList_some, hkept]
      rfl
    cases quote with
    | none =>
      unfold Reader.read
      dsimp only [Reader.append]
      by_cases hblank : Blank c
      · rw [if_pos hblank, if_pos hblank]
        simpa [Reader.endWord] using hended room
      · rw [if_neg hblank, if_neg hblank]
        rfl
    | some q => rfl
  · rw [show Reader.append ⟨quote, some word, words⟩ [] = ⟨quote, some word, words⟩ by
      simp [Reader.append]]

theorem splitRound_stateOf (r : Reader) (room : ℕ) (hc : c ∉ popenBashMetaCharacters) :
    ∃ room', room ≤ room' ∧ splitRound (stateOf r (room + 1)) c = .ok
      (stateOf (r.read c) room') := by
  obtain ⟨room', hroom, hround⟩ := splitChar_stateOf (r.append []) room hc (by simp [Reader.append])
  refine ⟨room', hroom, ?_⟩
  rw [splitRound, stateOf_append_nil, hround, stateOf_read_append_nil]

/-! ### The whole command -/

theorem foldlM_splitRound (htext : ¬ HasMeta text) (r : Reader) (room : ℕ) :
    ∃ room', room ≤ room' ∧
      text.foldlM splitRound (stateOf r (text.length + room)) = .ok
      (stateOf (text.foldl Reader.read r) room') := by
  induction text generalizing r room with
  | nil => exact ⟨room, le_refl room, by rw [List.length_nil, Nat.zero_add]; rfl⟩
  | cons c text ih =>
    have hc : c ∉ popenBashMetaCharacters := fun h ↦ htext ⟨c, List.mem_cons_self, h⟩
    have hrest : ¬ HasMeta text := fun ⟨x, hx, hmeta⟩ ↦ htext ⟨x, List.mem_cons_of_mem c hx, hmeta⟩
    obtain ⟨room₁, hroom₁, hround⟩ := splitRound_stateOf r (text.length + room) hc
    obtain ⟨room', hroom', hloop⟩ := ih hrest (r.read c) (room₁ - text.length)
    rw [Nat.add_sub_cancel' (by omega)] at hloop
    refine ⟨room', by omega, ?_⟩
    rw [List.foldlM_cons, List.length_cons, Nat.add_right_comm, hround]
    exact hloop

theorem foldlM_of_hasMeta (htext : HasMeta text) (r : Reader) (room : ℕ) :
    text.foldlM splitRound (stateOf r (text.length + room)) = .error .null := by
  induction text generalizing r room with
  | nil => exact absurd htext (by simp [HasMeta])
  | cons c text ih =>
    rw [List.foldlM_cons, List.length_cons, Nat.add_right_comm]
    by_cases hc : c ∈ popenBashMetaCharacters
    · have hround : splitRound (stateOf r (text.length + room + 1)) c = .error .null := if_pos hc
      rw [hround]
      rfl
    · obtain ⟨room₁, hroom₁, hround⟩ := splitRound_stateOf r (text.length + room) hc
      have hrest : HasMeta text := by
        obtain ⟨x, hx, hmeta⟩ := htext
        rcases List.mem_cons.mp hx with rfl | hx
        · exact absurd hmeta hc
        · exact ⟨x, hx, hmeta⟩
      have hloop := ih hrest (r.read c) (room₁ - text.length)
      rw [Nat.add_sub_cancel' (by omega)] at hloop
      rw [hround]
      exact hloop

theorem stateOf_begin (text : List UInt8) :
    stateOf ⟨none, none, []⟩ (text.length + 1) =
      { command := List.replicate (text.length +
      1) 0, j := 0, start := none, argv := [], inSq := false,
        inDq := false } := rfl

theorem split_of_hasMeta (htext : HasMeta text) :
    popenNoshellSplitCommandToArgv text = .error .null := by
  unfold popenNoshellSplitCommandToArgv
  rw [← stateOf_begin, foldlM_of_hasMeta htext]
  rfl

theorem split_of_not_hasMeta (htext : ¬ HasMeta text) :
    ∃ room, popenNoshellSplitCommandToArgv text =
      if Unmatched text ∨ kept (wordsFrom ⟨none, none, []⟩ text) = [] then .error .null
      else .ok ((partOffsets (kept (wordsFrom ⟨none, none, []⟩ text)) 0).map some ++ [none],
        terminated 0 (kept (wordsFrom ⟨none, none, []⟩ text)) ++ List.replicate room 0) := by
  obtain ⟨room₁, hroom₁, hloop⟩ := foldlM_splitRound htext ⟨none, none, []⟩ 1
  obtain ⟨room₂, rfl⟩ := Nat.exists_eq_add_of_le' hroom₁
  obtain ⟨s, room, htoken, -, hs⟩ :=
    addToken_stateOf (text.foldl Reader.read ⟨none, none, []⟩) room₂
  have hquote : (text.foldl Reader.read ⟨none, none, []⟩).quote = text.foldl quoteAfter none :=
    quote_foldl_read _ _
  have hargv : s.argv = partOffsets (kept (wordsFrom ⟨none, none, []⟩ text)) 0 :=
    congrArg SplitState.argv hs
  have hcommand : s.command = terminated 0 (kept (wordsFrom ⟨none, none, []⟩ text)) ++
    List.replicate room 0 :=
    (congrArg SplitState.command hs).trans (by simp [stateOf, Reader.endWord, wordsFrom])
  refine ⟨room, ?_⟩
  unfold popenNoshellSplitCommandToArgv
  rw [← stateOf_begin, hloop]
  generalize hstate : stateOf (text.foldl Reader.read ⟨none, none, []⟩) (room₂ + 1) =
    state at htoken ⊢
  have hopen : (state.inSq || state.inDq) = true ↔ Unmatched text := by
    rw [← hstate, Unmatched, ← hquote]
    exact openQuote_stateOf _ _
  change (if (state.inSq || state.inDq) = true then _ else popenNoshellAddToken state >>= _) = _
  by_cases hunmatched : Unmatched text
  · rw [if_pos (hopen.mpr hunmatched), if_pos (.inl hunmatched)]
  rw [if_neg (mt hopen.mp hunmatched), htoken]
  change (if s.argv = [] then _ else _) = _
  rw [hargv, hcommand]
  by_cases hnil : kept (wordsFrom ⟨none, none, []⟩ text) = []
  · rw [if_pos (show Unmatched text ∨ _ from .inr hnil), hnil]
    rfl
  · rw [if_neg (show ¬(Unmatched text ∨ _) from not_or.mpr ⟨hunmatched, hnil⟩)]
    obtain ⟨word, words, hwords⟩ := List.exists_cons_of_ne_nil hnil
    rw [hwords]
    rfl

/-! ### Exactly when -/

theorem mem_of_mem_wordValue {words : List (List Part)} (hspells : Spells text words) :
    ∀ word ∈ words, ∀ c ∈ wordValue word, c ∈ text := by
  induction hspells with
  | nil => exact fun _ h ↦ nomatch h
  | blank hblank hrest ih => exact fun word hword c hc ↦ List.mem_cons_of_mem _ (ih word hword c hc)
  | @word first rest words hfirst hend hrest ih =>
    intro word hword c hc
    rw [List.mem_append]
    rcases List.mem_cons.mp hword with rfl | hword
    · obtain ⟨part, hpart, hc⟩ := List.mem_flatMap.mp hc
      refine .inl (List.mem_flatMap.mpr ⟨part, hpart, ?_⟩)
      cases part with
      | plain x hblank hquote => exact hc
      | quoted q inner hclosed => exact List.mem_cons_of_mem _ (List.mem_append_left _ hc)
    · exact .inr (ih word hword c hc)

theorem stringAt_partOffsets {words : List (List UInt8)} (room : ℕ)
    (hwords : ∀ word ∈ words, (0 : UInt8) ∉ word) :
    List.Forall₂ (StringAt (terminated 0 words ++ List.replicate room 0))
      (partOffsets words 0) words := by
  have hplaces : List.Forall₂
      (fun start word ↦ ∃ rest, (terminated 0 words ++ List.replicate room 0).drop start = word ++
        0 :: rest)
      (partOffsets words 0) words :=
        Foundation.forall₂_partOffsets 0 [] words (List.replicate room 0)
  obtain ⟨hlength, hget⟩ := List.forall₂_iff_get.mp hplaces
  refine List.forall₂_iff_get.mpr ⟨hlength, fun i hi hi' ↦ ?_⟩
  obtain ⟨rest, hrest⟩ := hget i hi hi'
  constructor
  · rw [hrest, cstr_append_zero, cstr_of_zero_notMem (hwords _ (List.get_mem _ _))]
  · have hsize := congrArg List.length hrest
    rw [List.length_drop, @List.length_append _ (words.get ⟨i, hi'⟩), List.length_cons] at hsize
    omega

variable {words : List (List Part)}

theorem split_of_spells (hmeta : ¬ HasMeta text) (hspells : Spells text words) :
    ∃ room, popenNoshellSplitCommandToArgv text =
      if kept (words.map wordValue) = [] then .error .null
      else .ok ((partOffsets (kept (words.map wordValue)) 0).map some ++ [none],
        terminated 0 (kept (words.map wordValue)) ++ List.replicate room 0) := by
  obtain ⟨room, hsplit⟩ := split_of_not_hasMeta hmeta
  refine ⟨room, ?_⟩
  rw [hsplit, words_eq_of_spells hspells]
  exact if_congr (or_iff_right (not_unmatched_of_spells hspells)) rfl rfl

theorem splitsRight_of_null (hnull : popenNoshellSplitCommandToArgv text = .error .null)
    (hreason : HasMeta text ∨ Unmatched text ∨ Spells text []) :
    SplitsRight text (popenNoshellSplitCommandToArgv text) where
  inside := by
    rw [hnull]
    exact fun h ↦ nomatch h
  null_iff := iff_of_true hnull hreason
  words := by
    rw [hnull]
    exact fun _ _ h ↦ nomatch h

theorem length_partOffsets (words : List (List UInt8)) (start : ℕ) :
    (partOffsets words start).length = words.length := by
  induction words generalizing start with
  | nil => rfl
  | cons word words ih => exact congrArg Nat.succ (ih _)

theorem splitsRight_of_spells (htext : (0 : UInt8) ∉ text) (hmeta : ¬ HasMeta text)
    (hspells : Spells text words) (hwords : ∀ word ∈ words, wordValue word ≠ []) :
    SplitsRight text (popenNoshellSplitCommandToArgv text) := by
  obtain ⟨room, hsplit⟩ := split_of_spells hmeta hspells
  have hkept : kept (words.map wordValue) = words.map wordValue := by
    simpa [kept] using hwords
  rw [hkept] at hsplit
  cases words with
  | nil => exact splitsRight_of_null hsplit (.inr (.inr hspells))
  | cons word words =>
    have hcons : (word :: words).map wordValue ≠ [] := List.cons_ne_nil _ _
    rw [if_neg hcons] at hsplit
    rw [hsplit]
    refine ⟨fun h ↦ (nomatch h), iff_of_false (fun h ↦ nomatch h) ?_, ?_⟩
    · rintro (h | h | h)
      · exact hmeta h
      · exact not_unmatched_of_spells hspells h
      · have hsame := (words_eq_of_spells hspells).trans (words_eq_of_spells h).symm
        exact List.cons_ne_nil _ _ hsame
    · intro argv command hresult
      obtain ⟨rfl, rfl⟩ := Prod.mk.inj (Except.ok.inj hresult)
      refine ⟨word :: words, _, hspells, rfl, stringAt_partOffsets room fun value hvalue hzero ↦ ?_⟩
      obtain ⟨word', hword', rfl⟩ := List.mem_map.mp hvalue
      exact htext (mem_of_mem_wordValue hspells word' hword' 0 hzero)

theorem kept_of_splitsRight (hmeta : ¬ HasMeta text) (hspells : Spells text words)
    (hright : SplitsRight text (popenNoshellSplitCommandToArgv text)) :
    kept (words.map wordValue) = words.map wordValue := by
  obtain ⟨room, hsplit⟩ := split_of_spells hmeta hspells
  by_cases hnil : kept (words.map wordValue) = []
  · rw [if_pos hnil] at hsplit
    rcases hright.null_iff.mp hsplit with h | h | h
    · exact absurd h hmeta
    · exact absurd h (not_unmatched_of_spells hspells)
    · rw [(words_eq_of_spells hspells).trans (words_eq_of_spells h).symm]
      rfl
  · rw [if_neg hnil] at hsplit
    obtain ⟨words', starts, hspells', hstarts, hstrings⟩ := hright.words _ _ hsplit
    rw [(words_eq_of_spells hspells').trans (words_eq_of_spells hspells).symm] at hstrings
    have hlength : (kept (words.map wordValue)).length = (words.map wordValue).length := by
      have hsame := congrArg List.length hstarts
      rw [List.length_append, List.length_append, List.length_map, List.length_map,
        length_partOffsets] at hsame
      rw [← hstrings.length_eq]
      exact Nat.add_right_cancel hsame
    exact List.filter_eq_self.mpr (List.length_filter_eq_length_iff.mp hlength)

/-- The list is that of a shell unless a word is empty. -/
theorem splitsRight_iff (htext : (0 : UInt8) ∉ text) :
    SplitsRight text (popenNoshellSplitCommandToArgv text) ↔
      HasMeta text ∨ Unmatched text ∨ ∀ words, Spells text words →
      ∀ word ∈ words, wordValue word ≠ [] := by
  by_cases hmeta : HasMeta text
  · exact iff_of_true (splitsRight_of_null (split_of_hasMeta hmeta) (.inl hmeta)) (.inl hmeta)
  by_cases hopen : Unmatched text
  · obtain ⟨room, hsplit⟩ := split_of_not_hasMeta hmeta
    rw [if_pos (.inl hopen)] at hsplit
    exact iff_of_true (splitsRight_of_null hsplit (.inr (.inl hopen))) (.inr (.inl hopen))
  constructor
  · refine fun hright ↦ .inr (.inr fun words hspells word hword hempty ↦ ?_)
    have hall := List.filter_eq_self.mp (kept_of_splitsRight hmeta hspells hright)
    exact of_decide_eq_true (hall _ (List.mem_map_of_mem hword)) hempty
  · intro hcondition
    obtain ⟨words, hspells⟩ := exists_spells_iff.mpr hopen
    have hwords := (hcondition.resolve_left hmeta).resolve_left hopen words hspells
    exact splitsRight_of_spells htext hmeta hspells hwords

/-- `a 'b c'"d"`. -/
theorem splitsRight_quoted :
    SplitsRight [97, 32, 39, 98, 32, 99, 39, 34, 100, 34]
      (popenNoshellSplitCommandToArgv [97, 32, 39, 98, 32, 99, 39, 34, 100, 34]) := by
  refine (splitsRight_iff (by decide)).mpr (.inr (.inr fun words hspells word hword hempty ↦ ?_))
  have hvalues : words.map wordValue = [[97], [98, 32, 99, 100]] := words_eq_of_spells hspells
  have hmem : [] ∈ words.map wordValue := hempty ▸ List.mem_map_of_mem hword
  rw [hvalues] at hmem
  simp at hmem

/-- `a ''` is split into one argument. -/
theorem not_splitsRight_emptyWord :
    ¬ SplitsRight [97, 32, 39, 39] (popenNoshellSplitCommandToArgv [97, 32, 39, 39]) := by
  intro hright
  obtain ⟨words, hspells⟩ : ∃ words, Spells [97, 32, 39, 39] words :=
    exists_spells_iff.mpr (by decide)
  have hkept := kept_of_splitsRight (by decide) hspells hright
  have hvalues : words.map wordValue = [[97], []] := words_eq_of_spells hspells
  rw [hvalues] at hkept
  exact absurd hkept (by decide)

end CrossBreeder.PopenNoshell
