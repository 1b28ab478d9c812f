import Mathlib.Data.Nat.Init
import Mathlib.Tactic.Common

/-!
# Words with quotes

What a command line means: words with blanks between them, where a word is a sequence of plain
characters and quoted parts (`Spells`). The words are unique, as a reader that goes through the text
finds them (`words_eq_of_spells`), and there are some whenever no quote is open at the end
(`exists_spells_iff`).
-/

namespace CrossBreeder.PopenNoshell

/-! ### The grammar -/

def Blank (c : UInt8) : Prop := c = 32 ∨ c = 9

instance (c : UInt8) : Decidable (Blank c) := inferInstanceAs (Decidable (_ ∨ _))

inductive Quote
  | single
  | double
  deriving DecidableEq, Repr

def Quote.char : Quote → UInt8
  | single => 39
  | double => 34

def quoteOf (c : UInt8) : Option Quote :=
  if c = 39 then some .single else if c = 34 then some .double else none

inductive Part
  | plain (c : UInt8) (hblank : ¬ Blank c) (hquote : quoteOf c = none)
  | quoted (q : Quote) (text : List UInt8) (hclosed : q.char ∉ text)

namespace Part

def text : Part → List UInt8
  | plain c _ _ => [c]
  | quoted q text _ => q.char :: text ++ [q.char]

def value : Part → List UInt8
  | plain c _ _ => [c]
  | quoted _ text _ => text

end Part

def wordValue (word : List Part) : List UInt8 := word.flatMap Part.value

inductive Spells : List UInt8 → List (List Part) → Prop
  | nil : Spells [] []
  | blank {c : UInt8} {rest : List UInt8} {words : List (List Part)} (hc : Blank c) (hrest :
    Spells rest words) :
      Spells (c :: rest) words
  | word {word : List Part} {rest : List UInt8} {words : List (List Part)} (hword : word ≠ [])
      (hend : ∀ c ∈ rest.head?, Blank c) (hrest : Spells rest words) :
      Spells (word.flatMap Part.text ++ rest) (word :: words)

def quoteAfter (open? : Option Quote) (c : UInt8) : Option Quote :=
  match open? with
  | none => quoteOf c
  | some q => if c = q.char then none else some q

def Unmatched (text : List UInt8) : Prop := text.foldl quoteAfter none ≠ none

instance (text : List UInt8) : Decidable (Unmatched text) := inferInstanceAs (Decidable (_ ≠ _))

/-! ### The reader -/

structure Reader where
  quote : Option Quote
  word : Option (List UInt8)
  words : List (List UInt8)

namespace Reader

def endWord (r : Reader) : Reader := { r with word := none, words := r.words ++ r.word.toList }

/-- The word that the reader is in, which may begin here, goes on. -/
def append (r : Reader) (text : List UInt8) : Reader :=
  { r with word := some (r.word.getD [] ++ text) }

def read (r : Reader) (c : UInt8) : Reader :=
  match r.quote with
  | none =>
    if Blank c then r.endWord
    else if quoteOf c = none then r.append [c]
    else { r.append [] with quote := quoteOf c }
  | some q => if c = q.char then { r.append [] with quote := none } else r.append [c]

end Reader

def wordsFrom (r : Reader) (text : List UInt8) : List (List UInt8) :=
  (text.foldl Reader.read r).endWord.words

variable {text rest : List UInt8} {words : List (List Part)} {c : UInt8} {q : Quote}

theorem quoteOf_char (q : Quote) : quoteOf q.char = some q := by cases q <;> rfl

theorem char_of_quoteOf (hquote : quoteOf c = some q) : c = q.char := by
  unfold quoteOf at hquote
  split_ifs at hquote with hsingle hdouble
  · exact Option.some.inj hquote ▸ hsingle
  · exact Option.some.inj hquote ▸ hdouble

theorem not_blank_char (q : Quote) : ¬ Blank q.char := by cases q <;> decide

theorem quote_read (r : Reader) (c : UInt8) : (r.read c).quote = quoteAfter r.quote c := by
  rcases r with ⟨_ | q, word, words⟩
  · unfold Reader.read quoteAfter
    split_ifs with hblank hquote
    · rcases hblank with rfl | rfl <;> rfl
    · exact hquote.symm
    · rfl
  · unfold Reader.read quoteAfter
    dsimp only
    split_ifs <;> rfl

theorem quote_foldl_read (r : Reader) (text : List UInt8) :
    (text.foldl Reader.read r).quote = text.foldl quoteAfter r.quote := by
  induction text generalizing r with
  | nil => rfl
  | cons c text ih => rw [List.foldl_cons, List.foldl_cons, ih, quote_read]

theorem foldl_read_quoted (hclosed : q.char ∉ text) (word : List UInt8)
    (before : List (List UInt8)) :
    text.foldl Reader.read ⟨some q, some word, before⟩ = ⟨some q, some (word ++ text), before⟩ := by
  induction text generalizing word with
  | nil => rw [List.append_nil]; rfl
  | cons c text ih =>
    rw [List.mem_cons, not_or] at hclosed
    have hread : Reader.read ⟨some q, some word, before⟩ c = ⟨some q, some (word ++ [c]), before⟩ :=
      if_neg (Ne.symm hclosed.1)
    rw [List.foldl_cons, hread, ih hclosed.2, List.append_assoc]
    rfl

theorem foldl_read_part (part : Part) (word : Option (List UInt8)) (before : List (List UInt8)) :
    part.text.foldl Reader.read ⟨none, word, before⟩ =
      ⟨none, some (word.getD [] ++ part.value), before⟩ := by
  cases part with
  | plain c hblank hquote => exact (if_neg hblank).trans (if_pos hquote)
  | quoted q text hclosed =>
    have hopen : Reader.read ⟨none, word, before⟩ q.char =
      ⟨some q, some (word.getD [] ++ []), before⟩ := by
      unfold Reader.read
      rw [if_neg (not_blank_char q), quoteOf_char, if_neg (by simp)]
      rfl
    have hclose : ∀ inner, Reader.read ⟨some q, some inner, before⟩ q.char = ⟨none,
      some (inner ++ []), before⟩ :=
      fun inner ↦ if_pos rfl
    rw [Part.text, List.cons_append, List.foldl_cons, List.foldl_append, hopen,
      foldl_read_quoted hclosed,
      List.foldl_cons, List.foldl_nil, hclose, List.append_nil, List.append_nil]
    rfl

theorem foldl_read_word (word : List Part) (hword : word ≠ []) (before : List (List UInt8)) :
    (word.flatMap Part.text).foldl Reader.read ⟨none, none, before⟩ =
      ⟨none, some (wordValue word), before⟩ := by
  obtain ⟨part, word, rfl⟩ := List.exists_cons_of_ne_nil hword
  have hmore : ∀ value : List UInt8, (word.flatMap Part.text).foldl Reader.read ⟨none,
    some value, before⟩ =
      ⟨none, some (value ++ wordValue word), before⟩ := by
    clear hword
    induction word with
    | nil =>
      intro value
      rw [wordValue, List.flatMap_nil, List.flatMap_nil, List.append_nil]
      rfl
    | cons part word ih =>
      intro value
      rw [List.flatMap_cons, List.foldl_append, foldl_read_part, ih, Option.getD_some,
        List.append_assoc]
      rfl
  rw [List.flatMap_cons, List.foldl_append, foldl_read_part, hmore]
  rfl

theorem wordsFrom_ended (hend : ∀ c ∈ rest.head?, Blank c) (word : List UInt8)
    (before : List (List UInt8)) :
    wordsFrom ⟨none, some word, before⟩ rest = wordsFrom ⟨none, none, before ++ [word]⟩ rest := by
  cases rest with
  | nil => simp [wordsFrom, Reader.endWord]
  | cons c rest =>
    have hblank : Blank c := hend c rfl
    have hone : Reader.read ⟨none, some word, before⟩ c = ⟨none, none, before ++ [word]⟩ :=
      if_pos hblank
    have hother : Reader.read ⟨none, none, before ++ [word]⟩ c = ⟨none, none, before ++ [word]⟩ :=
      (if_pos hblank).trans (by simp [Reader.endWord])
    unfold wordsFrom
    rw [List.foldl_cons, List.foldl_cons, hone, hother]

theorem wordsFrom_of_spells (hspells : Spells text words) (before : List (List UInt8)) :
    wordsFrom ⟨none, none, before⟩ text = before ++ words.map wordValue := by
  induction hspells generalizing before with
  | nil => rfl
  | @blank c rest words hblank hrest ih =>
    have hread : Reader.read ⟨none, none, before⟩ c = ⟨none, none, before⟩ :=
      (if_pos hblank).trans (by simp [Reader.endWord])
    rw [← ih before]
    unfold wordsFrom
    rw [List.foldl_cons, hread]
  | @word word rest words hword hend hrest ih =>
    have hread : wordsFrom ⟨none, none, before⟩ (word.flatMap Part.text ++ rest) =
        wordsFrom ⟨none, some (wordValue word), before⟩ rest := by
      unfold wordsFrom
      rw [List.foldl_append, foldl_read_word word hword]
    rw [hread, wordsFrom_ended hend, ih, List.append_assoc]
    rfl

theorem words_eq_of_spells (hspells : Spells text words) :
    words.map wordValue = wordsFrom ⟨none, none, []⟩ text :=
  (wordsFrom_of_spells hspells []).symm

/-! ### Matched quotes -/

theorem foldl_quoteAfter_quoted (hclosed : q.char ∉ text) :
    text.foldl quoteAfter (some q) = some q := by
  induction text with
  | nil => rfl
  | cons c text ih =>
    rw [List.mem_cons, not_or] at hclosed
    have hafter : quoteAfter (some q) c = some q := if_neg (Ne.symm hclosed.1)
    rw [List.foldl_cons, hafter, ih hclosed.2]

theorem exists_word_of_matched (hmatched : text.foldl quoteAfter none = none) :
    ∃ word rest words, text = List.flatMap Part.text word ++ rest ∧
      (∀ c ∈ rest.head?, Blank c) ∧ Spells rest words := by
  induction hlength : text.length using Nat.strong_induction_on generalizing text with
  | _ length ih =>
    subst hlength
    cases text with
    | nil => exact ⟨[], [], [], rfl, (fun _ h ↦ nomatch h), .nil⟩
    | cons c text =>
      rw [List.foldl_cons] at hmatched
      by_cases hblank : Blank c
      · have hafter : quoteAfter none c = none := by rcases hblank with rfl | rfl <;> rfl
        rw [hafter] at hmatched
        obtain ⟨word, rest, words, rfl, hend, hrest⟩ := ih _ (Nat.lt_succ_self _) hmatched rfl
        have hhead : ∀ x ∈ (c :: (List.flatMap Part.text word ++ rest)).head?, Blank x := by
          intro x hx
          exact Option.some.inj hx ▸ hblank
        refine ⟨[], c :: (List.flatMap Part.text word ++ rest), ?_⟩
        by_cases hword : word = []
        · subst hword
          exact ⟨words, rfl, hhead, .blank hblank hrest⟩
        · exact ⟨word :: words, rfl, hhead, .blank hblank (.word hword hend hrest)⟩
      · cases hquote : quoteOf c with
        | none =>
          rw [quoteAfter, hquote] at hmatched
          obtain ⟨word, rest, words, rfl, hend, hrest⟩ := ih _ (Nat.lt_succ_self _) hmatched rfl
          exact ⟨.plain c hblank hquote :: word, rest, words, rfl, hend, hrest⟩
        | some q =>
          rw [quoteAfter, hquote] at hmatched
          obtain rfl := char_of_quoteOf hquote
          -- the quote that is open is closed later
          have hmem : q.char ∈ text := by
            by_contra hclosed
            rw [foldl_quoteAfter_quoted hclosed] at hmatched
            exact nomatch hmatched
          obtain ⟨inner, behind, rfl, hclosed⟩ := List.eq_append_cons_of_mem hmem
          have hclose : quoteAfter (some q) q.char = none := if_pos rfl
          rw [List.foldl_append, foldl_quoteAfter_quoted hclosed, List.foldl_cons,
            hclose] at hmatched
          have hshorter : behind.length < (q.char :: (inner ++ q.char :: behind)).length := by
            simp only [List.length_cons, List.length_append]
            omega
          obtain ⟨word, rest, words, rfl, hend, hrest⟩ := ih _ hshorter hmatched rfl
          exact ⟨.quoted q inner hclosed :: word, rest, words, by simp [Part.text], hend, hrest⟩

theorem foldl_quoteAfter_part (part : Part) : part.text.foldl quoteAfter none = none := by
  have hfollows := quote_foldl_read ⟨none, none, []⟩ part.text
  rw [foldl_read_part] at hfollows
  exact hfollows.symm

theorem foldl_quoteAfter_word (word : List Part) :
    (word.flatMap Part.text).foldl quoteAfter none = none := by
  induction word with
  | nil => rfl
  | cons part word ih => rw [List.flatMap_cons, List.foldl_append, foldl_quoteAfter_part, ih]

theorem not_unmatched_of_spells (hspells : Spells text words) : ¬ Unmatched text := by
  induction hspells with
  | nil => exact fun h ↦ h rfl
  | @blank c rest words hblank hrest ih =>
    have hafter : quoteAfter none c = none := by rcases hblank with rfl | rfl <;> rfl
    unfold Unmatched
    rw [List.foldl_cons, hafter]
    exact ih
  | word hword hend hrest ih =>
    unfold Unmatched
    rw [List.foldl_append, foldl_quoteAfter_word]
    exact ih

theorem exists_spells_iff : (∃ words, Spells text words) ↔ ¬ Unmatched text := by
  constructor
  · rintro ⟨words, hspells⟩
    exact not_unmatched_of_spells hspells
  · intro hmatched
    obtain ⟨word, rest, words, rfl, hend, hrest⟩ := exists_word_of_matched (not_not.mp hmatched)
    by_cases hword : word = []
    · exact ⟨words, hword ▸ hrest⟩
    · exact ⟨word :: words, .word hword hend hrest⟩

end CrossBreeder.PopenNoshell
