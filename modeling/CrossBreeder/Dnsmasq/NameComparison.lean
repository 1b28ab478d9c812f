import CrossBreeder.Dnsmasq.NameReading
import CrossBreeder.Foundation.SeparatedText

/-!
# Comparing a name

`extract_name` without `isExtract` compares the labels of a packet with a dotted name.
`matchName_iff` says when it returns 1: the labels are ordinary ones, there would be room for them,
and they are the words between the dots of the name (`Matches`).

For names made of plain labels this agrees with extraction: the comparison returns 1 if the name
that is extracted is the same (`matchName_iff_extractName`).
-/

namespace CrossBreeder.Dnsmasq

open Foundation

variable {packet : Packet} {plen extrabytes : ℕ}

/-! ### Comparison -/

/-- Labels are those of a dotted name, which may have a dot at the end. Letter case does not matter.
-/
inductive Matches : List (List UInt8) → List UInt8 → Prop
  | root : Matches [] []
  | last {text word : List UInt8} (hequal : hostnameIsequal text word = true) : Matches [text] word
  | dot {text word rest : List UInt8} {texts : List (List UInt8)} (hequal :
    hostnameIsequal text word = true)
      (hrest : Matches texts rest) : Matches (text :: texts) (word ++ 46 :: rest)

variable {texts : List (List UInt8)}

theorem matches_nil (hlong : ∀ text ∈ texts, text ≠ []) (h : Matches texts []) : texts = [] := by
  generalize hname : ([] : List UInt8) = name at h
  cases h with
  | root => rfl
  | last hequal =>
    subst hname
    have hnil : ∀ {text : List UInt8}, hostnameIsequal text [] = true → text = [] := fun hequal ↦ by
      simpa using hostnameIsequal_iff.mp hequal
    exact absurd (hnil hequal) (hlong _ (List.mem_singleton_self _))
  | dot hequal hrest => exact absurd hname (by simp)

theorem compare_foldl (chars : List UInt8) : ∀ scan : NameScan,
    (chars.foldl NameScan.compare scan).rest = scan.rest.drop chars.length ∧
    (chars.foldl NameScan.compare scan).cp = scan.cp + min chars.length scan.rest.length ∧
    ((chars.foldl NameScan.compare scan).differs = false ↔
      scan.differs = false ∧ hostnameIsequal chars (scan.rest.take chars.length) = true) := by
  induction chars with
  | nil => exact fun scan ↦ ⟨by simp, by simp, by simp [hostnameIsequal]⟩
  | cons c chars ih =>
    intro scan
    obtain ⟨out, rest, cp, differs⟩ := scan
    rw [List.foldl_cons]
    obtain ⟨hrest, hcp, hdiffers⟩ := ih (NameScan.compare ⟨out, rest, cp, differs⟩ c)
    cases rest with
    | nil => exact ⟨by rw [hrest]; simp [NameScan.compare], by rw [hcp]; simp [NameScan.compare],
        by rw [hdiffers]; simp [NameScan.compare, hostnameIsequal]⟩
    | cons c1 rest =>
      refine ⟨by rw [hrest]; simp [NameScan.compare], ?_, ?_⟩
      · rw [hcp]
        change cp + 1 + min chars.length rest.length = cp + min (chars.length + 1) (rest.length + 1)
        omega
      · rw [hdiffers]
        simp only [NameScan.compare, hostnameIsequal_iff, Bool.or_eq_false_iff, List.length_cons,
          List.take_succ_cons,
          List.map_cons, List.cons.injEq, decide_eq_false_iff_not, not_not, ne_eq, and_assoc]
        rw [eq_comm (b := toLower c)]

theorem compareDot_differs (scan : NameScan) :
    scan.compareDot.differs = false ↔ scan.differs = false ∧
      (scan.rest = [] ∨ ∃ rest, scan.rest = 46 :: rest) := by
  obtain ⟨out, rest, cp, differs⟩ := scan
  cases rest <;> simp [NameScan.compareDot]

theorem returns_compare_differs {s : NameCursor} {result : NameScan} {next : ℕ}
    (h : Returns (nameRound packet plen false extrabytes) s (some (result, next)))
    (hdiffers : result.differs = false) : s.scan.differs = false := by
  generalize hvalue : some (result, next) = value at h
  induction h with
  | ret hbody =>
    subst hvalue
    obtain ⟨-, -, rfl, -⟩ := nameRound_some hbody
    exact hdiffers
  | again hbody hrest ih =>
    have hnext := ih hvalue
    rcases nameRound_again hbody with ⟨-, -, -, rfl⟩ | ⟨-, -, -, -, scan, hlabel, rfl⟩
      | ⟨-, hextract, -⟩
    · exact hnext
    · rw [label_compare, Option.some.injEq] at hlabel
      subst hlabel
      exact ((compare_foldl _ _).2.2.mp ((compareDot_differs _).mp hnext).1).1
    · cases hextract

theorem length_eq_of_isequal {left right : List UInt8} (h : hostnameIsequal left right = true) :
    left.length = right.length := by
  simpa using congrArg List.length (hostnameIsequal_iff.mp h)

/-- A label that is found in the name is the rest of the name or is followed by a dot. -/
theorem compareLabel_same {chars : List UInt8} {scan : NameScan}
    (h : (chars.foldl NameScan.compare scan).compareDot.differs = false) :
    ∃ word, hostnameIsequal chars word = true ∧
      (scan.rest = word ∧ (chars.foldl NameScan.compare scan).compareDot.rest = [] ∨
        scan.rest = word ++ 46 :: (chars.foldl NameScan.compare scan).compareDot.rest ∧
          (chars.foldl NameScan.compare scan).compareDot.cp = scan.cp + (chars.length + 1)) := by
  obtain ⟨hrest, hcp, hdiffers⟩ := compare_foldl chars scan
  obtain ⟨hfold, hdot⟩ := (compareDot_differs _).mp h
  have hword := (hdiffers.mp hfold).2
  have hlength := length_eq_of_isequal hword
  rw [List.length_take] at hlength
  refine ⟨_, hword, ?_⟩
  rcases hdot with hnil | ⟨rest, hcons⟩
  · refine Or.inl ⟨?_, by rw [NameScan.compareDot, hnil]; exact hnil⟩
    rw [hnil] at hrest
    exact (List.take_of_length_le (List.drop_eq_nil_iff.mp hrest.symm)).symm
  · refine Or.inr ⟨?_, ?_⟩
    · rw [NameScan.compareDot, hcons]
      rw [hcons] at hrest
      rw [hrest, List.take_append_drop]
    · rw [NameScan.compareDot, hcons]
      simp only [hcp]
      omega

theorem compareLabel_last {chars : List UInt8} {scan : NameScan} (hsame : scan.differs = false)
    (hword : hostnameIsequal chars scan.rest = true) :
    (chars.foldl NameScan.compare scan).compareDot.differs = false ∧
      (chars.foldl NameScan.compare scan).compareDot.rest = [] := by
  obtain ⟨hrest, -, hdiffers⟩ := compare_foldl chars scan
  have hlength := length_eq_of_isequal hword
  rw [hlength, List.drop_length] at hrest
  refine ⟨(compareDot_differs _).mpr ⟨hdiffers.mpr ⟨hsame, ?_⟩, Or.inl hrest⟩, ?_⟩
  · rwa [hlength, List.take_length]
  · rw [NameScan.compareDot, hrest]
    exact hrest

theorem compareLabel_dot {chars word rest : List UInt8} {scan : NameScan}
    (hsame : scan.differs = false) (hword : hostnameIsequal chars word = true)
    (hscan : scan.rest = word ++ 46 :: rest) :
    (chars.foldl NameScan.compare scan).compareDot.differs = false ∧
      (chars.foldl NameScan.compare scan).compareDot.rest = rest ∧
      (chars.foldl NameScan.compare scan).compareDot.cp = scan.cp + (chars.length + 1) := by
  obtain ⟨hrest, hcp, hdiffers⟩ := compare_foldl chars scan
  have hlength := length_eq_of_isequal hword
  rw [hscan, hlength, List.drop_left] at hrest
  refine ⟨(compareDot_differs _).mpr ⟨hdiffers.mpr ⟨hsame, ?_⟩, Or.inr ⟨rest, hrest⟩⟩, ?_, ?_⟩
  · rwa [hscan, hlength, List.take_left]
  · rw [NameScan.compareDot, hrest]
  · rw [NameScan.compareDot, hrest]
    simp only [hcp, hscan, List.length_append, List.length_cons]
    omega

variable {labels : List WireLabel}

theorem Spells.text_ne_nil {p hops next : ℕ} {p1 : Option ℕ}
    (h : Spells packet plen extrabytes p p1 hops labels next) :
    ∀ text, WireLabel.chars text ∈ labels → text ≠ [] := by
  induction h with
  | root => simp
  | pointer _ _ _ _ ih => exact ih
  | @chars p _ _ _ _ hlow _ _ _ ih =>
    intro text htext
    rcases List.mem_cons.mp htext with heq | hmem
    · cases heq
      intro hnil
      exact hlow (by simpa using congrArg List.length hnil)
    · exact ih text hmem
  | bits _ _ _ ih =>
    intro text htext
    rcases List.mem_cons.mp htext with heq | hmem
    · cases heq
    · exact ih text hmem

theorem returns_compare_iff {s : NameCursor} {next : ℕ} :
    (∃ result, Returns (nameRound packet plen false extrabytes) s (some (result, next)) ∧
        result.differs = false ∧ result.rest = []) ↔
      s.scan.differs = false ∧ ∃ texts, Spells packet plen extrabytes s.p s.p1 s.hops
      (texts.map .chars) next ∧
        Fits s.scan.cp (texts.map .chars) ∧ Matches texts s.scan.rest := by
  constructor
  · rintro ⟨result, h, hdiffers, hrest⟩
    refine ⟨returns_compare_differs h hdiffers, ?_⟩
    generalize hvalue : some (result, next) = value at h
    induction h with
    | ret hbody =>
      subst hvalue
      obtain ⟨hroot, hend, rfl, rfl⟩ := nameRound_some hbody
      exact ⟨[], .root hroot hend, trivial, by rw [hrest]; exact .root⟩
    | @again s _ _ hbody hreturns ih =>
      obtain ⟨texts, hspells, hfits, hmatches⟩ := ih hvalue
      have hsame := returns_compare_differs (hvalue ▸ hreturns) hdiffers
      rcases nameRound_again hbody with ⟨hpointer, hinside, hhops, rfl⟩ |
        ⟨hlow, hhigh, hroom, hinside, scan, hlabel, rfl⟩ | ⟨-, hextract, -⟩
      · exact ⟨texts, .pointer hpointer hinside hhops hspells, hfits, hmatches⟩
      · rw [label_compare, Option.some.injEq] at hlabel
        subst hlabel
        have hlabelroom : s.scan.cp +
          (WireLabel.chars (packet.slice (s.p + 1) (packet.byte s.p))).room < maxDname := by
          rw [WireLabel.room, length_slice]
          omega
        obtain ⟨word, hword, ⟨hlast, hend⟩ | ⟨hdot, hcp⟩⟩ := compareLabel_same hsame
        · -- the name is at its end, so that the label is the last one
          rw [hend] at hmatches
          obtain rfl := matches_nil (fun text htext ↦
            hspells.text_ne_nil text (List.mem_map_of_mem htext)) hmatches
          exact ⟨[_], .chars hlow hhigh hinside hspells, ⟨hlabelroom, trivial⟩, by
            rw [hlast]; exact .last hword⟩
        · refine ⟨_ :: texts, .chars hlow hhigh hinside hspells, ⟨hlabelroom, ?_⟩, by
            rw [hdot]; exact .dot hword hmatches⟩
          simpa only [hcp, WireLabel.written, List.length_append, List.length_singleton] using hfits
      · cases hextract
  · rintro ⟨hsame, texts, hspells, hfits, hmatches⟩
    obtain ⟨p, p1, hops, scan⟩ := s
    simp only at hspells hfits hmatches hsame ⊢
    generalize hlabels : texts.map WireLabel.chars = labels at hspells hfits
    induction hspells generalizing texts scan with
    | root hroot hend =>
      obtain rfl := List.map_eq_nil_iff.mp hlabels
      refine ⟨scan, .ret ?_, hsame, ?_⟩
      · rw [nameRound_root (by simp only; omega) hroot, if_pos hend]
      · generalize scan.rest = rest at hmatches
        cases hmatches
        rfl
    | pointer hpointer hinside hhops hrest ih =>
      obtain ⟨result, hreturns, hresult⟩ := ih texts scan hsame hmatches hlabels hfits
      refine ⟨result, .again ?_ hreturns, hresult⟩
      rw [nameRound_pointer (by simp only; omega) hpointer, if_neg (by simp only; omega)]
    | @chars p hops _ p1 _ hlow hhigh hinside hrest ih =>
      obtain ⟨text, texts, rfl, htext, htexts⟩ := List.map_eq_cons_iff.mp hlabels
      cases htext
      obtain ⟨hroom, hfits⟩ := hfits
      rw [WireLabel.room, length_slice] at hroom
      have hround : nameRound packet plen false extrabytes ⟨p, p1, hops, scan⟩ =
        .again ⟨p + 1 + packet.byte p, p1, hops,
          ((packet.slice (p + 1) (packet.byte p)).foldl NameScan.compare scan).compareDot⟩ := by
        rw [nameRound_label
          (by simp only; omega) hlow hhigh, if_neg (by simp only; omega), label_compare]
      generalize hname : scan.rest = rest at hmatches
      cases hmatches with
      | last hequal =>
        obtain ⟨hsame', hend⟩ := compareLabel_last hsame (hname.symm ▸ hequal)
        obtain ⟨result, hreturns, hresult⟩ := ih [] _ hsame' (by rw [hend]; exact .root) htexts
          (by rw [← htexts]; trivial)
        exact ⟨result, .again hround hreturns, hresult⟩
      | dot hequal hmatches =>
        obtain ⟨hsame', hrest', hcp⟩ := compareLabel_dot hsame hequal hname
        obtain ⟨result, hreturns, hresult⟩ := ih texts _ hsame' (hrest' ▸ hmatches) htexts
          (by simpa only [hcp, WireLabel.written, List.length_append,
            List.length_singleton] using hfits)
        exact ⟨result, .again hround hreturns, hresult⟩
    | bits hbits hinside hrest ih =>
      obtain ⟨text, texts, rfl, htext, htexts⟩ := List.map_eq_cons_iff.mp hlabels
      cases htext

theorem matchName_iff {p next : ℕ} {name : List UInt8} :
    matchName packet plen p name extrabytes = some (next, true) ↔
      ∃ texts, Spells packet plen extrabytes p none 0 (texts.map .chars) next ∧ Fits 0
      (texts.map .chars) ∧
        Matches texts name := by
  have hloop := @returns_compare_iff packet plen extrabytes ⟨p, none, 0, ⟨[], name, 0, false⟩⟩ next
  simp only [true_and] at hloop
  rw [← hloop]
  simp only [matchName, Option.map_eq_some_iff, Prod.exists, Prod.mk.injEq, extractNameLoop_iff,
    decide_eq_true_eq]
  constructor
  · rintro ⟨scan, q, hreturns, rfl, hsame⟩
    exact ⟨scan, hreturns, hsame⟩
  · rintro ⟨scan, hreturns, hsame⟩
    exact ⟨scan, next, hreturns, rfl, hsame⟩

/-! ### Dotted names -/

theorem isequal_append_dot {text tail name : List UInt8} :
    hostnameIsequal (text ++ 46 :: tail) name = true ↔
      ∃ word rest, name = word ++ 46 :: rest ∧ hostnameIsequal text word = true ∧
      hostnameIsequal tail rest = true := by
  simp only [hostnameIsequal_iff, List.map_append, List.map_cons]
  constructor
  · intro h
    obtain ⟨word, rest', rfl, hword, hrest⟩ := List.map_eq_append_iff.mp h.symm
    obtain ⟨c, rest, rfl, hc, htail⟩ := List.map_eq_cons_iff.mp hrest
    obtain rfl : c = 46 := (toLower_eq_iff (by decide)).mp hc
    exact ⟨word, rest, rfl, hword.symm, htail.symm⟩
  · rintro ⟨word, rest, rfl, hword, hrest⟩
    rw [List.map_append, List.map_cons, hword, hrest]

/-- Labels are those of a name if the name is what they make with dots, with or without the last
one. -/
theorem matches_iff (htexts : texts ≠ []) : ∀ {name : List UInt8},
    Matches texts name ↔ hostnameIsequal (terminated 46 texts).dropLast name = true ∨
      hostnameIsequal (terminated 46 texts) name = true := by
  induction texts with
  | nil => exact absurd rfl htexts
  | cons text texts ih =>
    intro name
    cases texts with
    | nil =>
      simp only [terminated_cons, terminated_nil, List.dropLast_concat]
      constructor
      · intro h
        cases h with
        | last hequal => exact Or.inl hequal
        | dot hequal hrest =>
          cases hrest
          exact Or.inr (isequal_append_dot.mpr ⟨_, _, rfl, hequal, rfl⟩)
      · rintro (h | h)
        · exact .last h
        · obtain ⟨word, rest, rfl, hword, hrest⟩ := isequal_append_dot.mp h
          obtain rfl : rest = [] := by simpa [eq_comm] using hostnameIsequal_iff.mp hrest
          exact .dot hword .root
    | cons next texts =>
      rw [dropLast_terminated_cons text
        (by simp), terminated_cons text, isequal_append_dot, isequal_append_dot]
      constructor
      · intro h
        cases h with
        | dot hequal hrest =>
          rcases (ih (by simp)).mp hrest with hrest | hrest
          · exact Or.inl ⟨_, _, rfl, hequal, hrest⟩
          · exact Or.inr ⟨_, _, rfl, hequal, hrest⟩
      · rintro (⟨word, rest, rfl, hword, hrest⟩ | ⟨word, rest, rfl, hword, hrest⟩)
        · exact .dot hword ((ih (by simp)).mpr (Or.inl hrest))
        · exact .dot hword ((ih (by simp)).mpr (Or.inr hrest))

def withoutDot (name : List UInt8) :
    List UInt8 := if name.getLast? = some 46 then name.dropLast else name

def dottedLabels (name : List UInt8) : List (List UInt8) := if name =
    [] then [] else (withoutDot name).splitOn 46

theorem dot_notMem_of_isequal {text word : List UInt8} (h : hostnameIsequal text word = true)
    (htext : 46 ∉ text) : 46 ∉ word := by
  intro hmem
  have hlower : toLower 46 ∈ text.map toLower := by
    rw [hostnameIsequal_iff.mp h]
    exact List.mem_map_of_mem hmem
  obtain ⟨c, hc, hequal⟩ := List.mem_map.mp hlower
  obtain rfl : c = 46 := (toLower_eq_iff (by decide)).mp hequal
  exact htext hc

theorem dottedLabels_word {word : List UInt8} (hword : 46 ∉ word) (hne : word ≠ []) :
    dottedLabels word = [word] := by
  have hlast : word.getLast? ≠ some 46 := fun h ↦ hword (List.mem_of_getLast? h)
  rw [dottedLabels, if_neg hne, withoutDot, if_neg hlast, List.splitOn_eq_singleton hword]

theorem dottedLabels_dot {word : List UInt8} (hword : 46 ∉ word) (rest : List UInt8) :
    dottedLabels (word ++ 46 :: rest) = word :: dottedLabels rest := by
  rw [dottedLabels, if_neg (by simp), withoutDot]
  by_cases hrest : rest = []
  · subst hrest
    rw [if_pos (by simp), List.dropLast_concat, List.splitOn_eq_singleton hword]
    rfl
  · have hlast : (word ++ 46 :: rest).getLast? = rest.getLast? := by
      obtain ⟨c, rest, rfl⟩ := List.exists_cons_of_ne_nil hrest
      rw [List.getLast?_append, List.getLast?_cons_cons, List.getLast?_cons]
      rfl
    have hdrop : (word ++ 46 :: rest).dropLast = word ++ 46 :: rest.dropLast := by
      rw [List.dropLast_append_cons, List.dropLast_cons_of_ne_nil hrest]
    rw [hlast, hdrop, dottedLabels, if_neg hrest, withoutDot]
    split_ifs <;> rw [List.splitOn_append_cons_self, List.splitOn_eq_singleton hword] <;> rfl

theorem Matches.dottedLabels {name : List UInt8} (h : Matches texts name)
    (htexts : ∀ text ∈ texts, text ≠ [] ∧ 46 ∉ text) :
    List.Forall₂ (fun text word ↦ hostnameIsequal text word = true) texts (dottedLabels name) := by
  induction h with
  | root => exact .nil
  | @last text word hequal =>
    obtain ⟨hne, hdot⟩ := htexts _ (List.mem_singleton_self _)
    have hword : word ≠ [] := by
      rintro rfl
      exact hne (List.length_eq_zero_iff.mp (length_eq_of_isequal hequal))
    rw [dottedLabels_word (dot_notMem_of_isequal hequal hdot) hword]
    exact .cons hequal .nil
  | dot hequal _ ih =>
    obtain ⟨-, hdot⟩ := htexts _ (List.mem_cons_self ..)
    rw [dottedLabels_dot (dot_notMem_of_isequal hequal hdot)]
    exact .cons hequal (ih fun text hmem ↦ htexts text (List.mem_cons_of_mem _ hmem))

def SameName (extracted name : List UInt8) : Prop :=
  hostnameIsequal extracted name = true ∨ extracted ≠ [] ∧
    hostnameIsequal (extracted ++ [46]) name = true

/-- The labels in the packet are those between the dots of a name. -/
def BoundariesCoincide (packet : Packet) (plen extrabytes p next : ℕ) (name : List UInt8) : Prop :=
  ∃ texts, Spells packet plen extrabytes p none 0 (texts.map .chars) next ∧
    List.Forall₂ (fun text word ↦ hostnameIsequal text word = true) texts (dottedLabels name)

def WireLabel.Plain : WireLabel → Prop
  | .chars text => text.all labelChar = true
  | .bits _ _ => False

instance : DecidablePred WireLabel.Plain
  | .chars text => inferInstanceAs (Decidable (text.all labelChar = true))
  | .bits _ _ => inferInstanceAs (Decidable False)

theorem plain_map_iff :
    (∀ label ∈ texts.map WireLabel.chars, label.Plain) ↔
      ∀ text ∈ texts, text.all labelChar = true := by
  simp [WireLabel.Plain]

theorem exists_texts (h : ∀ label ∈ labels, label.Plain) :
    ∃ texts :
    List (List UInt8), labels = texts.map .chars ∧ ∀ text ∈ texts, text.all labelChar = true := by
  induction labels with
  | nil => exact ⟨[], rfl, by simp⟩
  | cons label labels ih =>
    obtain ⟨texts, rfl, htexts⟩ := ih fun label hmem ↦ h label (List.mem_cons_of_mem _ hmem)
    cases label with
    | chars text =>
      exact ⟨text :: texts, rfl, List.forall_mem_cons.mpr ⟨h _ (List.mem_cons_self ..), htexts⟩⟩
    | bits digs text => exact (h _ (List.mem_cons_self ..)).elim

theorem labelsText_chars (texts : List (List UInt8)) :
    labelsText (texts.map .chars) = terminated 46 texts := by
  simp [labelsText, terminated, List.flatMap_map, WireLabel.written]

theorem dot_notMem_of_all_labelChar {text : List UInt8} (h : text.all labelChar = true) :
    46 ∉ text := by
  intro hmem
  exact absurd (List.all_eq_true.mp h 46 hmem) (by decide)

/-- `extract_name` that compares returns 1 if the name that it extracts is the same, for names of
plain labels. -/
theorem matchName_iff_extractName {p : ℕ}
    (hplain : ∀ labels next, Spells packet plen extrabytes p none 0 labels next →
      ∀ label ∈ labels, label.Plain)
    (name : List UInt8) (next : ℕ) :
    matchName packet plen p name extrabytes = some (next, true) ↔
      ∃ extracted, extractName packet plen p extrabytes = some (next, extracted) ∧
      SameName extracted name ∧
        BoundariesCoincide packet plen extrabytes p next name := by
  rw [matchName_iff]
  constructor
  · rintro ⟨texts, hspells, hfits, hmatches⟩
    have hall := plain_map_iff.mp (hplain _ _ hspells)
    have hboundaries := hmatches.dottedLabels fun text hmem ↦
      ⟨hspells.text_ne_nil text (List.mem_map_of_mem hmem),
        dot_notMem_of_all_labelChar (hall text hmem)⟩
    have hprintable : ∀ label ∈ texts.map WireLabel.chars, label.Printable := by
      simpa [WireLabel.Printable] using hall
    refine ⟨(terminated 46 texts).dropLast, ?_, ?_, texts, hspells, hboundaries⟩
    · exact extractName_iff.mpr ⟨_, hspells, hprintable, hfits, by rw [labelsText_chars]⟩
    · by_cases htexts : texts = []
      · subst htexts
        cases hmatches
        exact Or.inl rfl
      · rcases (matches_iff htexts).mp hmatches with hequal | hequal
        · exact Or.inl hequal
        · refine Or.inr ⟨?_, by rwa [dropLast_terminated_append htexts]⟩
          obtain ⟨text, texts, rfl⟩ := List.exists_cons_of_ne_nil htexts
          have hpos := List.length_pos_of_ne_nil (hspells.text_ne_nil text (List.mem_cons_self ..))
          intro hnil
          have hlength := congrArg List.length hnil
          rw [terminated_cons, List.length_dropLast, List.length_append, List.length_cons,
            List.length_nil] at hlength
          omega
  · rintro ⟨extracted, hextract, hsame, -⟩
    obtain ⟨labels, hspells, -, hfits, rfl⟩ := extractName_iff.mp hextract
    obtain ⟨texts, rfl, -⟩ := exists_texts (hplain _ _ hspells)
    refine ⟨texts, hspells, hfits, ?_⟩
    rw [labelsText_chars] at hsame
    by_cases htexts : texts = []
    · subst htexts
      rcases hsame with hequal | ⟨hne, -⟩
      · obtain rfl : name = [] := by simpa [eq_comm] using hostnameIsequal_iff.mp hequal
        exact .root
      · exact absurd rfl hne
    · refine (matches_iff htexts).mpr (hsame.imp id fun hdot ↦ ?_)
      rw [← dropLast_terminated_append htexts]
      exact hdot.2

def letterName : Packet := [1, 97, 0]

theorem plain_letterName {next : ℕ} (h : Spells letterName 3 0 0 none 0 labels next) :
    ∀ label ∈ labels, label.Plain := by
  cases h with
  | root hroot => exact absurd hroot (by decide)
  | pointer hpointer => exact absurd hpointer (by decide)
  | bits hbits => exact absurd hbits (by decide)
  | chars hlow hhigh hinside hrest =>
    change Spells letterName 3 0 2 none 0 _ next at hrest
    cases hrest with
    | root => exact List.forall_mem_singleton.mpr (by decide)
    | pointer hpointer => exact absurd hpointer (by decide)
    | bits hbits => exact absurd hbits (by decide)
    | chars hlow => exact absurd rfl hlow

theorem matchName_iff_extractName_letter :
    matchName letterName 3 0 [65, 46] 0 = some (3, true) ↔
      ∃ extracted, extractName letterName 3 0 0 = some (3, extracted) ∧ SameName extracted
      [65, 46] ∧
        BoundariesCoincide letterName 3 0 0 3 [65, 46] :=
  matchName_iff_extractName (fun _ _ h ↦ plain_letterName h) [65, 46] 3

def bitsName : Packet := [65, 8, 0xab, 0]

def dotName : Packet := [3, 97, 46, 98, 0]

/-- A bitstring is extracted and never compared. A label with a dot in it is the same as two labels,
and is not extracted. A dot at the end of the name is passed over. -/
theorem not_matchName_iff_isequal :
    (extractName bitsName 4 0 0 = some (4, [92, 91, 120, 65, 66, 47, 56, 93]) ∧
      matchName bitsName 4 0 [92, 91, 120, 65, 66, 47, 56, 93] 0 = none) ∧
    (matchName dotName 5 0 [97, 46, 98] 0 = some (5, true) ∧ extractName dotName 5 0 0 = none) ∧
    (matchName letterName 3 0 [97, 46] 0 = some (3, true) ∧
      extractName letterName 3 0 0 = some (3, [97]) ∧ hostnameIsequal [97] [97, 46] = false) := by
  decide +kernel

end CrossBreeder.Dnsmasq
