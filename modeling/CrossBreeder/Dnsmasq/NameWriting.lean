import CrossBreeder.Dnsmasq.NameComparison
import CrossBreeder.Dnsmasq.DhcpAddresses

/-!
# Writing a name

`canonicalise`, `do_rfc1035_name` and `extract_name` each have an idea of what a name is.
`check_name` bounds the labels by 63 characters but lets labels pass that are empty, and it allows
names of 1025 characters. `roundTrips_iff` says that these are the only names of configuration files
that are not read back.
-/

namespace CrossBreeder.Dnsmasq

open Foundation

/-! ### The functions -/

/-- `canonicalise` without international names, and whether the allocation succeeds. -/
def canonicalise (name : List UInt8) (allocated : Bool) : Option (List UInt8) :=
  match checkName name with
  | none => none
  | some name => if allocated then some name else none

/-- The loop of `do_rfc1035_name`, with a bound on the labels: what it writes. -/
def doRfc1035NameLoop : ℕ → List UInt8 → List UInt8
  | _, [] => []
  | 0, _ => []
  | fuel + 1, sval =>
    let label := sval.takeWhile (· ≠ 46)
    -- the length is stored in a byte, and the dot behind the label is passed over
    UInt8.ofNat label.length :: label ++ doRfc1035NameLoop fuel ((sval.dropWhile (· ≠ 46)).drop 1)

/-- `do_rfc1035_name`. Every label takes a character at least. -/
def doRfc1035Name (sval : List UInt8) : List UInt8 := doRfc1035NameLoop sval.length sval

/-! ### What is written -/

def encodeLabels (labels : List (List UInt8)) : List UInt8 :=
  labels.flatMap fun label ↦ UInt8.ofNat label.length :: label

theorem doRfc1035NameLoop_succ (fuel : ℕ) {sval : List UInt8} (hne : sval ≠ []) :
    doRfc1035NameLoop (fuel + 1) sval =
      UInt8.ofNat (sval.takeWhile (· ≠ 46)).length :: sval.takeWhile (· ≠ 46) ++
        doRfc1035NameLoop fuel ((sval.dropWhile (· ≠ 46)).drop 1) := by
  cases sval with
  | nil => exact absurd rfl hne
  | cons => rfl

theorem doRfc1035NameLoop_eq (fuel : ℕ) : ∀ {sval : List UInt8}, sval.length ≤ fuel →
    doRfc1035NameLoop fuel sval = encodeLabels (dottedLabels sval) := by
  induction fuel with
  | zero =>
    intro sval hlength
    obtain rfl := List.length_eq_zero_iff.mp (Nat.le_zero.mp hlength)
    rfl
  | succ fuel ih =>
    intro sval hlength
    by_cases hnil : sval = []
    · subst hnil
      rfl
    rw [doRfc1035NameLoop_succ fuel hnil]
    have hsplit := List.takeWhile_append_dropWhile (p := (· ≠ 46)) (l := sval)
    have hword : 46 ∉ sval.takeWhile (· ≠ 46) :=
      fun hmem ↦ by simpa using List.mem_takeWhile_imp hmem
    generalize sval.takeWhile (· ≠ 46) = word at hsplit hword ⊢
    cases hrest : sval.dropWhile (· ≠ 46) with
    | nil =>
      rw [hrest, List.append_nil] at hsplit
      subst hsplit
      rw [dottedLabels_word hword hnil]
      simp [encodeLabels, doRfc1035NameLoop]
    | cons c rest =>
      have hc : c = 46 := by
        have hhead := List.head?_dropWhile_not (· ≠ 46) sval
        rw [hrest] at hhead
        simpa using hhead
      subst hc
      rw [hrest] at hsplit
      have hless : rest.length ≤ fuel := by
        have := congrArg List.length hsplit
        rw [List.length_append, List.length_cons] at this
        omega
      rw [← hsplit, dottedLabels_dot hword, List.drop_one, List.tail_cons, ih hless]
      simp [encodeLabels]

theorem doRfc1035Name_eq (sval : List UInt8) :
    doRfc1035Name sval = encodeLabels (dottedLabels sval) :=
  doRfc1035NameLoop_eq _ (Nat.le_refl _)

/-! ### What is read back -/

def LabelLength (label : List UInt8) : Prop := 1 ≤ label.length ∧ label.length ≤ maxLabel

theorem byte_length_append (front : List UInt8) (c : UInt8) (back : List UInt8) :
    Packet.byte (front ++ c :: back) front.length = c.toNat := by
  simp [Packet.byte]

theorem slice_append (front text back : List UInt8) :
    Packet.slice (front ++ (text ++ back)) front.length text.length = text := by
  refine List.ext_getElem (length_slice _ _ _) fun i hi hi' ↦ ?_
  simp [Packet.slice, List.getElem?_append_right, List.getElem?_append_left hi', hi']

theorem spells_encodeLabels {labels : List (List UInt8)} {back : List UInt8} {extrabytes : ℕ}
    (hextra : extrabytes ≤ back.length) (hlabels : ∀ label ∈ labels, LabelLength label) :
    ∀ front packet : List UInt8,
      packet = front ++ (encodeLabels labels ++ 0 :: back) →
        Spells packet packet.length extrabytes front.length none 0 (labels.map .chars)
          (front.length + (encodeLabels labels).length + 1) := by
  induction labels with
  | nil =>
    rintro front packet rfl
    refine @Spells.root _ _ extrabytes front.length 0 none (byte_length_append front 0 back) ?_
    simp only [encodeLabels, List.flatMap_nil, List.nil_append, List.length_append,
      List.length_cons]
    omega
  | cons label labels ih =>
    intro front packet hpacket
    obtain ⟨hlow, hhigh⟩ := hlabels label (List.mem_cons_self ..)
    have hshort : label.length < 64 := Nat.lt_succ_of_le hhigh
    have hsplit : packet =
      front ++ UInt8.ofNat label.length :: (label ++ (encodeLabels labels ++ 0 :: back)) := by
      simp [hpacket, encodeLabels]
    have hbyte : Packet.byte packet front.length = label.length := by
      rw [hsplit, byte_length_append, UInt8.toNat_ofNat']
      exact Nat.mod_eq_of_lt (by omega)
    have hslice : Packet.slice packet (front.length + 1) label.length = label := by
      have hfront :=
        slice_append (front ++ [UInt8.ofNat label.length]) label (encodeLabels labels ++ 0 :: back)
      rw [hsplit]
      simpa using hfront
    have hrest := ih (fun label hmem ↦ hlabels label (List.mem_cons_of_mem _ hmem))
      (front ++ UInt8.ofNat label.length :: label) packet (by rw [hsplit]; simp)
    have hlength : (front ++ UInt8.ofNat label.length :: label).length =
      front.length + 1 + label.length := by
      simp only [List.length_append, List.length_cons]
      omega
    have hinside : front.length + 1 + label.length ≤ packet.length := by
      rw [hsplit]
      simp only [List.length_append, List.length_cons]
      omega
    have hnext : front.length + 1 + label.length + (encodeLabels labels).length + 1 =
        front.length + (encodeLabels (label :: labels)).length + 1 := by
      simp only [encodeLabels, List.flatMap_cons, List.length_append, List.length_cons]
      omega
    rw [hlength, hnext] at hrest
    have hchars : Spells packet packet.length extrabytes front.length none 0
        (.chars (Packet.slice packet (front.length + 1) (Packet.byte packet front.length)) ::
          labels.map .chars)
        (front.length + (encodeLabels (label :: labels)).length + 1) :=
      .chars (by
        rw [hbyte]; omega)
          (by rw [hbyte]; exact hshort) (by rw [hbyte]; exact hinside) (by rw [hbyte]; exact hrest)
    rwa [hbyte, hslice] at hchars

/-! ### Round trips -/

/-- A name that is written and followed by a zero is read back, up to a dot at its end, wherever it
is in a packet, and its labels have the length that labels may have. -/
structure RoundTrips (name : List UInt8) : Prop where
  decoded : ∀ (front back : List UInt8) (extrabytes : ℕ), extrabytes ≤ back.length →
    ∃ decoded, extractName (front ++ (doRfc1035Name name ++ 0 :: back))
        (front ++ (doRfc1035Name name ++ 0 :: back)).length front.length extrabytes =
          some (front.length + (doRfc1035Name name).length + 1, decoded) ∧
      (decoded = name ∨ decoded ++ [46] = name)
  labels : ∀ label ∈ dottedLabels name, LabelLength label

theorem checkChars_spec {name : List UInt8} :
    ∀ {dotgap : ℕ} {nowhite : Bool}, checkChars name dotgap nowhite = true →
    (∀ c ∈ name, c = 46 ∨ labelChar c = true) ∧ ∀ first rest, name.splitOn 46 = first :: rest →
      first.length ≤ maxLabel - dotgap ∧ ∀ label ∈ rest, label.length ≤ maxLabel := by
  induction name with
  | nil =>
    intro dotgap nowhite _
    refine ⟨by simp, fun first rest hsplit ↦ ?_⟩
    rw [List.splitOn_nil] at hsplit
    cases hsplit
    exact ⟨Nat.zero_le _, by simp⟩
  | cons c name ih =>
    intro dotgap nowhite h
    rw [checkChars] at h
    rw [List.splitOn_cons_eq_if_modifyHead]
    by_cases hdot : c = 46
    · rw [if_pos hdot] at h
      obtain ⟨hchars, hlabels⟩ := ih h
      refine ⟨List.forall_mem_cons.mpr ⟨Or.inl hdot, hchars⟩, fun first rest hsplit ↦ ?_⟩
      rw [if_pos (by simpa using hdot)] at hsplit
      cases hsplit
      refine ⟨Nat.zero_le _, fun label hmem ↦ ?_⟩
      cases hname : name.splitOn 46 with
      | nil => exact absurd hname (List.splitOn_ne_nil _ _)
      | cons first rest =>
        obtain ⟨hfirst, hrest⟩ := hlabels first rest hname
        rw [hname] at hmem
        exact (List.mem_cons.mp hmem).elim (fun heq ↦ heq ▸ hfirst) (hrest label)
    · rw [if_neg hdot] at h
      split_ifs at h with hlong hcontrol
      obtain ⟨hchars, hlabels⟩ := ih h
      obtain ⟨hlow, hhigh⟩ := not_or.mp hcontrol
      refine ⟨List.forall_mem_cons.mpr
        ⟨Or.inr (decide_eq_true ⟨UInt8.not_lt.mp hlow, UInt8.not_le.mp hhigh, hdot⟩), hchars⟩,
        fun first rest hsplit ↦ ?_⟩
      rw [if_neg (by simpa using hdot)] at hsplit
      cases hname : name.splitOn 46 with
      | nil => exact absurd hname (List.splitOn_ne_nil _ _)
      | cons head tail =>
        rw [hname, List.modifyHead_cons] at hsplit
        cases hsplit
        obtain ⟨hfirst, hrest⟩ := hlabels head rest hname
        refine ⟨?_, hrest⟩
        rw [List.length_cons]
        omega

theorem checkName_spec {given name : List UInt8} (h : checkName given = some name) :
    checkChars name 0 false = true := by
  rw [checkName] at h
  by_cases hbad : given = [] ∨ maxDname < given.length ∨ given = [46]
  · rw [if_pos hbad] at h
    cases h
  · rw [if_neg hbad] at h
    simp only [Option.ite_none_right_eq_some, Option.some.injEq] at h
    obtain ⟨hchars, rfl⟩ := h
    exact hchars

theorem canonicalise_spec {given name : List UInt8} {allocated : Bool}
    (h : canonicalise given allocated = some name) :
    name ≠ [] ∧ (∀ c ∈ name, c = 46 ∨ labelChar c = true) ∧ ∀ label ∈ name.splitOn 46,
      label.length ≤ maxLabel := by
  have hcheck : checkName given = some name := by
    rw [canonicalise] at h
    cases hcheck : checkName given with
    | none => simp [hcheck] at h
    | some checked =>
      rw [hcheck] at h
      cases allocated with
      | false => cases h
      | true => exact h
  have hchars := checkName_spec hcheck
  obtain ⟨hall, hlabels⟩ := checkChars_spec hchars
  refine ⟨?_, hall, fun label hmem ↦ ?_⟩
  · rintro rfl
    cases hchars
  · cases hsplit : name.splitOn 46 with
    | nil => exact absurd hsplit (List.splitOn_ne_nil _ _)
    | cons first rest =>
      obtain ⟨hfirst, hrest⟩ := hlabels first rest hsplit
      rw [hsplit] at hmem
      exact (List.mem_cons.mp hmem).elim (fun heq ↦ heq ▸ hfirst) (hrest label)

theorem fits_chars_iff (texts : List (List UInt8)) : ∀ cp, Fits cp (texts.map .chars) ↔
    texts = [] ∨ cp + (terminated 46 texts).length < maxDname := by
  induction texts with
  | nil => exact fun cp ↦ ⟨fun _ ↦ Or.inl rfl, fun _ ↦ trivial⟩
  | cons text texts ih =>
    intro cp
    rw [List.map_cons, Fits, ih, terminated_cons]
    simp only [WireLabel.room, WireLabel.written, List.length_append, List.length_cons,
      List.length_nil]
    constructor
    · rintro ⟨hroom, rfl | hrest⟩
      · exact Or.inr hroom
      · exact Or.inr (by omega)
    · rintro (h | h)
      · cases h
      · exact ⟨by omega, Or.inr (by omega)⟩

theorem terminated_dottedLabels {name : List UInt8} (hne : name ≠ []) :
    terminated 46 (dottedLabels name) = withoutDot name ++ [46] := by
  rw [dottedLabels, if_neg hne, terminated_splitOn]

theorem mem_splitOn_of_mem_dottedLabels {name label : List UInt8} (h : label ∈ dottedLabels name) :
    label ∈ name.splitOn 46 := by
  rw [dottedLabels] at h
  split_ifs at h with hnil
  · exact absurd h List.not_mem_nil
  · rw [withoutDot] at h
    split_ifs at h with hlast
    · obtain ⟨front, rfl⟩ := List.getLast?_eq_some_iff.mp hlast
      rw [List.dropLast_concat] at h
      rw [List.splitOn_append_cons_self]
      exact List.mem_append_left _ h
    · exact h

theorem withoutDot_eq (name : List UInt8) : withoutDot name = name ∨ withoutDot name ++
    [46] = name := by
  rw [withoutDot]
  split_ifs with hlast
  · obtain ⟨front, rfl⟩ := List.getLast?_eq_some_iff.mp hlast
    exact Or.inr (by rw [List.dropLast_concat])
  · exact Or.inl rfl

/-- A name that `canonicalise` accepts is read back if none of its labels is empty and it has at
most 1023 characters. -/
theorem roundTrips_iff {given name : List UInt8} {allocated : Bool}
    (h : canonicalise given allocated = some name) :
    RoundTrips name ↔ (∀ label ∈ dottedLabels name, label ≠ []) ∧
      (withoutDot name).length + 1 < maxDname := by
  obtain ⟨hne, hchars, hlong⟩ := canonicalise_spec h
  have hlabels : dottedLabels name ≠ [] := by
    rw [dottedLabels, if_neg hne]
    exact List.splitOn_ne_nil _ _
  have hspells : (∀ label ∈ dottedLabels name, LabelLength label) →
    ∀ (front back : List UInt8) (extrabytes : ℕ),
      extrabytes ≤ back.length → Spells (front ++ (doRfc1035Name name ++ 0 :: back))
        (front ++ (doRfc1035Name name ++ 0 :: back)).length extrabytes front.length none 0
          ((dottedLabels name).map .chars)
        (front.length + (doRfc1035Name name).length + 1) := by
    intro hlengths front back extrabytes hextra
    rw [doRfc1035Name_eq]
    exact spells_encodeLabels hextra hlengths front _ rfl
  constructor
  · rintro ⟨hdecoded, hlengths⟩
    refine ⟨fun label hmem hnil ↦ ?_, ?_⟩
    · have := (hlengths label hmem).1
      rw [hnil] at this
      cases this
    · obtain ⟨decoded, hextract, -⟩ := hdecoded [] [] 0 (Nat.le_refl _)
      obtain ⟨labels, hspelled, -, hfits, -⟩ := extractName_iff.mp hextract
      obtain ⟨rfl, -⟩ := hspelled.unique (hspells hlengths [] [] 0 (Nat.le_refl _))
      rcases (fits_chars_iff _ _).mp hfits with hnil | hroom
      · exact absurd hnil hlabels
      · rw [terminated_dottedLabels hne, List.length_append, List.length_singleton] at hroom
        omega
  · rintro ⟨hnonempty, hroom⟩
    have hlengths : ∀ label ∈ dottedLabels name, LabelLength label := fun label hmem ↦
      ⟨List.length_pos_of_ne_nil (hnonempty label hmem),
        hlong label (mem_splitOn_of_mem_dottedLabels hmem)⟩
    refine ⟨fun front back extrabytes hextra ↦ ⟨withoutDot name, ?_, withoutDot_eq name⟩, hlengths⟩
    refine extractName_iff.mpr ⟨_, hspells hlengths front back extrabytes hextra, ?_, ?_, ?_⟩
    · refine List.forall_mem_map.mpr fun label hmem ↦ List.all_eq_true.mpr fun c hc ↦ ?_
      have hpart := mem_splitOn_of_mem_dottedLabels hmem
      rcases hchars c (mem_of_mem_splitOn hpart hc) with rfl | hchar
      · exact absurd hc (sep_notMem_of_mem_splitOn label hpart)
      · exact hchar
    · refine (fits_chars_iff _ _).mpr (Or.inr ?_)
      rw [terminated_dottedLabels hne, List.length_append, List.length_singleton]
      omega
    · rw [labelsText_chars, terminated_dottedLabels hne, List.dropLast_concat]

/-- The name `a.b`. -/
theorem roundTrips_iff_letters : RoundTrips [97, 46, 98] :=
  (@roundTrips_iff [97, 46, 98] [97, 46, 98] true (by decide)).mpr ⟨by decide, by decide⟩

/-- The name `a..b` is accepted. A zero is written for the label between the dots, so that `a` is
read back. -/
theorem not_roundTrips_emptyLabel :
    canonicalise [97, 46, 46, 98] true = some [97, 46, 46, 98] ∧
      doRfc1035Name [97, 46, 46, 98] = [1, 97, 0, 1, 98] ∧
      extractName [1, 97, 0, 1, 98, 0] 6 0 0 = some (3, [97]) ∧ ¬ RoundTrips [97, 46, 46, 98] := by
  refine ⟨by decide, by decide, by decide +kernel, fun h ↦ ?_⟩
  have hempty := (h.labels [] (by decide)).1
  exact absurd hempty (by decide)

end CrossBreeder.Dnsmasq
