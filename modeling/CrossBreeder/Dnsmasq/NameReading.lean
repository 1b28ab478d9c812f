import CrossBreeder.Dnsmasq.Packet
import CrossBreeder.Foundation.EndingLoop

/-!
# Reading a name

The loop of `extract_name`, one round at a time, and the labels that it reads.
-/

namespace CrossBreeder.Dnsmasq

open Foundation

/-! ### One round of the loop -/

/-- The variables of `extract_name`. -/
structure NameCursor where
  p : ℕ
  p1 : Option ℕ
  hops : ℕ
  scan : NameScan

def pointerTarget (packet : Packet) (p : ℕ) : ℕ :=
  (packet.byte p &&& 0x3f) * 256 + packet.byte (p + 1)

def bitCount (packet : Packet) (p : ℕ) :
    ℕ := if packet.byte (p + 1) = 0 then 256 else packet.byte (p + 1)

def digitCount (count : ℕ) : ℕ := (count - 1) / 4 + 1

def bitsText (packet : Packet) (p : ℕ) : List UInt8 :=
  bitstringText packet (p + 2) (bitCount packet p) (digitCount (bitCount packet p))

/-- One round of the loop of `extract_name`. -/
def nameRound (packet : Packet) (plen : ℕ) (isExtract : Bool) (extrabytes : ℕ) (s : NameCursor) :
    Round NameCursor (Option (NameScan × ℕ)) :=
  if checkLen plen s.p 1 = false then .ret none
  else
    let l := packet.byte s.p
    if l = 0 then
      if checkLen plen (s.p + 1) extrabytes then .ret (some (s.scan, s.p1.getD (s.p + 1)))
        else .ret none
    else if l &&& 0xc0 = 0xc0 then
      if checkLen plen (s.p + 1) 1 = false then .ret none
      else if 255 < s.hops + 1 then .ret none
      else .again ⟨pointerTarget packet s.p, some (s.p1.getD (s.p + 2)), s.hops + 1, s.scan⟩
    else if l &&& 0xc0 = 0x80 then .ret none
    else if l &&& 0xc0 = 0x40 then
      if l &&& 0x3f ≠ 1 ∨ isExtract = false then .ret none
      else
        let count := bitCount packet s.p
        if maxDname ≤ s.scan.cp + digitCount count + 9 ∨
          checkLen plen (s.p + 2) ((count - 1) / 8) = false then .ret none
        else
          .again ⟨s.p + 2 + digitCount count / 2, s.p1, s.hops,
            { s.scan with
              out := s.scan.out ++ bitsText packet s.p
              cp := s.scan.cp + (bitsText packet s.p).length }⟩
    else if maxDname ≤ s.scan.cp + l + 1 ∨ checkLen plen (s.p + 1) l = false then .ret none
    else
      match s.scan.label packet isExtract (s.p + 1) l with
      | none => .ret none
      | some scan => .again ⟨s.p + 1 + l, s.p1, s.hops, scan⟩

variable {packet : Packet} {plen extrabytes : ℕ} {isExtract : Bool}

theorem extractNameLoop_eq (fuel : ℕ) :
    ∀ p p1 hops scan, extractNameLoop packet plen isExtract extrabytes fuel p p1 hops scan =
    (runRounds (nameRound packet plen isExtract extrabytes) fuel ⟨p, p1, hops, scan⟩).join := by
  induction fuel with
  | zero => exact fun _ _ _ _ ↦ rfl
  | succ fuel ih =>
    intro p p1 hops scan
    have hcount : (if packet.byte (p + 1) = 0 then 256 else packet.byte (p + 1)) =
      bitCount packet p := rfl
    have hdigs : (bitCount packet p - 1) / 4 + 1 = digitCount (bitCount packet p) := rfl
    rw [extractNameLoop, runRounds, nameRound]
    simp only [ih, hcount, hdigs]
    split_ifs <;> try rfl
    cases scan.label packet isExtract (p + 1) (packet.byte p) <;> rfl

/-! ### The kinds of labels -/

theorem byte_lt (packet : Packet) (p : ℕ) : packet.byte p < 256 := UInt8.toNat_lt _

theorem labelType_eq_pointer (packet : Packet) (p : ℕ) :
    packet.byte p &&& 0xc0 = 0xc0 ↔ 192 ≤ packet.byte p := by
  have hall : ∀ b : Fin 256, b.val &&& 0xc0 = 0xc0 ↔ 192 ≤ b.val := by decide +kernel
  exact hall ⟨_, byte_lt packet p⟩

theorem labelType_eq_reserved (packet : Packet) (p : ℕ) :
    packet.byte p &&& 0xc0 = 0x80 ↔ 128 ≤ packet.byte p ∧ packet.byte p < 192 := by
  have hall : ∀ b : Fin 256, b.val &&& 0xc0 = 0x80 ↔ 128 ≤ b.val ∧ b.val < 192 := by decide +kernel
  exact hall ⟨_, byte_lt packet p⟩

theorem labelType_eq_bits (packet : Packet) (p : ℕ) :
    packet.byte p &&& 0xc0 = 0x40 ↔ 64 ≤ packet.byte p ∧ packet.byte p < 128 := by
  have hall : ∀ b : Fin 256, b.val &&& 0xc0 = 0x40 ↔ 64 ≤ b.val ∧ b.val < 128 := by decide +kernel
  exact hall ⟨_, byte_lt packet p⟩

theorem labelLow_eq_one {packet : Packet} {p : ℕ} (hlow : 64 ≤ packet.byte p)
    (hhigh : packet.byte p < 128) : packet.byte p &&& 0x3f = 1 ↔ packet.byte p = 65 := by
  have hall : ∀ b : Fin 256, 64 ≤ b.val → b.val < 128 → (b.val &&& 0x3f = 1 ↔ b.val = 65) := by
    decide +kernel
  exact hall ⟨_, byte_lt packet p⟩ hlow hhigh

theorem checkLen_eq_false (plen p len : ℕ) : checkLen plen p len = false ↔ plen < p + len := by
  simp [checkLen]

section Rounds

variable {s : NameCursor}

theorem nameRound_outside (h : plen ≤ s.p) : nameRound packet plen isExtract extrabytes s =
    .ret none := by
  rw [nameRound, if_pos ((checkLen_eq_false _ _ _).mpr (by omega))]

theorem nameRound_root (h : s.p < plen) (hroot : packet.byte s.p = 0) :
    nameRound packet plen isExtract extrabytes s =
      .ret (if s.p + 1 + extrabytes ≤ plen then some (s.scan, s.p1.getD (s.p + 1)) else none) := by
  rw [nameRound, if_neg (by rw [checkLen_eq_false]; omega)]
  simp only [hroot, if_true, checkLen, decide_eq_true_eq]
  split_ifs <;> rfl

theorem nameRound_pointer (h : s.p < plen) (hpointer : 192 ≤ packet.byte s.p) :
    nameRound packet plen isExtract extrabytes s =
      if plen < s.p + 2 ∨ 255 ≤ s.hops then .ret none
      else .again ⟨pointerTarget packet s.p, some (s.p1.getD (s.p + 2)), s.hops + 1, s.scan⟩ := by
  rw [nameRound, if_neg (by rw [checkLen_eq_false]; omega)]
  simp only [(labelType_eq_pointer packet s.p).mpr hpointer, if_true, checkLen_eq_false]
  rw [if_neg (by omega)]
  by_cases hshort : plen < s.p + 2
  · rw [if_pos (by omega), if_pos (Or.inl hshort)]
  · rw [if_neg (by omega)]
    by_cases hhops : 255 ≤ s.hops
    · rw [if_pos (by omega), if_pos (Or.inr hhops)]
    · rw [if_neg (by omega), if_neg (by omega)]

theorem nameRound_reserved (hlow : 128 ≤ packet.byte s.p) (hhigh : packet.byte s.p < 192) :
    nameRound packet plen isExtract extrabytes s = .ret none := by
  by_cases hinside : s.p < plen
  · rw [nameRound, if_neg (by rw [checkLen_eq_false]; omega)]
    simp only [labelType_eq_pointer]
    rw [if_neg (by omega), if_neg (by omega), if_pos ((labelType_eq_reserved packet s.p).mpr ⟨hlow,
      hhigh⟩)]
  · exact nameRound_outside (by omega)

theorem nameRound_bits (h : s.p < plen) (hlow : 64 ≤ packet.byte s.p)
    (hhigh : packet.byte s.p < 128) : nameRound packet plen isExtract extrabytes s =
      if packet.byte s.p ≠ 65 ∨ isExtract = false ∨ maxDname ≤ s.scan.cp + digitCount
      (bitCount packet s.p) + 9 ∨
          plen < s.p + 2 + (bitCount packet s.p - 1) / 8 then .ret none
      else
        .again ⟨s.p + 2 + digitCount (bitCount packet s.p) / 2, s.p1, s.hops,
          { s.scan with
            out := s.scan.out ++ bitsText packet s.p
            cp := s.scan.cp + (bitsText packet s.p).length }⟩ := by
  rw [nameRound, if_neg (by rw [checkLen_eq_false]; omega)]
  simp only [(labelType_eq_bits packet s.p).mpr ⟨hlow, hhigh⟩, checkLen_eq_false,
    labelLow_eq_one hlow hhigh, ne_eq]
  rw [if_neg (by omega), if_neg (by omega), if_neg (by omega), if_pos trivial]
  by_cases hfirst : ¬ packet.byte s.p = 65 ∨ isExtract = false
  · rw [if_pos hfirst, if_pos (by grind)]
  · rw [if_neg hfirst]
    by_cases hsecond : maxDname ≤ s.scan.cp + digitCount (bitCount packet s.p) + 9 ∨
        plen < s.p + 2 + (bitCount packet s.p - 1) / 8
    · rw [if_pos hsecond, if_pos (by grind)]
    · rw [if_neg hsecond, if_neg (by grind)]

theorem nameRound_label (h : s.p < plen) (hlow : packet.byte s.p ≠ 0)
    (hhigh : packet.byte s.p < 64) : nameRound packet plen isExtract extrabytes s =
      if maxDname ≤ s.scan.cp + packet.byte s.p + 1 ∨ plen < s.p + 1 + packet.byte s.p then
      .ret none
      else
        match s.scan.label packet isExtract (s.p + 1) (packet.byte s.p) with
        | none => .ret none
        | some scan => .again ⟨s.p + 1 + packet.byte s.p, s.p1, s.hops, scan⟩ := by
  rw [nameRound, if_neg (by rw [checkLen_eq_false]; omega)]
  simp only [labelType_eq_pointer, labelType_eq_reserved, labelType_eq_bits, checkLen_eq_false]
  rw [if_neg hlow, if_neg (by omega), if_neg (by omega), if_neg (by omega)]

/-- A round that goes on has read a pointer, an ordinary label or a bitstring. -/
theorem nameRound_again {t : NameCursor}
    (h : nameRound packet plen isExtract extrabytes s = .again t) :
    (192 ≤ packet.byte s.p ∧ s.p + 2 ≤ plen ∧ s.hops < 255 ∧
      t = ⟨pointerTarget packet s.p, some (s.p1.getD (s.p + 2)), s.hops + 1, s.scan⟩) ∨
    (packet.byte s.p ≠ 0 ∧ packet.byte s.p < 64 ∧ s.scan.cp + packet.byte s.p + 1 < maxDname ∧
      s.p + 1 + packet.byte s.p ≤ plen ∧ ∃ scan, s.scan.label packet isExtract (s.p + 1)
      (packet.byte s.p) = some scan ∧ t = ⟨s.p + 1 + packet.byte s.p, s.p1, s.hops, scan⟩) ∨
    (packet.byte s.p = 65 ∧ isExtract = true ∧
      s.scan.cp + digitCount (bitCount packet s.p) + 9 < maxDname ∧
      s.p + 2 + (bitCount packet s.p - 1) / 8 ≤ plen ∧
      t = ⟨s.p + 2 + digitCount (bitCount packet s.p) / 2, s.p1, s.hops,
        { s.scan with
          out := s.scan.out ++ bitsText packet s.p
          cp := s.scan.cp + (bitsText packet s.p).length }⟩) := by
  by_cases hinside : s.p < plen
  · by_cases hroot : packet.byte s.p = 0
    · rw [nameRound_root hinside hroot] at h
      cases h
    by_cases hchars : packet.byte s.p < 64
    · rw [nameRound_label hinside hroot hchars] at h
      split_ifs at h with hroom
      cases hlabel : s.scan.label packet isExtract (s.p + 1) (packet.byte s.p) with
      | none => simp [hlabel] at h
      | some scan =>
        rw [hlabel] at h
        cases h
        exact Or.inr (Or.inl ⟨hroot, hchars, by omega, by omega, scan, rfl, rfl⟩)
    by_cases hbits : packet.byte s.p < 128
    · rw [nameRound_bits hinside (by omega) hbits] at h
      split_ifs at h with hgood
      cases h
      have hextract : isExtract = true := by
        by_contra hno
        exact hgood (Or.inr (Or.inl (by simpa using hno)))
      exact Or.inr (Or.inr ⟨by omega, hextract, by omega, by omega, rfl⟩)
    by_cases hreserved : packet.byte s.p < 192
    · rw [nameRound_reserved (by omega) hreserved] at h
      cases h
    · rw [nameRound_pointer hinside (by omega)] at h
      split_ifs at h with hgood
      cases h
      exact Or.inl ⟨by omega, by omega, by omega, rfl⟩
  · rw [nameRound_outside (by omega)] at h
    cases h

theorem nameRound_some {scan : NameScan} {next : ℕ}
    (h : nameRound packet plen isExtract extrabytes s = .ret (some (scan, next))) :
    packet.byte s.p = 0 ∧ s.p + 1 + extrabytes ≤ plen ∧ scan = s.scan ∧ next = s.p1.getD
      (s.p + 1) := by
  by_cases hinside : s.p < plen
  · by_cases hroot : packet.byte s.p = 0
    · rw [nameRound_root hinside hroot] at h
      split_ifs at h with hend
      · cases h
        exact ⟨hroot, hend, rfl, rfl⟩
      · cases h
    by_cases hchars : packet.byte s.p < 64
    · rw [nameRound_label hinside hroot hchars] at h
      split_ifs at h
      · cases h
      · cases hlabel : s.scan.label packet isExtract (s.p + 1) (packet.byte s.p) <;>
          simp [hlabel] at h
    by_cases hbits : packet.byte s.p < 128
    · rw [nameRound_bits hinside (by omega) hbits] at h
      split_ifs at h
      cases h
    by_cases hreserved : packet.byte s.p < 192
    · rw [nameRound_reserved (by omega) hreserved] at h
      cases h
    · rw [nameRound_pointer hinside (by omega)] at h
      split_ifs at h
      cases h
  · rw [nameRound_outside (by omega)] at h
    cases h

def NameCursor.size (plen : ℕ) (s : NameCursor) : ℕ := (255 - s.hops) * plen + (plen - s.p)

theorem nameRound_size {t : NameCursor}
    (h : nameRound packet plen isExtract extrabytes s = .again t) : t.size plen < s.size plen := by
  rcases nameRound_again h with ⟨-, hinside, hhops, rfl⟩ | ⟨-, -, -, hinside, scan, -, rfl⟩ | ⟨-, -,
    -, hinside, rfl⟩
  · have hsplit : (255 - s.hops) * plen = (255 - (s.hops + 1)) * plen + plen := by
      rw [← Nat.succ_mul]
      congr 1
      omega
    simp only [NameCursor.size]
    omega
  · simp only [NameCursor.size]
    omega
  · simp only [NameCursor.size]
    omega

end Rounds

theorem extractNameLoop_iff {p : ℕ} {scan : NameScan} (result : NameScan × ℕ) :
    extractNameLoop packet plen isExtract extrabytes (nameFuel plen) p none 0 scan = some result ↔
      Returns (nameRound packet plen isExtract extrabytes) ⟨p, none, 0, scan⟩ (some result) := by
  have hrounds : NameCursor.size plen ⟨p, none, 0, scan⟩ < nameFuel plen := by
    simp only [NameCursor.size, nameFuel]
    omega
  rw [extractNameLoop_eq, returns_iff (NameCursor.size plen) (fun s t ↦ nameRound_size) hrounds,
    Option.join_eq_some_iff]

/-! ### The labels of a name -/

/-- A label as `extract_name` reads it: an ordinary one with its characters, or a bitstring with the
number of its digits and the text that is written for it. -/
inductive WireLabel
  | chars (text : List UInt8)
  | bits (digs : ℕ) (text : List UInt8)

namespace WireLabel

def written : WireLabel → List UInt8
  | .chars text => text ++ [46]
  | .bits _ text => text

def room : WireLabel → ℕ
  | .chars text => text.length + 1
  | .bits digs _ => digs + 9

def Printable : WireLabel → Prop
  | .chars text => text.all labelChar = true
  | .bits _ _ => True

end WireLabel

def Fits : ℕ → List WireLabel → Prop
  | _, [] => True
  | cp, label :: labels => cp + label.room < maxDname ∧ Fits (cp + label.written.length) labels

/-- The labels that are read from an offset on, with the first place to go back to and the number of
pointers so far, and where the packet goes on. -/
inductive Spells (packet : Packet) (plen extrabytes : ℕ) :
    ℕ → Option ℕ → ℕ → List WireLabel → ℕ → Prop
  | root {p hops : ℕ} {p1 : Option ℕ} (hroot : packet.byte p = 0)
    (hend : p + 1 + extrabytes ≤ plen) :
      Spells packet plen extrabytes p p1 hops [] (p1.getD (p + 1))
  | pointer {p hops next : ℕ} {p1 : Option ℕ} {labels : List WireLabel} (hpointer :
    192 ≤ packet.byte p)
      (hinside : p + 2 ≤ plen) (hhops : hops < 255)
      (hrest : Spells packet plen extrabytes (pointerTarget packet p) (some (p1.getD (p + 2)))
        (hops + 1) labels next) :
      Spells packet plen extrabytes p p1 hops labels next
  | chars {p hops next : ℕ} {p1 : Option ℕ} {labels : List WireLabel} (hlow : packet.byte p ≠ 0)
      (hhigh : packet.byte p < 64) (hinside : p + 1 + packet.byte p ≤ plen)
      (hrest : Spells packet plen extrabytes (p + 1 + packet.byte p) p1 hops labels next) :
      Spells packet plen extrabytes p p1 hops
        (.chars (packet.slice (p + 1) (packet.byte p)) :: labels) next
  | bits {p hops next : ℕ} {p1 : Option ℕ} {labels : List WireLabel} (hbits : packet.byte p = 65)
      (hinside : p + 2 + (bitCount packet p - 1) / 8 ≤ plen)
      (hrest : Spells packet plen extrabytes (p + 2 + digitCount (bitCount packet p) / 2) p1 hops
        labels next) :
      Spells packet plen extrabytes p p1 hops (.bits (digitCount (bitCount packet p))
        (bitsText packet p) :: labels) next

theorem Spells.unique {p hops next next' : ℕ} {p1 : Option ℕ} {labels labels' : List WireLabel}
    (h : Spells packet plen extrabytes p p1 hops labels next)
    (h' : Spells packet plen extrabytes p p1 hops labels' next') :
    labels = labels' ∧ next = next' := by
  induction h generalizing labels' with
  | root hroot =>
    cases h' with
    | root => exact ⟨rfl, rfl⟩
    | pointer hpointer => omega
    | chars hlow => exact absurd hroot hlow
    | bits hbits => omega
  | pointer hpointer _ _ _ ih =>
    cases h' with
    | root hroot => omega
    | pointer _ _ _ hrest => exact ih hrest
    | chars _ hhigh => omega
    | bits hbits => omega
  | chars hlow hhigh _ _ ih =>
    cases h' with
    | root hroot => exact absurd hroot hlow
    | pointer hpointer => omega
    | chars _ _ _ hrest =>
      obtain ⟨rfl, rfl⟩ := ih hrest
      exact ⟨rfl, rfl⟩
    | bits hbits => omega
  | bits hbits _ _ ih =>
    cases h' with
    | root hroot => omega
    | pointer hpointer => omega
    | chars _ hhigh => omega
    | bits _ _ hrest =>
      obtain ⟨rfl, rfl⟩ := ih hrest
      exact ⟨rfl, rfl⟩

def NameScan.append (scan : NameScan) (label : WireLabel) : NameScan :=
  { scan with out := scan.out ++ label.written, cp := scan.cp + label.written.length }

@[simp] theorem length_slice (packet : Packet) (p len : ℕ) : (packet.slice p len).length = len := by
  simp [Packet.slice]

theorem label_extract_iff {scan result : NameScan} {p len : ℕ} :
    scan.label packet true p len = some result ↔
      (packet.slice p len).all labelChar = true ∧ result = scan.append
      (.chars (packet.slice p len)) := by
  simp only [NameScan.label, if_true]
  by_cases hall : (packet.slice p len).all labelChar = true
  · simp [hall, NameScan.append, WireLabel.written, eq_comm, Nat.add_assoc]
  · simp [hall]

theorem label_compare (scan : NameScan) (packet : Packet) (p len : ℕ) :
    scan.label packet false p len = some
      (((packet.slice p len).foldl NameScan.compare scan).compareDot) := by
  simp [NameScan.label]

theorem returns_extract_iff {s : NameCursor} {result : NameScan} {next : ℕ} :
    Returns (nameRound packet plen true extrabytes) s (some (result, next)) ↔
      ∃ labels, Spells packet plen extrabytes s.p s.p1 s.hops labels next ∧
      (∀ label ∈ labels, label.Printable) ∧
        Fits s.scan.cp labels ∧ result = labels.foldl NameScan.append s.scan := by
  constructor
  · intro h
    generalize hvalue : some (result, next) = value at h
    induction h with
    | ret hbody =>
      subst hvalue
      obtain ⟨hroot, hend, rfl, rfl⟩ := nameRound_some hbody
      exact ⟨[], .root hroot hend, by simp, trivial, rfl⟩
    | again hbody hrest ih =>
      obtain ⟨labels, hspells, hprintable, hfits, hresult⟩ := ih hvalue
      rcases nameRound_again hbody with ⟨hpointer, hinside, hhops, rfl⟩ |
        ⟨hlow, hhigh, hroom, hinside, scan, hlabel, rfl⟩ | ⟨hbits, -, hroom, hinside, rfl⟩
      · exact ⟨labels, .pointer hpointer hinside hhops hspells, hprintable, hfits, hresult⟩
      · obtain ⟨hall, rfl⟩ := label_extract_iff.mp hlabel
        refine ⟨_, .chars hlow hhigh hinside hspells, ?_, ⟨?_, hfits⟩, hresult⟩
        · exact List.forall_mem_cons.mpr ⟨hall, hprintable⟩
        · rw [WireLabel.room, length_slice]
          omega
      · refine ⟨_, .bits hbits hinside hspells, ?_, ⟨?_, hfits⟩, hresult⟩
        · exact List.forall_mem_cons.mpr ⟨trivial, hprintable⟩
        · rw [WireLabel.room]
          omega
  · rintro ⟨labels, hspells, hprintable, hfits, rfl⟩
    obtain ⟨p, p1, hops, scan⟩ := s
    simp only at hspells hfits ⊢
    induction hspells generalizing scan with
    | root hroot hend =>
      exact .ret (by rw [nameRound_root (by simp only; omega) hroot, if_pos hend]; rfl)
    | pointer hpointer hinside hhops hrest ih =>
      refine .again ?_ (ih hprintable scan hfits)
      rw [nameRound_pointer (by simp only; omega) hpointer, if_neg (by simp only; omega)]
    | chars hlow hhigh hinside hrest ih =>
      obtain ⟨hall, hprintable⟩ := List.forall_mem_cons.mp hprintable
      obtain ⟨hroom, hfits⟩ := hfits
      rw [WireLabel.room, length_slice] at hroom
      refine .again ?_ (ih hprintable _ hfits)
      rw [nameRound_label (by simp only; omega) hlow hhigh, if_neg (by simp only; omega),
        label_extract_iff.mpr ⟨hall, rfl⟩]
    | bits hbits hinside hrest ih =>
      obtain ⟨-, hprintable⟩ := List.forall_mem_cons.mp hprintable
      obtain ⟨hroom, hfits⟩ := hfits
      rw [WireLabel.room] at hroom
      refine .again ?_ (ih hprintable _ hfits)
      rw [nameRound_bits (by simp only; omega) (by simp only; omega) (by simp only; omega),
        if_neg (by simp only [hbits, ne_eq, not_true_eq_false, reduceCtorEq, false_or]; omega)]
      rfl

def labelsText (labels : List WireLabel) : List UInt8 := labels.flatMap WireLabel.written

theorem out_foldl_append (labels : List WireLabel) : ∀ scan : NameScan,
    (labels.foldl NameScan.append scan).out = scan.out ++ labelsText labels := by
  induction labels with
  | nil => exact fun scan ↦ (List.append_nil _).symm
  | cons label labels ih =>
    intro scan
    rw [List.foldl_cons, ih]
    simp [NameScan.append, labelsText]

theorem extractName_iff {p next : ℕ} {name : List UInt8} :
    extractName packet plen p extrabytes = some (next, name) ↔
      ∃ labels, Spells packet plen extrabytes p none 0 labels next ∧
      (∀ label ∈ labels, label.Printable) ∧
        Fits 0 labels ∧ name = (labelsText labels).dropLast := by
  simp only [extractName, Option.map_eq_some_iff, Prod.exists, Prod.mk.injEq, extractNameLoop_iff,
    returns_extract_iff]
  constructor
  · rintro ⟨scan, next, ⟨labels, hspells, hprintable, hfits, rfl⟩, rfl, rfl⟩
    exact ⟨labels, hspells, hprintable, hfits, by rw [out_foldl_append]; rfl⟩
  · rintro ⟨labels, hspells, hprintable, hfits, rfl⟩
    exact ⟨_, next, ⟨labels, hspells, hprintable, hfits, rfl⟩, rfl, by rw [out_foldl_append]; rfl⟩

end CrossBreeder.Dnsmasq
