import CrossBreeder.Dnsmasq.NameReading

/-!
# Skipping a name

`skip_name` and `extract_name` agree on where a name ends as long as they agree on the length of its
labels. They do not for a bitstring with an odd number of hexadecimal digits: `extract_name` goes to
the byte of the last digit and `skip_name` behind it. `leavesAt_eq_skipName_iff` says that
`Together` is the exact condition.
-/

namespace CrossBreeder.Dnsmasq

open Foundation

variable {packet : Packet} {plen extrabytes : ℕ} {isExtract : Bool} {data : ℕ → ℕ} {p q e e' : ℕ}

/-! ### Labels up to the first pointer -/

/-- The bytes that `extract_name` passes for so many bits. -/
def extractData (count : ℕ) : ℕ := digitCount count / 2

/-- The bytes that `skip_name` passes for so many bits. -/
def skipData (count : ℕ) : ℕ := (count - 1) / 8 + 1

theorem extractData_of_even {count : ℕ} (h : digitCount count % 2 = 0) :
    extractData count = skipData count := by
  unfold extractData skipData digitCount at *
  omega

/-- Labels lead from one offset to another, with the number of bytes that are passed for a
bitstring. -/
inductive Reading (packet : Packet) (data : ℕ → ℕ) : ℕ → ℕ → Prop
  | done (p : ℕ) : Reading packet data p p
  | chars {p q : ℕ} (hlow : packet.byte p ≠ 0) (hhigh : packet.byte p < 64)
      (hrest : Reading packet data (p + 1 + packet.byte p) q) : Reading packet data p q
  | bits {p q : ℕ} (hbits : packet.byte p = 65) (hrest :
    Reading packet data (p + 2 + data (bitCount packet p)) q) :
      Reading packet data p q

/-- The labels end with a zero or a pointer, behind which is `e`. -/
def EndsAt (packet : Packet) (data : ℕ → ℕ) (p e : ℕ) : Prop :=
  ∃ q, Reading packet data p q ∧ (packet.byte q = 0 ∧ e = q + 1 ∨ 192 ≤ packet.byte q ∧ e = q + 2)

/-- From an offset on, `extract_name` and `skip_name` read the same labels up to the zero or the
pointer at the end. Behind a bitstring with an odd number of digits they do not, but what they read
comes to the same offset again, or one ends with a pointer whose second byte is the zero that the
other ends with. -/
inductive Together (packet : Packet) : ℕ → Prop
  | root {p : ℕ} (hroot : packet.byte p = 0) : Together packet p
  | pointer {p : ℕ} (hpointer : 192 ≤ packet.byte p) : Together packet p
  | chars {p : ℕ} (hlow : packet.byte p ≠ 0) (hhigh : packet.byte p < 64)
      (hrest : Together packet (p + 1 + packet.byte p)) : Together packet p
  | even {p : ℕ} (hbits : packet.byte p = 65) (heven : digitCount (bitCount packet p) % 2 = 0)
      (hrest : Together packet (p + 2 + skipData (bitCount packet p))) : Together packet p
  | odd {p q : ℕ} (hbits : packet.byte p = 65) (hodd : digitCount (bitCount packet p) % 2 = 1)
      (hextract : Reading packet extractData (p + 2 + extractData (bitCount packet p)) q)
      (hskip : Reading packet skipData (p + 2 + skipData (bitCount packet p)) q) (hrest :
        Together packet q) :
      Together packet p
  | extractEnds {p q : ℕ} (hbits : packet.byte p = 65) (hodd :
    digitCount (bitCount packet p) % 2 = 1)
      (hextract : Reading packet extractData (p + 2 + extractData (bitCount packet p)) q)
      (hskip : Reading packet skipData (p + 2 + skipData (bitCount packet p)) (q + 1)) (hpointer :
        192 ≤ packet.byte q)
      (hroot : packet.byte (q + 1) = 0) : Together packet p
  | skipEnds {p q : ℕ} (hbits : packet.byte p = 65) (hodd : digitCount (bitCount packet p) % 2 = 1)
      (hextract : Reading packet extractData (p + 2 + extractData (bitCount packet p)) (q + 1))
      (hskip : Reading packet skipData (p + 2 + skipData (bitCount packet p)) q) (hpointer :
        192 ≤ packet.byte q)
      (hroot : packet.byte (q + 1) = 0) : Together packet p

namespace EndsAt

theorem of_root (hroot : packet.byte p = 0) (h : EndsAt packet data p e) : e = p + 1 := by
  obtain ⟨q, hreading, hend⟩ := h
  cases hreading with
  | done => omega
  | chars hlow => exact absurd hroot hlow
  | bits hbits => omega

theorem of_pointer (hpointer : 192 ≤ packet.byte p) (h : EndsAt packet data p e) : e = p + 2 := by
  obtain ⟨q, hreading, hend⟩ := h
  cases hreading with
  | done => omega
  | chars hlow hhigh => omega
  | bits hbits => omega

theorem of_chars (hlow : packet.byte p ≠ 0) (hhigh : packet.byte p < 64)
    (h : EndsAt packet data p e) : EndsAt packet data (p + 1 + packet.byte p) e := by
  obtain ⟨q, hreading, hend⟩ := h
  cases hreading with
  | done => omega
  | chars _ _ hrest => exact ⟨q, hrest, hend⟩
  | bits hbits => omega

theorem of_bits (hbits : packet.byte p = 65) (h : EndsAt packet data p e) :
    EndsAt packet data (p + 2 + data (bitCount packet p)) e := by
  obtain ⟨q, hreading, hend⟩ := h
  cases hreading with
  | done => omega
  | chars _ hhigh => omega
  | bits _ hrest => exact ⟨q, hrest, hend⟩

theorem of_reading (hreading : Reading packet data p q) (h : EndsAt packet data p e) :
    EndsAt packet data q e := by
  induction hreading with
  | done => exact h
  | chars hlow hhigh _ ih => exact ih (h.of_chars hlow hhigh)
  | bits hbits _ ih => exact ih (h.of_bits hbits)

theorem chars (hlow : packet.byte p ≠ 0) (hhigh : packet.byte p < 64)
    (h : EndsAt packet data (p + 1 + packet.byte p) e) : EndsAt packet data p e := by
  obtain ⟨q, hreading, hend⟩ := h
  exact ⟨q, .chars hlow hhigh hreading, hend⟩

theorem bits (hbits : packet.byte p = 65)
    (h : EndsAt packet data (p + 2 + data (bitCount packet p)) e) :
    EndsAt packet data p e := by
  obtain ⟨q, hreading, hend⟩ := h
  exact ⟨q, .bits hbits hreading, hend⟩

end EndsAt

theorem Together.eq (h : Together packet p) (hextract : EndsAt packet extractData p e)
    (hskip : EndsAt packet skipData p e') : e = e' := by
  induction h with
  | root hroot => exact (hextract.of_root hroot).trans (hskip.of_root hroot).symm
  | pointer hpointer => exact (hextract.of_pointer hpointer).trans (hskip.of_pointer hpointer).symm
  | chars hlow hhigh _ ih => exact ih (hextract.of_chars hlow hhigh) (hskip.of_chars hlow hhigh)
  | even hbits heven _ ih =>
    exact ih (extractData_of_even heven ▸ hextract.of_bits hbits) (hskip.of_bits hbits)
  | odd hbits _ hreading hreading' _ ih =>
    exact ih ((hextract.of_bits hbits).of_reading hreading)
      ((hskip.of_bits hbits).of_reading hreading')
  | extractEnds hbits _ hreading hreading' hpointer hroot =>
    exact (((hextract.of_bits hbits).of_reading hreading).of_pointer hpointer).trans
      (((hskip.of_bits hbits).of_reading hreading').of_root hroot).symm
  | skipEnds hbits _ hreading hreading' hpointer hroot =>
    exact (((hextract.of_bits hbits).of_reading hreading).of_root hroot).trans
      (((hskip.of_bits hbits).of_reading hreading').of_pointer hpointer).symm

theorem EndsAt.together (hextract : EndsAt packet extractData p e)
    (hskip : EndsAt packet skipData p e) :
    Together packet p := by
  obtain ⟨q, hreading, hend⟩ := hextract
  induction hreading with
  | done => exact hend.elim (fun h ↦ .root h.1) fun h ↦ .pointer h.1
  | chars hlow hhigh _ ih => exact .chars hlow hhigh (ih (hskip.of_chars hlow hhigh) hend)
  | @bits p last hbits hreading ih =>
    by_cases heven : digitCount (bitCount packet p) % 2 = 0
    · have hnext := extractData_of_even heven
      exact .even hbits heven (hnext ▸ ih (hnext ▸ hskip.of_bits hbits) hend)
    · -- the two readings part here and end at the same place
      have hodd : digitCount (bitCount packet p) % 2 = 1 := Nat.mod_two_ne_zero.mp heven
      obtain ⟨last', hreading', hend'⟩ := hskip.of_bits hbits
      rcases hend with ⟨hroot, hend⟩ | ⟨hpointer, hend⟩ <;> rcases hend' with ⟨hroot', hend'⟩
        | ⟨hpointer', hend'⟩
      · obtain rfl : last' = last := by omega
        exact .odd hbits hodd hreading hreading' (.root hroot)
      · obtain rfl : last = last' + 1 := by omega
        exact .skipEnds hbits hodd hreading hreading' hpointer' hroot
      · obtain rfl : last' = last + 1 := by omega
        exact .extractEnds hbits hodd hreading hreading' hpointer hroot'
      · obtain rfl : last' = last := by omega
        exact .odd hbits hodd hreading hreading' (.pointer hpointer)

/-! ### The two functions -/

/-- Once a pointer was followed, the place to go back to is known. A bitstring is read only when the
name is extracted. -/
theorem returns_endsAt (hdata : isExtract = true → data = extractData) {s : NameCursor}
    {scan : NameScan} {next : ℕ}
    (h : Returns (nameRound packet plen isExtract extrabytes) s (some (scan, next))) :
    (∀ q, s.p1 = some q → next = q) ∧ (s.p1 = none → EndsAt packet data s.p next) := by
  generalize hvalue : some (scan, next) = value at h
  induction h with
  | @ret s _ hbody =>
    subst hvalue
    obtain ⟨hroot, -, -, rfl⟩ := nameRound_some hbody
    exact ⟨fun q hq ↦ by rw [hq]; rfl, fun hnone ↦ ⟨s.p, .done _, Or.inl ⟨hroot, by
      rw [hnone]; rfl⟩⟩⟩
  | @again s _ _ hbody _ ih =>
    obtain ⟨hback, hlabels⟩ := ih hvalue
    rcases nameRound_again hbody with ⟨hpointer, -, -, rfl⟩ | ⟨hlow, hhigh, -, -, scan, -, rfl⟩ |
      ⟨hbits, hextract, -, -, rfl⟩
    · have hnext := hback _ rfl
      exact ⟨fun q hq ↦ by rw [hnext, hq]; rfl,
        fun hnone ↦ ⟨s.p, .done _, Or.inr ⟨hpointer, by rw [hnext, hnone]; rfl⟩⟩⟩
    · exact ⟨hback, fun hnone ↦ (hlabels hnone).chars hlow hhigh⟩
    · refine ⟨hback, fun hnone ↦ EndsAt.bits hbits ?_⟩
      rw [hdata hextract]
      rw [hdata hextract] at hlabels
      exact hlabels hnone

theorem labelLow_eq (packet : Packet) (p : ℕ) (h : packet.byte p < 64) :
    packet.byte p &&& 0x3f = packet.byte p := by
  have hall : ∀ b : Fin 64, b.val &&& 0x3f = b.val := by decide +kernel
  exact hall ⟨_, h⟩

theorem skipNameLoop_endsAt (fuel : ℕ) :
    ∀ {ansp next : ℕ}, skipNameLoop packet plen fuel ansp = some next →
    EndsAt packet skipData ansp next := by
  induction fuel with
  | zero => exact fun h ↦ nomatch h
  | succ fuel ih =>
    intro ansp next h
    have hdata : (if packet.byte (ansp + 1) = 0 then 32 else (packet.byte (ansp + 1) - 1) / 8 + 1) =
        skipData (bitCount packet ansp) := by
      rw [skipData, bitCount]
      split_ifs <;> rfl
    rw [skipNameLoop] at h
    simp only [labelType_eq_pointer, labelType_eq_reserved, labelType_eq_bits, hdata] at h
    split_ifs at h with hshort hpointer hreserved hbits hbad hcut hend
    · exact ⟨ansp, .done _, Or.inr ⟨hpointer, (Option.some.inj h).symm⟩⟩
    · have hone : packet.byte ansp = 65 :=
        (labelLow_eq_one hbits.1 hbits.2).mp (by simpa using (not_or.mp hbad).2)
      exact (ih h).bits hone
    · rw [labelLow_eq packet ansp (by omega)] at hend
      exact ⟨ansp, .done _, Or.inl ⟨hend, (Option.some.inj h).symm⟩⟩
    · rw [labelLow_eq packet ansp (by omega)] at h hend
      exact (ih h).chars hend (by omega)

theorem skipName_endsAt {next : ℕ} (h : skipName packet plen p extrabytes = some next) :
    EndsAt packet skipData p next :=
  skipNameLoop_endsAt _ (Option.filter_eq_some_iff.mp h).1

/-- Where `extract_name` leaves the packet, when it extracts or when it compares with a name. -/
def leavesAt (packet : Packet) (plen p : ℕ) (isExtract : Bool) (name : List UInt8)
    (extrabytes : ℕ) : Option ℕ :=
  if isExtract then (extractName packet plen p extrabytes).map Prod.fst
  else (matchName packet plen p name extrabytes).map Prod.fst

theorem leavesAt_endsAt_of (hdata : isExtract = true → data = extractData) {name : List UInt8}
    {next : ℕ} (h : leavesAt packet plen p isExtract name extrabytes = some next) :
    EndsAt packet data p next := by
  have hloop : ∃ scan text, extractNameLoop packet plen isExtract extrabytes (nameFuel plen) p none
    0 ⟨[], text, 0, false⟩ =
      some (scan, next) := by
    cases isExtract with
    | true =>
      obtain ⟨⟨next, text⟩, hextract, rfl⟩ := Option.map_eq_some_iff.mp h
      obtain ⟨⟨scan, last⟩, hloop, heq⟩ := Option.map_eq_some_iff.mp hextract
      cases heq
      exact ⟨scan, [], hloop⟩
    | false =>
      obtain ⟨⟨next, same⟩, hmatch, rfl⟩ := Option.map_eq_some_iff.mp h
      obtain ⟨⟨scan, last⟩, hloop, heq⟩ := Option.map_eq_some_iff.mp hmatch
      cases heq
      exact ⟨scan, name, hloop⟩
  obtain ⟨scan, text, hloop⟩ := hloop
  exact (returns_endsAt hdata (extractNameLoop_iff _ |>.mp hloop)).2 rfl

theorem leavesAt_endsAt {name : List UInt8} {next : ℕ}
    (h : leavesAt packet plen p isExtract name extrabytes = some next) :
    EndsAt packet extractData p next := leavesAt_endsAt_of (fun _ ↦ rfl) h

/-- `extract_name` and `skip_name` leave the packet at the same place if they read the same labels,
or labels that meet again. -/
theorem leavesAt_eq_skipName_iff {name : List UInt8} {extrabytes' next next' : ℕ}
    (hextract : leavesAt packet plen p isExtract name extrabytes = some next)
    (hskip : skipName packet plen p extrabytes' = some next') :
    next = next' ↔ Together packet p := by
  constructor
  · rintro rfl
    exact (leavesAt_endsAt hextract).together (skipName_endsAt hskip)
  · exact fun htogether ↦ htogether.eq (leavesAt_endsAt hextract) (skipName_endsAt hskip)

def evenBits : Packet := [65, 8, 0xab, 1, 97, 0]

theorem leavesAt_eq_skipName_iff_even : Together evenBits 0 :=
  (@leavesAt_eq_skipName_iff evenBits 6 0 true 0 [] 0 6 6
    (by decide +kernel) (by decide +kernel)).mp rfl

def oddBits : Packet := List.replicate 12 0 ++ [65, 4, 0, 0]

/-- `extract_name` takes the byte of the digit for the end of the name, and `skip_name` the one
behind. -/
theorem leavesAt_ne_skipName_oddBits :
    leavesAt oddBits 16 12 true [] 0 = some 15 ∧ skipName oddBits 16 12 0 = some 16 := by
  decide +kernel

end CrossBreeder.Dnsmasq
