import CrossBreeder.Dnsmasq.DoctorFrame

/-!
# The layout of a reply

Where the records of a reply lie: each with a name that `skip_name` accepts, and data that ends
inside the packet (`RecordsLie`). The layout depends only on the names, the types and the lengths of
the records, so that it is the same in a packet where only times and addresses were changed
(`Layout.of_keeps`), and a record can be read at another place (`skipName_moved`).

`find_soa` keeps the layout if the records are plain (`findSoa_keeps`): the source replaces four
bytes for an address of any length, it takes the length of an SOA record from its names, and for the
log it reads names with `extract_name`.
-/

namespace CrossBreeder.Dnsmasq

open Foundation

variable {packet packet' : Packet} {n n' p p' q e k : ℕ}

/-! ### The same bytes at another place -/

/-- Some bytes of a packet are at another place of another one. -/
def BytesAt (packet : Packet) (p : ℕ) (packet' : Packet) (p' len : ℕ) : Prop :=
  ∀ j < len, packet'.getD (p' + j) 0 = packet.getD (p + j) 0

theorem BytesAt.byte {len j : ℕ} (h : BytesAt packet p packet' p' len) (hj : j < len) :
    packet'.byte (p' + j) = packet.byte (p + j) := by rw [Packet.byte, h j hj, Packet.byte]

theorem BytesAt.getShort {len j : ℕ} (h : BytesAt packet p packet' p' len) (hj : j + 1 < len) :
    packet'.getShort (p' + j) = packet.getShort (p + j) := by
  rw [Packet.getShort, Packet.getShort, h.byte (by omega), Nat.add_assoc, h.byte hj, Nat.add_assoc]

theorem BytesAt.tail {len j : ℕ} (h : BytesAt packet p packet' p' (j + len)) :
    BytesAt packet (p + j) packet' (p' + j) len := by
  intro i hi
  rw [Nat.add_assoc, Nat.add_assoc]
  exact h (j + i) (by omega)

/-- A name is skipped as it comes: with the same bytes at another place, and another end of the
packet that is not in front of its end. -/
theorem skipNameLoop_moved (fuel : ℕ) :
    ∀ {p q : ℕ} {p' fuel' : ℕ}, skipNameLoop packet n fuel p = some q →
    BytesAt packet p packet' p' (q - p) → p' + (q - p) ≤ n' → q - p ≤ fuel' →
    skipNameLoop packet' n' fuel' p' = some (p' + (q - p)) := by
  induction fuel with
  | zero => exact fun h ↦ nomatch h
  | succ fuel ih =>
    intro p q p' fuel' h hbytes hend hfuel
    have hlt := skipNameLoop_lt packet n _ h
    obtain ⟨fuel', rfl⟩ : ∃ rest, fuel' = rest + 1 := ⟨fuel' - 1, by omega⟩
    have hhead : packet'.byte p' = packet.byte p := hbytes.byte (j := 0) (by omega)
    -- the labels behind, at their places
    have hrest : ∀ {j : ℕ}, 0 < j → skipNameLoop packet n fuel (p + j) = some q →
        skipNameLoop packet' n' fuel' (p' + j) = some (p' + (q - p)) := fun {j} hj hskip ↦ by
      have hlater := skipNameLoop_lt packet n fuel hskip
      have hlen : q - p = j + (q - (p + j)) := by omega
      rw [hlen] at hbytes
      have hnext : skipNameLoop packet' n' fuel' (p' + j) = some (p' + j + (q - (p + j))) :=
        ih hskip hbytes.tail (by omega) (by omega)
      rwa [Nat.add_assoc, ← hlen] at hnext
    unfold skipNameLoop at h ⊢
    dsimp only at h ⊢
    rw [hhead]
    have hinside : ¬checkLen n' p' 1 = false := by simp [checkLen]; omega
    rw [if_neg hinside]
    by_cases hshort : checkLen n p 1 = false
    · rw [if_pos hshort] at h
      cases h
    rw [if_neg hshort] at h
    by_cases hpointer : packet.byte p &&& 0xc0 = 0xc0
    · rw [if_pos hpointer] at h ⊢
      obtain rfl := Option.some.inj h
      rw [Nat.add_sub_cancel_left]
    rw [if_neg hpointer] at h ⊢
    by_cases hreserved : packet.byte p &&& 0xc0 = 0x80
    · rw [if_pos hreserved] at h
      cases h
    rw [if_neg hreserved] at h ⊢
    by_cases hbits : packet.byte p &&& 0xc0 = 0x40
    · rw [if_pos hbits] at h ⊢
      by_cases hbad : checkLen n p 2 = false ∨ packet.byte p &&& 0x3f ≠ 1
      · rw [if_pos hbad] at h
        cases h
      rw [if_neg hbad, Nat.add_assoc] at h
      have hlater := skipNameLoop_lt packet n fuel h
      have hcount : packet'.byte (p' + 1) = packet.byte (p + 1) := hbytes.byte (by omega)
      have hgood : ¬(checkLen n' p' 2 = false ∨ packet.byte p &&& 0x3f ≠ 1) := by
        rintro (hcut | hkind)
        · exact absurd hcut (by simp [checkLen]; omega)
        · exact hbad (.inr hkind)
      rw [if_neg hgood, hcount, Nat.add_assoc]
      exact hrest (by omega) h
    rw [if_neg hbits] at h ⊢
    by_cases hcut : checkLen n (p + 1) (packet.byte p &&& 0x3f) = false
    · rw [if_pos hcut] at h
      cases h
    rw [if_neg hcut] at h
    by_cases hroot : packet.byte p &&& 0x3f = 0
    · rw [if_pos hroot] at h
      obtain rfl := Option.some.inj h
      have hroom : ¬checkLen n' (p' + 1) (packet.byte p &&& 0x3f) = false := by
        simp [checkLen, hroot]; omega
      rw [if_neg hroom, if_pos hroot, Nat.add_sub_cancel_left]
    · rw [if_neg hroot, Nat.add_assoc] at h
      have hlater := skipNameLoop_lt packet n fuel h
      have hroom : ¬checkLen n' (p' + 1) (packet.byte p &&& 0x3f) = false := by
        simp [checkLen]; omega
      rw [if_neg hroom, if_neg hroot, Nat.add_assoc]
      exact hrest (by omega) h

variable {extrabytes : ℕ}

theorem skipName_moved (h : skipName packet n p extrabytes = some q)
    (hbytes : BytesAt packet p packet' p' (q - p)) (hend : p' + (q - p) + extrabytes ≤ n') :
    skipName packet' n' p' extrabytes = some (p' + (q - p)) := by
  have hloop : skipNameLoop packet' n' (n' + 1) p' = some (p' + (q - p)) :=
    skipNameLoop_moved _ (Option.filter_eq_some_iff.mp h).1 hbytes (by omega) (by omega)
  unfold skipName
  rw [hloop]
  exact Option.filter_eq_some_iff.mpr ⟨rfl, decide_eq_true hend⟩

theorem skipName_same (h : skipName packet n p extrabytes = some q)
    (hbytes : ∀ k, p ≤ k → k < q → packet'.getD k 0 = packet.getD k 0)
    (hend : q + extrabytes ≤ n') : skipName packet' n' p extrabytes = some q := by
  have hlt := skipName_lt h
  have hplace : p + (q - p) = q := by omega
  have hmoved : skipName packet' n' p extrabytes = some (p + (q - p)) :=
    skipName_moved h (fun j hj ↦ hbytes _ (by omega) (by omega)) (by omega)
  rwa [hplace] at hmoved

theorem skipName_le (h : skipName packet n p extrabytes = some q) : q + extrabytes ≤ n :=
  of_decide_eq_true (Option.filter_eq_some_iff.mp h).2

theorem skipQuestionsLoop_same (count : ℕ) :
    ∀ {p : ℕ}, skipQuestionsLoop packet n count p = some e →
    (∀ k, p ≤ k → k < e → packet'.getD k 0 = packet.getD k 0) → e ≤ n' →
    p ≤ e ∧ skipQuestionsLoop packet' n' count p = some e := by
  induction count with
  | zero => exact fun h _ _ ↦ ⟨(Option.some.inj h).le, h⟩
  | succ count ih =>
    intro p h hbytes hend
    unfold skipQuestionsLoop at h ⊢
    cases hname : skipName packet n p 4 with
    | none =>
      rw [hname] at h
      cases h
    | some q =>
      rw [hname] at h
      have hlt := skipName_lt hname
      obtain ⟨hle, hrest⟩ := ih h (fun k hk ↦ hbytes k (by omega)) hend
      have hsame : skipName packet' n' p 4 = some q :=
        skipName_same hname (fun k hk hkq ↦ hbytes k hk (by omega)) (by omega)
      rw [hsame]
      exact ⟨by omega, hrest⟩

theorem skipQuestionsLoop_le (count : ℕ) : ∀ {p : ℕ}, skipQuestionsLoop packet n count p = some e →
    p ≤ n → e ≤ n := by
  induction count with
  | zero =>
    intro p h hp
    obtain rfl := Option.some.inj h
    exact hp
  | succ count ih =>
    intro p h hp
    unfold skipQuestionsLoop at h
    cases hname : skipName packet n p 4 with
    | none =>
      rw [hname] at h
      cases h
    | some q =>
      rw [hname] at h
      exact ih h (skipName_le hname)

theorem skipQuestions_same (h : skipQuestions packet n = some e)
    (hbytes : ∀ k, k = 4 ∨ k = 5 ∨ headerSize ≤ k → k < e → packet'.getD k 0 = packet.getD k 0)
    (hend : e ≤ n') : skipQuestions packet' n' = some e := by
  have hge := skipQuestions_ge h
  unfold headerSize at hge
  have hcount : packet'.qdcount = packet.qdcount := by
    rw [Packet.qdcount, Packet.qdcount, Packet.getShort, Packet.getShort, Packet.byte, Packet.byte,
      hbytes 4 (.inl rfl)
        (by omega), hbytes 5 (.inr (.inl rfl)) (by omega), Packet.byte, Packet.byte]
  unfold skipQuestions at h ⊢
  rw [hcount]
  exact (skipQuestionsLoop_same _ h (fun k hk hke ↦ hbytes k (.inr (.inr hk)) hke) hend).2

theorem four_le (hk : k = 4 ∨ k = 5 ∨ headerSize ≤ k) : 4 ≤ k := by
  unfold headerSize at hk
  omega

theorem skipQuestions_le (h : skipQuestions packet n = some e) (hn : headerSize ≤ n) : e ≤ n :=
  skipQuestionsLoop_le _ h hn

/-! ### The places of records -/

/-- Where a record lies: its name, its type, and the end of its data, and whether it is an address
of the internet. -/
structure RecordPlace where
  start : ℕ
  typeAt : ℕ
  stop : ℕ
  isAddr : Bool

inductive RecordsLie (packet : Packet) (n : ℕ) : ℕ → List RecordPlace → ℕ → Prop
  | nil (p : ℕ) : RecordsLie packet n p [] p
  | cons {place : RecordPlace} {places : List RecordPlace} {e : ℕ}
      (hname : skipName packet n place.start 10 = some place.typeAt) (hstop : place.stop =
        dataEnd packet place.typeAt)
      (hle : place.stop ≤ n) (haddr : place.isAddr = isRecord packet place.typeAt typeA)
      (hrest : RecordsLie packet n place.stop places e) :
        RecordsLie packet n place.start (place :: places) e

theorem skipSection_iff (count : ℕ) : ∀ {p e : ℕ}, skipSection packet n count p = some e ↔
    ∃ places, places.length = count ∧ RecordsLie packet n p places e := by
  induction count with
  | zero =>
    intro p e
    constructor
    · intro h
      obtain rfl := Option.some.inj h
      exact ⟨[], rfl, .nil p⟩
    · rintro ⟨places, hlen, hlie⟩
      obtain rfl := List.length_eq_zero_iff.mp hlen
      cases hlie
      rfl
  | succ count ih =>
    intro p e
    unfold skipSection
    constructor
    · intro h
      cases hname : skipName packet n p 10 with
      | none =>
        rw [hname] at h
        cases h
      | some q =>
        rw [hname] at h
        dsimp only at h
        split_ifs at h with hcheck
        obtain ⟨places, hlen, hlie⟩ := ih.mp h
        let place : RecordPlace := ⟨p, q, dataEnd packet q, isRecord packet q typeA⟩
        have hcons : RecordsLie packet n place.start (place :: places) e :=
          .cons hname rfl (of_decide_eq_true hcheck) rfl hlie
        exact ⟨place :: places, congrArg Nat.succ hlen, hcons⟩
    · rintro ⟨places, hlen, hlie⟩
      cases hlie with
      | nil => cases hlen
      | cons hname hstop hle haddr hrest =>
        rw [hname]
        dsimp only
        rw [hstop] at hle hrest
        have hcheck : checkLen n (_ + 10) (packet.getShort (_ + 8)) = true := decide_eq_true hle
        rw [if_pos hcheck]
        exact ih.mpr ⟨_, Nat.succ.inj hlen, hrest⟩

namespace RecordsLie

variable {places front back : List RecordPlace} {place : RecordPlace}

theorem le (h : RecordsLie packet n p places e) : p ≤ e := by
  induction h with
  | nil => exact le_rfl
  | cons hname hstop _ _ _ ih =>
    have hlt := skipName_lt hname
    rw [dataEnd] at hstop
    omega

theorem le_bound (h : RecordsLie packet n p places e) (hp : p ≤ n) : e ≤ n := by
  induction h with
  | nil => exact hp
  | cons _ _ hle _ _ ih => exact ih hle

theorem bounds (h : RecordsLie packet n p places e) (hmem : place ∈ places) :
    p ≤ place.start ∧ place.start < place.typeAt ∧ place.typeAt + 10 ≤ place.stop ∧
      place.stop ≤ e := by
  induction h with
  | nil => exact absurd hmem List.not_mem_nil
  | cons hname hstop _ _ hrest ih =>
    have hlt := skipName_lt hname
    rw [dataEnd] at hstop
    rcases List.mem_cons.mp hmem with rfl | hmem
    · have hle := hrest.le
      omega
    · have hlater := ih hmem
      omega

theorem record (h : RecordsLie packet n p places e) (hmem : place ∈ places) :
    skipName packet n place.start 10 = some place.typeAt ∧
      place.stop = dataEnd packet place.typeAt ∧
      place.isAddr = isRecord packet place.typeAt typeA := by
  induction h with
  | nil => exact absurd hmem List.not_mem_nil
  | cons hname hstop _ haddr _ ih =>
    rcases List.mem_cons.mp hmem with rfl | hmem
    · exact ⟨hname, hstop, haddr⟩
    · exact ih hmem

theorem append_iff : RecordsLie packet n p (front ++ back) e ↔
    ∃ m, RecordsLie packet n p front m ∧ RecordsLie packet n m back e := by
  induction front generalizing p with
  | nil =>
    constructor
    · exact fun h ↦ ⟨p, .nil p, h⟩
    · rintro ⟨m, hfront, hback⟩
      cases hfront
      exact hback
  | cons first rest ih =>
    constructor
    · intro h
      cases h with
      | cons hname hstop hle haddr hrest =>
        obtain ⟨m, hfront, hback⟩ := ih.mp hrest
        exact ⟨m, .cons hname hstop hle haddr hfront, hback⟩
    · rintro ⟨m, hfront, hback⟩
      cases hfront with
      | cons hname hstop hle haddr hrest =>
        exact .cons hname hstop hle haddr (ih.mpr ⟨m, hrest, hback⟩)

/-- Records lie in another packet as they did, if what says where they lie is the same. -/
theorem same (h : RecordsLie packet n p places e)
    (hname : ∀ place ∈ places, ∀ k, place.start ≤ k → k < place.typeAt →
      packet'.getD k 0 = packet.getD k 0)
    (hstop : ∀ place ∈ places, packet'.getShort (place.typeAt + 8) = packet.getShort
      (place.typeAt + 8))
    (haddr : ∀ place ∈ places, isRecord packet' place.typeAt typeA = isRecord packet place.typeAt
      typeA) (hend : e ≤ n') :
    RecordsLie packet' n' p places e := by
  induction h with
  | nil => exact .nil _
  | @cons place places e hskip hdata hle hkind hrest ih =>
    have hlast := hrest.le
    have hbound : place.typeAt + 10 ≤ place.stop := by rw [hdata, dataEnd]; omega
    refine .cons (skipName_same hskip (hname place List.mem_cons_self) (by omega)) ?_ (by omega) ?_
      (ih (fun other hother ↦ hname other (List.mem_cons_of_mem _ hother))
        (fun other hother ↦ hstop other (List.mem_cons_of_mem _ hother))
        (fun other hother ↦ haddr other (List.mem_cons_of_mem _ hother)) hend)
    · rw [hdata, dataEnd, dataEnd, hstop place List.mem_cons_self]
    · rw [hkind, haddr place List.mem_cons_self]

end RecordsLie

/-! ### Changes inside records -/

def RecordPlace.Timed (place : RecordPlace) (k : ℕ) :
    Prop := place.typeAt + 4 ≤ k ∧ k < place.typeAt + 8

def RecordPlace.Addressed (place : RecordPlace) (k : ℕ) : Prop :=
  place.isAddr = true ∧ place.typeAt + 10 ≤ k ∧ k < place.stop

/-- Only the times of answers and the addresses are changed, and the flags of the header. -/
structure Keeps (answers places : List RecordPlace) (packet packet' : Packet) : Prop where
  length : packet'.length = packet.length
  same : ∀ k, 4 ≤ k → (∀ place ∈ answers, ¬place.Timed k) → (∀ place ∈ places, ¬place.Addressed k) →
    packet'.getD k 0 = packet.getD k 0

theorem Keeps.refl (answers places : List RecordPlace) (packet : Packet) :
    Keeps answers places packet packet :=
  ⟨rfl, fun _ _ _ _ ↦ rfl⟩

theorem Keeps.trans {answers places : List RecordPlace} {packet'' : Packet}
    (h : Keeps answers places packet packet') (h' : Keeps answers places packet' packet'') :
    Keeps answers places packet packet'' :=
  ⟨h'.length.trans h.length,
    fun k hk htimed haddressed ↦
      (h'.same k hk htimed haddressed).trans (h.same k hk htimed haddressed)⟩

namespace RecordsLie

variable {places : List RecordPlace} {place : RecordPlace}

theorem fixed_of_le (h : RecordsLie packet n p places e) (hk : k ≤ p) :
    ∀ place ∈ places, ¬place.Timed k ∧ ¬place.Addressed k := by
  intro place hmem
  have hbounds := h.bounds hmem
  refine ⟨fun htimed ↦ ?_, fun haddressed ↦ ?_⟩
  · unfold RecordPlace.Timed at htimed
    omega
  · have hdata := haddressed.2
    omega

/-- The names, types, classes and lengths of the records do not change, and only the data of
addresses does. -/
theorem fixed (h : RecordsLie packet n p places e) (hmem : place ∈ places)
    (hstart : place.start ≤ k)
    (hk : k < place.typeAt + 4 ∨ (place.typeAt + 8 ≤ k ∧ k < place.typeAt + 10) ∨
      (place.isAddr = false ∧ place.typeAt + 10 ≤ k ∧ k < place.stop)) :
    ∀ other ∈ places, ¬other.Timed k ∧ ¬other.Addressed k := by
  induction h with
  | nil => exact absurd hmem List.not_mem_nil
  | @cons first places e hname hstop hle haddr hrest ih =>
    have hfirst := (RecordsLie.cons hname hstop hle haddr hrest).bounds List.mem_cons_self
    intro other hother
    rcases List.mem_cons.mp hmem with rfl | hbehind
    · rcases List.mem_cons.mp hother with rfl | hother
      · refine ⟨fun htimed ↦ ?_, fun haddressed ↦ ?_⟩
        · unfold RecordPlace.Timed at htimed
          omega
        · obtain ⟨hkind, hdata⟩ := haddressed
          rcases hk with hk | hk | ⟨hnot, hk⟩
          · omega
          · omega
          · rw [hnot] at hkind
            cases hkind
      · exact hrest.fixed_of_le (by omega) other hother
    · rcases List.mem_cons.mp hother with rfl | hother
      · have hlater := hrest.bounds hbehind
        refine ⟨fun htimed ↦ ?_, fun haddressed ↦ ?_⟩
        · unfold RecordPlace.Timed at htimed
          omega
        · have hdata := haddressed.2
          omega
      · exact ih hbehind other hother

theorem separate {other : RecordPlace} (h : RecordsLie packet n p places e) (hmem : place ∈ places)
    (hother : other ∈ places) :
    other = place ∨ other.stop ≤ place.start ∨ place.stop ≤ other.start := by
  induction h with
  | nil => exact absurd hmem List.not_mem_nil
  | cons hname hstop hle haddr hrest ih =>
    rcases List.mem_cons.mp hmem with rfl | hbehind
    · rcases List.mem_cons.mp hother with rfl | hother
      · exact .inl rfl
      · exact .inr (.inr (hrest.bounds hother).1)
    · rcases List.mem_cons.mp hother with rfl | hother
      · exact .inr (.inl (hrest.bounds hbehind).1)
      · exact ih hbehind hother

end RecordsLie

/-- A record that `do_doctor` passes as `skip_section` does: an address has four bytes at least, an
SOA record has two names and 20 bytes, and with a log its name is extracted up to where it ends. -/
structure PlainRecord (opts : ReplyOptions) (packet : Packet) (n : ℕ) (place : RecordPlace) :
    Prop where
  addr : place.isAddr = true → place.typeAt + 14 ≤ place.stop
  soa : isRecord packet place.typeAt typeSoa = true →
    ∃ q p, skipName packet n (place.typeAt + 10) 0 = some q ∧
    skipName packet n q 20 = some p ∧ p + 20 = place.stop
  name : opts.optLog = true → EndsAt packet extractData place.start place.typeAt

section Keeps

variable {opts : ReplyOptions} {answers places : List RecordPlace} {place : RecordPlace}
variable (hsub : ∀ place ∈ answers, place ∈ places)

include hsub

theorem Keeps.record_same (hkeeps : Keeps answers places packet packet')
    (h : RecordsLie packet n p places e) (hp : headerSize ≤ p) (hmem : place ∈ places)
    (hstart : place.start ≤ k)
    (hk : k < place.typeAt + 4 ∨ (place.typeAt + 8 ≤ k ∧ k < place.typeAt + 10) ∨
      (place.isAddr = false ∧ place.typeAt + 10 ≤ k ∧ k < place.stop)) :
      packet'.getD k 0 = packet.getD k 0 := by
  have hbounds := h.bounds hmem
  have hfixed := h.fixed hmem hstart hk
  unfold headerSize at hp
  exact hkeeps.same k (by omega) (fun other hother ↦ (hfixed other (hsub other hother)).1)
    fun other hother ↦ (hfixed other hother).2

theorem Keeps.isRecord_same (hkeeps : Keeps answers places packet packet')
    (h : RecordsLie packet n p places e) (hp : headerSize ≤ p) (hmem : place ∈ places) (type : ℕ) :
    isRecord packet' place.typeAt type = isRecord packet place.typeAt type := by
  have hbounds := h.bounds hmem
  have hbyte : ∀ j < 4, packet'.byte (place.typeAt + j) = packet.byte (place.typeAt + j) :=
    fun j hj ↦ by
    rw [Packet.byte, hkeeps.record_same hsub h hp hmem (by omega) (.inl (by omega)), Packet.byte]
  have h0 := hbyte 0 (by omega)
  rw [Nat.add_zero] at h0
  unfold isRecord Packet.getShort
  rw [h0, hbyte 1 (by omega), hbyte 2 (by omega), Nat.add_assoc, hbyte 3 (by omega)]

theorem Keeps.stop_same (hkeeps : Keeps answers places packet packet')
    (h : RecordsLie packet n p places e) (hp : headerSize ≤ p) (hmem : place ∈ places) :
    packet'.getShort (place.typeAt + 8) = packet.getShort (place.typeAt + 8) := by
  have hbounds := h.bounds hmem
  unfold Packet.getShort Packet.byte
  rw [hkeeps.record_same hsub h hp hmem (by omega) (.inr (.inl (by omega))),
    hkeeps.record_same hsub h hp hmem (by omega) (.inr (.inl (by omega)))]

theorem RecordsLie.part_of_keeps {part : List RecordPlace} (h : RecordsLie packet n p places e)
    (hp : headerSize ≤ p) (hkeeps : Keeps answers places packet packet')
    (hpart : RecordsLie packet n q part k) (hmem : ∀ place ∈ part, place ∈ places)
    (hend : k ≤ n') : RecordsLie packet' n' q part k :=
  hpart.same (fun place hplace _ hstart hk ↦ hkeeps.record_same hsub h hp (hmem place hplace) hstart
    (.inl (by omega))) (fun place hplace ↦ hkeeps.stop_same hsub h hp (hmem place hplace))
    (fun place hplace ↦ hkeeps.isRecord_same hsub h hp (hmem place hplace) typeA) hend

theorem RecordsLie.of_keeps (h : RecordsLie packet n p places e) (hp : headerSize ≤ p)
    (hkeeps : Keeps answers places packet packet') (hend : e ≤ n') :
    RecordsLie packet' n' p places e :=
  h.part_of_keeps hsub hp hkeeps h (fun _ hmem ↦ hmem) hend

theorem PlainRecord.of_keeps (hplain : PlainRecord opts packet n place)
    (h : RecordsLie packet n p places e) (hp : headerSize ≤ p) (hmem : place ∈ places)
    (hkeeps : Keeps answers places packet packet') :
    PlainRecord opts packet' n place := by
  have hbounds := h.bounds hmem
  refine ⟨hplain.addr, fun hsoa ↦ ?_, fun hlog ↦ ?_⟩
  · rw [hkeeps.isRecord_same hsub h hp hmem] at hsoa
    have hother : place.isAddr = false := by
      rw [(h.record hmem).2.2, isRecord]
      rw [isRecord, decide_eq_true_eq] at hsoa
      exact decide_eq_false fun haddr ↦ absurd (hsoa.1.symm.trans haddr.1) (by decide)
    obtain ⟨q, last, hq, hlast, hstop⟩ := hplain.soa hsoa
    have hqLt := skipName_lt hq
    have hlastLt := skipName_lt hlast
    have hbytes : ∀ k, place.typeAt + 10 ≤ k → k < place.stop →
      packet'.getD k 0 = packet.getD k 0 :=
      fun k hk hkStop ↦
        hkeeps.record_same hsub h hp hmem (by omega) (.inr (.inr ⟨hother, hk, hkStop⟩))
    refine ⟨q, last, skipName_same hq (fun k hk hkq ↦
      hbytes k hk (by omega)) (skipName_le hq), ?_, hstop⟩
    exact skipName_same hlast (fun k hk hkq ↦ hbytes k (by omega) (by omega)) (skipName_le hlast)
  · exact (hplain.name hlog).same fun k hk hkq ↦
      hkeeps.record_same hsub h hp hmem hk (.inl (by omega))

end Keeps

/-! ### Sections -/

/-- Where the questions of a reply end, and where the records of its sections lie. -/
structure Layout (packet : Packet) (n first : ℕ) (answers authority additional : List RecordPlace)
    (e : ℕ) : Prop where
  questions : skipQuestions packet n = some first
  records : RecordsLie packet n first (answers ++ authority ++ additional) e
  ancount : answers.length = packet.ancount
  nscount : authority.length = packet.nscount
  arcount : additional.length = packet.arcount

/-- The questions and the records that the header announces can be read, up to an offset. -/
def Parses (packet : Packet) (n e : ℕ) : Prop :=
  ∃ first, skipQuestions packet n = some first ∧
    skipSection packet n (packet.ancount + packet.nscount + packet.arcount) first = some e

theorem parses_iff : Parses packet n e ↔ ∃ first answers authority additional,
    Layout packet n first answers authority additional e := by
  constructor
  · rintro ⟨first, hquestions, hrecords⟩
    obtain ⟨places, hlen, hlie⟩ := (skipSection_iff _).mp hrecords
    refine ⟨first, places.take packet.ancount, (places.drop packet.ancount).take packet.nscount,
      (places.drop packet.ancount).drop packet.nscount, hquestions, ?_, ?_, ?_, ?_⟩
    · rwa [List.append_assoc, List.take_append_drop, List.take_append_drop]
    · rw [List.length_take]
      omega
    · rw [List.length_take, List.length_drop]
      omega
    · rw [List.length_drop, List.length_drop]
      omega
  · rintro ⟨first, answers, authority, additional, h⟩
    refine ⟨first, h.questions, (skipSection_iff _).mpr ⟨_, ?_, h.records⟩⟩
    rw [List.length_append, List.length_append, h.ancount, h.nscount, h.arcount]

section Layout

variable {first : ℕ} {answers authority additional : List RecordPlace}

theorem mem_places (answers authority additional : List RecordPlace) :
    ∀ place ∈ answers, place ∈ answers ++ authority ++ additional :=
  fun _ hplace ↦ List.mem_append_left _ (List.mem_append_left _ hplace)

theorem Layout.first_le (h : Layout packet n first answers authority additional e) :
    headerSize ≤ first :=
  skipQuestions_ge h.questions

theorem Layout.front_same (h : Layout packet n first answers authority additional e)
    (hkeeps : Keeps answers (answers ++ authority ++ additional) packet packet') (hk : 4 ≤ k)
    (hkFirst : k ≤ first) : packet'.getD k 0 = packet.getD k 0 := by
  have hfixed := h.records.fixed_of_le hkFirst
  exact hkeeps.same k hk (fun place hplace ↦
    (hfixed place (mem_places answers authority additional place hplace)).1)
    fun place hplace ↦ (hfixed place hplace).2

theorem Layout.getShort_same (h : Layout packet n first answers authority additional e)
    (hkeeps : Keeps answers (answers ++ authority ++ additional) packet packet') {j : ℕ}
    (hj : 4 ≤ j) (hj' : j < 11) : packet'.getShort j = packet.getShort j := by
  have hfirst := h.first_le
  unfold headerSize at hfirst
  have hbyte : ∀ i, 4 ≤ i → i < 12 → packet'.getD i 0 = packet.getD i 0 :=
    fun i hi hi' ↦ h.front_same hkeeps hi (by omega)
  unfold Packet.getShort Packet.byte
  rw [hbyte j hj (by omega), hbyte (j + 1) (by omega) (by omega)]

theorem Layout.of_keeps (h : Layout packet n first answers authority additional e)
    (hkeeps : Keeps answers (answers ++ authority ++ additional) packet packet') (hend : e ≤ n') :
    Layout packet' n' first answers authority additional e := by
  have hle := h.records.le
  refine ⟨skipQuestions_same h.questions (fun k hk hkFirst ↦
    h.front_same hkeeps (four_le hk) hkFirst.le) (by omega),
    h.records.of_keeps (mem_places answers authority additional) h.first_le hkeeps hend, ?_, ?_, ?_⟩
  · rw [h.ancount, Packet.ancount, Packet.ancount, h.getShort_same hkeeps (by omega) (by omega)]
  · rw [h.nscount, Packet.nscount, Packet.nscount, h.getShort_same hkeeps (by omega) (by omega)]
  · rw [h.arcount, Packet.arcount, Packet.arcount, h.getShort_same hkeeps (by omega) (by omega)]

end Layout

/-! ### `find_soa` -/

section Walks

variable {opts : ReplyOptions} {answers places : List RecordPlace} {original cur : Packet}
    {first : ℕ}

theorem nameEnd_place {log : Bool} {place : RecordPlace} (h : RecordsLie cur n first places e)
    (hmem : place ∈ places)
    (hplain : log = true → EndsAt cur extractData place.start place.typeAt) :
    nameEnd n log cur place.start = none ∨ nameEnd n log cur place.start = some place.typeAt := by
  cases hname : nameEnd n log cur place.start with
  | none => exact .inl rfl
  | some q =>
    refine .inr (congrArg some ?_)
    cases log with
    | true => exact (nameEnd_endsAt hname).unique (hplain rfl)
    | false => exact Option.some.inj (hname.symm.trans (h.record hmem).1)

theorem doctored_keeps {place : RecordPlace} (h : RecordsLie cur n first places e)
    (hmem : place ∈ places) (hplain : PlainRecord opts cur n place) :
    Keeps answers places cur (doctored opts cur place.typeAt) := by
  by_cases haddr : isRecord cur place.typeAt typeA = true
  · have hkind : place.isAddr = true := (h.record hmem).2.2.trans haddr
    have hstop := hplain.addr hkind
    refine ⟨length_doctored opts cur place.typeAt, fun k hk _ haddressed ↦
      getD_doctored (by omega) fun hin ↦ ?_⟩
    exact haddressed place hmem ⟨hkind, by omega, by omega⟩
  · have hsame : doctored opts cur place.typeAt = cur := if_neg haddr
    rw [hsame]
    exact .refl answers places cur

theorem doDoctor_keeps (hsub : ∀ place ∈ answers, place ∈ places)
    (h : RecordsLie original n first places e) (hfirst : headerSize ≤ first) (he : e ≤ n)
    (hplain : ∀ place ∈ places, PlainRecord opts original n place) (named : Bool)
    (part : List RecordPlace) :
    ∀ {p m : ℕ} {cur : Packet}, RecordsLie original n p part m → (∀ place ∈ part, place ∈ places) →
      Keeps answers places original cur → Keeps answers places original
      (doDoctor opts n named part.length p cur).1 ∧
        ∀ last, (doDoctor opts n named part.length p cur).2 = some last → last = m := by
  induction part with
  | nil =>
    intro p m cur hpart _ hkeeps
    cases hpart
    exact ⟨hkeeps, fun last hlast ↦ (Option.some.inj hlast).symm⟩
  | cons place rest ih =>
    intro p m cur hpart hmem hkeeps
    have hplace := hmem place List.mem_cons_self
    have hcur := h.of_keeps hsub hfirst hkeeps he
    have hplainCur := (hplain place hplace).of_keeps hsub h hfirst hplace hkeeps
    cases hpart with
    | cons hname hstop hle haddr hrest =>
      have hdata : dataEnd cur place.typeAt = place.stop := (hcur.record hplace).2.1.symm
      rw [List.length_cons, doDoctor_succ, doctorStep]
      have hend : nameEnd n (named && opts.optLog) cur place.start = none ∨
          nameEnd n (named && opts.optLog) cur place.start = some place.typeAt :=
        nameEnd_place hcur hplace fun hlog ↦ hplainCur.name (Bool.and_eq_true_iff.mp hlog).2
      rcases hend with hend | hend
      · rw [hend]
        exact ⟨hkeeps, fun last hlast ↦ by cases hlast⟩
      · rw [hend]
        dsimp only
        by_cases hshort : isRecord cur place.typeAt typeA = true ∧ n < place.typeAt + 14
        · rw [if_pos hshort]
          exact ⟨hkeeps, fun last hlast ↦ by cases hlast⟩
        · rw [if_neg hshort, hdata, if_pos hle]
          exact ih hrest (fun other hother ↦ hmem other (List.mem_cons_of_mem _ hother))
            (hkeeps.trans (doctored_keeps hcur hplace hplainCur))

theorem soaLoop_lands (part : List RecordPlace) : ∀ {p m : ℕ}, RecordsLie cur n p part m →
    (∀ place ∈ part, PlainRecord opts cur n place) → ∀ {minttl : ℕ} {foundSoa : Bool}
    {result : ℕ × ℕ × Bool},
      soaLoop cur n part.length p minttl foundSoa = some result → result.1 = m := by
  induction part with
  | nil =>
    intro p m hpart _ minttl foundSoa result hloop
    cases hpart
    rw [← Option.some.inj hloop]
  | cons place rest ih =>
    intro p m hpart hplain minttl foundSoa result hloop
    cases hpart with
    | cons hname hstop hle haddr hrest =>
      have hlater := fun other hother ↦ hplain other (List.mem_cons_of_mem place hother)
      rw [List.length_cons] at hloop
      unfold soaLoop at hloop
      rw [hname] at hloop
      dsimp only at hloop
      by_cases hsoa : cur.getShort (place.typeAt + 2) =
        classIn ∧ cur.getShort place.typeAt = typeSoa
      · obtain ⟨q, last, hq, hlast, hend⟩ :=
          (hplain place List.mem_cons_self).soa (decide_eq_true hsoa.symm)
        rw [if_pos hsoa, hq, Option.bind_some, hlast] at hloop
        dsimp only at hloop
        rw [hend] at hloop
        exact ih hrest hlater hloop
      · rw [if_neg hsoa] at hloop
        split_ifs at hloop
        rw [hstop, dataEnd] at hrest
        exact ih hrest hlater hloop

variable {authority additional : List RecordPlace}

theorem doDoctor_nil (hdoctors : opts.doctors = []) (named : Bool) (count : ℕ) :
    ∀ (p : ℕ) (packet : Packet), (doDoctor opts n named count p packet).1 = packet := by
  have hsame : ∀ (packet : Packet) (q : ℕ), doctored opts packet q = packet := fun packet q ↦ by
    unfold doctored doctorRecord doctorAddr
    rw [hdoctors]
    split_ifs <;> rfl
  induction count with
  | zero => exact fun _ _ ↦ rfl
  | succ count ih =>
    intro p packet
    rw [doDoctor_succ]
    unfold doctorStep
    cases nameEnd n (named && opts.optLog) packet p with
    | none => rfl
    | some q =>
      dsimp only
      by_cases hshort : isRecord packet q typeA = true ∧ n < q + 14
      · rw [if_pos hshort]
      · rw [if_neg hshort, hsame]
        by_cases hwhole : dataEnd packet q ≤ n
        · rw [if_pos hwhole]
          exact ih _ _
        · rw [if_neg hwhole]

/-- The doctors have no effect, or they change addresses only. -/
def DoctorsPlain (opts : ReplyOptions) (packet : Packet) (n : ℕ) (places : List RecordPlace) :
    Prop :=
  opts.doctors = [] ∨ ∀ place ∈ places, PlainRecord opts packet n place

theorem findSoa_nil (hdoctors : opts.doctors = []) (named : Bool) (packet : Packet) :
    (findSoa opts n named packet).1 = packet := by
  have hnil : ∀ (named : Bool) (count p : ℕ) (packet : Packet),
    (doDoctor opts n named count p packet).1 = packet :=
    fun named count ↦ doDoctor_nil hdoctors named count
  unfold findSoa
  split
  · rfl
  · rename_i p _
    have hanswers := hnil named packet.ancount p packet
    split
    · rename_i hrun
      rw [hrun] at hanswers
      exact hanswers
    · rename_i between p' hrun
      rw [hrun] at hanswers
      obtain rfl : between = packet := hanswers
      split
      · rfl
      · rename_i p'' _ _ _
        have hadditional := hnil false between.arcount p'' between
        split
        · rename_i hrun'
          rw [hrun'] at hadditional
          exact hadditional
        · rename_i hrun'
          rw [hrun'] at hadditional
          exact hadditional

theorem findSoa_keeps (h : Layout original n first answers authority additional e) (he : e ≤ n)
    (hplain : DoctorsPlain opts original n (answers ++ authority ++ additional)) (named : Bool)
    (hkeeps : Keeps answers (answers ++ authority ++ additional) original cur) :
    Keeps answers (answers ++ authority ++ additional) original (findSoa opts n named cur).1 := by
  rcases hplain with hdoctors | hplain
  · rw [findSoa_nil hdoctors]
    exact hkeeps
  have hcur := h.of_keeps hkeeps he
  have hsub := mem_places answers authority additional
  obtain ⟨back, hfront, hadditional⟩ := RecordsLie.append_iff.mp h.records
  obtain ⟨middle, hanswers, hauthority⟩ := RecordsLie.append_iff.mp hfront
  have hbackLe := hadditional.le
  unfold findSoa
  rw [hcur.questions]
  dsimp only
  rw [← hcur.ancount]
  obtain ⟨hafter, hlast⟩ :=
    doDoctor_keeps hsub h.records h.first_le he hplain named answers hanswers hsub hkeeps
  generalize doDoctor opts n named answers.length first cur = doctored at hafter hlast
  obtain ⟨between, _ | p⟩ := doctored
  · exact hafter
  obtain rfl := hlast p rfl
  have hbetween := h.of_keeps hafter he
  dsimp only
  rw [← hbetween.nscount]
  have hlands : ∀ result, soaLoop between n authority.length p ulongMax false = some result →
    result.1 = back := by
    have hmem : ∀ place ∈ authority, place ∈ answers ++ authority ++ additional :=
      fun place hplace ↦ List.mem_append_left _ (List.mem_append_right _ hplace)
    exact fun result hresult ↦ soaLoop_lands authority
      (h.records.part_of_keeps hsub h.first_le hafter hauthority hmem (by omega))
      (fun place hplace ↦ (hplain place (hmem place hplace)).of_keeps hsub h.records h.first_le
        (hmem place hplace) hafter) hresult
  cases hsoa : soaLoop between n authority.length p ulongMax false with
  | none => exact hafter
  | some result =>
    obtain ⟨place, minttl, foundSoa⟩ := result
    obtain rfl : place = back := hlands _ hsoa
    dsimp only
    rw [← hbetween.arcount]
    have hend := (doDoctor_keeps hsub h.records h.first_le he hplain false additional hadditional
      (fun place hplace ↦ List.mem_append_right _ hplace) hafter).1
    generalize doDoctor opts n false additional.length place between = doctored at hend
    obtain ⟨final, _ | last⟩ := doctored
    · exact hend
    · exact hend

end Walks

end CrossBreeder.Dnsmasq
