import CrossBreeder.Dnsmasq.AnswerWalk

/-!
# Trimmed replies

`KeptByAnswers` is a property that `extract_addresses` keeps; there are two: the bytes in front of
the records, whatever the records are (`keptByAnswers_front`), and the layout of plain records
(`keptByAnswers_layout`).

`processReply_trims` says that the returned length is that of a packet, and that a reply that could
be read ends there. A reply with another code than `NOERROR` and `NXDOMAIN` is passed on with the
length it has, also if there is something behind its records (`not_endsExactly_servfail`).
-/

namespace CrossBreeder.Dnsmasq

open Foundation

/-! ### The two properties -/

variable {ctx : ReplyContext} {packet original : Packet} {n first e p : ℕ}

theorem readAnswer_some {name : List UInt8} {head : AnswerHead}
    (h : readAnswer ctx packet p name = some head) (data : ℕ → ℕ) :
    ∃ q, EndsAt packet data p q ∧ head.endrr = dataEnd head.packet q ∧
      head.packet.length = packet.length ∧
      ∀ k, ¬(q + 4 ≤ k ∧ k < q + 8) → head.packet.getD k 0 = packet.getD k 0 := by
  obtain ⟨⟨q, same⟩, hmatch, rfl⟩ := Option.map_eq_some_iff.mp h
  refine ⟨q, ?_, rfl, ?_, fun k hk ↦ ?_⟩
  · exact @leavesAt_endsAt_of packet ctx.qlen 10 false data p (fun h ↦ nomatch h) name q (by
      rw [leavesAt, if_neg Bool.false_ne_true, hmatch, Option.map_some])
  · dsimp only
    split_ifs
    · exact length_putLong _ _ _
    · rfl
  · dsimp only
    split_ifs
    · exact getD_putLong_of_not packet _ (by omega)
    · rfl

structure FrontKept (original : Packet) (first : ℕ) (packet : Packet) : Prop where
  length : packet.length = original.length
  same : ∀ k, 4 ≤ k → k < first → packet.getD k 0 = original.getD k 0

variable {opts : ReplyOptions}

theorem FrontKept.doDoctor (h : FrontKept original first packet) (named : Bool) (count : ℕ)
    (hp : first ≤ p) : FrontKept original first (doDoctor opts n named count p packet).1 := by
  refine ⟨(length_doDoctor count p packet).trans h.length, fun k hk hkFirst ↦ ?_⟩
  rw [getD_doDoctor count (by omega) (by omega)]
  exact h.same k hk hkFirst

theorem doDoctor_ge (named : Bool) (count : ℕ) : ∀ {p last : ℕ} {packet : Packet},
    (doDoctor opts n named count p packet).2 = some last → p ≤ last := by
  induction count with
  | zero => exact fun h ↦ (Option.some.inj h).le
  | succ count ih =>
    intro p last packet h
    rw [doDoctor_succ] at h
    cases hstep : doctorStep opts n (named && opts.optLog) packet p with
    | mk between next =>
      rw [hstep] at h
      cases next with
      | none => cases h
      | some next =>
        obtain ⟨q, hname, -, -, -, rfl⟩ := doctorStep_eq_some hstep
        have hlt := (nameEnd_endsAt hname).lt
        have hle := ih h
        rw [dataEnd] at hle
        omega

theorem soaLoop_ge (count : ℕ) : ∀ {p minttl : ℕ} {foundSoa : Bool} {result : ℕ × ℕ × Bool},
    soaLoop packet n count p minttl foundSoa = some result → p ≤ result.1 := by
  induction count with
  | zero =>
    intro p minttl foundSoa result h
    rw [← Option.some.inj h]
  | succ count ih =>
    intro p minttl foundSoa result h
    unfold soaLoop at h
    cases hname : skipName packet n p 10 with
    | none =>
      rw [hname] at h
      cases h
    | some q =>
      have hlt := skipName_lt hname
      rw [hname] at h
      dsimp only at h
      split_ifs at h with hsoa hcheck
      · split at h
        · cases h
        · rename_i last hnames
          obtain ⟨between, hfirst, hsecond⟩ := Option.bind_eq_some_iff.mp hnames
          have hfirstLt := skipName_lt hfirst
          have hsecondLt := skipName_lt hsecond
          have hle := ih h
          omega
      · have hle := ih h
        omega

theorem FrontKept.findSoa (h : FrontKept original first packet)
    (hquestions : ∀ p, skipQuestions packet n = some p → first ≤ p) (named : Bool) :
    FrontKept original first (findSoa opts n named packet).1 := by
  unfold Dnsmasq.findSoa
  cases hskip : skipQuestions packet n with
  | none => exact h
  | some start =>
  have hstart := hquestions start hskip
  dsimp only
  have hanswers :
    FrontKept original first (Dnsmasq.doDoctor opts n named packet.ancount start packet).1 :=
    h.doDoctor named packet.ancount hstart
  have hlast : ∀ last, (Dnsmasq.doDoctor opts n named packet.ancount start packet).2 = some last →
    first ≤ last :=
    fun last hlast ↦ hstart.trans (doDoctor_ge named packet.ancount hlast)
  generalize Dnsmasq.doDoctor opts n named packet.ancount start packet = doctored at hanswers hlast
  obtain ⟨between, _ | p⟩ := doctored
  · exact hanswers
  have hp := hlast p rfl
  dsimp only
  cases hsoa : soaLoop between n between.nscount p ulongMax false with
  | none => exact hanswers
  | some result =>
    have hge := soaLoop_ge _ hsoa
    have hadditional :
      FrontKept original first (Dnsmasq.doDoctor opts n false between.arcount result.1 between).1 :=
      hanswers.doDoctor false between.arcount (by omega)
    dsimp only
    generalize Dnsmasq.doDoctor opts n false between.arcount result.1 between =
      doctored at hadditional
    obtain ⟨final, _ | last⟩ := doctored
    · exact hadditional
    · exact hadditional

theorem keptByAnswers_front (h : skipQuestions original ctx.qlen = some first)
    (hle : first ≤ ctx.qlen) :
    KeptByAnswers ctx (FrontKept original first) fun _ p ↦ first ≤ p where
  soa named packet hfront := by
    have hsame : skipQuestions packet ctx.qlen = some first :=
      skipQuestions_same h (fun k hk ↦ hfront.same k (four_le hk)) hle
    exact hfront.findSoa (fun p hp ↦ (Option.some.inj (hsame.symm.trans hp)).le) named
  start packet p hfront hquestions := by
    have hsame : skipQuestions packet ctx.qlen = some first :=
      skipQuestions_same h (fun k hk ↦ hfront.same k (four_le hk)) hle
    exact (Option.some.inj (hsame.symm.trans hquestions)).le
  read count packet p name head hfront hp hread := by
    obtain ⟨q, hname, hend, hlength, hsame⟩ := readAnswer_some hread skipData
    have hlt := hname.lt
    rw [dataEnd] at hend
    refine ⟨⟨hlength.trans hfront.length, fun k hk hkFirst ↦ ?_⟩, by omega⟩
    rw [hsame k (by omega)]
    exact hfront.same k hk hkFirst

theorem keptByAnswers_layout {answers authority additional : List RecordPlace}
    (h : Layout original ctx.qlen first answers authority additional e) (he : e ≤ ctx.qlen)
    (hplain : DoctorsPlain ctx.opts original ctx.qlen (answers ++ authority ++ additional)) :
    KeptByAnswers ctx (Keeps answers (answers ++ authority ++ additional) original) fun count p ↦
      ∃ part m, part.length = count ∧ RecordsLie original ctx.qlen p part m ∧
      ∀ place ∈ part, place ∈ answers where
  soa named packet hkeeps := findSoa_keeps h he hplain named hkeeps
  start packet p hkeeps hquestions := by
    have hlayout := h.of_keeps hkeeps he
    obtain rfl := Option.some.inj (hlayout.questions.symm.trans hquestions)
    obtain ⟨back, hfront, -⟩ := RecordsLie.append_iff.mp h.records
    obtain ⟨middle, hanswers, -⟩ := RecordsLie.append_iff.mp hfront
    exact ⟨answers, middle, hlayout.ancount, hanswers, fun _ hplace ↦ hplace⟩
  read count packet p name head hkeeps hat hread := by
    obtain ⟨part, m, hlen, hpart, hmem⟩ := hat
    cases hpart with
    | nil => cases hlen
    | @cons place rest _ hname hstop hle haddr hrest =>
      have hplace : place ∈ answers := hmem place List.mem_cons_self
      have hsub := mem_places answers authority additional
      obtain ⟨q, hends, hend, hlength, hsame⟩ := readAnswer_some hread skipData
      have hrecord := (h.records.of_keeps hsub h.first_le hkeeps he).record (hsub place hplace)
      obtain rfl : q = place.typeAt := hends.unique (skipName_endsAt hrecord.1)
      have hnow : Keeps answers (answers ++ authority ++ additional) packet head.packet :=
        ⟨hlength, fun k _ htimed _ ↦ hsame k fun hin ↦ htimed place hplace hin⟩
      refine ⟨hkeeps.trans hnow, rest, m, Nat.succ.inj hlen, ?_, fun other hother ↦
        hmem other (List.mem_cons_of_mem _ hother)⟩
      have hlater :=
        ((h.records.of_keeps hsub h.first_le (hkeeps.trans hnow) he).record (hsub place hplace)).2.1
      rw [hend, ← hlater]
      exact hrest

/-! ### The pseudoheader -/

/-- The last pseudoheader among some records. -/
def lastOpt (packet : Packet) (places : List RecordPlace) : Option RecordPlace :=
  (places.filter fun place ↦ packet.getShort place.typeAt = typeOpt).getLast?

/-- What `find_pseudoheader` returns for a record. -/
def RecordPlace.pseudoheader (place : RecordPlace) : Pseudoheader :=
  ⟨place.start, place.stop - place.start, place.typeAt + 2⟩

theorem signQuestions_fst (count : ℕ) : ∀ {p : ℕ} {isSign : Bool},
    (signQuestions packet n count p isSign).1 = skipQuestionsLoop packet n count p := by
  induction count with
  | zero => exact rfl
  | succ count ih =>
    intro p isSign
    unfold signQuestions skipQuestionsLoop
    cases skipName packet n p 4 with
    | none => rfl
    | some q => exact ih

theorem lastOpt_cons (packet : Packet) (place : RecordPlace) (places : List RecordPlace) :
    lastOpt packet (place :: places) = (lastOpt packet places).or
      (if packet.getShort place.typeAt = typeOpt then some place else none) := by
  unfold lastOpt
  by_cases hopt : packet.getShort place.typeAt = typeOpt
  · rw [List.filter_cons_of_pos (by simpa using hopt), if_pos hopt, List.getLast?_cons]
    cases (places.filter fun place ↦ decide (packet.getShort place.typeAt = typeOpt)).getLast? <;>
      rfl
  · rw [List.filter_cons_of_neg (by simpa using hopt), if_neg hopt, Option.or_none]

theorem pseudoheaderLoop_fst (part : List RecordPlace) :
    ∀ {p m : ℕ} {ret : Option Pseudoheader} {isSign : Bool}, RecordsLie packet n p part m →
      (pseudoheaderLoop packet n part.length p ret isSign).1 =
      ((lastOpt packet part).map RecordPlace.pseudoheader).or ret := by
  induction part with
  | nil => exact fun _ ↦ rfl
  | cons place rest ih =>
    intro p m ret isSign hpart
    cases hpart with
    | cons hname hstop hle haddr hrest =>
      have hcheck : ¬checkLen n (place.typeAt + 10) (packet.getShort (place.typeAt + 8)) =
        false := by
        rw [hstop, dataEnd] at hle
        simp [checkLen, hle]
      rw [hstop, dataEnd] at hrest
      rw [List.length_cons]
      unfold pseudoheaderLoop
      rw [hname, lastOpt_cons]
      dsimp only
      rw [if_neg hcheck]
      split_ifs with hopt
      · rw [ih hrest]
        have hhere :
          (⟨place.start, place.typeAt + 10 + packet.getShort (place.typeAt + 8) - place.start,
            place.typeAt + 2⟩ : Pseudoheader) = place.pseudoheader := by
          rw [RecordPlace.pseudoheader, hstop, dataEnd]
        rw [hhere]
        cases lastOpt packet rest <;> rfl
      · rw [ih hrest, Option.or_none]

theorem pseudoheaderLoop_some (count : ℕ) : ∀ {p : ℕ} {ret : Option Pseudoheader} {isSign : Bool}
    {found : Pseudoheader},
    (pseudoheaderLoop packet n count p ret isSign).1 = some found →
      ∃ m, skipSection packet n count p = some m := by
  induction count with
  | zero => exact fun {p} _ _ _ _ ↦ ⟨p, rfl⟩
  | succ count ih =>
    intro p ret isSign found h
    unfold pseudoheaderLoop at h
    unfold skipSection
    cases hname : skipName packet n p 10 with
    | none =>
      rw [hname] at h
      cases h
    | some q =>
      rw [hname] at h
      dsimp only at h ⊢
      by_cases hcheck : checkLen n (q + 10) (packet.getShort (q + 8)) = false
      · rw [if_pos hcheck] at h
        cases h
      · rw [if_neg hcheck] at h
        rw [if_pos (Bool.eq_true_of_not_eq_false hcheck)]
        split_ifs at h
        · exact ih h
        · exact ih h

theorem findPseudoheader_eq (hopcode : packet.opcode = 0) :
    (findPseudoheader packet n).1 = (skipQuestions packet n).bind fun first ↦
      if packet.arcount = 0 then none
      else (skipSection packet n (packet.ancount + packet.nscount) first).bind fun ansp ↦
        (pseudoheaderLoop packet n packet.arcount ansp none
        (signQuestions packet n packet.qdcount headerSize false).2).1 := by
  have hquestions : (signQuestions packet n packet.qdcount headerSize false).1 =
    skipQuestions packet n :=
    signQuestions_fst packet.qdcount
  unfold findPseudoheader
  rw [if_pos hopcode, ← hquestions]
  generalize signQuestions packet n packet.qdcount headerSize false = questions
  obtain ⟨_ | first, isSign⟩ := questions
  · rfl
  · dsimp only [Option.bind_some]
    split_ifs
    · rfl
    · cases skipSection packet n (packet.ancount + packet.nscount) first <;> rfl

theorem pseudoheaderLoop_ge (count : ℕ) : ∀ {p : ℕ} {ret : Option Pseudoheader} {isSign : Bool}
    {found : Pseudoheader},
    (pseudoheaderLoop packet n count p ret isSign).1 = some found → ret = some found ∨
      p ≤ found.sizep := by
  induction count with
  | zero => exact fun h ↦ .inl h
  | succ count ih =>
    intro p ret isSign found h
    unfold pseudoheaderLoop at h
    cases hname : skipName packet n p 10 with
    | none =>
      rw [hname] at h
      cases h
    | some q =>
      have hlt := skipName_lt hname
      rw [hname] at h
      dsimp only at h
      split_ifs at h
      · rcases ih h with hhere | hlater
        · obtain rfl := Option.some.inj hhere
          exact .inr (by dsimp only; omega)
        · exact .inr (by omega)
      · exact (ih h).imp id fun hlater ↦ by omega

theorem findPseudoheader_ge {found : Pseudoheader}
    (hfound : (findPseudoheader packet n).1 = some found) : headerSize ≤ found.sizep := by
  have hquestions :
    ∀ first, (if packet.opcode = 0 then signQuestions packet n packet.qdcount headerSize false
      else (some headerSize, false)).1 = some first → headerSize ≤ first := by
    intro first hfirst
    split_ifs at hfirst
    · rw [signQuestions_fst] at hfirst
      exact skipQuestions_ge hfirst
    · exact (Option.some.inj hfirst).le
  unfold findPseudoheader at hfound
  generalize (if packet.opcode = 0 then signQuestions packet n packet.qdcount headerSize false
    else (some headerSize, false)) = questions at hquestions hfound
  obtain ⟨_ | first, isSign⟩ := questions
  · cases hfound
  · have hfirst := hquestions first rfl
    dsimp only at hfound
    split_ifs at hfound
    cases hsection : skipSection packet n (packet.ancount + packet.nscount) first with
    | none =>
      rw [hsection] at hfound
      cases hfound
    | some ansp =>
      rw [hsection] at hfound
      have hle := skipSection_ge _ hsection
      rcases pseudoheaderLoop_ge _ hfound with hnone | hlater
      · cases hnone
      · omega

section Find

variable {answers authority additional : List RecordPlace}

theorem findPseudoheader_layout (hopcode : packet.opcode = 0)
    (h : Layout packet n first answers authority additional e) :
    (findPseudoheader packet n).1 = (lastOpt packet additional).map RecordPlace.pseudoheader := by
  obtain ⟨back, hfront, hadditional⟩ := RecordsLie.append_iff.mp h.records
  have hsection : skipSection packet n (packet.ancount + packet.nscount) first = some back :=
    (skipSection_iff _).mpr ⟨answers ++ authority,
      by rw [List.length_append, h.ancount, h.nscount], hfront⟩
  rw [findPseudoheader_eq hopcode, h.questions, Option.bind_some, hsection, Option.bind_some,
    ← h.arcount]
  split_ifs with hnone
  · obtain rfl := List.length_eq_zero_iff.mp hnone
    rfl
  · rw [pseudoheaderLoop_fst additional hadditional, Option.or_none]

theorem findPseudoheader_some {found : Pseudoheader} (hopcode : packet.opcode = 0)
    (hfound : (findPseudoheader packet n).1 = some found) : ∃ e, Parses packet n e := by
  rw [findPseudoheader_eq hopcode] at hfound
  obtain ⟨first, hquestions, hfound⟩ := Option.bind_eq_some_iff.mp hfound
  split_ifs at hfound
  obtain ⟨back, hfront, hfound⟩ := Option.bind_eq_some_iff.mp hfound
  obtain ⟨e, hadditional⟩ := pseudoheaderLoop_some _ hfound
  obtain ⟨front, hlenFront, hlieFront⟩ := (skipSection_iff _).mp hfront
  obtain ⟨rest, hlenRest, hlieRest⟩ := (skipSection_iff _).mp hadditional
  refine ⟨e, first, hquestions, (skipSection_iff _).mpr ⟨front ++ rest, ?_,
    RecordsLie.append_iff.mpr ⟨back, hlieFront, hlieRest⟩⟩⟩
  rw [List.length_append, hlenFront, hlenRest]

end Find

/-! ### What is trimmed first -/

theorem length_putShort (packet : Packet) (p value : ℕ) :
    (packet.putShort p value).length = packet.length :=
  Packet.length_put _ _ _

theorem getD_putShort_of_not (packet : Packet) {k p : ℕ} (value : ℕ) (hk : ¬(p ≤ k ∧ k < p + 2)) :
    (packet.putShort p value).getD k 0 = packet.getD k 0 := by
  rw [Packet.putShort, Packet.getD_put]
  exact if_neg fun hin ↦ hk ⟨hin.1, by simpa using hin.2.1⟩

/-- The size in the pseudoheader is lowered, if it is to be. -/
def lowerSize (opts : ProcessOptions) (packet : Packet) (pheader : Option Pseudoheader)
    (isSign : Bool) : Packet :=
  match pheader with
  | none => packet
  | some pheader =>
    if isSign = false ∧ opts.ednsPktsz < packet.getShort pheader.sizep then
      packet.putShort pheader.sizep opts.ednsPktsz
    else packet

theorem trimReply_eq (opts : ProcessOptions) (packet : Packet) (pheader : Option Pseudoheader)
    (isSign : Bool) : trimReply opts packet pheader isSign =
      if isSign = false ∧ opts.optDnssec = false then
        (lowerSize opts packet pheader isSign).set 3
        ((lowerSize opts packet pheader isSign).getD 3 0 &&& 0xdf)
      else lowerSize opts packet pheader isSign := rfl

theorem length_lowerSize (opts : ProcessOptions) (packet : Packet) (pheader : Option Pseudoheader)
    (isSign : Bool) : (lowerSize opts packet pheader isSign).length = packet.length := by
  unfold lowerSize
  split
  · rfl
  · split_ifs
    · exact length_putShort _ _ _
    · rfl

theorem length_trimReply (opts : ProcessOptions) (packet : Packet) (pheader : Option Pseudoheader)
    (isSign : Bool) : (trimReply opts packet pheader isSign).length = packet.length := by
  rw [trimReply_eq]
  split_ifs
  · rw [List.length_set, length_lowerSize]
  · exact length_lowerSize _ _ _ _

variable {pheader : Option Pseudoheader}

variable {k : ℕ}

theorem getD_trimReply {opts : ProcessOptions} {packet : Packet} {isSign : Bool}
    (hk : k ≠ 3)
    (hsize : ∀ found, pheader = some found → ¬(found.sizep ≤ k ∧ k < found.sizep + 2)) :
    (trimReply opts packet pheader isSign).getD k 0 = packet.getD k 0 := by
  have hlower : (lowerSize opts packet pheader isSign).getD k 0 = packet.getD k 0 := by
    unfold lowerSize
    split
    · rfl
    · rename_i found
      split_ifs
      · exact getD_putShort_of_not packet _ (hsize found rfl)
      · rfl
  rw [trimReply_eq]
  split_ifs
  · rw [Packet.getD_set, if_neg (by rintro ⟨rfl, -⟩; exact hk rfl), hlower]
  · exact hlower

variable {place : RecordPlace}

section Trim

variable {opts : ProcessOptions} {answers authority additional : List RecordPlace}

theorem getD_trimmedReply (hopcode : packet.opcode = 0)
    (h : Layout packet n first answers authority additional e) (hk : k ≠ 3)
    (hsize : ∀ place, lastOpt packet additional = some place →
      ¬(place.typeAt + 2 ≤ k ∧ k < place.typeAt + 4)) :
    (trimmedReply opts packet n).getD k 0 = packet.getD k 0 := by
  refine getD_trimReply hk fun found hfound ↦ ?_
  rw [findPseudoheader_layout hopcode h] at hfound
  obtain ⟨place, hplace, rfl⟩ := Option.map_eq_some_iff.mp hfound
  exact hsize place hplace

theorem lastOpt_mem {packet : Packet} {places : List RecordPlace}
    (h : lastOpt packet places = some place) :
    place ∈ places ∧ packet.getShort place.typeAt = typeOpt := by
  have hmem := List.mem_of_getLast? h
  rw [List.mem_filter] at hmem
  exact ⟨hmem.1, by simpa using hmem.2⟩

theorem trimmedReply_record (hopcode : packet.opcode = 0)
    (h : Layout packet n first answers authority additional e)
    (hplace : place ∈ answers ++ authority ++ additional) (hstart : place.start ≤ k)
    (hk : k < place.stop) (hother : lastOpt packet additional = some place →
      ¬(place.typeAt + 2 ≤ k ∧ k < place.typeAt + 4)) :
    (trimmedReply opts packet n).getD k 0 = packet.getD k 0 := by
  have hfirst := h.first_le
  have hbounds := h.records.bounds hplace
  unfold headerSize at hfirst
  refine getD_trimmedReply hopcode h (by omega) fun found hfound ↦ ?_
  have hmem := List.mem_append_right (answers ++ authority) (lastOpt_mem hfound).1
  have hfoundBounds := h.records.bounds hmem
  rcases h.records.separate hplace hmem with rfl | hin | hin
  · exact hother hfound
  · omega
  · omega

theorem trimmedReply_isRecord (hopcode : packet.opcode = 0)
    (h : Layout packet n first answers authority additional e)
    (hplace : place ∈ answers ++ authority ++ additional) {type : ℕ} (htype : type ≠ typeOpt) :
    isRecord (trimmedReply opts packet n) place.typeAt type =
      isRecord packet place.typeAt type := by
  have hbounds := h.records.bounds hplace
  have hkind : (trimmedReply opts packet n).getShort place.typeAt =
    packet.getShort place.typeAt := by
    unfold Packet.getShort Packet.byte
    rw [trimmedReply_record hopcode h hplace (by omega) (by omega) (by omega),
      trimmedReply_record hopcode h hplace (by omega) (by omega) (by omega)]
  by_cases hopt : lastOpt packet additional = some place
  · have hnot : packet.getShort place.typeAt ≠ type := by
      rw [(lastOpt_mem hopt).2]
      exact htype.symm
    unfold isRecord
    rw [hkind, decide_eq_false fun hin ↦ hnot hin.1, decide_eq_false fun hin ↦ hnot hin.1]
  · have hclass : (trimmedReply opts packet n).getShort (place.typeAt + 2) =
      packet.getShort (place.typeAt + 2) := by
      unfold Packet.getShort Packet.byte
      rw [trimmedReply_record hopcode h hplace (by omega) (by omega) fun hin ↦ absurd hin hopt,
        trimmedReply_record hopcode h hplace (by omega) (by omega) fun hin ↦ absurd hin hopt]
    unfold isRecord
    rw [hkind, hclass]

theorem Layout.le_bound (h : Layout packet n first answers authority additional e)
    (hn : headerSize ≤ n) :
    first ≤ n ∧ e ≤ n :=
  ⟨skipQuestions_le h.questions hn, h.records.le_bound (skipQuestions_le h.questions hn)⟩

theorem Layout.trimmed (hopcode : packet.opcode = 0) (hn : headerSize ≤ n)
    (h : Layout packet n first answers authority additional e) :
    Layout (trimmedReply opts packet n) n first answers authority additional e := by
  have hfirst := h.first_le
  unfold headerSize at hfirst
  have hfront : ∀ k, k ≠ 3 → k < first → (trimmedReply opts packet n).getD k 0 = packet.getD k 0 :=
    fun k hk hkFirst ↦ by
    refine getD_trimmedReply hopcode h hk fun place hplace ↦ ?_
    have hbounds :=
      h.records.bounds (List.mem_append_right (answers ++ authority) (lastOpt_mem hplace).1)
    omega
  have hcount : ∀ j, 4 ≤ j → j < 11 → (trimmedReply opts packet n).getShort j = packet.getShort j :=
    fun j hj hj' ↦ by
    unfold Packet.getShort Packet.byte
    rw [hfront j (by omega) (by omega), hfront (j + 1) (by omega) (by omega)]
  obtain ⟨hfirstLe, hle⟩ := h.le_bound hn
  refine ⟨skipQuestions_same h.questions (fun k hk hkFirst ↦
    hfront k (by have := four_le hk; omega) hkFirst) hfirstLe,
    h.records.same (fun place hplace k hstart hk ↦ ?_) (fun place hplace ↦ ?_) (fun place hplace ↦
      ?_) hle, ?_, ?_, ?_⟩
  · have hbounds := h.records.bounds hplace
    exact trimmedReply_record hopcode h hplace hstart (by omega) fun _ ↦ by omega
  · have hbounds := h.records.bounds hplace
    unfold Packet.getShort Packet.byte
    rw [trimmedReply_record hopcode h hplace (by omega) (by omega) fun _ ↦ by omega,
      trimmedReply_record hopcode h hplace (by omega) (by omega) fun _ ↦ by omega]
  · exact trimmedReply_isRecord hopcode h hplace (by decide)
  · rw [h.ancount, Packet.ancount, Packet.ancount, hcount 6 (by omega) (by omega)]
  · rw [h.nscount, Packet.nscount, Packet.nscount, hcount 8 (by omega) (by omega)]
  · rw [h.arcount, Packet.arcount, Packet.arcount, hcount 10 (by omega) (by omega)]

theorem DoctorsPlain.trimmed {replyOpts : ReplyOptions} (hopcode : packet.opcode = 0)
    (h : Layout packet n first answers authority additional e)
    (hplain : DoctorsPlain replyOpts packet n (answers ++ authority ++ additional)) :
    DoctorsPlain replyOpts (trimmedReply opts packet n) n (answers ++ authority ++ additional) := by
  refine hplain.imp id fun hplain place hplace ↦ ?_
  have hbounds := h.records.bounds hplace
  refine ⟨(hplain place hplace).addr, fun hsoa ↦ ?_, fun hlog ↦ ?_⟩
  · rw [trimmedReply_isRecord hopcode h hplace (by decide)] at hsoa
    obtain ⟨q, last, hq, hlast, hstop⟩ := (hplain place hplace).soa hsoa
    have hqLt := skipName_lt hq
    have hlastLt := skipName_lt hlast
    have hdata : ∀ k, place.typeAt + 10 ≤ k → k < place.stop →
        (trimmedReply opts packet n).getD k 0 = packet.getD k 0 :=
      fun k hk hkStop ↦ trimmedReply_record hopcode h hplace (by omega) hkStop fun _ ↦ by omega
    refine ⟨q, last, skipName_same hq (fun k hk hkq ↦
      hdata k hk (by omega)) (skipName_le hq), ?_, hstop⟩
    exact skipName_same hlast (fun k hk hkLast ↦ hdata k (by omega) (by omega)) (skipName_le hlast)
  · exact ((hplain place hplace).name hlog).same fun k hk hkq ↦
      trimmedReply_record hopcode h hplace hk (by omega) fun _ ↦ by omega

theorem rcode_trimReply (opts : ProcessOptions) (packet : Packet) (pheader : Option Pseudoheader)
    (isSign : Bool) (hsize : ∀ found, pheader = some found → headerSize ≤ found.sizep) :
    (trimReply opts packet pheader isSign).opcode = packet.opcode ∧
      (trimReply opts packet pheader isSign).rcode = packet.rcode := by
  have hlower : ∀ k < 12, (lowerSize opts packet pheader isSign).getD k 0 = packet.getD k 0 :=
    fun k hk ↦ by
    unfold lowerSize
    split
    · rfl
    · rename_i found
      have hfound := hsize found rfl
      unfold headerSize at hfound
      split_ifs
      · exact getD_putShort_of_not packet _ (by omega)
      · rfl
  have hcode : ∀ byte : UInt8, (byte &&& 0xdf).toNat &&& 0x0f = byte.toNat &&& 0x0f := fun byte ↦ by
    rw [UInt8.toNat_and, Nat.and_assoc]
    rfl
  constructor
  · have hbyte : (trimReply opts packet pheader isSign).getD 2 0 = packet.getD 2 0 := by
      refine getD_trimReply (by decide) fun found hfound ↦ ?_
      have hfound := hsize found hfound
      unfold headerSize at hfound
      omega
    unfold Packet.opcode Packet.hb3 Packet.byte
    rw [hbyte]
  · unfold Packet.rcode Packet.hb4 Packet.byte
    rw [trimReply_eq]
    split_ifs
    · rw [Packet.getD_set]
      split_ifs
      · rw [hcode, hlower 3 (by decide)]
      · rw [hlower 3 (by decide)]
    · rw [hlower 3 (by decide)]

end Trim

/-! ### What is screened -/

section Screen

variable {env : Env} {opts : ProcessOptions} {now : ℤ} {isSign checkRebind checkingDisabled : Bool}
    {session : Session}
variable {Holds : Packet → Prop} {At : ℕ → ℕ → Prop}

/-- Screening keeps what `extract_addresses` keeps and what the flags of the header do not matter
for. -/
theorem screenReply_kept
    (hkept : KeptByAnswers ⟨opts.reply, n, now, isSign, checkRebind, checkingDisabled⟩ Holds At)
    (hflags : ∀ (packet : Packet) (k : ℕ) (byte : UInt8), k < 4 → Holds packet →
      Holds (packet.set k byte))
    (h : Holds packet) :
    Holds (screenReply env opts packet n now isSign checkRebind checkingDisabled session).2.1 := by
  have hlocal : Holds (mungeLocal env opts packet n now session).2.1 := by
    unfold mungeLocal
    split
    · exact h
    · split
      · exact h
      · exact hflags _ _ _ (by decide) (hflags _ _ _ (by decide) h)
  unfold screenReply
  split
  · exact hflags _ _ _ (by decide) (hflags _ _ _ (by decide) h)
  · dsimp only
    exact hkept.extractAddresses hlocal _

theorem FrontKept.set (h : FrontKept original first packet) (hk : k < 4) (byte : UInt8) :
    FrontKept original first (packet.set k byte) := by
  refine ⟨List.length_set.trans h.length, fun j hj hjFirst ↦ ?_⟩
  rw [Packet.getD_set, if_neg (by omega)]
  exact h.same j hj hjFirst

theorem Keeps.set {answers places : List RecordPlace} (h : Keeps answers places original packet)
    (hk : k < 4) (byte : UInt8) : Keeps answers places original (packet.set k byte) := by
  refine ⟨List.length_set.trans h.length, fun j hj htimed haddressed ↦ ?_⟩
  rw [Packet.getD_set, if_neg (by omega)]
  exact h.same j hj htimed haddressed

end Screen

/-! ### The new length -/

theorem skipSection_le (count : ℕ) : ∀ {p e : ℕ}, skipSection packet n count p = some e →
    p ≤ n → e ≤ n := by
  intro p e h hp
  obtain ⟨places, -, hlie⟩ := (skipSection_iff count).mp h
  exact hlie.le_bound hp

theorem resizePacket_le (hn : headerSize ≤ n) (hstays : pheader = none ∨ packet.arcount ≠ 0) :
    headerSize ≤ (resizePacket packet n pheader).2 ∧ (resizePacket packet n pheader).2 ≤ n := by
  unfold resizePacket
  cases hquestions : skipQuestions packet n with
  | none => exact ⟨hn, le_rfl⟩
  | some ansp =>
    have hge := skipQuestions_ge hquestions
    have hle := skipQuestions_le hquestions hn
    dsimp only
    cases hsection : skipSection packet n (packet.ancount + packet.nscount + packet.arcount) ansp
      with
    | none => exact ⟨hn, le_rfl⟩
    | some last =>
      have hlast := skipSection_ge _ hsection
      have hlastLe := skipSection_le _ hsection hle
      cases pheader with
      | none => exact ⟨hge.trans hlast, hlastLe⟩
      | some pheader =>
        dsimp only
        rw [if_neg (hstays.resolve_left (by simp))]
        exact ⟨hge.trans hlast, hlastLe⟩

theorem getD_dropRecords (packet : Packet) (hk : k < 6 ∨ headerSize ≤ k) :
    packet.dropRecords.getD k 0 = packet.getD k 0 := by
  unfold headerSize at hk
  unfold Packet.dropRecords
  rw [getD_putShort_of_not _ _
    (by omega), getD_putShort_of_not _ _ (by omega), getD_putShort_of_not _ _ (by omega)]

theorem length_dropRecords (packet : Packet) : packet.dropRecords.length = packet.length := by
  unfold Packet.dropRecords
  rw [length_putShort, length_putShort, length_putShort]

theorem getShort_putShort_zero (packet : Packet) (p : ℕ) :
    (packet.putShort p 0).getShort p = 0 := by
  have hbyte : ∀ k, p ≤ k → k < p + 2 → (packet.putShort p 0).getD k 0 = 0 := fun k hk hk' ↦ by
    rw [Packet.putShort, Packet.getD_put]
    split_ifs with hin
    · obtain rfl | rfl : k = p ∨ k = p + 1 := by omega
      · rw [Nat.sub_self]
        rfl
      · rw [Nat.add_sub_cancel_left]
        rfl
    · exact List.getD_eq_default _ _
        (by simp only [List.length_cons, List.length_nil] at hin; omega)
  unfold Packet.getShort Packet.byte
  rw [hbyte p le_rfl (by omega), hbyte (p + 1) (by omega) (by omega)]
  rfl

theorem getShort_putShort_of_not (packet : Packet) {p q : ℕ} (value : ℕ)
    (hq : q + 2 ≤ p ∨ p + 2 ≤ q) : (packet.putShort p value).getShort q = packet.getShort q := by
  unfold Packet.getShort Packet.byte
  rw [getD_putShort_of_not _ _ (by omega), getD_putShort_of_not _ _ (by omega)]

theorem counts_dropRecords (packet : Packet) :
    packet.dropRecords.ancount = 0 ∧ packet.dropRecords.nscount = 0 ∧
      packet.dropRecords.arcount = 0 := by
  refine ⟨ancount_dropRecords packet, ?_, getShort_putShort_zero _ 10⟩
  unfold Packet.nscount Packet.dropRecords
  rw [getShort_putShort_of_not _ _ (by omega)]
  exact getShort_putShort_zero _ 8

/-! ### The pseudoheader that is put back -/

theorem getShort_putShort (packet : Packet) {p value : ℕ} (hvalue : value < 65536)
    (hlen : p + 2 ≤ packet.length) : (packet.putShort p value).getShort p = value := by
  have hhigh : (packet.putShort p value).getD p 0 = UInt8.ofNat (value / 256) := by
    rw [Packet.putShort, Packet.getD_put,
      if_pos (by simp only [List.length_cons, List.length_nil]; omega), Nat.sub_self]
    rfl
  have hlow : (packet.putShort p value).getD (p + 1) 0 = UInt8.ofNat value := by
    rw [Packet.putShort, Packet.getD_put,
      if_pos (by simp only [List.length_cons, List.length_nil]; omega), Nat.add_sub_cancel_left]
    rfl
  unfold Packet.getShort Packet.byte
  rw [hhigh, hlow, UInt8.toNat_ofNat', UInt8.toNat_ofNat']
  omega

/-- A pseudoheader is the only additional record of a packet, the same but for its UDP size, which
may have been lowered. -/
structure RecordRestored (ednsPktsz : ℕ) (packet : Packet) (place : RecordPlace) (packet' : Packet)
    (first : ℕ) : Prop where
  ancount : packet'.ancount = 0
  nscount : packet'.nscount = 0
  arcount : packet'.arcount = 1
  same : ∀ j, place.start + j < place.stop →
    ¬(place.typeAt + 2 ≤ place.start + j ∧ place.start + j < place.typeAt + 4) →
    packet'.getD (first + j) 0 = packet.getD (place.start + j) 0
  size : packet'.getShort (first + (place.typeAt + 2 - place.start)) =
    packet.getShort (place.typeAt + 2) ∨ (ednsPktsz < packet.getShort (place.typeAt + 2) ∧
      packet'.getShort (first + (place.typeAt + 2 - place.start)) = ednsPktsz)

variable {dropped : Packet}

section Restore

variable {opts : ProcessOptions} {answers authority additional : List RecordPlace}
    {place : RecordPlace}

theorem getShort_trimmedReply (hopcode : packet.opcode = 0)
    (h : Layout packet n first answers authority additional e)
    (hplace : lastOpt packet additional = some place) (hlen : place.stop ≤ packet.length) :
    (trimmedReply opts packet n).getShort (place.typeAt + 2) = packet.getShort (place.typeAt + 2) ∨
      (opts.ednsPktsz < packet.getShort (place.typeAt + 2) ∧
        (trimmedReply opts packet n).getShort (place.typeAt + 2) = opts.ednsPktsz) := by
  have hbounds :=
    h.records.bounds (List.mem_append_right (answers ++ authority) (lastOpt_mem hplace).1)
  have hfirst := h.first_le
  unfold headerSize at hfirst
  have hfound : (findPseudoheader packet n).1 = some place.pseudoheader := by
    rw [findPseudoheader_layout hopcode h, hplace, Option.map_some]
  have hlower : (trimmedReply opts packet n).getShort (place.typeAt + 2) =
      (lowerSize opts packet (some place.pseudoheader) (findPseudoheader packet n).2).getShort
        (place.typeAt + 2) := by
    unfold trimmedReply
    rw [hfound, trimReply_eq]
    split_ifs
    · unfold Packet.getShort Packet.byte
      rw [Packet.getD_set, if_neg (by omega), Packet.getD_set, if_neg (by omega)]
    · rfl
  rw [hlower]
  unfold lowerSize
  dsimp only [RecordPlace.pseudoheader]
  split_ifs with hlarge
  · have hshort : packet.getShort (place.typeAt + 2) < 65536 := by
      unfold Packet.getShort Packet.byte
      have hhigh := (packet.getD (place.typeAt + 2) 0).toNat_lt
      have hlow := (packet.getD (place.typeAt + 2 + 1) 0).toNat_lt
      omega
    exact .inr ⟨hlarge.2, getShort_putShort packet (by omega) (by omega)⟩
  · exact .inl rfl

theorem Keeps.pseudoheader_same {packet' : Packet}
    (h : Layout packet n first answers authority additional e)
    (hkeeps : Keeps answers (answers ++ authority ++ additional) packet packet')
    (hplace : place ∈ additional) (hkind : place.isAddr = false) (hstart : place.start ≤ k)
    (hk : k < place.stop) : packet'.getD k 0 = packet.getD k 0 := by
  have hfirst := h.first_le
  unfold headerSize at hfirst
  have hmem := List.mem_append_right (answers ++ authority) hplace
  have hbounds := h.records.bounds hmem
  obtain ⟨back, hfront, hadditional⟩ := RecordsLie.append_iff.mp h.records
  have hback := (hadditional.bounds hplace).1
  refine hkeeps.same k (by omega) (fun other hother htimed ↦ ?_) fun other hother haddressed ↦ ?_
  · have hotherBounds := hfront.bounds (List.mem_append_left authority hother)
    unfold RecordPlace.Timed at htimed
    omega
  · have hotherBounds := h.records.bounds hother
    have hdata := haddressed.2
    rcases h.records.separate hmem hother with rfl | hin | hin
    · have hyes := haddressed.1
      rw [hkind] at hyes
      cases hyes
    · omega
    · omega

theorem resizePacket_restored (hquestions : skipQuestions dropped n = some first)
    (hcounts : dropped.ancount = 0 ∧ dropped.nscount = 0 ∧ dropped.arcount = 0)
    (pheader : Pseudoheader) : resizePacket dropped n (some pheader) =
      ((dropped.put first (dropped.slice pheader.start pheader.len)).putShort 10 1,
      first + pheader.len) := by
  unfold resizePacket
  rw [hquestions, hcounts.1, hcounts.2.1, hcounts.2.2]
  rfl

theorem resizePacket_dropped (hquestions : skipQuestions dropped n = some first)
    (hcounts : dropped.ancount = 0 ∧ dropped.nscount = 0 ∧ dropped.arcount = 0) :
    resizePacket dropped n none = (dropped, first) := by
  unfold resizePacket
  rw [hquestions, hcounts.1, hcounts.2.1, hcounts.2.2]
  rfl

/-- A packet in which some of its bytes are copied behind the questions, as one record. -/
def restored (dropped : Packet) (first start len : ℕ) : Packet :=
  (dropped.put first (dropped.slice start len)).putShort 10 1

theorem getD_restored_front {start len k : ℕ} (hk : k < first) (hcount : k < 10 ∨ headerSize ≤ k) :
    (restored dropped first start len).getD k 0 = dropped.getD k 0 := by
  unfold headerSize at hcount
  rw [restored, getD_putShort_of_not _ _ (by omega), Packet.getD_put, if_neg (by omega)]

theorem getD_restored_data {start len j : ℕ} (hfirst : headerSize ≤ first)
    (hlen : first + len ≤ dropped.length) (hj : j < len) :
    (restored dropped first start len).getD (first + j) 0 = dropped.getD (start + j) 0 := by
  unfold headerSize at hfirst
  have hslice : (dropped.slice start len).length = len := by simp [Packet.slice]
  rw [restored,
    getD_putShort_of_not _ _ (by omega), Packet.getD_put, if_pos (by rw [hslice]; omega),
    Nat.add_sub_cancel_left, Packet.getD_slice _ hj]

theorem counts_restored {start len : ℕ} (hfirst : headerSize ≤ first)
    (hlen : first ≤ dropped.length)
    (hcounts : dropped.ancount = 0 ∧ dropped.nscount = 0 ∧ dropped.arcount = 0) :
    (restored dropped first start len).ancount = 0 ∧
      (restored dropped first start len).nscount = 0 ∧
      (restored dropped first start len).arcount = 1 := by
  have hsame : ∀ j, j + 1 < 10 →
    (restored dropped first start len).getShort j = dropped.getShort j := fun j hj ↦ by
    unfold headerSize at hfirst
    unfold Packet.getShort Packet.byte
    rw [getD_restored_front (by omega) (by omega), getD_restored_front (by omega) (by omega)]
  refine ⟨(hsame 6 (by decide)).trans hcounts.1, (hsame 8 (by decide)).trans hcounts.2.1, ?_⟩
  unfold headerSize at hfirst
  exact getShort_putShort _ (by decide) (by rw [Packet.length_put]; omega)

/-- The pseudoheader is the only record of the packet, which ends behind it. -/
theorem parses_restored {typeAt start stop : ℕ} (hquestions : skipQuestions dropped n = some first)
    (hlen : first + (stop - start) ≤ dropped.length)
    (hcounts : dropped.ancount = 0 ∧ dropped.nscount = 0 ∧ dropped.arcount = 0)
    (hname : skipName dropped n start 10 = some typeAt) (hstop : stop = dataEnd dropped typeAt) :
    Parses (restored dropped first start (stop - start)) (first + (stop - start))
      (first + (stop - start)) := by
  have hfirst := skipQuestions_ge hquestions
  have hlt := skipName_lt hname
  have hdata := hstop
  rw [dataEnd] at hdata
  have hbytes : BytesAt dropped start (restored dropped first start (stop - start)) first
    (stop - start) :=
    fun j hj ↦ getD_restored_data hfirst hlen hj
  have hcountsNow := @counts_restored first dropped start (stop - start) hfirst (by omega) hcounts
  refine ⟨first, skipQuestions_same hquestions (fun k hk hkFirst ↦
    getD_restored_front hkFirst (by omega)) (by omega), ?_⟩
  rw [hcountsNow.1, hcountsNow.2.1, hcountsNow.2.2]
  have hskip : skipName (restored dropped first start (stop - start)) (first + (stop - start)) first
    10 =
      some (first + (typeAt - start)) :=
    skipName_moved hname (fun j hj ↦ hbytes j (by omega)) (by omega)
  have hrdlen : (restored dropped first start (stop - start)).getShort
    (first + (typeAt - start) + 8) =
      dropped.getShort (typeAt + 8) := by
    have hshort := hbytes.getShort (j := typeAt - start + 8) (by omega)
    rwa [← Nat.add_assoc, show start + (typeAt - start + 8) = typeAt + 8 by omega] at hshort
  unfold skipSection
  rw [hskip]
  dsimp only
  have hcheck : checkLen (first + (stop - start)) (first + (typeAt - start) + 10)
    (dropped.getShort (typeAt + 8)) = true :=
    decide_eq_true (by omega)
  rw [hrdlen, if_pos hcheck]
  exact congrArg some (by omega)

end Restore

/-! ### `process_reply` -/

/-- The records of the reply are dropped. -/
def emptied (env : Env) (opts : ProcessOptions) (packet : Packet) (n : ℕ) (now : ℤ)
    (checkRebind checkingDisabled : Bool) (session : Session) : Bool :=
  (screenReply env opts (trimmedReply opts packet n) n now (findPseudoheader packet n).2 checkRebind
    checkingDisabled session).2.2

section Process

variable {env : Env} {opts : ProcessOptions} {now : ℤ} {checkRebind checkingDisabled : Bool}
    {session : Session}

theorem processReply_passed (hcode : (trimmedReply opts packet n).opcode ≠ 0 ∨
    ((trimmedReply opts packet n).rcode ≠ rcodeNoerror ∧
      (trimmedReply opts packet n).rcode ≠ rcodeNxdomain)) :
    processReply env opts packet n now checkRebind checkingDisabled session =
      (session, trimmedReply opts packet n, n) :=
  if_pos hcode

/-- The packet before its new length is found. -/
def screenedPacket (env : Env) (opts : ProcessOptions) (packet : Packet) (n : ℕ) (now : ℤ)
    (checkRebind checkingDisabled : Bool) (session : Session) : Packet :=
  (screenReply env opts (trimmedReply opts packet n) n now (findPseudoheader packet n).2 checkRebind
    checkingDisabled session).2.1

theorem processReply_resized (hcode : ¬((trimmedReply opts packet n).opcode ≠ 0 ∨
    ((trimmedReply opts packet n).rcode ≠ rcodeNoerror ∧
      (trimmedReply opts packet n).rcode ≠ rcodeNxdomain))) :
    (processReply env opts packet n now checkRebind checkingDisabled session).2 =
      resizePacket (if emptied env opts packet n now checkRebind checkingDisabled session then
        (screenedPacket env opts packet n now checkRebind checkingDisabled session).dropRecords
        else screenedPacket env opts packet n now checkRebind checkingDisabled session) n
        (findPseudoheader packet n).1 := by
  exact congrArg Prod.snd (if_neg hcode)

variable {answers authority additional : List RecordPlace}

theorem screenedPacket_front (hopcode : packet.opcode = 0) (hn : headerSize ≤ n)
    (h : Layout packet n first answers authority additional e) :
    FrontKept (trimmedReply opts packet n) first
      (screenedPacket env opts packet n now checkRebind checkingDisabled session) := by
  have htrimmed := @Layout.trimmed packet n first e opts answers authority additional hopcode hn h
  exact screenReply_kept (keptByAnswers_front htrimmed.questions (h.le_bound hn).1)
    (fun _ _ byte hk hfront ↦ hfront.set hk byte) ⟨rfl, fun _ _ _ ↦ rfl⟩

theorem screenedPacket_keeps (hopcode : packet.opcode = 0) (hn : headerSize ≤ n)
    (h : Layout packet n first answers authority additional e)
    (hplain : DoctorsPlain opts.reply packet n (answers ++ authority ++ additional)) :
    Keeps answers (answers ++ authority ++ additional) (trimmedReply opts packet n)
      (screenedPacket env opts packet n now checkRebind checkingDisabled session) := by
  have htrimmed := @Layout.trimmed packet n first e opts answers authority additional hopcode hn h
  exact screenReply_kept (keptByAnswers_layout htrimmed (h.le_bound hn).2
    (hplain.trimmed hopcode h)) (fun _ _ byte hk hkeeps ↦ hkeeps.set hk byte) (.refl answers _ _)

theorem codes_trimmedReply (opts : ProcessOptions) (packet : Packet) (n : ℕ) :
    (trimmedReply opts packet n).opcode = packet.opcode ∧
      (trimmedReply opts packet n).rcode = packet.rcode :=
  rcode_trimReply opts packet _ _ fun _ hfound ↦ findPseudoheader_ge hfound

theorem dropped_questions (hopcode : packet.opcode = 0) (hn : headerSize ≤ n)
    (h : Layout packet n first answers authority additional e) :
    skipQuestions (screenedPacket env opts packet n now checkRebind checkingDisabled
      session).dropRecords n = some first := by
  have htrimmed := @Layout.trimmed packet n first e opts answers authority additional hopcode hn h
  have hfront := @screenedPacket_front packet n first e env opts now checkRebind checkingDisabled
    session answers authority additional hopcode hn h
  refine skipQuestions_same htrimmed.questions (fun k hk hkFirst ↦ ?_) (h.le_bound hn).1
  have hfour := four_le hk
  rw [getD_dropRecords _ (by omega)]
  exact hfront.same k hfour hkFirst

theorem processReply_le (hn : headerSize ≤ n) :
    headerSize ≤ (processReply env opts packet n now checkRebind checkingDisabled session).2.2 ∧
      (processReply env opts packet n now checkRebind checkingDisabled session).2.2 ≤ n := by
  by_cases hcode : (trimmedReply opts packet n).opcode ≠ 0 ∨
      ((trimmedReply opts packet n).rcode ≠ rcodeNoerror ∧
        (trimmedReply opts packet n).rcode ≠ rcodeNxdomain)
  · rw [processReply_passed hcode]
    exact ⟨hn, le_rfl⟩
  rw [processReply_resized hcode]
  cases hfound : (findPseudoheader packet n).1 with
  | none => exact resizePacket_le hn (.inl rfl)
  | some found =>
    have hopcode : packet.opcode = 0 := by
      rw [← (codes_trimmedReply opts packet n).1]
      exact not_not.mp (not_or.mp hcode).1
    obtain ⟨e, hparses⟩ := findPseudoheader_some hopcode hfound
    obtain ⟨first, answers, authority, additional, h⟩ := parses_iff.mp hparses
    have hplace := hfound
    rw [findPseudoheader_layout hopcode h] at hplace
    obtain ⟨place, hopt, rfl⟩ := Option.map_eq_some_iff.mp hplace
    have hmem := (lastOpt_mem hopt).1
    have hbounds := h.records.bounds (List.mem_append_right (answers ++ authority) hmem)
    by_cases hemptied : emptied env opts packet n now checkRebind checkingDisabled session = true
    · rw [if_pos hemptied, resizePacket_restored (dropped_questions hopcode hn h)
        (counts_dropRecords _)]
      have hfirst := h.first_le
      have hle := (h.le_bound hn).2
      dsimp only [RecordPlace.pseudoheader]
      omega
    · rw [if_neg hemptied]
      refine resizePacket_le hn (.inr ?_)
      have hfront := @screenedPacket_front packet n first e env opts now checkRebind
        checkingDisabled session answers authority additional hopcode hn h
      have hfirst := h.first_le
      unfold headerSize at hfirst
      have hcount :
        (screenedPacket env opts packet n now checkRebind checkingDisabled session).arcount =
          (trimmedReply opts packet n).arcount := by
        unfold Packet.arcount Packet.getShort Packet.byte
        rw [hfront.same 10 (by decide) (by omega), hfront.same (10 + 1) (by decide) (by omega)]
      rw [hcount, ← (h.trimmed hopcode hn).arcount]
      exact (List.length_pos_of_mem hmem).ne'

theorem resizePacket_layout (h : Layout packet n first answers authority additional e)
    (hstays : pheader = none ∨ packet.arcount ≠ 0) : resizePacket packet n pheader =
      (packet, e) := by
  have hlen : (answers ++ authority ++ additional).length =
    packet.ancount + packet.nscount + packet.arcount := by
    rw [List.length_append, List.length_append, h.ancount, h.nscount, h.arcount]
  have hsection : skipSection packet n (packet.ancount + packet.nscount + packet.arcount) first =
    some e :=
    (skipSection_iff _).mpr ⟨_, hlen, h.records⟩
  unfold resizePacket
  rw [h.questions]
  dsimp only
  rw [hsection]
  cases pheader with
  | none => rfl
  | some pheader => exact if_neg (hstays.resolve_left (by simp))

/-- What is found out about a reply whose records can be read, when it is resized. -/
structure Resized (env : Env) (opts : ProcessOptions) (packet : Packet) (n : ℕ) (now : ℤ)
    (checkRebind checkingDisabled : Bool) (session : Session) (first : ℕ)
    (answers authority additional : List RecordPlace) (e : ℕ) : Prop where
  result : (processReply env opts packet n now checkRebind checkingDisabled session).2 =
    resizePacket (if emptied env opts packet n now checkRebind checkingDisabled session then
      (screenedPacket env opts packet n now checkRebind checkingDisabled session).dropRecords
      else screenedPacket env opts packet n now checkRebind checkingDisabled session) n
        (findPseudoheader packet n).1
  keeps : Keeps answers (answers ++ authority ++ additional) (trimmedReply opts packet n)
    (screenedPacket env opts packet n now checkRebind checkingDisabled session)
  layout : Layout (screenedPacket env opts packet n now checkRebind checkingDisabled session) n
    first answers authority additional e

theorem processReply_layout (hopcode : packet.opcode = 0)
    (hcode : packet.rcode = rcodeNoerror ∨ packet.rcode = rcodeNxdomain)
    (hn : headerSize ≤ n) (h : Layout packet n first answers authority additional e)
    (hplain : DoctorsPlain opts.reply packet n (answers ++ authority ++ additional)) :
    Resized env opts packet n now checkRebind checkingDisabled session first answers authority
      additional e := by
  obtain ⟨hopcodeNow, hcodeNow⟩ := codes_trimmedReply opts packet n
  have hresized : ¬((trimmedReply opts packet n).opcode ≠ 0 ∨
      ((trimmedReply opts packet n).rcode ≠ rcodeNoerror ∧
        (trimmedReply opts packet n).rcode ≠ rcodeNxdomain)) := by
    rw [hopcodeNow, hcodeNow]
    rintro (hbad | ⟨hnoerror, hnxdomain⟩)
    · exact hbad hopcode
    · exact hcode.elim hnoerror hnxdomain
  have hkeeps := @screenedPacket_keeps packet n first e env opts now checkRebind checkingDisabled
    session answers authority additional hopcode hn h hplain
  exact ⟨processReply_resized hresized, hkeeps, (h.trimmed hopcode hn).of_keeps hkeeps
    (h.le_bound hn).2⟩

theorem Resized.length (h : Resized env opts packet n now checkRebind checkingDisabled session first
    answers authority additional e) :
    (screenedPacket env opts packet n now checkRebind checkingDisabled session).dropRecords.length =
      packet.length := by
  rw [length_dropRecords, h.keeps.length]
  exact length_trimReply _ _ _ _

/-- A pseudoheader of the reply is read in the packet without records as it was. -/
theorem Resized.dropped_record
    (h : Resized env opts packet n now checkRebind checkingDisabled session
    first answers authority additional e) (hplace : place ∈ answers ++ authority ++ additional) :
    skipName (screenedPacket env opts packet n now checkRebind checkingDisabled session).dropRecords
      n place.start 10 = some place.typeAt ∧
      place.stop = dataEnd
      (screenedPacket env opts packet n now checkRebind checkingDisabled session).dropRecords
        place.typeAt := by
  have hbounds := h.layout.records.bounds hplace
  have hfirst := h.layout.first_le
  obtain ⟨hname, hstop, -⟩ := h.layout.records.record hplace
  have hbytes : ∀ k, place.start ≤ k →
      (screenedPacket env opts packet n now checkRebind checkingDisabled session).dropRecords.getD k
        0 = (screenedPacket env opts packet n now checkRebind checkingDisabled session).getD k 0 :=
    fun k hk ↦ getD_dropRecords _ (.inr (by omega))
  refine ⟨skipName_same hname (fun k hk _ ↦ hbytes k hk) (skipName_le hname), ?_⟩
  rw [hstop, dataEnd, dataEnd]
  unfold Packet.getShort Packet.byte
  rw [hbytes _ (by omega), hbytes _ (by omega)]

/-- A reply whose records can be read is resized to the end of its records. -/
theorem processReply_parses (hopcode : packet.opcode = 0)
    (hcode : packet.rcode = rcodeNoerror ∨ packet.rcode = rcodeNxdomain)
    (hn : headerSize ≤ n) (hbuffer : n ≤ packet.length)
    (h : Layout packet n first answers authority additional e)
    (hplain : DoctorsPlain opts.reply packet n (answers ++ authority ++ additional)) :
    Parses (processReply env opts packet n now checkRebind checkingDisabled session).2.1
      (processReply env opts packet n now checkRebind checkingDisabled session).2.2
      (processReply env opts packet n now checkRebind checkingDisabled session).2.2 := by
  have hresized := @processReply_layout packet n first e env opts now checkRebind checkingDisabled
    session answers authority additional hopcode hcode hn h hplain
  have hdropped := @dropped_questions packet n first e env opts now checkRebind checkingDisabled
    session answers authority additional hopcode hn h
  have hcounts :=
    counts_dropRecords (screenedPacket env opts packet n now checkRebind checkingDisabled session)
  obtain ⟨hfirstLe, hle⟩ := h.le_bound hn
  rw [hresized.result]
  by_cases hemptied : emptied env opts packet n now checkRebind checkingDisabled session = true
  · rw [if_pos hemptied]
    cases hfound : (findPseudoheader packet n).1 with
    | none =>
      rw [resizePacket_dropped hdropped hcounts]
      refine ⟨first, skipQuestions_same hdropped (fun _ _ _ ↦ rfl) le_rfl, ?_⟩
      rw [hcounts.1, hcounts.2.1, hcounts.2.2]
      rfl
    | some found =>
      rw [findPseudoheader_layout hopcode h] at hfound
      obtain ⟨place, hopt, rfl⟩ := Option.map_eq_some_iff.mp hfound
      have hmem := List.mem_append_right (answers ++ authority) (lastOpt_mem hopt).1
      have hbounds := h.records.bounds hmem
      obtain ⟨hname, hstop⟩ := hresized.dropped_record hmem
      have hlen : first + (place.stop - place.start) ≤
          (screenedPacket env opts packet n now checkRebind checkingDisabled
            session).dropRecords.length := by
        rw [hresized.length]
        omega
      rw [resizePacket_restored hdropped hcounts]
      exact parses_restored hdropped hlen hcounts hname hstop
  · rw [if_neg hemptied]
    have hstays : (findPseudoheader packet n).1 = none ∨
        (screenedPacket env opts packet n now checkRebind checkingDisabled session).arcount ≠
          0 := by
      rw [findPseudoheader_layout hopcode h, ← hresized.layout.arcount]
      cases additional with
      | nil => exact .inl rfl
      | cons place rest => exact .inr (Nat.succ_ne_zero _)
    rw [resizePacket_layout hresized.layout hstays]
    exact parses_iff.mpr ⟨first, answers, authority, additional,
      hresized.layout.of_keeps (.refl answers _ _) le_rfl⟩

theorem processReply_restores (hopcode : packet.opcode = 0)
    (hcode : packet.rcode = rcodeNoerror ∨ packet.rcode = rcodeNxdomain)
    (hn : headerSize ≤ n) (hbuffer : n ≤ packet.length)
    (h : Layout packet n first answers authority additional e)
    (hplain : DoctorsPlain opts.reply packet n (answers ++ authority ++ additional))
    (hemptied : emptied env opts packet n now checkRebind checkingDisabled session = true)
    (hopt : lastOpt packet additional = some place) :
    RecordRestored opts.ednsPktsz packet place
      (processReply env opts packet n now checkRebind checkingDisabled session).2.1 first ∧
      (processReply env opts packet n now checkRebind checkingDisabled session).2.2 =
        first + (place.stop - place.start) := by
  have hresized := @processReply_layout packet n first e env opts now checkRebind checkingDisabled
    session answers authority additional hopcode hcode hn h hplain
  have hdropped := @dropped_questions packet n first e env opts now checkRebind checkingDisabled
    session answers authority additional hopcode hn h
  have htrimmed := @Layout.trimmed packet n first e opts answers authority additional hopcode hn h
  have hcounts :=
    counts_dropRecords (screenedPacket env opts packet n now checkRebind checkingDisabled session)
  obtain ⟨hfirstLe, hle⟩ := h.le_bound hn
  obtain ⟨hadditional, htype⟩ := lastOpt_mem hopt
  have hmem := List.mem_append_right (answers ++ authority) hadditional
  have hbounds := h.records.bounds hmem
  have hfirst := h.first_le
  have hkind : place.isAddr = false := by
    rw [(h.records.record hmem).2.2, isRecord, htype]
    rfl
  have hlen : first + (place.stop - place.start) ≤
      (screenedPacket env opts packet n now checkRebind checkingDisabled
        session).dropRecords.length := by
    rw [hresized.length]
    omega
  rw [hresized.result, if_pos hemptied, findPseudoheader_layout hopcode h, hopt, Option.map_some,
    resizePacket_restored hdropped hcounts]
  refine ⟨?_, rfl⟩
  -- the bytes of the record are those of the trimmed reply
  have hbytes : BytesAt (trimmedReply opts packet n) place.start (restored
      (screenedPacket env opts packet n now checkRebind checkingDisabled session).dropRecords
        first place.start
        (place.stop - place.start)) first (place.stop - place.start) := fun j hj ↦ by
    rw [getD_restored_data hfirst hlen hj, getD_dropRecords _ (.inr (by omega))]
    exact hresized.keeps.pseudoheader_same htrimmed hadditional hkind (by omega) (by omega)
  obtain ⟨hancount, hnscount, harcount⟩ :=
    @counts_restored first _ place.start (place.stop - place.start) hfirst (by omega) hcounts
  refine ⟨hancount, hnscount, harcount, fun j hj hsize ↦ ?_, ?_⟩
  · exact (hbytes j
      (by omega)).trans (trimmedReply_record hopcode h hmem (by omega) hj fun _ ↦ hsize)
  · have hshort := hbytes.getShort (j := place.typeAt + 2 - place.start) (by omega)
    rw [show place.start + (place.typeAt + 2 - place.start) = place.typeAt + 2 by omega] at hshort
    have hsize := @getShort_trimmedReply packet n first e opts answers authority additional place
      hopcode h hopt (by omega)
    rw [← hshort] at hsize
    exact hsize

end Process

/-- The length that `process_reply` returns is that of a packet. In a reply to a query whose
questions and records can be read, those of the packet for the client can be read too: up to the
returned length, if the reply is looked at, or up to where they ended, if it has another code and is
passed on with its length. A pseudoheader of a reply that is emptied is the only record that is
left. With doctors this is for plain records. -/
theorem processReply_trims (env : Env) (opts : ProcessOptions) (packet : Packet) (n : ℕ) (now : ℤ)
    (checkRebind checkingDisabled : Bool) (session : Session) (hn : headerSize ≤ n)
    (hbuffer : n ≤ packet.length) :
    let result := processReply env opts packet n now checkRebind checkingDisabled session
    (headerSize ≤ result.2.2 ∧ result.2.2 ≤ n) ∧ (packet.opcode ≠ 0 → result.2.2 = n) ∧
      ∀ first answers authority additional e, packet.opcode = 0 →
        Layout packet n first answers authority additional e →
          if packet.rcode = rcodeNoerror ∨ packet.rcode = rcodeNxdomain then
            DoctorsPlain opts.reply packet n (answers ++ authority ++ additional) →
              Parses result.2.1 result.2.2 result.2.2 ∧
                (emptied env opts packet n now checkRebind checkingDisabled session = true →
                  ∀ place, lastOpt packet additional = some place →
                    RecordRestored opts.ednsPktsz packet place result.2.1 first ∧
                      result.2.2 = first + (place.stop - place.start))
          else result.2.2 = n ∧ Parses result.2.1 n e := by
  intro result
  obtain ⟨hopcodeNow, hcodeNow⟩ := codes_trimmedReply opts packet n
  refine ⟨processReply_le hn, fun hopcode ↦ ?_,
    fun first answers authority additional e hopcode h ↦ ?_⟩
  · have hresult : result = (session, trimmedReply opts packet n, n) :=
      processReply_passed (.inl (by rwa [hopcodeNow]))
    rw [hresult]
  · split_ifs with hcode
    · exact fun hplain ↦ ⟨processReply_parses hopcode hcode hn hbuffer h hplain,
        fun hemptied place hopt ↦ processReply_restores hopcode hcode hn hbuffer h hplain
          hemptied hopt⟩
    · have hresult : result = (session, trimmedReply opts packet n, n) :=
        processReply_passed (.inr (by rw [hcodeNow]; exact not_or.mp hcode))
      rw [hresult]
      exact ⟨rfl, parses_iff.mpr ⟨first, answers, authority, additional, h.trimmed hopcode hn⟩⟩

/-- A reply with a private address for `a`, and a pseudoheader that announces 4096 bytes. -/
def ednsReply : Packet :=
  [0, 77, 0x81, 0x80, 0, 1, 0, 1, 0, 0, 0, 1, 1, 97, 0, 0, 1, 0, 1] ++ privateRecord 97 ++
    [0, 0, 41, 16, 0, 0, 0, 0, 0, 0, 0]

/-- The answer is dropped, and the pseudoheader is put behind the question. -/
theorem processReply_trims_edns :
    emptied plainEnv.cache plainEnv.process ednsReply 47 0 true false plainSession = true ∧
      Parses (processReply plainEnv.cache plainEnv.process ednsReply 47 0 true false
      plainSession).2.1 30 30 := by
  have hemptied : emptied plainEnv.cache plainEnv.process ednsReply 47 0 true false plainSession =
    true := by
    decide +kernel
  have hopt : RecordsLie ednsReply 47 36 [⟨36, 37, 47, false⟩] 47 :=
    @RecordsLie.cons ednsReply 47 ⟨36, 37, 47, false⟩ [] 47
      (by decide +kernel) (by decide +kernel) (by decide) (by decide +kernel) (.nil 47)
  have hrecords : RecordsLie ednsReply 47 19 [⟨19, 22, 36, true⟩, ⟨36, 37, 47, false⟩] 47 :=
    @RecordsLie.cons ednsReply 47 ⟨19, 22, 36, true⟩ _ 47
      (by decide +kernel) (by decide +kernel) (by decide) (by decide +kernel) hopt
  have hlayout : Layout ednsReply 47 19 [⟨19, 22, 36, true⟩] [] [⟨36, 37, 47, false⟩] 47 :=
    ⟨by decide +kernel, hrecords, by decide +kernel, by decide +kernel, by decide +kernel⟩
  have htrims := processReply_trims plainEnv.cache plainEnv.process ednsReply 47 0 true false
    plainSession (by decide) (by decide)
  have hplain := htrims.2.2 19 _ _ _ 47 (by decide +kernel) hlayout
  rw [if_pos (.inl (by decide +kernel))] at hplain
  have hlen : (processReply plainEnv.cache plainEnv.process ednsReply 47 0 true false
    plainSession).2.2 = 30 := by
    decide +kernel
  have hparses := (hplain (.inl rfl)).1
  rw [hlen] at hparses
  exact ⟨hemptied, hparses⟩

/-- The questions and records of the packet for the client can be read up to its length, if those of
the reply can be read. -/
def EndsExactly (env : Env) (opts : ProcessOptions) (packet : Packet) (n : ℕ) (now : ℤ)
    (checkRebind checkingDisabled : Bool) (session : Session) : Prop :=
  let result := processReply env opts packet n now checkRebind checkingDisabled session
  ∀ e, Parses packet n e → Parses result.2.1 result.2.2 result.2.2

/-- A reply with the code `SERVFAIL`, with one byte behind the question. -/
def servfailReply : Packet := [0, 77, 0x81, 0x82, 0, 1, 0, 0, 0, 0, 0, 0, 1, 97, 0, 0, 1, 0, 1, 0]

/-- It is passed on as it is. -/
theorem not_endsExactly_servfail :
    ¬EndsExactly plainEnv.cache plainEnv.process servfailReply 20 0 true false plainSession := by
  intro hends
  obtain ⟨first, hquestions, hrecords⟩ := hends 19 ⟨19, by decide +kernel, by decide +kernel⟩
  have hfirst : skipQuestions
      (processReply plainEnv.cache plainEnv.process servfailReply 20 0 true false plainSession).2.1
      (processReply plainEnv.cache plainEnv.process servfailReply 20 0 true false
        plainSession).2.2 = some 19 := by
    decide +kernel
  obtain rfl := Option.some.inj (hquestions.symm.trans hfirst)
  exact absurd hrecords (by decide +kernel)

end CrossBreeder.Dnsmasq
