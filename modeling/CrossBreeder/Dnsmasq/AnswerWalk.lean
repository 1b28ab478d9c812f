import CrossBreeder.Dnsmasq.ReplyLayout

/-!
# The walk over the answers

The walk is what `extract_addresses` reads of a reply, and the times it limits, without the cache
(`extractAddresses_walk`). It follows five CNAMEs at most, begins again at each of them, and ends at
the first record it cannot read. What it does to the packet is to limit times of answers, so that it
keeps what this keeps (`KeptByWalk`).
-/

namespace CrossBreeder.Dnsmasq

open Foundation

/-! ### The walk -/

structure Walk where
  packet : Packet
  p1 : ℕ
  name : List UInt8
  cnameCount : ℕ

/-- An answer is passed over. -/
def Walk.advance (ctx : ReplyContext) (walk : Walk) (endrr : ℕ) : Outcome Walk :=
  if checkLen ctx.qlen endrr 0 then .next { walk with p1 := endrr } else .leave walk false

/-- One answer to a question for an address: a CNAME is followed, and a private address found. -/
def walkForward (ctx : ReplyContext) (qtype : ℕ) (flags : Flags) (walk : Walk) : Outcome Walk :=
  match readAnswer ctx walk.packet walk.p1 walk.name with
  | none => .leave walk false
  | some head =>
    let walk := { walk with packet := head.packet }
    if head.aqclass = classIn ∧ head.same ∧ (head.aqtype = typeCname ∨ head.aqtype = qtype) then
      if head.aqtype = typeCname then
        if walk.cnameCount = 0 then .leave walk false
        else
          let walk := { walk with cnameCount := walk.cnameCount - 1 }
          match extractName walk.packet ctx.qlen head.p1 0 with
          | none => .leave walk false
          | some (_, name) => .restart { walk with name := name }
      else if checkLen ctx.qlen head.p1 (addrlen flags) = false then .leave walk false
      else if ctx.checkRebind ∧ .ipv4 ∈ flags ∧
          privateNet (walk.packet.slice head.p1 (addrlen flags)) (!ctx.opts.optLocalRebind) then
        .leave walk true
      else walk.advance ctx head.endrr
    else walk.advance ctx head.endrr

/-- One answer to a question for a name of an address. -/
def walkPtr (ctx : ReplyContext) (namep : ℕ) (walk : Walk) : Outcome Walk :=
  match extractName walk.packet ctx.qlen namep 0 with
  | none => .leave walk false
  | some (_, name) => match readAnswer ctx walk.packet walk.p1 name with
    | none => .leave walk false
    | some head =>
      let walk := { walk with packet := head.packet, name := name }
      if head.aqclass = classIn ∧ head.same ∧
          (head.aqtype = typeCname ∨ head.aqtype = typePtr) then
        match extractName walk.packet ctx.qlen head.p1 0 with
        | none => .leave walk false
        | some (_, name) =>
          let walk := { walk with name := name }
          if head.aqtype = typeCname then
            if walk.cnameCount = 0 then .leave walk false
            else .restart { walk with cnameCount := walk.cnameCount - 1 }
          else walk.advance ctx head.endrr
      else walk.advance ctx head.endrr

def walkPass (ctx : ReplyContext) (body : Walk → Outcome Walk) (walk : Walk) : Outcome Walk :=
  match skipQuestions walk.packet ctx.qlen with
  | none => .leave walk false
  | some p1 => countedLoop body walk.packet.ancount { walk with p1 := p1 }

/-- The answers from the first one again behind each CNAME. -/
def walkPasses (ctx : ReplyContext) (body : Walk → Outcome Walk) : ℕ → Walk → Outcome Walk
  | 0, walk => .leave walk false
  | fuel + 1, walk => match walkPass ctx body walk with
    | .restart walk => walkPasses ctx body fuel walk
    | outcome => outcome

/-- The end of a loop inside another one, which goes on unless the function returns. -/
def Outcome.close {α β : Type} (f : α → β) : Outcome α → Outcome β
  | .next value => .next (f value)
  | .restart value => .next (f value)
  | .leave value rebind => .leave (f value) rebind

/-- The answers to a question, in front of the next one. -/
def walkAnswers (ctx : ReplyContext) (body : Walk → Outcome Walk) (name : List UInt8)
    (packet : Packet) (p : ℕ) : Outcome (Packet × ℕ) :=
  if packet.rcode = rcodeNxdomain then .next (packet, p)
  else (walkPasses ctx body 6 ⟨packet, 0, name, 5⟩).close fun walk ↦ (walk.packet, p)

def walkQuestion (ctx : ReplyContext) : Packet × ℕ → Outcome (Packet × ℕ)
  | (packet, namep) => match extractName packet ctx.qlen namep 4 with
    | none => .leave (packet, namep) false
    | some (p, name) =>
      let qtype := packet.getShort p
      if packet.getShort (p + 2) ≠ classIn then .next (packet, p + 4)
      else if qtype = typePtr then
        if (inArpaName2Addr name).isSome then
          walkAnswers ctx (walkPtr ctx namep) name packet (p + 4)
        else .next (packet, p + 4)
      else if qtype = typeA then
        walkAnswers ctx (walkForward ctx qtype {.ipv4}) name packet (p + 4)
      else if qtype = typeAaaa then
        walkAnswers ctx (walkForward ctx qtype {.ipv6}) name packet (p + 4)
      else .next (packet, p + 4)

/-- The reply as `find_soa` leaves it, if it is called for the doctors or for the log. -/
def doctoredReply (opts : ReplyOptions) (n : ℕ) (packet : Packet) : Packet :=
  if opts.doctors ≠ [] ∨ opts.optLog then (findSoa opts n true packet).1 else packet

def walkReply (ctx : ReplyContext) (packet : Packet) : Outcome (Packet × ℕ) :=
  countedLoop (walkQuestion ctx) (doctoredReply ctx.opts ctx.qlen packet).qdcount
    (doctoredReply ctx.opts ctx.qlen packet, headerSize)

def Outcome.rebinds {α : Type} : Outcome α → Bool
  | .leave _ rebind => rebind
  | _ => false

/-- The variables at the end of a loop. -/
def Outcome.value {α : Type} : Outcome α → α
  | .next value => value
  | .restart value => value
  | .leave value _ => value

/-! ### The cache does not matter -/

def Outcome.map {α β : Type} (f : α → β) : Outcome α → Outcome β
  | .next value => .next (f value)
  | .restart value => .restart (f value)
  | .leave value rebind => .leave (f value) rebind

theorem countedLoop_map {α β : Type} {f : α → β} {Inv : α → Prop} {body : α → Outcome α}
    {body' : β → Outcome β} (hbody : ∀ value, Inv value → (body value).map f = body' (f value))
    (hinv : ∀ value, Inv value → (body value).All Inv) (count : ℕ) :
    ∀ value, Inv value →
      (countedLoop body count value).map f = countedLoop body' count (f value) := by
  induction count with
  | zero => exact fun _ _ ↦ rfl
  | succ count ih =>
    intro value hvalue
    have hnext := hinv value hvalue
    rw [countedLoop, countedLoop, ← hbody value hvalue]
    cases hrun : body value with
    | next value' =>
      rw [hrun] at hnext
      exact ih value' hnext
    | restart value' => rfl
    | leave value' rebind => rfl

def AnswerScan.walk (scan : AnswerScan) : Walk := ⟨scan.packet, scan.p1, scan.name, scan.cnameCount⟩

section Answers

variable {env : Env} {ctx : ReplyContext}

theorem advance_walk (scan : AnswerScan) (endrr : ℕ) :
    (scan.advance ctx endrr).map AnswerScan.walk = scan.walk.advance ctx endrr := by
  unfold AnswerScan.advance Walk.advance
  split_ifs <;> rfl

theorem forwardAnswer_walk (qtype : ℕ) (flags : Flags) (scan : AnswerScan) :
    (forwardAnswer env ctx qtype flags scan).map AnswerScan.walk =
      walkForward ctx qtype flags scan.walk := by
  unfold forwardAnswer walkForward
  dsimp only [AnswerScan.walk]
  cases readAnswer ctx scan.packet scan.p1 scan.name with
  | none => rfl
  | some head =>
    dsimp only
    split_ifs
    · rfl
    · cases extractName head.packet ctx.qlen head.p1 0 <;> rfl
    · rfl
    · rfl
    · exact advance_walk _ _
    · exact advance_walk _ _

theorem ptrAnswer_walk (namep : ℕ) (nameEncoding : Flag) (addr : List UInt8) (scan : AnswerScan) :
    (ptrAnswer env ctx namep nameEncoding addr scan).map AnswerScan.walk =
      walkPtr ctx namep scan.walk := by
  unfold ptrAnswer walkPtr
  dsimp only [AnswerScan.walk]
  cases extractName scan.packet ctx.qlen namep 0 with
  | none => rfl
  | some question =>
    dsimp only
    cases readAnswer ctx scan.packet scan.p1 question.2 with
    | none => rfl
    | some head =>
      dsimp only
      by_cases hkind : head.aqclass = classIn ∧ head.same = true ∧
          (head.aqtype = typeCname ∨ head.aqtype = typePtr)
      · rw [if_pos hkind, if_pos hkind]
        cases extractName head.packet ctx.qlen head.p1 0 with
        | none => rfl
        | some target =>
          split_ifs
          · rfl
          · rfl
          · exact advance_walk _ _
      · rw [if_neg hkind, if_neg hkind]
        exact advance_walk _ _

variable {body : AnswerScan → Outcome AnswerScan} {body' : Walk → Outcome Walk}

theorem answerPasses_walk (hbody : ∀ scan, (body scan).map AnswerScan.walk = body' scan.walk)
    (fuel : ℕ) : ∀ scan : AnswerScan,
      (answerPasses ctx body fuel scan).map AnswerScan.walk =
      walkPasses ctx body' fuel scan.walk := by
  have hpass : ∀ scan : AnswerScan,
      (answerPass ctx body scan).map AnswerScan.walk = walkPass ctx body' scan.walk := by
    intro scan
    unfold answerPass walkPass
    dsimp only [AnswerScan.walk]
    cases skipQuestions scan.packet ctx.qlen with
    | none => rfl
    | some p1 =>
      have hall : ∀ scan : AnswerScan, (body scan).All fun _ ↦ True := fun scan ↦ by
        cases body scan <;> trivial
      exact countedLoop_map (fun scan _ ↦ hbody scan) (fun scan _ ↦ hall scan) _
        { scan with p1 := p1 } trivial
  induction fuel with
  | zero => exact fun _ ↦ rfl
  | succ fuel ih =>
    intro scan
    rw [answerPasses, walkPasses, ← hpass scan]
    cases answerPass ctx body scan with
    | next last => rfl
    | restart last => exact ih last
    | leave last rebind => rfl

def ReplyState.place (state : ReplyState) : Packet × ℕ := (state.packet, state.p)

/-- The authority section is searched before the questions, or without an effect. -/
def SoaKeeps (ctx : ReplyContext) (state : ReplyState) : Prop :=
  ctx.opts.doctors = [] ∨ state.searchedSoa = true

theorem SoaKeeps.searchSoa {state : ReplyState} (h : SoaKeeps ctx state) :
    (state.searchSoa ctx).place = state.place ∧ SoaKeeps ctx (state.searchSoa ctx) := by
  unfold ReplyState.searchSoa
  split_ifs with hsearched
  · exact ⟨rfl, h⟩
  · have hnil : ctx.opts.doctors = [] := h.resolve_right hsearched
    refine ⟨?_, .inl hnil⟩
    unfold ReplyState.place
    dsimp only
    rw [findSoa_nil hnil]

theorem SoaKeeps.negativePtr {state : ReplyState} (h : SoaKeeps ctx state) (nameEncoding : Flag)
    (addr : List UInt8) (flags : Flags) (found : Bool) :
    (state.negativePtr env ctx nameEncoding addr flags found).place = state.place ∧
      SoaKeeps ctx (state.negativePtr env ctx nameEncoding addr flags found) := by
  have hsearched := h.searchSoa
  unfold ReplyState.negativePtr
  dsimp only
  by_cases hnegative : found = false ∧ ctx.opts.optNoNeg = false
  · rw [if_pos hnegative]
    split_ifs <;> exact hsearched
  · rw [if_neg hnegative]
    exact ⟨rfl, h⟩

theorem SoaKeeps.negativeForward {state : ReplyState} (h : SoaKeeps ctx state) (name : List UInt8)
    (cttl : ℕ) (flags : Flags) (found : Bool) :
    (state.negativeForward env ctx name cttl flags found).place = state.place ∧
      SoaKeeps ctx (state.negativeForward env ctx name cttl flags found) := by
  have hsearched := h.searchSoa
  unfold ReplyState.negativeForward
  dsimp only
  by_cases hnegative : found = false ∧ ctx.opts.optNoNeg = false
  · rw [if_pos hnegative]
    split_ifs <;> exact hsearched
  · rw [if_neg hnegative]
    exact ⟨rfl, h⟩

theorem questionAnswers_walk (hbody : ∀ scan, (body scan).map AnswerScan.walk = body' scan.walk)
    {flags : Flags} {state : ReplyState}
    (hflags : .nxdomain ∈ flags ↔ state.packet.rcode = rcodeNxdomain) (name : List UInt8) :
    walkAnswers ctx body' name state.packet state.p =
      (questionAnswers ctx body flags name state).close fun scan ↦ (scan.packet, state.p) := by
  have hpasses : ∀ scan : AnswerScan, (answerPasses ctx body 6 scan).map AnswerScan.walk =
      walkPasses ctx body' 6 scan.walk := answerPasses_walk hbody 6
  unfold questionAnswers walkAnswers
  by_cases hcode : state.packet.rcode = rcodeNxdomain
  · rw [if_pos (hflags.mpr hcode), if_pos hcode]
    rfl
  · rw [if_neg fun h ↦ hcode (hflags.mp h), if_neg hcode]
    have hscan := hpasses { session := state.session, packet := state.packet, p1 := 0, name := name
                            cttl := ulongMax, found := false, cnameCount := 5 }
    dsimp only [AnswerScan.walk] at hscan
    rw [← hscan]
    cases answerPasses ctx body 6 _ <;> rfl

/-- The packet and the offset are those of the walk, and stay so. -/
def Follows (ctx : ReplyContext) (outcome : Outcome ReplyState) (walk : Outcome (Packet × ℕ)) :
    Prop :=
  outcome.map ReplyState.place = walk ∧ outcome.All (SoaKeeps ctx)

variable {flags : Flags} {state : ReplyState}

theorem SoaKeeps.forwardQuestion (h : SoaKeeps ctx state)
    (hflags : .nxdomain ∈ flags ↔ state.packet.rcode = rcodeNxdomain) (qtype : ℕ)
    (name : List UInt8) : Follows ctx (forwardQuestion env ctx qtype flags name state)
      (walkAnswers ctx (walkForward ctx qtype flags) name state.packet state.p) := by
  have hwalk :=
    @questionAnswers_walk ctx _ _ (@forwardAnswer_walk env ctx qtype flags) flags state hflags name
  have hafter : ∀ scan : AnswerScan, SoaKeeps ctx (state.afterAnswers scan) := fun _ ↦ h
  unfold Follows Dnsmasq.forwardQuestion
  rw [hwalk]
  cases questionAnswers ctx (forwardAnswer env ctx qtype flags) flags name state with
  | leave scan rebind => exact ⟨rfl, hafter scan⟩
  | next scan =>
    have hnegative :=
      @SoaKeeps.negativeForward env ctx _ (hafter scan) scan.name scan.cttl flags scan.found
    exact ⟨congrArg Outcome.next hnegative.1, hnegative.2⟩
  | restart scan =>
    have hnegative :=
      @SoaKeeps.negativeForward env ctx _ (hafter scan) scan.name scan.cttl flags scan.found
    exact ⟨congrArg Outcome.next hnegative.1, hnegative.2⟩

theorem SoaKeeps.ptrQuestion (h : SoaKeeps ctx state)
    (hflags : .nxdomain ∈ flags ↔ state.packet.rcode = rcodeNxdomain) (namep : ℕ)
    (name : List UInt8) : Follows ctx (ptrQuestion env ctx namep flags name state)
      (if (inArpaName2Addr name).isSome then
        walkAnswers ctx (walkPtr ctx namep) name state.packet state.p
      else .next (state.packet, state.p)) := by
  have hafter : ∀ scan : AnswerScan, SoaKeeps ctx (state.afterAnswers scan) := fun _ ↦ h
  unfold Follows Dnsmasq.ptrQuestion
  cases inArpaName2Addr name with
  | none => exact ⟨rfl, h⟩
  | some arpa =>
    obtain ⟨v6, addr⟩ := arpa
    dsimp only
    generalize (if v6 = true then Flag.ipv6 else Flag.ipv4) = nameEncoding
    rw [Option.isSome_some, if_pos rfl,
      questionAnswers_walk (@ptrAnswer_walk env ctx namep nameEncoding addr) hflags name]
    cases questionAnswers ctx (ptrAnswer env ctx namep nameEncoding addr) flags name state with
    | leave scan rebind => exact ⟨rfl, hafter scan⟩
    | next scan =>
      have hnegative :=
        @SoaKeeps.negativePtr env ctx _ (hafter scan) nameEncoding addr flags scan.found
      exact ⟨congrArg Outcome.next hnegative.1, hnegative.2⟩
    | restart scan =>
      have hnegative :=
        @SoaKeeps.negativePtr env ctx _ (hafter scan) nameEncoding addr flags scan.found
      exact ⟨congrArg Outcome.next hnegative.1, hnegative.2⟩

theorem replyQuestion_walk (h : SoaKeeps ctx state) :
    Follows ctx (replyQuestion env ctx state) (walkQuestion ctx state.place) := by
  unfold replyQuestion walkQuestion ReplyState.place
  dsimp only
  cases hname : extractName state.packet ctx.qlen state.p 4 with
  | none => exact ⟨rfl, h⟩
  | some question =>
    obtain ⟨p, name⟩ := question
    dsimp only
    have hflags : .nxdomain ∈ (if state.packet.rcode = 3 then {.nxdomain} else ∅ : Flags) ↔
        state.packet.rcode = rcodeNxdomain := by
      by_cases hcode : state.packet.rcode = 3
      · simp [hcode, rcodeNxdomain]
      · simp [hcode, rcodeNxdomain]
    have hnone : state.packet.rcode ≠ 3 →
        (if state.packet.rcode = 3 then {.nxdomain} else ∅ : Flags) = ∅ := fun hcode ↦ if_neg hcode
    generalize (if state.packet.rcode = 3 then {.nxdomain} else ∅ : Flags) = flags at hflags hnone
    -- the flag for a missing name comes only with no walk
    have haddress : ∀ (qtype : ℕ) (flag : Flag), flag ≠ .nxdomain → Follows ctx
        (forwardQuestion env ctx qtype (insert flag flags) name
          { state with session := state.session.call env .nextQuestion, p := p + 4 })
        (walkAnswers ctx (walkForward ctx qtype {flag}) name state.packet (p + 4)) := by
      intro qtype flag hflag
      have hfollows := @SoaKeeps.forwardQuestion env ctx (insert flag flags)
        { state with session := state.session.call env .nextQuestion, p := p + 4 } h
        (by simpa [hflag.symm] using hflags) qtype name
      by_cases hcode : state.packet.rcode = rcodeNxdomain
      · unfold walkAnswers at hfollows ⊢
        rwa [if_pos hcode] at hfollows ⊢
      · rw [hnone hcode, insert_empty_eq] at hfollows ⊢
        exact hfollows
    by_cases hclass : state.packet.getShort (p + 2) ≠ classIn
    · rw [if_pos hclass, if_pos hclass]
      exact ⟨rfl, h⟩
    rw [if_neg hclass, if_neg hclass]
    by_cases hptr : state.packet.getShort p = typePtr
    · rw [if_pos hptr, if_pos hptr]
      exact @SoaKeeps.ptrQuestion env ctx flags
        { state with session := state.session.call env .nextQuestion, p := p + 4 } h
          hflags state.p name
    rw [if_neg hptr, if_neg hptr]
    by_cases hv4 : state.packet.getShort p = typeA
    · rw [if_pos hv4, if_pos hv4]
      exact haddress _ .ipv4 (by decide)
    rw [if_neg hv4, if_neg hv4]
    by_cases hv6 : state.packet.getShort p = typeAaaa
    · rw [if_pos hv6, if_pos hv6]
      exact haddress _ .ipv6 (by decide)
    · rw [if_neg hv6, if_neg hv6]
      exact ⟨rfl, h⟩

theorem extractAddresses_walk (packet : Packet) (session : Session) :
    (extractAddresses env ctx packet session).2 = (walkReply ctx packet).rebinds ∧
      (extractAddresses env ctx packet session).1.2 = (walkReply ctx packet).value.1 := by
  have hbatch : (extractBatch env ctx packet session).map ReplyState.place =
    walkReply ctx packet := by
    have hloop : ∀ state : ReplyState, SoaKeeps ctx state →
        (countedLoop (replyQuestion env ctx) state.packet.qdcount state).map ReplyState.place =
          countedLoop (walkQuestion ctx) state.packet.qdcount state.place := fun state hstate ↦
      countedLoop_map (fun value hvalue ↦ (replyQuestion_walk hvalue).1)
        (fun value hvalue ↦ (replyQuestion_walk hvalue).2) _ state hstate
    unfold extractBatch walkReply doctoredReply
    split_ifs with hdoctors
    · exact hloop _ (.inr rfl)
    · exact hloop _ (.inl (not_not.mp (not_or.mp hdoctors).1))
  unfold extractAddresses
  rw [← hbatch]
  cases extractBatch env ctx packet session with
  | leave last rebind => exact ⟨rfl, rfl⟩
  | next last =>
    dsimp only
    split_ifs <;> exact ⟨rfl, rfl⟩
  | restart last =>
    dsimp only
    split_ifs <;> exact ⟨rfl, rfl⟩

end Answers

/-! ### What the walk keeps -/

/-- A property of packets that the limiting of times keeps, with what is known of the offset where
an answer is read, for the number of answers that are left. -/
structure KeptByWalk (ctx : ReplyContext) (Holds : Packet → Prop) (At : ℕ → ℕ → Prop) : Prop where
  start : ∀ packet p, Holds packet → skipQuestions packet ctx.qlen = some p → At packet.ancount p
  read : ∀ count packet p name head, Holds packet → At (count + 1) p →
    readAnswer ctx packet p name = some head → Holds head.packet ∧ At count head.endrr

/-- A property of packets that `extract_addresses` keeps. -/
structure KeptByAnswers (ctx : ReplyContext) (Holds : Packet → Prop) (At : ℕ → ℕ → Prop) : Prop
    extends KeptByWalk ctx Holds At where
  soa : ∀ named packet, Holds packet → Holds (findSoa ctx.opts ctx.qlen named packet).1

section Writes

variable {ctx : ReplyContext} {Holds : Packet → Prop} {At : ℕ → ℕ → Prop}

/-- What a loop over the answers makes of the packet, and where the next answer is. -/
def LeavesPacket (Holds : Packet → Prop) (AtNext : ℕ → Prop) (outcome : Outcome Walk) : Prop :=
  (outcome.All fun next ↦ Holds next.packet) ∧ ∀ next, outcome = .next next → AtNext next.p1

theorem leavesPacket_leave {AtNext : ℕ → Prop} {walk : Walk} (h : Holds walk.packet)
    (rebind : Bool) : LeavesPacket Holds AtNext (.leave walk rebind) := ⟨h, by rintro next ⟨⟩⟩

theorem leavesPacket_restart {AtNext : ℕ → Prop} {walk : Walk} (h : Holds walk.packet) :
    LeavesPacket Holds AtNext (.restart walk) := ⟨h, by rintro next ⟨⟩⟩

theorem leavesPacket_advance {AtNext : ℕ → Prop} {walk : Walk} (h : Holds walk.packet) {endrr : ℕ}
    (hend : AtNext endrr) : LeavesPacket Holds AtNext (walk.advance ctx endrr) := by
  unfold Walk.advance
  split_ifs
  · refine ⟨h, ?_⟩
    rintro next ⟨⟩
    exact hend
  · exact leavesPacket_leave h false

/-- A loop body that reads one answer. -/
def ReadsOne (ctx : ReplyContext) (body : Walk → Outcome Walk) : Prop :=
  ∀ (Holds : Packet → Prop) (AtNext : ℕ → Prop) (walk : Walk), Holds walk.packet →
    (∀ name head, readAnswer ctx walk.packet walk.p1 name = some head → Holds head.packet ∧
      AtNext head.endrr) →
    LeavesPacket Holds AtNext (body walk)

theorem walkForward_reads (qtype : ℕ) (flags : Flags) :
    ReadsOne ctx (walkForward ctx qtype flags) := by
  intro Holds AtNext walk h hread
  unfold walkForward
  cases hhead : readAnswer ctx walk.packet walk.p1 walk.name with
  | none => exact leavesPacket_leave h false
  | some head =>
    obtain ⟨hpacket, hend⟩ := hread _ _ hhead
    dsimp only
    split_ifs
    · exact leavesPacket_leave hpacket false
    · cases extractName head.packet ctx.qlen head.p1 0 with
      | none => exact leavesPacket_leave hpacket false
      | some target => exact leavesPacket_restart hpacket
    · exact leavesPacket_leave hpacket false
    · exact leavesPacket_leave hpacket true
    · exact leavesPacket_advance hpacket hend
    · exact leavesPacket_advance hpacket hend

theorem walkPtr_reads (namep : ℕ) : ReadsOne ctx (walkPtr ctx namep) := by
  intro Holds AtNext walk h hread
  unfold walkPtr
  cases extractName walk.packet ctx.qlen namep 0 with
  | none => exact leavesPacket_leave h false
  | some question =>
    dsimp only
    cases hhead : readAnswer ctx walk.packet walk.p1 question.2 with
    | none => exact leavesPacket_leave h false
    | some head =>
      obtain ⟨hpacket, hend⟩ := hread _ _ hhead
      dsimp only
      by_cases hkind : head.aqclass = classIn ∧ head.same = true ∧
          (head.aqtype = typeCname ∨ head.aqtype = typePtr)
      · rw [if_pos hkind]
        cases extractName head.packet ctx.qlen head.p1 0 with
        | none => exact leavesPacket_leave hpacket false
        | some target =>
          split_ifs
          · exact leavesPacket_leave hpacket false
          · exact leavesPacket_restart hpacket
          · exact leavesPacket_advance hpacket hend
      · rw [if_neg hkind]
        exact leavesPacket_advance hpacket hend

variable {body : Walk → Outcome Walk}

theorem KeptByWalk.loop (hkept : KeptByWalk ctx Holds At) (hbody : ReadsOne ctx body) (count : ℕ) :
    ∀ walk : Walk, Holds walk.packet → At count walk.p1 →
      (countedLoop body count walk).All fun next ↦ Holds next.packet := by
  induction count with
  | zero => exact fun _ h _ ↦ h
  | succ count ih =>
    intro walk hwalk hat
    obtain ⟨hone, hnext⟩ := hbody Holds (At count) walk hwalk fun name head hread ↦
      hkept.read count walk.packet walk.p1 name head hwalk hat hread
    rw [countedLoop]
    cases hrun : body walk with
    | next last =>
      rw [hrun] at hone
      exact ih last hone (hnext last hrun)
    | restart last =>
      rw [hrun] at hone
      exact hone
    | leave last rebind =>
      rw [hrun] at hone
      exact hone

theorem KeptByWalk.answers (hkept : KeptByWalk ctx Holds At) (hbody : ReadsOne ctx body)
    (name : List UInt8) {packet : Packet} (p : ℕ) (h : Holds packet) :
    (walkAnswers ctx body name packet p).All fun next ↦ Holds next.1 := by
  have hpasses : ∀ (fuel : ℕ) (walk : Walk), Holds walk.packet →
      (walkPasses ctx body fuel walk).All fun next ↦ Holds next.packet := by
    intro fuel
    induction fuel with
    | zero => exact fun _ h ↦ h
    | succ fuel ih =>
      intro walk hwalk
      have hpass : (walkPass ctx body walk).All fun next ↦ Holds next.packet := by
        unfold walkPass
        cases hquestions : skipQuestions walk.packet ctx.qlen with
        | none => exact hwalk
        | some p1 =>
          exact hkept.loop hbody _ { walk with p1 := p1 } hwalk (hkept.start _ _ hwalk hquestions)
      rw [walkPasses]
      cases hrun : walkPass ctx body walk with
      | next last =>
        rw [hrun] at hpass
        exact hpass
      | restart last =>
        rw [hrun] at hpass
        exact ih last hpass
      | leave last rebind =>
        rw [hrun] at hpass
        exact hpass
  unfold walkAnswers
  split_ifs
  · exact h
  · have hlast := hpasses 6 ⟨packet, 0, name, 5⟩ h
    cases hrun : walkPasses ctx body 6 ⟨packet, 0, name, 5⟩ <;> rwa [hrun] at hlast

theorem KeptByWalk.walkReply (hkept : KeptByWalk ctx Holds At) {packet : Packet}
    (h : Holds (doctoredReply ctx.opts ctx.qlen packet)) :
    Holds (Dnsmasq.walkReply ctx packet).value.1 := by
  have hquestion : ∀ place : Packet × ℕ, Holds place.1 →
      (walkQuestion ctx place).All fun next ↦ Holds next.1 := by
    rintro ⟨packet, namep⟩ hplace
    unfold walkQuestion
    dsimp only
    cases extractName packet ctx.qlen namep 4 with
    | none => exact hplace
    | some question =>
      dsimp only
      split_ifs
      · exact hplace
      · exact hkept.answers (walkPtr_reads namep) _ _ hplace
      · exact hplace
      · exact hkept.answers (walkForward_reads _ _) _ _ hplace
      · exact hkept.answers (walkForward_reads _ _) _ _ hplace
      · exact hplace
  have hall : (Dnsmasq.walkReply ctx packet).All fun next ↦ Holds next.1 :=
    countedLoop_all hquestion _ _ h
  cases hrun : Dnsmasq.walkReply ctx packet <;> rwa [hrun] at hall

theorem walkReply_packet (hmax : ctx.opts.maxTtl = 0) (packet : Packet) :
    (walkReply ctx packet).value.1 = doctoredReply ctx.opts ctx.qlen packet := by
  refine @KeptByWalk.walkReply ctx (· = doctoredReply ctx.opts ctx.qlen packet) (fun _ _ ↦ True)
    ⟨fun _ _ _ _ ↦ trivial, ?_⟩ packet rfl
  intro count between p name head hsame _ hread
  obtain ⟨-, -, rfl⟩ := Option.map_eq_some_iff.mp hread
  exact ⟨(if_neg fun h ↦ h.1 hmax).trans hsame, trivial⟩

theorem KeptByAnswers.extractAddresses (hkept : KeptByAnswers ctx Holds At) {env : Env}
    {packet : Packet} (h : Holds packet) (session : Session) :
    Holds (Dnsmasq.extractAddresses env ctx packet session).1.2 := by
  rw [(extractAddresses_walk packet session).2]
  refine hkept.walkReply ?_
  unfold doctoredReply
  split_ifs
  · exact hkept.soa true packet h
  · exact h

end Writes

end CrossBreeder.Dnsmasq
