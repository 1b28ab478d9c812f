import CrossBreeder.Dnsmasq.CacheCalls
import CrossBreeder.Dnsmasq.Packet

/-!
# Replies of upstream servers

`extract_addresses`: the records of a reply go to the cache in one batch. The loops over the
questions and over the answers can be left early, and the one over the answers starts again behind a
CNAME (`Outcome`). What every pass keeps holds at the end (`countedLoop_all`).
-/

namespace CrossBreeder.Dnsmasq

open Foundation

/-! ### The authority section -/

/-- `struct doctor`, with the addresses in host order. -/
structure Doctor where
  inAddr : UInt32
  endAddr : UInt32
  outAddr : UInt32
  mask : UInt32

/-- What `extract_addresses` uses of the configuration. -/
structure ReplyOptions where
  doctors : List Doctor
  optLog : Bool
  optNoNeg : Bool
  optLocalRebind : Bool
  maxTtl : ℕ
  negTtl : ℕ

/-- The address that replaces another one. -/
def doctorAddr (doctors : List Doctor) (addr : UInt32) : Option UInt32 :=
  (doctors.find? fun doctor ↦
    if doctor.endAddr = 0 then doctor.inAddr &&& doctor.mask = addr &&& doctor.mask
    else doctor.inAddr ≤ addr ∧ addr ≤ doctor.endAddr).map
      fun doctor ↦ (addr &&& ~~~ doctor.mask) ||| (doctor.outAddr &&& doctor.mask)

/-- An address record is changed, and then the reply is not authoritative. -/
def doctorRecord (opts : ReplyOptions) (packet : Packet) (p : ℕ) : Packet :=
  match doctorAddr opts.doctors (UInt32.ofNat (packet.getLong p)) with
  | none => packet
  | some addr => Packet.putLong (packet.set 2 (packet.getD 2 0 &&& 0xfb)) p addr.toNat

/-- `do_doctor`, with the end of the section. With a name for the log, names are extracted. -/
def doDoctor (opts : ReplyOptions) (qlen : ℕ) (named : Bool) : ℕ → ℕ → Packet → Packet × Option ℕ
  | 0, p, packet => (packet, some p)
  | count + 1, p, packet =>
    match if named ∧ opts.optLog then (extractName packet qlen p 10).map Prod.fst
      else skipName packet qlen p 10 with
    | none => (packet, none)
    | some p =>
      let qtype := packet.getShort p
      let qclass := packet.getShort (p + 2)
      let rdlen := packet.getShort (p + 8)
      let p := p + 10
      if qclass = classIn ∧ qtype = typeA ∧ checkLen qlen p 4 = false then (packet, none)
      else
        let packet := if qclass = classIn ∧ qtype = typeA then doctorRecord opts packet p
          else packet
        if checkLen qlen p rdlen then doDoctor opts qlen named count (p + rdlen) packet
          else (packet, none)

/-- The loop of `find_soa` over the authority section: where it ends, the lowest time, and whether
there is an SOA record. -/
def soaLoop (packet : Packet) (qlen : ℕ) : ℕ → ℕ → ℕ → Bool → Option (ℕ × ℕ × Bool)
  | 0, p, minttl, foundSoa => some (p, minttl, foundSoa)
  | count + 1, p, minttl, foundSoa =>
    match skipName packet qlen p 10 with
    | none => none
    | some p =>
      let qtype := packet.getShort p
      let qclass := packet.getShort (p + 2)
      let ttl := packet.getLong (p + 4)
      let rdlen := packet.getShort (p + 8)
      let p := p + 10
      if qclass = classIn ∧ qtype = typeSoa then
        match (skipName packet qlen p 0).bind fun p ↦ skipName packet qlen p 20 with
        | none => none
        | some p =>
          soaLoop packet qlen count (p + 20) (min (packet.getLong (p + 16)) (min ttl minttl)) true
      else if checkLen qlen p rdlen then soaLoop packet qlen count (p + rdlen) minttl foundSoa
      else none

def throughInt (value : ℕ) : ℕ :=
  if value % 2 ^ 32 < 2 ^ 31 then value % 2 ^ 32 else value % 2 ^ 32 + (2 ^ 64 - 2 ^ 32)

def ulongMax : ℕ := 2 ^ 64 - 1

def findSoa (opts : ReplyOptions) (qlen : ℕ) (named : Bool) (packet : Packet) : Packet × ℕ :=
  match skipQuestions packet qlen with
  | none => (packet, 0)
  | some p => match doDoctor opts qlen named packet.ancount p packet with
    | (packet, none) => (packet, 0)
    | (packet, some p) => match soaLoop packet qlen packet.nscount p ulongMax false with
      | none => (packet, 0)
      | some (p, minttl, foundSoa) => match doDoctor opts qlen false packet.arcount p packet with
        | (packet, none) => (packet, 0)
        | (packet, some _) => (packet, throughInt (if foundSoa then minttl else opts.negTtl))

/-! ### The answers to a question -/

/-- How the body of a loop ends: the loop goes on, it starts again, or the function returns. -/
inductive Outcome (α : Type)
  | next (value : α)
  | restart (value : α)
  | leave (value : α) (rebind : Bool)

def countedLoop {α : Type} (body : α → Outcome α) : ℕ → α → Outcome α
  | 0, value => .next value
  | count + 1, value => match body value with
    | .next value => countedLoop body count value
    | outcome => outcome

/-- The parameters of `extract_addresses` other than the packet. -/
structure ReplyContext where
  opts : ReplyOptions
  qlen : ℕ
  now : ℤ
  isSign : Bool
  checkRebind : Bool
  checkingDisabled : Bool

structure AnswerScan where
  session : Session
  packet : Packet
  p1 : ℕ
  name : List UInt8
  cttl : ℕ
  found : Bool
  cnameCount : ℕ

/-- The fixed part of an answer: whether it is for the name, the packet with the time limited, and
where the data are. -/
structure AnswerHead where
  same : Bool
  packet : Packet
  aqtype : ℕ
  aqclass : ℕ
  attl : ℕ
  p1 : ℕ
  endrr : ℕ

/-- The fixed part of an answer is read. -/
def readAnswer (ctx : ReplyContext) (packet : Packet) (p1 : ℕ) (name : List UInt8) :
    Option AnswerHead :=
  (matchName packet ctx.qlen p1 name 10).map fun (p1, same) ↦
    let attl := packet.getLong (p1 + 4)
    let limited := if ctx.opts.maxTtl ≠ 0 ∧ ctx.opts.maxTtl < attl ∧ ctx.isSign = false then
        packet.putLong (p1 + 4) ctx.opts.maxTtl
      else packet
    { same := same
      packet := limited
      aqtype := packet.getShort p1
      aqclass := packet.getShort (p1 + 2)
      attl := attl
      p1 := p1 + 10
      endrr := p1 + 10 + limited.getShort (p1 + 8) }

/-- The end of the body of the loops over the answers. -/
def AnswerScan.advance (ctx : ReplyContext) (scan : AnswerScan) (endrr : ℕ) : Outcome AnswerScan :=
  if checkLen ctx.qlen endrr 0 then .next { scan with p1 := endrr } else .leave scan false

/-- One answer to a question for a name of an address, with the position of the question. -/
def ptrAnswer (env : Env) (ctx : ReplyContext) (namep : ℕ) (nameEncoding : Flag) (addr : List UInt8)
    (scan : AnswerScan) : Outcome AnswerScan :=
  -- the loop body overwrites the name
  match extractName scan.packet ctx.qlen namep 0 with
  | none => .leave scan false
  | some (_, name) => match readAnswer ctx scan.packet scan.p1 name with
    | none => .leave scan false
    | some head =>
      let scan := { scan with packet := head.packet, name := name, cttl := min head.attl scan.cttl }
      if head.aqclass = classIn ∧ head.same ∧ (head.aqtype = typeCname ∨ head.aqtype = typePtr) then
        match extractName scan.packet ctx.qlen head.p1 0 with
        | none => .leave scan false
        | some (_, name) =>
          let scan := { scan with name := name }
          if head.aqtype = typeCname then
            if scan.cnameCount = 0 then .leave scan false
            else .restart { scan with cnameCount := scan.cnameCount - 1 }
          else
            AnswerScan.advance ctx
              { scan with
                session := scan.session.call env
                  (.insertReverse (some name) (some addr) ctx.now scan.cttl
                    {nameEncoding, .reverse})
                found := true } head.endrr
      else scan.advance ctx head.endrr

/-- One answer to a question for an address. -/
def forwardAnswer (env : Env) (ctx : ReplyContext) (qtype : ℕ) (flags : Flags) (scan : AnswerScan) :
    Outcome AnswerScan :=
  match readAnswer ctx scan.packet scan.p1 scan.name with
  | none => .leave scan false
  | some head =>
    let scan := { scan with packet := head.packet }
    if head.aqclass = classIn ∧ head.same ∧ (head.aqtype = typeCname ∨ head.aqtype = qtype) then
      if head.aqtype = typeCname then
        if scan.cnameCount = 0 then .leave scan false
        else
          let scan := { scan with
            cnameCount := scan.cnameCount - 1
            session := scan.session.call env (.insertCname scan.name ctx.now head.attl)
            cttl := min head.attl scan.cttl }
          match extractName scan.packet ctx.qlen head.p1 0 with
          | none => .leave scan false
          | some (_, name) => .restart { scan with name := name }
      else
        let scan := { scan with found := true }
        let len := addrlen flags
        if checkLen ctx.qlen head.p1 len = false then .leave scan false
        else
          let addr := scan.packet.slice head.p1 len
          if ctx.checkRebind ∧ .ipv4 ∈ flags ∧ privateNet addr (!ctx.opts.optLocalRebind) then
            .leave scan true
          else
            AnswerScan.advance ctx
              { scan with
                session := scan.session.call env
                  (.insertTarget (some scan.name) (some addr) ctx.now head.attl
                    (insert .forward flags)) }
              head.endrr
    else scan.advance ctx head.endrr

/-- The loop over the answers, from the label that a CNAME goes back to. -/
def answerPass (ctx : ReplyContext) (body : AnswerScan → Outcome AnswerScan) (scan : AnswerScan) :
    Outcome AnswerScan :=
  match skipQuestions scan.packet ctx.qlen with
  | none => .leave scan false
  | some p1 => countedLoop body scan.packet.ancount { scan with p1 := p1 }

/-- The loop over the answers, which starts again at most as often as there are CNAMEs left to
follow. -/
def answerPasses (ctx : ReplyContext) (body : AnswerScan → Outcome AnswerScan) :
    ℕ → AnswerScan → Outcome AnswerScan
  | 0, scan => .leave scan false
  | fuel + 1, scan => match answerPass ctx body scan with
    | .restart scan => answerPasses ctx body fuel scan
    | outcome => outcome

/-! ### The questions -/

structure ReplyState where
  session : Session
  packet : Packet
  p : ℕ
  searchedSoa : Bool
  ttl : ℕ

/-- `find_soa`, once. -/
def ReplyState.searchSoa (ctx : ReplyContext) (state : ReplyState) : ReplyState :=
  if state.searchedSoa then state
  else
    let (packet, ttl) := findSoa ctx.opts ctx.qlen false state.packet
    { state with packet := packet, ttl := ttl, searchedSoa := true }

/-- The answers to a question, unless there is no such name. -/
def questionAnswers (ctx : ReplyContext) (body : AnswerScan → Outcome AnswerScan) (flags : Flags)
    (name : List UInt8) (state : ReplyState) : Outcome AnswerScan :=
  let scan : AnswerScan :=
    { session := state.session, packet := state.packet, p1 := 0, name := name, cttl := ulongMax
      found := false, cnameCount := 5 }
  if .nxdomain ∈ flags then .next scan else answerPasses ctx body 6 scan

/-- The variables behind the loop over the answers. -/
def ReplyState.afterAnswers (state : ReplyState) (scan : AnswerScan) : ReplyState :=
  { state with session := scan.session, packet := scan.packet }

/-- Without an answer, that an address has no name is cached. -/
def ReplyState.negativePtr (env : Env) (ctx : ReplyContext) (nameEncoding : Flag)
    (addr : List UInt8) (flags : Flags) (state : ReplyState) (found : Bool) : ReplyState :=
  if found = false ∧ ctx.opts.optNoNeg = false then
    let state := state.searchSoa ctx
    if state.ttl ≠ 0 then
      { state with
        session := state.session.call env
          (.insertReverse none (some addr) ctx.now state.ttl
            ({nameEncoding, .reverse, .neg} ∪ flags)) }
    else state
  else state

def ptrQuestion (env : Env) (ctx : ReplyContext) (namep : ℕ) (flags : Flags) (name : List UInt8)
    (state : ReplyState) : Outcome ReplyState :=
  match inArpaName2Addr name with
  | none => .next state
  | some (v6, addr) =>
    let nameEncoding : Flag := if v6 then .ipv6 else .ipv4
    match questionAnswers ctx (ptrAnswer env ctx namep nameEncoding addr) flags name state with
    | .leave scan rebind => .leave (state.afterAnswers scan) rebind
    | .next scan | .restart scan =>
      .next ((state.afterAnswers scan).negativePtr env ctx nameEncoding addr flags scan.found)

/-- Without an answer, that a name has no address is cached. -/
def ReplyState.negativeForward (env : Env) (ctx : ReplyContext) (name : List UInt8) (cttl : ℕ)
    (flags : Flags) (state : ReplyState) (found : Bool) : ReplyState :=
  if found = false ∧ ctx.opts.optNoNeg = false then
    let state := state.searchSoa ctx
    -- without an SOA record the time is that of the CNAME that points here
    if state.ttl ≠ 0 ∨ state.session.cpp.isSome then
      { state with
        session := state.session.call env (.insertTarget (some name) none ctx.now
          (if state.ttl ≠ 0 then state.ttl else cttl) ({.forward, .neg} ∪ flags)) }
    else state
  else state

def forwardQuestion (env : Env) (ctx : ReplyContext) (qtype : ℕ) (flags : Flags) (name : List UInt8)
    (state : ReplyState) : Outcome ReplyState :=
  match questionAnswers ctx (forwardAnswer env ctx qtype flags) flags name state with
  | .leave scan rebind => .leave (state.afterAnswers scan) rebind
  | .next scan | .restart scan =>
    .next ((state.afterAnswers scan).negativeForward env ctx scan.name scan.cttl flags scan.found)

def replyQuestion (env : Env) (ctx : ReplyContext) (state : ReplyState) : Outcome ReplyState :=
  let state := { state with session := state.session.call env .nextQuestion }
  let flags : Flags := if state.packet.rcode = 3 then {.nxdomain} else ∅
  let namep := state.p
  match extractName state.packet ctx.qlen state.p 4 with
  | none => .leave state false
  | some (p, name) =>
    let qtype := state.packet.getShort p
    let qclass := state.packet.getShort (p + 2)
    let state := { state with p := p + 4 }
    if qclass ≠ classIn then .next state
    else if qtype = typePtr then ptrQuestion env ctx namep flags name state
    else if qtype = typeA then forwardQuestion env ctx qtype (insert .ipv4 flags) name state
    else if qtype = typeAaaa then forwardQuestion env ctx qtype (insert .ipv6 flags) name state
    else .next state

/-- `extract_addresses` up to `cache_end_insert`. -/
def extractBatch (env : Env) (ctx : ReplyContext) (packet : Packet) (session : Session) :
    Outcome ReplyState :=
  let session := session.call env .startInsert
  let state : ReplyState :=
    if ctx.opts.doctors ≠ [] ∨ ctx.opts.optLog then
      let (packet, ttl) := findSoa ctx.opts ctx.qlen true packet
      { session := session, packet := packet, p := headerSize, searchedSoa := true, ttl := ttl }
    else { session := session, packet := packet, p := headerSize, searchedSoa := false, ttl := 0 }
  countedLoop (replyQuestion env ctx) state.packet.qdcount state

/-- The reply may be cached: it is not truncated, checking was not disabled, and the server is
recursive. -/
def cacheable (ctx : ReplyContext) (packet : Packet) : Bool :=
  packet.hb3 &&& 0x02 = 0 ∧ packet.hb4 &&& 0x10 = 0 ∧ packet.hb4 &&& 0x80 ≠ 0 ∧
    ctx.checkingDisabled = false

/-- `extract_addresses`, true if the reply looks like a rebinding attack. -/
def extractAddresses (env : Env) (ctx : ReplyContext) (packet : Packet) (session : Session) :
    (Session × Packet) × Bool :=
  match extractBatch env ctx packet session with
  | .leave state rebind => ((state.session, state.packet), rebind)
  | .next state | .restart state =>
    if cacheable ctx state.packet then ((state.session.call env .endInsert, state.packet), false)
    else ((state.session, state.packet), false)

/-! ### The loops -/

/-- The value has a property however the body ends. -/
def Outcome.All {α : Type} (property : α → Prop) : Outcome α → Prop
  | .next value => property value
  | .restart value => property value
  | .leave value _ => property value

theorem countedLoop_all {α : Type} {property : α → Prop} {body : α → Outcome α}
    (hbody : ∀ value, property value → (body value).All property) (count : ℕ) :
    ∀ value, property value → (countedLoop body count value).All property := by
  induction count with
  | zero => exact fun _ h ↦ h
  | succ count ih =>
    intro value hvalue
    have hone := hbody value hvalue
    rw [countedLoop]
    cases hresult : body value with
    | next value' =>
      rw [hresult] at hone
      exact ih value' hone
    | restart value' =>
      rw [hresult] at hone
      exact hone
    | leave value' rebind =>
      rw [hresult] at hone
      exact hone

end CrossBreeder.Dnsmasq
