import CrossBreeder.Dnsmasq.ForwardTable

/-!
# Replies to clients

Which replies the forwarder accepts, and what clients get.

`replyQuery_used` says what is known about a reply that is used: it comes from a server, and it has
the id of a query on its way and the CRC of its questions, or the CRC that stands for no question.

`LogInv` says that no query gets two packets and that a packet for a client is for a query that was
received.
-/

namespace CrossBreeder.Dnsmasq

open Foundation

/-! ### Replies that are used -/

/-- The questions of a reply are those of a record, as far as their CRC tells, or there is no
question. -/
def SameQuestions (reply : ServerReply) (f : Frec) : Prop :=
  questionsCrc reply.packet reply.n = f.crc ∨ questionsCrc reply.packet reply.n = crcUnknown

theorem acceptReply_spec {s : ForwardState} {reply : ServerReply} {number : ℕ}
    (haccept : acceptReply s reply = some number) :
    (∃ server ∈ s.servers, server.has (servLiteralAddress ||| servNoAddr) = false ∧
      server.addr = reply.serveraddr) ∧
    number < s.frecs ∧ (s.frec number).sentto.isSome ∧ (s.frec number).newId = reply.packet.id ∧
    SameQuestions reply (s.frec number) := by
  unfold acceptReply at haccept
  split_ifs at haccept with hreply
  have htest := List.find?_some haccept
  simp only [decide_eq_true_eq] at htest
  refine ⟨?_, mem_frecList (List.mem_of_find?_eq_some haccept), htest.1, htest.2.1,
    htest.2.2.imp Eq.symm id⟩
  obtain ⟨server, hserver, hfrom⟩ := List.any_eq_true.mp hreply.1
  exact ⟨server, hserver, by simpa using hfrom⟩

/-- A reply without a question, or whose first question cannot be read, has the CRC that is not
looked at. -/
theorem questionsCrc_unknown {packet : Packet} {n : ℕ}
    (hnone : packet.qdcount = 0 ∨ extractName packet n headerSize 4 = none) :
    questionsCrc packet n = crcUnknown := by
  unfold questionsCrc
  rcases hnone with hnone | hbad
  · rw [hnone]
    rfl
  · cases packet.qdcount with
    | zero => rfl
    | succ count =>
      unfold questionsCrcLoop
      rw [hbad]

structure SameAsker (f g : Frec) : Prop where
  serial : f.serial = g.serial
  source : f.source = g.source
  origId : f.origId = g.origId
  newId : f.newId = g.newId
  crc : f.crc = g.crc

/-- A packet for the query of a record: to its client, with the id that the client chose, or to a
server, with the id of the record. -/
def ForwardEvent.IsFor (f : Frec) : ForwardEvent → Prop
  | .query .. => False
  | .upstream serial _ id _ => serial = f.serial ∧ id = f.newId
  | .client record dest id _ => record = some (f.serial, f.crc) ∧ dest = f.source ∧ id = f.origId

/-- Only one record changes, which stays that of its query, and all packets are for it. -/
structure ForRecord (number : ℕ) (s s' : ForwardState) : Prop where
  others : ∀ n ≠ number, s'.frec n = s.frec n
  same : SameAsker (s'.frec number) (s.frec number)
  log : ∃ events, s'.log = events ++ s.log ∧ ∀ event ∈ events, event.IsFor (s.frec number)

namespace ForRecord

variable {number : ℕ} {s s' s'' : ForwardState}

theorem of_eq (hfrec : s'.frec = s.frec) (hlog : s'.log = s.log) : ForRecord number s s' :=
  ⟨fun n _ ↦ by rw [hfrec], by rw [hfrec]; exact ⟨rfl, rfl, rfl, rfl, rfl⟩, [], hlog, by simp⟩

theorem trans (h : ForRecord number s s') (h' : ForRecord number s' s'') :
    ForRecord number s s'' := by
  obtain ⟨events, hlog, hevents⟩ := h.log
  obtain ⟨events', hlog', hevents'⟩ := h'.log
  obtain ⟨hserial, hsource, horigId, hnewId, hcrc⟩ := h.same
  refine ⟨fun n hn ↦ (h'.others n hn).trans (h.others n hn), ?_, events' ++ events, ?_, ?_⟩
  · exact ⟨h'.same.serial.trans hserial, h'.same.source.trans hsource,
      h'.same.origId.trans horigId, h'.same.newId.trans hnewId, h'.same.crc.trans hcrc⟩
  · rw [hlog', hlog, List.append_assoc]
  · intro event hevent
    rcases List.mem_append.mp hevent with hevent | hevent
    · have hfor := hevents' event hevent
      cases event <;> simp only [ForwardEvent.IsFor, hserial, hsource, horigId, hnewId,
        hcrc] at hfor ⊢ <;>
        exact hfor
    · exact hevents event hevent

theorem setFrec {f : Frec} (hsame : SameAsker f (s.frec number)) :
    ForRecord number s (s.setFrec number f) :=
  ⟨fun _ hn ↦ ForwardState.setFrec_of_ne s number f hn,
    by rwa [ForwardState.setFrec_self], [], rfl, by simp⟩

theorem freeFrec (s : ForwardState) (number : ℕ) : ForRecord number s (s.freeFrec number) := by
  refine ⟨fun _ hn ↦ frec_freeFrec_of_ne hn, ?_, [], freeFrec_log, by simp⟩
  rw [frec_freeFrec_self]
  exact ⟨rfl, rfl, rfl, rfl, rfl⟩

theorem note {event : ForwardEvent} (hevent : event.IsFor (s.frec number)) :
    ForRecord number s (s.note event) :=
  ⟨fun _ _ ↦ rfl, ⟨rfl, rfl, rfl, rfl, rfl⟩, [event], rfl, by simpa using hevent⟩

theorem sentTo (s : ForwardState) (number : ℕ) (server : Server) (packet : Packet) :
    ForRecord number s (sentTo s number server packet) := by
  refine (setFrec (f := { s.frec number with sentto := some server }) ⟨rfl, rfl, rfl, rfl,
    rfl⟩).trans (note ?_)
  rw [ForwardState.setFrec_self]
  exact ⟨rfl, rfl⟩

theorem sendLoop (net : Net) (number : ℕ) (type : UInt16) (domain : List UInt8) (packet : Packet)
    (servers : List Server) (s : ForwardState) (forwarded : Bool) :
    ForRecord number s (sendLoop net number type domain packet servers s forwarded).1 := by
  refine sendLoop_rule (fun state _ ↦ ForRecord number s state) (fun state _ ↦
    ForRecord number s state) net number
    type domain packet servers ?_ (fun _ _ _ _ h _ ↦ h.trans (sentTo ..)) ?_ (fun _ _ h ↦
      h) s forwarded (of_eq rfl rfl)
  · intro state _ server _ h
    obtain ⟨-, -, hlog, -, hother, rfd4, rfd6, hfrec⟩ :=
      @serverSocket_fields state number net server
    refine h.trans ⟨hother, ?_, [], hlog, by simp⟩
    rw [hfrec]
    exact ⟨rfl, rfl, rfl, rfl, rfl⟩
  · exact fun state _ _ _ h _ ↦ (h.trans (sentTo ..)).trans (setFrec ⟨rfl, rfl, rfl, rfl, rfl⟩)

theorem askAll (env : ForwardEnv) (s : ForwardState) (number : ℕ) :
    ForRecord number s (askAll env s number) := by
  unfold Dnsmasq.askAll
  split_ifs
  · exact of_eq rfl rfl
  · exact (setFrec (f := { s.frec number with forwardall := 1 }) ⟨rfl, rfl, rfl, rfl, rfl⟩).trans
      (of_eq rfl rfl)

theorem retryQuery (env : ForwardEnv) (net : Net) (s : ForwardState) (packet : Packet)
    (plen number : ℕ) : ForRecord number s (retryQuery env net s none packet plen number) := by
  unfold Dnsmasq.retryQuery
  cases (s.frec number).sentto with
  | none => exact of_eq rfl rfl
  | some sentto =>
    unfold sendQuery
    dsimp only
    have hloop :=
      (askAll env s number).trans (sendLoop net number (sentto.flags &&& servType) sentto.domain
      (addMac net none (packet.setId (s.frec number).newId) plen).1 (serversAfter s.servers sentto)
        _ false)
    generalize Dnsmasq.sendLoop net number _ _ _ _ _ _ = result at hloop ⊢
    obtain ⟨state, _ | _⟩ := result
    · exact hloop.trans (freeFrec ..)
    · exact hloop

theorem passReply (env : ForwardEnv) (s : ForwardState) (reply : ServerReply)
    (number : ℕ) (now : ℤ) : ForRecord number s (passReply env s reply number now) := by
  unfold Dnsmasq.passReply
  dsimp only
  generalize processReply env.cache env.process reply.packet reply.n now _ _ _ = result
  have hsession : ForRecord number s { s with session := result.1 } := of_eq rfl rfl
  split_ifs
  · exact hsession.trans (freeFrec ..)
  · refine (hsession.trans ?_).trans (freeFrec ..)
    exact note ⟨rfl, rfl, rfl⟩

theorem settleReply (env : ForwardEnv) (s : ForwardState) (reply : ServerReply)
    (number : ℕ) (now : ℤ) : ForRecord number s (settleReply env s reply number now) := by
  unfold Dnsmasq.settleReply
  have hless : ForRecord number s (s.setFrec number
      { s.frec number with forwardall := (s.frec number).forwardall - 1 }) :=
        setFrec ⟨rfl, rfl, rfl, rfl, rfl⟩
  dsimp only
  split_ifs
  · exact passReply ..
  · exact hless.trans (passReply ..)
  · exact hless

theorem replyQuery (env : ForwardEnv) (net : Net) (s : ForwardState) (reply : ServerReply) (now : ℤ)
    (haccept : acceptReply s reply = some number) :
    ForRecord number s (replyQuery env net s reply now) := by
  unfold Dnsmasq.replyQuery
  rw [haccept]
  dsimp only
  split
  · exact of_eq rfl rfl
  · next sentto _ =>
    obtain ⟨-, -, hfrec, -, hlog, -⟩ := @rememberServer_fields env s reply sentto
    split
    · exact retryQuery ..
    · exact (of_eq hfrec hlog).trans (settleReply ..)

end ForRecord

/-- A reply that is cached or forwarded comes from a server, and there is a record that it is for:
with its id and its questions, as far as the CRC tells, and no other record changes or has a packet
sent for it. Any questions do for a reply that has none or whose first one cannot be read. -/
theorem replyQuery_used (env : ForwardEnv) (net : Net) (s : ForwardState) (reply : ServerReply)
    (now : ℤ) :
    ((replyQuery env net s reply now).session ≠ s.session ∨
      (replyQuery env net s reply now).log ≠ s.log →
      (∃ server ∈ s.servers, server.has (servLiteralAddress ||| servNoAddr) = false ∧
        server.addr = reply.serveraddr) ∧
      ∃ number < s.frecs, (s.frec number).sentto.isSome ∧ (s.frec number).newId = reply.packet.id ∧
        SameQuestions reply (s.frec number) ∧ ForRecord number s (replyQuery env net s reply now)) ∧
    (reply.packet.qdcount = 0 ∨ extractName reply.packet reply.n headerSize 4 = none →
      ∀ f, SameQuestions reply f) := by
  refine ⟨fun hused ↦ ?_, fun hnone f ↦ .inr (questionsCrc_unknown hnone)⟩
  cases haccept : acceptReply s reply with
  | none =>
    have hsame : replyQuery env net s reply now = s := by
      unfold replyQuery
      rw [haccept]
    rw [hsame] at hused
    exact absurd hused (by simp)
  | some number =>
    obtain ⟨hserver, hlt, huse, hid, hquestions⟩ := acceptReply_spec haccept
    exact ⟨hserver, number, hlt, huse, hid, hquestions, .replyQuery env net s reply now haccept⟩

/-- A query for the address of `a`. -/
def addressQuery (id : UInt8) : Packet :=
  [0, id, 1, 0, 0, 1, 0, 0, 0, 0, 0, 0, 1, 97, 0, 0, 1, 0, 1]

def bareReply :
    ServerReply := ⟨(plainServer 0 1).addr, [0, 77, 0x81, 0x80, 0, 0, 0, 0, 0, 0, 0, 0], 12⟩

/-- A reply without a question is forwarded to a client that asked one. -/
theorem bareReply_is_forwarded : ∃ s, ForwardReachable plainEnv s ∧
    bareReply.packet.qdcount = 0 ∧ (s.frec 0).crc = questionsCrc (addressQuery 7) 19 ∧
    questionsCrc bareReply.packet bareReply.n ≠ (s.frec 0).crc ∧
    (replyQuery plainEnv (plainNet []) s bareReply 0).log ≠ s.log := by
  obtain ⟨s, hreach, htest⟩ :=
    exists_forwardReachable plainEnv plainServers (fun _ ↦ blankFrec) plainSession
    [(plainNet [77], .query plainClient (addressQuery 7) 19 0)]
    (fun s ↦ (s.frec 0).crc = questionsCrc (addressQuery 7) 19 ∧
      questionsCrc bareReply.packet bareReply.n ≠ (s.frec 0).crc ∧
      (replyQuery plainEnv (plainNet []) s bareReply 0).log.length ≠ s.log.length)
        (by decide +kernel)
  simp only [ne_eq, decide_eq_true_eq] at htest
  exact ⟨s, hreach, rfl, htest.1, htest.2.1, fun hlog ↦ htest.2.2 (by rw [hlog])⟩

/-! ### The queries on their way -/

def Carries (s : ForwardState) (number : ℕ) : Prop := number < s.frecs ∧
    (s.frec number).sentto.isSome

structure SameQuery (f g : Frec) : Prop where
  serial : f.serial = g.serial
  source : f.source = g.source
  origId : f.origId = g.origId
  newId : f.newId = g.newId
  crc : f.crc = g.crc
  forwardall : f.forwardall = g.forwardall

structure Quiet (s s' : ForwardState) : Prop where
  serials : s'.serials = s.serials
  log : s'.log = s.log
  records : ∀ number, Carries s' number → Carries s number ∧
    SameQuery (s'.frec number) (s.frec number)

theorem SameQuery.refl (f : Frec) : SameQuery f f := ⟨rfl, rfl, rfl, rfl, rfl, rfl⟩

theorem SameQuery.trans {f g h : Frec} (hfirst : SameQuery f g) (hlast : SameQuery g h) :
    SameQuery f h :=
  ⟨hfirst.serial.trans hlast.serial, hfirst.source.trans hlast.source,
    hfirst.origId.trans hlast.origId,
    hfirst.newId.trans hlast.newId, hfirst.crc.trans hlast.crc,
      hfirst.forwardall.trans hlast.forwardall⟩

namespace Quiet

variable {s s' s'' : ForwardState} {number : ℕ}

theorem refl (s : ForwardState) : Quiet s s := ⟨rfl, rfl, fun _ huse ↦ ⟨huse, .refl _⟩⟩

theorem trans (hfirst : Quiet s s') (hlast : Quiet s' s'') : Quiet s s'' := by
  refine ⟨hlast.serials.trans hfirst.serials, hlast.log.trans hfirst.log, fun number huse ↦ ?_⟩
  obtain ⟨hmiddle, hsame⟩ := hlast.records number huse
  obtain ⟨huse, hsame'⟩ := hfirst.records number hmiddle
  exact ⟨huse, hsame.trans hsame'⟩

theorem of_eq (hfrecs : s'.frecs = s.frecs) (hfrec : s'.frec = s.frec)
    (hserials : s'.serials = s.serials) (hlog : s'.log = s.log) : Quiet s s' := by
  refine ⟨hserials, hlog, fun number huse ↦ ?_⟩
  unfold Carries at huse ⊢
  rw [hfrecs, hfrec] at huse
  exact ⟨huse, hfrec ▸ .refl _⟩

theorem freeFrec (s : ForwardState) (number : ℕ) : Quiet s (s.freeFrec number) := by
  refine ⟨freeFrec_serials, freeFrec_log, fun n huse ↦ ?_⟩
  unfold Carries at huse ⊢
  by_cases hn : n = number
  · rw [hn, frec_freeFrec_self] at huse
    exact absurd huse.2 (by simp)
  · rw [frec_freeFrec_of_ne hn, freeFrec_frecs] at huse
    rw [frec_freeFrec_of_ne hn]
    exact ⟨huse, .refl _⟩

theorem allocateFrec (s : ForwardState) (now : ℤ) : Quiet s (s.allocateFrec now) := by
  refine ⟨rfl, rfl, fun n huse ↦ ?_⟩
  unfold Carries at huse ⊢
  by_cases hn : n = s.frecs
  · subst hn
    exact absurd huse.2 (by simp [ForwardState.allocateFrec])
  · have hsame : (s.allocateFrec now).frec n = s.frec n := Function.update_of_ne hn _ _
    rw [hsame] at huse ⊢
    exact ⟨⟨Nat.lt_of_le_of_ne (Nat.lt_succ_iff.mp huse.1) hn, huse.2⟩, .refl _⟩

theorem touchFrec (s : ForwardState) (number : ℕ) (now : ℤ) : Quiet s (s.touchFrec number now) := by
  refine ⟨rfl, rfl, fun n huse ↦ ?_⟩
  unfold Carries ForwardState.touchFrec at huse ⊢
  by_cases hn : n = number
  · subst hn
    rw [ForwardState.setFrec_self] at huse ⊢
    exact ⟨huse, ⟨rfl, rfl, rfl, rfl, rfl, rfl⟩⟩
  · rw [ForwardState.setFrec_of_ne _ _ _ hn] at huse ⊢
    exact ⟨huse, .refl _⟩

theorem scanFrecs (now : ℤ) (numbers : List ℕ) :
    ∀ (s : ForwardState) (target oldest : Option ℕ), Quiet s
      (s.scanFrecs now numbers target oldest).1 := by
  induction numbers with
  | nil => exact fun s _ _ ↦ refl s
  | cons number rest ih =>
    intro s target oldest
    unfold ForwardState.scanFrecs
    split_ifs
    · exact ih s _ _
    · exact (freeFrec s number).trans (ih _ _ _)
    · exact ih s _ _

theorem getNewFrec (env : ForwardEnv) (net : Net) (s : ForwardState) (now : ℤ) (wait : Bool) :
    Quiet s (s.getNewFrec env net now wait).1 := by
  have hscan := scanFrecs now s.frecList s none none
  unfold ForwardState.getNewFrec
  generalize s.scanFrecs now s.frecList none none = result at hscan
  obtain ⟨scanned, _ | target, oldest⟩ := result
  · refine hscan.trans ?_
    dsimp only
    unfold ForwardState.replaceFrec
    split
    · split_ifs
      · exact allocateFrec _ now
      · exact refl _
      · exact (freeFrec _ _).trans (touchFrec _ _ now)
    · split_ifs
      · exact refl _
      · exact allocateFrec _ now
      · exact refl _
  · exact hscan.trans (touchFrec _ _ now)

theorem serverGone (s : ForwardState) (server : Server) : Quiet s (s.serverGone server) := by
  have hloop : ∀ (numbers : List ℕ) (s : ForwardState), Quiet s (numbers.foldl
      (fun s number ↦ if (s.frec number).sentto = some server then s.freeFrec number
        else s) s) := by
    intro numbers
    induction numbers with
    | nil => exact refl
    | cons number rest ih =>
      intro s
      rw [List.foldl_cons]
      split_ifs
      · exact (freeFrec s number).trans (ih _)
      · exact ih s
  exact (hloop s.frecList s).trans (of_eq rfl rfl rfl rfl)

end Quiet

/-! ### Packets for clients -/

def ForwardEvent.answers (serial : ℕ) : ForwardEvent → Bool
  | .client (some (other, _)) _ _ _ => other = serial
  | _ => false

def Working (s : ForwardState) (current : Option ℕ) (number : ℕ) :
    Prop := Carries s number ∨ current = some number

/-- What is known about packets for clients: each is for a query that was received, no query gets
two of them, and a query on its way has got none. -/
structure LogInv (s : ForwardState) (current : Option ℕ) : Prop where
  bound : ∀ number, Working s current number → (s.frec number).serial < s.serials
  distinct : ∀ m n, Working s current m → Working s current n → m ≠ n →
    (s.frec m).serial ≠ (s.frec n).serial
  unanswered : ∀ number, Working s current number → ∀ event ∈ s.log,
    event.answers (s.frec number).serial = false
  origin : ∀ number, Working s current number →
    .query (s.frec number).source (s.frec number).origId (s.frec number).crc ∈ s.log
  events : ∀ serial crc dest id packet, .client (some (serial, crc)) dest id packet ∈ s.log →
    serial < s.serials ∧ .query dest id crc ∈ s.log
  once : ∀ serial, (s.log.filter (ForwardEvent.answers serial)).length ≤ 1

variable {sent : List ForwardEvent}

section Log

variable {s s' : ForwardState} {current : Option ℕ} {number : ℕ}

theorem LogInv.quiet (h : LogInv s none) (hquiet : Quiet s s') : LogInv s' none := by
  have hback : ∀ n, Working s' none n → Working s none n ∧ SameQuery (s'.frec n) (s.frec n) :=
    fun n hworking ↦ by
    obtain ⟨huse, hsame⟩ := hquiet.records n (hworking.resolve_right (by simp))
    exact ⟨.inl huse, hsame⟩
  refine ⟨fun n hn ↦ ?_, fun m n hm hn hne ↦ ?_, fun n hn ↦ ?_, fun n hn ↦ ?_, ?_, ?_⟩
  · obtain ⟨hn, hsame⟩ := hback n hn
    rw [hsame.serial, hquiet.serials]
    exact h.bound n hn
  · obtain ⟨hm, hsame⟩ := hback m hm
    obtain ⟨hn, hsame'⟩ := hback n hn
    rw [hsame.serial, hsame'.serial]
    exact h.distinct m n hm hn hne
  · obtain ⟨hn, hsame⟩ := hback n hn
    rw [hsame.serial, hquiet.log]
    exact h.unanswered n hn
  · obtain ⟨hn, hsame⟩ := hback n hn
    rw [hsame.source, hsame.origId, hsame.crc, hquiet.log]
    exact h.origin n hn
  · rw [hquiet.log, hquiet.serials]
    exact h.events
  · rw [hquiet.log]
    exact h.once

def ForwardEvent.Plain : ForwardEvent → Prop
  | .client (some _) _ _ _ => False
  | _ => True

theorem ForwardEvent.Plain.answers {event : ForwardEvent} (hplain : event.Plain) (serial : ℕ) :
    event.answers serial = false := by
  match event, hplain with
  | .query _ _ _, _ => rfl
  | .upstream _ _ _ _, _ => rfl
  | .client none _ _ _, _ => rfl

/-- Events that are not packets for clients of records. -/
theorem LogInv.plain (h : LogInv s current) {events : List ForwardEvent}
    (hplain : ∀ event ∈ events, event.Plain) (hrecords : ∀ n, Working s' current n →
      Working s current n ∧ (s'.frec n).serial = (s.frec n).serial ∧
      (s'.frec n).source = (s.frec n).source ∧ (s'.frec n).origId = (s.frec n).origId ∧
      (s'.frec n).crc = (s.frec n).crc)
    (hserials : s'.serials = s.serials) (hlog : s'.log = events ++ s.log) : LogInv s' current := by
  have hquiet : ∀ serial, ∀ event ∈ events, event.answers serial = false := fun serial event hmem ↦
    (hplain event hmem).answers serial
  refine ⟨fun n hn ↦ ?_, fun m n hm hn hne ↦ ?_, fun n hn event hmem ↦ ?_, fun n hn ↦ ?_,
    fun serial crc dest id packet hmem ↦ ?_, fun serial ↦ ?_⟩
  · obtain ⟨hn, hserial, -⟩ := hrecords n hn
    rw [hserial, hserials]
    exact h.bound n hn
  · obtain ⟨hm, hserial, -⟩ := hrecords m hm
    obtain ⟨hn, hserial', -⟩ := hrecords n hn
    rw [hserial, hserial']
    exact h.distinct m n hm hn hne
  · obtain ⟨hn, hserial, -⟩ := hrecords n hn
    rw [hserial]
    rw [hlog] at hmem
    exact (List.mem_append.mp hmem).elim (hquiet _ event) (h.unanswered n hn event)
  · obtain ⟨hn, -, hsource, hid, hcrc⟩ := hrecords n hn
    rw [hsource, hid, hcrc, hlog]
    exact List.mem_append_right _ (h.origin n hn)
  · rw [hlog] at hmem
    rcases List.mem_append.mp hmem with hmem | hmem
    · exact (hplain _ hmem).elim
    · obtain ⟨hlt, hquery⟩ := h.events serial crc dest id packet hmem
      exact ⟨hserials.symm ▸ hlt, hlog.symm ▸ List.mem_append_right _ hquery⟩
  · rw [hlog, List.filter_append, List.filter_eq_nil_iff.mpr fun event hmem ↦ by
      simp [hquiet serial event hmem]]
    exact h.once serial

theorem LogInv.answer (h : LogInv s (some number)) (hfree : ¬Carries s' number) {packet : Packet}
    (hrecords : ∀ n ≠ number, Carries s' n → Carries s n ∧ s'.frec n = s.frec n)
    (hserials : s'.serials = s.serials)
    (hlog : s'.log = .client (some ((s.frec number).serial, (s.frec number).crc))
      (s.frec number).source (s.frec number).origId packet :: s.log) : LogInv s' none := by
  have hback : ∀ n, Working s' none n → n ≠ number ∧ Working s (some number) n ∧
    s'.frec n = s.frec n := by
    intro n hworking
    have huse := hworking.resolve_right (by simp)
    have hne : n ≠ number := fun heq ↦ hfree (heq ▸ huse)
    obtain ⟨huse, hsame⟩ := hrecords n hne huse
    exact ⟨hne, .inl huse, hsame⟩
  have hown : Working s (some number) number := .inr rfl
  refine ⟨fun n hn ↦ ?_, fun m n hm hn hne ↦ ?_, fun n hn event hmem ↦ ?_, fun n hn ↦ ?_,
    fun serial crc dest id packet hmem ↦ ?_, fun serial ↦ ?_⟩
  · obtain ⟨-, hn, hsame⟩ := hback n hn
    rw [hsame, hserials]
    exact h.bound n hn
  · obtain ⟨-, hm, hsame⟩ := hback m hm
    obtain ⟨-, hn, hsame'⟩ := hback n hn
    rw [hsame, hsame']
    exact h.distinct m n hm hn hne
  · obtain ⟨hne, hn, hsame⟩ := hback n hn
    rw [hsame]
    rw [hlog] at hmem
    rcases List.mem_cons.mp hmem with rfl | hmem
    · simpa [ForwardEvent.answers] using h.distinct number n hown hn hne.symm
    · exact h.unanswered n hn event hmem
  · obtain ⟨-, hn, hsame⟩ := hback n hn
    rw [hsame, hlog]
    exact List.mem_cons_of_mem _ (h.origin n hn)
  · rw [hlog] at hmem
    rcases List.mem_cons.mp hmem with heq | hmem
    · obtain ⟨hrecord, rfl, rfl, -⟩ := ForwardEvent.client.inj heq
      obtain ⟨rfl, rfl⟩ := Prod.mk.inj (Option.some.inj hrecord)
      exact ⟨hserials.symm ▸ h.bound number hown, hlog.symm ▸ List.mem_cons_of_mem _
        (h.origin number hown)⟩
    · obtain ⟨hlt, hquery⟩ := h.events serial crc dest id packet hmem
      exact ⟨hserials.symm ▸ hlt, hlog.symm ▸ List.mem_cons_of_mem _ hquery⟩
  · rw [hlog, List.filter_cons]
    split_ifs with hanswer
    · obtain rfl : (s.frec number).serial = serial := by simpa [ForwardEvent.answers] using hanswer
      rw [List.filter_eq_nil_iff.mpr fun event hmem ↦ by simp [h.unanswered number hown event hmem]]
      simp
    · exact h.once serial

/-! ### Packets for servers -/

def awaited (forwardall : ℕ) : ℕ := if forwardall = 0 then 1 else forwardall - 1

structure Asked (s : ForwardState) (number : ℕ) (s' : ForwardState) (sent : List ForwardEvent) :
    Prop where
  serials : s'.serials = s.serials
  frecs : s'.frecs = s.frecs
  other : ∀ n ≠ number, s'.frec n = s.frec n
  serial : (s'.frec number).serial = (s.frec number).serial
  source : (s'.frec number).source = (s.frec number).source
  origId : (s'.frec number).origId = (s.frec number).origId
  crc : (s'.frec number).crc = (s.frec number).crc
  log : s'.log = sent ++ s.log
  upstream : ∀ event ∈ sent, ∃ server id packet,
    event = .upstream (s.frec number).serial server id packet

theorem Asked.sentTo (h : Asked s number s' sent) (server : Server) (packet : Packet) :
    Asked s number (sentTo s' number server packet)
      (.upstream (s'.frec number).serial server (s'.frec number).newId packet :: sent) := by
  have hown : ((Dnsmasq.sentTo s' number server packet).frec number) =
      { s'.frec number with sentto := some server } := by
    simp [Dnsmasq.sentTo, ForwardState.note]
  refine ⟨h.serials, h.frecs, fun n hn ↦ ?_, ?_, ?_, ?_, ?_, congrArg _ h.log, fun event hmem ↦ ?_⟩
  · rw [← h.other n hn]
    simp [Dnsmasq.sentTo, ForwardState.note, hn]
  · rw [hown]
    exact h.serial
  · rw [hown]
    exact h.source
  · rw [hown]
    exact h.origId
  · rw [hown]
    exact h.crc
  · rcases List.mem_cons.mp hmem with rfl | hmem
    · exact ⟨_, _, _, by rw [h.serial]⟩
    · exact h.upstream event hmem

theorem Asked.setFrec (h : Asked s number s' sent) {f : Frec}
    (hserial : f.serial = (s'.frec number).serial) (hsource : f.source = (s'.frec number).source)
    (horigId : f.origId = (s'.frec number).origId) (hcrc : f.crc = (s'.frec number).crc) :
    Asked s number (s'.setFrec number f) sent := by
  refine ⟨h.serials, h.frecs, fun n hn ↦ ?_, ?_, ?_, ?_, ?_, h.log, h.upstream⟩
  · rw [ForwardState.setFrec_of_ne _ _ _ hn]
    exact h.other n hn
  all_goals rw [ForwardState.setFrec_self]
  · exact hserial.trans h.serial
  · exact hsource.trans h.source
  · exact horigId.trans h.origId
  · exact hcrc.trans h.crc

theorem sendLoop_asked (net : Net) (type : UInt16) (domain : List UInt8) (packet : Packet)
    (servers : List Server) :
    ∃ sent, Asked s number (sendLoop net number type domain packet servers s false).1 sent ∧
      ((s.frec number).forwardall ≤ 1 →
        sent.length ≤ awaited ((sendLoop net number type domain packet servers s false).1.frec
        number).forwardall) := by
  let before := fun (state : ForwardState) (_ : Bool) ↦ ∃ sent, Asked s number state sent ∧
    ((s.frec number).forwardall ≤ 1 → sent.length ≤ (state.frec number).forwardall - 1)
  let after := fun (state : ForwardState) (_ : Bool) ↦ ∃ sent, Asked s number state sent ∧
    ((s.frec number).forwardall ≤ 1 → sent.length ≤ awaited (state.frec number).forwardall)
  have hstart : Asked s number s [] := ⟨rfl, rfl, fun _ _ ↦ rfl, rfl, rfl, rfl, rfl, rfl, by simp⟩
  refine sendLoop_rule before after net number type domain packet servers ?_ ?_ ?_ ?_ s false
    ⟨[], hstart, fun _ ↦ Nat.zero_le _⟩
  · rintro state forwarded server - ⟨sent, hasked, hcount⟩
    obtain ⟨hfrecs, -, hlog, hserials, hother, rfd4, rfd6, hown⟩ :=
      @serverSocket_fields state number net server
    refine ⟨sent, ⟨hserials.trans hasked.serials, hfrecs.trans hasked.frecs, fun n hn ↦
      ?_, ?_, ?_, ?_, ?_, hlog.trans hasked.log, hasked.upstream⟩, ?_⟩
    · rw [hother n hn]
      exact hasked.other n hn
    all_goals rw [hown]
    · exact hasked.serial
    · exact hasked.source
    · exact hasked.origId
    · exact hasked.crc
    · exact hcount
  · rintro state forwarded server - ⟨sent, hasked, hcount⟩ hzero
    refine ⟨_, hasked.sentTo server packet, fun hone ↦ ?_⟩
    have hnone := hcount hone
    have hsame : ((sentTo state number server packet).frec number).forwardall = 0 := by
      simpa [sentTo, ForwardState.note] using hzero
    rw [hsame, List.length_cons, awaited, if_pos rfl]
    omega
  · rintro state forwarded server - ⟨sent, hasked, hcount⟩ hpos
    refine ⟨_, (hasked.sentTo server packet).setFrec rfl rfl rfl rfl, fun hone ↦ ?_⟩
    have hless := hcount hone
    rw [ForwardState.setFrec_self, List.length_cons]
    dsimp only
    omega
  · rintro state forwarded ⟨sent, hasked, hcount⟩
    refine ⟨sent, hasked, fun hone ↦ (hcount hone).trans ?_⟩
    unfold awaited
    split_ifs <;> omega

def ForwardEvent.sentFor (serial : ℕ) : ForwardEvent → Bool
  | .upstream other _ _ _ => other = serial
  | _ => false

/-- What `sendQuery` does for a record. -/
structure QuerySent (s : ForwardState) (number : ℕ) (client : Option Client) (s' : ForwardState)
    (events : List ForwardEvent) : Prop where
  inv : LogInv s' none
  log : s'.log = events ++ s.log
  serials : s'.serials = s.serials
  other : ∀ n ≠ number, Carries s' n → Carries s n ∧ s'.frec n = s.frec n
  sent : ∀ serial, (∃ event ∈ events, event.sentFor serial = true) → serial = (s.frec number).serial
  silent : client = none → ∀ serial, ∀ event ∈ events, event.answers serial = false
  own : Carries s' number → (s'.frec number).serial = (s.frec number).serial ∧
    ((s.frec number).forwardall ≤ 1 →
      (events.filter (ForwardEvent.sentFor (s.frec number).serial)).length ≤
      awaited (s'.frec number).forwardall)

theorem LogInv.weaken (h : LogInv s current) : LogInv s none := by
  have hworking : ∀ n, Working s none n → Working s current n :=
    fun n hn ↦ .inl (hn.resolve_right (by simp))
  exact ⟨fun n hn ↦ h.bound n (hworking n hn), fun m n hm hn ↦
    h.distinct m n (hworking m hm) (hworking n hn),
    fun n hn ↦ h.unanswered n (hworking n hn), fun n hn ↦ h.origin n (hworking n hn),
      h.events, h.once⟩

theorem LogInv.begin (h : LogInv s none) (huse : Carries s number) : LogInv s (some number) := by
  have hworking : ∀ n, Working s (some number) n → Working s none n := fun n hn ↦ by
    rcases hn with hn | heq
    · exact .inl hn
    · exact .inl (Option.some.inj heq ▸ huse)
  exact ⟨fun n hn ↦ h.bound n (hworking n hn), fun m n hm hn ↦
    h.distinct m n (hworking m hm) (hworking n hn),
    fun n hn ↦ h.unanswered n (hworking n hn), fun n hn ↦ h.origin n (hworking n hn),
      h.events, h.once⟩

theorem LogInv.asked (h : LogInv s (some number)) (hasked : Asked s number s' sent) :
    LogInv s' (some number) := by
  refine h.plain (fun event hmem ↦ ?_) (fun n hn ↦ ?_) hasked.serials hasked.log
  · obtain ⟨server, id, packet, rfl⟩ := hasked.upstream event hmem
    trivial
  · by_cases hnumber : n = number
    · rw [hnumber]
      exact ⟨.inr rfl, hasked.serial, hasked.source, hasked.origId, hasked.crc⟩
    · have hsame := hasked.other n hnumber
      refine ⟨?_, by rw [hsame], by rw [hsame], by rw [hsame], by rw [hsame]⟩
      rcases hn with hn | heq
      · unfold Carries at hn
        rw [hsame, hasked.frecs] at hn
        exact .inl hn
      · exact absurd (Option.some.inj heq).symm hnumber

theorem answerLocally_cases (env : ForwardEnv) (s : ForwardState) (client : Option Client)
    (record : Option (ℕ × UInt32)) (id : UInt16) (packet : Packet) (plen : ℕ)
    (flags : LocalAnswer) : answerLocally env s client record id packet plen flags = s ∨
    ∃ asker answer, client = some asker ∧
      answerLocally env s client record id packet plen flags = s.note
      (.client record asker.udpaddr id answer) := by
  unfold answerLocally
  split
  · exact .inr ⟨_, _, rfl, rfl⟩
  · exact .inl rfl

theorem LogInv.sendQuery (h : LogInv s (some number)) (env : ForwardEnv) (net : Net)
    (client : Option Client) (hsource : ∀ asker, client = some asker →
      asker.udpaddr = (s.frec number).source) (packet : Packet) (plen : ℕ)
    (servers : List Server) (type : UInt16) (domain : List UInt8) :
    ∃ events, QuerySent s number client
      (sendQuery env net s client packet plen number servers type domain) events := by
  unfold Dnsmasq.sendQuery
  dsimp only
  generalize addMac net client packet plen = sent
  obtain ⟨events, hasked, hcount⟩ := @sendLoop_asked s number net type domain sent.1 servers
  generalize sendLoop net number type domain sent.1 servers s false = result at hasked hcount
  have hinv := h.asked hasked
  have hsent : ∀ serial, (∃ event ∈ events, event.sentFor serial = true) →
    serial = (s.frec number).serial := by
    rintro serial ⟨event, hmem, hfor⟩
    obtain ⟨server, id, packet, rfl⟩ := hasked.upstream event hmem
    exact (of_decide_eq_true hfor).symm
  have hsilent : ∀ serial, ∀ event ∈ events, event.answers serial = false :=
    fun serial event hmem ↦ by
    obtain ⟨server, id, packet, rfl⟩ := hasked.upstream event hmem
    rfl
  have hother : ∀ n ≠ number, Carries result.1 n → Carries s n ∧ result.1.frec n = s.frec n :=
    fun n hn huse ↦ by
    unfold Carries at huse ⊢
    rw [hasked.other n hn, hasked.frecs] at huse
    exact ⟨huse, hasked.other n hn⟩
  obtain ⟨last, _ | _⟩ := result
  · -- nothing could be sent, and the record is free
    have hfree : ¬Carries (last.freeFrec number) number := fun huse ↦ by
      unfold Carries at huse
      rw [frec_freeFrec_self] at huse
      exact absurd huse.2 (by simp)
    have hothers : ∀ n ≠ number, Carries (last.freeFrec number) n →
        Carries last n ∧ (last.freeFrec number).frec n = last.frec n := fun n hn huse ↦
      ⟨((Quiet.freeFrec last number).records n huse).1, frec_freeFrec_of_ne hn⟩
    have hback : ∀ n ≠ number, Carries (last.freeFrec number) n →
        Carries s n ∧ (last.freeFrec number).frec n = s.frec n := fun n hn huse ↦ by
      obtain ⟨huse, hsame⟩ := hothers n hn huse
      obtain ⟨huse, hsame'⟩ := hother n hn huse
      exact ⟨huse, hsame.trans hsame'⟩
    rcases answerLocally_cases env (last.freeFrec number) client
      (some ((last.frec number).serial, (last.frec number).crc))
      (last.frec number).origId sent.1 sent.2 .none with heq | ⟨asker, answer, hclient, heq⟩
    · refine ⟨events, ?_⟩
      dsimp only
      rw [heq]
      exact ⟨hinv.weaken.quiet (.freeFrec last number), freeFrec_log.trans hasked.log,
        freeFrec_serials.trans hasked.serials, hback, hsent, fun _ ↦ hsilent, fun huse ↦
          absurd huse hfree⟩
    · refine ⟨.client (some ((last.frec number).serial, (last.frec number).crc)) asker.udpaddr
        (last.frec number).origId answer :: events, ?_⟩
      have hdest : asker.udpaddr = (last.frec number).source :=
        (hsource asker hclient).trans hasked.source.symm
      dsimp only
      rw [heq]
      refine ⟨?_, ?_, freeFrec_serials.trans hasked.serials, hback, ?_, ?_, fun huse ↦
        absurd huse hfree⟩
      · have hlog : ((last.freeFrec number).note
            (.client (some ((last.frec number).serial, (last.frec number).crc))
            asker.udpaddr (last.frec number).origId answer)).log =
            .client (some ((last.frec number).serial, (last.frec number).crc))
              (last.frec number).source (last.frec number).origId answer :: last.log := by
          simp [ForwardState.note, hdest]
        exact hinv.answer hfree (fun n hn huse ↦ hothers n hn huse) freeFrec_serials hlog
      · simpa [ForwardState.note] using hasked.log
      · rintro serial ⟨event, hmem, hfor⟩
        rcases List.mem_cons.mp hmem with rfl | hmem
        · exact absurd hfor (by simp [ForwardEvent.sentFor])
        · exact hsent serial ⟨event, hmem, hfor⟩
      · exact fun hnone ↦ absurd (hnone.symm.trans hclient) (by simp)
  · refine ⟨events, hinv.weaken, hasked.log, hasked.serials, hother, hsent, fun _ ↦ hsilent, fun _ ↦
      ⟨hasked.serial, fun hone ↦ ?_⟩⟩
    exact (List.length_filter_le _ _).trans (hcount hone)

/-! ### Queries of clients -/

/-- What a call does that is not a reply: a record in use is as before and nothing was sent for it,
or it waits for no more replies than packets were sent for it, and then its query is new or is the
one that was repeated. -/
structure Effect (env : ForwardEnv) (repeated : Option ℕ) (s s' : ForwardState)
    (events : List ForwardEvent) : Prop where
  inv : LogInv s' none
  log : s'.log = events ++ s.log
  serials : s.serials ≤ s'.serials
  sent : ∀ serial, (∃ event ∈ events, event.sentFor serial = true) → serial < s'.serials
  records : ∀ n, Carries s' n →
    (Carries s n ∧ (s'.frec n).serial = (s.frec n).serial ∧
      (s'.frec n).forwardall = (s.frec n).forwardall ∧
      ∀ event ∈ events, event.sentFor (s'.frec n).serial = false) ∨
    ((s.serials ≤ (s'.frec n).serial ∨ repeated = some n ∧ Carries s n ∧
      (s'.frec n).serial = (s.frec n).serial) ∧ (env.optOrder = false →
        (events.filter (ForwardEvent.sentFor (s'.frec n).serial)).length ≤
          awaited (s'.frec n).forwardall))

variable {env : ForwardEnv}

theorem Effect.of_quiet (h : LogInv s none) (hquiet : Quiet s s') : Effect env none s s' [] := by
  refine ⟨h.quiet hquiet,
    by rw [hquiet.log, List.nil_append], hquiet.serials.ge, by simp, fun n huse ↦ .inl ?_⟩
  obtain ⟨huse, hsame⟩ := hquiet.records n huse
  exact ⟨huse, hsame.serial, hsame.forwardall, by simp⟩

theorem Effect.answerLocally (h : LogInv s none) (client : Option Client) (id : UInt16)
    (packet : Packet) (plen : ℕ) (flags : LocalAnswer) :
    ∃ events, Effect env none s (answerLocally env s client none id packet plen flags) events := by
  rcases answerLocally_cases env s client none id packet plen flags with heq | ⟨asker,
    answer, -, heq⟩
  · rw [heq]
    exact ⟨[], .of_quiet h (.refl s)⟩
  · rw [heq]
    refine ⟨[.client none asker.udpaddr id answer],
      ⟨?_, rfl, Nat.le_refl _, by simp [ForwardEvent.sentFor],
      fun n huse ↦ .inl ⟨huse, rfl, rfl, by simp [ForwardEvent.sentFor]⟩⟩⟩
    exact @LogInv.plain s _ none h [.client none asker.udpaddr id answer]
      (by simp [ForwardEvent.Plain]) (fun n hn ↦ ⟨hn, rfl, rfl, rfl, rfl⟩) rfl rfl

theorem QuerySent.notFor {client : Option Client} {events : List ForwardEvent}
    (h : QuerySent s number client s' events) {serial : ℕ}
    (hserial : serial ≠ (s.frec number).serial) :
    ∀ event ∈ events, event.sentFor serial = false := by
  intro event hmem
  by_contra hfor
  exact hserial (h.sent serial ⟨event, hmem, by simpa using hfor⟩)

/-- A query whose record is there is sent again. -/
theorem Effect.retryQuery (h : LogInv s none) (net : Net) (client : Option Client)
    (huse : Carries s number) (hsource : ∀ asker, client = some asker →
      asker.udpaddr = (s.frec number).source) (packet : Packet) (plen : ℕ) :
    ∃ events, Effect env (some number) s (retryQuery env net s client packet plen number) events ∧
      (retryQuery env net s client packet plen number).serials = s.serials ∧
      (∀ serial, (∃ event ∈ events, event.sentFor serial = true) →
      serial = (s.frec number).serial) ∧
      (client = none → ∀ serial, ∀ event ∈ events, event.answers serial = false) := by
  obtain ⟨sentto, hsentto⟩ := Option.isSome_iff_exists.mp huse.2
  unfold Dnsmasq.retryQuery
  rw [hsentto]
  have hown : ((askAll env s number).frec number).serial = (s.frec number).serial ∧
      ((askAll env s number).frec number).source = (s.frec number).source ∧
      ((askAll env s number).frec number).origId = (s.frec number).origId ∧
      ((askAll env s number).frec number).crc = (s.frec number).crc ∧
      (env.optOrder = false → ((askAll env s number).frec number).forwardall = 1) := by
    unfold askAll
    split_ifs with horder
    · simp [horder]
    · simp
  have hother : ∀ n ≠ number, (askAll env s number).frec n = s.frec n := fun n hn ↦ by
    unfold askAll
    split_ifs
    · rfl
    · exact ForwardState.setFrec_of_ne _ _ _ hn
  obtain ⟨-, hfrecs, hlog, hserials⟩ := @askAll_fields env s number
  have hall : LogInv (askAll env s number) (some number) := by
    refine @LogInv.plain s _ (some number) (h.begin huse) []
      (by simp) (fun n hn ↦ ?_) hserials (by simpa using hlog)
    by_cases hnumber : n = number
    · rw [hnumber]
      exact ⟨.inr rfl, hown.1, hown.2.1, hown.2.2.1, hown.2.2.2.1⟩
    · have hsame := hother n hnumber
      refine ⟨?_, by rw [hsame], by rw [hsame], by rw [hsame], by rw [hsame]⟩
      unfold Working Carries at hn ⊢
      rwa [hsame, hfrecs] at hn
  obtain ⟨events, hsent⟩ :=
    hall.sendQuery env net client (fun asker hasker ↦ (hsource asker hasker).trans hown.2.1.symm)
    (packet.setId (s.frec number).newId) plen (serversAfter s.servers sentto)
      (sentto.flags &&& servType) sentto.domain
  refine ⟨events,
    ⟨hsent.inv, by rw [hsent.log, hlog], by rw [hsent.serials, hserials], fun serial hfor ↦ ?_,
    fun n hn ↦ ?_⟩, hsent.serials.trans hserials, fun serial hfor ↦
      (hsent.sent serial hfor).trans hown.1, hsent.silent⟩
  · rw [hsent.sent serial hfor, hsent.serials]
    exact hall.bound number (.inr rfl)
  · by_cases hnumber : n = number
    · subst hnumber
      obtain ⟨hserial, hcount⟩ := hsent.own hn
      refine .inr ⟨.inr ⟨rfl, huse, hserial.trans hown.1⟩, fun horder ↦ ?_⟩
      rw [hserial]
      exact hcount (hown.2.2.2.2 horder).le
    · obtain ⟨hcarries, hsame⟩ := hsent.other n hnumber hn
      unfold Carries at hcarries
      rw [hother n hnumber, hfrecs] at hcarries
      rw [hsame, hother n hnumber]
      refine .inl ⟨hcarries, rfl, rfl, hsent.notFor ?_⟩
      rw [hown.1]
      exact h.distinct n number (.inl hcarries) (.inl huse) hnumber

/-- Events before a call, with records that are as before or free. -/
theorem Effect.after {between : ForwardState} {repeated : Option ℕ}
    {earlier events : List ForwardEvent} (h : Effect env repeated between s' events)
    (hserials : between.serials = s.serials) (hlog : between.log = earlier ++ s.log)
    (hearlier : ∀ serial, ∀ event ∈ earlier, event.sentFor serial = false)
    (hrecords : ∀ n, Carries between n → Carries s n ∧ SameQuery (between.frec n) (s.frec n)) :
    Effect env repeated s s' (events ++ earlier) := by
  have hcount : ∀ serial, (events ++ earlier).filter (ForwardEvent.sentFor serial) =
      events.filter (ForwardEvent.sentFor serial) := fun serial ↦ by
    have hnone : earlier.filter (ForwardEvent.sentFor serial) = [] :=
      List.filter_eq_nil_iff.mpr fun event hmem ↦ by simp [hearlier serial event hmem]
    rw [List.filter_append, hnone, List.append_nil]
  refine ⟨h.inv, by rw [h.log, hlog, List.append_assoc], hserials ▸ h.serials, fun serial ⟨event,
    hmem, hfor⟩ ↦ ?_,
    fun n huse ↦ ?_⟩
  · rcases List.mem_append.mp hmem with hmem | hmem
    · exact h.sent serial ⟨event, hmem, hfor⟩
    · exact absurd hfor (by simp [hearlier serial event hmem])
  · rcases h.records n huse with ⟨hbetween, hserial, hall, hnone⟩ | ⟨hfresh, hless⟩
    · obtain ⟨hcarries, hsame⟩ := hrecords n hbetween
      refine .inl ⟨hcarries, hserial.trans hsame.serial, hall.trans hsame.forwardall,
        fun event hmem ↦ ?_⟩
      exact (List.mem_append.mp hmem).elim (hnone event) (hearlier _ event)
    · refine .inr ⟨?_, fun horder ↦ by rw [hcount]; exact hless horder⟩
      rcases hfresh with hnew | ⟨heq, hbetween, hserial⟩
      · exact .inl (hserials ▸ hnew)
      · obtain ⟨hcarries, hsame⟩ := hrecords n hbetween
        exact .inr ⟨heq, hcarries, hserial.trans hsame.serial⟩

theorem LogInv.fillFrec (h : LogInv s none) (client : Client) (packet : Packet) {crc : UInt32}
    (newId : UInt16) (norebind : Bool) (hquery : .query client.udpaddr packet.id crc ∈ s.log) :
    LogInv (fillFrec s number client packet crc newId norebind) (some number) := by
  have hother : ∀ n ≠ number, Working (Dnsmasq.fillFrec s number client packet crc newId norebind)
    (some number) n →
      Working s none n ∧ (Dnsmasq.fillFrec s number client packet crc newId norebind).frec
        n = s.frec n := by
    intro n hn hworking
    have hsame : (Dnsmasq.fillFrec s number client packet crc newId norebind).frec n = s.frec n :=
      ForwardState.setFrec_of_ne s number _ hn
    have huse := hworking.resolve_right fun heq ↦ hn (Option.some.inj heq).symm
    unfold Carries at huse
    rw [hsame] at huse
    exact ⟨.inl huse, hsame⟩
  have hown : (Dnsmasq.fillFrec s number client packet crc newId norebind).frec number = _ :=
    ForwardState.setFrec_self s number _
  have hsplit : ∀ n, Working (Dnsmasq.fillFrec s number client packet crc newId norebind)
    (some number) n →
      n = number ∨ n ≠ number ∧ Working s none n ∧
        (Dnsmasq.fillFrec s number client packet crc newId norebind).frec n = s.frec n := by
    intro n hn
    by_cases heq : n = number
    · exact .inl heq
    · exact .inr ⟨heq, hother n heq hn⟩
  refine ⟨fun n hn ↦ ?_, fun m n hm hn hne ↦ ?_, fun n hn event hmem ↦ ?_, fun n hn ↦ ?_,
    fun serial crc dest id packet hmem ↦ ?_, h.once⟩
  · rcases hsplit n hn with rfl | ⟨-, hn, hsame⟩
    · rw [hown]
      exact Nat.lt_succ_self _
    · rw [hsame]
      exact Nat.lt_succ_of_lt (h.bound n hn)
  · rcases hsplit m hm with rfl | ⟨-, hm', hsame⟩
    · rcases hsplit n hn with rfl | ⟨-, hn', hsame⟩
      · exact absurd rfl hne
      · rw [hown, hsame]
        exact (h.bound n hn').ne'
    · rcases hsplit n hn with rfl | ⟨-, hn', hsame'⟩
      · rw [hown, hsame]
        exact (h.bound m hm').ne
      · rw [hsame, hsame']
        exact h.distinct m n hm' hn' hne
  · rcases hsplit n hn with rfl | ⟨-, hn, hsame⟩
    · -- the serial is new, and packets for clients have older ones
      rw [hown]
      match event, hmem with
      | .query _ _ _, _ => rfl
      | .upstream _ _ _ _, _ => rfl
      | .client none _ _ _, _ => rfl
      | .client (some (serial, crc)) dest id packet, hmem =>
        have hold := (h.events serial crc dest id packet hmem).1
        simpa [ForwardEvent.answers] using hold.ne
    · rw [hsame]
      exact h.unanswered n hn event hmem
  · rcases hsplit n hn with rfl | ⟨-, hn, hsame⟩
    · rw [hown]
      exact hquery
    · rw [hsame]
      exact h.origin n hn
  · obtain ⟨hlt, horigin⟩ := h.events serial crc dest id packet hmem
    exact ⟨Nat.lt_succ_of_lt hlt, horigin⟩

theorem Effect.startQuery (h : LogInv s none) (net : Net) (client : Client) (packet : Packet)
    (plen : ℕ) (now : ℤ) {crc : UInt32} (search : ServerSearch) (newId : UInt16)
    (hquery : .query client.udpaddr packet.id crc ∈ s.log) :
    ∃ events, Effect env none s
      (startQuery env net s client packet plen now crc search number newId) events := by
  have hfilled := @LogInv.fillFrec s number h client packet crc newId search.norebind hquery
  have hother : ∀ n ≠ number, (fillFrec s number client packet crc newId search.norebind).frec
    n = s.frec n :=
    fun n hn ↦ ForwardState.setFrec_of_ne s number _ hn
  have hown : (fillFrec s number client packet crc newId search.norebind).frec number = _ :=
    ForwardState.setFrec_self s number _
  have hserial : ((fillFrec s number client packet crc newId search.norebind).frec number).serial =
    s.serials := by
    rw [hown]
  have hsource : ((fillFrec s number client packet crc newId search.norebind).frec number).source =
      client.udpaddr := by
    rw [hown]
  have hserials : (fillFrec s number client packet crc newId search.norebind).serials =
    s.serials + 1 := rfl
  have hlog : (fillFrec s number client packet crc newId search.norebind).log = s.log := rfl
  have hfrecs : (fillFrec s number client packet crc newId search.norebind).frecs = s.frecs := rfl
  unfold Dnsmasq.startQuery
  dsimp only
  generalize fillFrec s number client packet crc newId search.norebind = filled at *
  obtain ⟨-, hfrecs', hfrec', -, hlog', hserials'⟩ := @chooseStart_fields env filled now search.type
  generalize chooseStart env filled now search.type = chosen at *
  obtain ⟨chosen, start, forwardall⟩ := chosen
  let ready :=
    chosen.setFrec number { chosen.frec number with forwardall := if forwardall then 1 else 0 }
  have hready : ready.frec number =
    { chosen.frec number with forwardall := if forwardall then 1 else 0 } :=
    ForwardState.setFrec_self _ _ _
  have hreadyOther : ∀ n ≠ number, ready.frec n = filled.frec n := fun n hn ↦ by
    rw [← hfrec']
    exact ForwardState.setFrec_of_ne _ _ _ hn
  have hreadyOwn : (ready.frec number).serial = (filled.frec number).serial ∧
      (ready.frec number).source = (filled.frec number).source ∧
      (ready.frec number).origId = (filled.frec number).origId ∧
      (ready.frec number).crc = (filled.frec number).crc ∧ (ready.frec number).forwardall ≤ 1 := by
    rw [hready, hfrec']
    refine ⟨rfl, rfl, rfl, rfl, ?_⟩
    split_ifs <;> simp
  have hinv : LogInv ready (some number) := by
    refine @LogInv.plain filled ready (some number) hfilled []
      (by simp) (fun n hn ↦ ?_) hserials' hlog'
    by_cases hnumber : n = number
    · rw [hnumber]
      exact ⟨.inr rfl, hreadyOwn.1, hreadyOwn.2.1, hreadyOwn.2.2.1, hreadyOwn.2.2.2.1⟩
    · have hsame := hreadyOther n hnumber
      refine ⟨?_, by rw [hsame], by rw [hsame], by rw [hsame], by rw [hsame]⟩
      unfold Working Carries at hn ⊢
      rw [hsame] at hn
      exact hn.imp_left fun hn ↦ ⟨hfrecs' ▸ hn.1, hn.2⟩
  obtain ⟨events, hsent⟩ := hinv.sendQuery env net (some client)
    (fun asker hasker ↦
      by rw [hreadyOwn.2.1, hsource, Option.some.inj hasker]) (packet.setId newId) plen
    (start.elim [] (serversFrom ready.servers)) search.type search.domain
  have hreadySerials : ready.serials = s.serials + 1 := hserials'.trans hserials
  refine ⟨events, hsent.inv,
    by rw [hsent.log]; exact congrArg _ (hlog'.trans hlog), ?_, fun serial hfor ↦ ?_, fun n hn ↦ ?_⟩
  · rw [hsent.serials, hreadySerials]
    exact Nat.le_succ _
  · rw [hsent.sent serial hfor, hsent.serials]
    exact hinv.bound number (.inr rfl)
  · by_cases hnumber : n = number
    · subst hnumber
      obtain ⟨hsame, hcount⟩ := hsent.own hn
      refine .inr ⟨.inl ?_, fun _ ↦ ?_⟩
      · rw [hsame, hreadyOwn.1, hserial]
      · rw [hsame]
        exact hcount hreadyOwn.2.2.2.2
    · obtain ⟨hcarries, hsame⟩ := hsent.other n hnumber hn
      have hback : ready.frec n = s.frec n := (hreadyOther n hnumber).trans (hother n hnumber)
      have huse : Carries s n := by
        unfold Carries at hcarries ⊢
        rw [hback] at hcarries
        exact ⟨hfrecs ▸ hfrecs' ▸ hcarries.1, hcarries.2⟩
      rw [hsame, hback]
      refine .inl ⟨huse, rfl, rfl, hsent.notFor ?_⟩
      rw [hreadyOwn.1, hserial]
      exact (h.bound n (.inl huse)).ne

theorem Effect.weaken {events : List ForwardEvent} (h : Effect env none s s' events)
    (repeated : Option ℕ) :
    Effect env repeated s s' events := by
  refine ⟨h.inv, h.log, h.serials, h.sent, fun n huse ↦
    (h.records n huse).imp_right fun ⟨hfresh, hless⟩ ↦ ?_⟩
  exact ⟨.inl (hfresh.resolve_right fun hrepeated ↦ absurd hrepeated.1 (by simp)), hless⟩

theorem Effect.newQuery (h : LogInv s none) (net : Net) (client : Client) (packet : Packet)
    (plen : ℕ) (now : ℤ) {crc : UInt32} (hquery : .query client.udpaddr packet.id crc ∈ s.log)
    (hnext : newQuery env net s client packet plen now crc = some s') :
    ∃ events, Effect env none s s' events := by
  have hafter : ∀ {between : ForwardState}, Quiet s between →
      (∃ events, Effect env none between s' events) → ∃ events, Effect env none s s' events := by
    rintro between hquiet ⟨events, heffect⟩
    exact ⟨events ++ [], heffect.after hquiet.serials hquiet.log (by simp) hquiet.records⟩
  unfold Dnsmasq.newQuery at hnext
  obtain ⟨-, hfrecs, hfrec, -, hlog, hserials⟩ := @requestServers_fields env s packet plen now
  have hrequest : Quiet s (requestServers env s packet plen now).1 :=
    .of_eq hfrecs hfrec hserials hlog
  generalize requestServers env s packet plen now = request at hnext hrequest
  obtain ⟨asked, search⟩ := request
  dsimp only at hnext
  split_ifs at hnext with hflags
  · exact hafter hrequest (Option.some.inj hnext ▸ Effect.answerLocally (h.quiet hrequest) _ _ _ _
      _)
  · have hfound := hrequest.trans (.getNewFrec env net asked now false)
    generalize asked.getNewFrec env net now false = result at hnext hfound
    obtain ⟨found, _ | number⟩ := result
    · exact hafter hfound (Option.some.inj hnext ▸ Effect.answerLocally (h.quiet hfound) _ _ _ _ _)
    · obtain ⟨newId, -, hstart⟩ := Option.map_eq_some_iff.mp hnext
      have hmem : .query client.udpaddr packet.id crc ∈ found.log := by
        rw [hfound.log]
        exact hquery
      exact hafter hfound (hstart ▸ Effect.startQuery (h.quiet hfound) net client packet plen now
        search newId hmem)

theorem Effect.forwardQuery (h : LogInv s none) (net : Net) (client : Client) (packet : Packet)
    (plen : ℕ) (now : ℤ) (hnext : forwardQuery env net s client packet plen now = some s') :
    ∃ events, Effect env (s.lookupFrecBySender packet.id client.udpaddr (questionsCrc packet plen))
      s s' events := by
  let noted := s.note (.query client.udpaddr packet.id (questionsCrc packet plen))
  have hnoted : LogInv noted none :=
    @LogInv.plain s noted none h [.query client.udpaddr packet.id (questionsCrc packet plen)]
      (by simp [ForwardEvent.Plain]) (fun n hn ↦ ⟨hn, rfl, rfl, rfl, rfl⟩) rfl rfl
  have hafter : ∀ {repeated : Option ℕ}, (∃ events, Effect env repeated noted s' events) →
      ∃ events, Effect env repeated s s' events := by
    rintro repeated ⟨events, heffect⟩
    exact ⟨_, @Effect.after s s' env noted repeated [_] events heffect rfl rfl
      (by simp [ForwardEvent.sentFor]) fun n huse ↦ ⟨huse, .refl _⟩⟩
  have hid : Packet.id (packet.set 3 (packet.getD 3 0 &&& 0xdf)) = packet.id := by
    simp [Packet.id, Packet.getShort, Packet.byte, List.getD_eq_getElem?_getD]
  unfold Dnsmasq.forwardQuery at hnext
  dsimp only at hnext
  rw [hid] at hnext
  split_ifs at hnext with hservers
  · have hanswered := @Effect.answerLocally noted env hnoted (some client) packet.id
      (packet.set 3 (packet.getD 3 0 &&& 0xdf)) plen .none
    obtain ⟨events, heffect⟩ := hafter (Option.some.inj hnext ▸ hanswered)
    exact ⟨events, heffect.weaken _⟩
  · split at hnext
    · next number hfound =>
      have htest := List.find?_some hfound
      simp only [decide_eq_true_eq] at htest
      have huse : Carries noted number := ⟨mem_frecList (List.mem_of_find?_eq_some hfound), htest.1⟩
      obtain ⟨events, heffect, -, -, -⟩ :=
        @Effect.retryQuery noted number env hnoted net (some client) huse
        (fun asker hasker ↦ Option.some.inj hasker ▸ htest.2.2.2.symm) _ plen
      have hsame : s.lookupFrecBySender packet.id client.udpaddr (questionsCrc packet plen) =
        some number := hfound
      rw [hsame]
      exact hafter ⟨events, Option.some.inj hnext ▸ heffect⟩
    · obtain ⟨events, heffect⟩ := hafter (Effect.newQuery hnoted net client _ plen now
        (by rw [hid]; exact List.mem_cons_self) hnext)
      exact ⟨events, heffect.weaken _⟩

/-! ### Replies of servers -/

/-- What a reply does to the records, given the one that it is for: no other record changes. -/
structure ReplyEffect (env : ForwardEnv) (s : ForwardState) (number : ℕ) (failed : Bool)
    (s' : ForwardState) (events : List ForwardEvent) : Prop where
  inv : LogInv s' none
  log : s'.log = events ++ s.log
  serials : s'.serials = s.serials
  sent : ∀ serial, (∃ event ∈ events, event.sentFor serial = true) → serial = (s.frec number).serial
  other : ∀ n ≠ number, Carries s' n → Carries s n ∧ (s'.frec n).serial = (s.frec n).serial ∧
    (s'.frec n).forwardall = (s.frec n).forwardall
  own : Carries s' number → (s'.frec number).serial = (s.frec number).serial ∧
    (env.optOrder = false → (events.filter (ForwardEvent.sentFor (s.frec number).serial)).length +
      (awaited (s.frec number).forwardall - 1) ≤ awaited (s'.frec number).forwardall)
  answers : ∀ serial, (∃ event ∈ events, event.answers serial = true) →
    serial = (s.frec number).serial ∧
    (failed = true → env.optOrder = false → awaited (s.frec number).forwardall ≤ 1)

theorem ReplyEffect.passReply {failed : Bool} (h : LogInv s none) (huse : Carries s number)
    (count : ℕ) (reply : ServerReply) (now : ℤ)
    (hlast : failed = true → env.optOrder = false → awaited (s.frec number).forwardall ≤ 1) :
    ∃ events, ReplyEffect env s number failed
      (passReply env (s.setFrec number { s.frec number with forwardall := count }) reply number now)
    events := by
  unfold Dnsmasq.passReply
  rw [ForwardState.setFrec_self]
  dsimp only
  generalize processReply env.cache env.process reply.packet reply.n now _ _ _ = result
  obtain ⟨session, packet, nn⟩ := result
  have hfree : ∀ s : ForwardState, ¬Carries (s.freeFrec number) number := fun s huse ↦ by
    unfold Carries at huse
    rw [frec_freeFrec_self] at huse
    exact absurd huse.2 (by simp)
  have hother : ∀ state : ForwardState, state.frecs = s.frecs →
    (∀ n ≠ number, state.frec n = s.frec n) →
      ∀ n ≠ number, Carries (state.freeFrec number) n →
        Carries s n ∧ (state.freeFrec number).frec n = s.frec n := by
    intro state hfrecs hfrec n hn huse
    obtain ⟨huse, -⟩ := (Quiet.freeFrec state number).records n huse
    unfold Carries at huse
    rw [hfrecs, hfrec n hn] at huse
    rw [frec_freeFrec_of_ne hn, hfrec n hn]
    exact ⟨huse, rfl⟩
  let counted := s.setFrec number { s.frec number with forwardall := count }
  have hset : ∀ n ≠ number, counted.frec n = s.frec n :=
    fun n hn ↦ ForwardState.setFrec_of_ne s number _ hn
  have hrecord : ∀ {n : ℕ} {f : Frec}, Carries s n ∧ f = s.frec n →
      Carries s n ∧ f.serial = (s.frec n).serial ∧ f.forwardall = (s.frec n).forwardall :=
    fun ⟨hcarries, hsame⟩ ↦ ⟨hcarries, by rw [hsame], by rw [hsame]⟩
  split_ifs with hzero
  · have hquiet : ∀ state : ForwardState, state.frecs = s.frecs →
      (∀ n ≠ number, state.frec n = s.frec n) →
        state.serials = s.serials → state.log = s.log → Quiet s (state.freeFrec number) := by
      intro state hfrecs hfrec hserials hlog
      refine ⟨freeFrec_serials.trans hserials, freeFrec_log.trans hlog, fun n huse ↦ ?_⟩
      have hn : n ≠ number := fun heq ↦ hfree state (heq ▸ huse)
      obtain ⟨hcarries, hsame⟩ := hother state hfrecs hfrec n hn huse
      exact ⟨hcarries, hsame ▸ .refl _⟩
    exact ⟨[], h.quiet (hquiet _ rfl hset rfl rfl), freeFrec_log, freeFrec_serials, by simp,
      fun n hn huse ↦ hrecord (hother { counted with session := session } rfl hset n hn huse),
      fun huse ↦ absurd huse (hfree _), by simp⟩
  · refine ⟨[.client (some ((s.frec number).serial, (s.frec number).crc)) (s.frec number).source
      (s.frec number).origId _], ?_, freeFrec_log, freeFrec_serials, by simp [ForwardEvent.sentFor],
      fun n hn huse ↦ ?_, fun huse ↦ absurd huse (hfree _), ?_⟩
    · exact (h.begin huse).answer (hfree _) (hother _ rfl hset) freeFrec_serials freeFrec_log
    · refine hrecord (hother _ ?_ ?_ n hn huse)
      · rfl
      · exact hset
    · rintro serial ⟨event, hmem, hanswers⟩
      rw [List.mem_singleton.mp hmem] at hanswers
      exact ⟨(of_decide_eq_true hanswers).symm, hlast⟩

theorem ReplyEffect.settleReply (h : LogInv s none) (huse : Carries s number) (reply : ServerReply)
    (now : ℤ) :
    ∃ events, ReplyEffect env s number reply.packet.failed
      (settleReply env s reply number now) events := by
  unfold Dnsmasq.settleReply
  dsimp only
  split_ifs with hzero hlast
  · have hpass := @ReplyEffect.passReply s number env reply.packet.failed h huse
      (s.frec number).forwardall reply now fun _ _ ↦ by simp [awaited, hzero]
    have hsame : s.setFrec number { s.frec number with forwardall := (s.frec number).forwardall } =
      s := by
      simp [ForwardState.setFrec]
    rwa [hsame] at hpass
  · refine ReplyEffect.passReply h huse _ reply now fun hfailed _ ↦ ?_
    have hone := hlast.resolve_right (by simp [hfailed])
    simp only [awaited, if_neg hzero]
    omega
  · have hset : ∀ n ≠ number, (s.setFrec number
        { s.frec number with forwardall := (s.frec number).forwardall - 1 }).frec n = s.frec n :=
      fun n hn ↦ ForwardState.setFrec_of_ne s number _ hn
    have hcarries : ∀ n, Carries (s.setFrec number
        { s.frec number with forwardall := (s.frec number).forwardall - 1 }) n → Carries s n := by
      intro n hn
      by_cases hnumber : n = number
      · rw [hnumber]
        exact huse
      · unfold Carries at hn
        rwa [hset n hnumber] at hn
    refine ⟨[], ?_, rfl, rfl, by simp,
      fun n hn huse ↦ ⟨hcarries n huse, by rw [hset n hn], by rw [hset n hn]⟩, fun _ ↦ ?_, by simp⟩
    · refine @LogInv.plain s _ none h [] (by simp) (fun n hn ↦ ?_) rfl rfl
      refine ⟨.inl (hcarries n (hn.resolve_right (by simp))), ?_⟩
      by_cases hnumber : n = number
      · rw [hnumber, ForwardState.setFrec_self]
        exact ⟨rfl, rfl, rfl, rfl⟩
      · rw [hset n hnumber]
        exact ⟨rfl, rfl, rfl, rfl⟩
    · rw [ForwardState.setFrec_self]
      refine ⟨rfl, fun _ ↦ ?_⟩
      simp only [awaited, List.filter_nil, List.length_nil, if_neg hzero]
      split_ifs <;> omega

theorem ReplyEffect.replyQuery (h : LogInv s none) (net : Net) (reply : ServerReply) (now : ℤ)
    (haccept : acceptReply s reply = some number) :
    ∃ events, ReplyEffect env s number reply.packet.failed
      (replyQuery env net s reply now) events := by
  obtain ⟨-, hlt, hsome, -, -⟩ := acceptReply_spec haccept
  have huse : Carries s number := ⟨hlt, hsome⟩
  obtain ⟨sentto, hsentto⟩ := Option.isSome_iff_exists.mp hsome
  unfold Dnsmasq.replyQuery
  rw [haccept]
  dsimp only
  rw [hsentto]
  dsimp only
  split
  · next packet nn hretry =>
    split_ifs at hretry with hfailed
    obtain ⟨events, heffect, hserials, hsent, hsilent⟩ :=
      @Effect.retryQuery s number env h net none huse (by simp)
      (packet.set 3 (packet.getD 3 0 &&& 0xdf)) nn
    refine ⟨events, heffect.inv, heffect.log, hserials, hsent, fun n hn hcarries ↦
      ?_, fun hcarries ↦ ?_,
      fun serial ⟨event, hmem, hanswers⟩ ↦
        absurd hanswers (by simp [hsilent rfl serial event hmem])⟩
    · rcases heffect.records n hcarries with ⟨hbefore, hserial, hall, -⟩ | ⟨hnew | ⟨heq, -⟩, -⟩
      · exact ⟨hbefore, hserial, hall⟩
      · have hbound := heffect.inv.bound n (.inl hcarries)
        rw [hserials] at hbound
        exact absurd hnew hbound.not_ge
      · exact absurd (Option.some.inj heq).symm hn
    · rcases heffect.records number hcarries with ⟨-, hserial, hall, hnone⟩
        | ⟨hnew | ⟨-, -, hserial⟩, hless⟩
      · refine ⟨hserial, fun _ ↦ ?_⟩
        have hzero : events.filter (ForwardEvent.sentFor (s.frec number).serial) = [] :=
          List.filter_eq_nil_iff.mpr fun event hmem ↦ by
            rw [← hserial, hnone event hmem]
            simp
        simp [hzero, hfailed.2.2, awaited]
      · have hbound := heffect.inv.bound number (.inl hcarries)
        rw [hserials] at hbound
        exact absurd hnew hbound.not_ge
      · refine ⟨hserial, fun horder ↦ ?_⟩
        rw [hfailed.2.2, ← hserial]
        exact hless horder
  · obtain ⟨-, hfrecs, hfrec, -, hlog, hserials⟩ := @rememberServer_fields env s reply sentto
    have hremember : Quiet s (rememberServer env s reply sentto) :=
      .of_eq hfrecs hfrec hserials hlog
    have huse' : Carries (rememberServer env s reply sentto) number := by
      unfold Carries
      rwa [hfrecs, hfrec]
    obtain ⟨events, heffect⟩ :=
      @ReplyEffect.settleReply _ number env (h.quiet hremember) huse' reply now
    obtain ⟨hinv, hlog', hserials', hsent, hother, hown, hanswers⟩ := heffect
    rw [hfrec] at hsent hown hanswers
    refine ⟨events, hinv, hlog'.trans (congrArg _ hlog), hserials'.trans hserials, hsent,
      fun n hn hcarries ↦ ?_, hown, hanswers⟩
    have hsame := hother n hn hcarries
    unfold Carries at hsame
    rw [hfrecs, hfrec] at hsame
    exact hsame

end Log

end CrossBreeder.Dnsmasq
