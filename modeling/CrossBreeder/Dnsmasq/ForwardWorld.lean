import CrossBreeder.Dnsmasq.ForwardReplies

/-!
# The forwarder and its servers

The servers are added to the forwarder: they owe a reply for each query they were sent, and answer
each of them at most once (`ForwardWorld`). In every run a query leads to at most one packet for its
client, with the client's own id. The forwarder counts the replies that a record waits for, and
`repliesProper_of_reachable` says in which runs the count is right: each reply reaches the record of
the query it answers, and a client does not repeat a query while servers owe replies for it.
-/

namespace CrossBreeder.Dnsmasq

open Foundation

/-! ### The world -/

/-- A reply that a server owes: the serial of the query, the server, and the id it was sent. -/
structure Owed where
  serial : ℕ
  server : Server
  id : UInt16
  deriving DecidableEq

/-- A reply that was passed on to a client: the serial of the query, whether it is an error, and the
other servers that owed a reply for the query then. -/
structure Passed where
  serial : ℕ
  failed : Bool
  owing : List Server

structure ForwardWorld where
  state : ForwardState
  owed : List Owed
  passed : List Passed

def ForwardEvent.owes : ForwardEvent → Option Owed
  | .upstream serial server id _ => some ⟨serial, server, id⟩
  | _ => none

def ForwardEvent.answered : ForwardEvent → Option ℕ
  | .client (some (serial, _)) _ _ _ => some serial
  | _ => none

def newEvents (s s' : ForwardState) : List ForwardEvent :=
  s'.log.take (s'.log.length - s.log.length)

/-- The servers other than a given one that owe a reply for a query. -/
def owingServers (owed : List Owed) (serial : ℕ) (server : Server) : List Server :=
  ((owed.filter fun d ↦ d.serial = serial).map Owed.server).filter fun other ↦ other ≠ server

/-- What happens: a call that is not about a reply, or a server answers one of the queries it was
sent. -/
inductive WorldEvent
  | call (net : Net) (call : ForwardCall)
  | reply (net : Net) (position : ℕ) (packet : Packet) (n : ℕ) (now : ℤ)

def Owed.reply (d : Owed) (packet : Packet) (n : ℕ) : ServerReply := ⟨d.server.addr, packet, n⟩

/-- One event. Replies come from servers that owe them, and have the id of the query. -/
def ForwardWorld.next (env : ForwardEnv) (w : ForwardWorld) : WorldEvent → Option ForwardWorld
  | .call _ (.reply _ _) => none
  | .call net call => (w.state.call env net call).map fun s ↦
    { w with state := s, owed := w.owed ++ (newEvents w.state s).filterMap ForwardEvent.owes }
  | .reply net position packet n now => match w.owed[position]? with
    | none => none
    | some d =>
      if packet.id = d.id then
        let s := replyQuery env net w.state (d.reply packet n) now
        let rest := w.owed.eraseIdx position
        some
          { state := s
            owed := rest ++ (newEvents w.state s).filterMap ForwardEvent.owes
            passed := ((newEvents w.state s).filterMap ForwardEvent.answered).map (fun serial ↦
              ⟨serial, packet.failed, owingServers rest serial d.server⟩) ++ w.passed }
      else none

def worldSystem (env : ForwardEnv) : System ForwardWorld WorldEvent :=
  System.ofStep (fun w ↦ ∃ servers memory session, w = ⟨.start servers memory session, [], []⟩)
    (ForwardWorld.next env)

def owedFor (owed : List Owed) (serial : ℕ) : ℕ := (owed.filter fun d ↦ d.serial = serial).length

/-- A client does not repeat a query while servers owe replies for it, and a reply reaches the
record of the query it answers. -/
def Undisturbed (env : ForwardEnv) (w : ForwardWorld) : WorldEvent → Prop
  | .call _ (.query client packet plen _) => env.optOrder = true ∨
    ∀ number, w.state.lookupFrecBySender packet.id client.udpaddr (questionsCrc packet plen) = some
      number → owedFor w.owed (w.state.frec number).serial = 0
  | .call _ _ => True
  | .reply _ position packet n _ => ∀ d, w.owed[position]? = some d →
    ∀ number, acceptReply w.state (d.reply packet n) = some number →
      (w.state.frec number).serial = d.serial

/-- A query leads to at most one packet for its client, and such a packet has the source and the id
of a query that was received, with the CRC of its questions. -/
structure RepliesOnce (w : ForwardWorld) : Prop where
  once : ∀ serial, (w.state.log.filter (ForwardEvent.answers serial)).length ≤ 1
  own : ∀ serial crc dest id packet, .client (some (serial, crc)) dest id packet ∈ w.state.log →
    .query dest id crc ∈ w.state.log

/-- An error is passed on only if no other server owes a reply, or the order of servers is strict.
-/
def ErrorsLast (env : ForwardEnv) (w : ForwardWorld) : Prop :=
  ∀ p ∈ w.passed, p.failed = true → p.owing = [] ∨ env.optOrder = true

/-! ### The count -/

variable {event : WorldEvent}

variable {owed : List Owed}

section World

variable {env : ForwardEnv} {w w' : ForwardWorld} {s s' : ForwardState} {events : List ForwardEvent}

theorem newEvents_eq (hlog : s'.log = events ++ s.log) : newEvents s s' = events := by
  simp [newEvents, hlog]

theorem owedFor_append (owed others : List Owed) (serial : ℕ) :
    owedFor (owed ++ others) serial = owedFor owed serial + owedFor others serial := by
  simp [owedFor]

theorem owedFor_events (events : List ForwardEvent) (serial : ℕ) :
    owedFor (events.filterMap ForwardEvent.owes) serial =
      (events.filter (ForwardEvent.sentFor serial)).length := by
  induction events with
  | nil => rfl
  | cons event rest ih =>
    unfold owedFor at ih ⊢
    cases event with
    | query =>
      rw [List.filterMap_cons_none rfl, List.filter_cons_of_neg (by simp [ForwardEvent.sentFor])]
      exact ih
    | client =>
      rw [List.filterMap_cons_none rfl, List.filter_cons_of_neg (by simp [ForwardEvent.sentFor])]
      exact ih
    | upstream other server id packet =>
      by_cases heq : other = serial
      · simpa [ForwardEvent.owes, ForwardEvent.sentFor, heq] using ih
      · simpa [ForwardEvent.owes, ForwardEvent.sentFor, heq] using ih

theorem sentFor_of_owes {d : Owed} (hmem : d ∈ events.filterMap ForwardEvent.owes) :
    ∃ event ∈ events, event.sentFor d.serial = true := by
  obtain ⟨event, hevent, howes⟩ := List.mem_filterMap.mp hmem
  refine ⟨event, hevent, ?_⟩
  cases event with
  | query => exact absurd howes (by simp [ForwardEvent.owes])
  | client => exact absurd howes (by simp [ForwardEvent.owes])
  | upstream serial server id packet =>
    obtain rfl := Option.some.inj howes
    simp [ForwardEvent.sentFor]

theorem answers_of_answered {serial : ℕ} (hmem : serial ∈ events.filterMap ForwardEvent.answered) :
    ∃ event ∈ events, event.answers serial = true := by
  obtain ⟨event, hevent, hanswered⟩ := List.mem_filterMap.mp hmem
  refine ⟨event, hevent, ?_⟩
  match event, hanswered with
  | .client (some (other, _)) _ _ _, hanswered =>
    obtain rfl := Option.some.inj hanswered
    simp [ForwardEvent.answers]

theorem owedFor_eq_zero {serial : ℕ} (hnone : ∀ d ∈ owed, d.serial ≠ serial) :
    owedFor owed serial = 0 := by
  unfold owedFor
  rw [List.length_eq_zero_iff, List.filter_eq_nil_iff]
  simpa using hnone

theorem owedFor_eraseIdx {position : ℕ} {d : Owed} (hat : owed[position]? = some d) (serial : ℕ) :
    owedFor (owed.eraseIdx position) serial + (if d.serial = serial then 1 else 0) =
      owedFor owed serial := by
  induction owed generalizing position with
  | nil => exact absurd hat (by simp)
  | cons first rest ih =>
    unfold owedFor at ih ⊢
    cases position with
    | zero =>
      obtain rfl := Option.some.inj hat
      by_cases hserial : first.serial = serial
      · simp [hserial]
      · simp [hserial]
    | succ position =>
      have hrest := ih hat
      by_cases hserial : first.serial = serial
      · simp only [List.eraseIdx_cons_succ, List.filter_cons, hserial, decide_true, if_true,
          List.length_cons]
        omega
      · simpa [hserial] using hrest

theorem owingServers_eq_nil {serial : ℕ} (hnone : owedFor owed serial = 0) (server : Server) :
    owingServers owed serial server = [] := by
  unfold owingServers
  rw [List.length_eq_zero_iff.mp hnone]
  rfl

/-! ### Every run -/

structure WorldInv (w : ForwardWorld) : Prop where
  log : LogInv w.state none
  owed : ∀ d ∈ w.owed, d.serial < w.state.serials

/-- What an undisturbed run keeps if the order of servers is not strict: a record waits for at least
as many replies as are owed for its query, and errors were last. -/
structure CountInv (env : ForwardEnv) (w : ForwardWorld) : Prop where
  count : env.optOrder = false → ∀ n, Carries w.state n →
    owedFor w.owed (w.state.frec n).serial ≤ awaited (w.state.frec n).forwardall
  errors : ErrorsLast env w

def ForwardCall.repeated (s : ForwardState) : ForwardCall → Option ℕ
  | .query client packet plen _ => s.lookupFrecBySender packet.id client.udpaddr
    (questionsCrc packet plen)
  | _ => none

theorem Effect.call (h : LogInv s none) {net : Net} {call : ForwardCall}
    (hreply : ∀ reply now, call ≠ .reply reply now) (hnext : s.call env net call = some s') :
    ∃ events, Effect env (call.repeated s) s s' events := by
  cases call with
  | query client packet plen now => exact Effect.forwardQuery h net client packet plen now hnext
  | reply reply now => exact absurd rfl (hreply reply now)
  | newFrec now =>
    obtain rfl := Option.some.inj hnext
    exact ⟨[], .of_quiet h (.getNewFrec env net s now true)⟩
  | gone server =>
    obtain rfl := Option.some.inj hnext
    exact ⟨[], .of_quiet h (.serverGone s server)⟩
  | come servers =>
    dsimp only [ForwardState.call] at hnext
    split_ifs at hnext
    obtain rfl := Option.some.inj hnext
    exact ⟨[], .of_quiet h (.of_eq rfl rfl rfl rfl)⟩

/-- What an event does to the world: a call that is not about a reply, a reply that is not used, or
a reply for a record. -/
inductive WorldStep (env : ForwardEnv) (w : ForwardWorld) : WorldEvent → ForwardWorld → Prop
  | call {net : Net} {call : ForwardCall} {s : ForwardState} {events : List ForwardEvent}
      (heffect : Effect env (call.repeated w.state) w.state s events) :
      WorldStep env w (.call net call)
        { w with state := s, owed := w.owed ++ events.filterMap ForwardEvent.owes }
  | ignored {net : Net} {position : ℕ} {packet : Packet} {n : ℕ} {now : ℤ} :
      WorldStep env w (.reply net position packet n now) { w with owed := w.owed.eraseIdx position }
  | used {net : Net} {position : ℕ} {packet : Packet} {n : ℕ} {now : ℤ} {d : Owed} {number :
    ℕ} {s : ForwardState}
      {events : List ForwardEvent} (hat : w.owed[position]? = some d)
      (haccept : acceptReply w.state (d.reply packet n) = some number)
      (heffect : ReplyEffect env w.state number packet.failed s events) :
      WorldStep env w (.reply net position packet n now)
        { state := s
          owed := w.owed.eraseIdx position ++ events.filterMap ForwardEvent.owes
          passed := (events.filterMap ForwardEvent.answered).map (fun serial ↦
            ⟨serial, packet.failed, owingServers (w.owed.eraseIdx position) serial d.server⟩) ++
              w.passed }

theorem WorldInv.step (h : WorldInv w) (hnext : w.next env event = some w') :
    WorldStep env w event w' := by
  cases event with
  | call net call =>
    have hcall : (∀ reply now, call ≠ .reply reply now) ∧ (w.state.call env net call).map (fun s ↦
        { w with state := s, owed := w.owed ++ (newEvents w.state s).filterMap ForwardEvent.owes })
          = some w' := by
      cases call with
      | reply => exact absurd hnext (by simp [ForwardWorld.next])
      | _ => exact ⟨by simp, hnext⟩
    obtain ⟨s, hs, rfl⟩ := Option.map_eq_some_iff.mp hcall.2
    obtain ⟨events, heffect⟩ := Effect.call h.log hcall.1 hs
    rw [newEvents_eq heffect.log]
    exact .call heffect
  | reply net position packet n now =>
    dsimp only [ForwardWorld.next] at hnext
    split at hnext
    · exact absurd hnext (by simp)
    · next d hat =>
      split_ifs at hnext with hid
      obtain rfl := Option.some.inj hnext
      cases haccept : acceptReply w.state (d.reply packet n) with
      | none =>
        have hsame : replyQuery env net w.state (d.reply packet n) now = w.state := by
          unfold replyQuery
          rw [haccept]
        have hevents : newEvents w.state w.state = [] := newEvents_eq (List.nil_append _).symm
        rw [hsame, hevents, List.filterMap_nil, List.filterMap_nil, List.append_nil, List.map_nil,
          List.nil_append]
        exact .ignored
      | some number =>
        obtain ⟨events, heffect⟩ :=
          @ReplyEffect.replyQuery w.state number env h.log net (d.reply packet n) now haccept
        rw [newEvents_eq heffect.log]
        exact .used hat haccept heffect

theorem WorldInv.next (h : WorldInv w) (hstep : WorldStep env w event w') : WorldInv w' := by
  cases hstep with
  | call heffect =>
    refine ⟨heffect.inv, fun d hmem ↦ ?_⟩
    rcases List.mem_append.mp hmem with hmem | hmem
    · exact (h.owed d hmem).trans_le heffect.serials
    · exact heffect.sent _ (sentFor_of_owes hmem)
  | ignored => exact ⟨h.log, fun d hmem ↦ h.owed d (List.mem_of_mem_eraseIdx hmem)⟩
  | used hat haccept heffect =>
    refine ⟨heffect.inv, fun d hmem ↦ ?_⟩
    rw [heffect.serials]
    rcases List.mem_append.mp hmem with hmem | hmem
    · exact h.owed d (List.mem_of_mem_eraseIdx hmem)
    · obtain ⟨-, hlt, hsome, -, -⟩ := acceptReply_spec haccept
      rw [heffect.sent _ (sentFor_of_owes hmem)]
      exact h.log.bound _ (.inl ⟨hlt, hsome⟩)

theorem CountInv.next (h : WorldInv w) (hcount : CountInv env w)
    (hallowed : Undisturbed env w event) (hstep : WorldStep env w event w') : CountInv env w' := by
  cases hstep with
  | @call net call s events heffect =>
    refine ⟨fun horder n huse ↦ ?_, hcount.errors⟩
    rw [owedFor_append, owedFor_events]
    rcases heffect.records n huse with ⟨hbefore, hserial, hall, hnone⟩ | ⟨hfresh, hless⟩
    · rw [List.filter_eq_nil_iff.mpr fun event hmem ↦ by simp [hnone event hmem], hserial, hall]
      exact hcount.count horder n hbefore
    · have hzero : owedFor w.owed (s.frec n).serial = 0 := by
        rcases hfresh with hnew | ⟨hrepeated, -, hserial⟩
        · exact owedFor_eq_zero fun d hmem ↦ ((h.owed d hmem).trans_le hnew).ne
        · cases call with
          | query client packet plen now =>
            rw [hserial]
            exact hallowed.resolve_left (by simp [horder]) n hrepeated
          | _ => exact absurd hrepeated (by simp [ForwardCall.repeated])
      rw [hzero, Nat.zero_add]
      exact hless horder
  | ignored =>
    refine ⟨fun horder n huse ↦ (List.Sublist.length_le ?_).trans (hcount.count horder n huse),
      hcount.errors⟩
    exact (List.eraseIdx_sublist _ _).filter _
  | @used net position packet m now d number s events hat haccept heffect =>
    have hserial := hallowed d hat number haccept
    obtain ⟨-, hlt, hsome, -, -⟩ := acceptReply_spec haccept
    have hcarries : Carries w.state number := ⟨hlt, hsome⟩
    refine ⟨fun horder n huse ↦ ?_, fun p hmem hfailed ↦ ?_⟩
    · dsimp only
      rw [owedFor_append, owedFor_events]
      have herase := owedFor_eraseIdx hat (s.frec n).serial
      by_cases hn : n = number
      · subst hn
        obtain ⟨hsame, hless⟩ := heffect.own huse
        have hbefore := hcount.count horder n hcarries
        have hafter := hless horder
        rw [hsame] at herase ⊢
        rw [if_pos hserial.symm] at herase
        omega
      · obtain ⟨hbefore, hsame, hall⟩ := heffect.other n hn huse
        have hne : (w.state.frec n).serial ≠ (w.state.frec number).serial :=
          h.log.distinct n number (.inl hbefore) (.inl hcarries) hn
        have hnone : events.filter (ForwardEvent.sentFor (s.frec n).serial) = [] := by
          refine List.filter_eq_nil_iff.mpr fun event hmem hfor ↦ hne ?_
          rw [← hsame]
          exact heffect.sent _ ⟨event, hmem, hfor⟩
        have hbefore := hcount.count horder n hbefore
        rw [hnone, List.length_nil, hall, hsame]
        rw [hsame] at herase
        omega
    · rcases List.mem_append.mp hmem with hmem | hmem
      · obtain ⟨serial, hanswered, rfl⟩ := List.mem_map.mp hmem
        obtain ⟨hown, hlast⟩ := heffect.answers serial (answers_of_answered hanswered)
        by_cases horder : env.optOrder = true
        · exact .inr horder
        · -- the reply was the last one that was owed
          have hfalse : env.optOrder = false := by simpa using horder
          have herase := owedFor_eraseIdx hat serial
          have hbefore := hcount.count hfalse number hcarries
          have hone := hlast hfailed hfalse
          rw [if_pos (hserial.symm.trans hown.symm)] at herase
          rw [← hown] at hbefore
          exact .inl (owingServers_eq_nil (by omega) _)
      · exact hcount.errors p hmem hfailed

theorem WorldInv.of_reachable {allowed : ForwardWorld → WorldEvent → Prop}
    (hreach : Reachable (worldSystem env) allowed w) : WorldInv w := by
  refine hreach.invariant WorldInv ?_ fun w event w' _ h _ hnext ↦ h.next (h.step hnext)
  rintro _ ⟨servers, memory, session, rfl⟩
  refine ⟨⟨?_, ?_, ?_, ?_, ?_, ?_⟩, ?_⟩
  all_goals simp [ForwardState.start, Working, Carries]

theorem CountInv.of_reachable (hreach : Reachable (worldSystem env) (Undisturbed env) w) :
    CountInv env w := by
  refine hreach.invariant (CountInv env) ?_ fun w event w' hprevious hcount hallowed hnext ↦ ?_
  · rintro _ ⟨servers, memory, session, rfl⟩
    exact ⟨fun _ n huse ↦ absurd huse.1 (by simp [ForwardState.start]), by simp [ErrorsLast]⟩
  · have h := WorldInv.of_reachable hprevious
    exact hcount.next h hallowed (h.step hnext)

end World

/-- In every run a query leads to at most one packet for its client, which has the client's own id.
In a run where clients do not repeat queries that replies are owed for, and replies reach the
records of their queries, an error is passed on only if no other server owes a reply, or the order
of servers is strict. -/
theorem repliesProper_of_reachable (env : ForwardEnv) (w : ForwardWorld) :
    (Reachable (worldSystem env) (fun _ _ ↦ True) w → RepliesOnce w) ∧
    (Reachable (worldSystem env) (Undisturbed env) w → RepliesOnce w ∧ ErrorsLast env w) := by
  have honce : ∀ {allowed : ForwardWorld → WorldEvent → Prop},
    Reachable (worldSystem env) allowed w →
      RepliesOnce w := fun hreach ↦ by
    have h := (WorldInv.of_reachable hreach).log
    exact ⟨h.once, fun serial crc dest id packet hmem ↦ (h.events serial crc dest id packet hmem).2⟩
  exact ⟨honce, fun hreach ↦ ⟨honce hreach, (CountInv.of_reachable hreach).errors⟩⟩

instance (env : ForwardEnv) (w : ForwardWorld) (event : WorldEvent) :
    Decidable (Undisturbed env w event) :=
  match event with
  | .call _ (.query client packet plen _) => inferInstanceAs (Decidable (env.optOrder = true ∨
    ∀ number ∈ w.state.lookupFrecBySender packet.id client.udpaddr (questionsCrc packet plen),
      owedFor w.owed (w.state.frec number).serial = 0))
  | .call _ (.reply _ _) | .call _ (.newFrec _) | .call _ (.gone _) | .call _ (.come _) =>
    isTrue trivial
  | .reply _ position packet n _ => inferInstanceAs (Decidable (∀ d ∈ w.owed[position]?,
    ∀ number ∈ acceptReply w.state (d.reply packet n), (w.state.frec number).serial = d.serial))

def plainWorld : ForwardWorld := ⟨.start plainServers (fun _ ↦ blankFrec) plainSession, [], []⟩

/-- A client asks for the address of `a`. -/
def asksAddress : WorldEvent := .call (plainNet [77]) (.query plainClient (addressQuery 7) 19 0)

def fails (position : ℕ) : WorldEvent :=
  .reply (plainNet []) position [0, 77, 0x81, 0x82, 0, 1, 0, 0, 0, 0, 0, 0, 1, 97, 0, 0, 1, 0, 1] 19
    1

/-- Both servers fail, and the second error is passed on. -/
theorem repliesProper_bothFail : ∃ w, Reachable (worldSystem plainEnv) (Undisturbed plainEnv) w ∧
    w.passed.length = 1 ∧ RepliesOnce w ∧ ErrorsLast plainEnv w := by
  have hrun : (runSteps (guardStep (Undisturbed plainEnv) (ForwardWorld.next plainEnv)) plainWorld
      [asksAddress, fails 0, fails 0]).any (fun w ↦ w.passed.length = 1) = true := by decide +kernel
  obtain ⟨w, hreach, hpassed⟩ :=
    @exists_reachable_of_runSteps _ _ (worldSystem plainEnv).initial _ plainWorld
    ⟨plainServers, fun _ ↦ blankFrec, plainSession, rfl⟩ _ _ hrun
  exact ⟨w, hreach.of_guardStep, by simpa using hpassed,
    (repliesProper_of_reachable plainEnv w).2 hreach.of_guardStep⟩

/-- A client repeats its query, and a server fails twice. The error is passed on while the other
server owes replies. -/
theorem repeatedQuery_passes_error : ∃ w, Reachable (worldSystem plainEnv) (fun _ _ ↦ True) w ∧
    ¬ErrorsLast plainEnv w := by
  have hrun : (runSteps (ForwardWorld.next plainEnv) plainWorld [asksAddress, asksAddress,
    fails 0, fails 1]).any
      (fun w ↦ w.passed.any fun p ↦ p.failed && !p.owing.isEmpty) = true := by decide +kernel
  obtain ⟨w, hreach, htest⟩ :=
    @exists_reachable_of_runSteps _ _ (worldSystem plainEnv).initial _ plainWorld
    ⟨plainServers, fun _ ↦ blankFrec, plainSession, rfl⟩ _ _ hrun
  refine ⟨w, hreach, fun hlast ↦ ?_⟩
  obtain ⟨p, hmem, hp⟩ := List.any_eq_true.mp htest
  simp only [Bool.and_eq_true, Bool.not_eq_true'] at hp
  rcases hlast p hmem hp.1 with hnone | horder
  · rw [hnone] at hp
    exact absurd hp.2 (by simp)
  · exact absurd horder (by decide)

end CrossBreeder.Dnsmasq
