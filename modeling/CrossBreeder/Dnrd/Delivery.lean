import CrossBreeder.Dnrd.Replies

/-!
# Delivery of replies

The relay with the network around it. A `World` is a state of the relay together with the messages
that were sent on sockets closed since and may still be answered, the questions of clients that are
still pending, and a log of the replies delivered to clients, each with what was pending then.

`delivered_pending_of_reachable` says that every reply that reaches a client answers a question that
this client asked with this id and that is still pending, in every run in which messages are matched
only to entries of the same client and a new query gets a port on which nothing is awaited.
-/

namespace CrossBreeder.Dnrd

open Foundation

/-- A question that a client asks: its address, the query id as the host reads it, and the bytes of
the question. -/
structure Ask where
  client : SockAddr
  id : UInt16
  question : Option (List UInt8)
  deriving DecidableEq, Repr

def askOf (order : ByteOrder) (client : SockAddr) (msg : Packet) : Ask where
  client := client
  id := msgId order msg
  question := questionSection msg

structure Delivery where
  reply : Ask
  pending : List Ask
  deriving DecidableEq, Repr

structure Orphan where
  port : ℕ
  msg : Packet
  deriving DecidableEq, Repr

structure World where
  state : State
  orphans : List Orphan
  asked : List Ask
  delivered : List Delivery

/-- An event of the relay, or the last moment at which messages from a closed port are answered. -/
inductive WorldEvent
  | relay (event : Event)
  | lose (port : ℕ)

def isPending (s : State) (ask : Ask) : Bool :=
  s.queries.qlist.any fun q ↦ q.domain.isSome ∧ q.client = ask.client ∧ q.clientQid = ask.id

def Event.asks (cfg : Config) (s : State) : Event → List Ask
  | .request env client datagram =>
    if (requestSubmission cfg env client datagram s).isSome then
      [askOf cfg.order client (datagram.take udpMaxsize)]
    else []
  | _ => []

def orphaned (before after : List Query) : List Orphan :=
  (before.filter fun q ↦ after.all fun q' ↦ q'.sock.port ≠ q.sock.port).flatMap fun q ↦
    q.sock.sent.map fun datagram ↦ ⟨q.sock.port, datagram.msg⟩

/-- The replies that an event delivers to clients. Answers from the master or the cache are not
among them. -/
def Event.deliveries (cfg : Config) (event : Event) (outcome : Outcome) (asked : List Ask) :
    List Delivery :=
  match event with
  | .reply _ _ _ _ => outcome.toClients.map fun reply ↦ ⟨askOf cfg.order reply.1 reply.2, asked⟩
  | _ => []

/-- What the servers and the system guarantee: a datagram on the socket of a query has the question
of a message that was sent from the socket's port, and a new socket gets a port that is not in
use. -/
def guaranteed (w : World) : Event → Bool
  | .reply _ k _ datagram => w.state.queries.qlist[k]?.any fun q ↦
      (q.sock.sent.any fun sent ↦
        questionSection (datagram.take udpMaxsize) = questionSection sent.msg) ∨
      (w.orphans.any fun orphan ↦ orphan.port = q.sock.port ∧
        questionSection (datagram.take udpMaxsize) = questionSection orphan.msg)
  | .request env _ _ | .retry env _ => w.state.queries.qlist.all fun q ↦
      env.creation.port ≠ some q.sock.port
  | _ => true

/-- The world after an event, if the event can happen and the program does not stop. -/
def worldStep (cfg : Config) (w : World) : WorldEvent → Option World
  | .lose port => some { w with orphans := w.orphans.filter fun orphan ↦ orphan.port ≠ port }
  | .relay event =>
    if guaranteed w event then
      match step cfg w.state event with
      | .error _ => none
      | .ok outcome =>
        some
          { state := outcome.state
            orphans := w.orphans ++
              orphaned w.state.queries.qlist outcome.state.queries.qlist
            asked := (w.asked ++ event.asks cfg w.state).filter (isPending outcome.state)
            delivered := w.delivered ++ event.deliveries cfg outcome w.asked }
    else none

def IsFirstWorld (w : World) : Prop :=
  IsStartup w.state ∧ w.orphans = [] ∧ w.asked = [] ∧ w.delivered = []

def network (cfg : Config) : System World WorldEvent := System.ofStep IsFirstWorld (worldStep cfg)

/-- The request is still in the buffer when the cache has been asked. -/
def requestIntact (cfg : Config) (s : State) : Event → Bool
  | .request env _ datagram =>
    (cacheLookup cfg s.doms env.cacheStack (datagram.take udpMaxsize ++ env.tail)
      (datagram.take udpMaxsize).length env.now s.cache).buffer =
        datagram.take udpMaxsize ++ env.tail
  | _ => true

/-- The entry that a message is matched to belongs to the same client, and to a dummy only for a
dummy; a new query of a client gets a port on which no answer is awaited; and the request is
forwarded as it came. -/
def KeepsClientsApart (cfg : Config) (w : World) : WorldEvent → Prop
  | .lose _ => True
  | .relay event => ∀ sub, event.submission cfg w.state = some sub →
      requestIntact cfg w.state event = true ∧
      (∀ q ∈ w.state.queries.qlist, q.clientQid = msgId cfg.order sub.msg →
        if sub.dom = none then q.domain = none else q.domain ≠ none ∧ q.client = sub.client) ∧
      (sub.dom ≠ none → ∀ orphan ∈ w.orphans, sub.creation.port ≠ some orphan.port)

/-! ### The invariant -/

/-- What is awaited on the socket of a client's query is an answer to a question of that client. -/
structure WorldInv (w : World) : Prop where
  asked : ∀ q ∈ w.state.queries.qlist, q.domain ≠ none → ∀ sent ∈ q.sock.sent,
    ⟨q.client, q.clientQid, questionSection sent.msg⟩ ∈ w.asked
  port : ∀ q ∈ w.state.queries.qlist, q.domain ≠ none → ∀ orphan ∈ w.orphans,
    orphan.port ≠ q.sock.port
  delivered : ∀ delivery ∈ w.delivered, delivery.reply ∈ delivery.pending

variable {cfg : Config}

theorem submission_msg_eq {env : Env} {client : SockAddr} {datagram : Packet}
    {s : State} {sub : Submission} (hsub : requestSubmission cfg env client datagram s = some sub)
    (hintact : requestIntact cfg s (.request env client datagram) = true) :
    sub.msg = datagram.take udpMaxsize := by
  obtain ⟨-, d, hdecision, rfl⟩ := requestSubmission_eq_some hsub
  have hbuffer := of_decide_eq_true hintact
  show (handledRequest cfg env datagram s).msg = _
  unfold handledRequest at hdecision ⊢
  rw [handleQuery_forward_msg hdecision, hbuffer, List.take_left']
  rfl

theorem submission_asks {s : State} {event : Event} {sub : Submission}
    (hsub : event.submission cfg s = some sub) (hintact : requestIntact cfg s event = true)
    (hdom : sub.dom ≠ none) : askOf cfg.order sub.client sub.msg ∈ event.asks cfg s := by
  rcases Event.submission_cases hsub with
    ⟨env, client, datagram, rfl, hrequest⟩ | ⟨env, id, rfl, hretry⟩
  · have hmsg := submission_msg_eq hrequest hintact
    obtain ⟨-, d, -, hargs⟩ := requestSubmission_eq_some hrequest
    have hclient : sub.client = client := by rw [hargs]
    rw [hmsg, hclient]
    simp [Event.asks, hrequest]
  · rw [retrySubmission_eq_some hretry] at hdom
    exact absurd rfl hdom

theorem questionSection_setMsgId (order : ByteOrder) (id : UInt16) (msg : Packet) :
    questionSection (setMsgId order id msg) = questionSection msg :=
  questionSection_congr (drop_setMsgId order id msg (by decide))

/-- The entries of the query list after an allowed event: what was sent for a client's query was
asked by that client. -/
theorem asked_step {w : World} {event : Event} {outcome : Outcome}
    (hinv : WorldInv w) (hallowed : KeepsClientsApart cfg w (.relay event))
    (hstep : step cfg w.state event = .ok outcome) {q : Query}
    (hq : q ∈ outcome.state.queries.qlist) (hdomain : q.domain ≠ none) :
    (∀ sent ∈ q.sock.sent,
      ⟨q.client, q.clientQid, questionSection sent.msg⟩ ∈ w.asked ++ event.asks cfg w.state) ∧
    ∀ orphan ∈ w.orphans, orphan.port ≠ q.sock.port := by
  rcases step_entries hstep hq with hold | ⟨sub, ttl, hsub, ⟨old, hold, hqid, rfl⟩ |
    ⟨-, port, new, hport, hnew, rfl⟩⟩
  · exact ⟨fun sent hsent ↦ List.mem_append_left _ (hinv.asked q hold hdomain sent hsent),
      hinv.port q hold hdomain⟩
  · rw [completeEntry_domain] at hdomain
    have hclient : old.domain ≠ none := hdomain
    obtain ⟨hintact, hentry, -⟩ := hallowed sub hsub
    have hsame := hentry old hold hqid
    split_ifs at hsame with hdummy
    · exact absurd hsame hclient
    · rw [completeEntry_client, completeEntry_clientQid, completeEntry_port]
      refine ⟨fun sent hsent ↦ ?_, hinv.port old hold hclient⟩
      rcases mem_sent_completeEntry hsent with hsent | ⟨-, hmsg⟩
      · exact List.mem_append_left _ (hinv.asked old hold hclient sent hsent)
      · have hasks := submission_asks hsub hintact hdummy
        rw [askOf, ← hsame.2, ← hqid] at hasks
        rw [hmsg, questionSection_setMsgId]
        exact List.mem_append_right _ hasks
  · rw [completeEntry_domain] at hdomain
    obtain ⟨hintact, -, horphans⟩ := hallowed sub hsub
    have hdom : sub.dom ≠ none := by
      rw [hnew] at hdomain
      exact hdomain
    rw [completeEntry_client, completeEntry_clientQid, completeEntry_port]
    refine ⟨fun sent hsent ↦ ?_, fun orphan horphan ↦ ?_⟩
    · rcases mem_sent_completeEntry hsent with hsent | ⟨-, hmsg⟩
      · rw [hnew] at hsent
        simp [newQuery] at hsent
      · have hasks := submission_asks hsub hintact hdom
        rw [hmsg, questionSection_setMsgId, hnew]
        exact List.mem_append_right _ hasks
    · have hfree := horphans hdom orphan horphan
      rw [hport] at hfree
      rw [hnew]
      exact fun heq ↦ hfree (congrArg some heq.symm)

theorem deliveries_pending {w : World} {event : Event} {outcome : Outcome}
    (hinv : WorldInv w) (hguaranteed : guaranteed w event = true)
    (hstep : step cfg w.state event = .ok outcome) :
    ∀ delivery ∈ event.deliveries cfg outcome w.asked, delivery.reply ∈ delivery.pending := by
  cases event with
  | reply env k source datagram =>
    obtain rfl := Except.ok.inj hstep
    obtain ⟨q, hq, hanswer⟩ := (Option.any_eq_true _ _).mp hguaranteed
    have hmem := List.mem_of_getElem? hq
    intro delivery hdelivery
    by_cases hrejected : IsRejected w.state.doms q source datagram
    · rw [udpHandleReply_rejected hq hrejected] at hdelivery
      simp [Event.deliveries] at hdelivery
    · by_cases hdomain : q.domain = none
      · rw [udpHandleReply_dummy hq hrejected hdomain] at hdelivery
        simp [Event.deliveries] at hdelivery
      · rw [udpHandleReply_client hq hrejected hdomain] at hdelivery
        obtain rfl : delivery = ⟨askOf cfg.order q.client
            (setMsgId cfg.order q.clientQid (datagram.take udpMaxsize)), w.asked⟩ := by
          simpa [Event.deliveries] using hdelivery
        show askOf _ _ _ ∈ w.asked
        rw [askOf, msgId_setMsgId, questionSection_setMsgId]
        rcases of_decide_eq_true hanswer with hsent | horphan
        · obtain ⟨sent, hsent, hquestion⟩ := List.any_eq_true.mp hsent
          rw [of_decide_eq_true hquestion]
          exact hinv.asked q hmem hdomain sent hsent
        · obtain ⟨orphan, horphan, hport⟩ := List.any_eq_true.mp horphan
          exact absurd (of_decide_eq_true hport).1 (hinv.port q hmem hdomain orphan horphan)
  | request => simp [Event.deliveries]
  | retry => simp [Event.deliveries]
  | receiveError => simp [Event.deliveries]
  | deactivate => simp [Event.deliveries]
  | timeout => simp [Event.deliveries]
  | expire => simp [Event.deliveries]
  | reload => simp [Event.deliveries]

theorem port_orphaned {before after : List Query} {orphan : Orphan}
    (h : orphan ∈ orphaned before after) {q : Query} (hq : q ∈ after) :
    orphan.port ≠ q.sock.port := by
  obtain ⟨old, hold, hmsg⟩ := List.mem_flatMap.mp h
  obtain ⟨sent, -, rfl⟩ := List.mem_map.mp hmsg
  have hunused := List.all_eq_true.mp (List.mem_filter.mp hold).2 q hq
  exact fun heq ↦ of_decide_eq_true hunused heq.symm

theorem worldInv_step {w next : World} {event : WorldEvent} (hinv : WorldInv w)
    (hallowed : KeepsClientsApart cfg w event) (hnext : worldStep cfg w event = some next) :
    WorldInv next := by
  cases event with
  | lose port =>
    obtain rfl := Option.some.inj hnext
    refine ⟨hinv.asked, fun q hq hdomain orphan horphan ↦ ?_, hinv.delivered⟩
    exact hinv.port q hq hdomain orphan (List.mem_of_mem_filter horphan)
  | relay event =>
    simp only [worldStep] at hnext
    split_ifs at hnext with hguaranteed
    cases hstep : step cfg w.state event with
    | error stop => simp [hstep] at hnext
    | ok outcome =>
      simp only [hstep] at hnext
      obtain rfl := Option.some.inj hnext
      refine ⟨fun q hq hdomain sent hsent ↦ ?_, fun q hq hdomain orphan horphan ↦ ?_,
        fun delivery hdelivery ↦ ?_⟩
      · refine List.mem_filter.mpr ⟨(asked_step hinv hallowed hstep hq hdomain).1 sent hsent, ?_⟩
        refine List.any_eq_true.mpr ⟨q, hq, ?_⟩
        simpa [Option.isSome_iff_ne_none] using hdomain
      · rcases List.mem_append.mp horphan with horphan | horphan
        · exact (asked_step hinv hallowed hstep hq hdomain).2 orphan horphan
        · exact port_orphaned horphan hq
      · rcases List.mem_append.mp hdelivery with hdelivery | hdelivery
        · exact hinv.delivered delivery hdelivery
        · exact deliveries_pending hinv hguaranteed hstep delivery hdelivery

/-- In every run in which the messages of different clients are kept apart, every reply that was
delivered to a client answers a question that this client asked with this id and that was pending
then. -/
theorem delivered_pending_of_reachable {cfg : Config} {w : World}
    (hreach : Reachable (network cfg) (KeepsClientsApart cfg) w) :
    ∀ delivery ∈ w.delivered, delivery.reply ∈ delivery.pending := by
  have hinv : WorldInv w := by
    refine hreach.invariant WorldInv ?_ ?_
    · rintro w ⟨⟨doms, db, -, hstate⟩, horphans, -, hdelivered⟩
      have hqlist : w.state.queries.qlist = [] := by
        rw [hstate]
        rfl
      exact ⟨by simp [hqlist], by simp [hqlist], by simp [hdelivered]⟩
    · intro w event next _ hinv hallowed hnext
      exact worldInv_step hinv hallowed hnext
  exact hinv.delivered

def twoServersWorld : World := ⟨twoServers, [], [], []⟩

theorem isFirstWorld_twoServersWorld : IsFirstWorld twoServersWorld :=
  ⟨isStartup_twoServers, rfl, rfl, rfl⟩

/-- A request and the answer of the server to it. -/
theorem delivered_pending_of_reachable_single :
    ∃ w, Reachable (network defaultConfig) (KeepsClientsApart defaultConfig) w ∧
      w.delivered.length = 1 ∧ ∀ delivery ∈ w.delivered, delivery.reply ∈ delivery.pending := by
  have hrun : ((worldStep defaultConfig twoServersWorld (.relay (.request
      (zeroedEnv 100 40000 1 [true]) ⟨5, 6000⟩ (requestFor 0 7 97)))).any fun w ↦
      (worldStep defaultConfig w (.relay (.reply (zeroedEnv 101 0 0 []) 0 11
        (answerFor 0 1 97)))).any fun w ↦ w.delivered.length = 1) = true := by decide
  obtain ⟨middle, hmiddle, hrest⟩ := (Option.any_eq_true _ _).mp hrun
  obtain ⟨w, hw, hlength⟩ := (Option.any_eq_true _ _).mp hrest
  have hfirst : Reachable (network defaultConfig) (KeepsClientsApart defaultConfig) middle := by
    refine Reachable.step (Reachable.start isFirstWorld_twoServersWorld) ?_ hmiddle
    intro sub _
    exact ⟨by decide, by simp [twoServersWorld, twoServers, startup, queryInit],
      by simp [twoServersWorld]⟩
  have hreach : Reachable (network defaultConfig) (KeepsClientsApart defaultConfig) w := by
    refine Reachable.step hfirst ?_ hw
    intro sub hsub
    simp [Event.submission] at hsub
  exact ⟨w, hreach, of_decide_eq_true hlength, delivered_pending_of_reachable hreach⟩

/-- Two clients ask different questions with the same id. The second request is matched to the entry
of the first client, and the answer to it goes to the first client. -/
theorem reply_for_another_client :
    ∃ w, Reachable (network defaultConfig) (fun _ _ ↦ True) w ∧
      ¬ ∀ delivery ∈ w.delivered, delivery.reply ∈ delivery.pending := by
  have hrun : (runSteps (worldStep defaultConfig) twoServersWorld
      [.relay (.request (zeroedEnv 100 40000 1 [true]) ⟨5, 6000⟩ (requestFor 0 7 97)),
        .relay (.request (zeroedEnv 101 40001 2 [true]) ⟨6, 6000⟩ (requestFor 0 7 98)),
        .relay (.reply (zeroedEnv 102 0 0 []) 0 11 (answerFor 1 0 98))]).any
      (fun w ↦ ¬ ∀ delivery ∈ w.delivered, delivery.reply ∈ delivery.pending) = true := by decide
  obtain ⟨w, hreach, htest⟩ := exists_reachable_of_runSteps isFirstWorld_twoServersWorld hrun
  exact ⟨w, hreach, of_decide_eq_true htest⟩

end CrossBreeder.Dnrd
