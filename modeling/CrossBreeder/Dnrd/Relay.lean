import CrossBreeder.Dnrd.Master
import CrossBreeder.Dnrd.Query
import CrossBreeder.Dnrd.Routing
import CrossBreeder.Foundation.Transition

/-!
# The relay

`udp.c` and `relay.c`: what happens to a request of a client, to a datagram on the socket of a
pending query and to an inactive server. An `Event` is one call of one of these functions with what
the system supplies to it, and `step` is its effect.

A function that can stop without returning has a result in `Except Stop`: the assertions of
`send2current` can fail, and its loop can go on past the send outcomes that an event supplies.
-/

namespace CrossBreeder.Dnrd

open Foundation
open scoped List

/-- The state of the relay. `dummyId` is the query id in the static packet of `udp_send_dummy`, as
the host reads it. -/
structure State where
  doms : List DomNode
  cache : Cache
  db : List DnsRecord
  queries : QueryTable
  dummyId : UInt16

/-- What the system supplies during one call: the time, the socket and random number for a new
query, the outcomes of successive sends, and what uninitialised or static memory holds: the static
buffer behind a request, the name buffers of the parsers, and the address `udp_send_dummy` passes
on. -/
structure Env where
  now : ℕ
  creation : Creation
  sends : List Bool
  tail : List UInt8
  masterStack : List UInt8
  cacheStack : List UInt8
  dontknowStack : List UInt8
  srcaddr : SockAddr
  deriving Repr

/-! ### Requests -/

/-- `set_srvfail`, which changes the third and the fourth byte. -/
def setSrvfail (msg : Packet) : Option Packet :=
  if msg.length < 4 then none
  else some (overlay msg 2 [msg.getD 2 0 ||| 0x84, 0x82])

/-- The choice of a server in `handle_query`: the next active one, or the first. -/
def selectCurrent (d : DomNode) : DomNode :=
  if d.roundrobin then setCurrent d (nextActive d)
  else setCurrent d (nextActive (setCurrent d none))

/-- The deactivation in `handle_query` of a server that was sent to too long ago. -/
def timeoutCurrent (cfg : Config) (now : ℕ) (d : DomNode) : DomNode :=
  match d.current with
  | none => d
  | some c =>
    let sendTime := (d.srvlist.getD c default).sendTime
    if sendTime ≠ 0 ∧ cfg.forwardTimeout ≠ 0 ∧ cfg.reactivateInterval ≠ 0 ∧
        cfg.forwardTimeout < now - sendTime then
      deactivateCurrent now d
    else d

/-- The return values of `handle_query`; a query that is forwarded comes with its domain. -/
inductive Decision
  | bogus
  | answer
  | forward (dom : ℕ)
  deriving DecidableEq, Repr

/-- What `handle_query` leaves. -/
structure Handled where
  decision : Decision
  msg : Packet
  doms : List DomNode
  cache : Cache

/-- The answer with a server failure. -/
def srvfailAnswer (msg : Packet) (doms : List DomNode) (cache : Cache) : Handled :=
  match setSrvfail msg with
  | none => ⟨.bogus, msg, doms, cache⟩
  | some reply => ⟨.answer, reply, doms, cache⟩

/-- The domain a query belongs to, with its server chosen and checked. -/
def chooseServer (cfg : Config) (now : ℕ) (d : DomNode) : DomNode :=
  timeoutCurrent cfg now (selectCurrent d)

/-- The part of `handle_query` behind the lookups: the request is in the first `len` bytes of the
buffer. -/
def routeQuery (cfg : Config) (now : ℕ) (buffer : List UInt8) (len : ℕ) (doms : List DomNode)
    (cache : Cache) : Handled :=
  let d := searchSubdomnode doms (buffer.drop packetDatabegin) len
  if noSrvlist (doms.getD d default).srvlist then srvfailAnswer (buffer.take len) doms cache
  else
    let doms := doms.modify d (chooseServer cfg now)
    match (doms.getD d default).current with
    | none => srvfailAnswer (buffer.take len) doms cache
    | some _ => ⟨.forward d, buffer.take len, doms, cache⟩

/-- `handle_query` for the request in the first `len` bytes of a buffer. -/
def handleQuery (cfg : Config) (env : Env) (s : State) (buffer : List UInt8) (len : ℕ) : Handled :=
  match masterLookup cfg s.db env.masterStack (buffer.take len) with
  | some packet => ⟨.answer, (overlay buffer 2 (packet.drop 2)).take packet.length, s.doms, s.cache⟩
  | none =>
    let cached := cacheLookup cfg s.doms env.cacheStack buffer len env.now s.cache
    if 0 < cached.len then ⟨.answer, cached.buffer.take cached.len, s.doms, cached.cache⟩
    else routeQuery cfg env.now cached.buffer len s.doms cached.cache

theorem srvfailAnswer_decision (msg : Packet) (doms : List DomNode) (cache : Cache) (d : ℕ) :
    (srvfailAnswer msg doms cache).decision ≠ .forward d := by
  unfold srvfailAnswer
  split <;> simp

variable {cfg : Config} {s : State} {env : Env}

theorem handleQuery_forward_msg {buffer : List UInt8}
    {len d : ℕ} (h : (handleQuery cfg env s buffer len).decision = .forward d) :
    (handleQuery cfg env s buffer len).msg =
      (cacheLookup cfg s.doms env.cacheStack buffer len env.now s.cache).buffer.take len := by
  unfold handleQuery at h ⊢
  cases hmaster : masterLookup cfg s.db env.masterStack (buffer.take len) with
  | some packet => simp [hmaster] at h
  | none =>
    simp only [hmaster] at h ⊢
    split_ifs at h ⊢ with hcached
    unfold routeQuery at h ⊢
    simp only at h ⊢
    split_ifs at h ⊢ with hservers
    · exact absurd h (srvfailAnswer_decision _ _ _ _)
    · split at h
      · exact absurd h (srvfailAnswer_decision _ _ _ _)
      · rfl

/-- The effect of a successful `udp_send` on the counters of the server. -/
def markSent (now : ℕ) (id : SrvId) (doms : List DomNode) : List DomNode :=
  modifySrv doms id fun node ↦
    { node with
      sendTime := if node.sendTime = 0 then now else node.sendTime
      sendCount := node.sendCount + 1 }

/-- The loop of `send2current` over the outcomes of its sends, with the server that was reached. -/
def sendLoop (cfg : Config) (now d : ℕ) :
    List Bool → List DomNode → Except Stop (List DomNode × Option SrvId)
  | [], doms =>
    match (doms.getD d default).current with
    | none => .ok (doms, none)
    | some _ => .error .waiting
  | sent :: sends, doms =>
    match (doms.getD d default).current with
    | none => .ok (doms, none)
    | some c =>
      if sent then .ok (markSent now ⟨d, c⟩ doms, some ⟨d, c⟩)
      else sendLoop cfg now d sends
        (if cfg.reactivateInterval ≠ 0 then doms.modify d (deactivateCurrent now) else doms)

def recordSend (dst : SrvId) (msg : Packet) (q : Query) : Query :=
  { q with sock := { q.sock with sent := q.sock.sent ++ [⟨dst, msg⟩] } }

def modifyQuery (table : QueryTable) (k : ℕ) (update : Query → Query) : QueryTable :=
  { table with qlist := table.qlist.modify k update }

/-- `send2current` for the query with the given index: whether the message was sent. -/
def send2current (cfg : Config) (env : Env) (k : ℕ) (msg : Packet) (s : State) :
    Except Stop (State × Bool) :=
  match s.queries.qlist[k]?.bind Query.domain with
  | none => .error .assertion
  | some d =>
    match sendLoop cfg env.now d env.sends s.doms with
    | .error stop => .error stop
    | .ok (doms, none) => .ok ({ s with doms := doms }, false)
    | .ok (doms, some dst) =>
      .ok ({ s with doms := doms, queries := modifyQuery s.queries k (recordSend dst msg) }, true)

structure Outcome where
  state : State
  toClients : List (SockAddr × Packet)

/-- The end of `udp_handle_request`: the query was added and is sent, or deleted when it could not
be sent and the master has a reply to that. -/
def forwardAdded (cfg : Config) (env : Env) (s : State) (added : Added) : Except Stop Outcome :=
  match send2current cfg env added.index added.msg { s with queries := added.table } with
  | .error stop => .error stop
  | .ok (s, true) => .ok ⟨s, []⟩
  | .ok (s, false) =>
    if (masterDontknow cfg env.dontknowStack added.msg).isSome then
      .ok ⟨{ s with queries := queryDeleteNext added.index s.queries }, []⟩
    else .ok ⟨s, []⟩

def currentSrv (doms : List DomNode) (d : ℕ) : SrvId := ⟨d, ((doms.getD d default).current).getD 0⟩

/-- `handle_query` for a datagram from a client, which is cut to the size of the buffer. -/
def handledRequest (cfg : Config) (env : Env) (datagram : Packet) (s : State) : Handled :=
  handleQuery cfg env s (datagram.take udpMaxsize ++ env.tail) (datagram.take udpMaxsize).length

/-- `udp_handle_request` for a datagram from a client. -/
def udpHandleRequest (cfg : Config) (env : Env) (client : SockAddr) (datagram : Packet)
    (s : State) : Except Stop Outcome :=
  if checkQuery (datagram.take udpMaxsize) < 0 then .ok ⟨s, []⟩
  else
    let handled := handledRequest cfg env datagram s
    let s := { s with doms := handled.doms, cache := handled.cache }
    match handled.decision with
    | .bogus => .ok ⟨s, []⟩
    | .answer => .ok ⟨s, [(client, handled.msg)]⟩
    | .forward d =>
      match queryAdd cfg env.creation env.now (some d) (currentSrv s.doms d) client handled.msg
        s.queries with
      | none => .ok ⟨s, []⟩
      | some added => forwardAdded cfg env s added

/-! ### Replies -/

/-- `reply_recv` for a datagram from a given address: the number of bytes received, zero when the
address is not that of the query's server. -/
def replyRecv (doms : List DomNode) (q : Query) (source : ℕ) (datagram : Packet) : ℕ :=
  if source ≠ (srvAt doms q.srv).addr then 0 else (datagram.take udpMaxsize).length

/-- The server of a reply is alive. -/
def markAlive (id : SrvId) (doms : List DomNode) : List DomNode :=
  modifySrv doms id fun node ↦ { node with sendTime := 0, inactive := 0 }

/-- `udp_handle_reply` for the query with the given index and a datagram from a given address. -/
def udpHandleReply (cfg : Config) (env : Env) (k : ℕ) (source : ℕ) (datagram : Packet) (s : State) :
    Outcome :=
  match s.queries.qlist[k]? with
  | none => ⟨s, []⟩
  | some q =>
    let msg := datagram.take udpMaxsize
    let queries := queryDeleteNext k s.queries
    if checkReply msg (replyRecv s.doms q source datagram) < 0 then
      ⟨{ s with queries := queries }, []⟩
    else match q.domain with
      | none => ⟨{ s with queries := queries, doms := markAlive q.srv s.doms }, []⟩
      | some _ =>
        ⟨{ s with
            queries := queries
            doms := markAlive q.srv s.doms
            cache := cacheDnspacket cfg env.cacheStack msg q.srv env.now s.cache },
          [(q.client, setMsgId cfg.order q.clientQid msg)]⟩

/-! ### Maintenance -/

/-- The static packet of `udp_send_dummy` behind its id: a question for the address of
`localhost`. -/
def dummyQuestion : List UInt8 :=
  [1, 0, 0, 1, 0, 0, 0, 0, 0, 0, 9, 108, 111, 99, 97, 108, 104, 111, 115, 116, 0, 0, 1, 0, 1]

/-- The static packet of `udp_send_dummy`. -/
def dummyPacket (order : ByteOrder) (id : UInt16) : Packet :=
  setMsgId order id ([0, 0] ++ dummyQuestion)

def udpSendDummy (cfg : Config) (env : Env) (srv : SrvId) (s : State) : State :=
  match queryAdd cfg env.creation env.now none srv env.srcaddr (dummyPacket cfg.order s.dummyId)
    s.queries with
  | none => s
  | some added =>
    let queries := modifyQuery added.table added.index fun q ↦
      { q with ttl := cfg.reactivateInterval }
    let s := { s with dummyId := msgId cfg.order added.msg + 1 }
    if env.sends.head? = some true then
      { s with
        queries := modifyQuery queries added.index (recordSend srv added.msg)
        doms := markSent env.now srv s.doms }
    else { s with queries := queries }

/-- The test in the loop of `retry_srvlist`: a server of the ring that has been inactive long
enough. -/
def retryDue (cfg : Config) (now : ℕ) (id : SrvId) (s : State) : Bool :=
  cfg.reactivateInterval ≠ 0 ∧ id.srv ≠ 0 ∧
    id.srv < (s.doms.getD id.dom default).srvlist.length ∧ (srvAt s.doms id).inactive ≠ 0 ∧
    cfg.reactivateInterval ≤ now - (srvAt s.doms id).inactive

/-- The body of the loop of `retry_srvlist` for one server. -/
def retrySrv (cfg : Config) (env : Env) (id : SrvId) (s : State) : State :=
  if retryDue cfg env.now id s then
    udpSendDummy cfg env id
      { s with doms := modifySrv s.doms id fun node ↦ { node with inactive := env.now } }
  else s

/-- The body of the loop of `deactivate_servers` for one server. -/
def deactivateSrv (cfg : Config) (now : ℕ) (id : SrvId) (s : State) : State :=
  let node := srvAt s.doms id
  if cfg.reactivateInterval ≠ 0 ∧ cfg.forwardTimeout ≠ 0 ∧ id.srv ≠ 0 ∧ node.inactive = 0 ∧
      node.sendTime ≠ 0 ∧ cfg.forwardTimeout < now - node.sendTime then
    let doms := modifySrv s.doms id fun node ↦ { node with inactive := now }
    { s with
      doms := if (doms.getD id.dom default).current = some id.srv then
          doms.modify id.dom (deactivateCurrent now)
        else doms }
  else s

/-! ### Runs -/

inductive Event
  | request (env : Env) (client : SockAddr) (datagram : Packet)
  | reply (env : Env) (k : ℕ) (source : ℕ) (datagram : Packet)
  | receiveError (k : ℕ)
  | retry (env : Env) (id : SrvId)
  | deactivate (now : ℕ) (id : SrvId)
  | timeout (now : ℕ)
  | expire (now : ℕ)
  | reload (db : List DnsRecord)

def step (cfg : Config) (s : State) : Event → Except Stop Outcome
  | .request env client datagram => udpHandleRequest cfg env client datagram s
  | .reply env k source datagram => .ok (udpHandleReply cfg env k source datagram s)
  | .receiveError k => .ok ⟨{ s with queries := queryDeleteNext k s.queries }, []⟩
  | .retry env id => .ok ⟨retrySrv cfg env id s, []⟩
  | .deactivate now id => .ok ⟨deactivateSrv cfg now id s, []⟩
  | .timeout now => .ok ⟨{ s with queries := queryTimeout now s.queries }, []⟩
  | .expire now => .ok ⟨{ s with cache := cacheExpire cfg now s.cache }, []⟩
  | .reload db => .ok ⟨{ s with db := db }, []⟩

def startup (doms : List DomNode) (db : List DnsRecord) : State where
  doms := doms
  cache := emptyCache
  db := db
  queries := queryInit
  dummyId := 0

/-- The states at startup: every domain has the servers the command line gives it, and its first
server is the current one. -/
def IsStartup (s : State) : Prop :=
  ∃ doms db, (∀ d ∈ doms, ∃ domain roundrobin addrs, d = configuredDomain domain roundrobin addrs) ∧
    s = startup doms db

/-- The state after an event, if the program does not stop. -/
def nextState (cfg : Config) (s : State) (event : Event) : Option State :=
  match step cfg s event with
  | .ok outcome => some outcome.state
  | .error _ => none

def relay (cfg : Config) : System State Event := System.ofStep IsStartup (nextState cfg)

variable {event : Event}

theorem exists_outcome_of_step {s next : State}
    (h : (relay cfg).step s event next) :
    ∃ outcome, step cfg s event = .ok outcome ∧ outcome.state = next := by
  have hnext : nextState cfg s event = some next := h
  unfold nextState at hnext
  cases hstep : step cfg s event with
  | ok outcome => exact ⟨outcome, rfl, by simpa [hstep] using hnext⟩
  | error stop => simp [hstep] at hnext

/-! ### What a step does to the query list -/

/-- The arguments of a call of `query_add`. -/
structure Submission where
  creation : Creation
  now : ℕ
  dom : Option ℕ
  srv : SrvId
  client : SockAddr
  msg : Packet

def Submission.add (cfg : Config) (sub : Submission) (table : QueryTable) : Option Added :=
  queryAdd cfg sub.creation sub.now sub.dom sub.srv sub.client sub.msg table

/-- The call of `query_add` that a client's request leads to, if there is one. -/
def requestSubmission (cfg : Config) (env : Env) (client : SockAddr) (datagram : Packet)
    (s : State) : Option Submission :=
  if checkQuery (datagram.take udpMaxsize) < 0 then none
  else match (handledRequest cfg env datagram s).decision with
    | .forward d =>
      some
        { creation := env.creation
          now := env.now
          dom := some d
          srv := currentSrv (handledRequest cfg env datagram s).doms d
          client := client
          msg := (handledRequest cfg env datagram s).msg }
    | _ => none

/-- The call of `query_add` that the retry of a server leads to. -/
def retrySubmission (cfg : Config) (env : Env) (id : SrvId) (s : State) : Option Submission :=
  if retryDue cfg env.now id s then
    some
      { creation := env.creation
        now := env.now
        dom := none
        srv := id
        client := env.srcaddr
        msg := dummyPacket cfg.order s.dummyId }
  else none

/-- The call of `query_add` that an event leads to. -/
def Event.submission (cfg : Config) (s : State) : Event → Option Submission
  | .request env client datagram => requestSubmission cfg env client datagram s
  | .retry env id => retrySubmission cfg env id s
  | _ => none

variable {sub : Submission}

theorem Event.submission_cases
    (h : event.submission cfg s = some sub) :
    (∃ env client datagram, event = .request env client datagram ∧
      requestSubmission cfg env client datagram s = some sub) ∨
    ∃ env id, event = .retry env id ∧ retrySubmission cfg env id s = some sub := by
  cases event with
  | request env client datagram => exact Or.inl ⟨env, client, datagram, rfl, h⟩
  | retry env id => exact Or.inr ⟨env, id, rfl, h⟩
  | reply => simp [Event.submission] at h
  | receiveError => simp [Event.submission] at h
  | deactivate => simp [Event.submission] at h
  | timeout => simp [Event.submission] at h
  | expire => simp [Event.submission] at h
  | reload => simp [Event.submission] at h

/-- The server that the message reaches which an event sends for an entry of a domain, in the state
before the event. -/
def Event.destination (cfg : Config) (s : State) (domain : Option ℕ) : Event → Option SrvId
  | .request env _ datagram =>
    match domain with
    | none => none
    | some d =>
      match sendLoop cfg env.now d env.sends (handledRequest cfg env datagram s).doms with
      | .ok (_, dst) => dst
      | .error _ => none
  | .retry env id => if env.sends.head? = some true then some id else none
  | _ => none

variable {datagram : Packet}

variable {client : SockAddr}

theorem requestSubmission_eq_some
    (h : requestSubmission cfg env client datagram s = some sub) :
    ¬ checkQuery (datagram.take udpMaxsize) < 0 ∧
    ∃ d, (handledRequest cfg env datagram s).decision = .forward d ∧
      sub =
        { creation := env.creation
          now := env.now
          dom := some d
          srv := currentSrv (handledRequest cfg env datagram s).doms d
          client := client
          msg := (handledRequest cfg env datagram s).msg } := by
  unfold requestSubmission at h
  split_ifs at h with hcheck
  refine ⟨hcheck, ?_⟩
  split at h
  · rename_i d hdecision
    exact ⟨d, hdecision, (Option.some.inj h).symm⟩
  · simp at h

/-- The state in which a forwarded request is added to the query list. -/
def routedState (cfg : Config) (env : Env) (datagram : Packet) (s : State) : State :=
  { s with
    doms := (handledRequest cfg env datagram s).doms
    cache := (handledRequest cfg env datagram s).cache }

theorem udpHandleRequest_forward
    (h : requestSubmission cfg env client datagram s = some sub) :
    udpHandleRequest cfg env client datagram s =
      match sub.add cfg s.queries with
      | none => .ok ⟨routedState cfg env datagram s, []⟩
      | some added => forwardAdded cfg env (routedState cfg env datagram s) added := by
  obtain ⟨hcheck, d, hdecision, rfl⟩ := requestSubmission_eq_some h
  unfold udpHandleRequest
  rw [if_neg hcheck]
  simp only [hdecision]
  rfl

theorem udpHandleRequest_local
    (h : requestSubmission cfg env client datagram s = none) :
    ∃ outcome, udpHandleRequest cfg env client datagram s = .ok outcome ∧
      outcome.state.queries = s.queries := by
  unfold requestSubmission at h
  unfold udpHandleRequest
  split_ifs at h ⊢ with hcheck
  · exact ⟨_, rfl, rfl⟩
  · cases hdecision : (handledRequest cfg env datagram s).decision with
    | bogus =>
      simp only [hdecision]
      exact ⟨_, rfl, rfl⟩
    | answer =>
      simp only [hdecision]
      exact ⟨_, rfl, rfl⟩
    | forward d => simp [hdecision] at h

theorem retrySubmission_eq_some {id : SrvId}
    (h : retrySubmission cfg env id s = some sub) :
    sub =
      { creation := env.creation
        now := env.now
        dom := none
        srv := id
        client := env.srcaddr
        msg := dummyPacket cfg.order s.dummyId } := by
  unfold retrySubmission at h
  split_ifs at h
  exact (Option.some.inj h).symm

/-- What happens to an entry behind `query_add`: a message may be sent and the time to live set. -/
def completeEntry (ttl : Option ℤ) (dst : Option SrvId) (msg : Packet) (q : Query) : Query :=
  let q := { q with ttl := ttl.getD q.ttl }
  match dst with
  | none => q
  | some dst => recordSend dst msg q

@[simp] theorem completeEntry_none (msg : Packet) : completeEntry none none msg = id := rfl

variable {outcome : Outcome}

/-- What the end of `udp_handle_request` does to the query list: the entry has a domain, and the
message is recorded for the server it reached. -/
theorem forwardAdded_queries {added : Added}
    (h : forwardAdded cfg env s added = .ok outcome) :
    ∃ q d doms dst, added.table.qlist[added.index]? = some q ∧ q.domain = some d ∧
      sendLoop cfg env.now d env.sends s.doms = .ok (doms, dst) ∧ outcome.toClients = [] ∧
      outcome.state.queries.qlist <+
        added.table.qlist.modify added.index (completeEntry none dst added.msg) := by
  unfold forwardAdded send2current at h
  cases hentry : added.table.qlist[added.index]? with
  | none => simp [hentry] at h
  | some q =>
    cases hdomain : q.domain with
    | none => simp [hentry, hdomain] at h
    | some d =>
      simp only [hentry, Option.bind_some, hdomain] at h
      cases hloop : sendLoop cfg env.now d env.sends s.doms with
      | error stop => simp [hloop] at h
      | ok result =>
        obtain ⟨doms, dst⟩ := result
        refine ⟨q, d, doms, dst, rfl, hdomain, hloop, ?_⟩
        cases dst with
        | some dst =>
          simp only [hloop] at h
          obtain rfl := Except.ok.inj h
          exact ⟨rfl, List.Sublist.refl _⟩
        | none =>
          rw [completeEntry_none, List.modify_id]
          simp only [hloop] at h
          split_ifs at h
          · obtain rfl := Except.ok.inj h
            exact ⟨rfl, queryDeleteNext_sublist _ _⟩
          · obtain rfl := Except.ok.inj h
            exact ⟨rfl, List.Sublist.refl _⟩

/-- What a request does to the query list: nothing, or an entry is found or added and completed. -/
theorem udpHandleRequest_queries
    (h : udpHandleRequest cfg env client datagram s = .ok outcome) :
    outcome.state.queries = s.queries ∨
    ∃ sub added q, requestSubmission cfg env client datagram s = some sub ∧
      sub.add cfg s.queries = some added ∧ added.table.qlist[added.index]? = some q ∧
      outcome.state.queries.qlist <+ added.table.qlist.modify added.index (completeEntry none
        (Event.destination cfg s q.domain (.request env client datagram)) added.msg) := by
  cases hsub : requestSubmission cfg env client datagram s with
  | none =>
    obtain ⟨outcome', houtcome, hqueries⟩ := udpHandleRequest_local hsub
    obtain rfl : outcome' = outcome := Except.ok.inj (houtcome.symm.trans h)
    exact Or.inl hqueries
  | some sub =>
    rw [udpHandleRequest_forward hsub] at h
    cases hadded : sub.add cfg s.queries with
    | none =>
      simp only [hadded] at h
      obtain rfl := Except.ok.inj h
      exact Or.inl rfl
    | some added =>
      simp only [hadded] at h
      obtain ⟨q, d, doms, dst, hq, hdomain, hloop, -, hsublist⟩ := forwardAdded_queries h
      refine Or.inr ⟨sub, added, q, rfl, hadded, hq, ?_⟩
      have hloop' : sendLoop cfg env.now d env.sends (handledRequest cfg env datagram s).doms =
          .ok (doms, dst) := hloop
      simpa only [Event.destination, hdomain, hloop'] using hsublist

/-- What the retry of a server does to the query list. -/
theorem retrySrv_queries (cfg : Config) (env : Env) (id : SrvId) (s : State) :
    (retrySrv cfg env id s).queries = s.queries ∨
    ∃ sub added ttl, retrySubmission cfg env id s = some sub ∧ sub.add cfg s.queries = some added ∧
      (retrySrv cfg env id s).queries.qlist = added.table.qlist.modify added.index
        (completeEntry (some ttl) (if env.sends.head? = some true then some id else none)
          added.msg) := by
  unfold retrySrv retrySubmission
  by_cases hdue : retryDue cfg env.now id s = true
  · rw [if_pos hdue, if_pos hdue]
    unfold udpSendDummy
    split
    · exact Or.inl rfl
    · rename_i added hadded
      refine Or.inr ⟨_, added, cfg.reactivateInterval, rfl, hadded, ?_⟩
      split_ifs with hsend
      · show (added.table.qlist.modify _ _).modify _ _ = _
        rw [List.modify_modify_eq]
        rfl
      · rfl
  · rw [if_neg hdue]
    exact Or.inl rfl

theorem udpHandleReply_queries (cfg : Config) (env : Env) (k source : ℕ) (datagram : Packet)
    (s : State) :
    (udpHandleReply cfg env k source datagram s).state.queries = queryDeleteNext k s.queries := by
  unfold udpHandleReply
  split
  · rename_i hnone
    simp [queryDeleteNext, hnone]
  · simp only
    split_ifs
    · rfl
    · split <;> rfl

theorem deactivateSrv_queries (cfg : Config) (now : ℕ) (id : SrvId) (s : State) :
    (deactivateSrv cfg now id s).queries = s.queries := by
  unfold deactivateSrv
  simp only
  split_ifs <;> rfl

/-- Everything a step can do to the query list: entries disappear, or one entry is found or added by
`query_add` and then completed. -/
theorem step_queries
    (h : step cfg s event = .ok outcome) :
    outcome.state.queries.qlist <+ s.queries.qlist ∨
    ∃ sub added q ttl, event.submission cfg s = some sub ∧ sub.add cfg s.queries = some added ∧
      added.table.qlist[added.index]? = some q ∧
      outcome.state.queries.qlist <+ added.table.qlist.modify added.index
        (completeEntry ttl (event.destination cfg s q.domain) added.msg) := by
  cases event with
  | request env client datagram =>
    rcases udpHandleRequest_queries h with hsame | ⟨sub, added, q, hsub, hadded, hq, hsublist⟩
    · rw [hsame]
      exact Or.inl (List.Sublist.refl _)
    · exact Or.inr ⟨sub, added, q, none, hsub, hadded, hq, hsublist⟩
  | retry env id =>
    obtain rfl := Except.ok.inj h
    rcases retrySrv_queries cfg env id s with hsame | ⟨sub, added, ttl, hsub, hadded, hqlist⟩
    · refine Or.inl ?_
      show (retrySrv cfg env id s).queries.qlist <+ _
      rw [hsame]
    · have hindex : added.index < added.table.qlist.length := queryAdd_index_lt hadded
      refine Or.inr ⟨sub, added, _, some ttl, hsub, hadded, List.getElem?_eq_getElem hindex, ?_⟩
      show (retrySrv cfg env id s).queries.qlist <+ _
      rw [hqlist]
      exact List.Sublist.refl _
  | reply env k source datagram =>
    obtain rfl := Except.ok.inj h
    refine Or.inl ?_
    show (udpHandleReply cfg env k source datagram s).state.queries.qlist <+ _
    rw [udpHandleReply_queries]
    exact queryDeleteNext_sublist _ _
  | receiveError k =>
    obtain rfl := Except.ok.inj h
    exact Or.inl (queryDeleteNext_sublist _ _)
  | deactivate now id =>
    obtain rfl := Except.ok.inj h
    refine Or.inl ?_
    show (deactivateSrv cfg now id s).queries.qlist <+ _
    rw [deactivateSrv_queries]
  | timeout now =>
    obtain rfl := Except.ok.inj h
    exact Or.inl (sweepLoop_sublist _ _ _ _)
  | expire now =>
    obtain rfl := Except.ok.inj h
    exact Or.inl (List.Sublist.refl _)
  | reload db =>
    obtain rfl := Except.ok.inj h
    exact Or.inl (List.Sublist.refl _)

/-- Where an entry of the query list comes from: it was there before the step, or it is the one that
`query_add` found, or the one it added. -/
theorem step_entries {q' : Query}
    (h : step cfg s event = .ok outcome) (hq' : q' ∈ outcome.state.queries.qlist) :
    q' ∈ s.queries.qlist ∨
    ∃ sub ttl, event.submission cfg s = some sub ∧
      ((∃ q ∈ s.queries.qlist, q.clientQid = msgId cfg.order sub.msg ∧
        q' = completeEntry ttl (event.destination cfg s q.domain)
          (setMsgId cfg.order q.myQid sub.msg) (touchQuery sub.now q)) ∨
      ((∀ q ∈ s.queries.qlist, q.clientQid ≠ msgId cfg.order sub.msg) ∧
        ∃ port q, sub.creation.port = some port ∧
          q = newQuery cfg sub.creation port sub.dom sub.srv (msgId cfg.order sub.msg) sub.client
            sub.now s.queries.pool ∧
          q' = completeEntry ttl (event.destination cfg s q.domain)
            (setMsgId cfg.order (cfg.order.htons q.myQid) sub.msg) q)) := by
  rcases step_queries h with hsublist | ⟨sub, added, q, ttl, hsub, hadded, hq, hsublist⟩
  · exact Or.inl (hsublist.subset hq')
  · have hmem := hsublist.subset hq'
    rcases queryAdd_spec hadded with ⟨old, hold, hqid, hmsg, htable⟩ |
      ⟨hfree, -, hindex, port, new, hport, hnew, hmsg, htable⟩
    · rw [htable] at hmem hq
      rw [List.getElem?_modify_eq, hold] at hq
      obtain rfl : touchQuery sub.now old = q := Option.some.inj hq
      rw [List.modify_modify_eq] at hmem
      rcases mem_modify_cases hmem with hmem | ⟨old', hold', rfl⟩
      · exact Or.inl hmem
      · obtain rfl : old' = old := Option.some.inj (hold'.symm.trans hold)
        refine Or.inr ⟨sub, ttl, hsub, Or.inl ⟨old', List.mem_of_getElem? hold, hqid, ?_⟩⟩
        rw [hmsg]
        rfl
    · rw [htable, hindex] at hmem hq
      rw [List.getElem?_concat_length] at hq
      obtain rfl : new = q := Option.some.inj hq
      rw [modify_concat_length] at hmem
      rcases List.mem_append.mp hmem with hmem | hmem
      · exact Or.inl hmem
      · refine Or.inr ⟨sub, ttl, hsub, Or.inr ⟨hfree, port, new, hport, hnew, ?_⟩⟩
        rw [← hmsg]
        exact List.mem_singleton.mp hmem

/-- The invariant rule for a property of single entries: it is enough that it holds of the entry
that `query_add` adds and is kept for the entry that it finds. -/
theorem entry_invariant {allowed : State → Event → Prop} {P : Query → Prop}
    (hfound : ∀ s event sub ttl q, allowed s event → event.submission cfg s = some sub →
      q ∈ s.queries.qlist → q.clientQid = msgId cfg.order sub.msg → P q →
      P (completeEntry ttl (event.destination cfg s q.domain) (setMsgId cfg.order q.myQid sub.msg)
        (touchQuery sub.now q)))
    (hadded : ∀ s event sub ttl port q, allowed s event → event.submission cfg s = some sub →
      q = newQuery cfg sub.creation port sub.dom sub.srv (msgId cfg.order sub.msg) sub.client
        sub.now s.queries.pool →
      P (completeEntry ttl (event.destination cfg s q.domain)
        (setMsgId cfg.order (cfg.order.htons q.myQid) sub.msg) q))
    (hreach : Reachable (relay cfg) allowed s) : ∀ q ∈ s.queries.qlist, P q := by
  refine hreach.invariant (fun s ↦ ∀ q ∈ s.queries.qlist, P q) ?_ ?_
  · rintro s ⟨doms, db, -, rfl⟩
    simp [startup, queryInit]
  · intro s event next _ hinv hallowed hnext q' hq'
    obtain ⟨outcome, hstep, rfl⟩ := exists_outcome_of_step hnext
    rcases step_entries hstep hq' with hold | ⟨sub, ttl, hsub, ⟨q, hq, hqid, rfl⟩ |
      ⟨-, port, q, -, hq, rfl⟩⟩
    · exact hinv q' hold
    · exact hfound s event sub ttl q hallowed hsub hq hqid (hinv q hq)
    · exact hadded s event sub ttl port q hallowed hsub hq

theorem mem_sent_completeEntry {ttl : Option ℤ} {dst : Option SrvId} {msg : Packet} {q : Query}
    {datagram : Datagram} (h : datagram ∈ (completeEntry ttl dst msg q).sock.sent) :
    datagram ∈ q.sock.sent ∨ dst = some datagram.dst ∧ datagram.msg = msg := by
  cases dst with
  | none => exact Or.inl h
  | some dst =>
    rcases List.mem_append.mp h with h | h
    · exact Or.inl h
    · obtain rfl := List.mem_singleton.mp h
      exact Or.inr ⟨rfl, rfl⟩

theorem getLast?_sent_completeEntry (ttl : Option ℤ) (dst : Option SrvId) (msg : Packet)
    (q : Query) : (completeEntry ttl dst msg q).sock.sent.getLast? =
      match dst with
      | none => q.sock.sent.getLast?
      | some dst => some ⟨dst, msg⟩ := by
  cases dst with
  | none => rfl
  | some dst => exact List.getLast?_concat

@[simp] theorem completeEntry_srv (ttl : Option ℤ) (dst : Option SrvId) (msg : Packet) (q : Query) :
    (completeEntry ttl dst msg q).srv = q.srv := by
  cases dst <;> rfl

@[simp] theorem completeEntry_myQid (ttl : Option ℤ) (dst : Option SrvId) (msg : Packet)
    (q : Query) : (completeEntry ttl dst msg q).myQid = q.myQid := by
  cases dst <;> rfl

@[simp] theorem completeEntry_domain (ttl : Option ℤ) (dst : Option SrvId) (msg : Packet)
    (q : Query) : (completeEntry ttl dst msg q).domain = q.domain := by
  cases dst <;> rfl

@[simp] theorem completeEntry_client (ttl : Option ℤ) (dst : Option SrvId) (msg : Packet)
    (q : Query) : (completeEntry ttl dst msg q).client = q.client := by
  cases dst <;> rfl

@[simp] theorem completeEntry_port (ttl : Option ℤ) (dst : Option SrvId) (msg : Packet)
    (q : Query) : (completeEntry ttl dst msg q).sock.port = q.sock.port := by
  cases dst <;> rfl

@[simp] theorem completeEntry_clientQid (ttl : Option ℤ) (dst : Option SrvId) (msg : Packet)
    (q : Query) : (completeEntry ttl dst msg q).clientQid = q.clientQid := by
  cases dst <;> rfl

end CrossBreeder.Dnrd
