import CrossBreeder.Dnrd.Relay
import Mathlib.Data.List.Nodup

/-!
# Pending queries over whole runs

Three properties that pending queries should have in every reachable state of the relay, and the
runs in which they have it.

* Every message sent for a query starts with the query's own id in network order. `query_add` stores
  the id of an entry it finds without `htons`, so this is kept by the steps in which that makes no
  difference (`sendsOwnId_of_reachable`, `retransmission_swaps_id`).
* The last message for a query went to the server the query names. The server is noted when the
  query is added and the message goes to the current server of the domain, so this is kept by the
  steps in which the two are the same (`lastSentToOwnServer_of_reachable`,
  `failover_keeps_old_server`).
* A client's request is never given the entry of a reactivation dummy. The entries are told apart by
  the ids of the clients alone, and `udpHandleRequest_ne_assertion_iff` says for which requests the
  assertion of `send2current` holds; `request_hits_dummy` is one for which it fails.
-/

namespace CrossBreeder.Dnrd

open Foundation
open scoped List

/-- An environment in which memory is zeroed and a new query gets the given port and random number.
-/
def zeroedEnv (now port index : ℕ) (sends : List Bool) : Env where
  now := now
  creation := ⟨some port, index⟩
  sends := sends
  tail := []
  masterStack := []
  cacheStack := []
  dontknowStack := []
  srcaddr := ⟨0, 0⟩

def twoServers : State := startup [configuredDomain none false [11, 12]] []

theorem isStartup_twoServers : IsStartup twoServers := by
  refine ⟨_, _, fun d hd ↦ ?_, rfl⟩
  exact ⟨none, false, [11, 12], List.mem_singleton.mp hd⟩

/-- A request with the given id bytes for the address of a one-letter name. -/
def requestFor (first second letter : UInt8) : Packet :=
  [first, second, 1, 0, 0, 1, 0, 0, 0, 0, 0, 0, 1, letter, 0, 0, 1, 0, 1]

/-! ### The id on the wire -/

/-- Every message sent for the query starts with its own id in network order. -/
def SendsOwnId (q : Query) : Prop :=
  ∀ datagram ∈ q.sock.sent, datagram.msg.take 2 = [highByte q.myQid, lowByte q.myQid]

instance (q : Query) : Decidable (SendsOwnId q) := inferInstanceAs (Decidable (∀ _ ∈ _, _))

/-- The entry that a message is matched to, if there is one, has an id that the host stores in
network order. -/
def FoundIdIsNetworkOrder (cfg : Config) (s : State) (event : Event) : Prop :=
  ∀ sub, event.submission cfg s = some sub → ∀ q ∈ s.queries.qlist,
    q.clientQid = msgId cfg.order sub.msg → cfg.order.htons q.myQid = q.myQid

theorem take_setMsgId (order : ByteOrder) (id : UInt16) (msg : Packet) :
    (setMsgId order id msg).take 2 = [(order.store id).1, (order.store id).2] := rfl

theorem SendsOwnId.completeEntry {q : Query} (hq : SendsOwnId q) {ttl : Option ℤ}
    {dst : Option SrvId} {msg : Packet} (hmsg : msg.take 2 = [highByte q.myQid, lowByte q.myQid]) :
    SendsOwnId (completeEntry ttl dst msg q) := by
  intro datagram hdatagram
  rw [completeEntry_myQid]
  rcases mem_sent_completeEntry hdatagram with hold | ⟨-, rfl⟩
  · exact hq datagram hold
  · exact hmsg

/-- In every run in which each message that is matched to an entry finds one whose id the host
stores in network order, every message sent for a pending query starts with the query's own id in
network order. -/
theorem sendsOwnId_of_reachable {cfg : Config} {s : State}
    (hreach : Reachable (relay cfg) (FoundIdIsNetworkOrder cfg) s) :
    ∀ q ∈ s.queries.qlist, SendsOwnId q := by
  refine entry_invariant ?_ ?_ hreach
  · intro s event sub ttl q hallowed hsub hq hqid hown
    have hstored := (ByteOrder.store_eq_network_iff _ _).mpr (hallowed sub hsub q hq hqid)
    have htouched : SendsOwnId (touchQuery sub.now q) := hown
    refine htouched.completeEntry ?_
    rw [take_setMsgId, hstored]
    rfl
  · rintro s event sub ttl port q - - rfl
    refine SendsOwnId.completeEntry (by simp [SendsOwnId, newQuery]) ?_
    rw [take_setMsgId, ByteOrder.store_htons]

/-- One request with id 7, forwarded with the first id of the pool. -/
theorem sendsOwnId_of_reachable_single :
    ∃ s, Reachable (relay defaultConfig) (FoundIdIsNetworkOrder defaultConfig) s ∧
      s.queries.qlist.length = 1 ∧ ∀ q ∈ s.queries.qlist, SendsOwnId q := by
  have hnext : (nextState defaultConfig twoServers
      (.request (zeroedEnv 100 40000 1 [true]) ⟨5, 6000⟩ (requestFor 0 7 97))).any
      (fun s ↦ s.queries.qlist.length = 1) = true := by decide
  obtain ⟨s, hs, hlength⟩ := (Option.any_eq_true _ _).mp hnext
  have hreach : Reachable (relay defaultConfig) (FoundIdIsNetworkOrder defaultConfig) s := by
    refine Reachable.step (Reachable.start isStartup_twoServers) ?_ hs
    intro sub _ q hq
    exact absurd hq (by simp [twoServers, startup, queryInit])
  exact ⟨s, hreach, by simpa using hlength, sendsOwnId_of_reachable hreach⟩

/-- The request is forwarded with id 1 and repeated by the client. On a little-endian host the
second message starts with the bytes of the id in the other order. -/
theorem retransmission_swaps_id :
    ∃ s, Reachable (relay defaultConfig) (fun _ _ ↦ True) s ∧
      ¬ ∀ q ∈ s.queries.qlist, SendsOwnId q := by
  have hrun : (runSteps (nextState defaultConfig) twoServers
      [.request (zeroedEnv 100 40000 1 [true]) ⟨5, 6000⟩ (requestFor 0 7 97),
        .request (zeroedEnv 101 40001 2 [true]) ⟨5, 6000⟩ (requestFor 0 7 97)]).any
      (fun s ↦ ¬ ∀ q ∈ s.queries.qlist, SendsOwnId q) = true := by decide
  obtain ⟨s, hreach, htest⟩ := exists_reachable_of_runSteps isStartup_twoServers hrun
  exact ⟨s, hreach, of_decide_eq_true htest⟩

/-! ### The server of a query -/

/-- The last message sent for the query went to the server that the query names. -/
def LastSentToOwnServer (q : Query) : Prop :=
  ∀ datagram, q.sock.sent.getLast? = some datagram → datagram.dst = q.srv

instance (q : Query) : Decidable (LastSentToOwnServer q) :=
  decidable_of_iff (∀ datagram ∈ q.sock.sent.getLast?, datagram.dst = q.srv) (by rfl)

/-- The messages that an event sends go to the server of the entry they are sent for: none is sent;
or no failed send moves the current server before one succeeds, and a message that is matched to an
entry finds one whose server is the one that will be sent to. -/
def SendsToOwnServer (cfg : Config) (s : State) : Event → Prop
  | .request env client datagram => ∀ sub, requestSubmission cfg env client datagram s = some sub →
      true ∉ env.sends ∨
      (cfg.reactivateInterval = 0 ∨ env.sends.head? = some true) ∧
        ∀ q ∈ s.queries.qlist, q.clientQid = msgId cfg.order sub.msg → ∀ d, q.domain = some d →
          currentSrv (handledRequest cfg env datagram s).doms d = q.srv
  | .retry env id => ∀ sub, retrySubmission cfg env id s = some sub →
      env.sends.head? ≠ some true ∨
      ∀ q ∈ s.queries.qlist, q.clientQid = msgId cfg.order sub.msg → q.srv = id
  | _ => True

variable {cfg : Config}

theorem sendLoop_dst {now d : ℕ} {dst : SrvId} (sends : List Bool) :
    ∀ {doms doms' : List DomNode}, sendLoop cfg now d sends doms = .ok (doms', some dst) →
      true ∈ sends ∧ (cfg.reactivateInterval = 0 ∨ sends.head? = some true →
        dst = currentSrv doms d) := by
  induction sends with
  | nil =>
    intro doms doms' h
    simp only [sendLoop] at h
    split at h <;> simp at h
  | cons sent sends ih =>
    intro doms doms' h
    simp only [sendLoop] at h
    cases hcurrent : (doms.getD d default).current with
    | none =>
      simp only [hcurrent] at h
      simp at h
    | some c =>
      cases sent with
      | true =>
        refine ⟨by simp, fun _ ↦ ?_⟩
        have hdst : SrvId.mk d c = dst := by
          simp only [hcurrent, if_true, Except.ok.injEq, Prod.mk.injEq, Option.some.injEq] at h
          exact h.2
        rw [← hdst, currentSrv, hcurrent, Option.getD_some]
      | false =>
        simp only [hcurrent, Bool.false_eq_true, if_false] at h
        obtain ⟨hsent, hcur⟩ := ih h
        refine ⟨List.mem_cons_of_mem _ hsent, ?_⟩
        rintro (hinterval | hhead)
        · simpa [hinterval] using hcur (Or.inl hinterval)
        · simp at hhead

/-- A message that an event sends for an entry goes to the server of that entry: either the event's
message was matched to the entry, or the entry is the one added for it. -/
theorem destination_eq_srv {s : State} {event : Event} {sub : Submission}
    (hallowed : SendsToOwnServer cfg s event) (hsub : event.submission cfg s = some sub) {q : Query}
    (hq : q ∈ s.queries.qlist ∧ q.clientQid = msgId cfg.order sub.msg ∨
      q.domain = sub.dom ∧ q.srv = sub.srv) {dst : SrvId}
    (hdst : event.destination cfg s q.domain = some dst) : dst = q.srv := by
  rcases Event.submission_cases hsub with
    ⟨env, client, datagram, rfl, hrequest⟩ | ⟨env, id, rfl, hretry⟩
  · obtain ⟨-, d, -, hargs⟩ := requestSubmission_eq_some hrequest
    cases hdomain : q.domain with
    | none => simp [Event.destination, hdomain] at hdst
    | some d' =>
      simp only [Event.destination, hdomain] at hdst
      split at hdst
      · rename_i doms' dst' hloop
        subst hdst
        obtain ⟨hsent, hcur⟩ := sendLoop_dst _ hloop
        obtain ⟨hfirst, hentry⟩ := (hallowed sub hrequest).resolve_left (not_not_intro hsent)
        rw [hcur hfirst]
        rcases hq with ⟨hmem, hqid⟩ | ⟨hdom, hsrv⟩
        · exact hentry q hmem hqid d' hdomain
        · rw [hargs] at hdom hsrv
          obtain rfl : d' = d := Option.some.inj (hdomain.symm.trans hdom)
          exact hsrv.symm
      · simp at hdst
  · obtain ⟨hsend, rfl⟩ : env.sends.head? = some true ∧ id = dst := by
      simpa [Event.destination] using hdst
    rcases hq with ⟨hmem, hqid⟩ | ⟨-, hsrv⟩
    · have hentry := (hallowed sub hretry).resolve_left (not_not_intro hsend)
      exact (hentry q hmem hqid).symm
    · rw [retrySubmission_eq_some hretry] at hsrv
      exact hsrv.symm

theorem LastSentToOwnServer.completeEntry {q : Query} (hq : LastSentToOwnServer q) {ttl : Option ℤ}
    {dst : Option SrvId} {msg : Packet} (hdst : ∀ server, dst = some server → server = q.srv) :
    LastSentToOwnServer (completeEntry ttl dst msg q) := by
  intro datagram hlast
  rw [getLast?_sent_completeEntry] at hlast
  rw [completeEntry_srv]
  cases dst with
  | none => exact hq datagram hlast
  | some server =>
    obtain rfl : Datagram.mk server msg = datagram := Option.some.inj hlast
    exact hdst server rfl

/-- In every run in which each message goes to the server of the entry it is sent for, the last
message sent for a pending query went to the server the query names, and what comes back from that
server's address is received in full. -/
theorem lastSentToOwnServer_of_reachable {cfg : Config} {s : State}
    (hreach : Reachable (relay cfg) (SendsToOwnServer cfg) s) :
    ∀ q ∈ s.queries.qlist, LastSentToOwnServer q ∧
      ∀ datagram, q.sock.sent.getLast? = some datagram → ∀ reply,
        replyRecv s.doms q (srvAt s.doms datagram.dst).addr reply =
        (reply.take udpMaxsize).length := by
  have hentries : ∀ q ∈ s.queries.qlist, LastSentToOwnServer q := by
    refine entry_invariant ?_ ?_ hreach
    · intro s event sub ttl q hallowed hsub hq hqid hlast
      have htouched : LastSentToOwnServer (touchQuery sub.now q) := hlast
      refine htouched.completeEntry fun server hserver ↦ ?_
      exact destination_eq_srv hallowed hsub (Or.inl ⟨hq, hqid⟩) hserver
    · rintro s event sub ttl port q hallowed hsub rfl
      refine LastSentToOwnServer.completeEntry (by simp [LastSentToOwnServer, newQuery]) ?_
      intro server hserver
      exact destination_eq_srv hallowed hsub (Or.inr ⟨rfl, rfl⟩) hserver
  intro q hq
  refine ⟨hentries q hq, fun datagram hlast reply ↦ ?_⟩
  rw [hentries q hq datagram hlast, replyRecv, if_neg (not_not_intro rfl)]

/-- One request, sent to the first server at the first attempt. -/
theorem lastSentToOwnServer_of_reachable_single :
    ∃ s, Reachable (relay defaultConfig) (SendsToOwnServer defaultConfig) s ∧
      (∃ q ∈ s.queries.qlist, q.sock.sent ≠ []) ∧
      ∀ q ∈ s.queries.qlist, LastSentToOwnServer q := by
  have hnext : (nextState defaultConfig twoServers
      (.request (zeroedEnv 100 40000 1 [true]) ⟨5, 6000⟩ (requestFor 0 7 97))).any
      (fun s ↦ ∃ q ∈ s.queries.qlist, q.sock.sent ≠ []) = true := by decide
  obtain ⟨s, hs, hsent⟩ := (Option.any_eq_true _ _).mp hnext
  have hreach : Reachable (relay defaultConfig) (SendsToOwnServer defaultConfig) s := by
    refine Reachable.step (Reachable.start isStartup_twoServers) ?_ hs
    intro sub _
    refine Or.inr ⟨Or.inr rfl, fun q hq ↦ ?_⟩
    exact absurd hq (by simp [twoServers, startup, queryInit])
  exact ⟨s, hreach, of_decide_eq_true hsent,
    fun q hq ↦ (lastSentToOwnServer_of_reachable hreach q hq).1⟩

/-- The send to the first server fails, which makes the second server the current one. The message
goes there, and the query still names the first. -/
theorem failover_keeps_old_server :
    ∃ s, Reachable (relay defaultConfig) (fun _ _ ↦ True) s ∧
      ¬ ∀ q ∈ s.queries.qlist, LastSentToOwnServer q := by
  have hrun : (runSteps (nextState defaultConfig) twoServers
      [.request (zeroedEnv 100 40000 1 [false, true]) ⟨5, 6000⟩ (requestFor 0 7 97)]).any
      (fun s ↦ ¬ ∀ q ∈ s.queries.qlist, LastSentToOwnServer q) = true := by decide
  obtain ⟨s, hreach, htest⟩ := exists_reachable_of_runSteps isStartup_twoServers hrun
  exact ⟨s, hreach, of_decide_eq_true htest⟩

/-! ### Reactivation dummies -/

def clientQids (table : QueryTable) : List UInt16 := table.qlist.map Query.clientQid

theorem queryAdd_nodup {creation : Creation} {now : ℕ} {dom : Option ℕ} {srv : SrvId}
    {client : SockAddr} {msg : Packet} {table : QueryTable} {added : Added}
    (h : queryAdd cfg creation now dom srv client msg table = some added)
    (hnodup : (clientQids table).Nodup) : (clientQids added.table).Nodup := by
  unfold clientQids at hnodup ⊢
  rcases queryAdd_spec h with ⟨q, -, -, -, htable⟩ | ⟨hfree, -, -, port, q, -, hq, -, htable⟩
  · rw [htable, map_modify_of_comp Query.clientQid (touchQuery now) (fun _ ↦ rfl)]
    exact hnodup
  · rw [htable, List.map_append, List.map_singleton, hq]
    refine hnodup.append (List.nodup_singleton _) ?_
    simpa [newQuery] using hfree

theorem nodup_clientQids_of_reachable {allowed : State → Event → Prop} {s : State}
    (hreach : Reachable (relay cfg) allowed s) : (clientQids s.queries).Nodup := by
  refine hreach.invariant (fun s ↦ (clientQids s.queries).Nodup) ?_ ?_
  · rintro s ⟨doms, db, -, rfl⟩
    exact List.nodup_nil
  · intro s event next _ hinv _ hnext
    obtain ⟨outcome, hstep, rfl⟩ := exists_outcome_of_step hnext
    rcases step_queries hstep with hsublist | ⟨sub, added, q, ttl, hsub, hadded, hq, hsublist⟩
    · exact hinv.sublist (hsublist.map _)
    · have hmap := hsublist.map Query.clientQid
      rw [map_modify_of_comp Query.clientQid _ (fun q ↦ completeEntry_clientQid _ _ _ q)] at hmap
      exact (queryAdd_nodup hadded hinv).sublist hmap

theorem sendLoop_ne_assertion (cfg : Config) (now d : ℕ) (sends : List Bool) :
    ∀ doms, sendLoop cfg now d sends doms ≠ .error .assertion := by
  induction sends with
  | nil =>
    intro doms
    simp only [sendLoop]
    split <;> simp
  | cons sent sends ih =>
    intro doms
    simp only [sendLoop]
    split
    · simp
    · by_cases hsent : sent = true
      · simp [hsent]
      · rw [if_neg hsent]
        exact ih _

theorem forwardAdded_eq_assertion_iff {env : Env} {s : State} {added : Added}
    {q : Query} (hq : added.table.qlist[added.index]? = some q) :
    forwardAdded cfg env s added = .error .assertion ↔ q.domain = none := by
  unfold forwardAdded send2current
  cases hdomain : q.domain with
  | none => simp [hq, hdomain]
  | some d =>
    simp only [hq, Option.bind_some, hdomain]
    cases hloop : sendLoop cfg env.now d env.sends s.doms with
    | error stop =>
      have hstop : stop ≠ .assertion := fun h ↦ sendLoop_ne_assertion cfg env.now d env.sends s.doms
        (h ▸ hloop)
      simpa using hstop
    | ok result =>
      obtain ⟨doms, dst⟩ := result
      cases dst with
      | some dst => simp
      | none =>
        simp only
        split_ifs <;> simp

/-- In every reachable state the assertion of `send2current` holds for a request of a client exactly
when the request is not forwarded or no reactivation dummy in the list has the request's id. -/
theorem udpHandleRequest_ne_assertion_iff {cfg : Config} {allowed : State → Event → Prop}
    {s : State} (hreach : Reachable (relay cfg) allowed s) (env : Env) (client : SockAddr)
    (datagram : Packet) :
    udpHandleRequest cfg env client datagram s ≠ .error .assertion ↔
      ∀ sub, requestSubmission cfg env client datagram s = some sub →
        ∀ q ∈ s.queries.qlist, q.clientQid = msgId cfg.order sub.msg → q.domain ≠ none := by
  have hnodup := nodup_clientQids_of_reachable hreach
  cases hsub : requestSubmission cfg env client datagram s with
  | none =>
    obtain ⟨outcome, houtcome, -⟩ := udpHandleRequest_local hsub
    simp [houtcome]
  | some sub =>
    rw [udpHandleRequest_forward hsub]
    simp only [Option.some.injEq, forall_eq']
    cases hadded : sub.add cfg s.queries with
    | none =>
      have hfree := queryAdd_eq_none hadded
      simpa using fun q hq hqid ↦ absurd hqid (hfree q hq)
    | some added =>
      obtain ⟨-, d, -, hargs⟩ := requestSubmission_eq_some hsub
      rcases queryAdd_spec hadded with ⟨q, hq, hqid, -, htable⟩ |
        ⟨hfree, -, hindex, port, q, -, hq, -, htable⟩
      · have hentry : added.table.qlist[added.index]? = some (touchQuery sub.now q) := by
          rw [htable, List.getElem?_modify_eq, hq]
          rfl
        show forwardAdded _ _ _ _ ≠ _ ↔ _
        rw [Ne, forwardAdded_eq_assertion_iff hentry]
        show q.domain ≠ none ↔ _
        constructor
        · intro hdomain q' hq' hqid'
          have hsame : q' = q := List.inj_on_of_nodup_map hnodup hq' (List.mem_of_getElem? hq)
            (hqid'.trans hqid.symm)
          rwa [hsame]
        · exact fun h ↦ h q (List.mem_of_getElem? hq) hqid
      · have hentry : added.table.qlist[added.index]? = some q := by
          rw [htable, hindex]
          exact List.getElem?_concat_length
        show forwardAdded _ _ _ _ ≠ _ ↔ _
        rw [Ne, forwardAdded_eq_assertion_iff hentry, hq, hargs]
        constructor
        · exact fun _ q' hq' hqid' ↦ absurd hqid' (by simpa [hargs] using hfree q' hq')
        · simp [newQuery]

/-- A run that leaves a reactivation dummy in the list: the send to the first server fails, and the
server is retried later. -/
def dummyRun : List Event :=
  [.request (zeroedEnv 100 40000 1 [false, true]) ⟨5, 6000⟩ (requestFor 0 7 97),
    .retry (zeroedEnv 110 40001 2 [true]) ⟨0, 1⟩]

/-- The dummy has id 0, and a request with id 9 is forwarded without a failed assertion. -/
theorem udpHandleRequest_ne_assertion_iff_other_id :
    ∃ s, Reachable (relay defaultConfig) (fun _ _ ↦ True) s ∧
      (∃ q ∈ s.queries.qlist, q.domain = none) ∧
      udpHandleRequest defaultConfig (zeroedEnv 111 40002 3 [true]) ⟨6, 6000⟩
      (requestFor 0 9 97) s ≠
        .error .assertion := by
  have hrun : (runSteps (nextState defaultConfig) twoServers dummyRun).any (fun s ↦
      (∃ q ∈ s.queries.qlist, q.domain = none) ∧
      ∀ sub ∈ requestSubmission defaultConfig (zeroedEnv 111 40002 3 [true]) ⟨6, 6000⟩
        (requestFor 0 9 97) s, ∀ q ∈ s.queries.qlist,
        q.clientQid = msgId defaultConfig.order sub.msg → q.domain ≠ none) = true := by decide
  obtain ⟨s, hreach, htest⟩ := exists_reachable_of_runSteps isStartup_twoServers hrun
  obtain ⟨hdummy, hother⟩ := of_decide_eq_true htest
  exact ⟨s, hreach, hdummy, (udpHandleRequest_ne_assertion_iff hreach _ _ _).mpr hother⟩

/-- The dummy has id 0, and so has the request of a client: the request is given the entry of the
dummy, which has no domain. -/
theorem request_hits_dummy :
    ∃ s, Reachable (relay defaultConfig) (fun _ _ ↦ True) s ∧
      udpHandleRequest defaultConfig (zeroedEnv 111 40002 3 [true]) ⟨6, 6000⟩
      (requestFor 0 0 97) s =
        .error .assertion := by
  have hrun : (runSteps (nextState defaultConfig) twoServers dummyRun).any (fun s ↦
      match udpHandleRequest defaultConfig (zeroedEnv 111 40002 3 [true]) ⟨6, 6000⟩
        (requestFor 0 0 97) s with
      | .error stop => stop = .assertion
      | .ok _ => false) = true := by decide
  obtain ⟨s, hreach, htest⟩ := exists_reachable_of_runSteps isStartup_twoServers hrun
  refine ⟨s, hreach, ?_⟩
  split at htest
  · rename_i stop hstop
    rw [hstop, of_decide_eq_true htest]
  · simp at htest

end CrossBreeder.Dnrd
