import CrossBreeder.Dnrd.PendingQueries

/-!
# What is done with a datagram on a query's socket

`IsRejected` collects the four reasons for which a datagram is not used, and
`checkReply_lt_zero_iff` says that these are all the checks there are: neither the query id nor the
question is compared. `uses_only_matching_iff` draws the consequence for what is cached and
forwarded, and `rejected_reply_deletes_query` says what a rejected datagram does: nothing to the
cache and the servers, but the query is gone.
-/

namespace CrossBreeder.Dnrd

open Foundation

/-- The datagrams that are not used: from another address than the server's, shorter than a header,
with the Z bit set or with the QR bit clear. -/
def IsRejected (doms : List DomNode) (q : Query) (source : ℕ) (datagram : Packet) : Prop :=
  source ≠ (srvAt doms q.srv).addr ∨ (datagram.take udpMaxsize).length < 12 ∨
    shortAt (datagram.take udpMaxsize) 2 &&& 0x0040 ≠ 0 ∨
    shortAt (datagram.take udpMaxsize) 2 &&& 0x8000 = 0

instance (doms : List DomNode) (q : Query) (source : ℕ) (datagram : Packet) :
    Decidable (IsRejected doms q source datagram) :=
  inferInstanceAs (Decidable (_ ∨ _))

theorem checkReply_lt_zero_iff (doms : List DomNode) (q : Query) (source : ℕ) (datagram : Packet) :
    checkReply (datagram.take udpMaxsize) (replyRecv doms q source datagram) < 0 ↔
      IsRejected doms q source datagram := by
  unfold checkReply replyRecv IsRejected
  by_cases haddr : source = (srvAt doms q.srv).addr
  · rw [if_neg (not_not_intro haddr)]
    split_ifs with hshort hz hqr
    · exact iff_of_true (by decide) (Or.inr (Or.inl hshort))
    · exact iff_of_true (by decide) (Or.inr (Or.inr (Or.inl hz)))
    · exact iff_of_true (by decide) (Or.inr (Or.inr (Or.inr hqr)))
    · refine iff_of_false (by decide) ?_
      rintro (h | h | h | h)
      exacts [h haddr, hshort h, hz h, hqr h]
  · rw [if_pos haddr]
    exact iff_of_true (by simp) (Or.inl haddr)

variable {datagram : Packet}

theorem udpHandleReply_rejected {cfg : Config} {env : Env} {k source : ℕ}
    {s : State} {q : Query} (hq : s.queries.qlist[k]? = some q)
    (hrejected : IsRejected s.doms q source datagram) :
    udpHandleReply cfg env k source datagram s =
      ⟨{ s with queries := queryDeleteNext k s.queries }, []⟩ := by
  unfold udpHandleReply
  simp only [hq]
  rw [if_pos ((checkReply_lt_zero_iff _ _ _ _).mpr hrejected)]

theorem udpHandleReply_dummy {cfg : Config} {env : Env} {k source : ℕ}
    {s : State} {q : Query} (hq : s.queries.qlist[k]? = some q)
    (haccepted : ¬ IsRejected s.doms q source datagram) (hdomain : q.domain = none) :
    udpHandleReply cfg env k source datagram s =
      ⟨{ s with queries := queryDeleteNext k s.queries, doms := markAlive q.srv s.doms }, []⟩ := by
  unfold udpHandleReply
  simp only [hq]
  rw [if_neg (mt (checkReply_lt_zero_iff _ _ _ _).mp haccepted)]
  simp only [hdomain]

theorem udpHandleReply_client {cfg : Config} {env : Env} {k source : ℕ}
    {s : State} {q : Query} (hq : s.queries.qlist[k]? = some q)
    (haccepted : ¬ IsRejected s.doms q source datagram) (hdomain : q.domain ≠ none) :
    udpHandleReply cfg env k source datagram s =
      ⟨{ s with
          queries := queryDeleteNext k s.queries
          doms := markAlive q.srv s.doms
          cache := cacheDnspacket cfg env.cacheStack (datagram.take udpMaxsize) q.srv env.now
            s.cache },
        [(q.client, setMsgId cfg.order q.clientQid (datagram.take udpMaxsize))]⟩ := by
  obtain ⟨d, hd⟩ := Option.ne_none_iff_exists'.mp hdomain
  unfold udpHandleReply
  simp only [hq]
  rw [if_neg (mt (checkReply_lt_zero_iff _ _ _ _).mp haccepted)]
  simp only [hd]

/-! ### Datagrams that are used -/

def IsUsed (s : State) (outcome : Outcome) : Prop :=
  outcome.state.cache ≠ s.cache ∨ outcome.toClients ≠ []

instance (s : State) (outcome : Outcome) : Decidable (IsUsed s outcome) :=
  inferInstanceAs (Decidable (_ ∨ _))

/-- The datagram has the query's own id, in network order, and a question that was sent for the
query. -/
def MatchesQuery (q : Query) (datagram : Packet) : Prop :=
  (datagram.take udpMaxsize).take 2 = [highByte q.myQid, lowByte q.myQid] ∧
    ∃ sent ∈ q.sock.sent, questionSection (datagram.take udpMaxsize) = questionSection sent.msg

instance (q : Query) (datagram : Packet) : Decidable (MatchesQuery q datagram) :=
  inferInstanceAs (Decidable (_ ∧ _))

/-- For a pending query and a datagram on its socket, using the datagram only if it comes from the
query's server and matches the query is what the code does exactly when the datagram is one that it
rejects, or the query is a dummy, or the datagram matches the query. -/
theorem uses_only_matching_iff {cfg : Config} {env : Env} {k source : ℕ} {datagram : Packet}
    {s : State} {q : Query} (hq : s.queries.qlist[k]? = some q) :
    (IsUsed s (udpHandleReply cfg env k source datagram s) →
      source = (srvAt s.doms q.srv).addr ∧ MatchesQuery q datagram) ↔
    IsRejected s.doms q source datagram ∨ q.domain = none ∨ MatchesQuery q datagram := by
  by_cases hrejected : IsRejected s.doms q source datagram
  · rw [udpHandleReply_rejected hq hrejected]
    simp [IsUsed, hrejected]
  · have hsource : source = (srvAt s.doms q.srv).addr := by
      by_contra hne
      exact hrejected (Or.inl hne)
    by_cases hdomain : q.domain = none
    · rw [udpHandleReply_dummy hq hrejected hdomain]
      simp [IsUsed, hdomain]
    · have hused : IsUsed s (udpHandleReply cfg env k source datagram s) := by
        rw [udpHandleReply_client hq hrejected hdomain]
        exact Or.inr (List.cons_ne_nil _ _)
      constructor
      · exact fun h ↦ Or.inr (Or.inr (h hused).2)
      · intro h _
        exact ⟨hsource, (h.resolve_left hrejected).resolve_left hdomain⟩

/-- A request of a client, forwarded to the server with address 11 under the id 1. -/
def pendingRun : List Event :=
  [.request (zeroedEnv 100 40000 1 [true]) ⟨5, 6000⟩ (requestFor 0 7 97)]

theorem exists_pending (test : State → Query → Bool)
    (hrun : ((runSteps (nextState defaultConfig) twoServers pendingRun).any fun s ↦
      s.queries.qlist[0]?.any (test s)) = true) :
    ∃ s q, Reachable (relay defaultConfig) (fun _ _ ↦ True) s ∧ s.queries.qlist[0]? = some q ∧
      test s q = true := by
  obtain ⟨s, hreach, htest⟩ := exists_reachable_of_runSteps isStartup_twoServers hrun
  obtain ⟨q, hq, htest⟩ := (Option.any_eq_true _ _).mp htest
  exact ⟨s, q, hreach, hq, htest⟩

/-- An answer with the given id bytes to the question for the address of a one-letter name. -/
def answerFor (first second letter : UInt8) : Packet :=
  [first, second, 0x81, 0x80, 0, 1, 0, 1, 0, 0, 0, 0, 1, letter, 0, 0, 1, 0, 1, 0xc0,
    12, 0, 1, 0, 1, 0, 0, 0, 60, 0, 4, 1, 2, 3, 4]

/-- The answer of the server to the message that was sent. -/
theorem uses_only_matching_iff_genuine :
    ∃ s q, Reachable (relay defaultConfig) (fun _ _ ↦ True) s ∧ s.queries.qlist[0]? = some q ∧
      (IsUsed s (udpHandleReply defaultConfig (zeroedEnv 101 0 0 []) 0 11 (answerFor 0 1 97) s) →
        11 = (srvAt s.doms q.srv).addr ∧ MatchesQuery q (answerFor 0 1 97)) := by
  obtain ⟨s, q, hreach, hq, htest⟩ := exists_pending (fun _ q ↦
    MatchesQuery q (answerFor 0 1 97)) (by decide)
  have hmatch : MatchesQuery q (answerFor 0 1 97) := of_decide_eq_true htest
  exact ⟨s, q, hreach, hq, (uses_only_matching_iff hq).mpr (Or.inr (Or.inr hmatch))⟩

/-- A datagram from the address of the server with another id and another question is forwarded. -/
theorem forged_reply_is_used :
    ∃ s q, Reachable (relay defaultConfig) (fun _ _ ↦ True) s ∧ s.queries.qlist[0]? = some q ∧
      ¬ (IsUsed s (udpHandleReply defaultConfig (zeroedEnv 101 0 0 []) 0 11 (answerFor 9 9 98) s) →
        11 = (srvAt s.doms q.srv).addr ∧ MatchesQuery q (answerFor 9 9 98)) := by
  obtain ⟨s, q, hreach, hq, htest⟩ := exists_pending (fun s q ↦
    ¬ (IsUsed s (udpHandleReply defaultConfig (zeroedEnv 101 0 0 []) 0 11 (answerFor 9 9 98) s) →
      11 = (srvAt s.doms q.srv).addr ∧ MatchesQuery q (answerFor 9 9 98))) (by decide)
  exact ⟨s, q, hreach, hq, of_decide_eq_true htest⟩

/-! ### Datagrams that are not used -/

/-- A rejected datagram leaves the cache and the servers as they were and nothing is sent to a
client, but the query list never stays as it was: the query is deleted. -/
theorem rejected_reply_deletes_query {cfg : Config} {env : Env} {k source : ℕ} {datagram : Packet}
    {s : State} {q : Query} (hq : s.queries.qlist[k]? = some q)
    (hrejected : IsRejected s.doms q source datagram) :
    ((udpHandleReply cfg env k source datagram s).state.cache = s.cache ∧
      (udpHandleReply cfg env k source datagram s).state.doms = s.doms ∧
      (udpHandleReply cfg env k source datagram s).toClients = []) ∧
    (udpHandleReply cfg env k source datagram s).state.queries.qlist =
      s.queries.qlist.eraseIdx k ∧
    (udpHandleReply cfg env k source datagram s).state.queries.qlist ≠ s.queries.qlist := by
  have hk := (List.getElem?_eq_some_iff.mp hq).1
  have herase : (queryDeleteNext k s.queries).qlist = s.queries.qlist.eraseIdx k := by
    simp only [queryDeleteNext, hq]
  rw [udpHandleReply_rejected hq hrejected]
  refine ⟨⟨rfl, rfl, rfl⟩, herase, ?_⟩
  show (queryDeleteNext k s.queries).qlist ≠ s.queries.qlist
  rw [herase]
  intro h
  have hlength := congrArg List.length h
  rw [List.length_eraseIdx_of_lt hk] at hlength
  omega

/-- A datagram from another address than the server's. -/
theorem rejected_reply_deletes_query_stranger :
    ∃ s q, Reachable (relay defaultConfig) (fun _ _ ↦ True) s ∧ s.queries.qlist[0]? = some q ∧
      (udpHandleReply defaultConfig (zeroedEnv 101 0 0 []) 0 99 (answerFor 0 1 97)
        s).state.queries.qlist ≠ s.queries.qlist := by
  obtain ⟨s, q, hreach, hq, htest⟩ := exists_pending (fun s q ↦
    IsRejected s.doms q 99 (answerFor 0 1 97)) (by decide)
  have hrejected : IsRejected s.doms q 99 (answerFor 0 1 97) := of_decide_eq_true htest
  exact ⟨s, q, hreach, hq, (rejected_reply_deletes_query hq hrejected).2.2⟩

/-- After that datagram the answer of the server is not delivered any more. -/
theorem stranger_suppresses_answer :
    ∃ s q, Reachable (relay defaultConfig) (fun _ _ ↦ True) s ∧ s.queries.qlist[0]? = some q ∧
      IsRejected s.doms q 99 (answerFor 0 1 97) ∧
      (udpHandleReply defaultConfig (zeroedEnv 101 0 0 []) 0 11 (answerFor 0 1 97) s).toClients ≠
      [] ∧ (udpHandleReply defaultConfig (zeroedEnv 101 0 0 []) 0 99 (answerFor 0 1 97)
        s).state.queries.qlist ≠ s.queries.qlist ∧
      (udpHandleReply defaultConfig (zeroedEnv 102 0 0 []) 0 11 (answerFor 0 1 97)
        (udpHandleReply defaultConfig (zeroedEnv 101 0 0 []) 0 99 (answerFor 0 1 97)
          s).state).toClients = [] := by
  obtain ⟨s, q, hreach, hq, htest⟩ := exists_pending (fun s q ↦
    IsRejected s.doms q 99 (answerFor 0 1 97) ∧
    (udpHandleReply defaultConfig (zeroedEnv 101 0 0 []) 0 11 (answerFor 0 1 97) s).toClients ≠ [] ∧
    (udpHandleReply defaultConfig (zeroedEnv 101 0 0 []) 0 99 (answerFor 0 1 97)
      s).state.queries.qlist ≠ s.queries.qlist ∧
    (udpHandleReply defaultConfig (zeroedEnv 102 0 0 []) 0 11 (answerFor 0 1 97)
      (udpHandleReply defaultConfig (zeroedEnv 101 0 0 []) 0 99 (answerFor 0 1 97)
        s).state).toClients = []) (by decide)
  exact ⟨s, q, hreach, hq, of_decide_eq_true htest⟩

end CrossBreeder.Dnrd
