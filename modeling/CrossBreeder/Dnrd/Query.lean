import CrossBreeder.Dnrd.Servers
import CrossBreeder.Dnrd.Wire
import CrossBreeder.Foundation.ListUpdate
import CrossBreeder.Foundation.RemovalPool

/-!
# Pending queries

`query.c` and `qid.c` with the query list as a list.

`queryAdd_spec` says everything `query_add` can do: it finds the first entry with the client's query
id and rewrites the message to that entry's own id as stored, or it appends a new entry and rewrites
the message to the new id in network order, or there is no socket for a new entry.
-/

namespace CrossBreeder.Dnrd

open Foundation
open scoped List

/-! ### The pool of query ids -/

def qidPoolSize : ℤ := 65536

/-- `qid_pool` and `pool_ptr`. -/
structure QidPool where
  qidPool : ℕ → UInt16
  poolPtr : ℤ

def qidInitPool : QidPool where
  qidPool := UInt16.ofNat
  poolPtr := qidPoolSize - 1

/-- `qid_get`, with the value of `myrand`. -/
def qidGet (index : ℕ) (pool : QidPool) : UInt16 × QidPool :=
  let i := index % qidPoolSize.toNat
  (pool.qidPool i,
    { qidPool := removeAt pool.qidPool (pool.poolPtr.tmod qidPoolSize).toNat i
      poolPtr := pool.poolPtr - 1 })

def qidReturn (qid : UInt16) (pool : QidPool) : QidPool where
  qidPool := Function.update pool.qidPool ((pool.poolPtr + 1).tmod qidPoolSize).toNat qid
  poolPtr := pool.poolPtr + 1

/-! ### The query list -/

/-- An internet address and port: `sockaddr_in`. -/
structure SockAddr where
  addr : ℕ
  port : ℕ
  deriving DecidableEq, Repr

structure Datagram where
  dst : SrvId
  msg : Packet
  deriving DecidableEq, Repr

structure Socket where
  port : ℕ
  sent : List Datagram
  deriving DecidableEq, Repr

/-- `query_t`. A reactivation dummy has no domain. -/
structure Query where
  sock : Socket
  srv : SrvId
  domain : Option ℕ
  myQid : UInt16
  clientQid : UInt16
  client : SockAddr
  clientTime : ℤ
  clientCount : ℕ
  ttl : ℤ
  deriving DecidableEq, Repr

structure QueryTable where
  qlist : List Query
  upstreamSockets : ℤ
  totalQueries : ℕ
  totalTimeouts : ℕ
  pool : QidPool

/-- `query_init` and `qid_init_pool`. -/
def queryInit : QueryTable where
  qlist := []
  upstreamSockets := 0
  totalQueries := 0
  totalTimeouts := 0
  pool := qidInitPool

structure Creation where
  port : Option ℕ
  index : ℕ
  deriving DecidableEq, Repr

def msgId (order : ByteOrder) (msg : Packet) : UInt16 := order.load (msg.getD 0 0) (msg.getD 1 0)

def setMsgId (order : ByteOrder) (id : UInt16) (msg : Packet) : Packet :=
  (order.store id).1 :: (order.store id).2 :: msg.drop 2

/-- The query that `query_create` sets up and `query_add` completes, with an id from the pool. -/
def newQuery (cfg : Config) (creation : Creation) (port : ℕ) (dom : Option ℕ) (srv : SrvId)
    (clientQid : UInt16) (client : SockAddr) (now : ℕ) (pool : QidPool) : Query where
  sock := ⟨port, []⟩
  srv := srv
  domain := dom
  myQid := (qidGet creation.index pool).1
  clientQid := clientQid
  client := client
  clientTime := now
  clientCount := 1
  ttl := cfg.forwardTimeout

/-- `query_create` and `query_get_new`. The servers never hold a prepared query. -/
def queryGetNew (cfg : Config) (creation : Creation) (dom : Option ℕ) (srv : SrvId)
    (clientQid : UInt16) (client : SockAddr) (now : ℕ) (table : QueryTable) :
    Option (Query × QueryTable) :=
  if cfg.maxSockets ≤ table.upstreamSockets then none
  else match creation.port with
    | none => none
    | some port =>
      some (newQuery cfg creation port dom srv clientQid client now table.pool,
        { table with
          upstreamSockets := table.upstreamSockets + 1
          pool := (qidGet creation.index table.pool).2 })

/-- The update of an entry that `query_add` found. -/
def touchQuery (now : ℕ) (q : Query) : Query :=
  { q with clientTime := now, clientCount := q.clientCount + 1 }

/-- What `query_add` returns: the index of the entry, the rewritten message and the table. -/
structure Added where
  index : ℕ
  msg : Packet
  table : QueryTable

def queryAdd (cfg : Config) (creation : Creation) (now : ℕ) (dom : Option ℕ) (srv : SrvId)
    (client : SockAddr) (msg : Packet) (table : QueryTable) : Option Added :=
  match table.qlist.findIdx? (·.clientQid = msgId cfg.order msg) with
  | some k =>
    some
      { index := k
        msg := setMsgId cfg.order ((table.qlist.map Query.myQid).getD k 0) msg
        table := { table with qlist := table.qlist.modify k (touchQuery now) } }
  | none =>
    match queryGetNew cfg creation dom srv (msgId cfg.order msg) client now table with
    | none => none
    | some (q, table) =>
      some
        { index := table.qlist.length
          msg := setMsgId cfg.order (cfg.order.htons q.myQid) msg
          table := { table with qlist := table.qlist ++ [q] } }

/-- `query_delete_next` and `query_destroy`, for the entry with the given index. -/
def queryDeleteNext (k : ℕ) (table : QueryTable) : QueryTable :=
  match table.qlist[k]? with
  | none => table
  | some q =>
    { table with
      qlist := table.qlist.eraseIdx k
      upstreamSockets := table.upstreamSockets - 1
      totalQueries := table.totalQueries + 1
      pool := qidReturn q.myQid table.pool }

/-- The loop that `query_timeout` and `run` share: walk the list from a position, delete the entries
`due` names, and go on behind the node that follows the deleted one. -/
def sweepLoop (due : Query → Bool) : ℕ → ℕ → QueryTable → QueryTable
  | 0, _, table => table
  | fuel + 1, k, table =>
    match table.qlist[k]? with
    | none => table
    | some q =>
      if due q then
        let table := queryDeleteNext k table
        sweepLoop due fuel (if k < table.qlist.length then k + 1 else 0) table
      else sweepLoop due fuel (k + 1) table

/-- Iterations that are enough for a walk over a list of the given length. -/
def sweepFuel (length : ℕ) : ℕ := (length + 1) * (length + 1)

def timedOut (now : ℕ) (q : Query) : Bool := q.clientTime < now - q.ttl

def queryTimeout (now : ℕ) (table : QueryTable) : QueryTable :=
  let swept := sweepLoop (timedOut now) (sweepFuel table.qlist.length) 0 table
  { swept with
    totalTimeouts := table.totalTimeouts + (table.qlist.length - swept.qlist.length) }

/-! ### What the operations do -/

@[simp] theorem msgId_setMsgId (order : ByteOrder) (id : UInt16) (msg : Packet) :
    msgId order (setMsgId order id msg) = id := by
  simp [msgId, setMsgId]

@[simp] theorem drop_setMsgId (order : ByteOrder) (id : UInt16) (msg : Packet) {start : ℕ}
    (hstart : 2 ≤ start) : (setMsgId order id msg).drop start = msg.drop start := by
  obtain ⟨rest, rfl⟩ := Nat.exists_eq_add_of_le hstart
  rw [setMsgId, Nat.add_comm, List.drop_succ_cons, List.drop_succ_cons, List.drop_drop,
    Nat.add_comm]

variable {creation : Creation}

variable {table : QueryTable}

variable {client : SockAddr}

variable {dom : Option ℕ}

theorem queryAdd_spec {cfg : Config} {now : ℕ} {srv : SrvId}
    {msg : Packet} {added : Added}
    (h : queryAdd cfg creation now dom srv client msg table = some added) :
    (∃ q, table.qlist[added.index]? = some q ∧ q.clientQid = msgId cfg.order msg ∧
      added.msg = setMsgId cfg.order q.myQid msg ∧
      added.table = { table with qlist := table.qlist.modify added.index (touchQuery now) }) ∨
    ((∀ q ∈ table.qlist, q.clientQid ≠ msgId cfg.order msg) ∧
      table.upstreamSockets < cfg.maxSockets ∧ added.index = table.qlist.length ∧
      ∃ port q, creation.port = some port ∧
        q = newQuery cfg creation port dom srv (msgId cfg.order msg) client now table.pool ∧
        added.msg = setMsgId cfg.order (cfg.order.htons q.myQid) msg ∧
        added.table =
          { table with
            qlist := table.qlist ++ [q]
            upstreamSockets := table.upstreamSockets + 1
            pool := (qidGet creation.index table.pool).2 }) := by
  unfold queryAdd at h
  cases hfind : table.qlist.findIdx? (·.clientQid = msgId cfg.order msg) with
  | some k =>
    simp only [hfind] at h
    obtain rfl := Option.some.inj h
    obtain ⟨hk, hqid, -⟩ := List.findIdx?_eq_some_iff_getElem.mp hfind
    refine Or.inl ⟨table.qlist[k], List.getElem?_eq_getElem hk, by simpa using hqid, ?_, rfl⟩
    simp [hk]
  | none =>
    simp only [hfind] at h
    have hfree : ∀ q ∈ table.qlist, q.clientQid ≠ msgId cfg.order msg := by
      simpa using List.findIdx?_eq_none_iff.mp hfind
    unfold queryGetNew at h
    split_ifs at h with hsockets
    · cases hport : creation.port with
      | none => simp [hport] at h
      | some port =>
        simp only [hport] at h
        obtain rfl := Option.some.inj h
        exact Or.inr ⟨hfree, Int.not_le.mp hsockets, rfl, port, _, rfl, rfl, rfl, rfl⟩

theorem queryAdd_eq_none {cfg : Config} {now : ℕ}
    {srv : SrvId} {msg : Packet}
    (h : queryAdd cfg creation now dom srv client msg table = none) :
    ∀ q ∈ table.qlist, q.clientQid ≠ msgId cfg.order msg := by
  unfold queryAdd at h
  cases hfind : table.qlist.findIdx? (·.clientQid = msgId cfg.order msg) with
  | some k => simp [hfind] at h
  | none => simpa using List.findIdx?_eq_none_iff.mp hfind

theorem queryAdd_index_lt {cfg : Config} {now : ℕ}
    {srv : SrvId} {msg : Packet} {added : Added}
    (h : queryAdd cfg creation now dom srv client msg table = some added) :
    added.index < added.table.qlist.length := by
  rcases queryAdd_spec h with ⟨q, hq, -, -, htable⟩ | ⟨-, -, hindex, port, q, -, -, -, htable⟩
  · rw [htable, List.length_modify]
    exact (List.getElem?_eq_some_iff.mp hq).1
  · rw [htable, hindex, List.length_append]
    exact Nat.lt_succ_self _

theorem queryDeleteNext_sublist (k : ℕ) (table : QueryTable) :
    (queryDeleteNext k table).qlist <+ table.qlist := by
  unfold queryDeleteNext
  split
  · exact List.Sublist.refl _
  · exact List.eraseIdx_sublist _ _

theorem sweepLoop_sublist (due : Query → Bool) (fuel : ℕ) :
    ∀ (k : ℕ) (table : QueryTable), (sweepLoop due fuel k table).qlist <+ table.qlist := by
  induction fuel with
  | zero => exact fun _ _ ↦ List.Sublist.refl _
  | succ fuel ih =>
    intro k table
    simp only [sweepLoop]
    split
    · exact List.Sublist.refl _
    · rename_i q _
      by_cases hdue : due q = true
      · rw [if_pos hdue]
        exact (ih _ _).trans (queryDeleteNext_sublist k table)
      · rw [if_neg hdue]
        exact ih _ _

end CrossBreeder.Dnrd
