import CrossBreeder.Dnrd.QueryResources
import CrossBreeder.Foundation.CircularList
import CrossBreeder.Foundation.Transition
import Mathlib.Tactic.Ring

/-!
# The query list in memory

`query.c` with the pointers of the source. A query is a node at an address, the head `qlist` is at
the fixed address `qlistAddr` and carries no data, and `qlist_tail` caches the last node.

`Represents` says that memory holds a given list of queries, and each operation refines the
operation of the same name on lists: it does not fault, and it leaves memory holding the list that
the other returns (`ringAdd_refines`, `ringDeleteNext_refines`, `ringSweepLoop_refines`).
-/

namespace CrossBreeder.Dnrd

open Foundation
open scoped List

/-- The address of `qlist`. -/
def qlistAddr : ℕ := 0

/-- The nodes in memory with their successors, and the variables of `query.c` and `qid.c`. -/
structure Ring where
  next : ℕ → ℕ
  node : ℕ → Option Query
  qlistTail : ℕ
  upstreamSockets : ℤ
  totalQueries : ℕ
  totalTimeouts : ℕ
  pool : QidPool

/-- `query_init` and `qid_init_pool`. -/
def ringInit : Ring where
  next _ := qlistAddr
  node _ := none
  qlistTail := qlistAddr
  upstreamSockets := 0
  totalQueries := 0
  totalTimeouts := 0
  pool := qidInitPool

/-- The search of `query_add` from the node `p`: the node before the one with the client's id, if
there is one. -/
def findPrev (ring : Ring) (clientQid : UInt16) : ℕ → ℕ → Option (Option ℕ)
  | 0, _ => none
  | fuel + 1, p =>
    if ring.next p = qlistAddr then some none
    else match ring.node (ring.next p) with
      | none => none
      | some q =>
        if q.clientQid = clientQid then some (some p)
        else findPrev ring clientQid fuel (ring.next p)

/-- What `query_add` returns: the node before the entry, the rewritten message and memory. -/
structure RingAdded where
  prev : ℕ
  msg : Packet
  ring : Ring

/-- `query_add`, with the address that a new node is allocated at. The result is null when there is
no socket for a new entry. -/
def ringAdd (cfg : Config) (creation : Creation) (address now : ℕ) (dom : Option ℕ) (srv : SrvId)
    (client : SockAddr) (msg : Packet) (ring : Ring) : Option (Option RingAdded) :=
  match findPrev ring (msgId cfg.order msg) (ring.upstreamSockets.toNat + 1) qlistAddr with
  | none => none
  | some (some p) =>
    match ring.node (ring.next p) with
    | none => none
    | some q =>
      some (some
        { prev := p
          msg := setMsgId cfg.order q.myQid msg
          ring :=
            { ring with
              node := Function.update ring.node (ring.next p) (some (touchQuery now q)) } })
  | some none =>
    if cfg.maxSockets ≤ ring.upstreamSockets then some none
    else match creation.port with
      | none => some none
      | some port =>
        let q := newQuery cfg creation port dom srv (msgId cfg.order msg) client now ring.pool
        some (some
          { prev := ring.qlistTail
            msg := setMsgId cfg.order (cfg.order.htons q.myQid) msg
            ring :=
              { ring with
                next := Function.update
                  (Function.update ring.next address (ring.next ring.qlistTail))
                  ring.qlistTail address
                node := Function.update ring.node address (some q)
                qlistTail := address
                upstreamSockets := ring.upstreamSockets + 1
                pool := (qidGet creation.index ring.pool).2 } })

/-- `query_delete_next` and `query_destroy`. -/
def ringDeleteNext (p : ℕ) (ring : Ring) : Option Ring :=
  match ring.node (ring.next p) with
  | none => none
  | some q =>
    some
      { ring with
        next := Function.update ring.next p (ring.next (ring.next p))
        node := Function.update ring.node (ring.next p) none
        qlistTail := if ring.qlistTail = ring.next p then p else ring.qlistTail
        upstreamSockets := ring.upstreamSockets - 1
        totalQueries := ring.totalQueries + 1
        pool := qidReturn q.myQid ring.pool }

/-- The loop that `query_timeout` and `run` share, from the node `p`, with the number of entries
deleted so far. -/
def ringSweepLoop (due : Query → Bool) : ℕ → ℕ → ℕ → Ring → Option (Ring × ℕ)
  | 0, _, _, _ => none
  | fuel + 1, p, count, ring =>
    if ring.next p = qlistAddr then some (ring, count)
    else match ring.node (ring.next p) with
      | none => none
      | some q =>
        if due q then
          match ringDeleteNext p ring with
          | none => none
          | some ring => ringSweepLoop due fuel (ring.next p) (count + 1) ring
        else ringSweepLoop due fuel (ring.next p) count ring

/-- `query_timeout`. -/
def ringTimeout (now : ℕ) (ring : Ring) : Option Ring :=
  (ringSweepLoop (timedOut now) (sweepFuel ring.upstreamSockets.toNat) qlistAddr 0 ring).map
    fun result ↦ { result.1 with totalTimeouts := result.1.totalTimeouts + result.2 }

/-- The loop of `run` over the queries whose sockets are readable: `udp_handle_reply` deletes the
query whatever it receives. -/
def ringReplies (readable : Query → Bool) (ring : Ring) : Option Ring :=
  (ringSweepLoop readable (sweepFuel ring.upstreamSockets.toNat) qlistAddr 0 ring).map Prod.fst

/-! ### Memory that holds a list -/

structure Represents (ring : Ring) (nodes : List ℕ) (table : QueryTable) : Prop where
  linked : IsRing ring.next qlistAddr nodes
  node : nodes.map ring.node = table.qlist.map some
  tail : ring.qlistTail = lastNode qlistAddr nodes
  sockets : ring.upstreamSockets = table.upstreamSockets
  queries : ring.totalQueries = table.totalQueries
  timeouts : ring.totalTimeouts = table.totalTimeouts
  pool : ring.pool = table.pool

variable {k : ℕ}

namespace Represents

variable {ring : Ring} {nodes : List ℕ} {table : QueryTable}

theorem length_eq (h : Represents ring nodes table) : nodes.length = table.qlist.length := by
  have hlength := congrArg List.length h.node
  simpa using hlength

theorem node_getElem (h : Represents ring nodes table) (hk : k < nodes.length)
    (hk' : k < table.qlist.length) : ring.node nodes[k] = some table.qlist[k] := by
  have hget := congrArg (fun list ↦ list[k]?) h.node
  simpa [hk, hk'] using hget

theorem next_eq (h : Represents ring nodes table) (hk : k < nodes.length) :
    ring.next (nodeAt qlistAddr nodes k) = nodes[k] := by
  rw [h.linked.next_nodeAt (Nat.le_of_lt hk), List.getD_eq_getElem _ _ hk]

theorem next_ne (h : Represents ring nodes table) (hk : k < nodes.length) :
    nodes[k] ≠ qlistAddr := by
  rw [← h.next_eq hk]
  exact h.linked.next_nodeAt_ne_head hk

theorem next_last (h : Represents ring nodes table) :
    ring.next (nodeAt qlistAddr nodes nodes.length) = qlistAddr :=
  h.linked.next_lastNode

end Represents

theorem represents_init : Represents ringInit [] queryInit where
  linked := IsRing.empty rfl
  node := rfl
  tail := rfl
  sockets := rfl
  queries := rfl
  timeouts := rfl
  pool := rfl

/-! ### The operations refine those on lists -/

variable {nodes : List ℕ}

variable {ring : Ring}

variable {table : QueryTable}

theorem findPrev_eq
    (h : Represents ring nodes table) (clientQid : UInt16) (fuel : ℕ) :
    ∀ {k : ℕ}, k ≤ nodes.length → nodes.length < k + fuel →
      findPrev ring clientQid fuel (nodeAt qlistAddr nodes k) =
        some (((table.qlist.drop k).findIdx? (·.clientQid = clientQid)).map
          fun offset ↦ nodeAt qlistAddr nodes (k + offset)) := by
  induction fuel with
  | zero =>
    intro k hk hfuel
    omega
  | succ fuel ih =>
    intro k hk hfuel
    have hlength := h.length_eq
    simp only [findPrev]
    rcases Nat.lt_or_eq_of_le hk with hlt | rfl
    · have hlt' : k < table.qlist.length := by omega
      rw [h.next_eq hlt, if_neg (h.next_ne hlt), h.node_getElem hlt hlt',
        List.drop_eq_getElem_cons hlt', List.findIdx?_cons]
      by_cases hqid : table.qlist[k].clientQid = clientQid
      · simp [hqid]
      · rw [← nodeAt_succ hlt, ih hlt (by omega)]
        simp only [hqid, if_false, decide_false, Bool.false_eq_true, Option.map_map]
        congr 2
        funext offset
        simp only [Function.comp_apply]
        congr 1
        omega
    · rw [h.next_last, if_pos rfl, List.drop_of_length_le (by omega)]
      rfl

theorem map_node_update {node : ℕ → Option Query} {address : ℕ} {value : Option Query}
    (h : address ∉ nodes) : nodes.map (Function.update node address value) = nodes.map node := by
  refine List.map_congr_left fun other hother ↦ Function.update_of_ne ?_ _ _
  rintro rfl
  exact h hother

theorem map_node_set {node : ℕ → Option Query} {table : List Query}
    (hnodup : nodes.Nodup) (hnode : nodes.map node = table.map some) (hk : k < nodes.length)
    (hk' : k < table.length) (update : Query → Query) :
    nodes.map (Function.update node nodes[k] (some (update table[k]))) =
      (table.modify k update).map some := by
  have hlength : nodes.length = table.length := by simpa using congrArg List.length hnode
  refine List.ext_getElem (by simp [hlength]) fun position hleft hright ↦ ?_
  rw [List.length_map] at hleft
  simp only [List.getElem_map, List.getElem_modify]
  by_cases hposition : k = position
  · subst hposition
    simp
  · have hne : nodes[position] ≠ nodes[k] := fun heq ↦
      hposition ((List.Nodup.getElem_inj_iff hnodup).mp heq).symm
    have hget := congrArg (fun list ↦ list[position]?) hnode
    rw [Function.update_of_ne hne, if_neg hposition]
    simpa [hleft, show position < table.length by omega] using hget

/-- `query_add` on memory refines `query_add` on the list.
Assumes: there are as many nodes as sockets, and a new node is allocated at an unused address. -/
theorem ringAdd_refines (cfg : Config) (creation : Creation) {address : ℕ} (now : ℕ)
    (dom : Option ℕ) (srv : SrvId) (client : SockAddr) (msg : Packet)
    (h : Represents ring nodes table)
    (hsockets : table.upstreamSockets = table.qlist.length)
    (hfresh : address ∉ qlistAddr :: nodes) :
    match queryAdd cfg creation now dom srv client msg table with
    | none => ringAdd cfg creation address now dom srv client msg ring = some none
    | some added => ∃ result nodes',
        ringAdd cfg creation address now dom srv client msg ring = some (some result) ∧
        result.prev = nodeAt qlistAddr nodes added.index ∧ result.msg = added.msg ∧
        Represents result.ring nodes' added.table := by
  have hlength := h.length_eq
  have hfuel : nodes.length < 0 + (ring.upstreamSockets.toNat + 1) := by
    rw [h.sockets, hsockets, Int.toNat_natCast]
    omega
  have hfind := findPrev_eq h (msgId cfg.order msg) _ (Nat.zero_le _) hfuel
  rw [nodeAt_zero, List.drop_zero] at hfind
  unfold queryAdd ringAdd queryGetNew
  rw [hfind]
  cases hindex : table.qlist.findIdx? (·.clientQid = msgId cfg.order msg) with
  | some k =>
    obtain ⟨hk', -, -⟩ := List.findIdx?_eq_some_iff_getElem.mp hindex
    have hk : k < nodes.length := by omega
    have hnodup : nodes.Nodup := (List.nodup_cons.mp h.linked.nodup).2
    simp only [Option.map_some, Nat.zero_add, h.next_eq hk, h.node_getElem hk hk']
    refine ⟨_, nodes, rfl, rfl, ?_, ?_⟩
    · simp [hk']
    · exact ⟨h.linked, map_node_set hnodup h.node hk hk' (touchQuery now), h.tail,
        h.sockets, h.queries, h.timeouts, h.pool⟩
  | none =>
    simp only [Option.map_none, h.sockets]
    split_ifs with hlimit
    · rfl
    · cases creation.port with
      | none => rfl
      | some port =>
        refine ⟨_, nodes ++ [address], rfl, h.tail.trans ?_, ?_, ?_⟩
        · rw [hlength.symm]
          rfl
        · rw [h.pool]
        · have hnew : address ∉ nodes := fun hmem ↦ hfresh (List.mem_cons_of_mem _ hmem)
          refine ⟨?_, ?_, (lastNode_append_singleton _ _ _).symm, rfl, h.queries, h.timeouts, ?_⟩
          · have happend := h.linked.append hfresh
            rw [← h.tail] at happend
            show IsRing (Function.update (Function.update ring.next address
              (ring.next ring.qlistTail)) ring.qlistTail address) qlistAddr (nodes ++ [address])
            rw [h.tail, h.linked.next_lastNode, ← h.tail]
            exact happend
          · show (nodes ++ [address]).map (Function.update ring.node address _) = _
            rw [List.map_append, map_node_update hnew, List.map_singleton, Function.update_self,
              h.node, h.pool, List.map_append, List.map_singleton]
          · show (qidGet creation.index ring.pool).2 = (qidGet creation.index table.pool).2
            rw [h.pool]

theorem ringDeleteNext_refines
    (h : Represents ring nodes table) (hk : k < nodes.length) :
    ∃ ring', ringDeleteNext (nodeAt qlistAddr nodes k) ring = some ring' ∧
      Represents ring' (nodes.eraseIdx k) (queryDeleteNext k table) := by
  have hk' : k < table.qlist.length := by
    rw [← h.length_eq]
    exact hk
  have hnodup : nodes.Nodup := (List.nodup_cons.mp h.linked.nodup).2
  unfold ringDeleteNext queryDeleteNext
  simp only [h.next_eq hk, h.node_getElem hk hk', List.getElem?_eq_getElem hk']
  refine ⟨_, rfl, ?_, ?_, ?_, ?_, ?_, h.timeouts, ?_⟩
  · exact h.linked.unlink hk
  · have hremoved : nodes[k] ∉ nodes.eraseIdx k := by
      have hperm := List.getElem_cons_eraseIdx_perm hk
      exact (List.nodup_cons.mp (hperm.nodup_iff.mpr hnodup)).1
    show (nodes.eraseIdx k).map (Function.update ring.node nodes[k] none) = _
    rw [map_node_update hremoved, ← List.eraseIdx_map, h.node, List.eraseIdx_map]
  · have hlast : ring.qlistTail = nodes[k] ↔ k + 1 = nodes.length := by
      rw [h.tail, ← nodeAt_succ hk, lastNode]
      constructor
      · exact fun heq ↦ (nodeAt_injOn h.linked.nodup le_rfl hk heq).symm
      · intro heq
        rw [heq]
    show (if ring.qlistTail = nodes[k] then _ else ring.qlistTail) = _
    rw [lastNode_eraseIdx hk]
    by_cases heq : k + 1 = nodes.length
    · rw [if_pos (hlast.mpr heq), if_pos heq]
    · rw [if_neg (mt hlast.mp heq), if_neg heq, h.tail]
  · show ring.upstreamSockets - 1 = table.upstreamSockets - 1
    rw [h.sockets]
  · show ring.totalQueries + 1 = table.totalQueries + 1
    rw [h.queries]
  · show qidReturn _ ring.pool = qidReturn _ table.pool
    rw [h.pool]

/-- A walk on memory refines the walk on the list. The length of the list and the distance to its
end bound the iterations: a deletion makes the list shorter, and another step comes nearer to the
end. -/
theorem ringSweepLoop_refines (due : Query → Bool) (fuel : ℕ) :
    ∀ {ring : Ring} {nodes : List ℕ} {table : QueryTable}
    (k count : ℕ), Represents ring nodes table →
      k ≤ nodes.length → nodes.length - k + nodes.length * nodes.length < fuel →
      ∃ ring' nodes' count', ringSweepLoop due fuel (nodeAt qlistAddr nodes k) count ring =
          some (ring', count') ∧
        Represents ring' nodes' (sweepLoop due fuel k table) ∧
        count' + nodes'.length = count + nodes.length := by
  induction fuel with
  | zero =>
    intro ring nodes table k count h hk hfuel
    omega
  | succ fuel ih =>
    intro ring nodes table k count h hk hfuel
    have hlength := h.length_eq
    simp only [ringSweepLoop, sweepLoop]
    rcases Nat.lt_or_eq_of_le hk with hlt | rfl
    · have hlt' : k < table.qlist.length := by omega
      rw [h.next_eq hlt, if_neg (h.next_ne hlt), h.node_getElem hlt hlt',
        List.getElem?_eq_getElem hlt']
      simp only
      by_cases hdue : due table.qlist[k] = true
      · rw [if_pos hdue, if_pos hdue]
        obtain ⟨ring', hring', hrep⟩ := ringDeleteNext_refines h hlt
        have hshorter := List.length_eraseIdx_of_lt hlt
        have hlist := hrep.length_eq
        have hsquare : nodes.length * nodes.length =
            (nodes.eraseIdx k).length * (nodes.eraseIdx k).length + 2 * (nodes.eraseIdx k).length +
              1 := by
          rw [show nodes.length = (nodes.eraseIdx k).length + 1 by omega]
          ring
        have hposition : ring'.next (nodeAt qlistAddr nodes k) = nodeAt qlistAddr (nodes.eraseIdx k)
            (if k < (queryDeleteNext k table).qlist.length then k + 1 else 0) := by
          rw [← nodeAt_eraseIdx_of_le (le_refl k), hrep.linked.next_nodeAt (by omega), ← hlist]
          split_ifs with hmore
          · rw [nodeAt_succ hmore, List.getD_eq_getElem _ _ hmore]
          · rw [nodeAt_zero, List.getD_eq_default _ _ (by omega)]
        simp only [hring']
        rw [hposition]
        obtain ⟨ring'', nodes'', count'', hloop, hrep'', hcount⟩ :=
          ih (if k < (queryDeleteNext k table).qlist.length then k + 1 else 0) (count + 1) hrep
            (by split_ifs <;> omega) (by split_ifs <;> omega)
        exact ⟨ring'', nodes'', count'', hloop, hrep'', by omega⟩
      · rw [if_neg hdue, if_neg hdue, ← nodeAt_succ hlt]
        exact ih _ _ h hlt (by omega)
    · have hend : table.qlist[nodes.length]? = none := by
        rw [List.getElem?_eq_none_iff]
        omega
      rw [h.next_last, if_pos rfl, hend]
      exact ⟨ring, nodes, count, rfl, h, rfl⟩

theorem sweepLoop_totalTimeouts (due : Query → Bool) (fuel : ℕ) :
    ∀ (k : ℕ) (table : QueryTable),
      (sweepLoop due fuel k table).totalTimeouts = table.totalTimeouts := by
  induction fuel with
  | zero => exact fun _ _ ↦ rfl
  | succ fuel ih =>
    intro k table
    have hdelete : (queryDeleteNext k table).totalTimeouts = table.totalTimeouts := by
      unfold queryDeleteNext
      split <;> rfl
    simp only [sweepLoop]
    split
    · rfl
    · rename_i q _
      by_cases hdue : due q = true
      · rw [if_pos hdue, ih, hdelete]
      · rw [if_neg hdue, ih]

/-- A walk over the whole list ends, with memory holding a list whose accounts are in order. -/
theorem ringSweep_inv {cfg : Config}
    (h : Represents ring nodes table) (hinv : TableInv cfg table) (due : Query → Bool) :
    ∃ ring' nodes' count',
      ringSweepLoop due (sweepFuel ring.upstreamSockets.toNat) qlistAddr 0 ring =
        some (ring', count') ∧
      Represents ring' nodes' (sweepLoop due (sweepFuel table.qlist.length) 0 table) ∧
      count' + nodes'.length = nodes.length ∧
      TableInv cfg (sweepLoop due (sweepFuel table.qlist.length) 0 table) := by
  have hlength := h.length_eq
  have hsize : ring.upstreamSockets.toNat = table.qlist.length := by
    rw [h.sockets, hinv.sockets, Int.toNat_natCast]
  have hfuel : nodes.length - 0 + nodes.length * nodes.length < sweepFuel table.qlist.length := by
    rw [← hlength, sweepFuel, show (nodes.length + 1) * (nodes.length + 1) =
      nodes.length * nodes.length + 2 * nodes.length + 1 by ring]
    omega
  obtain ⟨ring', nodes', count', hloop, hrep, hcount⟩ :=
    ringSweepLoop_refines due _ 0 0 h (Nat.zero_le _) hfuel
  rw [hsize]
  exact ⟨ring', nodes', count', hloop, hrep, by omega, hinv.sweep due _⟩

/-! ### Runs -/

/-- The operations on the query list. -/
inductive RingOp
  | add (creation : Creation) (address now : ℕ) (dom : Option ℕ) (srv : SrvId) (client : SockAddr)
      (msg : Packet)
  | deleteNext (steps : ℕ)
  | timeout (now : ℕ)
  | replies (readable : Query → Bool)

/-- Memory after an operation, `none` if it faults. -/
def ringStep (cfg : Config) (ring : Ring) : RingOp → Option Ring
  | .add creation address now dom srv client msg =>
    (ringAdd cfg creation address now dom srv client msg ring).map fun result ↦
      match result with
      | none => ring
      | some added => added.ring
  | .deleteNext steps =>
    let p := ring.next^[steps] qlistAddr
    if ring.next p = qlistAddr then some ring else ringDeleteNext p ring
  | .timeout now => ringTimeout now ring
  | .replies readable => ringReplies readable ring

def queryRing (cfg : Config) : System Ring RingOp := System.ofStep (· = ringInit) (ringStep cfg)

/-- What the system guarantees when a query is added: the random index is at most the pool pointer,
and memory that is allocated was not in use. -/
def AllocatesFresh (ring : Ring) : RingOp → Prop
  | .add creation address _ _ _ _ _ =>
    (creation.index : ℤ) ≤ ring.pool.poolPtr ∧ address ≠ qlistAddr ∧ ring.node address = none
  | _ => True

def RingInv (cfg : Config) (ring : Ring) : Prop :=
  ∃ nodes table, Represents ring nodes table ∧ TableInv cfg table

theorem ringInv_step {cfg : Config} {op : RingOp} (hinv : RingInv cfg ring)
    (hop : AllocatesFresh ring op) :
    ∃ ring', ringStep cfg ring op = some ring' ∧ RingInv cfg ring' := by
  obtain ⟨nodes, table, h, htable⟩ := hinv
  cases op with
  | add creation address now dom srv client msg =>
    obtain ⟨hindex, hhead, hunused⟩ := hop
    have hfresh : address ∉ qlistAddr :: nodes := by
      intro hmem
      rcases List.mem_cons.mp hmem with hmem | hmem
      · exact hhead hmem
      · obtain ⟨k, hk, rfl⟩ := List.mem_iff_getElem.mp hmem
        have hk' : k < table.qlist.length := by
          rw [← h.length_eq]
          exact hk
        rw [h.node_getElem hk hk'] at hunused
        simp at hunused
    have hrefines := ringAdd_refines cfg creation now dom srv client msg h htable.sockets hfresh
    simp only [ringStep]
    cases hadded : queryAdd cfg creation now dom srv client msg table with
    | none =>
      simp only [hadded] at hrefines
      rw [hrefines]
      exact ⟨ring, rfl, nodes, table, h, htable⟩
    | some added =>
      simp only [hadded] at hrefines
      obtain ⟨result, nodes', hring, -, -, hrep⟩ := hrefines
      rw [hring]
      rw [h.pool] at hindex
      exact ⟨result.ring, rfl, nodes', added.table, hrep, htable.add hindex hadded⟩
  | deleteNext steps =>
    obtain ⟨position, hposition, hnode⟩ := h.linked.exists_iterate_eq_nodeAt steps
    simp only [ringStep, hnode]
    rcases Nat.lt_or_eq_of_le hposition with hlt | rfl
    · rw [h.next_eq hlt, if_neg (h.next_ne hlt)]
      obtain ⟨ring', hring', hrep⟩ := ringDeleteNext_refines h hlt
      exact ⟨ring', hring', _, _, hrep, htable.deleteNext position⟩
    · rw [h.next_last, if_pos rfl]
      exact ⟨ring, rfl, nodes, table, h, htable⟩
  | timeout now =>
    obtain ⟨ring', nodes', count', hloop, hrep, hcount, hswept⟩ :=
      ringSweep_inv h htable (timedOut now)
    refine ⟨{ ring' with totalTimeouts := ring'.totalTimeouts + count' },
      by rw [ringStep, ringTimeout, hloop, Option.map_some], nodes', queryTimeout now table,
      ⟨hrep.linked, hrep.node, hrep.tail, hrep.sockets, hrep.queries, ?_, hrep.pool⟩,
      hswept.sockets, hswept.bound, hswept.pool⟩
    have htimeouts := hrep.timeouts
    have hbefore := h.length_eq
    have hafter := hrep.length_eq
    rw [sweepLoop_totalTimeouts] at htimeouts
    show ring'.totalTimeouts + count' = table.totalTimeouts + (table.qlist.length -
      (sweepLoop (timedOut now) (sweepFuel table.qlist.length) 0 table).qlist.length)
    omega
  | replies readable =>
    obtain ⟨ring', nodes', count', hloop, hrep, -, hswept⟩ := ringSweep_inv h htable readable
    refine ⟨ring', by rw [ringStep, ringReplies, hloop, Option.map_some], nodes', _, hrep, hswept⟩

theorem ringInv_of_reachable {cfg : Config}
    (hreach : Reachable (queryRing cfg) AllocatesFresh ring) : RingInv cfg ring := by
  refine hreach.invariant (RingInv cfg) ?_ ?_
  · rintro ring rfl
    exact ⟨[], queryInit, represents_init, tableInv_init cfg⟩
  · intro ring op next _ hinv hop hnext
    obtain ⟨ring', hring', hinv'⟩ := ringInv_step hinv hop
    obtain rfl : ring' = next := Option.some.inj (hring'.symm.trans hnext)
    exact hinv'

/-- In every run of the operations no operation faults, and memory holds a circular list that ends
at `qlist_tail`, with as many nodes as there are sockets, no more of them than the limit allows, and
ids that together with those in the pool are all ids, each once. The pool is never empty, so that
there is always a random index to take. A limit below zero allows no sockets. -/
theorem queryRing_invariant {cfg : Config} {ring : Ring} (hmax : cfg.maxSockets ≤ 65535)
    (hreach : Reachable (queryRing cfg) AllocatesFresh ring) :
    (∃ (nodes : List ℕ) (queries : List Query), IsRing ring.next qlistAddr nodes ∧
      nodes.map ring.node = queries.map some ∧
      ring.qlistTail = lastNode qlistAddr nodes ∧ ring.upstreamSockets = nodes.length ∧
      ring.upstreamSockets ≤ max cfg.maxSockets 0 ∧ (queries.map Query.myQid).Nodup ∧
      (live ring.pool.qidPool (ring.pool.poolPtr + 1).toNat ++ queries.map Query.myQid).Perm
        allQids) ∧
    0 ≤ ring.pool.poolPtr ∧ ∀ op, AllocatesFresh ring op → (ringStep cfg ring op).isSome := by
  have hinv := ringInv_of_reachable hreach
  refine ⟨?_, ?_, ?_⟩
  · obtain ⟨nodes, table, h, htable⟩ := hinv
    refine ⟨nodes, table.qlist, h.linked, h.node, h.tail, ?_, ?_, htable.pool.nodup, ?_⟩
    · rw [h.sockets, htable.sockets, h.length_eq]
    · rw [h.sockets]
      exact htable.bound
    · rw [h.pool]
      exact htable.pool.perm
  · obtain ⟨nodes, table, h, htable⟩ := hinv
    have hptr := htable.pool.poolPtr_eq
    have hsockets := htable.sockets
    have hbound := htable.bound
    rw [List.length_map] at hptr
    rw [h.pool]
    omega
  · intro op hop
    obtain ⟨ring', hring', -⟩ := ringInv_step hinv hop
    rw [hring']
    rfl

/-- Memory after a first query was added at address 8 with the id 5. -/
theorem queryRing_invariant_single :
    ∃ ring, Reachable (queryRing defaultConfig) AllocatesFresh ring ∧ ring.upstreamSockets = 1 ∧
      0 ≤ ring.pool.poolPtr := by
  have hnext : (ringStep defaultConfig ringInit
      (.add ⟨some 40000, 5⟩ 8 100 (some 0) ⟨0, 1⟩ ⟨5, 6000⟩ [0, 7])).any
      (fun ring ↦ ring.upstreamSockets = 1) = true := by decide
  obtain ⟨ring, hring, hsockets⟩ := (Option.any_eq_true _ _).mp hnext
  have hreach : Reachable (queryRing defaultConfig) AllocatesFresh ring := by
    refine Reachable.step (Reachable.start rfl) ?_ hring
    exact ⟨by decide, by decide, rfl⟩
  exact ⟨ring, hreach, of_decide_eq_true hsockets, (queryRing_invariant (by decide) hreach).2.1⟩

/-- With the limit set to a negative number there are more sockets at startup than the limit: none.
-/
theorem negative_limit_is_exceeded :
    Reachable (queryRing { defaultConfig with maxSockets := -1 }) AllocatesFresh ringInit ∧
      ¬ ringInit.upstreamSockets ≤ ({ defaultConfig with maxSockets := -1 } : Config).maxSockets :=
  ⟨Reachable.start rfl, by decide⟩

end CrossBreeder.Dnrd
