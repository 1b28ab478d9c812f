import CrossBreeder.Dnrd.QueryRing
import CrossBreeder.Foundation.SkippingSweep
import Mathlib.Data.Fintype.EquivFin

/-!
# The timeout of queries

After a deletion `query_timeout` goes on behind the query that follows the deleted one, which is
never tested on that round; when the deleted query was the tail, the loop continues at the first
query. The walk over the list is the walk of `SkippingSweep` (`sweepLoop_swept`), so that the
expired queries all go only if there are not too many of them side by side
(`ringTimeout_exact_iff`).
-/

namespace CrossBreeder.Dnrd

open Foundation

variable {due : Query → Bool}

theorem queryDeleteNext_qlist {pre rest : List Query} {x : Query} {table : QueryTable}
    (hlist : table.qlist = pre ++ x :: rest) :
    (queryDeleteNext pre.length table).qlist = pre ++ rest := by
  have hget : table.qlist[pre.length]? = some x := by simp [hlist]
  unfold queryDeleteNext
  rw [hget]
  simp [hlist, List.eraseIdx_append_of_length_le]

/-- The walk from the position behind `pre`: it finishes its pass over the rest, and then it stops
or starts again. -/
theorem sweepLoop_pass (fuel : ℕ) :
    ∀ {pre rest : List Query} {table : QueryTable}, table.qlist = pre ++ rest →
      rest.length + table.qlist.length * table.qlist.length < fuel →
      if (sweepPass due rest).2 = true then
        Swept due (pre ++ (sweepPass due rest).1) (sweepLoop due fuel pre.length table).qlist
      else (sweepLoop due fuel pre.length table).qlist = pre ++ (sweepPass due rest).1 := by
  induction fuel with
  | zero =>
    intro pre rest table _ hfuel
    omega
  | succ fuel ih =>
    intro pre rest table hlist hfuel
    have hlength : table.qlist.length = pre.length + rest.length := by
      rw [hlist, List.length_append]
    rw [sweepLoop]
    cases rest with
    | nil => simp [hlist, sweepPass]
    | cons x rest =>
      have hget : table.qlist[pre.length]? = some x := by simp [hlist]
      simp only [hget]
      by_cases hx : due x = true
      · have hdeleted := queryDeleteNext_qlist hlist
        have hshorter : (queryDeleteNext pre.length table).qlist.length =
          pre.length + rest.length := by
          rw [hdeleted, List.length_append]
        have hsquare : table.qlist.length * table.qlist.length =
            (pre.length + rest.length) * (pre.length + rest.length) +
              2 * (pre.length + rest.length) + 1 := by
          rw [hlength, List.length_cons]
          ring
        rw [List.length_cons] at hfuel
        rw [if_pos hx, hshorter]
        cases rest with
        | nil =>
          -- the tail is deleted, and the walk starts again at the head
          have hagain := @ih [] pre (queryDeleteNext pre.length table)
            (by rw [hdeleted, List.append_nil, List.nil_append])
            (by rw [hshorter]; simp only [List.length_nil] at *; omega)
          rw [sweepPass_last hx, if_pos rfl, if_neg (by simp), List.append_nil]
          rw [List.nil_append, List.length_nil] at hagain
          split_ifs at hagain with hend
          · exact Swept.again hend hagain
          · rw [hagain]
            exact Swept.stop (by simpa using hend)
        | cons y rest =>
          -- the query behind the deleted one is passed over
          have hnext := @ih (pre ++ [y]) rest (queryDeleteNext pre.length table)
            (by rw [hdeleted, List.append_assoc, List.singleton_append])
            (by rw [hshorter]; simp only [List.length_cons] at *; omega)
          rw [List.length_append, List.length_singleton, List.append_assoc,
            List.singleton_append] at hnext
          have hmore : pre.length < pre.length + (y :: rest).length := by simp
          rw [sweepPass_skip hx, if_pos hmore]
          exact hnext
      · have hnext := @ih (pre ++ [x]) rest table
          (by rw [hlist, List.append_assoc, List.singleton_append])
          (by rw [List.length_cons] at hfuel; omega)
        rw [List.length_append, List.length_singleton, List.append_assoc,
          List.singleton_append] at hnext
        rw [if_neg hx, sweepPass_keep (by simpa using hx)]
        exact hnext

theorem sweepLoop_swept {fuel : ℕ} {table : QueryTable}
    (hfuel : table.qlist.length + table.qlist.length * table.qlist.length < fuel) :
    Swept due table.qlist (sweepLoop due fuel 0 table).qlist := by
  have hpass := @sweepLoop_pass due fuel [] table.qlist table (List.nil_append _).symm hfuel
  rw [List.nil_append, List.length_nil] at hpass
  split_ifs at hpass with hend
  · exact Swept.again hend hpass
  · rw [hpass]
    exact Swept.stop (by simpa using hend)

theorem exists_represents (table : QueryTable) : ∃ ring nodes, Represents ring nodes table := by
  obtain ⟨qlist, sockets, queries, timeouts, pool⟩ := table
  induction qlist using List.reverseRecOn with
  | nil => exact ⟨⟨fun _ ↦ qlistAddr, fun _ ↦ none, qlistAddr, sockets, queries, timeouts, pool⟩,
    [],
      IsRing.empty rfl, rfl, rfl, rfl, rfl, rfl, rfl⟩
  | append_singleton qlist q ih =>
    obtain ⟨ring, nodes, h⟩ := ih
    obtain ⟨address, haddress⟩ := Infinite.exists_notMem_finset (qlistAddr :: nodes).toFinset
    rw [List.mem_toFinset] at haddress
    have hnew : address ∉ nodes := fun hmem ↦ haddress (List.mem_cons_of_mem _ hmem)
    refine ⟨{ ring with
        next := Function.update (Function.update ring.next address qlistAddr)
          (lastNode qlistAddr nodes) address
        node := Function.update ring.node address (some q)
        qlistTail := address }, nodes ++ [address], h.linked.append haddress, ?_,
      (lastNode_append_singleton _ _ _).symm, h.sockets, h.queries, h.timeouts, h.pool⟩
    show (nodes ++ [address]).map (Function.update ring.node address (some q)) = _
    rw [List.map_append, map_node_update hnew, List.map_singleton, Function.update_self, h.node,
      List.map_append, List.map_singleton]

/-- `query_timeout` removes exactly the expired queries if and only if, for some power of two, the
run of expired queries at the end of the list has one query less than that power, and every run has
fewer than twice that power. Whatever the list is, the function returns, the other queries stay in
their order, and all that is removed is counted. Assumes: there are as many sockets as queries. -/
theorem ringTimeout_exact_iff (now : ℕ) {ring : Ring} {nodes : List ℕ} {table : QueryTable}
    (h : Represents ring nodes table) (hsockets : table.upstreamSockets = table.qlist.length) :
    ∃ ring' nodes' table', ringTimeout now ring = some ring' ∧ Represents ring' nodes' table' ∧
      (((∀ q ∈ table'.qlist, ¬ q.clientTime < now - q.ttl) ∧
        table'.qlist.filter (!timedOut now ·) = table.qlist.filter (!timedOut now ·) ∧
        ring'.totalTimeouts = ring.totalTimeouts + (table.qlist.length - table'.qlist.length)) ↔
      ∃ j, (runs (timedOut now) table.qlist).getLastD 0 + 1 = 2 ^ j ∧
        ∀ k ∈ runs (timedOut now) table.qlist, k < 2 ^ (j + 1)) := by
  have hlength := h.length_eq
  have hsize : ring.upstreamSockets.toNat = table.qlist.length := by
    rw [h.sockets, hsockets, Int.toNat_natCast]
  have hfuel : table.qlist.length + table.qlist.length * table.qlist.length <
    sweepFuel table.qlist.length := by
    rw [sweepFuel, show (table.qlist.length + 1) * (table.qlist.length + 1) =
      table.qlist.length * table.qlist.length + 2 * table.qlist.length + 1 by ring]
    omega
  obtain ⟨ring', nodes', count, hloop, hrep, hcount⟩ :=
    ringSweepLoop_refines (timedOut now) (sweepFuel table.qlist.length) 0 0 h (Nat.zero_le _)
      (by rw [hlength]; exact hfuel)
  rw [nodeAt_zero] at hloop
  have hswept := @sweepLoop_swept (timedOut now) _ _ hfuel
  have hafter := hrep.length_eq
  have htimeouts := hrep.timeouts
  have hbefore := h.timeouts
  rw [sweepLoop_totalTimeouts] at htimeouts
  generalize hresult : sweepLoop (timedOut now) (sweepFuel table.qlist.length) 0 table = result at *
  refine ⟨{ ring' with totalTimeouts := ring'.totalTimeouts + count }, nodes',
    { result with totalTimeouts := result.totalTimeouts + count }, ?_,
    ⟨hrep.linked, hrep.node, hrep.tail, hrep.sockets, hrep.queries,
      congrArg (· + count) hrep.timeouts, hrep.pool⟩, ?_⟩
  · rw [ringTimeout, hsize, hloop, Option.map_some]
  · rw [← hswept.clear_iff]
    have hall : (∀ q ∈ result.qlist, ¬ q.clientTime < now - q.ttl) ↔
      ∀ q ∈ result.qlist, timedOut now q = false := by
      simp [timedOut]
    rw [hall]
    constructor
    · exact fun hexact ↦ hexact.1
    · intro hclear
      refine ⟨hclear, hswept.filter, ?_⟩
      show ring'.totalTimeouts + count =
        ring.totalTimeouts + (table.qlist.length - result.qlist.length)
      omega

/-- The first and the last of three queries have expired, and both go. -/
theorem ringTimeout_exact_apart :
    ∃ ring nodes table ring' nodes' table', Represents ring nodes table ∧
      ringTimeout 100 ring = some ring' ∧
      Represents ring' nodes' table' ∧ table.qlist.map Query.clientTime = [10, 95, 20] ∧
      (∀ q ∈ table'.qlist, ¬ q.clientTime < 100 - q.ttl) := by
  let query (time : ℤ) : Query := ⟨⟨40000, []⟩, ⟨0, 1⟩, some 0, 1, 1, ⟨5, 6000⟩, time, 1, 12⟩
  let table : QueryTable := ⟨[query 10, query 95, query 20], 3, 0, 0, qidInitPool⟩
  have hruns : runs (timedOut 100) table.qlist = [1, 1] := by decide
  obtain ⟨ring, nodes, h⟩ := exists_represents table
  obtain ⟨ring', nodes', table', htimeout, hrep, hexact⟩ := ringTimeout_exact_iff 100 h rfl
  refine ⟨ring, nodes, table, ring', nodes', table', h, htimeout, hrep, rfl,
    (hexact.mpr ⟨1, ?_, ?_⟩).1⟩
  · rw [hruns]
    rfl
  · rw [hruns]
    decide

/-- Two queries are added, at addresses 8 and 16. Both have expired when `query_timeout` is called,
and the second one stays. -/
theorem ringTimeout_leaves_expired :
    ∃ ring ring' q, Reachable (queryRing defaultConfig) AllocatesFresh ring ∧
      ringTimeout 100 ring = some ring' ∧
      ring'.next qlistAddr = 16 ∧ ring'.node 16 = some q ∧ q.clientTime < 100 - q.ttl ∧
      ring'.totalTimeouts = 1 := by
  have hrun : ((ringStep defaultConfig ringInit
      (.add ⟨some 40000, 5⟩ 8 10 (some 0) ⟨0, 1⟩ ⟨5, 6000⟩ [0, 7])).any fun first ↦
      first.pool.poolPtr = 65534 ∧ first.node 16 = none ∧
      (ringStep defaultConfig first (.add ⟨some 40001, 6⟩ 16 10 (some 0) ⟨0, 1⟩ ⟨5, 6000⟩
        [0, 8])).any fun second ↦
        (ringTimeout 100 second).any fun ring' ↦
          ring'.next qlistAddr = 16 ∧ (ring'.node 16).any (fun q ↦ q.clientTime < 100 - q.ttl) ∧
            ring'.totalTimeouts = 1) = true := by decide +kernel
  obtain ⟨first, hfirst, hrun⟩ := (Option.any_eq_true _ _).mp hrun
  obtain ⟨hptr, hunused, hrun⟩ := of_decide_eq_true hrun
  obtain ⟨second, hsecond, hrun⟩ := (Option.any_eq_true _ _).mp hrun
  obtain ⟨ring', htimeout, hrun⟩ := (Option.any_eq_true _ _).mp hrun
  obtain ⟨hnext, hnode, hcount⟩ := of_decide_eq_true hrun
  obtain ⟨q, hq, hexpired⟩ := (Option.any_eq_true _ _).mp hnode
  refine ⟨second, ring', q, ?_, htimeout, hnext, hq, of_decide_eq_true hexpired, hcount⟩
  refine Reachable.step (Reachable.step (Reachable.start rfl) ?_ hfirst) ?_ hsecond
  · exact ⟨by decide, by decide, rfl⟩
  · exact ⟨by rw [hptr]; decide, by decide, hunused⟩

end CrossBreeder.Dnrd
