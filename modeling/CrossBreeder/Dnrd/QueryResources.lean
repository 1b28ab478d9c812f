import CrossBreeder.Dnrd.Query
import Mathlib.Data.List.Nodup

/-!
# Sockets and query ids

What the query list owns: a socket for each entry, counted by `upstream_sockets`, and an id for each
entry, taken from the pool. `TableInv` says that the counter is right and within the limit and that
the ids in the pool and the ids of the entries together are all the ids there are, each once.
-/

namespace CrossBreeder.Dnrd

open Foundation
open scoped List

def allQids : List UInt16 := (List.range 65536).map UInt16.ofNat

theorem length_allQids : allQids.length = 65536 := by
  rw [allQids, List.length_map, List.length_range]

theorem nodup_allQids : allQids.Nodup := by
  refine List.Nodup.map_on ?_ List.nodup_range
  intro left hleft right hright h
  have hnat := congrArg UInt16.toNat h
  rw [UInt16.toNat_ofNat', UInt16.toNat_ofNat'] at hnat
  have hl := List.mem_range.mp hleft
  have hr := List.mem_range.mp hright
  omega

structure PoolAccounts (pool : QidPool) (ids : List UInt16) : Prop where
  ptr : -1 ≤ pool.poolPtr
  perm : (live pool.qidPool (pool.poolPtr + 1).toNat ++ ids).Perm allQids

namespace PoolAccounts

variable {pool : QidPool} {ids : List UInt16}

theorem poolPtr_eq (h : PoolAccounts pool ids) : pool.poolPtr = 65535 - ids.length := by
  have hlength := h.perm.length_eq
  rw [List.length_append, length_live, length_allQids] at hlength
  have hptr := h.ptr
  omega

theorem nodup (h : PoolAccounts pool ids) : ids.Nodup := by
  have hall := h.perm.nodup_iff.mpr nodup_allQids
  exact (List.nodup_append.mp hall).2.1

theorem of_perm (h : PoolAccounts pool ids) {ids' : List UInt16} (hids : ids ~ ids') :
    PoolAccounts pool ids' :=
  ⟨h.ptr, (hids.symm.append_left _).trans h.perm⟩

/-- `qid_get` moves an id out of the pool.
Assumes: the random index is at most the pool pointer. -/
theorem get (h : PoolAccounts pool ids) {index : ℕ} (hindex : (index : ℤ) ≤ pool.poolPtr) :
    PoolAccounts (qidGet index pool).2 (ids ++ [(qidGet index pool).1]) := by
  have hptr := h.poolPtr_eq
  obtain ⟨last, hlast⟩ := Int.eq_ofNat_of_zero_le (show 0 ≤ pool.poolPtr by omega)
  have hslot : (pool.poolPtr.tmod qidPoolSize).toNat = last := by
    rw [hlast, qidPoolSize, Int.tmod_eq_emod_of_nonneg (by omega)]
    omega
  have hi : index % qidPoolSize.toNat = index := by
    refine Nat.mod_eq_of_lt ?_
    show index < 65536
    omega
  have hsize : (pool.poolPtr + 1).toNat = last + 1 := by omega
  have hperm := h.perm
  rw [hsize] at hperm
  refine ⟨?_, ?_⟩
  · show -1 ≤ pool.poolPtr - 1
    omega
  · show (live (removeAt pool.qidPool (pool.poolPtr.tmod qidPoolSize).toNat
      (index % qidPoolSize.toNat)) (pool.poolPtr - 1 + 1).toNat ++
      (ids ++ [pool.qidPool (index % qidPoolSize.toNat)])).Perm allQids
    have hleft : (pool.poolPtr - 1 + 1).toNat = last := by omega
    rw [hslot, hi, hleft]
    have hremoved := live_perm_removeAt pool.qidPool (show index ≤ last by omega)
    calc live (removeAt pool.qidPool last index) last ++ (ids ++ [pool.qidPool index])
        _ ~ (live (removeAt pool.qidPool last index) last ++ ids) ++ [pool.qidPool index] := by
          rw [List.append_assoc]
        _ ~ pool.qidPool index :: (live (removeAt pool.qidPool last index) last ++ ids) :=
          List.perm_append_singleton _ _
        _ ~ live pool.qidPool (last + 1) ++ ids := (hremoved.append_right ids).symm
        _ ~ allQids := hperm

theorem putBack {qid : UInt16} (h : PoolAccounts pool (qid :: ids)) :
    PoolAccounts (qidReturn qid pool) ids := by
  have hptr := h.poolPtr_eq
  have hlow := h.ptr
  rw [List.length_cons] at hptr
  obtain ⟨size, hsize⟩ := Int.eq_ofNat_of_zero_le (show 0 ≤ pool.poolPtr + 1 by omega)
  have hslot : ((pool.poolPtr + 1).tmod qidPoolSize).toNat = size := by
    rw [hsize, qidPoolSize, Int.tmod_eq_emod_of_nonneg (by omega)]
    omega
  have hperm := h.perm
  rw [hsize, Int.toNat_natCast] at hperm
  refine ⟨?_, ?_⟩
  · show -1 ≤ pool.poolPtr + 1
    omega
  · show (live (Function.update pool.qidPool ((pool.poolPtr + 1).tmod qidPoolSize).toNat qid)
      (pool.poolPtr + 1 + 1).toNat ++ ids).Perm allQids
    have hnext : (pool.poolPtr + 1 + 1).toNat = size + 1 := by omega
    rw [hslot, hnext, live_putBack, List.append_assoc, List.singleton_append]
    exact hperm

end PoolAccounts

theorem poolAccounts_init : PoolAccounts qidInitPool [] := by
  refine ⟨by decide, ?_⟩
  rw [List.append_nil]
  exact List.Perm.refl _

structure TableInv (cfg : Config) (table : QueryTable) : Prop where
  sockets : table.upstreamSockets = table.qlist.length
  bound : table.upstreamSockets ≤ max cfg.maxSockets 0
  pool : PoolAccounts table.pool (table.qlist.map Query.myQid)

theorem tableInv_init (cfg : Config) : TableInv cfg queryInit where
  sockets := rfl
  bound := Int.le_max_right _ _
  pool := poolAccounts_init

/-- `query_add` keeps the accounts.
Assumes: the random index is at most the pool pointer. -/
theorem TableInv.add {cfg : Config} {table : QueryTable} (hinv : TableInv cfg table)
    {creation : Creation} (hindex : (creation.index : ℤ) ≤ table.pool.poolPtr) {now : ℕ}
    {dom : Option ℕ} {srv : SrvId} {client : SockAddr} {msg : Packet} {added : Added}
    (h : queryAdd cfg creation now dom srv client msg table = some added) :
    TableInv cfg added.table := by
  rcases queryAdd_spec h with ⟨q, -, -, -, htable⟩ | ⟨-, hlimit, -, port, q, -, hq, -, htable⟩
  · rw [htable]
    refine ⟨?_, hinv.bound, ?_⟩
    · show table.upstreamSockets = ((table.qlist.modify added.index (touchQuery now)).length : ℤ)
      rw [List.length_modify]
      exact hinv.sockets
    · show PoolAccounts table.pool
        ((table.qlist.modify added.index (touchQuery now)).map Query.myQid)
      rw [map_modify_of_comp Query.myQid (touchQuery now) (fun _ ↦ rfl)]
      exact hinv.pool
  · rw [htable]
    have hsockets := hinv.sockets
    refine ⟨?_, ?_, ?_⟩
    · show table.upstreamSockets + 1 = ((table.qlist ++ [q]).length : ℤ)
      rw [List.length_append, List.length_singleton]
      omega
    · show table.upstreamSockets + 1 ≤ max cfg.maxSockets 0
      omega
    · show PoolAccounts _ ((table.qlist ++ [q]).map Query.myQid)
      rw [List.map_append, List.map_singleton, hq]
      exact hinv.pool.get hindex

theorem TableInv.deleteNext {cfg : Config} {table : QueryTable} (hinv : TableInv cfg table)
    (k : ℕ) : TableInv cfg (queryDeleteNext k table) := by
  unfold queryDeleteNext
  cases hq : table.qlist[k]? with
  | none => exact hinv
  | some q =>
    have hsockets := hinv.sockets
    have hbound := hinv.bound
    obtain ⟨hk, hget⟩ := List.getElem?_eq_some_iff.mp hq
    have hlength := List.length_eraseIdx_of_lt hk
    refine ⟨?_, ?_, ?_⟩
    · show table.upstreamSockets - 1 = ((table.qlist.eraseIdx k).length : ℤ)
      omega
    · show table.upstreamSockets - 1 ≤ max cfg.maxSockets 0
      omega
    · refine PoolAccounts.putBack (hinv.pool.of_perm ?_)
      have hperm := List.getElem_cons_eraseIdx_perm hk
      rw [hget] at hperm
      exact (hperm.map Query.myQid).symm

theorem TableInv.sweep {cfg : Config} (due : Query → Bool) (fuel : ℕ) :
    ∀ {k : ℕ} {table : QueryTable}, TableInv cfg table →
      TableInv cfg (sweepLoop due fuel k table) := by
  induction fuel with
  | zero => exact fun hinv ↦ hinv
  | succ fuel ih =>
    intro k table hinv
    simp only [sweepLoop]
    split
    · exact hinv
    · rename_i q _
      by_cases hdue : due q = true
      · rw [if_pos hdue]
        exact ih (hinv.deleteNext k)
      · rw [if_neg hdue]
        exact ih hinv

end CrossBreeder.Dnrd
