import CrossBreeder.Dnsmasq.LocalRecords
import Mathlib.Data.List.Range

/-!
# The lists of the cache

`Ghost` has the lists that the links of the cache stand for: the LRU list, the new chain, the spare
records and the chains of the hash table, and the records that a function holds in its hands: those
of the pool that are on neither list, those taken out of their chain, and the records outside the
pool that are not hashed yet. `Shape` says that the links are those of the lists, and what the lists
have to do with each other and with the contents of the records.
-/

namespace CrossBreeder.Dnsmasq

open Foundation

/-! ### The shape -/

structure Ghost where
  lru : List Addr
  fresh : List Addr
  spare : List Addr
  chain : ℕ → List Addr
  loose : List Addr
  unhashed : List Addr
  held : List Addr

def Ghost.Out (g : Ghost) (crecp : Addr) : Prop := ∀ i, crecp ∉ g.chain i

/-- The order of a chain: reverse entries, other entries, immortal entries that are not reverse. -/
def orderClass (flags : Flags) : ℕ :=
  if .reverse ∈ flags then 0 else if .immortal ∈ flags then 2 else 1

def outsideFlags : Flags := {.hosts, .dhcp, .immortal, .namep}

structure Hashed (env : Env) (s : Cache) (g : Ghost) (i : ℕ) (crecp : Addr) : Prop where
  bucket : hashBucket env s.hashSize (s.name crecp) = i
  used : InUse (s.flags crecp)
  live : crecp ∈ s.live
  isLocal : env.cachesize ≤ crecp → Meets (s.flags crecp) localFlags
  apart : crecp ∉ g.fresh ∧ crecp ∉ g.spare ∧ crecp ∉ g.held

structure Shape (env : Env) (s : Cache) (g : Ghost) : Prop where
  table : 0 < s.hashSize
  lru : DoublyLinked s.next s.prev s.cacheHead s.cacheTail g.lru
  fresh : s.newChain = g.fresh.head? ∧ Linked s.next g.fresh none
  spare : s.dhcpSpare = g.spare.head? ∧ Linked s.next g.spare none
  pool : (g.lru ++ (g.fresh ++ g.loose)).Perm (List.range env.cachesize)
  poolLive : ∀ crecp < env.cachesize, crecp ∈ s.live
  poolFlags : ∀ crecp < env.cachesize, ¬ Meets (s.flags crecp) outsideFlags
  outside : ∀ crecp ∈ g.spare ++ g.held, env.cachesize ≤ crecp ∧ crecp ∈ s.live
  outsideNodup : (g.spare ++ g.held).Nodup
  chained : ∀ i < s.hashSize, Chain s.hash Slot.record (.bucket i) (g.chain i) none
  nodup : ∀ i, (g.chain i).Nodup
  member : ∀ i, ∀ crecp ∈ g.chain i, Hashed env s g i crecp
  order : ∀ i, (g.chain i).Pairwise fun left right ↦
    orderClass (s.flags left) ≤ orderClass (s.flags right)
  complete : ∀ crecp ∈ g.lru ++ g.loose, InUse (s.flags crecp) →
    crecp ∈ g.chain (hashBucket env s.hashSize (s.name crecp)) ∨ crecp ∈ g.unhashed
  freshUse : ∀ crecp ∈ g.fresh, InUse (s.flags crecp)

structure Settled (env : Env) (g : Ghost) : Prop where
  loose : g.loose = []
  unhashed : ∀ crecp ∈ g.unhashed, env.cachesize ≤ crecp
  held : g.held = []

/-! ### Flags -/

theorem meets_iff {left right : Flags} : Meets left right ↔ ∃ flag ∈ right, flag ∈ left := by
  constructor
  · rintro ⟨flag, hflag⟩
    exact ⟨flag, (Finset.mem_inter.mp hflag).2, (Finset.mem_inter.mp hflag).1⟩
  · rintro ⟨flag, hright, hleft⟩
    exact ⟨flag, Finset.mem_inter.mpr ⟨hleft, hright⟩⟩

theorem inUse_iff {flags : Flags} : InUse flags ↔ .forward ∈ flags ∨ .reverse ∈ flags := by
  unfold InUse
  simp [meets_iff]

theorem meets_localFlags {flags : Flags} :
    Meets flags localFlags ↔ .hosts ∈ flags ∨ .dhcp ∈ flags := by
  simp [meets_iff, localFlags]

theorem hashBucket_lt (env : Env) {hashSize : ℕ} (h : 0 < hashSize) (name : List UInt8) :
    hashBucket env hashSize name < hashSize := by
  have hle := Nat.and_le_right (n := (hashValue env name ^^^ (hashValue env name >>> 16)).toNat)
    (m := hashSize - 1)
  unfold hashBucket
  omega

theorem hashBucket_congr (env : Env) (hashSize : ℕ) {left right : List UInt8}
    (h : hostnameIsequal left right = true) :
    hashBucket env hashSize left = hashBucket env hashSize right := by
  unfold hashBucket hashValue
  rw [of_decide_eq_true h]

/-! ### Consequences of the shape -/

namespace Shape

variable {env : Env} {s : Cache} {g : Ghost} {crecp : Addr}

theorem poolNodup (h : Shape env s g) : (g.lru ++ (g.fresh ++ g.loose)).Nodup :=
  h.pool.nodup_iff.mpr List.nodup_range

theorem mem_pool_iff (h : Shape env s g) :
    crecp ∈ g.lru ∨ crecp ∈ g.fresh ∨ crecp ∈ g.loose ↔ crecp < env.cachesize := by
  rw [← List.mem_range, ← h.pool.mem_iff]
  simp

theorem lt_of_mem_lru (h : Shape env s g) (hmem : crecp ∈ g.lru) : crecp < env.cachesize :=
  h.mem_pool_iff.mp (.inl hmem)

theorem lt_of_mem_fresh (h : Shape env s g) (hmem : crecp ∈ g.fresh) : crecp < env.cachesize :=
  h.mem_pool_iff.mp (.inr (.inl hmem))

theorem lt_of_mem_loose (h : Shape env s g) (hmem : crecp ∈ g.loose) : crecp < env.cachesize :=
  h.mem_pool_iff.mp (.inr (.inr hmem))

theorem notMem_fresh_of_lru (h : Shape env s g) (hmem : crecp ∈ g.lru) : crecp ∉ g.fresh :=
  fun hfresh ↦ (List.nodup_append.mp h.poolNodup).2.2 _ hmem _ (List.mem_append_left _ hfresh) rfl

theorem notMem_loose_of_lru (h : Shape env s g) (hmem : crecp ∈ g.lru) : crecp ∉ g.loose :=
  fun hloose ↦ (List.nodup_append.mp h.poolNodup).2.2 _ hmem _ (List.mem_append_right _ hloose) rfl

theorem notMem_loose_of_fresh (h : Shape env s g) (hmem : crecp ∈ g.fresh) : crecp ∉ g.loose :=
  fun hloose ↦ (List.nodup_append.mp (List.nodup_append.mp h.poolNodup).2.1).2.2 _ hmem _ hloose rfl

theorem le_of_mem_spare (h : Shape env s g) (hmem : crecp ∈ g.spare) : env.cachesize ≤ crecp :=
  (h.outside crecp (List.mem_append_left _ hmem)).1

theorem le_of_mem_held (h : Shape env s g) (hmem : crecp ∈ g.held) : env.cachesize ≤ crecp :=
  (h.outside crecp (List.mem_append_right _ hmem)).1

theorem chain_unique (h : Shape env s g) {i j : ℕ} (hi : crecp ∈ g.chain i)
    (hj : crecp ∈ g.chain j) : i = j :=
  (h.member i crecp hi).bucket.symm.trans (h.member j crecp hj).bucket

theorem lt_hashSize (h : Shape env s g) {i : ℕ} (hmem : crecp ∈ g.chain i) : i < s.hashSize := by
  rw [← (h.member i crecp hmem).bucket]
  exact hashBucket_lt env h.table _

theorem lt_iff_of_hashed (h : Shape env s g) {i : ℕ} (hmem : crecp ∈ g.chain i) :
    crecp < env.cachesize ↔ ¬ Meets (s.flags crecp) localFlags := by
  constructor
  · intro hlt hlocal
    refine h.poolFlags crecp hlt (meets_iff.mpr ?_)
    obtain ⟨flag, hflag, hin⟩ := meets_iff.mp hlocal
    refine ⟨flag, ?_, hin⟩
    revert hflag
    cases flag <;> simp [localFlags, outsideFlags]
  · intro hlocal
    by_contra hle
    exact hlocal ((h.member i crecp hmem).isLocal (Nat.le_of_not_lt hle))

theorem slotsNodup (h : Shape env s g) (i : ℕ) :
    (Slot.bucket i :: (g.chain i).map Slot.record).Nodup := by
  refine List.nodup_cons.mpr ⟨by simp, (h.nodup i).map ?_⟩
  intro left right heq
  exact Slot.record.inj heq

theorem slot_notMem_of_ne (h : Shape env s g) {i j : ℕ} (hne : j ≠ i) {up : Slot}
    (hup : up ∈ Slot.bucket i :: (g.chain i).map Slot.record) :
    up ∉ Slot.bucket j :: (g.chain j).map Slot.record := by
  intro hmem
  rcases List.mem_cons.mp hup with rfl | hup
  · have hsame : i = j := by simpa using hmem
    exact hne hsame.symm
  · obtain ⟨owner, howner, rfl⟩ := List.mem_map.mp hup
    have hother : owner ∈ g.chain j := by simpa using hmem
    exact hne (h.chain_unique hother howner)

/-! ### The LRU list -/

section Lru

variable {front back rest : List Addr}

theorem unlink (h : Shape env s g) (hlru : g.lru = front ++ crecp :: back) :
    Shape env (cacheUnlink s crecp)
      { g with lru := front ++ back, loose := crecp :: g.loose } := by
  have hlist := h.lru
  rw [hlru] at hlist
  have hbefore : ∀ last, s.prev crecp = some last → last ∈ g.lru := by
    intro last hlast
    rw [hlist.prev_eq] at hlast
    rw [hlru]
    exact List.mem_append_left _ (List.mem_of_getLast? hlast)
  refine { h with
    lru := hlist.unlink
    fresh := ⟨h.fresh.1, h.fresh.2.bypass_of_notMem fun last hlast ↦
      h.notMem_fresh_of_lru (hbefore last hlast)⟩
    spare := ⟨h.spare.1, h.spare.2.bypass_of_notMem fun last hlast hspare ↦
      absurd (h.lt_of_mem_lru (hbefore last hlast)) (Nat.not_lt.mpr (h.le_of_mem_spare hspare))⟩
    pool := ?_
    member := fun i record hrecord ↦ { h.member i record hrecord with }
    complete := ?_ }
  · refine List.Perm.trans ?_ h.pool
    rw [hlru, List.perm_iff_count]
    intro record
    simp only [List.count_append, List.count_cons]
    omega
  · intro record hrecord hused
    refine h.complete record ?_ hused
    rw [hlru]
    simp only [List.mem_append, List.mem_cons] at hrecord ⊢
    grind

theorem link (h : Shape env s g) (hloose : g.loose = crecp :: rest) :
    Shape env (cacheLink s crecp) { g with lru := crecp :: g.lru, loose := rest } := by
  have hmem : crecp ∈ g.loose := by simp [hloose]
  have hlru : crecp ∉ g.lru := fun hlru ↦ h.notMem_loose_of_lru hlru hmem
  refine { h with
    lru := h.lru.push hlru
    fresh :=
      ⟨h.fresh.1, h.fresh.2.update_of_notMem fun hfresh ↦ h.notMem_loose_of_fresh hfresh hmem⟩
    spare := ⟨h.spare.1, h.spare.2.update_of_notMem fun hspare ↦
      absurd (h.lt_of_mem_loose hmem) (Nat.not_lt.mpr (h.le_of_mem_spare hspare))⟩
    pool := ?_
    member := fun i record hrecord ↦ { h.member i record hrecord with }
    complete := ?_ }
  · refine List.Perm.trans ?_ h.pool
    rw [hloose, List.perm_iff_count]
    intro record
    simp only [List.count_append, List.count_cons]
    omega
  · intro record hrecord hused
    refine h.complete record ?_ hused
    rw [hloose]
    simp only [List.mem_append, List.mem_cons] at hrecord ⊢
    grind

theorem append (h : Shape env s g) (hloose : g.loose = crecp :: rest) :
    Shape env (linkTail s crecp) { g with lru := g.lru ++ [crecp], loose := rest } := by
  have hmem : crecp ∈ g.loose := by simp [hloose]
  have hlru : crecp ∉ g.lru := fun hlru ↦ h.notMem_loose_of_lru hlru hmem
  have htail : ∀ {nodes : List Addr}, (∀ last ∈ g.lru, last ∉ nodes) → crecp ∉ nodes →
      Linked s.next nodes none → Linked (linkTail s crecp).next nodes none := by
    intro nodes hapart hnode hlinked
    refine Linked.update_of_notMem hnode ?_
    rw [h.lru.tail_eq]
    cases hlast : g.lru.getLast? with
    | none => exact hlinked
    | some last => exact hlinked.update_of_notMem (hapart last (List.mem_of_getLast? hlast))
  refine { h with
    lru := h.lru.append hlru
    fresh := ⟨h.fresh.1, htail (fun last hlast ↦ h.notMem_fresh_of_lru hlast)
      (fun hfresh ↦ h.notMem_loose_of_fresh hfresh hmem) h.fresh.2⟩
    spare := ⟨h.spare.1, htail
      (fun last hlast hspare ↦
        absurd (h.lt_of_mem_lru hlast) (Nat.not_lt.mpr (h.le_of_mem_spare hspare)))
      (fun hspare ↦ absurd (h.lt_of_mem_loose hmem) (Nat.not_lt.mpr (h.le_of_mem_spare hspare)))
      h.spare.2⟩
    pool := ?_
    member := fun i record hrecord ↦ { h.member i record hrecord with }
    complete := ?_ }
  · refine List.Perm.trans ?_ h.pool
    rw [hloose, List.perm_iff_count]
    intro record
    simp only [List.count_append, List.count_cons, List.count_nil]
    omega
  · intro record hrecord hused
    refine h.complete record ?_ hused
    rw [hloose]
    simp only [List.mem_append, List.mem_cons, List.not_mem_nil, or_false] at hrecord ⊢
    grind

end Lru

/-! ### Contents -/

structure SameLinks (s s' : Cache) : Prop where
  next : s'.next = s.next
  prev : s'.prev = s.prev
  hash : s'.hash = s.hash
  hashSize : s'.hashSize = s.hashSize
  cacheHead : s'.cacheHead = s.cacheHead
  cacheTail : s'.cacheTail = s.cacheTail
  newChain : s'.newChain = s.newChain
  dhcpSpare : s'.dhcpSpare = s.dhcpSpare
  live : s'.live = s.live

/-- The contents of a record that is not hashed can change. -/
theorem rewrite {s' : Cache} {unhashed : List Addr} (h : Shape env s g) (hlinks : SameLinks s s')
    (hout : g.Out crecp) (hother : ∀ record, record ≠ crecp → s'.crec record = s.crec record)
    (hpool : crecp < env.cachesize → ¬ Meets (s'.flags crecp) outsideFlags)
    (hcomplete : crecp ∈ g.lru ++ g.loose → InUse (s'.flags crecp) → crecp ∈ unhashed)
    (hunhashed : ∀ record ∈ g.unhashed, record ≠ crecp → record ∈ unhashed)
    (hfresh : crecp ∈ g.fresh → InUse (s'.flags crecp)) :
    Shape env s' { g with unhashed := unhashed } := by
  have hne : ∀ {i record}, record ∈ g.chain i → record ≠ crecp :=
    fun {i} _ hrecord ↦ ne_of_mem_of_not_mem hrecord (hout i)
  have hflags : ∀ record, record ≠ crecp → s'.flags record = s.flags record := by
    intro record hrecord
    unfold Cache.flags
    rw [hother record hrecord]
  have hname : ∀ record, record ≠ crecp → s'.name record = s.name record := by
    intro record hrecord
    unfold Cache.name
    rw [hother record hrecord]
  refine ⟨?_, ?_, ?_, ?_, h.pool, ?_, ?_, ?_, h.outsideNodup, ?_, h.nodup, ?_, ?_, ?_, ?_⟩
  · rw [hlinks.hashSize]
    exact h.table
  · rw [hlinks.next, hlinks.prev, hlinks.cacheHead, hlinks.cacheTail]
    exact h.lru
  · rw [hlinks.next, hlinks.newChain]
    exact h.fresh
  · rw [hlinks.next, hlinks.dhcpSpare]
    exact h.spare
  · rw [hlinks.live]
    exact h.poolLive
  · intro record hlt
    by_cases hrecord : record = crecp
    · rw [hrecord] at hlt ⊢
      exact hpool hlt
    · rw [hflags record hrecord]
      exact h.poolFlags record hlt
  · rw [hlinks.live]
    exact h.outside
  · rw [hlinks.hash, hlinks.hashSize]
    exact h.chained
  · intro i record hrecord
    obtain ⟨hbucket, hused, hlive, hlocal, hapart⟩ := h.member i record hrecord
    refine ⟨?_, ?_, ?_, ?_, hapart⟩
    · rw [hname record (hne hrecord), hlinks.hashSize]
      exact hbucket
    · rw [hflags record (hne hrecord)]
      exact hused
    · rw [hlinks.live]
      exact hlive
    · rw [hflags record (hne hrecord)]
      exact hlocal
  · intro i
    refine (h.order i).imp_of_mem fun hleft hright hle ↦ ?_
    rw [hflags _ (hne hleft), hflags _ (hne hright)]
    exact hle
  · intro record hrecord hused
    by_cases heq : record = crecp
    · rw [heq] at hrecord hused ⊢
      exact .inr (hcomplete hrecord hused)
    · rw [hflags record heq] at hused
      rw [hname record heq, hlinks.hashSize]
      exact (h.complete record hrecord hused).imp_right fun hmem ↦ hunhashed record hmem heq
  · intro record hrecord
    by_cases heq : record = crecp
    · rw [heq] at hrecord ⊢
      exact hfresh hrecord
    · rw [hflags record heq]
      exact h.freshUse record hrecord

/-! ### Chains -/

section Chains

variable {i : ℕ} {front back : List Addr}

theorem chained_setLink (h : Shape env s g) {up : Slot} {target : Option Addr} {nodes : List Addr}
    (hup : up ∈ Slot.bucket i :: (g.chain i).map Slot.record)
    (hnodes : Chain (Function.update s.hash up target) Slot.record (.bucket i) nodes none) :
    ∀ j < s.hashSize, Chain (s.setLink up target).hash Slot.record (.bucket j)
      (Function.update g.chain i nodes j) none := by
  intro j hj
  by_cases hji : j = i
  · subst hji
    rw [Function.update_self]
    exact hnodes
  · rw [Function.update_of_ne hji]
    exact (h.chained j hj).update_of_notMem (h.slot_notMem_of_ne hji hup)

theorem lastSlot_mem_chain (hchain : g.chain i = front ++ back) :
    lastSlot Slot.record (.bucket i) front ∈ Slot.bucket i :: (g.chain i).map Slot.record := by
  have hmem : lastSlot Slot.record (.bucket i) front ∈ Slot.bucket i :: front.map Slot.record :=
    lastSlot_mem
  rw [hchain]
  simp only [List.mem_cons, List.map_append, List.mem_append] at hmem ⊢
  grind

theorem drop (h : Shape env s g) (hchain : g.chain i = front ++ crecp :: back) :
    Shape env (s.setLink (lastSlot Slot.record (.bucket i) front) (s.hash (.record crecp)))
      { g with
        chain := Function.update g.chain i (front ++ back)
        unhashed := crecp :: g.unhashed } := by
  have hi : i < s.hashSize := h.lt_hashSize (show crecp ∈ g.chain i by simp [hchain])
  have hsub : (front ++ back).Sublist (g.chain i) := by
    rw [hchain]
    exact List.Sublist.append_left (List.sublist_cons_self _ _) _
  have hmem : ∀ {j record}, record ∈ Function.update g.chain i (front ++ back) j →
    record ∈ g.chain j := by
    intro j record hrecord
    by_cases hji : j = i
    · subst hji
      rw [Function.update_self] at hrecord
      exact hsub.subset hrecord
    · rwa [Function.update_of_ne hji] at hrecord
  refine { h with
    chained := ?_
    nodup := ?_
    member := fun j record hrecord ↦ { h.member j record (hmem hrecord) with }
    order := ?_
    complete := ?_ }
  · refine h.chained_setLink (lastSlot_mem_chain hchain) ?_
    have hnodup := h.slotsNodup i
    have hlinked := h.chained i hi
    rw [hchain] at hnodup hlinked
    exact hlinked.remove hnodup
  · exact (Function.forall_update_iff g.chain fun _ nodes ↦ nodes.Nodup).mpr
      ⟨(h.nodup i).sublist hsub, fun j _ ↦ h.nodup j⟩
  · exact (Function.forall_update_iff g.chain fun _ nodes ↦ nodes.Pairwise _).mpr
      ⟨(h.order i).sublist hsub, fun j _ ↦ h.order j⟩
  · intro record hrecord hused
    rcases h.complete record hrecord hused with hhashed | hhand
    · by_cases heq : record = crecp
      · exact .inr (by simp [heq])
      · refine .inl ?_
        show record ∈ Function.update g.chain i (front ++ back)
          (hashBucket env s.hashSize (s.name record))
        by_cases hji : hashBucket env s.hashSize (s.name record) = i
        · rw [hji] at hhashed ⊢
          rw [hchain] at hhashed
          rw [Function.update_self]
          simp only [List.mem_append, List.mem_cons] at hhashed ⊢
          grind
        · rw [Function.update_of_ne hji]
          exact hhashed
    · exact .inr (List.mem_cons_of_mem _ hhand)

theorem out_of_drop (h : Shape env s g) (hchain : g.chain i = front ++ crecp :: back) (j : ℕ) :
    crecp ∉ Function.update g.chain i (front ++ back) j := by
  by_cases hji : j = i
  · subst hji
    rw [Function.update_self]
    have hnodup := h.nodup j
    rw [hchain] at hnodup
    exact (List.nodup_middle.mp hnodup).notMem
  · rw [Function.update_of_ne hji]
    intro hmem
    exact hji (h.chain_unique hmem (by simp [hchain]))

theorem length_chain_lt (h : Shape env s g) (i : ℕ) : (g.chain i).length < s.walkFuel := by
  have hcard : (g.chain i).toFinset.card = (g.chain i).length :=
    List.toFinset_card_of_nodup (h.nodup i)
  have hle : (g.chain i).toFinset.card ≤ s.live.card := by
    refine Finset.card_le_card fun record hrecord ↦ ?_
    exact (h.member i record (List.mem_toFinset.mp hrecord)).live
  unfold Cache.walkFuel
  omega

theorem skipWhile_spec {s : Cache} (skip : Flags → Bool) {nodes : List Addr} :
    ∀ {start : Slot} {fuel : ℕ}, Chain s.hash Slot.record start nodes none → nodes.length ≤ fuel →
      ∃ front back, nodes = front ++ back ∧
        skipWhile s skip fuel start = lastSlot Slot.record start front ∧
        (∀ record ∈ front, skip (s.flags record) = true) ∧
        ∀ record ∈ back.head?, skip (s.flags record) = false := by
  induction nodes with
  | nil =>
    intro start fuel hchain _
    refine ⟨[], [], rfl, ?_, by simp, by simp⟩
    have hstart : s.hash start = none := hchain
    cases fuel with
    | zero => rfl
    | succ fuel => simp [skipWhile, hstart]
  | cons record nodes ih =>
    intro start fuel hchain hfuel
    obtain ⟨fuel, rfl⟩ : ∃ k, fuel = k + 1 := ⟨fuel - 1, by simp at hfuel; omega⟩
    have hstart : s.hash start = some record := hchain.1
    simp only [skipWhile, hstart]
    by_cases hskip : skip (s.flags record) = true
    · obtain ⟨front, back, rfl, hplace, hfront, hback⟩ := ih hchain.2 (by simpa using hfuel)
      refine ⟨record :: front, back, rfl, ?_, ?_, hback⟩
      · rw [if_pos hskip, hplace, lastSlot_cons]
      · intro other hother
        rcases List.mem_cons.mp hother with rfl | hother
        · exact hskip
        · exact hfront other hother
    · refine ⟨[], record :: nodes, rfl, ?_, by simp, ?_⟩
      · rw [if_neg hskip]
        rfl
      · intro other hother
        obtain rfl : record = other := by simpa using hother
        simpa using hskip

theorem orderClass_le_of_head {s : Cache} {back : List Addr} {bound : ℕ}
    (horder : back.Pairwise fun left right ↦ orderClass (s.flags left) ≤ orderClass (s.flags right))
    (hhead : ∀ record ∈ back.head?, bound ≤ orderClass (s.flags record)) :
    ∀ record ∈ back, bound ≤ orderClass (s.flags record) := by
  cases back with
  | nil => simp
  | cons first rest =>
    have hfirst := hhead first rfl
    intro record hrecord
    rcases List.mem_cons.mp hrecord with rfl | hrecord
    · exact hfirst
    · exact hfirst.trans ((List.pairwise_cons.mp horder).1 record hrecord)

/-- Where `cache_hash` puts a record: between the records of its class or a lower one and those of
its class or a higher one. -/
theorem hashPlace_spec (h : Shape env s g) (crecp : Addr) :
    ∃ front back, g.chain (hashBucket env s.hashSize (s.name crecp)) = front ++ back ∧
      hashPlace env s crecp =
        lastSlot Slot.record (.bucket (hashBucket env s.hashSize (s.name crecp))) front ∧
      (∀ record ∈ front, orderClass (s.flags record) ≤ orderClass (s.flags crecp)) ∧
      ∀ record ∈ back, orderClass (s.flags crecp) ≤ orderClass (s.flags record) := by
  set i := hashBucket env s.hashSize (s.name crecp) with hi
  have hlt : i < s.hashSize := hashBucket_lt env h.table _
  have hfuel : (g.chain i).length ≤ s.walkFuel := (h.length_chain_lt i).le
  by_cases hreverse : Flag.reverse ∈ s.flags crecp
  · refine ⟨[], g.chain i, rfl, ?_, by simp, ?_⟩
    · simp [hashPlace, hreverse, ← hi]
    · simp [orderClass, hreverse]
  -- behind the reverse entries
  obtain ⟨front, back, hchain, hplace, hfront, hback⟩ :=
    skipWhile_spec (fun flags ↦ .reverse ∈ flags) (h.chained i hlt) hfuel
  have horder := h.order i
  rw [hchain] at horder
  have hbackOrder := (List.pairwise_append.mp horder).2.1
  have hfrontClass : ∀ record ∈ front, orderClass (s.flags record) = 0 := by
    intro record hrecord
    have hrev : Flag.reverse ∈ s.flags record := by simpa using hfront record hrecord
    simp [orderClass, hrev]
  have hbackClass : ∀ record ∈ back, 1 ≤ orderClass (s.flags record) := by
    refine orderClass_le_of_head hbackOrder fun record hrecord ↦ ?_
    have hrev : Flag.reverse ∉ s.flags record := by simpa using hback record hrecord
    unfold orderClass
    rw [if_neg hrev]
    split_ifs <;> omega
  by_cases himmortal : Flag.immortal ∈ s.flags crecp
  · -- and behind those that are not immortal
    have hclass : orderClass (s.flags crecp) = 2 := by simp [orderClass, hreverse, himmortal]
    have hlinked := h.chained i hlt
    rw [hchain] at hlinked
    obtain ⟨middle, last, rfl, hplace', hmiddle, hlast⟩ :=
      skipWhile_spec (fun flags ↦ .immortal ∉ flags) (chain_append.mp hlinked).2
        (show back.length ≤ s.walkFuel by
          rw [hchain, List.length_append] at hfuel
          omega)
    refine ⟨front ++ middle, last, by rw [hchain, List.append_assoc], ?_, ?_, ?_⟩
    · rw [lastSlot_append, ← hplace', ← hplace]
      simp [hashPlace, hreverse, himmortal, ← hi]
    · rw [hclass]
      intro record _
      unfold orderClass
      split_ifs <;> omega
    · rw [hclass]
      refine orderClass_le_of_head (List.pairwise_append.mp hbackOrder).2.1 fun record hrecord ↦ ?_
      have himm : Flag.immortal ∈ s.flags record := by simpa using hlast record hrecord
      have hpos := hbackClass record (List.mem_append_right _ (List.mem_of_mem_head? hrecord))
      have hrev : Flag.reverse ∉ s.flags record := by
        intro hrev
        simp [orderClass, hrev] at hpos
      simp [orderClass, hrev, himm]
  · have hclass : orderClass (s.flags crecp) = 1 := by simp [orderClass, hreverse, himmortal]
    refine ⟨front, back, hchain, ?_, ?_, ?_⟩
    · rw [← hplace]
      simp [hashPlace, hreverse, himmortal, ← hi]
    · intro record hrecord
      rw [hfrontClass record hrecord]
      omega
    · rw [hclass]
      exact hbackClass

theorem slotsNodup_insert (h : Shape env s g) (hout : g.Out crecp)
    (hchain : g.chain i = front ++ back) :
    (Slot.bucket i :: (front ++ crecp :: back).map Slot.record).Nodup := by
  have hnodup : (front ++ crecp :: back).Nodup := by
    have hold := h.nodup i
    have hnot := hout i
    rw [hchain] at hold hnot
    exact List.nodup_middle.mpr (List.nodup_cons.mpr ⟨hnot, hold⟩)
  refine List.nodup_cons.mpr ⟨by simp, hnodup.map ?_⟩
  intro left right heq
  exact Slot.record.inj heq

/-- `cache_hash` of a record that is in no chain, with the place it is put in. -/
theorem hash_at (h : Shape env s g) (hi : i = hashBucket env s.hashSize (s.name crecp))
    (hchain : g.chain i = front ++ back)
    (hplace : hashPlace env s crecp = lastSlot Slot.record (.bucket i) front)
    (hfront : ∀ record ∈ front, orderClass (s.flags record) ≤ orderClass (s.flags crecp))
    (hback : ∀ record ∈ back, orderClass (s.flags crecp) ≤ orderClass (s.flags record))
    (hout : g.Out crecp) (hused : InUse (s.flags crecp)) (hlive : crecp ∈ s.live)
    (hlocal : env.cachesize ≤ crecp → Meets (s.flags crecp) localFlags)
    (hapart : crecp ∉ g.fresh ∧ crecp ∉ g.spare) :
    Shape env (cacheHash env s crecp)
      { g with
        chain := Function.update g.chain i (front ++ crecp :: back)
        unhashed := g.unhashed.filter (· ≠ crecp)
        held := g.held.filter (· ≠ crecp) } := by
  have hlt : i < s.hashSize := hi ▸ hashBucket_lt env h.table _
  have hheld : ∀ {record}, record ∈ g.held.filter (· ≠ crecp) → record ∈ g.held :=
    fun hrecord ↦ (List.mem_filter.mp hrecord).1
  have hmem : ∀ {j record}, record ∈ Function.update g.chain i (front ++ crecp :: back) j →
      (record = crecp ∧ j = i) ∨ record ∈ g.chain j := by
    intro j record hrecord
    by_cases hji : j = i
    · subst hji
      rw [Function.update_self] at hrecord
      rw [hchain]
      simp only [List.mem_append, List.mem_cons] at hrecord ⊢
      grind
    · rw [Function.update_of_ne hji] at hrecord
      exact .inr hrecord
  refine { h with
    outside := ?_
    outsideNodup := ?_
    chained := ?_
    nodup := ?_
    member := ?_
    order := ?_
    complete := ?_ }
  · intro record hrecord
    refine h.outside record ?_
    rcases List.mem_append.mp hrecord with hspare | hmem
    · exact List.mem_append_left _ hspare
    · exact List.mem_append_right _ (hheld hmem)
  · exact h.outsideNodup.sublist (List.Sublist.append_left List.filter_sublist _)
  · intro j hj
    have hrecord : Slot.record crecp ∉ Slot.bucket j :: (g.chain j).map Slot.record := by
      simp only [List.mem_cons, reduceCtorEq, List.mem_map, Slot.record.injEq, exists_eq_right,
        false_or]
      exact hout j
    by_cases hji : j = i
    · subst hji
      simp only [Function.update_self]
      have hlinked := h.chained j hj
      rw [hchain] at hlinked
      have hinsert := hlinked.insert (h.slotsNodup_insert hout hchain)
      rw [← hplace] at hinsert
      exact hinsert
    · simp only [Function.update_of_ne hji]
      refine ((h.chained j hj).update_of_notMem hrecord).update_of_notMem ?_
      rw [hplace]
      exact h.slot_notMem_of_ne hji (lastSlot_mem_chain hchain)
  · have hslots := (List.nodup_cons.mp (h.slotsNodup_insert hout hchain)).2
    exact (Function.forall_update_iff g.chain fun _ nodes ↦ nodes.Nodup).mpr
      ⟨hslots.of_map _, fun j _ ↦ h.nodup j⟩
  · intro j record hrecord
    rcases hmem hrecord with ⟨rfl, rfl⟩ | hold
    · exact ⟨hi.symm, hused, hlive, hlocal, hapart.1, hapart.2, by simp⟩
    · have hmember := h.member j record hold
      exact { hmember with
        apart := ⟨hmember.apart.1, hmember.apart.2.1, fun hrecord ↦
          hmember.apart.2.2 (hheld hrecord)⟩ }
  · refine (Function.forall_update_iff g.chain fun _ nodes ↦ nodes.Pairwise _).mpr
      ⟨?_, fun j _ ↦ h.order j⟩
    have horder := h.order i
    rw [hchain, List.pairwise_append] at horder
    refine List.pairwise_append.mpr ⟨horder.1, List.pairwise_cons.mpr ⟨hback, horder.2.1⟩, ?_⟩
    intro left hleft right hright
    rcases List.mem_cons.mp hright with rfl | hright
    · exact hfront left hleft
    · exact horder.2.2 left hleft right hright
  · intro record hrecord hrecordUsed
    show record ∈ Function.update g.chain i (front ++ crecp :: back)
      (hashBucket env s.hashSize (s.name record)) ∨ record ∈ g.unhashed.filter (· ≠ crecp)
    by_cases heq : record = crecp
    · subst heq
      rw [← hi, Function.update_self]
      exact .inl (by simp)
    · refine (h.complete record hrecord hrecordUsed).imp (fun hhashed ↦ ?_) fun hhand ↦ ?_
      · by_cases hji : hashBucket env s.hashSize (s.name record) = i
        · rw [hji] at hhashed ⊢
          rw [hchain] at hhashed
          rw [Function.update_self]
          simp only [List.mem_append, List.mem_cons] at hhashed ⊢
          grind
        · rw [Function.update_of_ne hji]
          exact hhashed
      · exact List.mem_filter.mpr ⟨hhand, by simpa using heq⟩

/-- A record of a chain is moved forward past records of its class. -/
theorem move (h : Shape env s g) {middle : List Addr} {place up : Slot}
    (hchain : g.chain i = front ++ (middle ++ crecp :: back))
    (hclass : ∀ record ∈ middle, orderClass (s.flags record) = orderClass (s.flags crecp))
    (hplace : place = lastSlot Slot.record (.bucket i) front)
    (hup : up = lastSlot Slot.record (.bucket i) (front ++ middle)) :
    Shape env (((s.setLink up (s.hash (.record crecp))).setLink (.record crecp)
        ((s.setLink up (s.hash (.record crecp))).hash place)).setLink place (some crecp))
      { g with chain := Function.update g.chain i (front ++ crecp :: (middle ++ back)) } := by
  have hchain' : g.chain i = (front ++ middle) ++ crecp :: back := by rw [hchain, List.append_assoc]
  have hi : i < s.hashSize := h.lt_hashSize (show crecp ∈ g.chain i by simp [hchain])
  have hperm : (front ++ crecp :: (middle ++ back)).Perm (g.chain i) := by
    rw [hchain, List.perm_iff_count]
    intro record
    simp only [List.count_append, List.count_cons]
    omega
  have hmem : ∀ {j record}, record ∈ Function.update g.chain i (front ++ crecp :: (middle ++ back))
    j ↔
      record ∈ g.chain j := by
    intro j record
    by_cases hji : j = i
    · subst hji
      rw [Function.update_self]
      exact hperm.mem_iff
    · rw [Function.update_of_ne hji]
  have hslots := h.slotsNodup i
  have hlinked := h.chained i hi
  have hremoved := hlinked
  rw [hchain'] at hslots hremoved
  have hinsertSlots :
    (Slot.bucket i :: (front ++ crecp :: (middle ++ back)).map Slot.record).Nodup :=
    ((hperm.map Slot.record).cons _).nodup_iff.mpr (h.slotsNodup i)
  refine { h with
    chained := ?_
    nodup := ?_
    member := fun j record hrecord ↦ { h.member j record (hmem.mp hrecord) with }
    order := ?_
    complete := fun record hrecord hused ↦
      (h.complete record hrecord hused).imp_left fun hhashed ↦ hmem.mpr hhashed }
  · intro j hj
    by_cases hji : j = i
    · subst hji
      simp only [Function.update_self]
      have hwithout := hremoved.remove hslots
      rw [← hup, List.append_assoc] at hwithout
      have hwith := hwithout.insert hinsertSlots
      rw [← hplace] at hwith
      exact hwith
    · simp only [Function.update_of_ne hji]
      have hown : ∀ slot ∈ Slot.bucket i :: (g.chain i).map Slot.record,
          slot ∉ Slot.bucket j :: (g.chain j).map Slot.record :=
        fun slot hslot ↦ h.slot_notMem_of_ne hji hslot
      refine (((h.chained j hj).update_of_notMem (hown _ ?_)).update_of_notMem
        (hown _ ?_)).update_of_notMem (hown _ ?_)
      · rw [hup]
        exact lastSlot_mem_chain hchain'
      · simp [hchain]
      · rw [hplace]
        exact lastSlot_mem_chain hchain
  · exact (Function.forall_update_iff g.chain fun _ nodes ↦ nodes.Nodup).mpr
      ⟨hperm.nodup_iff.mpr (h.nodup i), fun j _ ↦ h.nodup j⟩
  · refine (Function.forall_update_iff g.chain fun _ nodes ↦ nodes.Pairwise _).mpr
      ⟨?_, fun j _ ↦ h.order j⟩
    have horder := h.order i
    simp only [hchain, List.pairwise_append, List.pairwise_cons, List.mem_append,
      List.mem_cons] at horder ⊢
    obtain ⟨hfront, ⟨hmiddle, ⟨hcrecp, hback⟩, hmiddleBack⟩, hfrontRest⟩ := horder
    refine ⟨hfront, ⟨?_, hmiddle, hback, fun left hleft right hright ↦
      hmiddleBack left hleft right (.inr hright)⟩,
      fun left hleft right hright ↦ hfrontRest left hleft right (by grind)⟩
    rintro record (hrecord | hrecord)
    · exact (hclass record hrecord).symm.le
    · exact hcrecp record hrecord

end Chains

end Shape

end CrossBreeder.Dnsmasq
