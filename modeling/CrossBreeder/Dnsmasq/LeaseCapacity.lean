import CrossBreeder.Dnsmasq.LeaseFile

/-!
# How many leases there are

`leases_left` counts what is left of the leases that the configuration allows, and `lease_allocate`
stops at none. Its caller `lease4_allocate` does not look at what it got before it stores the
address of the lease, so that the program crashes where its own callers would answer that no leases
are left.
-/

namespace CrossBreeder.Dnsmasq

open Foundation

/-! ### Allocation -/

namespace LeaseTable

/-- `lease_allocate`, when there is memory and when there is none. -/
def leaseAllocate (table : LeaseTable) (memory : Bool) : Option (LeaseTable × Lease) :=
  if table.leasesLeft = 0 ∨ memory = false then none
  else
    let lease : Lease :=
      { number := table.allocated, addr := 0, hwaddr := [], hwaddrLen := 0, hwaddrType := 0,
        clid := none
        hostname := none, fqdn := none, authName := false, expires := 1, override := 0 }
    some
      ({ leases := lease :: table.leases
         leasesLeft := table.leasesLeft - 1
         allocated := table.allocated + 1 }, lease)

/-- `lease4_allocate`: without a lease the program has crashed, as the address is stored in it. -/
def lease4Allocate (table : LeaseTable) (addr : UInt32) (memory : Bool) :
    Option (LeaseTable × Option Lease) :=
  match table.leaseAllocate memory with
  | none => none
  | some (table, lease) =>
    let lease := { lease with addr := addr, hwaddrLen := 256 }
    some ({ table with leases := lease :: table.leases.tail }, some lease)

/-- What the callers in `dhcp_reply` make of it. -/
def leaseOrMessage (table : LeaseTable) (addr : UInt32) (memory : Bool) :
    Option (LeaseTable × Except String Lease) :=
  (table.lease4Allocate addr memory).map fun (table, lease) ↦ (table, match lease with
    | some lease => .ok lease
    | none => .error "no leases left")

variable {table last : LeaseTable} {addr : UInt32} {memory : Bool}

theorem lease4Allocate_eq :
    table.lease4Allocate addr memory =
      if memory then (table.allocate4 addr).map fun (table, lease) ↦
      (table, some lease) else none := by
  unfold lease4Allocate leaseAllocate allocate4
  cases memory with
  | false => simp
  | true => by_cases hleft : table.leasesLeft = 0 <;> simp [hleft]

theorem leaseOrMessage_eq_none (h : table.leasesLeft = 0 ∨ memory = false) :
    table.leaseOrMessage addr memory = none := by
  have hnone : table.leaseAllocate memory = none := if_pos h
  unfold leaseOrMessage lease4Allocate
  rw [hnone]
  rfl

def AllocationReported (table : LeaseTable) (addr : UInt32) (memory : Bool) : Prop :=
  table.leasesLeft = 0 ∨ memory = false →
    table.leaseOrMessage addr memory = some (table, .error "no leases left")

theorem allocationReported_iff : AllocationReported table addr memory ↔ table.leasesLeft ≠ 0 ∧
    memory = true := by
  constructor
  · intro h
    refine ⟨fun hleft ↦ ?_, Bool.eq_true_of_not_eq_false fun hmemory ↦ ?_⟩
    · exact absurd ((leaseOrMessage_eq_none (.inl hleft)).symm.trans (h (.inl hleft))) (by simp)
    · exact absurd ((leaseOrMessage_eq_none (.inr hmemory)).symm.trans (h (.inr hmemory))) (by simp)
  · rintro ⟨hleft, rfl⟩ (hnone | hmemory)
    · exact absurd hnone hleft
    · exact absurd hmemory (by simp)

end LeaseTable

open LeaseTable

/-! ### Runs -/

inductive LeaseEvent
  | allocate (addr : UInt32) (memory : Bool)
  | prune (target : Option ℕ) (now : ℕ)
  | update (number : ℕ) (change : Lease → Lease)

/-- The table after an event, unless the program has crashed. -/
def leaseStep (table : LeaseTable) : LeaseEvent → Option LeaseTable
  | .allocate addr memory => (table.lease4Allocate addr memory).map Prod.fst
  | .prune target now => some (table.prune target now)
  | .update number change => some (table.update number change)

theorem count_leaseStep {table last : LeaseTable} {event : LeaseEvent}
    (hstep : leaseStep table event = some last) :
    last.leases.length + last.leasesLeft = table.leases.length + table.leasesLeft := by
  cases event with
  | allocate addr memory =>
    obtain ⟨⟨after, lease⟩, hallocate, rfl⟩ := Option.map_eq_some_iff.mp hstep
    rw [lease4Allocate_eq] at hallocate
    split_ifs at hallocate
    obtain ⟨⟨base, new⟩, hbase, heq⟩ := Option.map_eq_some_iff.mp hallocate
    obtain rfl : base = after := congrArg Prod.fst heq
    exact count_allocate4 hbase
  | prune target now =>
    obtain rfl := Option.some.inj hstep
    have hlength := List.length_eq_length_filter_add (l := table.leases) (pruned target now)
    dsimp only [LeaseTable.prune]
    omega
  | update number change =>
    obtain rfl := Option.some.inj hstep
    dsimp only [LeaseTable.update]
    rw [List.length_map]

theorem count_runSteps (events : List LeaseEvent) : ∀ {table last : LeaseTable},
    runSteps leaseStep table events = some last →
      last.leases.length + last.leasesLeft = table.leases.length + table.leasesLeft := by
  induction events with
  | nil =>
    intro table last hrun
    rw [Option.some.inj hrun]
  | cons event events ih =>
    intro table last hrun
    obtain ⟨next, hnext, hrest⟩ := Option.bind_eq_some_iff.mp hrun
    exact (ih hrest).trans (count_leaseStep hnext)

/-! ### The file -/

theorem setHostname_run (byFqdn : Bool) (table : LeaseTable) (lease : Lease) (name : List UInt8)
    (auth : Bool) (domain : Option (List UInt8)) :
    ∃ events, runSteps leaseStep table events = some
      (table.setHostname byFqdn lease name auth domain) := by
  unfold LeaseTable.setHostname
  dsimp only
  split_ifs
  · exact ⟨[.update _ _], rfl⟩
  · exact ⟨[], rfl⟩
  · cases table.nameHolder byFqdn name (qualify name domain) with
    | none => exact ⟨[.update _ _], rfl⟩
    | some holder =>
      dsimp only
      split_ifs
      · exact ⟨[], rfl⟩
      · exact ⟨[.update _ _, .update _ _], rfl⟩

theorem storeLease_run {env : DhcpEnv} {table last : LeaseTable} {fields : LeaseFields}
    (hstore : storeLease env table fields = some last) :
    ∃ events, runSteps leaseStep table events = some last := by
  obtain ⟨⟨base, lease⟩, hbase, hrest⟩ := Option.bind_eq_some_iff.mp hstore
  obtain ⟨⟨hwaddr, type⟩, -, rfl⟩ := Option.map_eq_some_iff.mp hrest
  dsimp only
  -- the hardware address, the name and the time of the line are set
  set identity : Lease → Lease :=
    fun lease ↦ lease.setHwaddr hwaddr (hwTypeOf type hwaddr) (clidOf fields.clid)
  set times : Lease → Lease := fun lease ↦ { lease with expires := expiryOf fields.expires }
  obtain ⟨names, hnames⟩ : ∃ events, runSteps leaseStep (base.update lease.number identity) events =
      some (restoreName env (base.update lease.number identity) lease fields.hostname) := by
    unfold restoreName
    split_ifs
    · exact ⟨[], rfl⟩
    · exact setHostname_run _ _ _ _ _ _
  have hallocate : leaseStep table (.allocate fields.addr true) = some base := by
    dsimp only [leaseStep]
    rw [lease4Allocate_eq, if_pos rfl, hbase]
    rfl
  refine ⟨[.allocate fields.addr true, .update lease.number identity] ++ names ++
    [.update lease.number times], ?_⟩
  rw [runSteps_append, runSteps_append, runSteps, hallocate, Option.bind_some]
  simp only [runSteps, leaseStep, Option.bind_some, hnames]

theorem readLeases_run (env : DhcpEnv) (fuel : ℕ) :
    ∀ {input : List UInt8} {table last : LeaseTable},
    readLeases env fuel input table = some last →
      ∃ events, runSteps leaseStep table events = some last := by
  induction fuel with
  | zero =>
    intro input table last hread
    exact ⟨[], hread⟩
  | succ fuel ih =>
    intro input table last hread
    rw [readLeases] at hread
    cases hscan : scanLease input with
    | none =>
      rw [hscan] at hread
      exact ⟨[], hread⟩
    | some result =>
      rw [hscan] at hread
      obtain ⟨next, hstore, hrest⟩ := Option.bind_eq_some_iff.mp hread
      obtain ⟨first, hfirst⟩ := storeLease_run hstore
      obtain ⟨second, hsecond⟩ := ih hrest
      refine ⟨first ++ second, ?_⟩
      rw [runSteps_append, hfirst]
      exact hsecond

theorem leaseInit_run {env : DhcpEnv} {dhcpMax now : ℕ} {file : List UInt8} {table : LeaseTable}
    (hinit : leaseInit env dhcpMax now file = some table) :
    ∃ events, runSteps leaseStep (.empty dhcpMax) events = some table := by
  obtain ⟨read, hread, rfl⟩ := Option.map_eq_some_iff.mp hinit
  obtain ⟨events, hevents⟩ := readLeases_run env _ hread
  refine ⟨events ++ [.prune none now], ?_⟩
  rw [runSteps_append, hevents]
  rfl

/-! ### Capacity -/

/-- A table that runs start with: the empty one that `lease_init` starts with, or the one that it
has read. -/
def StartTable (dhcpMax : ℕ) (table : LeaseTable) : Prop :=
  table = .empty dhcpMax ∨ ∃ env now file, leaseInit env dhcpMax now file = some table

theorem StartTable.count {dhcpMax : ℕ} {table : LeaseTable} (h : StartTable dhcpMax table) :
    table.leases.length + table.leasesLeft = dhcpMax := by
  obtain ⟨events, hrun⟩ : ∃ events, runSteps leaseStep (.empty dhcpMax) events = some table := by
    rcases h with rfl | ⟨env, now, file, hinit⟩
    · exact ⟨[], rfl⟩
    · exact leaseInit_run hinit
  exact (count_runSteps events hrun).trans (Nat.zero_add dhcpMax)

/-- In every run, leases that are there and leases that are left make up what is allowed, and an
allocation that fails is reported: that is so if and only if none of them fails. -/
theorem capacity_iff {dhcpMax : ℕ} {start : LeaseTable} (hstart : StartTable dhcpMax start)
    (events : List LeaseEvent) :
    (∀ before table, before <+: events → runSteps leaseStep start before = some table →
      table.leases.length + table.leasesLeft = dhcpMax ∧
        ∀ addr memory, before ++ [.allocate addr memory] <+: events →
        AllocationReported table addr memory) ↔
    ∀ before table addr memory, before ++ [.allocate addr memory] <+: events →
      runSteps leaseStep start before = some table → table.leasesLeft ≠ 0 ∧ memory = true := by
  constructor
  · intro h before table addr memory hbefore hrun
    have hfront : before <+: events := (List.prefix_append before _).trans hbefore
    exact allocationReported_iff.mp ((h before table hfront hrun).2 addr memory hbefore)
  · intro h before table _ hrun
    refine ⟨?_, fun addr memory hbefore ↦
      allocationReported_iff.mpr (h before table addr memory hbefore hrun)⟩
    exact (count_runSteps before hrun).trans hstart.count

/-- Two leases are allowed: both are given, the first one is pruned, and another one is given. -/
def fullAndPruned : List LeaseEvent :=
  [.allocate 0xc0a80002 true, .allocate 0xc0a80003 true, .prune (some 0) 0,
    .allocate 0xc0a80004 true]

theorem capacity_iff_pruned :
    (∃ table, runSteps leaseStep (.empty 2) fullAndPruned = some table ∧
      table.leases.length = 2 ∧ table.leasesLeft = 0) ∧
    ∀ before table, before <+: fullAndPruned → runSteps leaseStep (.empty 2) before = some table →
      table.leases.length + table.leasesLeft = 2 ∧ ∀ addr memory,
        before ++ [.allocate addr memory] <+: fullAndPruned →
        AllocationReported table addr memory := by
  refine ⟨⟨_, rfl, rfl, rfl⟩, (capacity_iff (.inl rfl) fullAndPruned).mpr ?_⟩
  intro before table addr memory hbefore hrun
  rcases before with _ | ⟨_, _ | ⟨_, _ | ⟨_, _ | ⟨_, rest⟩⟩⟩⟩ <;>
    simp [fullAndPruned, List.cons_prefix_cons] at hbefore
  -- the three places of the run where a lease is allocated
  · obtain rfl := Option.some.inj hrun
    exact ⟨by decide, hbefore.2⟩
  · obtain ⟨rfl, -, rfl⟩ := hbefore
    obtain rfl := Option.some.inj hrun
    exact ⟨by decide, rfl⟩
  · obtain ⟨rfl, rfl, rfl, -, rfl⟩ := hbefore
    obtain rfl := Option.some.inj hrun
    exact ⟨by decide, rfl⟩

/-- One lease is allowed, and two clients come. -/
theorem not_allocationReported_second :
    ∃ table, runSteps leaseStep (.empty 1) [.allocate 0xc0a80002 true] = some table ∧
      table.leases.length = 1 ∧ ¬AllocationReported table 0xc0a80003 true := by
  refine ⟨_, rfl, rfl, fun h ↦ ?_⟩
  exact absurd (allocationReported_iff.mp h).1 (by decide)

end CrossBreeder.Dnsmasq
