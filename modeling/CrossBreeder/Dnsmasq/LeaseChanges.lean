import CrossBreeder.Dnsmasq.DhcpReply

/-!
# What a packet does to the leases

`LeaseChange` lists what a packet can do to the table: leases are pruned, or one lease is served.
`dhcpReply_change` says that `dhcp_reply` does nothing else, so an invariant of the table needs to
be shown for these changes only.
-/

namespace CrossBreeder.Dnsmasq

open Foundation

/-! ### The table -/

def ClidLike (clid : List UInt8) : Prop := clid ≠ [] ∧ clid.length ≤ 255

/-- A name that a lease can get: one of the configuration, or one with the characters of a host's
name. -/
def LeaseNameOk (configs : List HostConfig) (name : List UInt8) : Prop :=
  (∃ config ∈ configs, config.hostname = some name) ∨ (name.all hostChar = true ∧ name.length ≤ 255)

/-- The identifier of a client is that of its request, unless there are hosts whose identifiers are
ignored. -/
def IdentifierOf (configs : List HostConfig) (mess : DhcpRequest) (clid : Option (List UInt8)) :
    Prop :=
  ∀ c, mess.clientId = some c → clid = some c.val ∨ ∃ config ∈ configs, config.noclid = true

/-- What a packet can do to the table of leases. -/
inductive LeaseChange (env : DhcpEnv) (configs : List HostConfig) (mess : DhcpRequest) (now : ℕ) :
    LeaseTable → LeaseTable → Option (UInt32 × Option (List UInt8)) → Prop
  | same (table : LeaseTable) : LeaseChange env configs mess now table table none
  | prune {table last : LeaseTable} {served : Option (UInt32 × Option (List UInt8))}
    (target : Option ℕ)
      (hrest : LeaseChange env configs mess now (table.prune target now) last served) :
      LeaseChange env configs mess now table last served
  | override (table : LeaseTable) (number : ℕ) (override : UInt32) :
      LeaseChange env configs mess now table
        (table.update number fun lease ↦ { lease with override := override }) none
  | serve {table base : LeaseTable} {lease : Lease} (call : DhcpCall) {clid name :
    Option (List UInt8)} (auth : Bool)
      (time override : UInt32) (hmess : call.mess = mess) (hnow : call.arrival.now = now)
      (hlease : base = table ∧ lease ∈ table.leases ∨
        table.findByAddr lease.addr = none ∧ table.allocate4 lease.addr = some (base, lease))
      (hclid : ∀ c, clid = some c → ClidLike c) (hname : ∀ n, name = some n →
        LeaseNameOk configs n) :
      LeaseChange env configs mess now table (finishLease env call base lease clid name auth
        time override) (some (lease.addr, clid))

def SameHosts (before after : List HostConfig) : Prop :=
  after.map HostConfig.hostname = before.map HostConfig.hostname

theorem SameHosts.refl (configs : List HostConfig) : SameHosts configs configs := rfl

structure CallEffect (env : DhcpEnv) (s : DhcpState) (mess : DhcpRequest) (now : ℕ) (s' : DhcpState)
    (answer : DhcpAnswer) : Prop where
  change : ∃ served, LeaseChange env s.configs mess now s.table s'.table served ∧
    ∀ yiaddr id, answer = .ack yiaddr id → ∃ clid, served = some (yiaddr, clid) ∧
      IdentifierOf s.configs mess clid
  hosts : SameHosts s.configs s'.configs

variable {configs : List HostConfig}

variable {hwaddr : List UInt8}

variable {lease : Lease}

variable {chain : List ℕ}

variable {name : List UInt8}

section Changes

variable {env : DhcpEnv} {world : DhcpWorld} {s s' : DhcpState} {call : DhcpCall}
    {mess : DhcpRequest} {now : ℕ}
  {answer : DhcpAnswer}

theorem CallEffect.same (htable : s'.table = s.table) (hhosts : SameHosts s.configs s'.configs)
    (hack : ∀ yiaddr id, answer ≠ .ack yiaddr id) : CallEffect env s mess now s' answer := by
  refine ⟨⟨none, ?_, fun yiaddr id heq ↦ absurd heq (hack yiaddr id)⟩, hhosts⟩
  rw [htable]
  exact .same s.table

theorem CallEffect.prune {target : Option ℕ}
    (h : CallEffect env { s with table := s.table.prune target now } mess now s' answer) :
    CallEffect env s mess now s' answer := by
  obtain ⟨⟨served, hchange, hack⟩, hhosts⟩ := h
  exact ⟨⟨served, .prune target hchange, hack⟩, hhosts⟩

theorem allocateAddress_table (chain : List ℕ) (hwaddr : List UInt8) (tags : List Tag) :
    (s.allocateAddress env world chain hwaddr tags now).1.table = s.table ∧
      (s.allocateAddress env world chain hwaddr tags now).1.configs = s.configs := ⟨rfl, rfl⟩

theorem mem_of_findByAddr {table : LeaseTable} {addr : UInt32}
    (hfind : table.findByAddr addr = some lease) : lease ∈ table.leases ∧ lease.addr = addr :=
  ⟨List.mem_of_find?_eq_some hfind, by simpa using List.find?_some hfind⟩

theorem mem_of_findByClient {table : LeaseTable} {hwType : ℕ} {clid : Option (List UInt8)}
    (hfind : table.findByClient hwaddr hwType clid = some lease) : lease ∈ table.leases := by
  rcases Option.or_eq_some_iff.mp hfind with hclid | ⟨-, hhwaddr⟩
  · exact List.mem_of_find?_eq_some hclid
  · exact List.mem_of_find?_eq_some hhwaddr

theorem addr_of_allocate4 {table base : LeaseTable} {addr : UInt32}
    (halloc : table.allocate4 addr = some (base, lease)) : lease.addr = addr := by
  unfold LeaseTable.allocate4 at halloc
  split_ifs at halloc
  simp only [Option.some.injEq, Prod.mk.injEq] at halloc
  rw [← halloc.2]

/-! ### Allocation -/

theorem rangeLoop_free (alloc : AllocEnv) (c : ℕ) (start : UInt32) (fuel : ℕ) :
    ∀ {addr found : UInt32} {state : AllocState},
      (rangeLoop alloc c start fuel addr state).2 = some found →
      alloc.table.findByAddr found = none := by
  induction fuel with
  | zero => exact fun h ↦ absurd h (by simp [rangeLoop])
  | succ fuel ih =>
    intro addr found state hfound
    unfold rangeLoop at hfound
    by_cases hfree : addressFree state.contexts alloc.chain alloc.table alloc.configs addr = true
    · rw [if_pos hfree] at hfound
      generalize tryAddress alloc c addr state = tried at hfound
      obtain ⟨tried, _ | _⟩ := tried
      · dsimp only at hfound
        split_ifs at hfound
        exact ih hfound
      · obtain rfl := Option.some.inj hfound
        unfold addressFree at hfree
        simp only [decide_eq_true_eq] at hfree
        exact Option.isNone_iff_eq_none.mp hfree.2.1
    · rw [if_neg hfree] at hfound
      dsimp only at hfound
      split_ifs at hfound
      exact ih hfound

theorem contextLoop_free (alloc : AllocEnv) (pass : Bool) (chain : List ℕ) :
    ∀ {found : UInt32} {state : AllocState}, (contextLoop alloc pass chain state).2 = some found →
      alloc.table.findByAddr found = none := by
  induction chain with
  | nil => exact fun h ↦ absurd h (by simp [contextLoop])
  | cons c rest ih =>
    intro found state hfound
    unfold contextLoop at hfound
    dsimp only at hfound
    split_ifs at hfound with hskip
    · exact ih hfound
    · cases hrange : rangeLoop alloc c (rangeStart alloc (state.contexts c))
        (((state.contexts c).endAddr - (state.contexts c).start).toNat + 1)
          (rangeStart alloc (state.contexts c)) state with
      | mk last addr =>
        rw [hrange] at hfound
        cases addr with
        | none => exact ih hfound
        | some addr =>
          obtain rfl := Option.some.inj hfound
          exact rangeLoop_free alloc c _ _ (by rw [hrange])

theorem allocateAddress_free {tags : List Tag} {found : UInt32}
    (hfound : (s.allocateAddress env world chain hwaddr tags now).2 = some found) :
    s.table.findByAddr found = none := by
  unfold DhcpState.allocateAddress addressAllocate at hfound
  generalize hloop : contextLoop _ false chain ⟨s.contexts, s.pings⟩ = first at hfound
  obtain ⟨first, _ | addr⟩ := first
  · exact contextLoop_free _ true chain hfound
  · obtain rfl := Option.some.inj hfound
    exact contextLoop_free _ false chain (congrArg Prod.snd hloop)

/-! ### BOOTP -/

/-- The address for a BOOTP client is that of its lease, or nobody has it. -/
theorem bootpAddress_spec (tagif : List Tag) {last : DhcpState}
    {found : Option (UInt32 × Option Lease)}
    (haddress : bootpAddress env world s call tagif = (last, found)) : last.configs = s.configs ∧
    (last.table = s.table ∨ ∃ target, last.table = s.table.prune target call.arrival.now) ∧
    ∀ yiaddr lease, found = some (yiaddr, lease) →
      (∀ l, lease = some l → l ∈ last.table.leases ∧ l.addr = yiaddr) ∧
      (lease = none → last.table.findByAddr yiaddr = none) := by
  unfold bootpAddress at haddress
  split at haddress
  · next addr _ =>
    split at haddress
    · next hnone =>
      obtain ⟨rfl, rfl⟩ := Prod.mk.inj haddress
      refine ⟨rfl, .inl rfl, fun yiaddr lease heq ↦ ?_⟩
      obtain ⟨rfl, rfl⟩ := Prod.mk.inj (Option.some.inj heq)
      exact ⟨by simp, fun _ ↦ hnone⟩
    · next found hfound =>
      split_ifs at haddress
      · obtain ⟨rfl, rfl⟩ := Prod.mk.inj haddress
        exact ⟨rfl, .inl rfl, by simp⟩
      · obtain ⟨rfl, rfl⟩ := Prod.mk.inj haddress
        refine ⟨rfl, .inl rfl, fun yiaddr lease heq ↦ ?_⟩
        obtain ⟨rfl, rfl⟩ := Prod.mk.inj (Option.some.inj heq)
        refine ⟨fun l hl ↦ ?_, by simp⟩
        obtain rfl := Option.some.inj hl
        exact mem_of_findByAddr hfound
  · dsimp only at haddress
    split at haddress
    · next lease hlease =>
      obtain ⟨rfl, rfl⟩ := Prod.mk.inj haddress
      refine ⟨rfl, .inl rfl, fun yiaddr other heq ↦ ?_⟩
      obtain ⟨rfl, rfl⟩ := Prod.mk.inj (Option.some.inj heq)
      refine ⟨fun l hl ↦ ?_, by simp⟩
      obtain rfl := Option.some.inj hl
      exact ⟨mem_of_findByClient (Option.filter_eq_some_iff.mp hlease).1, rfl⟩
    · have hrest : ∀ base : DhcpState, base.configs = s.configs →
          (base.table = s.table ∨ ∃ target, base.table = s.table.prune target call.arrival.now) →
          ((base.allocateAddress env world call.chain call.mess.chaddr tagif call.arrival.now).1,
            (base.allocateAddress env world call.chain call.mess.chaddr tagif
              call.arrival.now).2.map fun addr ↦ (addr, (none : Option Lease))) = (last, found) →
          last.configs = s.configs ∧
          (last.table = s.table ∨ ∃ target, last.table = s.table.prune target call.arrival.now) ∧
          ∀ yiaddr lease, found = some (yiaddr, lease) →
            (∀ l, lease = some l → l ∈ last.table.leases ∧ l.addr = yiaddr) ∧
            (lease = none → last.table.findByAddr yiaddr = none) := by
        intro base hconfigs htable hlast
        obtain ⟨rfl, rfl⟩ := Prod.mk.inj hlast
        refine ⟨hconfigs, htable, fun yiaddr lease heq ↦ ?_⟩
        obtain ⟨addr, haddr, heq⟩ := Option.map_eq_some_iff.mp heq
        obtain ⟨rfl, rfl⟩ := Prod.mk.inj heq
        have hfree := allocateAddress_free haddr
        exact ⟨by simp, fun _ ↦ hfree⟩
      split at haddress
      · exact hrest s rfl (.inl rfl) haddress
      · next lease _ =>
        exact hrest { s with table := s.table.prune (some lease.number) call.arrival.now } rfl
          (.inr ⟨_, rfl⟩) haddress

structure ClientInv (configs : List HostConfig) (call : DhcpCall) : Prop where
  clid : ∀ c, call.clid = some c → ClidLike c
  identifier : call.mess.messType.isSome → IdentifierOf configs call.mess call.clid
  config : ∀ config, call.config = some config → config ∈ configs
  hostname : ∀ name, call.hostname = some name → LeaseNameOk configs name

structure CallInv (s : DhcpState) (call : DhcpCall) : Prop extends ClientInv s.configs call where
  lease : ∀ lease, call.lease = some lease → lease ∈ s.table.leases

/-- A lease of the table is served, or a new one. -/
theorem CallEffect.serve {base : LeaseTable} {clid name : Option (List UInt8)} (auth : Bool)
    (time override : UInt32)
    (hlease : base = s.table ∧ lease ∈ s.table.leases ∨
      s.table.findByAddr lease.addr = none ∧ s.table.allocate4 lease.addr = some (base, lease))
    (hclid : ∀ c, clid = some c → ClidLike c) (hname : ∀ n, name = some n → LeaseNameOk s.configs n)
    (hack : ∀ yiaddr id, answer = .ack yiaddr id → lease.addr = yiaddr ∧
      IdentifierOf s.configs call.mess clid) :
    CallEffect env s call.mess call.arrival.now
      { s with table := finishLease env call base lease clid name auth time override } answer :=
  ⟨⟨some (lease.addr, clid), .serve call auth time override rfl rfl hlease hclid hname,
    fun yiaddr id heq ↦ ⟨clid, by rw [(hack yiaddr id heq).1], (hack yiaddr id heq).2⟩⟩, .refl _⟩

theorem CallEffect.bootpReply (h : CallInv s call)
    (hreply : bootpReply env world s call = some (s', answer)) :
    CallEffect env s call.mess call.arrival.now s' answer := by
  have hsilent : some (s, DhcpAnswer.silence) = some (s', answer) →
      CallEffect env s call.mess call.arrival.now s' answer := fun heq ↦ by
    obtain ⟨rfl, rfl⟩ := Prod.mk.inj (Option.some.inj heq)
    exact .same rfl (.refl _) (by simp)
  unfold Dnsmasq.bootpReply at hreply
  dsimp only at hreply
  split_ifs at hreply
  · exact hsilent hreply
  · exact hsilent hreply
  · generalize htagif : runTagIf env.tagIf _ = tagif at hreply
    cases haddress : bootpAddress env world s call tagif with
    | mk last found =>
      obtain ⟨hconfigs, htable, hfound⟩ := bootpAddress_spec tagif haddress
      rw [haddress] at hreply
      -- what happens behind the choice of the address
      have hlast : CallEffect env last call.mess call.arrival.now s' answer := by
        have hsilent : some (last, DhcpAnswer.silence) = some (s', answer) →
            CallEffect env last call.mess call.arrival.now s' answer := fun heq ↦ by
          obtain ⟨rfl, rfl⟩ := Prod.mk.inj (Option.some.inj heq)
          exact .same rfl (.refl _) (by simp)
        have hname : ∀ n, call.config.bind HostConfig.hostname = some n →
          LeaseNameOk last.configs n := fun n hn ↦ by
          obtain ⟨config, hconfig, hhost⟩ := Option.bind_eq_some_iff.mp hn
          exact .inl ⟨config, hconfigs ▸ h.config config hconfig, hhost⟩
        rcases found with _ | ⟨yiaddr, lease⟩
        · exact hsilent hreply
        · obtain ⟨hsome, hnone⟩ := hfound yiaddr lease rfl
          dsimp only at hreply
          split at hreply
          · exact hsilent hreply
          · split_ifs at hreply
            · exact hsilent hreply
            · cases lease with
              | some lease =>
                obtain ⟨rfl, rfl⟩ := Prod.mk.inj (Option.some.inj hreply)
                exact .serve true _ _ (.inl ⟨rfl, (hsome lease rfl).1⟩) (by simp) hname (by simp)
              | none =>
                obtain ⟨⟨base, lease⟩, halloc, heq⟩ := Option.map_eq_some_iff.mp hreply
                obtain ⟨rfl, rfl⟩ := Prod.mk.inj heq
                have haddr := addr_of_allocate4 halloc
                refine .serve true _ _ (.inr ⟨?_, ?_⟩) (by simp) hname (by simp)
                · rw [haddr]
                  exact hnone rfl
                · rw [haddr]
                  exact halloc
      obtain ⟨⟨served, hchange, hack⟩, hhosts⟩ := hlast
      rw [hconfigs] at hchange hhosts hack
      rcases htable with htable | ⟨target, htable⟩
      · exact ⟨⟨served, htable ▸ hchange, hack⟩, hhosts⟩
      · exact ⟨⟨served, .prune target (htable ▸ hchange), hack⟩, hhosts⟩

/-! ### Other messages -/

theorem SameHosts.decline (configs : List HostConfig) (number now : ℕ) :
    SameHosts configs (configs.map fun other ↦
      if other.number = number then { other with declined := true, declineTime := now }
    else other) := by
  unfold SameHosts
  rw [List.map_map]
  refine List.map_congr_left fun other _ ↦ ?_
  dsimp only [Function.comp]
  split_ifs <;> rfl

theorem CallEffect.declineReply :
    CallEffect env s call.mess call.arrival.now (declineReply s call) .silence := by
  unfold Dnsmasq.declineReply
  split
  · next id addr _ _ =>
    split_ifs
    · exact .same rfl (.refl _) (by simp)
    · -- the host or the ranges are marked, whatever happened to the lease before
      cases call.lease.filter fun lease ↦ lease.addr = addr with
      | none =>
        dsimp only
        split
        · exact .same rfl (.decline _ _ _) (by simp)
        · exact .same rfl (.refl _) (by simp)
      | some lease =>
        dsimp only
        split
        · exact .prune (.same rfl (.decline _ _ _) (by simp))
        · exact .prune (.same rfl (.refl _) (by simp))
  · exact .same rfl (.refl _) (by simp)

theorem CallEffect.releaseReply :
    CallEffect env s call.mess call.arrival.now (releaseReply s call) .silence := by
  unfold Dnsmasq.releaseReply
  split
  · split_ifs
    · exact .same rfl (.refl _) (by simp)
    · split
      · exact .same rfl (.refl _) (by simp)
      · exact .prune (.same rfl (.refl _) (by simp))
  · exact .same rfl (.refl _) (by simp)

theorem CallEffect.discoverReply : CallEffect env s call.mess call.arrival.now
    (discoverReply env world s call).1 (discoverReply env world s call).2 := by
  have htable : (offeredAddress env world s call).1.table = s.table ∧
      (offeredAddress env world s call).1.configs = s.configs := by
    unfold offeredAddress
    split
    · exact ⟨rfl, rfl⟩
    · split_ifs
      · exact ⟨rfl, rfl⟩
      · exact allocateAddress_table _ _ _
  unfold Dnsmasq.discoverReply
  split_ifs
  · exact .same rfl (.refl _) (by simp)
  · cases hoffered : offeredAddress env world s call with
    | mk last addr =>
      rw [hoffered] at htable
      have hhosts : SameHosts s.configs last.configs := htable.2 ▸ .refl _
      cases addr with
      | none => exact .same htable.1 hhosts (by simp)
      | some yiaddr =>
        dsimp only
        split
        · exact .same htable.1 hhosts (by simp)
        · exact .same htable.1 hhosts (by simp)

theorem CallEffect.informReply : CallEffect env s call.mess call.arrival.now
    (informReply s call).1 (informReply s call).2 := by
  unfold Dnsmasq.informReply
  by_cases hsilent : call.ignore ∨ call.disabled ∨ call.ciaddr = 0
  · rw [if_pos hsilent]
    exact .same rfl (.refl _) (by simp)
  · rw [if_neg hsilent]
    split
    · exact .same rfl (.refl _) (by simp)
    · exact ⟨⟨none, .override _ _ _, by simp⟩, .refl _⟩

/-! ### `DHCPREQUEST` -/

theorem all_hostPart_legal {name legal : List UInt8} (hlegal : legalHostname name = some legal) :
    (hostPart legal).all hostChar = true := by
  simpa using (Option.filter_eq_some_iff.mp hlegal).2

theorem hostPart_take (name : List UInt8) (n : ℕ) : hostPart (name.take n) =
    (hostPart name).take n := by
  exact (List.take_takeWhile ..).symm

theorem hostFromDns_ok {addr : UInt32}
    (hname : hostFromDns env world addr = some name) : LeaseNameOk configs name := by
  obtain ⟨hosts, -, hname⟩ := Option.bind_eq_some_iff.mp hname
  dsimp only at hname
  split_ifs at hname
  obtain ⟨legal, hlegal, rfl⟩ := Option.map_eq_some_iff.mp hname
  have hall := all_hostPart_legal hlegal
  refine .inr ⟨?_, ?_⟩
  · rw [hostPart_take]
    exact List.all_eq_true.mpr fun c hc ↦ List.all_eq_true.mp hall c (List.mem_of_mem_take hc)
  · rw [hostPart_take]
    exact (List.length_take_le _ _).trans (by omega)

theorem hostChar_hexLower {dig : ℕ} (hdig : dig < 16) :
    hostChar (generatedName.hexLower dig) = true := by
  revert dig
  decide

theorem generatedName_ok (configs : List HostConfig) (emac : List UInt8) :
    LeaseNameOk configs (generatedName emac) := by
  have hpiece : ∀ (byte : UInt8) (i : ℕ), ([generatedName.hexLower (byte.toNat / 16),
      generatedName.hexLower (byte.toNat % 16)] ++ if i + 1 = emac.length then [] else [45]).all
        hostChar = true ∧
      ([generatedName.hexLower (byte.toNat / 16),
      generatedName.hexLower (byte.toNat % 16)] ++ if i + 1 = emac.length then []
        else [45]).length ≤ 3 := by
    intro byte i
    have hbyte := byte.toNat_lt
    have hhigh := hostChar_hexLower (show byte.toNat / 16 < 16 by omega)
    have hlow := hostChar_hexLower (show byte.toNat % 16 < 16 by omega)
    have hdash : hostChar 45 = true := rfl
    split_ifs <;> simp [hhigh, hlow, hdash]
  refine .inr ⟨?_, ?_⟩
  · unfold generatedName
    rw [List.all_flatten, List.all_map]
    exact List.all_eq_true.mpr fun p _ ↦ (hpiece p.1 p.2).1
  · unfold generatedName
    rw [List.length_flatten, List.map_map]
    have hsum : ∀ l : List (UInt8 × ℕ), (l.map (List.length ∘ fun p : UInt8 × ℕ ↦
        [generatedName.hexLower (p.1.toNat / 16), generatedName.hexLower (p.1.toNat % 16)] ++
          if p.2 + 1 = emac.length then [] else [45])).sum ≤ 3 * l.length := by
      intro l
      induction l with
      | nil => simp
      | cons p rest ih =>
        have := (hpiece p.1 p.2).2
        simp only [List.map_cons, List.sum_cons, List.length_cons, Function.comp] at ih this ⊢
        omega
    refine (hsum _).trans ?_
    rw [List.length_zipIdx]
    have := List.length_take_le 80 emac
    omega

theorem leaseName_ok (h : ClientInv s.configs call) {tagif : List Tag} {yiaddr : UInt32}
    (hname : (leaseName env world call tagif yiaddr).1 = some name) :
    LeaseNameOk s.configs name := by
  unfold leaseName at hname
  dsimp only at hname
  split at hname
  · next n hhost =>
    obtain rfl := Option.some.inj hname
    split_ifs at hhost
    all_goals first | exact h.hostname _ hhost | skip
    cases hdns : hostFromDns env world yiaddr with
    | none =>
      rw [hdns] at hhost
      exact h.hostname _ hhost
    | some found =>
      rw [hdns] at hhost
      obtain rfl := Option.some.inj hhost
      exact hostFromDns_ok hdns
  · split_ifs at hname
    obtain rfl := Option.some.inj hname
    exact generatedName_ok _ _

theorem CallEffect.grantLease (h : ClientInv s.configs call)
    (hdhcp : call.mess.messType.isSome = true) (c : ℕ) (override : UInt32) {base : LeaseTable}
    (hlease : base = s.table ∧ lease ∈ s.table.leases ∨
      s.table.findByAddr lease.addr = none ∧ s.table.allocate4 lease.addr = some (base, lease)) :
    CallEffect env s call.mess call.arrival.now
      (grantLease env world s call c override base lease lease.addr).1
      (grantLease env world s call c override base lease lease.addr).2 := by
  refine .serve _ _ _ hlease h.clid ?_ ?_
  · exact fun n hn ↦ leaseName_ok h hn
  · exact fun yiaddr id heq ↦ ⟨(DhcpAnswer.ack.inj heq).1, h.identifier hdhcp⟩

theorem CallEffect.settleRequest (h : ClientInv s.configs call)
    (hdhcp : call.mess.messType.isSome = true) {override : UInt32} {lease : Option Lease}
    {yiaddr : UInt32} {selecting : Bool}
    (hlease : ∀ l, lease = some l → l ∈ s.table.leases ∧ l.addr = yiaddr)
    (hreply : settleRequest env world s call chain override lease yiaddr selecting =
      some (s', answer)) :
    CallEffect env s call.mess call.arrival.now s' answer := by
  unfold Dnsmasq.settleRequest at hreply
  split at hreply
  · obtain ⟨rfl, rfl⟩ := Prod.mk.inj (Option.some.inj hreply)
    exact .same rfl (.refl _) (by simp)
  · next c _ =>
    split_ifs at hreply
    · cases hfound : lease.or (s.table.findByAddr yiaddr) with
      | some found =>
        rw [hfound] at hreply
        have hmem : found ∈ s.table.leases ∧ found.addr = yiaddr := by
          rcases Option.or_eq_some_iff.mp hfound with hlease' | ⟨-, haddr⟩
          · exact hlease found hlease'
          · exact mem_of_findByAddr haddr
        obtain ⟨hmem, rfl⟩ := hmem
        obtain ⟨rfl, rfl⟩ := Prod.mk.inj (Option.some.inj hreply)
        exact .grantLease h hdhcp c override (.inl ⟨rfl, hmem⟩)
      | none =>
        rw [hfound] at hreply
        have hnone := (Option.or_eq_none_iff.mp hfound).2
        obtain ⟨⟨base, new⟩, halloc, heq⟩ := Option.map_eq_some_iff.mp hreply
        obtain rfl := addr_of_allocate4 halloc
        obtain ⟨rfl, rfl⟩ := Prod.mk.inj heq
        exact .grantLease h hdhcp c override (.inr ⟨hnone, halloc⟩)
    · obtain ⟨rfl, rfl⟩ := Prod.mk.inj (Option.some.inj hreply)
      exact .same rfl (.refl _) (by simp)

theorem CallEffect.requestReply (h : CallInv s call) (hdhcp : call.mess.messType.isSome = true)
    (hreply : requestReply env world s call = some (s', answer)) :
    CallEffect env s call.mess call.arrival.now s' answer := by
  have hdone : ∀ {a : DhcpAnswer}, (∀ yiaddr id, a ≠ .ack yiaddr id) →
    some (s, a) = some (s', answer) →
      CallEffect env s call.mess call.arrival.now s' answer := fun hack heq ↦ by
    obtain ⟨rfl, rfl⟩ := Prod.mk.inj (Option.some.inj heq)
    exact .same rfl (.refl _) hack
  unfold Dnsmasq.requestReply at hreply
  dsimp only at hreply
  by_cases hsilent : call.ignore ∨ call.disabled
  · rw [if_pos hsilent] at hreply
    exact hdone (by simp) hreply
  rw [if_neg hsilent] at hreply
  split at hreply
  · -- SELECTING
    next yiaddr id _ _ =>
    cases hfilter : call.lease.filter fun lease ↦ lease.addr ≠ yiaddr with
    | none =>
      rw [hfilter] at hreply
      have hlease : ∀ l, call.lease = some l → l ∈ s.table.leases ∧ l.addr = yiaddr := by
        intro l hl
        refine ⟨h.lease l hl, ?_⟩
        rw [hl] at hfilter
        simpa using hfilter
      split at hreply
      · exact hdone (by simp) hreply
      · exact .settleRequest h.toClientInv hdhcp hlease hreply
      · exact hdone (by simp) hreply
    | some lease =>
      rw [hfilter] at hreply
      split at hreply
      · exact hdone (by simp) hreply
      · exact .prune (.settleRequest h.toClientInv hdhcp (by simp) hreply)
      · obtain ⟨rfl, rfl⟩ := Prod.mk.inj (Option.some.inj hreply)
        exact .prune (.same rfl (.refl _) (by simp))
  · -- INIT-REBOOT
    next yiaddr _ _ =>
    split at hreply
    · split_ifs at hreply
      · exact .settleRequest h.toClientInv hdhcp (by simp) hreply
      · exact hdone (by simp) hreply
    · next lease hlease =>
      split_ifs at hreply with haddr
      · exact hdone (by simp) hreply
      · refine .settleRequest h.toClientInv hdhcp (fun l hl ↦ ?_) hreply
        obtain rfl := Option.some.inj hl
        exact ⟨h.lease _ hlease, not_not.mp haddr⟩
  · -- RENEWING
    split_ifs at hreply with hrefused hunicast
    · exact hdone (by simp) hreply
    · exact hdone (by simp) hreply
    · refine .settleRequest h.toClientInv hdhcp (fun l hl ↦ ⟨h.lease l hl, ?_⟩) hreply
      rw [hl, Option.elim_some, decide_eq_true_eq, not_not] at hrefused
      exact hrefused.symm

/-! ### The client of a request -/

theorem bestWildcard_mem {contexts : Contexts}
    {hwType : ℕ} {config : HostConfig}
    (hbest : bestWildcard contexts chain configs hwaddr hwType = some config) :
    config ∈ configs := by
  -- both loops keep that the best match so far is one of the hosts
  have hinner : ∀ (other : HostConfig) (confs : List HwaddrConfig) (best : ℕ × Option HostConfig),
      other ∈ configs → (∀ c, best.2 = some c → c ∈ configs) →
      ∀ c, (confs.foldl (fun best conf ↦ if best.1 < wildcardMatch hwaddr hwType conf then
        (wildcardMatch hwaddr hwType conf, some other) else best) best).2 = some c →
          c ∈ configs := by
    intro other confs best hother hmem
    refine List.foldlRecOn (motive := fun best : ℕ × Option HostConfig ↦ ∀ c, best.2 = some c →
      c ∈ configs) confs _ hmem ?_
    intro best hmem conf _ c
    split_ifs
    · exact fun heq ↦ Option.some.inj heq ▸ hother
    · exact hmem c
  refine List.foldlRecOn (motive := fun best : ℕ × Option HostConfig ↦ ∀ c, best.2 = some c →
    c ∈ configs) configs _ ?_ ?_ config hbest
  · exact fun c h ↦ absurd h (by simp)
  intro best hmem other hother c
  split_ifs
  · exact hinner other other.hwaddr best hother hmem c
  · exact hmem c

theorem findConfig_mem {contexts : Contexts} {clid : Option (List UInt8)}
    {hwType : ℕ} {hostname : Option (List UInt8)} {config : HostConfig}
    (hfind : findConfig contexts chain configs clid hwaddr hwType hostname = some config) :
    config ∈ configs := by
  rcases Option.or_eq_some_iff.mp hfind with hclid | ⟨-, hfind⟩
  · obtain ⟨_, -, hclid⟩ := Option.bind_eq_some_iff.mp hclid
    exact List.mem_of_find?_eq_some hclid
  · rcases Option.or_eq_some_iff.mp hfind with hmac | ⟨-, hfind⟩
    · exact List.mem_of_find?_eq_some hmac
    · rcases Option.or_eq_some_iff.mp hfind with hname | ⟨-, hbest⟩
      · obtain ⟨_, -, hname⟩ := Option.bind_eq_some_iff.mp hname
        exact List.mem_of_find?_eq_some hname
      · exact bestWildcard_mem hbest

theorem length_fqdnLabels_le (fuel : ℕ) : ∀ name : List UInt8,
    (fqdnLabels fuel name).length ≤ name.length := by
  induction fuel with
  | zero => exact fun name ↦ by simp [fqdnLabels]
  | succ fuel ih =>
    intro name
    cases name with
    | nil => simp [fqdnLabels]
    | cons l rest =>
      unfold fqdnLabels
      split_ifs with hend
      · simp
      · have hrest := ih (rest.drop l.toNat)
        rw [List.length_drop] at hrest
        simp only [List.length_append, List.length_take, List.length_cons, List.length_nil]
        omega

theorem length_fqdnName_le (option : List UInt8) : (fqdnName option).length ≤ option.length := by
  have hdrop : (option.drop 3).length ≤ option.length := by
    rw [List.length_drop]
    omega
  unfold fqdnName
  split_ifs
  · rw [List.length_dropLast]
    exact (Nat.sub_le _ _).trans ((length_fqdnLabels_le _ _).trans hdrop)
  · exact hdrop

theorem length_checkName_le {name checked : List UInt8} (hcheck : checkName name = some checked) :
    checked.length ≤ name.length := by
  unfold checkName at hcheck
  dsimp only at hcheck
  split_ifs at hcheck
  · rw [← Option.some.inj hcheck, List.length_dropLast]
    exact Nat.sub_le _ _
  · rw [Option.some.inj hcheck]

theorem clientHostname_ok
    (hname : (clientHostname mess).map hostPart = some name) : LeaseNameOk configs name := by
  obtain ⟨legal, hlegal, rfl⟩ := Option.map_eq_some_iff.mp hname
  have hlegalOk : ∀ raw : List UInt8, raw.length ≤ 255 → legalHostname (cString raw) = some legal →
      LeaseNameOk configs (hostPart legal) := by
    intro raw hraw hlegal
    refine .inr ⟨all_hostPart_legal hlegal, ?_⟩
    have hcheck := length_checkName_le (Option.filter_eq_some_iff.mp hlegal).1
    have hpart : (hostPart legal).length ≤ legal.length := (List.takeWhile_sublist _).length_le
    have hstring : (cString raw).length ≤ raw.length := (List.takeWhile_sublist _).length_le
    omega
  unfold clientHostname at hlegal
  split at hlegal
  · next option _ => exact hlegalOk _ ((length_fqdnName_le _).trans option.property.2) hlegal
  · next option _ _ => exact hlegalOk _ option.property.2 hlegal
  · exact absurd hlegal (by simp)

theorem ClientInv.clientHost (h : ClientInv s.configs call) :
    ClientInv s.configs (clientHost s call) := by
  unfold Dnsmasq.clientHost
  split
  · next name hname =>
    obtain ⟨config, hconfig, hhost⟩ := Option.bind_eq_some_iff.mp hname
    refine { h with hostname := fun n hn ↦ ?_ }
    obtain rfl := Option.some.inj hn
    exact .inl ⟨config, h.config config hconfig, hhost⟩
  · split
    · exact h
    · exact h
    · next first rest hname =>
      refine ⟨h.clid, h.identifier, fun config hconfig ↦ ?_, fun n hn ↦ ?_⟩
      · dsimp only at hconfig
        split_ifs at hconfig
        · exact h.config config hconfig
        · exact findConfig_mem (Option.filter_eq_some_iff.mp hconfig).1
      · obtain rfl := Option.some.inj hn
        exact clientHostname_ok hname

theorem CallInv.completeCall (h : CallInv s call) : CallInv s (completeCall env s call) := by
  have hclient := h.toClientInv.clientHost
  have hlease : (clientHost s call).lease = call.lease := by
    unfold Dnsmasq.clientHost
    split
    · rfl
    · split <;> rfl
  refine
    { clid := fun c hc ↦ ?_, config := hclient.config, hostname := hclient.hostname,
      identifier := ?_, lease := ?_ }
  · unfold Dnsmasq.completeCall at hc
    dsimp only at hc
    split_ifs at hc
    exact hclient.clid c hc
  · intro hdhcp c hc
    unfold Dnsmasq.completeCall
    dsimp only
    split_ifs with hnoclid
    · obtain ⟨config, hconfig, hno⟩ := (Option.any_eq_true _ _).mp hnoclid
      exact .inr ⟨config, hclient.config config hconfig, hno⟩
    · exact hclient.identifier hdhcp c hc
  · unfold Dnsmasq.completeCall
    rw [hlease]
    exact h.lease

theorem completeCall_mess : (completeCall env s call).mess = call.mess ∧
    (completeCall env s call).arrival = call.arrival := by
  have hclient : (clientHost s call).mess = call.mess ∧
    (clientHost s call).arrival = call.arrival := by
    unfold Dnsmasq.clientHost
    split
    · exact ⟨rfl, rfl⟩
    · split <;> exact ⟨rfl, rfl⟩
  exact hclient

theorem CallEffect.typedReply (h : CallInv s call)
    (hreply : typedReply env world s call = some (s', answer)) :
    CallEffect env s call.mess call.arrival.now s' answer := by
  have hdone : ∀ {last : DhcpState} {a : DhcpAnswer},
    CallEffect env s call.mess call.arrival.now last a →
      some (last, a) = some (s', answer) → CallEffect env s call.mess call.arrival.now s' answer :=
        fun heffect heq ↦ by
    obtain ⟨rfl, rfl⟩ := Prod.mk.inj (Option.some.inj heq)
    exact heffect
  have hsilent : CallEffect env s call.mess call.arrival.now s .silence :=
    .same rfl (.refl _) (by simp)
  unfold Dnsmasq.typedReply at hreply
  split at hreply
  · next pxe hpxe =>
    refine hdone (.same rfl (.refl _) fun yiaddr id heq ↦ ?_) hreply
    subst heq
    unfold pxeAnswer at hpxe
    dsimp only at hpxe
    split at hpxe
    · exact absurd hpxe (by simp)
    · split at hpxe
      · split at hpxe <;> simp at hpxe
      · split at hpxe
        · split at hpxe <;> simp at hpxe
        · exact absurd hpxe (by simp)
  · dsimp only at hreply
    split at hreply
    · exact hdone hsilent hreply
    split at hreply
    · exact hdone .declineReply hreply
    split at hreply
    · exact hdone .releaseReply hreply
    split at hreply
    · exact hdone .discoverReply hreply
    split at hreply
    · next htype =>
      have hdhcp : call.mess.messType.isSome = true := by
        cases hmess : call.mess.messType with
        | none => exact absurd htype (by simp [hmess, dhcpRequest])
        | some type => rfl
      exact .requestReply h hdhcp hreply
    split at hreply
    · exact hdone .informReply hreply
    · exact hdone hsilent hreply

theorem dhcpReply_change {arrival : Arrival}
    (hclids : ∀ lease ∈ s.table.leases, ∀ c, lease.clid = some c → ClidLike c)
    (hreply : dhcpReply env world s arrival mess = some (s', answer)) :
    CallEffect env s mess arrival.now s' answer := by
  have hdone : ∀ contexts : Contexts, some ({ s with contexts := contexts }, DhcpAnswer.silence) =
    some (s', answer) →
      CallEffect env s mess arrival.now s' answer := fun contexts heq ↦ by
    obtain ⟨rfl, rfl⟩ := Prod.mk.inj (Option.some.inj heq)
    exact .same rfl (.refl _) (by simp)
  unfold dhcpReply at hreply
  by_cases hrejected : mess.rejected = true
  · rw [if_pos hrejected] at hreply
    exact hdone s.contexts hreply
  rw [if_neg hrejected] at hreply
  dsimp only at hreply
  generalize determineNetwork env s.contexts arrival _ mess.giaddr _ = network at hreply
  obtain ⟨contexts, chain⟩ := network
  generalize hlease : (if mess.messType.isSome = true then
    s.table.findByClient mess.chaddr mess.htype.toNat (mess.clientId.map Subtype.val) else none) =
      lease at hreply
  have hmem : ∀ l, lease = some l → l ∈ s.table.leases := by
    intro l hl
    rw [hl] at hlease
    split_ifs at hlease
    exact mem_of_findByClient hlease
  generalize hclid : (if mess.messType.isSome = true then
    (mess.clientId.map Subtype.val).or (lease.bind Lease.clid) else none) = clid at hreply
  have hclidLike : ∀ c, clid = some c → ClidLike c := by
    intro c hc
    rw [hc] at hclid
    split_ifs at hclid
    rcases Option.or_eq_some_iff.mp hclid with hoption | ⟨-, hold⟩
    · obtain ⟨option, -, rfl⟩ := Option.map_eq_some_iff.mp hoption
      exact option.property
    · obtain ⟨l, hl, hold⟩ := Option.bind_eq_some_iff.mp hold
      exact hclids l (hmem l hl) c hold
  by_cases hchain : chain = []
  · rw [if_pos hchain] at hreply
    exact hdone contexts hreply
  rw [if_neg hchain] at hreply
  have hinv : ∀ call : DhcpCall, call.clid = clid → call.lease = lease → call.hostname = none →
      call.config = findConfig contexts chain s.configs clid mess.chaddr mess.htype.toNat none →
        call.mess = mess →
      CallInv { s with contexts := contexts } call := by
    intro call hcallClid hcallLease hcallName hcallConfig hcallMess
    refine { clid := ?_, identifier := ?_, lease := ?_, hostname := ?_, config := ?_ }
    · rw [hcallClid]
      exact hclidLike
    · rw [hcallMess, hcallClid]
      intro hdhcp c hc
      rw [if_pos hdhcp, hc] at hclid
      exact .inl hclid.symm
    · rw [hcallConfig]
      exact fun config hconfig ↦ findConfig_mem hconfig
    · rw [hcallName]
      simp
    · rw [hcallLease]
      exact hmem
  -- only the ranges were changed so far
  have hbefore : CallEffect env { s with contexts := contexts } mess arrival.now s' answer →
      CallEffect env s mess arrival.now s' answer := fun heffect ↦ ⟨heffect.change, heffect.hosts⟩
  refine hbefore ?_
  by_cases hbootp : mess.messType.getD 0 = 0 ∧ arrival.pxe = false
  · rw [if_pos hbootp] at hreply
    exact CallEffect.bootpReply (hinv _ rfl rfl rfl rfl rfl) hreply
  · rw [if_neg hbootp] at hreply
    have heffect := CallEffect.typedReply (hinv _ rfl rfl rfl rfl rfl).completeCall hreply
    rwa [completeCall_mess.1, completeCall_mess.2] at heffect

end Changes

end CrossBreeder.Dnsmasq
