import CrossBreeder.Dnsmasq.DhcpReply

/-!
# The addresses of the server

The source compares an address with that of the server in three loops over the ranges of a network:
in `address_available`, and for the address of a host in a DHCPDISCOVER and in a DHCPREQUEST. The
body of each loop looks at the first range instead of the one that the loop is at (`serverLoop`), so
that the address which the server has in another range is not noticed.
-/

namespace CrossBreeder.Dnsmasq

/-- The loop as the source has it three times. `context` is the first range. -/
def serverLoop (contexts : Contexts) (context : ℕ) (addr : UInt32) (chain : List ℕ) : Option ℕ :=
  chain.find? fun _ ↦ (contexts context).router = addr

def IsServer (contexts : Contexts) (chain : List ℕ) (addr : UInt32) : Prop := ∃ c ∈ chain,
    (contexts c).router = addr

def OnlyLater (contexts : Contexts) (chain : List ℕ) (addr : UInt32) : Prop :=
  IsServer contexts chain addr ∧ chain.head?.all (fun c ↦ (contexts c).router ≠ addr) = true

def InRange (contexts : Contexts) (chain : List ℕ) (addr : UInt32) (tags : List Tag) : Prop :=
  ∃ c ∈ chain, (contexts c).offers addr = true ∧ matchNetid (contexts c).filter tags true = true

/-- Nothing but the server can keep the address of the host from being offered: it is not leased to
another client, and it was not declined. -/
def Offerable (s : DhcpState) (call : DhcpCall) (addr : UInt32) : Prop :=
  ∃ config, call.config = some config ∧ config.addr = some addr ∧ addr ≠ 0 ∧
    ¬(config.declined = true ∧ call.arrival.now < config.declineTime + declineBackoff) ∧
    ∀ ltmp, s.table.findByAddr addr = some ltmp →
      call.lease.map Lease.number = some ltmp.number ∨
        configHasMac config ltmp.hwaddr ltmp.hwaddrType = true

/-- Nothing but the server can keep the address of the host from being waited for. -/
def Awaitable (s : DhcpState) (call : DhcpCall) (lease : Option Lease) (yiaddr addr : UInt32) :
    Prop :=
  ∃ config, call.config = some config ∧ config.addr = some addr ∧ addr ≠ yiaddr ∧
    ¬(config.declined = true ∧ call.arrival.now ≤ config.declineTime + declineBackoff) ∧
    ∀ ltmp, s.table.findByAddr addr = some ltmp → lease.map Lease.number = some ltmp.number

/-- An address that the server has in any of the ranges is not available, it is not offered as the
address of a host, and no client has to wait for it. -/
structure ServerRefused (s : DhcpState) (call : DhcpCall) (tags : List Tag) (lease : Option Lease)
    (yiaddr addr : UInt32) : Prop where
  available : IsServer s.contexts call.chain addr →
    addressAvailable s.contexts call.chain addr tags = none
  discover : IsServer s.contexts call.chain addr → configOffer s call ≠ some addr
  request : IsServer s.contexts call.chain addr → call.configAddr = some addr →
    staticWaits s call call.chain lease yiaddr = false

/-! ### The loop -/

variable {contexts : Contexts} {context : ℕ} {chain : List ℕ} {addr : UInt32} {tags : List Tag}

theorem serverLoop_eq_none_iff :
    serverLoop contexts context addr (context :: chain) = none ↔
      (contexts context).router ≠ addr := by
  rw [serverLoop, List.find?_eq_none]
  constructor
  · exact fun h ↦ by simpa using h context List.mem_cons_self
  · exact fun h _ _ ↦ by simpa using h

theorem addressAvailable_eq (contexts : Contexts) (context : ℕ) (chain : List ℕ) (addr : UInt32)
    (tags : List Tag) : addressAvailable contexts (context :: chain) addr tags =
      match serverLoop contexts context addr (context :: chain) with
      | some _ => none
      | none => (context :: chain).find? fun c ↦ (contexts c).offers addr ∧
        matchNetid (contexts c).filter tags true := by
  rw [addressAvailable]
  cases hloop : serverLoop contexts context addr (context :: chain) with
  | none => rw [if_neg fun heq ↦ serverLoop_eq_none_iff.mp hloop heq.symm]
  | some c =>
    have hfirst : (contexts context).router = addr := by
      by_contra hne
      rw [serverLoop_eq_none_iff.mpr hne] at hloop
      cases hloop
    rw [if_pos hfirst.symm]

/-! ### What is refused -/

theorem addressAvailable_eq_none_iff : addressAvailable contexts chain addr tags = none ↔
    chain.head?.all (fun c ↦ (contexts c).router ≠ addr) =
      false ∨ ¬ InRange contexts chain addr tags := by
  cases chain with
  | nil => simp [addressAvailable, InRange]
  | cons first rest =>
    rw [addressAvailable_eq, InRange]
    cases hloop : serverLoop contexts first addr (first :: rest) with
    | some c =>
      have hfirst : (contexts first).router = addr := by
        by_contra hne
        rw [serverLoop_eq_none_iff.mpr hne] at hloop
        cases hloop
      simp [hfirst]
    | none =>
      have hfirst := serverLoop_eq_none_iff.mp hloop
      rw [List.find?_eq_none]
      simp [hfirst]

variable {s : DhcpState} {call : DhcpCall} {lease : Option Lease} {yiaddr : UInt32}

theorem configOffer_eq_some_iff : configOffer s call = some addr ↔
    call.chain.head?.all (fun c ↦ (s.contexts c).router ≠ addr) = true ∧ Offerable s call addr := by
  rw [configOffer, Offerable, Option.bind_eq_some_iff]
  constructor
  · rintro ⟨config, hconfig, hoffer⟩
    obtain ⟨haddr, hchecks⟩ := Option.filter_eq_some_iff.mp hoffer
    obtain ⟨hleased, hserver, hdeclined, hzero⟩ := of_decide_eq_true hchecks
    refine ⟨hserver, config, hconfig, haddr, hzero, hdeclined, fun ltmp hltmp ↦ ?_⟩
    rw [hltmp] at hleased
    simpa using hleased
  · rintro ⟨hserver, config, hconfig, haddr, hzero, hdeclined, hleased⟩
    refine ⟨config, hconfig,
      Option.filter_eq_some_iff.mpr ⟨haddr, decide_eq_true ⟨?_, hserver, hdeclined, hzero⟩⟩⟩
    cases hltmp : s.table.findByAddr addr with
    | none => rfl
    | some ltmp => simpa using hleased ltmp hltmp

theorem staticWaits_iff (hconf : call.configAddr = some addr) :
    staticWaits s call chain lease yiaddr = true ↔
    chain.head?.all (fun c ↦ (s.contexts c).router ≠ addr) =
      true ∧ Awaitable s call lease yiaddr addr := by
  obtain ⟨config, hconfig, haddr⟩ := Option.bind_eq_some_iff.mp hconf
  rw [staticWaits, Awaitable, hconfig, Option.any_some, haddr, Option.any_some, decide_eq_true_iff]
  constructor
  · rintro ⟨hserver, hdeclined, hother, hleased⟩
    refine ⟨hserver, config, rfl, haddr, hother, hdeclined, fun ltmp hltmp ↦ ?_⟩
    rw [hltmp] at hleased
    simpa using hleased
  · rintro ⟨hserver, config', hconfig', -, hother, hdeclined, hleased⟩
    cases hconfig'
    refine ⟨hserver, hdeclined, hother, ?_⟩
    cases hltmp : s.table.findByAddr addr with
    | none => rfl
    | some ltmp => simpa using hleased ltmp hltmp

theorem onlyLater_iff (h : IsServer contexts chain addr) :
    OnlyLater contexts chain addr ↔ chain.head?.all (fun c ↦ (contexts c).router ≠ addr) = true :=
  and_iff_right h

/-- The address of the server in any range is refused, unless it is the address in a later range
only and the checks for ranges, hosts and leases let it pass. -/
theorem serverRefused_iff (s : DhcpState) (call : DhcpCall) (tags : List Tag) (lease : Option Lease)
    (yiaddr addr : UInt32) :
    ServerRefused s call tags lease yiaddr addr ↔ (OnlyLater s.contexts call.chain addr →
      ¬ InRange s.contexts call.chain addr tags ∧ ¬ Offerable s call addr ∧
        ¬ (call.configAddr = some addr ∧ Awaitable s call lease yiaddr addr)) := by
  constructor
  · rintro ⟨havailable, hdiscover, hrequest⟩ ⟨hserver, hlater⟩
    refine ⟨?_, ?_, ?_⟩
    · have hnone := addressAvailable_eq_none_iff.mp (havailable hserver)
      rw [hlater] at hnone
      exact hnone.resolve_left Bool.noConfusion
    · exact fun hoffer ↦ hdiscover hserver (configOffer_eq_some_iff.mpr ⟨hlater, hoffer⟩)
    · rintro ⟨hconf, hwaits⟩
      exact Bool.noConfusion
        ((hrequest hserver hconf).symm.trans ((staticWaits_iff hconf).mpr ⟨hlater, hwaits⟩))
  · intro h
    refine ⟨fun hserver ↦ ?_, fun hserver hoffer ↦ ?_, fun hserver hconf ↦ ?_⟩
    · rw [addressAvailable_eq_none_iff, ← Bool.not_eq_true, ← onlyLater_iff hserver]
      by_cases hlater : OnlyLater s.contexts call.chain addr
      · exact Or.inr (h hlater).1
      · exact Or.inl hlater
    · obtain ⟨hlater, hoffer⟩ := configOffer_eq_some_iff.mp hoffer
      exact (h ⟨hserver, hlater⟩).2.1 hoffer
    · by_contra hwaits
      obtain ⟨hlater, hwaits⟩ := (staticWaits_iff hconf).mp (by simpa using hwaits)
      exact (h ⟨hserver, hlater⟩).2.2 ⟨hconf, hwaits⟩

/-- Two ranges on one network, each from the address of the server in it on. -/
def sharedRanges (c : ℕ) : Context :=
  { start := if c = 0 then 0xc0a80001 else 0xc0a80101, endAddr := if c = 0 then 0xc0a80032
    else 0xc0a80132
    netmask := 0xffffff00, broadcast := if c = 0 then 0xc0a800ff else 0xc0a801ff
    localAddr := if c = 0 then 0xc0a80001 else 0xc0a80101, router :=
      if c = 0 then 0xc0a80001 else 0xc0a80101
    leaseTime := 3600, addrEpoch := 0, isStatic := false, isProxy := false, hasNetmask :=
      true, hasBroadcast := true
    netid := none, filter := [] }

/-- A DHCPDISCOVER on that network. -/
def sharedCall : DhcpCall :=
  { arrival := ⟨[0, 1], 0xc0a80001, false, false, 1000⟩
    mess :=
      { bootRequest := true, htype := 1, chaddr := [2, 0, 0, 0, 0, 1], ciaddr := 0, giaddr := 0,
        cookie := true
        messType := some dhcpDiscover, requestedIp := none, serverIdentifier := none, clientId :=
          none, subnetAddr := 0
        serverOverride := 0, leaseTime := none, clientFqdn := none, hostname := none, file :=
          none, tags := []
        pxeClient := false, bootItem := none, arch := false }
    ciaddr := 0, override := 0, clid := none, lease := none, emac := [2, 0, 0, 0, 0, 1], chain :=
      [0, 1], config := none
    netid := [], tagif := [], ignore := false, hostname := none, hostnameAuth := false }

/-- The address of the server in the second range is available. -/
theorem not_serverRefused_shared :
    ¬ ServerRefused ⟨.empty 10, sharedRanges, [], []⟩ sharedCall [] none 0 0xc0a80101 := by
  intro h
  have havailable : addressAvailable sharedRanges [0, 1] 0xc0a80101 [] = some 1 := by decide
  have hnone : addressAvailable sharedRanges [0, 1] 0xc0a80101 [] = none :=
    h.available ⟨1, by simp [sharedCall], by decide⟩
  rw [havailable] at hnone
  cases hnone

end CrossBreeder.Dnsmasq
