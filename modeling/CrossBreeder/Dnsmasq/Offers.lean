import CrossBreeder.Dnsmasq.LeaseOwners

/-!
# Offers

Whether an offer is honoured: a client that asks for the address it was just offered, with the
identifier of the server that offered it, is sent a `DHCPACK`. `DHCPDISCOVER` and `DHCPREQUEST`
decide in different ways whether a client can have an address, and the two do not agree always.
`offer_honoured_iff` says when they do: the client is known by something, no other host of the
configuration has the address, and the range that is found for the request hands it out.
`not_honoured_anonymous` is a client that is known by nothing, which gets an offer for what it asks
for and is refused then.
-/

namespace CrossBreeder.Dnsmasq

open Foundation

/-! ### Ranges without their epochs -/

def still (contexts : Contexts) : Contexts := fun c ↦ { contexts c with addrEpoch := 0 }

theorem still_bumpEpoch (contexts : Contexts) (c : ℕ) :
    still (bumpEpoch contexts c) = still contexts := by
  funext other
  unfold still bumpEpoch
  by_cases hother : other = c
  · subst hother
    rw [Function.update_self]
  · rw [Function.update_of_ne hother]

theorem still_tryAddress (alloc : AllocEnv) (c : ℕ) (addr : UInt32) (s : AllocState) :
    still (tryAddress alloc c addr s).1.contexts = still s.contexts := by
  unfold tryAddress
  split
  · rfl
  · rfl
  · split_ifs
    · rfl
    · exact still_bumpEpoch _ _
    · rfl

theorem still_rangeLoop (alloc : AllocEnv) (c : ℕ) (start : UInt32) (fuel : ℕ) :
    ∀ (addr : UInt32) (s : AllocState),
    still (rangeLoop alloc c start fuel addr s).1.contexts = still s.contexts := by
  induction fuel with
  | zero => exact fun _ _ ↦ rfl
  | succ fuel ih =>
    intro addr s
    unfold rangeLoop
    have htried : still (if addressFree s.contexts alloc.chain alloc.table alloc.configs addr =
      true then
        tryAddress alloc c addr s else (s, false)).1.contexts = still s.contexts := by
      split_ifs
      · exact still_tryAddress _ _ _ _
      · rfl
    generalize (if addressFree s.contexts alloc.chain alloc.table alloc.configs addr = true then
      tryAddress alloc c addr s else (s, false)) = tried at htried
    obtain ⟨tried, _ | _⟩ := tried
    · dsimp only
      split_ifs
      · exact htried
      · exact (ih _ _).trans htried
    · exact htried

theorem still_contextLoop (alloc : AllocEnv) (pass : Bool) (chain : List ℕ) : ∀ s : AllocState,
    still (contextLoop alloc pass chain s).1.contexts = still s.contexts := by
  induction chain with
  | nil => exact fun _ ↦ rfl
  | cons c rest ih =>
    intro s
    unfold contextLoop
    dsimp only
    split_ifs
    · exact ih s
    · have hrange := still_rangeLoop alloc c (rangeStart alloc (s.contexts c))
        (((s.contexts c).endAddr - (s.contexts c).start).toNat + 1)
          (rangeStart alloc (s.contexts c)) s
      generalize rangeLoop alloc c (rangeStart alloc (s.contexts c))
        (((s.contexts c).endAddr - (s.contexts c).start).toNat + 1)
          (rangeStart alloc (s.contexts c)) s = ranged
        at hrange
      obtain ⟨ranged, _ | _⟩ := ranged
      · exact (ih _).trans hrange
      · exact hrange

variable {env : DhcpEnv}

variable {s : DhcpState}

variable {world : DhcpWorld}

theorem still_allocateAddress (chain : List ℕ)
    (hwaddr : List UInt8) (tags : List Tag) (now : ℕ) :
    still (s.allocateAddress env world chain hwaddr tags now).1.contexts = still s.contexts := by
  unfold DhcpState.allocateAddress addressAllocate
  generalize hloop : contextLoop _ false chain ⟨s.contexts, s.pings⟩ = first
  have hfirst : still first.1.contexts = still s.contexts := by
    rw [← hloop]
    exact still_contextLoop _ _ _ _
  obtain ⟨first, _ | addr⟩ := first
  · exact (still_contextLoop _ _ _ _).trans hfirst
  · exact hfirst

section Still

variable {left right : Contexts} (hsame : still left = still right)

theorem eq_of_still {α : Type*} {f : Contexts → α}
    (hf : ∀ contexts, f (still contexts) = f contexts) (hsame : still left = still right) :
    f left = f right := by
  rw [← hf left, hsame, hf]

include hsame

theorem addressAvailable_of_still : addressAvailable left = addressAvailable right :=
  eq_of_still (fun _ ↦ rfl) hsame

theorem narrowContext_of_still : narrowContext left = narrowContext right :=
  eq_of_still (fun _ ↦ rfl) hsame

theorem findConfig_of_still : findConfig left = findConfig right :=
  eq_of_still (fun _ ↦ rfl) hsame

end Still

/-! ### The network of a client -/

section Network

variable (addr fallback giaddr : UInt32)

def onRelay (contexts : Contexts) (c : ℕ) :
    Bool := onNetwork addr (guessNetmask (contexts c)) (contexts c)

theorem guessNetmask_fillContext (c : Context) : guessNetmask (fillContext c fallback giaddr) =
    guessNetmask c := by
  by_cases hmissing : c.hasNetmask = false ∧ c.netmask = 0
  · by_cases hagain : c.hasNetmask = false ∧ guessNetmask c = 0
    · calc guessNetmask (fillContext c fallback giaddr)
          = if inClassA c.start ∧ inClassA c.endAddr then 0xff000000
            else if inClassB c.start ∧ inClassB c.endAddr then 0xffff0000
            else if inClassC c.start ∧ inClassC c.endAddr then 0xffffff00
            else 0 := if_pos hagain
        _ = guessNetmask c := (if_pos hmissing).symm
    · exact if_neg hagain
  · have hguess : guessNetmask c = c.netmask := if_neg hmissing
    exact if_neg fun hagain ↦ hmissing ⟨hagain.1, hguess ▸ hagain.2⟩

theorem fillContext_fillContext (c : Context) :
    fillContext (fillContext c fallback giaddr) fallback giaddr =
      fillContext c fallback giaddr := by
  -- what is filled in is there afterwards, or it is the same again
  have hlocal : (if (fillContext c fallback giaddr).localAddr = 0 then fallback
      else (fillContext c fallback giaddr).localAddr) =
        (fillContext c fallback giaddr).localAddr := by
    unfold fillContext
    split_ifs <;> rfl
  have hrouter : (if (fillContext c fallback giaddr).router = 0 then giaddr
      else (fillContext c fallback giaddr).router) = (fillContext c fallback giaddr).router := by
    unfold fillContext
    split_ifs <;> rfl
  have hbroadcast : (if (fillContext c fallback giaddr).hasBroadcast = false ∧
      (fillContext c fallback giaddr).broadcast = 0 then c.start ||| ~~~ guessNetmask c
      else (fillContext c fallback giaddr).broadcast) =
        (fillContext c fallback giaddr).broadcast := by
    unfold fillContext
    by_cases hmissing : c.hasBroadcast = false ∧ c.broadcast = 0
    · simp only [if_pos hmissing, ite_self]
    · simp only [if_neg hmissing]
  have hnetmask := guessNetmask_fillContext fallback giaddr c
  calc fillContext (fillContext c fallback giaddr) fallback giaddr
      = { fillContext c fallback giaddr with
          netmask := guessNetmask (fillContext c fallback giaddr)
          localAddr := if (fillContext c fallback giaddr).localAddr = 0 then fallback
            else (fillContext c fallback giaddr).localAddr
          router := if (fillContext c fallback giaddr).router = 0 then giaddr
            else (fillContext c fallback giaddr).router
          broadcast := if (fillContext c fallback giaddr).hasBroadcast = false ∧
              (fillContext c fallback giaddr).broadcast = 0 then
              c.start ||| ~~~ guessNetmask (fillContext c fallback giaddr)
            else (fillContext c fallback giaddr).broadcast } := rfl
    _ = fillContext c fallback giaddr := by
      rw [hnetmask, hlocal, hrouter, hbroadcast]
      rfl

theorem onRelay_fillContext (c : Context) :
    onNetwork addr (guessNetmask (fillContext c fallback giaddr)) (fillContext c fallback giaddr) =
      onNetwork addr (guessNetmask c) c := by
  rw [guessNetmask_fillContext]
  rfl

/-- The ranges after a look at the network of a relay. -/
def relayed (contexts : Contexts) (dhcp : List ℕ) : Contexts := fun c ↦
  if c ∈ dhcp ∧ onRelay addr contexts c then fillContext (contexts c) fallback giaddr
    else contexts c

theorem onRelay_relayed (contexts : Contexts) (dhcp : List ℕ) :
    onRelay addr (relayed addr fallback giaddr contexts dhcp) = onRelay addr contexts := by
  funext c
  unfold onRelay relayed
  split_ifs
  · exact onRelay_fillContext addr fallback giaddr (contexts c)
  · rfl

theorem relayedChain_eq (dhcp : List ℕ) : ∀ (contexts : Contexts) (chain : List ℕ),
    relayedChain addr fallback giaddr dhcp contexts chain =
      (relayed addr fallback giaddr contexts dhcp, (dhcp.filter (onRelay addr contexts)).reverse ++
      chain) := by
  induction dhcp with
  | nil =>
    intro contexts chain
    refine congrArg (·, chain) (funext fun c ↦ ?_)
    simp [relayed]
  | cons c rest ih =>
    intro contexts chain
    unfold relayedChain
    by_cases hon : onNetwork addr (guessNetmask (contexts c)) (contexts c) = true
    · rw [if_pos hon, ih]
      have hrelay :
        onRelay addr (Function.update contexts c (fillContext (contexts c) fallback giaddr)) =
          onRelay addr contexts := by
        funext other
        unfold onRelay
        by_cases hother : other = c
        · subst hother
          rw [Function.update_self]
          exact onRelay_fillContext addr fallback giaddr (contexts other)
        · rw [Function.update_of_ne hother]
      have hfilter : (c :: rest).filter (onRelay addr contexts) =
        c :: rest.filter (onRelay addr contexts) :=
        List.filter_cons_of_pos hon
      rw [hrelay, hfilter, List.reverse_cons, List.append_assoc, List.singleton_append]
      refine congrArg (·, _) (funext fun other ↦ ?_)
      unfold relayed
      rw [hrelay]
      by_cases hother : other = c
      · subst hother
        rw [Function.update_self, fillContext_fillContext, ite_self,
          if_pos ⟨List.mem_cons_self, hon⟩]
      · rw [Function.update_of_ne hother]
        simp [hother]
    · have hfilter : (c :: rest).filter (onRelay addr contexts) =
        rest.filter (onRelay addr contexts) :=
        List.filter_cons_of_neg hon
      rw [if_neg hon, ih, hfilter]
      refine congrArg (·, _) (funext fun other ↦ ?_)
      unfold relayed
      by_cases hother : other = c
      · subst hother
        have hoff : onRelay addr contexts other = false := Bool.eq_false_iff.mpr hon
        rw [hoff]
        simp
      · simp [hother]

theorem relayedChain_again (dhcp : List ℕ) (contexts : Contexts) :
    relayedChain addr fallback giaddr dhcp (relayedChain addr fallback giaddr dhcp contexts []).1
      [] = relayedChain addr fallback giaddr dhcp contexts [] := by
  rw [relayedChain_eq, relayedChain_eq, onRelay_relayed]
  refine congrArg (·, _) (funext fun c ↦ ?_)
  by_cases hon : c ∈ dhcp ∧ onRelay addr contexts c = true
  · have hfilled : relayed addr fallback giaddr contexts dhcp c =
      fillContext (contexts c) fallback giaddr := if_pos hon
    have hagain : relayed addr fallback giaddr (relayed addr fallback giaddr contexts dhcp) dhcp c =
        fillContext (relayed addr fallback giaddr contexts dhcp c) fallback giaddr := by
      refine if_pos ⟨hon.1, ?_⟩
      rw [onRelay_relayed]
      exact hon.2
    rw [hagain, hfilled, fillContext_fillContext]
  · refine if_neg fun hagain ↦ hon ⟨hagain.1, ?_⟩
    have honRelay := hagain.2
    rwa [onRelay_relayed] at honRelay

theorem still_relayed (contexts : Contexts) (dhcp : List ℕ) :
    still (relayed addr fallback giaddr (still contexts) dhcp) =
      still (relayed addr fallback giaddr contexts dhcp) := by
  funext c
  by_cases hon : c ∈ dhcp ∧ onRelay addr contexts c = true
  · have hstill : relayed addr fallback giaddr (still contexts) dhcp c =
      fillContext (still contexts c) fallback giaddr :=
      if_pos hon
    have hplain : relayed addr fallback giaddr contexts dhcp c =
      fillContext (contexts c) fallback giaddr := if_pos hon
    unfold still at hstill ⊢
    rw [hstill, hplain]
    rfl
  · have hstill : relayed addr fallback giaddr (still contexts) dhcp c = still contexts c :=
      if_neg hon
    have hplain : relayed addr fallback giaddr contexts dhcp c = contexts c := if_neg hon
    unfold still at hstill ⊢
    rw [hstill, hplain]

/-- A later look at the network of a relay, when addresses were allocated in between. -/
theorem relayedChain_later (dhcp : List ℕ) {contexts later : Contexts}
    (hsame : still later = still (relayedChain addr fallback giaddr dhcp contexts []).1) :
    (relayedChain addr fallback giaddr dhcp later []).2 =
      (relayedChain addr fallback giaddr dhcp contexts []).2 ∧
      still (relayedChain addr fallback giaddr dhcp later []).1 =
        still (relayedChain addr fallback giaddr dhcp contexts []).1 := by
  have hfirst := relayedChain_again addr fallback giaddr dhcp contexts
  generalize relayedChain addr fallback giaddr dhcp contexts [] = first at hfirst hsame
  rw [relayedChain_eq] at hfirst ⊢
  have hon : onRelay addr later = onRelay addr first.1 := eq_of_still (fun _ ↦ rfl) hsame
  have hcontexts : relayed addr fallback giaddr first.1 dhcp = first.1 := congrArg Prod.fst hfirst
  refine ⟨?_, ?_⟩
  · have hchain := congrArg Prod.snd hfirst
    rw [hon]
    exact hchain
  · calc still (relayed addr fallback giaddr later dhcp)
        = still (relayed addr fallback giaddr first.1 dhcp) :=
          eq_of_still (f := fun contexts ↦ still (relayed addr fallback giaddr contexts dhcp))
            (fun contexts ↦ still_relayed addr fallback giaddr contexts dhcp) hsame
      _ = still first.1 := by rw [hcontexts]

end Network

variable {arrival : Arrival}

theorem determineNetwork_again {contexts later : Contexts}
    {subnetAddr giaddr : UInt32} (now : ℕ)
    (hsame : still later = still (determineNetwork env contexts arrival subnetAddr giaddr 0).1) :
    (determineNetwork env later { arrival with now := now } subnetAddr giaddr 0).2 =
        (determineNetwork env contexts arrival subnetAddr giaddr 0).2 ∧
      still (determineNetwork env later { arrival with now := now } subnetAddr giaddr 0).1 =
        still (determineNetwork env contexts arrival subnetAddr giaddr 0).1 := by
  unfold determineNetwork at hsame ⊢
  by_cases hsubnet : subnetAddr ≠ 0
  · simp only [if_pos hsubnet] at hsame ⊢
    exact relayedChain_later _ _ _ _ hsame
  by_cases hgiaddr : giaddr ≠ 0
  · simp only [if_neg hsubnet, if_pos hgiaddr] at hsame ⊢
    exact relayedChain_later _ _ _ _ hsame
  · simp only [if_neg hsubnet, if_neg hgiaddr] at hsame ⊢
    exact ⟨rfl, hsame⟩

/-! ### The client -/

/-- The request for an address that was offered. It is not one for a boot item, which is for a boot
server. -/
def DhcpRequest.accept (mess : DhcpRequest) (addr id : UInt32) : DhcpRequest :=
  { mess with
    messType := some dhcpRequest, requestedIp := some addr, serverIdentifier := some id,
      bootItem := none }

/-- What is known about a client without an address, once its network is. -/
def clientCall (s : DhcpState) (arrival : Arrival) (mess : DhcpRequest) (chain : List ℕ) :
    DhcpCall :=
  let clientId := mess.clientId.map Subtype.val
  let lease := s.table.findByClient mess.chaddr mess.htype.toNat clientId
  let clid := clientId.or (lease.bind Lease.clid)
  { arrival := arrival, mess := mess, ciaddr := 0, override := mess.serverOverride, clid := clid,
    lease := lease
    emac := extendedHwaddr mess.htype mess.chaddr clid, chain := chain
    config := findConfig s.contexts chain s.configs clid mess.chaddr mess.htype.toNat none
    netid := mess.tags, tagif := mess.tags, ignore := false, hostname := none,
      hostnameAuth := false }

/-- The state once the network of a client without an address is known. -/
def networkState (env : DhcpEnv) (s : DhcpState) (arrival : Arrival) (mess : DhcpRequest) :
    DhcpState :=
  { s with contexts := (determineNetwork env s.contexts arrival mess.subnetAddr mess.giaddr 0).1 }

/-- What is known about a client without an address. -/
def knownCall (env : DhcpEnv) (s : DhcpState) (arrival : Arrival) (mess : DhcpRequest) : DhcpCall :=
  completeCall env (networkState env s arrival mess)
    (clientCall (networkState env s arrival mess) arrival mess
    (determineNetwork env s.contexts arrival mess.subnetAddr mess.giaddr 0).2)

variable {mess : DhcpRequest}

theorem dhcpReply_known
    {type : ℕ} (hmess : mess.messType = some type) (htype : type ≠ 0)
    (hciaddr : mess.requestedIp.isSome = true ∨ type = dhcpDiscover)
    (hrejected : mess.rejected = false) : dhcpReply env world s arrival mess =
      if (determineNetwork env s.contexts arrival mess.subnetAddr mess.giaddr 0).2 = [] then
        some (networkState env s arrival mess, .silence)
      else typedReply env world (networkState env s arrival mess)
      (knownCall env s arrival mess) := by
  have hcond : mess.messType.isSome =
    true ∧ (mess.requestedIp.isSome = true ∨ mess.messType = some dhcpDiscover) := by
    refine ⟨by simp [hmess], hciaddr.imp_right fun heq ↦ ?_⟩
    rw [hmess, heq]
  have hdhcp : mess.messType.isSome = true := hcond.1
  have hbootp : ¬(mess.messType.getD 0 = 0 ∧ arrival.pxe = false) := by simp [hmess, htype]
  unfold dhcpReply
  simp only [hrejected, if_pos hcond, if_pos hdhcp, if_neg hbootp, Bool.false_eq_true, if_false]
  rfl

variable {call : DhcpCall}

section Accepting

variable {env : DhcpEnv} {s later : DhcpState} {arrival : Arrival} {mess : DhcpRequest}
    (addr id : UInt32) (now : ℕ)

theorem clientHost_accept (hcontexts : still later.contexts = still s.contexts)
    (hconfigs : later.configs = s.configs) (hmess : call.mess = mess) :
    clientHost later
      { call with mess := mess.accept addr id, arrival := { arrival with now := now } } =
      { clientHost s call with mess := mess.accept addr id, arrival := { arrival with
        now := now } } := by
  have hfind := findConfig_of_still hcontexts
  have hname : clientHostname (mess.accept addr id) = clientHostname call.mess := by rw [hmess]; rfl
  unfold clientHost
  rw [hname, hconfigs, hfind]
  cases call.config.bind HostConfig.hostname with
  | some name => rfl
  | none =>
    rcases (clientHostname call.mess).map hostPart with _ | _ | ⟨first, rest⟩
    · rfl
    · rfl
    · subst hmess
      rfl

theorem completeCall_accept (hcontexts : still later.contexts = still s.contexts)
    (hconfigs : later.configs = s.configs) (hmess : call.mess = mess) :
    completeCall env later
      { call with mess := mess.accept addr id, arrival := { arrival with now := now } } =
      { completeCall env s call with mess := mess.accept addr id, arrival := { arrival with
        now := now } } := by
  have hgiaddr : (clientHost s call).mess.giaddr = mess.giaddr := by
    unfold clientHost
    split
    · rw [hmess]
    · split <;> rw [hmess]
  unfold completeCall
  rw [clientHost_accept addr id now hcontexts hconfigs hmess]
  dsimp only
  rw [hgiaddr]
  rfl

theorem clientCall_accept (htable : later.table = s.table) (hconfigs : later.configs = s.configs)
    (hcontexts : still later.contexts = still s.contexts) (chain : List ℕ) :
    clientCall later { arrival with now := now } (mess.accept addr id) chain =
      { clientCall s arrival mess chain with mess := mess.accept addr id, arrival := { arrival with
        now := now } } := by
  unfold clientCall
  rw [findConfig_of_still hcontexts, htable, hconfigs]
  rfl

theorem knownCall_accept (htable : later.table = s.table) (hconfigs : later.configs = s.configs)
    (hcontexts : still later.contexts = still (networkState env s arrival mess).contexts) :
    knownCall env later { arrival with now := now } (mess.accept addr id) =
      { knownCall env s arrival mess with mess := mess.accept addr id, arrival := { arrival with
        now := now } } := by
  obtain ⟨hchain, hagain⟩ :
    (determineNetwork env later.contexts { arrival with now := now } mess.subnetAddr
        mess.giaddr 0).2 =
          (determineNetwork env s.contexts arrival mess.subnetAddr mess.giaddr 0).2 ∧
      still (networkState env later { arrival with now := now } (mess.accept addr id)).contexts =
        still (networkState env s arrival mess).contexts := determineNetwork_again now hcontexts
  have htableAgain :
    (networkState env later { arrival with now := now } (mess.accept addr id)).table =
      (networkState env s arrival mess).table := htable
  unfold knownCall
  rw [show (determineNetwork env later.contexts { arrival with
    now := now } (mess.accept addr id).subnetAddr
    (mess.accept addr id).giaddr 0).2 = _ from hchain, clientCall_accept addr id now htableAgain
      hconfigs hagain]
  exact completeCall_accept addr id now hagain hconfigs rfl

end Accepting

/-! ### What an offer tells -/

section Offer

variable {env : DhcpEnv} {world : DhcpWorld} {s last : DhcpState} {call : DhcpCall}
    {addr id : UInt32}

theorem offeredAddress_frame : (offeredAddress env world s call).1.table = s.table ∧
    (offeredAddress env world s call).1.configs = s.configs ∧
    still (offeredAddress env world s call).1.contexts = still s.contexts := by
  unfold offeredAddress
  split
  · exact ⟨rfl, rfl, rfl⟩
  · split_ifs
    · exact ⟨rfl, rfl, rfl⟩
    · exact ⟨rfl, rfl, still_allocateAddress _ _ _ _⟩

/-- The client has a lease of the address that is offered, or nobody else has one, unless it is the
same host. -/
theorem offeredAddress_owner (hinv : TableInv s.table)
    (hlease : ∀ l, call.lease = some l → l ∈ s.table.leases)
    (hoffered : (offeredAddress env world s call).2 = some addr) :
    (∃ l, call.lease = some l ∧ l.addr = addr) ∨ ∀ ltmp ∈ s.table.leases, ltmp.addr = addr →
      call.config.any fun config ↦ configHasMac config ltmp.hwaddr ltmp.hwaddrType := by
  have hfree : s.table.findByAddr addr = none → ∀ ltmp ∈ s.table.leases, ltmp.addr = addr →
      call.config.any fun config ↦ configHasMac config ltmp.hwaddr ltmp.hwaddrType :=
        fun hnone ltmp hmem haddr ↦
    absurd (decide_eq_true haddr) (List.find?_eq_none.mp hnone ltmp hmem)
  unfold offeredAddress at hoffered
  split at hoffered
  · next found hfound =>
    obtain rfl := Option.some.inj hoffered
    rcases Option.or_eq_some_iff.mp hfound with hconfig | ⟨-, hfound⟩
    · obtain ⟨config, hcall, hfilter⟩ := Option.bind_eq_some_iff.mp hconfig
      obtain ⟨haddr, hcond⟩ := Option.filter_eq_some_iff.mp hfilter
      have hholder := (of_decide_eq_true hcond).1
      cases hfind : s.table.findByAddr found with
      | none => exact .inr (hfree hfind)
      | some holder =>
        rw [hfind, Option.all_some, decide_eq_true_eq] at hholder
        obtain ⟨hmem, hholderAddr⟩ := mem_of_findByAddr hfind
        rcases hholder with hsame | hmac
        · obtain ⟨l, hl, hnumber⟩ := Option.map_eq_some_iff.mp hsame
          have heq : l = holder := List.inj_on_of_nodup_map hinv.numbers (hlease l hl) hmem hnumber
          exact .inl ⟨l, hl, heq ▸ hholderAddr⟩
        · refine .inr fun ltmp hltmp hltmpAddr ↦ ?_
          have heq : ltmp = holder :=
            List.inj_on_of_nodup_map hinv.addrs hltmp hmem (hltmpAddr.trans hholderAddr.symm)
          rw [hcall, heq]
          exact hmac
    · rcases Option.or_eq_some_iff.mp hfound with hleased | ⟨-, hrequested⟩
      · obtain ⟨hleased, -⟩ := Option.filter_eq_some_iff.mp hleased
        obtain ⟨l, hl, haddr⟩ := Option.map_eq_some_iff.mp hleased
        exact .inl ⟨l, hl, haddr⟩
      · obtain ⟨-, hcond⟩ := Option.filter_eq_some_iff.mp hrequested
        exact .inr (hfree (Option.isNone_iff_eq_none.mp (of_decide_eq_true hcond).2.1))
  · split_ifs at hoffered
    exact .inr (hfree (allocateAddress_free hoffered))

theorem discoverReply_offer (hoffer : discoverReply env world s call = (last, .offer addr id)) :
    ¬(call.ignore ∨ call.disabled) ∧ offeredAddress env world s call = (last, some addr) ∧
      (call.override ≠ 0 → id = call.override) := by
  unfold discoverReply at hoffer
  by_cases hsilent : call.ignore ∨ call.disabled
  · rw [if_pos hsilent] at hoffer
    exact absurd (Prod.mk.inj hoffer).2 (by simp)
  rw [if_neg hsilent] at hoffer
  cases hoffered : offeredAddress env world s call with
  | mk state found =>
    rw [hoffered] at hoffer
    cases found with
    | none => exact absurd (Prod.mk.inj hoffer).2 (by simp)
    | some found =>
      dsimp only at hoffer
      split at hoffer
      · exact absurd (Prod.mk.inj hoffer).2 (by simp)
      · obtain ⟨rfl, hanswer⟩ := Prod.mk.inj hoffer
        obtain ⟨rfl, hid⟩ := DhcpAnswer.offer.inj hanswer
        refine ⟨hsilent, rfl, fun hoverride ↦ ?_⟩
        rw [← hid]
        exact if_pos hoverride

theorem typedReply_offer (htype : call.mess.messType = some dhcpDiscover)
    (hoffer : typedReply env world s call = some (last, .offer addr id)) :
    pxeAnswer env s call = none ∧ ¬(call.chain.head?.any (fun c ↦ (s.contexts c).isProxy) ∨
      call.arrival.pxe) ∧ discoverReply env world s call = (last, .offer addr id) := by
  unfold typedReply at hoffer
  cases hpxe : pxeAnswer env s call with
  | some answer =>
    rw [hpxe] at hoffer
    have hanswer := (Prod.mk.inj (Option.some.inj hoffer)).2
    subst hanswer
    unfold pxeAnswer at hpxe
    dsimp only at hpxe
    split at hpxe
    · exact absurd hpxe (by simp)
    · split at hpxe
      · split at hpxe <;> simp at hpxe
      · split at hpxe
        · split at hpxe <;> simp at hpxe
        · exact absurd hpxe (by simp)
  | none =>
    rw [hpxe, htype] at hoffer
    dsimp only [Option.getD_some] at hoffer
    by_cases hproxy : call.chain.head?.any (fun c ↦ (s.contexts c).isProxy) ∨ call.arrival.pxe
    · rw [if_pos hproxy] at hoffer
      exact absurd (Prod.mk.inj (Option.some.inj hoffer)).2 (by simp)
    · rw [if_neg hproxy] at hoffer
      exact ⟨rfl, hproxy, Option.some.inj hoffer⟩

end Offer

/-! ### What becomes of the request -/

/-- The ranges from the first one with the identifier of the server on. -/
def serverChain (contexts : Contexts) (call : DhcpCall) (id : UInt32) : List ℕ :=
  if call.override ≠ 0 then call.chain else call.chain.dropWhile fun c ↦ (contexts c).localAddr ≠ id

section Request

variable {env : DhcpEnv} {world : DhcpWorld} {s : DhcpState} {call : DhcpCall} {yiaddr : UInt32}

theorem settleRequest_ack_iff {chain : List ℕ} {override : UInt32} {lease : Option Lease}
    (hleft : s.table.leasesLeft ≠ 0) :
    (∃ s' id', settleRequest env world s call chain override lease yiaddr true = some
      (s', .ack yiaddr id')) ↔ ∃ c, narrowContext s.contexts chain yiaddr call.tagif = some c ∧
        requestChecks s call chain c lease yiaddr true = true := by
  unfold settleRequest
  cases narrowContext s.contexts chain yiaddr call.tagif with
  | none => simp
  | some c =>
    by_cases hchecks : requestChecks s call chain c lease yiaddr true = true
    · refine iff_of_true ?_ ⟨c, rfl, hchecks⟩
      dsimp only
      rw [if_pos hchecks]
      cases lease.or (s.table.findByAddr yiaddr) with
      | some found => exact ⟨_, _, rfl⟩
      | none =>
        unfold LeaseTable.allocate4
        rw [if_neg hleft]
        exact ⟨_, _, rfl⟩
    · refine iff_of_false ?_ ?_
      · dsimp only
        rw [if_neg hchecks]
        simp
      · rintro ⟨c', hc, hagain⟩
        obtain rfl := Option.some.inj hc
        exact hchecks hagain

/-- The checks that depend on the client and on the ranges only. -/
def ClientChecks (contexts : Contexts) (configs : List HostConfig) (call : DhcpCall)
    (chain : List ℕ) (yiaddr : UInt32) : Prop :=
  call.emac ≠ [] ∧
    ((configFindByAddress configs yiaddr).all fun other ↦ call.config.map HostConfig.number =
      some other.number) ∧
    ∃ c, narrowContext contexts chain yiaddr call.tagif = some c ∧
      ((addressAvailable contexts [c] yiaddr call.tagif).isSome ∨ call.configAddr = some yiaddr)

/-- When the address belongs to nobody else, a request is settled by the other checks. -/
theorem settleRequest_ack_iff_checks {chain : List ℕ} {override : UInt32} {lease : Option Lease}
    (hleft : s.table.leasesLeft ≠ 0)
    (howner : lease.isSome = true ∨ ∀ ltmp ∈ s.table.leases, ltmp.addr = yiaddr →
      call.config.any fun config ↦ configHasMac config ltmp.hwaddr ltmp.hwaddrType) :
    (∃ s' id', settleRequest env world s call chain override lease yiaddr true = some
      (s', .ack yiaddr id')) ↔
      ClientChecks s.contexts s.configs call chain yiaddr := by
  have htaken : lease.isSome = true ∨ ((s.table.findByAddr yiaddr).all fun ltmp ↦
      call.config.any fun config ↦ configHasMac config ltmp.hwaddr ltmp.hwaddrType) = true := by
    refine howner.imp_right fun hmac ↦ ?_
    cases hfind : s.table.findByAddr yiaddr with
    | none => rfl
    | some holder =>
      obtain ⟨hmem, haddr⟩ := mem_of_findByAddr hfind
      exact hmac holder hmem haddr
  rw [settleRequest_ack_iff hleft]
  constructor
  · rintro ⟨c, hc, hchecks⟩
    obtain ⟨havailable, -, hreserved, -, hemac⟩ := of_decide_eq_true hchecks
    exact ⟨hemac, hreserved, c, hc, havailable⟩
  · rintro ⟨hemac, hreserved, c, hc, havailable⟩
    exact ⟨c, hc, decide_eq_true ⟨havailable, .inl rfl, hreserved, htaken, hemac⟩⟩

theorem not_clientChecks_nil (contexts : Contexts) (configs : List HostConfig) :
    ¬ClientChecks contexts configs call [] yiaddr := by
  rintro ⟨-, -, c, hc, -⟩
  exact absurd hc (by simp [narrowContext, addressAvailable])

/-- What follows the choice of the server, when `base` is what giving up a lease has left. -/
def afterChoice (env : DhcpEnv) (world : DhcpWorld) (s base : DhcpState) (call : DhcpCall)
    (lease : Option Lease) (yiaddr : UInt32) : ServerChoice → Option (DhcpState × DhcpAnswer)
  | .ignore => some (s, .silence)
  | .here chain override => settleRequest env world base call chain override lease yiaddr true
  | .wrong => some (base, .nak (serverId none call.override call.arrival.fallback))

theorem requestReply_ack_iff (id : UInt32) (hserved : ¬(call.ignore ∨ call.disabled))
    (hip : call.mess.requestedIp = some yiaddr)
    (hid : call.mess.serverIdentifier = some id)
    (hoverride : call.override ≠ 0 → id = call.override) (hleft : s.table.leasesLeft ≠ 0)
    (howner : (∃ l, call.lease = some l ∧ l.addr = yiaddr) ∨ ∀ ltmp ∈ s.table.leases,
      ltmp.addr = yiaddr →
      call.config.any fun config ↦ configHasMac config ltmp.hwaddr ltmp.hwaddrType) :
    (∃ s' id', requestReply env world s call = some (s', .ack yiaddr id')) ↔
      ClientChecks s.contexts s.configs call (serverChain s.contexts call id) yiaddr := by
  -- a lease of the client for another address is given up first
  obtain ⟨base, lease, hreply, hcontexts, hconfigs, hbaseLeft, hbaseOwner⟩ :
      ∃ (base : DhcpState) (lease : Option Lease),
      requestReply env world s call =
        afterChoice env world s base call lease yiaddr (chooseServer env world s.contexts call id) ∧
      base.contexts = s.contexts ∧ base.configs = s.configs ∧ base.table.leasesLeft ≠ 0 ∧
      (lease.isSome = true ∨ ∀ ltmp ∈ base.table.leases, ltmp.addr = yiaddr →
        call.config.any fun config ↦ configHasMac config ltmp.hwaddr ltmp.hwaddrType) := by
    unfold requestReply
    rw [if_neg hserved, hip, hid]
    dsimp only
    cases hfilter : call.lease.filter fun lease ↦ lease.addr ≠ yiaddr with
    | none =>
      refine ⟨s, call.lease, ?_, rfl, rfl, hleft, ?_⟩
      · cases chooseServer env world s.contexts call id <;> rfl
      · exact howner.imp_left fun ⟨l, hl, _⟩ ↦ by rw [hl]; rfl
    | some lease =>
      obtain ⟨hlease, hne⟩ := Option.filter_eq_some_iff.mp hfilter
      refine ⟨{ s with table := s.table.prune (some lease.number) call.arrival.now }, none, ?_, rfl,
        rfl, ?_, .inr ?_⟩
      · cases chooseServer env world s.contexts call id <;> rfl
      · exact fun hzero ↦ hleft (Nat.eq_zero_of_add_eq_zero_right hzero)
      · rcases howner with ⟨l, hl, haddr⟩ | hmac
        · obtain rfl := Option.some.inj (hlease.symm.trans hl)
          exact absurd haddr (of_decide_eq_true hne)
        · exact fun ltmp hmem ↦ hmac ltmp (List.mem_filter.mp hmem).1
  have hsettle : ∀ (chain : List ℕ) (override : UInt32),
      (∃ s' id', settleRequest env world base call chain override lease yiaddr true = some
        (s', .ack yiaddr id')) ↔
        ClientChecks s.contexts s.configs call chain yiaddr := fun chain override ↦ by
    rw [settleRequest_ack_iff_checks hbaseLeft hbaseOwner, hcontexts, hconfigs]
  have hrefused : ∀ {state : DhcpState} {answer : DhcpAnswer}, answer = .silence ∨
    (∃ n, answer = .nak n) →
      ((∃ s' id', some (state, answer) = some (s', DhcpAnswer.ack yiaddr id')) ↔
        ClientChecks s.contexts s.configs call [] yiaddr) := fun hanswer ↦ by
    refine iff_of_false ?_ (not_clientChecks_nil _ _)
    rintro ⟨s', id', heq⟩
    have hack := (Prod.mk.inj (Option.some.inj heq)).2
    rcases hanswer with rfl | ⟨n, rfl⟩ <;> simp at hack
  rw [hreply]
  unfold chooseServer serverChain
  by_cases hset : call.override ≠ 0
  · rw [if_pos hset, if_pos hset, if_pos (hoverride hset)]
    exact hsettle _ _
  · rw [if_neg hset, if_neg hset]
    cases hdrop : call.chain.dropWhile fun c ↦ (s.contexts c).localAddr ≠ id with
    | cons c rest => exact hsettle _ _
    | nil =>
      split_ifs
      · exact hsettle [] id
      · exact hrefused (.inr ⟨_, rfl⟩)
      · exact hrefused (.inl rfl)

end Request

/-! ### Offers are honoured -/

/-- An offer can be honoured: the client is known by its hardware address or an identifier, the
address is not reserved for another host, and from the first range with the identifier of the server
on, the range of the address hands it out, or it is that of the client's host. -/
def Honourable (env : DhcpEnv) (s : DhcpState) (arrival : Arrival) (mess : DhcpRequest)
    (addr id : UInt32) : Prop :=
  let contexts := (networkState env s arrival mess).contexts
  let call := knownCall env s arrival mess
  ClientChecks contexts s.configs call (serverChain contexts call id) addr

/-- A request for an address that was offered is not one for a boot server or a proxy if the first
message was not. -/
theorem pxeAnswer_accept {s later : DhcpState}
    (addr id : UInt32) (now : ℕ) (hmess : call.mess = mess)
    (htype : mess.messType = some dhcpDiscover) (hpxe : pxeAnswer env s call = none)
    (hcontexts : still later.contexts = still s.contexts) :
    pxeAnswer env later
      { call with mess := mess.accept addr id, arrival := { arrival with now := now } } = none := by
  have hproxy : ∀ tags : List Tag, (call.chain.any fun c ↦ (later.contexts c).isProxy ∧
      matchNetid (later.contexts c).filter tags true) = call.chain.any fun c ↦
        (s.contexts c).isProxy ∧
      matchNetid (s.contexts c).filter tags true := fun tags ↦
    eq_of_still (f := fun contexts ↦ call.chain.any fun c ↦ (contexts c).isProxy ∧
      matchNetid (contexts c).filter tags true) (fun _ ↦ rfl) hcontexts
  subst hmess
  by_cases hclient : env.enablePxe = false ∨ call.mess.pxeClient = false
  · exact if_pos hclient
  have hno : ¬(call.mess.arch = true ∧ (call.chain.any fun c ↦ (s.contexts c).isProxy ∧
      matchNetid (s.contexts c).filter call.tagif true) = true) := by
    rintro ⟨harch, hany⟩
    unfold pxeAnswer at hpxe
    rw [if_neg hclient, htype] at hpxe
    dsimp only [Option.getD_some] at hpxe
    rw [if_neg (show ¬(dhcpDiscover = dhcpRequest ∨ dhcpDiscover = dhcpInform) by decide)] at hpxe
    rw [if_pos ⟨harch, .inl rfl, hany⟩] at hpxe
    exact absurd hpxe (by simp)
  refine (if_neg hclient).trans (if_neg ?_)
  rintro ⟨harch, -, hany⟩
  exact hno ⟨harch, (hproxy call.tagif).symm.trans hany⟩

theorem typedReply_request
    (htype : call.mess.messType = some dhcpRequest) (hpxe : pxeAnswer env s call = none)
    (hproxy : ¬(call.chain.head?.any (fun c ↦ (s.contexts c).isProxy) ∨ call.arrival.pxe)) :
    typedReply env world s call = requestReply env world s call := by
  unfold typedReply
  rw [hpxe, htype]
  dsimp only [Option.getD_some]
  rw [if_neg hproxy]
  rfl

theorem clientChecks_of_still {left right : Contexts} (hsame : still left = still right)
    (configs : List HostConfig) (call : DhcpCall) (yiaddr id : UInt32) :
    ClientChecks left configs call (serverChain left call id) yiaddr ↔
      ClientChecks right configs call (serverChain right call id) yiaddr := by
  have hchain : serverChain left call id = serverChain right call id :=
    eq_of_still (f := fun contexts ↦ serverChain contexts call id) (fun _ ↦ rfl) hsame
  unfold ClientChecks
  rw [hchain, narrowContext_of_still hsame, addressAvailable_of_still hsame]

theorem rejected_accept {type : ℕ} (hmess : mess.messType = some type) (addr id : UInt32) :
    (mess.accept addr id).rejected = mess.rejected := by
  unfold DhcpRequest.rejected DhcpRequest.accept
  rw [hmess]
  rfl

theorem knownCall_lease {lease : Lease}
    (hlease : (knownCall env s arrival mess).lease = some lease) : lease ∈ s.table.leases := by
  have hclient : ∀ call : DhcpCall, (clientHost (networkState env s arrival mess) call).lease =
    call.lease := by
    intro call
    unfold clientHost
    split
    · rfl
    · split <;> rfl
  have hfound := (hclient _).symm.trans hlease
  exact mem_of_findByClient hfound

/-- An offer is honoured if and only if it can be. Time may have gone on, and the world may have
changed. -/
theorem offer_honoured_iff {env : DhcpEnv} {world world' : DhcpWorld} {s s' : DhcpState}
    {arrival : Arrival} {mess : DhcpRequest} {addr id : UInt32} (now : ℕ) (hinv : TableInv s.table)
    (hleft : s.table.leasesLeft ≠ 0) (hmess : mess.messType = some dhcpDiscover)
    (hoffer : dhcpReply env world s arrival mess = some (s', .offer addr id)) :
    (∃ last id', dhcpReply env world' s' { arrival with now := now } (mess.accept addr id) =
      some (last, .ack addr id')) ↔ Honourable env s arrival mess addr id := by
  have hrejected : mess.rejected = false := by
    refine Bool.eq_false_iff.mpr fun htrue ↦ ?_
    unfold dhcpReply at hoffer
    rw [if_pos htrue] at hoffer
    exact absurd (Prod.mk.inj (Option.some.inj hoffer)).2 (by simp)
  rw [dhcpReply_known hmess (by decide) (.inr rfl) hrejected] at hoffer
  by_cases hchain : (determineNetwork env s.contexts arrival mess.subnetAddr mess.giaddr 0).2 = []
  · rw [if_pos hchain] at hoffer
    exact absurd (Prod.mk.inj (Option.some.inj hoffer)).2 (by simp)
  rw [if_neg hchain] at hoffer
  have hcallMess : (knownCall env s arrival mess).mess = mess := completeCall_mess.1
  have hcallArrival : (knownCall env s arrival mess).arrival = arrival := completeCall_mess.2
  obtain ⟨hpxe, hproxy, hdiscover⟩ := typedReply_offer (by rw [hcallMess, hmess]) hoffer
  obtain ⟨hserved, hoffered, hoverride⟩ := discoverReply_offer hdiscover
  obtain ⟨htable, hconfigs, hcontexts⟩ :=
    @offeredAddress_frame env world (networkState env s arrival mess) (knownCall env s arrival mess)
  have howner := @offeredAddress_owner env world (networkState env s arrival mess)
    (knownCall env s arrival mess) addr hinv (fun l ↦ knownCall_lease) (by rw [hoffered])
  rw [hoffered] at htable hconfigs hcontexts
  replace htable : s'.table = s.table := htable
  replace hconfigs : s'.configs = s.configs := hconfigs
  -- the second message finds the same network and the same client
  obtain ⟨hchainAgain, hagain⟩ :
    (determineNetwork env s'.contexts { arrival with now := now } mess.subnetAddr
        mess.giaddr 0).2 =
          (determineNetwork env s.contexts arrival mess.subnetAddr mess.giaddr 0).2 ∧
      still (networkState env s' { arrival with now := now } (mess.accept addr id)).contexts =
        still (networkState env s arrival mess).contexts := determineNetwork_again now hcontexts
  have hknown := knownCall_accept addr id now htable hconfigs hcontexts
  rw [dhcpReply_known rfl (by decide) (.inl rfl) ((rejected_accept hmess addr id).trans hrejected),
    if_neg (show (determineNetwork env s'.contexts { arrival with now := now }
      (mess.accept addr id).subnetAddr
      (mess.accept addr id).giaddr 0).2 ≠ [] from hchainAgain ▸ hchain), hknown,
    typedReply_request rfl (pxeAnswer_accept addr id now hcallMess hmess hpxe hagain) ?_]
  · have htableAgain : (networkState env s' { arrival with now := now }
      (mess.accept addr id)).table = s.table := htable
    refine (requestReply_ack_iff id ?_ rfl rfl ?_ ?_ ?_).trans ?_
    · exact hserved
    · exact hoverride
    · rw [htableAgain]
      exact hleft
    · rw [htableAgain]
      exact howner
    · rw [clientChecks_of_still hagain]
      rw [show (networkState env s' { arrival with now := now } (mess.accept addr id)).configs =
        s.configs from hconfigs]
      rfl
  · have hhead : ((knownCall env s arrival mess).chain.head?.any fun c ↦
        ((networkState env s' { arrival with now := now } (mess.accept addr id)).contexts
          c).isProxy) =
        (knownCall env s arrival mess).chain.head?.any fun c ↦
          ((networkState env s arrival mess).contexts c).isProxy :=
      eq_of_still (f := fun contexts ↦ (knownCall env s arrival mess).chain.head?.any fun c ↦
        (contexts c).isProxy) (fun _ ↦ rfl) hagain
    rw [hcallArrival] at hproxy
    rw [hhead]
    exact hproxy

def homeDiscover : DhcpRequest :=
  { homeRequest with messType := some dhcpDiscover, serverIdentifier := none }

theorem offer_honoured_home :
    ∃ s' last id', dhcpReply homeEnv homeWorld homeStart homeArrival homeDiscover =
        some (s', .offer 0xc0a8000c 0xc0a80001) ∧
      dhcpReply homeEnv homeWorld s' { homeArrival with now := 1001 }
    (homeDiscover.accept 0xc0a8000c 0xc0a80001) =
        some (last, .ack 0xc0a8000c id') := by
  have hoffer : (dhcpReply homeEnv homeWorld homeStart homeArrival homeDiscover).map Prod.snd =
      some (.offer 0xc0a8000c 0xc0a80001) := by decide
  obtain ⟨⟨s', answer⟩, hoffer, rfl⟩ := Option.map_eq_some_iff.mp hoffer
  have hhonourable : Honourable homeEnv homeStart homeArrival homeDiscover 0xc0a8000c 0xc0a80001 :=
    ⟨by decide, by decide, 0, by decide, .inl (by decide)⟩
  have hiff : (∃ last id', dhcpReply homeEnv homeWorld s' { homeArrival with now := 1001 }
      (homeDiscover.accept 0xc0a8000c 0xc0a80001) = some (last, .ack 0xc0a8000c id')) ↔
      Honourable homeEnv homeStart homeArrival homeDiscover 0xc0a8000c 0xc0a80001 :=
    offer_honoured_iff 1001 (.empty 10) (by decide) rfl hoffer
  obtain ⟨last, id', hack⟩ := hiff.mpr hhonourable
  exact ⟨s', last, id', hoffer, hack⟩

/-- A client without a hardware address and without an identifier. -/
def anonymousDiscover : DhcpRequest := { homeDiscover with htype := 0, chaddr := [] }

/-- A client that is known by nothing is offered what it asks for and is refused then. -/
theorem not_honoured_anonymous :
    ¬∀ (env : DhcpEnv) (world world' : DhcpWorld) (s s' : DhcpState) (arrival : Arrival)
    (mess : DhcpRequest)
        (addr id : UInt32) (now : ℕ), TableInv s.table → s.table.leasesLeft ≠ 0 →
      mess.messType = some dhcpDiscover → dhcpReply env world s arrival mess = some
      (s', .offer addr id) →
      ∃ last id', dhcpReply env world' s' { arrival with now := now } (mess.accept addr id) =
        some (last, .ack addr id') := by
  intro hclaim
  have hrun :
    ((dhcpReply homeEnv homeWorld homeStart homeArrival anonymousDiscover).bind fun reply ↦
      (dhcpReply homeEnv homeWorld reply.1 { homeArrival with now := 1001 }
        (anonymousDiscover.accept 0xc0a8000c 0xc0a80001)).map fun second ↦ (reply.2, second.2)) =
      some (.offer 0xc0a8000c 0xc0a80001, .nak 0xc0a80001) := by decide
  obtain ⟨⟨s', answer⟩, hoffer, hsecond⟩ := Option.bind_eq_some_iff.mp hrun
  obtain ⟨⟨last, refusal⟩, hnak, heq⟩ := Option.map_eq_some_iff.mp hsecond
  obtain ⟨rfl, rfl⟩ := Prod.mk.inj heq
  obtain ⟨other, id', hack⟩ :=
    hclaim homeEnv homeWorld homeWorld homeStart s' homeArrival anonymousDiscover 0xc0a8000c
    0xc0a80001 1001 (.empty 10) (by decide) rfl hoffer
  rw [hnak] at hack
  exact absurd (Prod.mk.inj (Option.some.inj hack)).2 (by simp)

end CrossBreeder.Dnsmasq
