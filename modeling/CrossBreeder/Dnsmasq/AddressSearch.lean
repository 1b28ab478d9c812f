import CrossBreeder.Dnsmasq.Offers
import CrossBreeder.Foundation.EndingLoop

/-!
# The search for an address

`address_allocate` looks through the ranges of a network for an address that nobody has.

The hash is divided by the number of addresses in 32 bits, which is zero for a range of all
addresses. Such a range is on no network, and only ranges on a network are linked
(`linkInterfaces_sized`, `determineNetwork_sized`). For those on a network, `addressAllocate_search`
says that the program returns what `addressAllocate` computes, that an address it returns can be
given to the client, and that it returns none only if all such addresses fail the check with pings.
-/

namespace CrossBreeder.Dnsmasq

open Foundation

/-! ### Ranges on a chain -/

/-- `--dhcp-range` puts the ends of a range in order. -/
def orderRange (first last : UInt32) : UInt32 × UInt32 := if last < first then
    (last, first) else (first, last)

theorem orderRange_le (first last : UInt32) :
    (orderRange first last).1 ≤ (orderRange first last).2 := by
  unfold orderRange
  split_ifs with hlast
  · exact UInt32.le_of_lt hlast
  · exact UInt32.not_lt.mp hlast

/-- A range gets the netmask of an interface, unless it was configured with one. -/
def completeNetmask (own netmask : UInt32) (c : Context) : Context :=
  if c.hasNetmask = false ∧ (isSameNet own c.start netmask ∨ isSameNet own c.endAddr netmask) then
    { c with netmask := netmask }
  else c

/-- A range gets the addresses of an interface: of the server, if the range is linked, and for
broadcasts. -/
def completeAddresses (own broadcast : UInt32) (linked : Bool) (c : Context) : Context :=
  { c with
    router := if linked then own else c.router
    localAddr := if linked then own else c.localAddr
    broadcast :=
      if c.hasBroadcast then c.broadcast
      else if isSameNet broadcast c.start c.netmask then broadcast
      else c.start ||| ~~~ c.netmask }

/-- `complete_context`, with the ranges to come and those that are linked. -/
def completeContext (own netmask broadcast : UInt32) (here : Bool) :
    List ℕ → Contexts → List ℕ → Contexts × List ℕ
  | [], contexts, chain => (contexts, chain)
  | c :: rest, contexts, chain =>
    let masked := completeNetmask own netmask (contexts c)
    if onNetwork own masked.netmask masked then
      let linked := here && c ∉ chain
      completeContext own netmask broadcast here rest
        (Function.update contexts c (completeAddresses own broadcast linked masked)) (if linked then
          c :: chain else chain)
    else completeContext own netmask broadcast here rest (Function.update contexts c masked) chain

/-- An address of an interface, as `complete_context` gets it: with its netmask and its broadcast
address, and whether the packet came in there. -/
structure IfaceAddr where
  own : UInt32
  netmask : UInt32
  broadcast : UInt32
  here : Bool

/-- `complete_context` for an address of an interface. -/
def linkAddress (dhcp : List ℕ) (linked : Contexts × List ℕ) (addr : IfaceAddr) :
    Contexts × List ℕ :=
  completeContext addr.own addr.netmask addr.broadcast addr.here dhcp linked.1 linked.2

/-- It is called for one address of the interfaces after the other, from no chain. -/
def linkInterfaces (dhcp : List ℕ) (addrs : List IfaceAddr) (contexts : Contexts) :
    Contexts × List ℕ :=
  addrs.foldl (linkAddress dhcp) (contexts, [])

/-- The ends of a range are as `--dhcp-range` puts them. -/
def Context.Configured (c : Context) : Prop :=
  ∃ first last, orderRange first last = (c.start, c.endAddr)

theorem Context.Configured.ordered {c : Context} (h : c.Configured) : c.start ≤ c.endAddr := by
  obtain ⟨first, last, horder⟩ := h
  have hle := orderRange_le first last
  rwa [horder] at hle

/-- A range that can be on a chain: its ends are in order, and both are on the network of some
address. -/
structure Context.Linked (c : Context) : Prop where
  ordered : c.start ≤ c.endAddr
  network : ∃ addr netmask, onNetwork addr netmask c = true

variable {c : Context}

namespace Context

def count (c : Context) : ℕ := c.endAddr.toNat - c.start.toNat + 1

theorem Linked.of_ends {c other : Context} (h : c.Linked) (hstart : other.start = c.start)
    (hend : other.endAddr = c.endAddr) : other.Linked := by
  obtain ⟨addr, netmask, hnetwork⟩ := h.network
  refine ⟨?_, addr, netmask, ?_⟩
  · rw [hstart, hend]
    exact h.ordered
  · unfold onNetwork at hnetwork ⊢
    rw [hstart, hend]
    exact hnetwork

theorem Linked.count_lt (h : c.Linked) : c.count < 2 ^ 32 := by
  obtain ⟨addr, netmask, hnetwork⟩ := h.network
  unfold onNetwork isSameNet at hnetwork
  simp only [decide_eq_true_eq] at hnetwork
  obtain ⟨hmask, hstart, hend⟩ := hnetwork
  unfold count
  have hstartLt := c.start.toNat_lt
  have hendLt := c.endAddr.toNat_lt
  by_contra hall
  have hfirst : c.start = 0 := UInt32.toNat_inj.mp (by rw [UInt32.toNat_zero]; omega)
  have hlast : c.endAddr = -1 := UInt32.toNat_inj.mp (by
    have hvalue : (-1 : UInt32).toNat = 2 ^ 32 - 1 := by decide
    rw [hvalue]
    omega)
  -- the ends differ in every bit, so that the netmask has none
  refine hmask ?_
  rw [hfirst] at hstart
  rw [hlast] at hend
  rw [hstart, UInt32.zero_and] at hend
  rw [hend, UInt32.neg_one_and]

theorem Linked.size_ne_zero (h : c.Linked) : 1 + c.endAddr - c.start ≠ 0 := by
  intro hzero
  have hsize := congrArg UInt32.toNat hzero
  have hcount := h.count_lt
  have hordered := UInt32.le_iff_toNat_le.mp h.ordered
  unfold count at hcount
  rw [UInt32.toNat_sub, UInt32.toNat_add, UInt32.toNat_zero, UInt32.toNat_one] at hsize
  have := c.endAddr.toNat_lt
  have := c.start.toNat_lt
  omega

theorem Linked.toNat_size (h : c.Linked) : (1 + c.endAddr - c.start).toNat = c.count := by
  have hcount := h.count_lt
  have hordered := UInt32.le_iff_toNat_le.mp h.ordered
  unfold count at hcount ⊢
  rw [UInt32.toNat_sub, UInt32.toNat_add, UInt32.toNat_one]
  have := c.endAddr.toNat_lt
  have := c.start.toNat_lt
  omega

/-- A range whose addresses can be counted in 32 bits, as `address_allocate` does it when it divides
the hash of the client. -/
structure Sized (c : Context) : Prop where
  linked : c.Linked
  count_lt : c.count < 2 ^ 32
  size : (1 + c.endAddr - c.start).toNat = c.count
  size_ne_zero : 1 + c.endAddr - c.start ≠ 0

theorem Linked.sized (h : c.Linked) : c.Sized := ⟨h, h.count_lt, h.toNat_size, h.size_ne_zero⟩

end Context

/-! ### Chains -/

def ChainLinked (contexts : Contexts) (chain : List ℕ) : Prop := ∀ c ∈ chain, (contexts c).Linked

def SameEnds (before after : Contexts) : Prop :=
  ∀ c, (after c).start = (before c).start ∧ (after c).endAddr = (before c).endAddr

theorem SameEnds.refl (contexts : Contexts) : SameEnds contexts contexts := fun _ ↦ ⟨rfl, rfl⟩

theorem SameEnds.trans {before between after : Contexts} (h : SameEnds before between)
    (h' : SameEnds between after) : SameEnds before after :=
  fun c ↦ ⟨(h' c).1.trans (h c).1, (h' c).2.trans (h c).2⟩

variable {contexts : Contexts}

theorem SameEnds.update {c : ℕ} {changed : Context} (hstart : changed.start = (contexts c).start)
    (hend : changed.endAddr = (contexts c).endAddr) :
    SameEnds contexts (Function.update contexts c changed) := by
  intro other
  by_cases hother : other = c
  · subst hother
    rw [Function.update_self]
    exact ⟨hstart, hend⟩
  · rw [Function.update_of_ne hother]
    exact ⟨rfl, rfl⟩

variable {chain : List ℕ}

theorem ChainLinked.of_ends {before after : Contexts} (h : ChainLinked before chain)
    (hends : SameEnds before after) : ChainLinked after chain :=
  fun c hc ↦ (h c hc).of_ends (hends c).1 (hends c).2

theorem ChainLinked.cons {c : ℕ} (h : ChainLinked contexts chain)
    (hc : (contexts c).Linked) : ChainLinked contexts (c :: chain) := by
  intro other hother
  rcases List.mem_cons.mp hother with rfl | hother
  · exact hc
  · exact h other hother

theorem completeNetmask_ends (own netmask : UInt32) (c : Context) :
    (completeNetmask own netmask c).start = c.start ∧
      (completeNetmask own netmask c).endAddr = c.endAddr := by
  unfold completeNetmask
  split_ifs <;> exact ⟨rfl, rfl⟩

/-- The ranges that an interface links can be on a chain. -/
theorem completeContext_linked (own netmask broadcast : UInt32) (here : Bool) (dhcp : List ℕ) :
    ∀ {contexts : Contexts} {chain : List ℕ},
      (∀ c ∈ dhcp, (contexts c).start ≤ (contexts c).endAddr) → ChainLinked contexts chain →
      SameEnds contexts (completeContext own netmask broadcast here dhcp contexts chain).1 ∧
        ChainLinked (completeContext own netmask broadcast here dhcp contexts chain).1
          (completeContext own netmask broadcast here dhcp contexts chain).2 := by
  induction dhcp with
  | nil => exact fun {contexts chain} _ hchain ↦ ⟨.refl contexts, hchain⟩
  | cons c rest ih =>
    intro contexts chain hordered hchain
    obtain ⟨hstart, hend⟩ := completeNetmask_ends own netmask (contexts c)
    unfold completeContext
    by_cases hon : onNetwork own (completeNetmask own netmask (contexts c)).netmask
        (completeNetmask own netmask (contexts c)) = true
    · rw [if_pos hon]
      generalize (here && decide (c ∉ chain)) = linked
      have hends : SameEnds contexts (Function.update contexts c
          (completeAddresses own broadcast linked (completeNetmask own netmask (contexts c)))) :=
        SameEnds.update hstart hend
      have hmasked : (completeNetmask own netmask (contexts c)).Linked :=
        ⟨by rw [hstart, hend]; exact hordered c List.mem_cons_self, own, _, hon⟩
      have hnew : ChainLinked (Function.update contexts c
          (completeAddresses own broadcast linked (completeNetmask own netmask (contexts c))))
          (if linked then c :: chain else chain) := by
        split_ifs
        · refine (hchain.of_ends hends).cons ?_
          rw [Function.update_self]
          exact hmasked.of_ends rfl rfl
        · exact hchain.of_ends hends
      obtain ⟨hlast, hlinked⟩ := ih (fun other hother ↦ by
        rw [(hends other).1, (hends other).2]
        exact hordered other (List.mem_cons_of_mem _ hother)) hnew
      exact ⟨hends.trans hlast, hlinked⟩
    · rw [if_neg hon]
      have hends :
        SameEnds contexts (Function.update contexts c (completeNetmask own netmask (contexts c))) :=
        SameEnds.update hstart hend
      obtain ⟨hlast, hlinked⟩ := ih (fun other hother ↦ by
        rw [(hends other).1, (hends other).2]
        exact hordered other (List.mem_cons_of_mem _ hother)) (hchain.of_ends hends)
      exact ⟨hends.trans hlast, hlinked⟩

theorem completeContext_once (own netmask broadcast : UInt32) (here : Bool) (dhcp : List ℕ) :
    ∀ {contexts : Contexts} {chain : List ℕ}, chain.Nodup →
      (completeContext own netmask broadcast here dhcp contexts chain).2.Nodup ∧
        ∀ c ∈ (completeContext own netmask broadcast here dhcp contexts chain).2, c ∈ chain ∨
        c ∈ dhcp := by
  induction dhcp with
  | nil => exact fun {contexts chain} hchain ↦ ⟨hchain, fun _ hc ↦ .inl hc⟩
  | cons c rest ih =>
    intro contexts chain hchain
    unfold completeContext
    by_cases hon : onNetwork own (completeNetmask own netmask (contexts c)).netmask
        (completeNetmask own netmask (contexts c)) = true
    · rw [if_pos hon]
      generalize hlinked : (here && decide (c ∉ chain)) = linked
      have hnext : (if linked then c :: chain else chain).Nodup := by
        split_ifs with hnew
        · rw [hnew, Bool.and_eq_true, decide_eq_true_eq] at hlinked
          exact List.nodup_cons.mpr ⟨hlinked.2, hchain⟩
        · exact hchain
      obtain ⟨hnodup, hmem⟩ := ih hnext
      refine ⟨hnodup, fun other hother ↦ ?_⟩
      rcases hmem other hother with hin | hrest
      · split_ifs at hin
        · rcases List.mem_cons.mp hin with rfl | hin
          · exact .inr List.mem_cons_self
          · exact .inl hin
        · exact .inl hin
      · exact .inr (List.mem_cons_of_mem _ hrest)
    · rw [if_neg hon]
      obtain ⟨hnodup, hmem⟩ := ih hchain
      exact ⟨hnodup, fun other hother ↦ (hmem other hother).imp id (List.mem_cons_of_mem _)⟩

/-- The chain of an interface: the ends of the ranges are those of the configuration, a range is on
the chain once, and every one of them can be there. -/
structure ChainMade (dhcp : List ℕ) (before after : Contexts) (chain : List ℕ) : Prop where
  ends : SameEnds before after
  once : chain.Nodup
  configured : ∀ c ∈ chain, c ∈ dhcp
  linked : ChainLinked after chain

theorem ChainMade.linkAddress {dhcp : List ℕ} {before : Contexts} {linked : Contexts × List ℕ}
    (h : ChainMade dhcp before linked.1 linked.2)
    (hordered : ∀ c ∈ dhcp, (before c).start ≤ (before c).endAddr) (addr : IfaceAddr) :
    ChainMade dhcp before (linkAddress dhcp linked addr).1 (linkAddress dhcp linked addr).2 := by
  have hafter : ∀ c ∈ dhcp, (linked.1 c).start ≤ (linked.1 c).endAddr := fun c hc ↦ by
    rw [(h.ends c).1, (h.ends c).2]
    exact hordered c hc
  obtain ⟨hends, hlinked⟩ := completeContext_linked addr.own addr.netmask addr.broadcast addr.here
    dhcp hafter h.linked
  obtain ⟨honce, hmem⟩ := @completeContext_once addr.own addr.netmask addr.broadcast addr.here dhcp
    linked.1 linked.2 h.once
  exact ⟨h.ends.trans hends, honce, fun c hc ↦ (hmem c hc).elim (h.configured c) id, hlinked⟩

theorem linkInterfaces_made {dhcp : List ℕ} (addrs : List IfaceAddr)
    (hordered : ∀ c ∈ dhcp, (contexts c).start ≤ (contexts c).endAddr) :
    ChainMade dhcp contexts (linkInterfaces dhcp addrs contexts).1
      (linkInterfaces dhcp addrs contexts).2 := by
  have hrun : ∀ {linked : Contexts × List ℕ}, ChainMade dhcp contexts linked.1 linked.2 →
      ChainMade dhcp contexts (addrs.foldl (linkAddress dhcp) linked).1
        (addrs.foldl (linkAddress dhcp) linked).2 := by
    induction addrs with
    | nil => exact fun h ↦ h
    | cons addr addrs ih => exact fun h ↦ ih (h.linkAddress hordered addr)
  exact hrun ⟨.refl contexts, List.nodup_nil, fun _ hc ↦ absurd hc List.not_mem_nil,
    fun _ hc ↦ absurd hc List.not_mem_nil⟩

/-- Whatever addresses the interfaces have, the ends of the ranges stay, and a range is linked once,
with its ends in order and on one network, so that it has fewer than `2 ^ 32` addresses. -/
theorem linkInterfaces_sized (dhcp : List ℕ) (addrs : List IfaceAddr) (contexts : Contexts)
    (hconfigured : ∀ c ∈ dhcp, (contexts c).Configured) :
    SameEnds contexts (linkInterfaces dhcp addrs contexts).1 ∧
      (linkInterfaces dhcp addrs contexts).2.Nodup ∧
      ∀ c ∈ (linkInterfaces dhcp addrs contexts).2,
        c ∈ dhcp ∧ ((linkInterfaces dhcp addrs contexts).1 c).Sized := by
  have hmade := linkInterfaces_made addrs fun c hc ↦ (hconfigured c hc).ordered
  exact ⟨hmade.ends, hmade.once, fun c hc ↦
    ⟨hmade.configured c hc, (hmade.linked c hc).sized⟩⟩

theorem homeRange_configured : homeRange.Configured :=
  ⟨homeRange.start, homeRange.endAddr, by decide⟩

def homeAddrs : List IfaceAddr :=
  [⟨0x0a000001, 0xff000000, 0x0affffff, false⟩, ⟨0xc0a80001, 0xffffff00, 0xc0a800ff, true⟩]

/-- The interface of a home network links its range. -/
theorem linkInterfaces_home : (linkInterfaces [0] homeAddrs fun _ ↦ homeRange).2 = [0] ∧
    ((linkInterfaces [0] homeAddrs fun _ ↦ homeRange).1 0).Sized := by
  have hsized := linkInterfaces_sized [0] homeAddrs (fun _ ↦ homeRange) fun _ _ ↦
    homeRange_configured
  have hchain : (linkInterfaces [0] homeAddrs fun _ ↦ homeRange).2 = [0] := by decide
  exact ⟨hchain, (hsized.2.2 0 (hchain ▸ List.mem_cons_self)).2⟩

/-- So can the ranges on the network of a relay. -/
theorem relayedChain_linked (addr fallback giaddr : UInt32) (dhcp : List ℕ) :
    ∀ {contexts : Contexts} {chain : List ℕ},
      (∀ c ∈ dhcp, (contexts c).start ≤ (contexts c).endAddr) → ChainLinked contexts chain →
      SameEnds contexts (relayedChain addr fallback giaddr dhcp contexts chain).1 ∧
        ChainLinked (relayedChain addr fallback giaddr dhcp contexts chain).1
          (relayedChain addr fallback giaddr dhcp contexts chain).2 := by
  induction dhcp with
  | nil => exact fun {contexts chain} _ hchain ↦ ⟨.refl contexts, hchain⟩
  | cons c rest ih =>
    intro contexts chain hordered hchain
    unfold relayedChain
    split_ifs with hon
    · have hends :
        SameEnds contexts (Function.update contexts c (fillContext (contexts c) fallback giaddr)) :=
        SameEnds.update rfl rfl
      have hc : (contexts c).Linked := ⟨hordered c List.mem_cons_self, addr, _, hon⟩
      obtain ⟨hlast, hlinked⟩ := ih (fun other hother ↦ by
        rw [(hends other).1, (hends other).2]
        exact hordered other (List.mem_cons_of_mem _ hother))
        ((hchain.of_ends hends).cons (hc.of_ends (hends c).1 (hends c).2))
      exact ⟨hends.trans hlast, hlinked⟩
    · exact ih (fun other hother ↦ hordered other (List.mem_cons_of_mem _ hother)) hchain

theorem determineNetwork_linked {env : DhcpEnv} {arrival : Arrival}
    (subnetAddr giaddr ciaddr : UInt32)
    (hordered : ∀ c ∈ env.dhcp, (contexts c).start ≤ (contexts c).endAddr)
    (harrival : ChainLinked contexts arrival.chain) :
    ChainLinked (determineNetwork env contexts arrival subnetAddr giaddr ciaddr).1
      (determineNetwork env contexts arrival subnetAddr giaddr ciaddr).2 := by
  have hrelay :
    ∀ addr, SameEnds contexts (relayedChain addr arrival.fallback giaddr env.dhcp contexts []).1 ∧
      ChainLinked (relayedChain addr arrival.fallback giaddr env.dhcp contexts []).1
        (relayedChain addr arrival.fallback giaddr env.dhcp contexts []).2 := fun addr ↦
    relayedChain_linked addr arrival.fallback giaddr env.dhcp hordered (fun _ hc ↦
      absurd hc List.not_mem_nil)
  unfold determineNetwork
  split_ifs
  · exact (hrelay subnetAddr).2
  · exact (hrelay giaddr).2
  · exact harrival
  · dsimp only
    split_ifs
    · exact harrival.of_ends (hrelay ciaddr).1
    · exact (hrelay ciaddr).2
  · exact harrival

/-- Whatever addresses the interfaces have and the packet carries, the number of addresses of a
range for a request, by which `address_allocate` divides, is not zero in 32 bits. -/
theorem determineNetwork_sized (env : DhcpEnv) (addrs : List IfaceAddr) (contexts : Contexts)
    (arrival : Arrival) (subnetAddr giaddr ciaddr : UInt32)
    (hconfigured : ∀ c ∈ env.dhcp, (contexts c).Configured)
    (harrival : arrival.chain = (linkInterfaces env.dhcp addrs contexts).2) :
    ∀ c ∈ (determineNetwork env (linkInterfaces env.dhcp addrs contexts).1 arrival subnetAddr giaddr
        ciaddr).2,
      ((determineNetwork env (linkInterfaces env.dhcp addrs contexts).1 arrival subnetAddr giaddr
        ciaddr).1 c).Sized := by
  have hordered : ∀ c ∈ env.dhcp, (contexts c).start ≤ (contexts c).endAddr := fun c hc ↦
    (hconfigured c hc).ordered
  have hmade := linkInterfaces_made addrs hordered
  have hlinked := @determineNetwork_linked (linkInterfaces env.dhcp addrs contexts).1 env arrival
    subnetAddr giaddr ciaddr (fun c hc ↦ by
      rw [(hmade.ends c).1, (hmade.ends c).2]; exact hordered c hc)
    (harrival ▸ hmade.linked)
  exact fun c hc ↦ (hlinked c hc).sized

/-- A client behind a relay is given an address of the home network. -/
theorem determineNetwork_home :
    (determineNetwork homeEnv (linkInterfaces homeEnv.dhcp homeAddrs fun _ ↦
      homeRange).1 homeArrival 0 0xc0a80001 0).2 = [0] ∧
    ((determineNetwork homeEnv (linkInterfaces homeEnv.dhcp homeAddrs fun _ ↦
      homeRange).1 homeArrival 0 0xc0a80001 0).1 0).Sized := by
  have hsized :=
    determineNetwork_sized homeEnv homeAddrs (fun _ ↦ homeRange) homeArrival 0 0xc0a80001 0
    (fun _ _ ↦ homeRange_configured) (by decide)
  have hchain : (determineNetwork homeEnv
      (linkInterfaces homeEnv.dhcp homeAddrs fun _ ↦ homeRange).1 homeArrival 0 0xc0a80001 0).2 =
        [0] := by
    decide
  exact ⟨hchain, hsized 0 (hchain ▸ List.mem_cons_self)⟩

/-! ### Going round -/

namespace Context

/-- The address that many steps behind the start of a search. -/
def around (c : Context) (start : UInt32) (steps : ℕ) : UInt32 :=
  UInt32.ofNat (c.start.toNat + (start.toNat - c.start.toNat + steps) % c.count)

section Around

variable {c : Context} {start : UInt32} (hstart : c.start ≤ start) (hend : start ≤ c.endAddr)

include hstart hend

omit hstart hend in
theorem mod_count_le (c : Context) (n : ℕ) : n % c.count ≤ c.endAddr.toNat - c.start.toNat :=
  Nat.lt_succ_iff.mp (Nat.mod_lt n (Nat.succ_pos (c.endAddr.toNat - c.start.toNat)))

theorem toNat_around (steps : ℕ) :
    (c.around start steps).toNat = c.start.toNat +
      (start.toNat - c.start.toNat + steps) % c.count := by
  have hmod := mod_count_le c (start.toNat - c.start.toNat + steps)
  have hordered := UInt32.le_iff_toNat_le.mp (UInt32.le_trans hstart hend)
  have hlt := c.endAddr.toNat_lt
  have hsize : UInt32.size = 2 ^ 32 := rfl
  exact UInt32.toNat_ofNat_of_lt' (by omega)

theorem around_mem (steps : ℕ) :
    c.start ≤ c.around start steps ∧ c.around start steps ≤ c.endAddr := by
  have hvalue := toNat_around hstart hend steps
  have hmod := mod_count_le c (start.toNat - c.start.toNat + steps)
  have hordered := UInt32.le_iff_toNat_le.mp (UInt32.le_trans hstart hend)
  rw [UInt32.le_iff_toNat_le, UInt32.le_iff_toNat_le]
  omega

theorem around_zero : c.around start 0 = start := by
  have hvalue := toNat_around hstart hend 0
  have hfirst := UInt32.le_iff_toNat_le.mp hstart
  have hlast := UInt32.le_iff_toNat_le.mp hend
  rw [Nat.add_zero, Nat.mod_eq_of_lt (by unfold count; omega)] at hvalue
  exact UInt32.toNat_inj.mp (by omega)

theorem nextAddr_around (steps : ℕ) : c.nextAddr (c.around start steps) = c.around start
    (steps + 1) := by
  have hvalue := toNat_around hstart hend steps
  have hnext := toNat_around hstart hend (steps + 1)
  have hmod := mod_count_le c (start.toNat - c.start.toNat + steps)
  have hordered := UInt32.le_iff_toNat_le.mp (UInt32.le_trans hstart hend)
  have hlt := c.endAddr.toNat_lt
  rw [← Nat.add_assoc, ← Nat.mod_add_mod] at hnext
  generalize (start.toNat - c.start.toNat + steps) % c.count = place at hvalue hnext hmod
  unfold nextAddr
  rw [← UInt32.toNat_inj, hnext]
  by_cases hlast : c.around start steps = c.endAddr
  · rw [if_pos (by rw [hlast])]
    have hplace : place + 1 = c.count := by
      have hend' := congrArg UInt32.toNat hlast
      unfold count
      omega
    rw [hplace, Nat.mod_self, Nat.add_zero]
  · have hplace : place + 1 < c.count := by
      have hne : (c.around start steps).toNat ≠ c.endAddr.toNat :=
        fun heq ↦ hlast (UInt32.toNat_inj.mp heq)
      unfold count
      omega
    rw [if_neg fun heq ↦ hlast (UInt32.add_left_inj 1 |>.mp heq), Nat.mod_eq_of_lt hplace,
      UInt32.toNat_add, UInt32.toNat_one, hvalue]
    unfold count at hplace
    omega

theorem exists_around {addr : UInt32} (haddr : c.start ≤ addr) (haddrEnd : addr ≤ c.endAddr) :
    ∃ steps < c.count, c.around start steps = addr := by
  have hfirst := UInt32.le_iff_toNat_le.mp hstart
  have hlast := UInt32.le_iff_toNat_le.mp hend
  have hlower := UInt32.le_iff_toNat_le.mp haddr
  have hupper := UInt32.le_iff_toNat_le.mp haddrEnd
  -- in front of the start, the end of the range lies in between
  by_cases hbehind : start ≤ addr
  · have hle := UInt32.le_iff_toNat_le.mp hbehind
    refine ⟨addr.toNat - start.toNat, by unfold count; omega, UInt32.toNat_inj.mp ?_⟩
    rw [toNat_around hstart hend, Nat.mod_eq_of_lt (by unfold count; omega)]
    omega
  · have hlt := UInt32.lt_iff_toNat_lt.mp (UInt32.not_le.mp hbehind)
    refine ⟨c.count - (start.toNat - addr.toNat), by unfold count; omega, UInt32.toNat_inj.mp ?_⟩
    have hsum : start.toNat - c.start.toNat + (c.count - (start.toNat - addr.toNat)) =
        addr.toNat - c.start.toNat + c.count := by
      unfold count
      omega
    rw [toNat_around hstart hend, hsum, Nat.add_mod_right,
      Nat.mod_eq_of_lt (by unfold count; omega)]
    omega

theorem around_eq_start {steps : ℕ} (hpos : 0 < steps) (hsteps : steps ≤ c.count) :
    c.around start steps = start ↔ steps = c.count := by
  have hvalue := toNat_around hstart hend steps
  have hfirst := UInt32.le_iff_toNat_le.mp hstart
  have hlast := UInt32.le_iff_toNat_le.mp hend
  rw [← UInt32.toNat_inj, hvalue]
  constructor
  · intro heq
    by_contra hne
    by_cases hbelow : start.toNat - c.start.toNat + steps < c.count
    · rw [Nat.mod_eq_of_lt hbelow] at heq
      omega
    · have hmod : (start.toNat - c.start.toNat + steps) % c.count =
        start.toNat - c.start.toNat + steps - c.count := by
        rw [Nat.mod_eq_sub_mod (by omega), Nat.mod_eq_of_lt (by unfold count at *; omega)]
      omega
  · rintro rfl
    rw [Nat.add_mod_right, Nat.mod_eq_of_lt (by unfold count; omega)]
    omega

end Around

end Context

/-! ### The check of an address -/

def recentPings (now : ℕ) (pings : List PingResult) : List PingResult :=
  pings.filter fun r ↦ now ≤ r.time + pingCacheTime

/-- An address passes what is known of it from pings: it was offered to this client of late, or
there is no answer to a ping. Under a high load there is no ping. -/
def passesCheck (env : AllocEnv) (pings : List PingResult) (addr : UInt32) : Bool :=
  match (recentPings env.now pings).find? fun r ↦ r.addr = addr with
  | some r => !(env.consecAddr ∧ r.hash ≠ env.hash)
  | none => !((recentPings env.now pings).length < pingMax ∧ env.noPing = false ∧ env.icmpPing addr)

theorem searchPings_eq (now : ℕ) (consec : Bool) (addr hash : UInt32) (pings : List PingResult) :
    ∀ (position count : ℕ) (victim : Option ℕ),
      match (recentPings now pings).find? fun r ↦ r.addr = addr with
      | some r => searchPings now consec addr hash pings position count victim =
          if consec ∧ r.hash ≠ hash then .others else .ours
      | none => ∃ victim', searchPings now consec addr hash pings position count victim =
          .unknown (count + (recentPings now pings).length) victim' := by
  induction pings with
  | nil => exact fun _ _ victim ↦ ⟨victim, rfl⟩
  | cons r rest ih =>
    intro position count victim
    unfold searchPings
    by_cases hold : r.time + pingCacheTime < now
    · have hrecent : recentPings now (r :: rest) = recentPings now rest :=
        List.filter_cons_of_neg (by simpa using hold)
      rw [if_pos hold, hrecent]
      exact ih _ _ _
    · have hrecent : recentPings now (r :: rest) = r :: recentPings now rest :=
        List.filter_cons_of_pos (by simpa using hold)
      rw [if_neg hold, hrecent]
      by_cases haddr : r.addr = addr
      · rw [List.find?_cons_of_pos (by simpa using haddr), if_pos haddr]
      · rw [List.find?_cons_of_neg (by simpa using haddr), if_neg haddr]
        have h := ih (position + 1) (count + 1) victim
        split at h
        · exact h
        · obtain ⟨victim', h⟩ := h
          exact ⟨victim', h.trans (by rw [List.length_cons, Nat.add_assoc, Nat.add_comm 1])⟩

theorem tryAddress_snd (env : AllocEnv) (c : ℕ) (addr : UInt32) (s : AllocState) :
    (tryAddress env c addr s).2 = passesCheck env s.pings addr := by
  have h := searchPings_eq env.now env.consecAddr addr env.hash s.pings 0 0 none
  unfold tryAddress passesCheck
  split at h
  · rw [h]
    rename_i r _
    by_cases hothers : env.consecAddr = true ∧ r.hash ≠ env.hash
    · rw [if_pos hothers, decide_eq_true hothers]
      rfl
    · rw [if_neg hothers, decide_eq_false hothers]
      rfl
  · obtain ⟨victim, h⟩ := h
    rw [h, Nat.zero_add]
    dsimp only
    by_cases hping : (recentPings env.now s.pings).length < pingMax ∧ env.noPing = false ∧
      env.icmpPing addr = true
    · rw [if_pos hping, decide_eq_true hping]
      rfl
    · rw [if_neg hping, decide_eq_false hping]
      rfl

variable {env : AllocEnv} {s : AllocState}

theorem tryAddress_pings {c : ℕ} {addr : UInt32}
    (hfails : (tryAddress env c addr s).2 = false) :
    (tryAddress env c addr s).1.pings = s.pings := by
  unfold tryAddress at hfails ⊢
  split at hfails
  · cases hfails
  · rfl
  · split_ifs at hfails ⊢ <;> rfl

/-- The tests of one address: whether nobody has it, and whether it passes the check. -/
def testAddress (env : AllocEnv) (c : ℕ) (addr : UInt32) (s : AllocState) : AllocState × Bool :=
  if addressFree s.contexts env.chain env.table env.configs addr then
    tryAddress env c addr s else (s, false)

def suits (env : AllocEnv) (s : AllocState) (addr : UInt32) : Bool :=
  addressFree s.contexts env.chain env.table env.configs addr && passesCheck env s.pings addr

theorem testAddress_snd (env : AllocEnv) (c : ℕ) (addr : UInt32) (s : AllocState) :
    (testAddress env c addr s).2 = suits env s addr := by
  unfold testAddress suits
  by_cases hfree : addressFree s.contexts env.chain env.table env.configs addr = true
  · rw [if_pos hfree, hfree, tryAddress_snd, Bool.true_and]
  · rw [if_neg hfree, Bool.eq_false_iff.mpr hfree, Bool.false_and]

def SameSearch (before after : AllocState) : Prop :=
  still after.contexts = still before.contexts ∧ after.pings = before.pings

theorem SameSearch.refl (s : AllocState) : SameSearch s s := ⟨rfl, rfl⟩

theorem SameSearch.trans {before between after : AllocState} (h : SameSearch before between)
    (h' : SameSearch between after) : SameSearch before after := ⟨h'.1.trans h.1, h'.2.trans h.2⟩

theorem still_testAddress (env : AllocEnv) (c : ℕ) (addr : UInt32) (s : AllocState) :
    still (testAddress env c addr s).1.contexts = still s.contexts := by
  unfold testAddress
  split_ifs
  · exact still_tryAddress env c addr s
  · rfl

theorem testAddress_fails {c : ℕ} {addr : UInt32}
    (hfails : (testAddress env c addr s).2 = false) :
    SameSearch s (testAddress env c addr s).1 := by
  refine ⟨still_testAddress env c addr s, ?_⟩
  unfold testAddress at hfails ⊢
  split_ifs at hfails ⊢
  · exact tryAddress_pings hfails
  · rfl

theorem addressFree_of_still {before after : Contexts} (hsame : still after = still before) :
    addressFree after = addressFree before := eq_of_still (fun _ ↦ rfl) hsame

variable {before after : AllocState}

theorem SameSearch.suits (h : SameSearch before after) (env : AllocEnv) :
    suits env after = suits env before := by
  funext addr
  unfold Dnsmasq.suits
  rw [addressFree_of_still h.1, h.2]

/-! ### One range -/

/-- Where the search of a range starts. There is no start if the hash is divided by zero. -/
def searchSeed (env : AllocEnv) (c : Context) : Option UInt32 :=
  if env.consecAddr then some (env.table.findMaxAddr c.start c.endAddr)
  else if 1 + c.endAddr - c.start = 0 then none
  else some (c.start + (env.hash + c.addrEpoch) % (1 + c.endAddr - c.start))

/-- One round of the loop over the addresses of a range. -/
def searchRound (env : AllocEnv) (c : ℕ) (start : UInt32) (t : UInt32 × AllocState) :
    Round (UInt32 × AllocState) (AllocState × Option UInt32) :=
  match testAddress env c t.1 t.2 with
  | (s, true) => .ret (s, some t.1)
  | (s, false) =>
    let next := (s.contexts c).nextAddr t.1
    if next = start then .ret (s, none) else .again (next, s)

theorem searchSeed_eq (h : c.Linked) : searchSeed env c = some (rangeStart env c) := by
  unfold searchSeed rangeStart
  split_ifs with hconsec hsize
  · rfl
  · exact absurd hsize h.size_ne_zero
  · rfl

theorem findMaxAddr_mem (table : LeaseTable) {start endAddr : UInt32} (hordered : start ≤ endAddr) :
    start ≤ table.findMaxAddr start endAddr ∧ table.findMaxAddr start endAddr ≤ endAddr := by
  refine List.foldlRecOn (motive := fun addr ↦ start ≤ addr ∧ addr ≤ endAddr) table.leases _
    ⟨UInt32.le_refl start, hordered⟩ fun addr haddr lease _ ↦ ?_
  split_ifs with hlarger
  · exact ⟨UInt32.le_of_lt hlarger.1, hlarger.2.1⟩
  · exact haddr

theorem rangeStart_mem (env : AllocEnv) (h : c.Linked) :
    c.start ≤ rangeStart env c ∧ rangeStart env c ≤ c.endAddr := by
  unfold rangeStart
  split_ifs
  · exact findMaxAddr_mem env.table h.ordered
  · have hordered := UInt32.le_iff_toNat_le.mp h.ordered
    have hlt := c.endAddr.toNat_lt
    have hmod : ((env.hash + c.addrEpoch) % (1 + c.endAddr - c.start)).toNat ≤
      c.endAddr.toNat - c.start.toNat := by
      rw [UInt32.toNat_mod, h.toNat_size]
      exact Context.mod_count_le c _
    rw [UInt32.le_iff_toNat_le, UInt32.le_iff_toNat_le, UInt32.toNat_add]
    omega

theorem rangeLoop_of_runRounds (env : AllocEnv) (c : ℕ) (start : UInt32) (rounds : ℕ) :
    ∀ {addr : UInt32} {s : AllocState} {result : AllocState × Option UInt32},
      runRounds (searchRound env c start) rounds (addr, s) = some result →
        rangeLoop env c start rounds addr s = result := by
  induction rounds with
  | zero => exact fun h ↦ nomatch h
  | succ rounds ih =>
    intro addr s result hrun
    unfold runRounds searchRound testAddress at hrun
    unfold rangeLoop
    generalize (if addressFree s.contexts env.chain env.table env.configs addr = true then
      tryAddress env c addr s else (s, false)) = tried at hrun ⊢
    obtain ⟨tried, _ | _⟩ := tried
    · dsimp only at hrun ⊢
      split_ifs at hrun ⊢
      · exact Option.some.inj hrun
      · exact ih hrun
    · exact Option.some.inj hrun

/-- How the search of a range ends: with an address of the range that nobody has, or with none when
all of its addresses fail the tests. -/
inductive RangeOutcome (env : AllocEnv) (s : AllocState) (c : ℕ) : AllocState × Option UInt32 → Prop
  | found {last : AllocState} {addr : UInt32} (hstart : (s.contexts c).start ≤ addr)
      (hend : addr ≤ (s.contexts c).endAddr)
      (hfree : addressFree s.contexts env.chain env.table env.configs addr = true) :
        RangeOutcome env s c (last, some addr)
  | exhausted {last : AllocState} (hsame : SameSearch s last)
      (hfails : ∀ addr, (s.contexts c).start ≤ addr → addr ≤ (s.contexts c).endAddr →
        suits env s addr = false) :
      RangeOutcome env s c (last, none)

section Range

variable {env : AllocEnv} {s : AllocState} {c : ℕ} {start : UInt32}
variable (hstart : (s.contexts c).start ≤ start) (hend : start ≤ (s.contexts c).endAddr)

include hstart hend

theorem runRounds_search (left : ℕ) :
    ∀ {steps : ℕ} {t : AllocState}, steps + left = (s.contexts c).count → 0 < left →
    SameSearch s t → (∀ k < steps, suits env s ((s.contexts c).around start k) = false) →
    ∃ result, runRounds (searchRound env c start) left
      ((s.contexts c).around start steps, t) = some result ∧
      RangeOutcome env s c result := by
  induction left with
  | zero => exact fun _ hpos ↦ absurd hpos (Nat.lt_irrefl 0)
  | succ left ih =>
    intro steps t hcount _ hsame hbehind
    have haround := Context.around_mem hstart hend steps
    have htest : (testAddress env c ((s.contexts c).around start steps) t).2 =
        suits env s ((s.contexts c).around start steps) := by
      rw [testAddress_snd, hsame.suits]
    have hlater : (testAddress env c ((s.contexts c).around start steps) t).2 = false →
        SameSearch t (testAddress env c ((s.contexts c).around start steps) t).1 :=
          testAddress_fails
    unfold runRounds searchRound
    generalize testAddress env c ((s.contexts c).around start steps) t = tested at htest hlater
    obtain ⟨tested, _ | _⟩ := tested
    · have hnow : SameSearch s tested := hsame.trans (hlater rfl)
      have hbehind' : ∀ k < steps + 1, suits env s ((s.contexts c).around start k) = false := by
        intro k hk
        rcases Nat.lt_succ_iff_lt_or_eq.mp hk with hk | rfl
        · exact hbehind k hk
        · exact htest.symm
      have hnext : (tested.contexts c).nextAddr ((s.contexts c).around start steps) =
          (s.contexts c).around start (steps + 1) := by
        have hstill : (tested.contexts c).nextAddr = (s.contexts c).nextAddr :=
          eq_of_still (f := fun contexts ↦ (contexts c).nextAddr) (fun _ ↦ rfl) hnow.1
        rw [hstill, Context.nextAddr_around hstart hend]
      have hround : (s.contexts c).around start (steps + 1) = start ↔
        steps + 1 = (s.contexts c).count :=
        Context.around_eq_start hstart hend (Nat.succ_pos steps) (by omega)
      dsimp only
      rw [hnext]
      split_ifs with hstop
      · -- the loop has come to all addresses
        refine ⟨_, rfl, .exhausted hnow fun addr haddr haddrEnd ↦ ?_⟩
        obtain ⟨k, hk, rfl⟩ := Context.exists_around hstart hend haddr haddrEnd
        exact hbehind' k (by rw [hround.mp hstop]; exact hk)
      · refine ih (by omega) ?_ hnow hbehind'
        have hne : steps + 1 ≠ (s.contexts c).count := fun heq ↦ hstop (hround.mpr heq)
        omega
    · have hsuits := htest.symm
      unfold suits at hsuits
      rw [Bool.and_eq_true] at hsuits
      exact ⟨_, rfl, .found haround.1 haround.2 hsuits.1⟩

theorem returns_search : ∃ result, Returns (searchRound env c start) (start, s) result ∧
    rangeLoop env c start (s.contexts c).count start s = result ∧ RangeOutcome env s c result := by
  have hfirst := Context.around_zero hstart hend
  obtain ⟨result, hrun, houtcome⟩ : ∃ result,
      runRounds (searchRound env c start) (s.contexts c).count ((s.contexts c).around start 0, s) =
        some result ∧ RangeOutcome env s c result :=
    runRounds_search hstart hend (s.contexts c).count (Nat.zero_add _) (Nat.succ_pos _) (.refl s)
      fun k hk ↦ absurd hk (Nat.not_lt_zero k)
  rw [hfirst] at hrun
  exact ⟨result, returns_of_runRounds _ hrun, rangeLoop_of_runRounds env c start _ hrun, houtcome⟩

end Range

/-! ### The ranges of a chain -/

def passedOver (env : AllocEnv) (pass : Bool) (c : Context) : Prop :=
  c.isStatic = true ∨ c.isProxy = true ∨ matchNetid c.filter env.tags pass = false

/-- What one pass over the ranges returns. It returns nothing if a loop does not end or the program
divides by zero. -/
inductive PassReturns (env : AllocEnv) (pass : Bool) :
    List ℕ → AllocState → AllocState × Option UInt32 → Prop
  | done {s : AllocState} : PassReturns env pass [] s (s, none)
  | skipped {c : ℕ} {rest : List ℕ} {s : AllocState} {result : AllocState × Option UInt32}
      (hskip : passedOver env pass (s.contexts c)) (hrest : PassReturns env pass rest s result) :
      PassReturns env pass (c :: rest) s result
  | found {c : ℕ} {rest : List ℕ} {s last : AllocState} {start addr : UInt32}
      (hskip : ¬passedOver env pass (s.contexts c)) (hseed : searchSeed env (s.contexts c) =
        some start)
      (hsearch : Returns (searchRound env c start) (start, s) (last, some addr)) :
      PassReturns env pass (c :: rest) s (last, some addr)
  | exhausted {c : ℕ} {rest : List ℕ} {s last : AllocState} {start : UInt32} {result :
    AllocState × Option UInt32}
      (hskip : ¬passedOver env pass (s.contexts c)) (hseed : searchSeed env (s.contexts c) =
        some start)
      (hsearch : Returns (searchRound env c start) (start, s) (last, none)) (hrest :
        PassReturns env pass rest last result) :
      PassReturns env pass (c :: rest) s result

/-- What `address_allocate` returns. -/
inductive AllocateReturns (env : AllocEnv) (s : AllocState) : AllocState × Option UInt32 → Prop
  | first {last : AllocState} {addr : UInt32}
    (hpass : PassReturns env false env.chain s (last, some addr)) :
      AllocateReturns env s (last, some addr)
  | second {last : AllocState} {result : AllocState × Option UInt32}
      (hpass : PassReturns env false env.chain s (last, none)) (hsecond :
        PassReturns env true env.chain last result) :
      AllocateReturns env s result

variable {pass : Bool}

variable {result result' : AllocState × Option UInt32}

theorem PassReturns.unique
    (h : PassReturns env pass chain s result)
    (h' : PassReturns env pass chain s result') : result = result' := by
  induction h with
  | done =>
    cases h'
    rfl
  | skipped hskip hrest ih =>
    cases h' with
    | skipped _ hrest' => exact ih hrest'
    | found hnot => exact absurd hskip hnot
    | exhausted hnot => exact absurd hskip hnot
  | found hskip hseed hsearch =>
    cases h' with
    | skipped hskip' => exact absurd hskip' hskip
    | found _ hseed' hsearch' =>
      obtain rfl := Option.some.inj (hseed.symm.trans hseed')
      exact hsearch.unique hsearch'
    | exhausted _ hseed' hsearch' =>
      obtain rfl := Option.some.inj (hseed.symm.trans hseed')
      cases hsearch.unique hsearch'
  | exhausted hskip hseed hsearch hrest ih =>
    cases h' with
    | skipped hskip' => exact absurd hskip' hskip
    | found _ hseed' hsearch' =>
      obtain rfl := Option.some.inj (hseed.symm.trans hseed')
      cases hsearch.unique hsearch'
    | exhausted _ hseed' hsearch' hrest' =>
      obtain rfl := Option.some.inj (hseed.symm.trans hseed')
      cases hsearch.unique hsearch'
      exact ih hrest'

theorem AllocateReturns.unique
    (h : AllocateReturns env s result) (h' : AllocateReturns env s result') : result = result' := by
  cases h with
  | first hpass =>
    cases h' with
    | first hpass' => exact hpass.unique hpass'
    | second hpass' => cases hpass.unique hpass'
  | second hpass hsecond =>
    cases h' with
    | first hpass' => cases hpass.unique hpass'
    | second hpass' hsecond' =>
      cases hpass.unique hpass'
      exact hsecond.unique hsecond'

/-- A range that addresses are taken from. -/
def searched (env : AllocEnv) (pass : Bool) (s : AllocState) (chain : List ℕ) (c : ℕ) : Prop :=
  c ∈ chain ∧ ¬passedOver env pass (s.contexts c)

inductive PassOutcome (env : AllocEnv) (pass : Bool) (s : AllocState) (chain : List ℕ) :
    AllocState × Option UInt32 → Prop
  | found {last : AllocState} {c : ℕ} {addr : UInt32} (hc : searched env pass s chain c)
      (hstart : (s.contexts c).start ≤ addr) (hend : addr ≤ (s.contexts c).endAddr)
      (hfree : addressFree s.contexts env.chain env.table env.configs addr = true) :
      PassOutcome env pass s chain (last, some addr)
  | exhausted {last : AllocState} (hsame : SameSearch s last)
      (hfails : ∀ c, searched env pass s chain c → ∀ addr, (s.contexts c).start ≤ addr →
        addr ≤ (s.contexts c).endAddr → suits env s addr = false) :
      PassOutcome env pass s chain (last, none)

theorem SameSearch.passedOver (h : SameSearch before after) (env : AllocEnv) (pass : Bool)
    (c : ℕ) : passedOver env pass (after.contexts c) = passedOver env pass (before.contexts c) :=
  eq_of_still (f := fun contexts ↦ Dnsmasq.passedOver env pass (contexts c)) (fun _ ↦ rfl) h.1

theorem SameSearch.ends (h : SameSearch before after) :
    SameEnds before.contexts after.contexts := fun c ↦
  ⟨eq_of_still (f := fun contexts ↦ (contexts c).start) (fun _ ↦ rfl) h.1,
    eq_of_still (f := fun contexts ↦ (contexts c).endAddr) (fun _ ↦ rfl) h.1⟩

variable {result : AllocState × Option UInt32}

theorem PassOutcome.of_same {s between : AllocState}
    (h : PassOutcome env pass between chain result)
    (hsame : SameSearch s between) : PassOutcome env pass s chain result := by
  have hsearched : ∀ c, searched env pass between chain c ↔ searched env pass s chain c :=
    fun c ↦ by
    unfold searched
    rw [hsame.passedOver]
  cases h with
  | found hc hstart hend hfree =>
    rw [addressFree_of_still hsame.1] at hfree
    rw [(hsame.ends _).1] at hstart
    rw [(hsame.ends _).2] at hend
    exact .found ((hsearched _).mp hc) hstart hend hfree
  | exhausted hlast hfails =>
    refine .exhausted (hsame.trans hlast) fun c hc addr ↦ ?_
    have h := hfails c ((hsearched c).mpr hc) addr
    rwa [(hsame.ends c).1, (hsame.ends c).2, hsame.suits] at h

theorem PassOutcome.cons {c : ℕ} {rest : List ℕ}
    (h : PassOutcome env pass s rest result)
    (hc : ¬passedOver env pass (s.contexts c) → ∀ addr, (s.contexts c).start ≤ addr →
      addr ≤ (s.contexts c).endAddr →
      suits env s addr = false) : PassOutcome env pass s (c :: rest) result := by
  cases h with
  | found hother hstart hend hfree =>
    exact .found ⟨List.mem_cons_of_mem c hother.1, hother.2⟩ hstart hend hfree
  | exhausted hlast hfails =>
    refine .exhausted hlast fun other hother ↦ ?_
    rcases List.mem_cons.mp hother.1 with rfl | hrest
    · exact hc hother.2
    · exact hfails other ⟨hrest, hother.2⟩

theorem contextLoop_skipped {c : ℕ} {rest : List ℕ}
    (hskip : passedOver env pass (s.contexts c)) :
    contextLoop env pass (c :: rest) s = contextLoop env pass rest s := by
  rw [contextLoop]
  exact if_pos hskip

theorem contextLoop_searched {s last : AllocState} {c : ℕ} {rest : List ℕ}
    {found : Option UInt32} (hskip : ¬passedOver env pass (s.contexts c))
    (hordered : (s.contexts c).start ≤ (s.contexts c).endAddr)
    (hrange : rangeLoop env c (rangeStart env (s.contexts c)) (s.contexts c).count
      (rangeStart env (s.contexts c)) s = (last, found)) :
    contextLoop env pass (c :: rest) s = found.elim (contextLoop env pass rest last) fun addr ↦
      (last, some addr) := by
  have hcount : ((s.contexts c).endAddr - (s.contexts c).start).toNat + 1 =
    (s.contexts c).count := by
    rw [UInt32.toNat_sub_of_le _ _ hordered]
    rfl
  rw [contextLoop]
  refine (if_neg hskip).trans ?_
  dsimp only
  rw [hcount, hrange]
  cases found <;> rfl

theorem contextLoop_returns (env : AllocEnv) (pass : Bool) (chain : List ℕ) :
    ∀ {s : AllocState}, ChainLinked s.contexts chain →
      PassReturns env pass chain s (contextLoop env pass chain s) ∧
        PassOutcome env pass s chain (contextLoop env pass chain s) := by
  induction chain with
  | nil => exact fun {s} _ ↦ ⟨.done, .exhausted (.refl s) fun c hc ↦ absurd hc.1 List.not_mem_nil⟩
  | cons c rest ih =>
    intro s hchain
    have hrest : ChainLinked s.contexts rest :=
      fun other hother ↦ hchain other (List.mem_cons_of_mem _ hother)
    have hc := hchain c List.mem_cons_self
    by_cases hskip : passedOver env pass (s.contexts c)
    · obtain ⟨hreturns, houtcome⟩ := ih hrest
      rw [contextLoop_skipped hskip]
      exact ⟨.skipped hskip hreturns, houtcome.cons fun hnot ↦ absurd hskip hnot⟩
    · obtain ⟨hstart, hend⟩ := rangeStart_mem env hc
      obtain ⟨⟨last, found⟩, hsearch, hrange, houtcome⟩ := @returns_search env s c _ hstart hend
      rw [contextLoop_searched hskip hc.ordered hrange]
      cases houtcome with
      | found haddr haddrEnd hfree =>
        exact ⟨.found hskip (searchSeed_eq hc) hsearch, .found ⟨List.mem_cons_self, hskip⟩ haddr
          haddrEnd hfree⟩
      | exhausted hsame hfails =>
        obtain ⟨hreturns, houtcome⟩ := ih (hrest.of_ends hsame.ends)
        exact ⟨.exhausted hskip (searchSeed_eq hc) hsearch hreturns, (houtcome.of_same hsame).cons
          fun _ ↦ hfails⟩

/-! ### `address_allocate` -/

/-- An address that a client can get: nobody has it, and it does not confuse the client. -/
structure Allocatable (contexts : Contexts) (env : AllocEnv) (addr : UInt32) : Prop where
  unleased : ∀ lease ∈ env.table.leases, lease.addr ≠ addr
  unconfigured : ∀ config ∈ env.configs, config.addr ≠ some addr
  noRouter : ∀ c ∈ env.chain, addr ≠ (contexts c).router
  classC : inClassC addr = true → addr &&& 0xff ≠ 0xff ∧ addr &&& 0xff ≠ 0

theorem addressFree_iff (contexts : Contexts) (env : AllocEnv) (addr : UInt32) :
    addressFree contexts env.chain env.table env.configs addr = true ↔
      Allocatable contexts env addr := by
  unfold addressFree LeaseTable.findByAddr configFindByAddress
  simp only [decide_eq_true_eq, List.all_eq_true, Option.isNone_iff_eq_none, List.find?_eq_none]
  constructor
  · rintro ⟨hrouter, hlease, hconfig, hclass⟩
    refine ⟨hlease, hconfig, hrouter, fun h ↦ ?_⟩
    rcases hclass with hclass | hclass
    · rw [hclass] at h
      cases h
    · exact hclass
  · rintro ⟨hlease, hconfig, hrouter, hclass⟩
    refine ⟨hrouter, hlease, hconfig, ?_⟩
    cases h : inClassC addr with
    | false => exact .inl rfl
    | true => exact .inr (hclass h)

theorem matchNetid_second {filter tags : List Tag} (h : matchNetid filter tags pass = true) :
    matchNetid filter tags true = true := by
  unfold matchNetid at h ⊢
  split_ifs at h ⊢
  · rfl
  · exact h

theorem not_passedOver :
    ¬passedOver env pass c ↔ c.isStatic = false ∧ c.isProxy = false ∧
      matchNetid c.filter env.tags pass = true := by
  unfold passedOver
  cases c.isStatic <;> cases c.isProxy <;> cases matchNetid c.filter env.tags pass <;> simp

/-- `address_allocate` comes to an end, without a division by zero. An address it returns is in a
range of the chain that it may be taken from, and nobody has it; if it returns none, every such
address fails the check. -/
theorem addressAllocate_search (env : AllocEnv) (s : AllocState)
    (hchain : ChainLinked s.contexts env.chain) :
    (∀ result, AllocateReturns env s result ↔ result = addressAllocate env s) ∧
      (∀ addr, (addressAllocate env s).2 = some addr →
        (∃ c ∈ env.chain, (s.contexts c).offers addr = true ∧
        matchNetid (s.contexts c).filter env.tags true = true) ∧
          Allocatable s.contexts env addr) ∧
      ((addressAllocate env s).2 = none →
      ∀ c ∈ env.chain, matchNetid (s.contexts c).filter env.tags true = true →
        ∀ addr, (s.contexts c).offers addr = true → Allocatable s.contexts env addr →
          passesCheck env s.pings addr = false) := by
  obtain ⟨hfirst, hfirstOutcome⟩ := contextLoop_returns env false env.chain hchain
  have hfound : ∀ {pass : Bool} {last : AllocState} {addr : UInt32},
      PassOutcome env pass s env.chain (last, some addr) →
        (∃ c ∈ env.chain, (s.contexts c).offers addr = true ∧
          matchNetid (s.contexts c).filter env.tags true = true) ∧
          Allocatable s.contexts env addr := by
    rintro pass last addr (⟨hc, hstart, hend, hfree⟩ | _)
    obtain ⟨hstatic, hproxy, htags⟩ := not_passedOver.mp hc.2
    exact ⟨⟨_, hc.1, by simp [Context.offers, hstatic, hproxy, hstart,
      hend], matchNetid_second htags⟩,
      (addressFree_iff _ _ _).mp hfree⟩
  cases hrun : contextLoop env false env.chain s with
  | mk last found =>
    rw [hrun] at hfirst hfirstOutcome
    cases found with
    | some addr =>
      have hresult : addressAllocate env s = (last, some addr) := by
        unfold addressAllocate
        rw [hrun]
      rw [hresult]
      refine ⟨fun result ↦ ⟨fun h ↦ h.unique (.first hfirst), ?_⟩, ?_, fun h ↦ nomatch h⟩
      · rintro rfl
        exact .first hfirst
      · rintro found hfound'
        obtain rfl := Option.some.inj hfound'
        exact hfound hfirstOutcome
    | none =>
      have hresult : addressAllocate env s = contextLoop env true env.chain last := by
        unfold addressAllocate
        rw [hrun]
      have hsame : SameSearch s last := by
        cases hfirstOutcome with
        | exhausted hsame => exact hsame
      obtain ⟨hsecond, houtcome⟩ :=
        contextLoop_returns env true env.chain (hchain.of_ends hsame.ends)
      have hlast := houtcome.of_same hsame
      rw [hresult]
      refine ⟨fun result ↦ ⟨fun h ↦ h.unique (.second hfirst hsecond), ?_⟩, fun addr haddr ↦
        ?_, fun hnone ↦ ?_⟩
      · rintro rfl
        exact .second hfirst hsecond
      · generalize contextLoop env true env.chain last = result at hlast haddr
        obtain ⟨final, found⟩ := result
        obtain rfl : found = some addr := haddr
        exact hfound hlast
      · intro c hc htags addr hoffers hallocatable
        generalize contextLoop env true env.chain last = result at hlast hnone
        obtain ⟨final, found⟩ := result
        obtain rfl : found = none := hnone
        simp only [Context.offers, decide_eq_true_eq] at hoffers
        obtain ⟨hstatic, hproxy, hstart, hend⟩ := hoffers
        cases hlast with
        | exhausted _ hfails =>
          have hsuits := hfails c ⟨hc, not_passedOver.mpr ⟨hstatic, hproxy, htags⟩⟩ addr hstart hend
          unfold suits at hsuits
          rwa [(addressFree_iff _ _ _).mpr hallocatable, Bool.true_and] at hsuits

/-- A range from 192.168.0.254 to 192.168.1.1 on a network with 16 bits. -/
def supernetRange : Context where
  start := 0xc0a800fe
  endAddr := 0xc0a80101
  netmask := 0xffff0000
  broadcast := 0xc0a8ffff
  localAddr := 0xc0a80001
  router := 0xc0a80001
  leaseTime := 3600
  addrEpoch := 0
  isStatic := false
  isProxy := false
  hasNetmask := true
  hasBroadcast := false
  netid := none
  filter := []

/-- The first address of the range is configured for a host, and clients get addresses in order. -/
def supernetEnv : AllocEnv where
  chain := [0]
  table := ⟨[], 150, 0⟩
  configs := [⟨1, false, false, none, none, some 0xc0a800fe, none, false, 0, [], []⟩]
  tags := []
  now := 1000
  consecAddr := true
  noPing := false
  icmpPing := fun _ ↦ false
  hash := hwaddrHash [2, 0, 0, 0, 0, 1]

/-- The search passes 192.168.0.255 and 192.168.1.0. -/
theorem addressAllocate_search_supernet :
    (addressAllocate supernetEnv ⟨fun _ ↦ supernetRange, []⟩).2 = some 0xc0a80101 ∧
      Allocatable (fun _ ↦ supernetRange) supernetEnv 0xc0a80101 := by
  have hrange : supernetRange.Linked := ⟨by decide, 0xc0a80001, 0xffff0000, by decide⟩
  have hlinked : ChainLinked (fun _ ↦ supernetRange) supernetEnv.chain := fun _ _ ↦ hrange
  have hresult : (addressAllocate supernetEnv ⟨fun _ ↦ supernetRange, []⟩).2 = some 0xc0a80101 := by
    decide +kernel
  exact ⟨hresult,
    ((addressAllocate_search supernetEnv ⟨fun _ ↦ supernetRange, []⟩ hlinked).2.1 _ hresult).2⟩

end CrossBreeder.Dnsmasq
