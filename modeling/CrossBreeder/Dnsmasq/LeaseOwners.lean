import CrossBreeder.Dnsmasq.LeaseChanges

/-!
# Who has an address

No two leases of the table have one address, and a client that is sent a `DHCPACK` has the lease of
the address (`leasesExclusive_of_reachable`). Boot servers of PXE acknowledge requests that have
nothing to do with leases (`bootServer_acks_without_lease`).
-/

namespace CrossBreeder.Dnsmasq

open Foundation

/-! ### Leases without their names -/

def Lease.nameless (lease : Lease) : Lease :=
  { lease with hostname := none, fqdn := none, authName := false }

theorem Lease.eq_of_nameless {α : Type*} {f : Lease → α} (hf : ∀ lease, f lease.nameless = f lease)
    {left right : Lease} (hsame : left.nameless = right.nameless) : f left = f right := by
  rw [← hf left, hsame, hf]

def Lease.serve (lease : Lease) (call : DhcpCall) (clid : Option (List UInt8))
    (time override : UInt32) : Lease :=
  { (lease.setHwaddr call.mess.chaddr call.mess.htype.toNat clid).setExpires time call.arrival.now
    with
    override := override }

namespace LeaseTable

theorem map_update {α : Type*} (table : LeaseTable) (number : ℕ) {change : Lease → Lease}
    {f : Lease → α} (hchange : ∀ lease, f (change lease) = f lease) :
    (table.update number change).leases.map f = table.leases.map f := by
  unfold update
  rw [List.map_map]
  refine List.map_congr_left fun lease _ ↦ ?_
  dsimp only [Function.comp]
  split_ifs
  · exact hchange lease
  · rfl

theorem map_nameless_update (table : LeaseTable) (number : ℕ) {change : Lease → Lease}
    (hchange : ∀ lease, (change lease).nameless = change lease.nameless) :
    (table.update number change).leases.map Lease.nameless =
      (table.leases.map Lease.nameless).map fun lease ↦ if lease.number = number then change lease
      else lease := by
  unfold update
  rw [List.map_map, List.map_map]
  refine List.map_congr_left fun lease _ ↦ ?_
  dsimp only [Function.comp]
  rw [apply_ite Lease.nameless, hchange]
  rfl

theorem map_nameless_setHostname (byFqdn : Bool) (table : LeaseTable) (lease : Lease)
    (name : List UInt8) (auth : Bool) (domain : Option (List UInt8)) :
    (table.setHostname byFqdn lease name auth domain).leases.map Lease.nameless =
      table.leases.map Lease.nameless := by
  unfold setHostname
  dsimp only
  split_ifs
  · exact table.map_update _ fun _ ↦ rfl
  · rfl
  · split
    · exact table.map_update _ fun _ ↦ rfl
    · split_ifs
      · rfl
      · next holder _ _ =>
        calc ((table.update holder.number Lease.killName).giveName lease.number name
                (qualify name domain) auth).leases.map Lease.nameless
            = (table.update holder.number Lease.killName).leases.map Lease.nameless :=
              LeaseTable.map_update _ _ fun _ ↦ rfl
          _ = table.leases.map Lease.nameless := table.map_update _ fun _ ↦ rfl

theorem setHostname_counts (byFqdn : Bool) (table : LeaseTable) (lease : Lease) (name : List UInt8)
    (auth : Bool) (domain : Option (List UInt8)) :
    (table.setHostname byFqdn lease name auth domain).allocated = table.allocated ∧
      (table.setHostname byFqdn lease name auth domain).leasesLeft = table.leasesLeft := by
  unfold setHostname
  dsimp only
  split_ifs
  · exact ⟨rfl, rfl⟩
  · exact ⟨rfl, rfl⟩
  · split
    · exact ⟨rfl, rfl⟩
    · split_ifs <;> exact ⟨rfl, rfl⟩

end LeaseTable

section Serving

variable {env : DhcpEnv} {call : DhcpCall} {base : LeaseTable} {lease : Lease}
    {clid name : Option (List UInt8)}
  {auth : Bool} {time override : UInt32}

theorem map_nameless_finishLease :
    (finishLease env call base lease clid name auth time override).leases.map Lease.nameless =
      base.leases.map fun l ↦
        (if l.number = lease.number then l.serve call clid time override else l).nameless := by
  -- a name may be given in between
  have hserve : ∀ named : LeaseTable, named.leases.map Lease.nameless =
      (base.update lease.number fun l ↦
        l.setHwaddr call.mess.chaddr call.mess.htype.toNat clid).leases.map Lease.nameless →
      (named.update lease.number fun l ↦
        { l.setExpires time call.arrival.now with override := override }).leases.map
          Lease.nameless =
        base.leases.map fun l ↦
          (if l.number = lease.number then l.serve call clid time override else l).nameless := by
    intro named hnamed
    rw [named.map_nameless_update, hnamed, base.map_nameless_update, List.map_map, List.map_map]
    rotate_left
    · exact fun _ ↦ rfl
    · exact fun _ ↦ rfl
    refine List.map_congr_left fun l _ ↦ ?_
    by_cases hnumber : l.number = lease.number <;>
      simp [hnumber, Lease.nameless, Lease.serve, Lease.setHwaddr, Lease.setExpires]
  cases name with
  | none => exact hserve _ rfl
  | some name => exact hserve _ (LeaseTable.map_nameless_setHostname _ _ _ _ _ _)

theorem finishLease_counts :
    (finishLease env call base lease clid name auth time override).allocated = base.allocated ∧
      (finishLease env call base lease clid name auth time override).leasesLeft =
      base.leasesLeft := by
  cases name with
  | none => exact ⟨rfl, rfl⟩
  | some name => exact LeaseTable.setHostname_counts _ _ _ _ _ _

end Serving

/-! ### The invariant -/

structure TableInv (table : LeaseTable) : Prop where
  fresh : ∀ lease ∈ table.leases, lease.number < table.allocated
  numbers : (table.leases.map Lease.number).Nodup
  addrs : (table.leases.map Lease.addr).Nodup
  clids : ∀ lease ∈ table.leases, ∀ c, lease.clid = some c → ClidLike c

structure Reworked (table last : LeaseTable) (change : Lease → Lease) : Prop where
  leases : last.leases.map Lease.nameless = table.leases.map fun lease ↦ (change lease).nameless
  allocated : last.allocated = table.allocated
  number : ∀ lease, (change lease).number = lease.number
  addr : ∀ lease, (change lease).addr = lease.addr

variable {lease : Lease}

namespace Reworked

variable {table last : LeaseTable} {change : Lease → Lease}

theorem before (h : Reworked table last change) {after : Lease} (hmem : after ∈ last.leases) :
    ∃ lease ∈ table.leases, (change lease).nameless = after.nameless := by
  have hmap := List.mem_map_of_mem (f := Lease.nameless) hmem
  rw [h.leases] at hmap
  exact List.mem_map.mp hmap

theorem after (h : Reworked table last change) (hmem : lease ∈ table.leases) :
    ∃ after ∈ last.leases, after.nameless = (change lease).nameless := by
  have hmap := List.mem_map_of_mem (f := fun lease ↦ (change lease).nameless) hmem
  rw [← h.leases] at hmap
  exact List.mem_map.mp hmap

theorem map_eq {α : Type*} (h : Reworked table last change) {f : Lease → α}
    (hnames : ∀ lease, f lease.nameless = f lease) (hstays : ∀ lease, f (change lease) = f lease) :
    last.leases.map f = table.leases.map f := by
  have hf : f = f ∘ Lease.nameless := funext fun lease ↦ (hnames lease).symm
  calc last.leases.map f = (last.leases.map Lease.nameless).map f := by rw [List.map_map, ← hf]
    _ = (table.leases.map fun lease ↦ (change lease).nameless).map f := by rw [h.leases]
    _ = table.leases.map f := by
      rw [List.map_map]
      exact List.map_congr_left fun lease _ ↦ (hnames _).trans (hstays lease)

theorem tableInv (h : Reworked table last change) (hinv : TableInv table)
    (hclids : ∀ lease ∈ table.leases, ∀ c, (change lease).clid = some c → ClidLike c) :
    TableInv last where
  fresh := by
    intro after hmem
    obtain ⟨lease, hlease, hsame⟩ := h.before hmem
    have hnumber : (change lease).number = after.number := Lease.eq_of_nameless (fun _ ↦ rfl) hsame
    rw [h.allocated, ← hnumber, h.number]
    exact hinv.fresh lease hlease
  numbers := by
    rw [h.map_eq (fun _ ↦ rfl) h.number]
    exact hinv.numbers
  addrs := by
    rw [h.map_eq (fun _ ↦ rfl) h.addr]
    exact hinv.addrs
  clids := by
    intro after hmem c hc
    obtain ⟨lease, hlease, hsame⟩ := h.before hmem
    have hclid : (change lease).clid = after.clid := Lease.eq_of_nameless (fun _ ↦ rfl) hsame
    exact hclids lease hlease c (hclid.trans hc)

theorem setOverride (table : LeaseTable) (number : ℕ) (override : UInt32) :
    Reworked table (table.update number fun lease ↦ { lease with override := override })
      (fun lease ↦ if lease.number = number then { lease with override := override }
        else lease) where
  leases := List.map_map
  allocated := rfl
  number := by
    intro l
    split_ifs <;> rfl
  addr := by
    intro l
    split_ifs <;> rfl

end Reworked

def serveChange (lease : Lease) (call : DhcpCall) (clid : Option (List UInt8))
    (time override : UInt32) (l : Lease) :
    Lease :=
  if l.number = lease.number then l.serve call clid time override else l

section Serving

variable {env : DhcpEnv} {call : DhcpCall} {base : LeaseTable} {lease : Lease}
    {clid name : Option (List UInt8)}
  {auth : Bool} {time override : UInt32}

theorem Reworked.finishLease :
    Reworked base (finishLease env call base lease clid name auth time override)
    (serveChange lease call clid time override) where
  leases := map_nameless_finishLease
  allocated := finishLease_counts.1
  number := by
    intro l
    unfold serveChange
    split_ifs <;> rfl
  addr := by
    intro l
    unfold serveChange
    split_ifs <;> rfl

theorem clid_serve (lease : Lease) {c : List UInt8} (hc : c ≠ []) (hclid : clid = some c) :
    (lease.serve call clid time override).clid = some c := by
  cases c with
  | nil => exact absurd rfl hc
  | cons first rest => simp [Lease.serve, Lease.setExpires, Lease.setHwaddr, hclid]

theorem clid_serve_cases (l : Lease) : (l.serve call clid time override).clid = l.clid ∨
    (l.serve call clid time override).clid = clid := by
  rcases clid with _ | _ | ⟨first, rest⟩
  · exact .inl rfl
  · exact .inl rfl
  · exact .inr rfl

end Serving

variable {served : Option (UInt32 × Option (List UInt8))}

variable {env : DhcpEnv}

namespace TableInv

variable {table : LeaseTable}

theorem empty (dhcpMax : ℕ) : TableInv (.empty dhcpMax) where
  fresh := by simp [LeaseTable.empty]
  numbers := List.nodup_nil
  addrs := List.nodup_nil
  clids := by simp [LeaseTable.empty]

theorem prune (h : TableInv table) (target : Option ℕ) (now : ℕ) :
    TableInv (table.prune target now) where
  fresh lease hmem := h.fresh lease (List.mem_filter.mp hmem).1
  numbers := h.numbers.sublist (List.filter_sublist.map _)
  addrs := h.addrs.sublist (List.filter_sublist.map _)
  clids lease hmem := h.clids lease (List.mem_filter.mp hmem).1

theorem allocate4 (h : TableInv table) {addr : UInt32} {base : LeaseTable}
    (hfree : table.findByAddr addr = none) (halloc : table.allocate4 addr = some (base, lease)) :
    TableInv base := by
  unfold LeaseTable.allocate4 at halloc
  split_ifs at halloc
  simp only [Option.some.injEq, Prod.mk.injEq] at halloc
  obtain ⟨rfl, rfl⟩ := halloc
  refine ⟨?_, ?_, ?_, ?_⟩
  · intro lease hmem
    rcases List.mem_cons.mp hmem with rfl | hold
    · exact Nat.lt_succ_self _
    · exact Nat.lt_succ_of_lt (h.fresh lease hold)
  · refine List.nodup_cons.mpr ⟨fun hmem ↦ ?_, h.numbers⟩
    obtain ⟨lease, hlease, hnumber⟩ := List.mem_map.mp hmem
    exact absurd hnumber (h.fresh lease hlease).ne
  · refine List.nodup_cons.mpr ⟨fun hmem ↦ ?_, h.addrs⟩
    obtain ⟨lease, hlease, haddr⟩ := List.mem_map.mp hmem
    exact absurd (decide_eq_true haddr) (List.find?_eq_none.mp hfree lease hlease)
  · intro lease hmem
    rcases List.mem_cons.mp hmem with rfl | hold
    · simp
    · exact h.clids lease hold

theorem serve (h : TableInv table) {call : DhcpCall} {clid name : Option (List UInt8)}
    {auth : Bool} {time override : UInt32} (hclid : ∀ c, clid = some c → ClidLike c) :
    TableInv (finishLease env call table lease clid name auth time override) := by
  refine Reworked.finishLease.tableInv h fun l hmem c hc ↦ ?_
  unfold serveChange at hc
  split_ifs at hc
  · rcases clid_serve_cases l with hsame | hnew
    · exact h.clids l hmem c (hsame.symm.trans hc)
    · exact hclid c (hnew.symm.trans hc)
  · exact h.clids l hmem c hc

theorem setOverride (h : TableInv table) (number : ℕ) (override : UInt32) :
    TableInv (table.update number fun lease ↦ { lease with override := override }) := by
  refine (Reworked.setOverride table number override).tableInv h fun l hmem c hc ↦ ?_
  split_ifs at hc <;> exact h.clids l hmem c hc

theorem change {configs : List HostConfig} {mess : DhcpRequest} {now : ℕ} {last : LeaseTable}
    (hchange : LeaseChange env configs mess now table last served)
    (h : TableInv table) : TableInv last := by
  induction hchange with
  | same table => exact h
  | prune target _ ih => exact ih (h.prune target now)
  | override table number override => exact h.setOverride number override
  | serve call auth time override _ _ hlease hclid _ =>
    rcases hlease with ⟨rfl, -⟩ | ⟨hfree, halloc⟩
    · exact h.serve hclid
    · exact (h.allocate4 hfree halloc).serve hclid

end TableInv

/-! ### Reachable tables -/

/-- The lease of an address is for the client of a request. -/
def LeaseTable.OwnedBy (table : LeaseTable) (configs : List HostConfig) (mess : DhcpRequest)
    (addr : UInt32) : Prop :=
  ∃ lease ∈ table.leases, lease.addr = addr ∧ lease.hwaddr = mess.chaddr ∧
    lease.hwaddrLen = mess.chaddr.length ∧
    lease.hwaddrType = mess.htype.toNat ∧ IdentifierOf configs mess lease.clid

theorem mem_of_allocate4 {table base : LeaseTable} {addr : UInt32}
    (halloc : table.allocate4 addr = some (base, lease)) : lease ∈ base.leases := by
  unfold LeaseTable.allocate4 at halloc
  split_ifs at halloc
  simp only [Option.some.injEq, Prod.mk.injEq] at halloc
  obtain ⟨rfl, rfl⟩ := halloc
  exact List.mem_cons_self

theorem LeaseChange.owner {configs : List HostConfig} {mess : DhcpRequest} {now : ℕ}
    {table last : LeaseTable}
    (hchange : LeaseChange env configs mess now table last served) {addr : UInt32}
    {clid : Option (List UInt8)} (hserved : served = some (addr, clid))
    (hclid : IdentifierOf configs mess clid) :
    last.OwnedBy configs mess addr := by
  induction hchange with
  | same table => exact absurd hserved (by simp)
  | prune target _ ih => exact ih hserved
  | override table number override => exact absurd hserved (by simp)
  | @serve table base lease call given name auth time override hmess hnow hlease hgiven hname =>
    obtain ⟨rfl, rfl⟩ := Prod.mk.inj (Option.some.inj hserved)
    have hmem : lease ∈ base.leases := by
      rcases hlease with ⟨rfl, hmem⟩ | ⟨-, halloc⟩
      · exact hmem
      · exact mem_of_allocate4 halloc
    obtain ⟨after, hafter, hsame⟩ :=
      (@Reworked.finishLease env call base lease given name auth time override).after hmem
    rw [show serveChange lease call given time override lease =
      lease.serve call given time override from
      if_pos rfl] at hsame
    have hfield : ∀ {α : Type} (f : Lease → α), (∀ l : Lease, f l.nameless = f l) →
        f after = f (lease.serve call given time override) :=
          fun f hf ↦ Lease.eq_of_nameless hf hsame
    subst hmess
    refine ⟨after, hafter, hfield Lease.addr fun _ ↦ rfl, hfield Lease.hwaddr fun _ ↦ rfl,
      hfield Lease.hwaddrLen fun _ ↦ rfl, hfield Lease.hwaddrType fun _ ↦ rfl, fun c hc ↦ ?_⟩
    rcases hclid c hc with hsent | hignored
    · exact .inl ((hfield Lease.clid fun _ ↦ rfl).trans (clid_serve lease (hgiven _ hsent).1 hsent))
    · exact .inr hignored

theorem tableInv_of_reachable {dhcpMax : ℕ} {s : DhcpState} (hreach : DhcpReachable env dhcpMax s) :
    TableInv s.table := by
  refine Reachable.invariant (fun s ↦ TableInv s.table) ?_ ?_ hreach
  · intro s hinitial
    have htable : s.table = .empty dhcpMax := hinitial
    rw [htable]
    exact .empty dhcpMax
  · intro s event next _ hinv _ hnext
    cases event with
    | packet world arrival mess =>
      obtain ⟨⟨last, answer⟩, hreply, rfl⟩ := Option.map_eq_some_iff.mp hnext
      obtain ⟨⟨served, hchange, -⟩, -⟩ := dhcpReply_change hinv.clids hreply
      exact .change hchange hinv
    | prune now =>
      obtain rfl := Option.some.inj hnext
      exact hinv.prune none now

/-- In every state of the server no two leases have one address, and whoever is sent a `DHCPACK` by
it has the lease of the address afterwards. -/
theorem leasesExclusive_of_reachable {env : DhcpEnv} {dhcpMax : ℕ} {s : DhcpState}
    (hreach : DhcpReachable env dhcpMax s) :
    (s.table.leases.map Lease.addr).Nodup ∧
      ∀ world arrival mess s' yiaddr id, dhcpReply env world s arrival mess = some
      (s', .ack yiaddr id) →
        s'.table.OwnedBy s.configs mess yiaddr := by
  have hinv := tableInv_of_reachable hreach
  refine ⟨hinv.addrs, fun world arrival mess s' yiaddr id hreply ↦ ?_⟩
  obtain ⟨⟨served, hchange, hack⟩, -⟩ := dhcpReply_change hinv.clids hreply
  obtain ⟨clid, hserved, hclid⟩ := hack yiaddr id rfl
  exact hchange.owner hserved hclid

/-! ### A small network -/

/-- The range 192.168.0.10 to 192.168.0.20, on the network of a server with the address 192.168.0.1.
-/
def homeRange : Context :=
  { start := 0xc0a8000a, endAddr := 0xc0a80014, netmask := 0xffffff00, broadcast := 0xc0a800ff
    localAddr := 0xc0a80001, router := 0xc0a80001, leaseTime := 3600, addrEpoch :=
      0, isStatic := false
    isProxy := false, hasNetmask := false, hasBroadcast := false, netid := none, filter := [] }

/-- A server with that range, which serves the item 0 to PXE clients. -/
def homeEnv : DhcpEnv :=
  { dhcp := [0], authoritative := false, byFqdn := false, consecAddr := false, noPing := true,
    override := false
    overrideRelays := [], ignore := [], bootpDynamic := [], ignoreNames := [], genNames :=
      [], tagIf := []
    enablePxe := true, pxeServices := [⟨0, true⟩], getDomain := fun _ ↦ none }

def homeStart : DhcpState := ⟨.empty 10, fun _ ↦ homeRange, [], []⟩

def homeWorld : DhcpWorld := ⟨fun _ ↦ false, fun _ ↦ none, [0xc0a80001]⟩

def homeArrival : Arrival := ⟨[0], 0xc0a80001, false, false, 1000⟩

def homeRequest : DhcpRequest :=
  { bootRequest := true, htype := 1, chaddr := [2, 0, 0, 0, 0, 7], ciaddr := 0, giaddr := 0,
    cookie := true
    messType := some dhcpRequest, requestedIp := some 0xc0a8000c, serverIdentifier :=
      some 0xc0a80001
    clientId := none, subnetAddr := 0, serverOverride := 0, leaseTime := none, clientFqdn :=
      none, hostname := none
    file := none, tags := [], pxeClient := false, bootItem := none, arch := false }

def bootItemRequest : DhcpRequest :=
  { homeRequest with
    ciaddr := 0xc0a8000f, requestedIp := none, serverIdentifier := none, pxeClient := true,
      bootItem := some (0, 0) }

theorem homeStart_reachable : DhcpReachable homeEnv 10 homeStart := .start rfl

theorem leasesExclusive_home :
    ∃ s', dhcpReply homeEnv homeWorld homeStart homeArrival homeRequest = some
      (s', .ack 0xc0a8000c 0xc0a80001) ∧ s'.table.OwnedBy [] homeRequest 0xc0a8000c := by
  have hack : (dhcpReply homeEnv homeWorld homeStart homeArrival homeRequest).map Prod.snd =
      some (.ack 0xc0a8000c 0xc0a80001) := by decide
  obtain ⟨⟨s', answer⟩, hreply, rfl⟩ := Option.map_eq_some_iff.mp hack
  exact ⟨s', hreply, (leasesExclusive_of_reachable homeStart_reachable).2 _ _ _ _ _ _ hreply⟩

/-- The address of a `DHCPACK`. -/
def DhcpAnswer.ackedAddr : DhcpAnswer → Option UInt32
  | .ack yiaddr _ => some yiaddr
  | .pxe type yiaddr _ => if type = 5 then some yiaddr else none
  | _ => none

/-- A boot server acknowledges the request for a boot item, and nobody has a lease. -/
theorem bootServer_acks_without_lease :
    ¬∀ (env : DhcpEnv) (dhcpMax : ℕ) (s : DhcpState), DhcpReachable env dhcpMax s →
      (s.table.leases.map Lease.addr).Nodup ∧
        ∀ world arrival mess s' answer yiaddr, mess.messType = some dhcpRequest →
          dhcpReply env world s arrival mess = some (s', answer) → answer.ackedAddr = some yiaddr →
          s'.table.OwnedBy s.configs mess yiaddr := by
  intro hclaim
  have hreply : (dhcpReply homeEnv homeWorld homeStart homeArrival bootItemRequest).map
      (fun reply ↦ (reply.1.table, reply.2)) = some (.empty 10, .pxe 5 0xc0a8000f 0xc0a80001) := by
        decide
  obtain ⟨⟨s', answer⟩, hreply, heq⟩ := Option.map_eq_some_iff.mp hreply
  obtain ⟨htable, rfl⟩ := Prod.mk.inj heq
  obtain ⟨lease, hmem, -⟩ :=
    (hclaim _ _ _ homeStart_reachable).2 _ _ _ s' _ 0xc0a8000f rfl hreply rfl
  rw [htable] at hmem
  exact absurd hmem (by simp [LeaseTable.empty])

end CrossBreeder.Dnsmasq
