import CrossBreeder.Dnsmasq.DhcpAddresses
import CrossBreeder.Foundation.Transition

/-!
# Requests of DHCP clients

`dhcp_reply`: which lease a request of a client creates, changes or ends, and what the client is
told. A request is given by its fields and by what `option_find` finds in it (`DhcpRequest`), and a
reply by its kind, its address and the identifier of the server (`DhcpAnswer`).
-/

namespace CrossBreeder.Dnsmasq

open Foundation

/-! ### Requests and replies -/

/-- Types of messages. -/
def dhcpDiscover : ℕ := 1
def dhcpRequest : ℕ := 3
def dhcpDecline : ℕ := 4
def dhcpRelease : ℕ := 7
def dhcpInform : ℕ := 8

/-- The data of an option that `option_find` finds with at least one byte. -/
abbrev OptionData := { bytes : List UInt8 // bytes ≠ [] ∧ bytes.length ≤ 255 }

/-- A packet from a client, with the options that `dhcp_reply` looks at. `tags` are the tags that
its interface, its hardware address and its options set. -/
structure DhcpRequest where
  bootRequest : Bool
  htype : UInt8
  chaddr : List UInt8
  ciaddr : UInt32
  giaddr : UInt32
  cookie : Bool
  messType : Option ℕ
  requestedIp : Option UInt32
  serverIdentifier : Option UInt32
  clientId : Option OptionData
  subnetAddr : UInt32
  serverOverride : UInt32
  leaseTime : Option UInt32
  clientFqdn : Option OptionData
  hostname : Option OptionData
  file : Option Tag
  tags : List Tag
  pxeClient : Bool
  bootItem : Option (ℕ × ℕ)
  arch : Bool

/-- What a client is told: nothing, or a message with an address and the identifier of the server.
-/
inductive DhcpAnswer
  | silence
  | bootp (yiaddr : UInt32)
  | offer (yiaddr serverId : UInt32)
  | ack (yiaddr serverId : UInt32)
  | nak (serverId : UInt32)
  | inform (serverId : UInt32)
  | pxe (type : ℕ) (yiaddr serverId : UInt32)
  deriving DecidableEq, Repr

/-- `struct pxe_service`, without what it offers. -/
structure PxeService where
  type : ℕ
  basename : Bool

/-- What `dhcp_reply` uses of the configuration. `dhcp` has the numbers of the ranges, and
`getDomain` is `get_domain`. -/
structure DhcpEnv where
  dhcp : List ℕ
  authoritative : Bool
  byFqdn : Bool
  consecAddr : Bool
  noPing : Bool
  override : Bool
  overrideRelays : List UInt32
  ignore : List (List Tag)
  bootpDynamic : List (List Tag)
  ignoreNames : List (List Tag)
  genNames : List (List Tag)
  tagIf : List (List Tag × List Tag)
  enablePxe : Bool
  pxeServices : List PxeService
  getDomain : UInt32 → Option (List UInt8)

/-- What the system knows during a call. -/
structure DhcpWorld where
  icmpPing : UInt32 → Bool
  hostsName : UInt32 → Option (List UInt8)
  interfaces : List UInt32

structure DhcpState where
  table : LeaseTable
  contexts : Contexts
  configs : List HostConfig
  pings : List PingResult

/-- How a packet arrives. -/
structure Arrival where
  chain : List ℕ
  fallback : UInt32
  pxe : Bool
  unicast : Bool
  now : ℕ

/-! ### Parts of `dhcp_reply` -/

/-- `ARPHRD_EUI64` and `ARPHRD_IEEE1394`. -/
def arphrdEui64 : UInt8 := 27
def arphrdIeee1394 : UInt8 := 24

def extendedHwaddr (htype : UInt8) (hwaddr : List UInt8) (clid : Option (List UInt8)) :
    List UInt8 :=
  match hwaddr, clid with
  | [], some (first :: rest) =>
    if 3 < rest.length + 1 then
      if first = htype ∨ (first = arphrdEui64 ∧ htype = arphrdIeee1394) then rest else first :: rest
    else []
  | _, _ => hwaddr

def calcTime (context : Context) (config : Option HostConfig) (requested : Option UInt32) :
    UInt32 :=
  let time := (config.bind HostConfig.leaseTime).getD context.leaseTime
  match requested with
  | none => time
  | some requested =>
    let requested := if requested < 120 then 120 else requested
    if time = 0xffffffff ∨ (requested ≠ 0xffffffff ∧ requested < time) then requested else time

def serverId (context : Option Context) (override fallback : UInt32) : UInt32 :=
  if override ≠ 0 then override
  else match context with
    | none => fallback
    | some context => if context.localAddr ≠ 0 then context.localAddr else fallback

/-- The netmask that is guessed for a relayed network. -/
def guessNetmask (c : Context) : UInt32 :=
  if c.hasNetmask = false ∧ c.netmask = 0 then
    if inClassA c.start ∧ inClassA c.endAddr then 0xff000000
    else if inClassB c.start ∧ inClassB c.endAddr then 0xffff0000
    else if inClassC c.start ∧ inClassC c.endAddr then 0xffffff00
    else 0
  else c.netmask

def onNetwork (addr netmask : UInt32) (c : Context) : Bool :=
  netmask ≠ 0 ∧ isSameNet addr c.start netmask ∧ isSameNet addr c.endAddr netmask

/-- A range gets what is missing for a relayed network. -/
def fillContext (c : Context) (fallback giaddr : UInt32) : Context :=
  let netmask := guessNetmask c
  { c with
    netmask := netmask
    localAddr := if c.localAddr = 0 then fallback else c.localAddr
    router := if c.router = 0 then giaddr else c.router
    broadcast := if c.hasBroadcast = false ∧ c.broadcast = 0 then c.start ||| ~~~ netmask
      else c.broadcast }

/-- The ranges on the network of an address, the last one first. -/
def relayedChain (addr fallback giaddr : UInt32) : List ℕ → Contexts → List ℕ → Contexts × List ℕ
  | [], contexts, chain => (contexts, chain)
  | c :: rest, contexts, chain =>
    if onNetwork addr (guessNetmask (contexts c)) (contexts c) then
      relayedChain addr fallback giaddr rest
        (Function.update contexts c (fillContext (contexts c) fallback giaddr)) (c :: chain)
    else relayedChain addr fallback giaddr rest contexts chain

/-- The network of a packet: the ranges of the interface, unless the client has an address, there is
a relay or a network was selected. -/
def determineNetwork (env : DhcpEnv) (contexts : Contexts) (arrival : Arrival)
    (subnetAddr giaddr ciaddr : UInt32) : Contexts × List ℕ :=
  if subnetAddr ≠ 0 then relayedChain subnetAddr arrival.fallback giaddr env.dhcp contexts []
  else if giaddr ≠ 0 then relayedChain giaddr arrival.fallback giaddr env.dhcp contexts []
  else if ciaddr ≠ 0 then
    if arrival.chain.any fun c ↦ onNetwork ciaddr (contexts c).netmask (contexts c) then
      (contexts, arrival.chain)
    else
      let (contexts, chain) := relayedChain ciaddr arrival.fallback giaddr env.dhcp contexts []
      (contexts, if chain = [] then arrival.chain else chain)
  else (contexts, arrival.chain)

/-- The labels of a name in a FQDN option, with dots behind them. -/
def fqdnLabels : ℕ → List UInt8 → List UInt8
  | 0, _ => []
  | _ + 1, [] => []
  | fuel + 1, l :: rest =>
    if l = 0 ∨ rest.length ≤ l.toNat then
      [] else rest.take l.toNat ++ [46] ++ fqdnLabels fuel (rest.drop l.toNat)

def fqdnName (option : List UInt8) : List UInt8 :=
  let name := option.drop 3
  if option.getD 0 0 &&& 0x04 ≠ 0 then (fqdnLabels name.length name).dropLast else name

def clientHostname (mess : DhcpRequest) : Option (List UInt8) :=
  match mess.clientFqdn, mess.hostname with
  | some option, _ => legalHostname (cString (fqdnName option.val))
  | none, some name => legalHostname (cString name.val)
  | none, none => none

def hostFromDns (env : DhcpEnv) (world : DhcpWorld) (addr : UInt32) : Option (List UInt8) :=
  (world.hostsName addr).bind fun name ↦
    let domain := (name.dropWhile (· ≠ 46)).tail
    if domain ≠ [] ∧ (env.getDomain addr).any (hostnameIsequal domain) = false then none
    else (legalHostname name).map fun name ↦ hostPart (name.take 255)

/-- A name made of the hardware address. -/
def generatedName (emac : List UInt8) : List UInt8 :=
  ((emac.take 80).zipIdx.map fun (byte, i) ↦
    [hexLower (byte.toNat / 16), hexLower (byte.toNat % 16)] ++ if i + 1 = emac.length then []
      else [45]).flatten
where
  /-- A digit as `%x` prints it. -/
  hexLower (dig : ℕ) : UInt8 := UInt8.ofNat (if dig < 10 then dig + 48 else dig + 87)

/-! ### `dhcp_reply` -/

def knownTag : Tag := "known".toUTF8.toList
def bootpTag : Tag := "bootp".toUTF8.toList

/-- What `dhcp_reply` knows about a request when it looks at its type: `chain` is the network,
`netid` and `tagif` are the tags, without and with those that conditions set. -/
structure DhcpCall where
  arrival : Arrival
  mess : DhcpRequest
  ciaddr : UInt32
  override : UInt32
  clid : Option (List UInt8)
  lease : Option Lease
  emac : List UInt8
  chain : List ℕ
  config : Option HostConfig
  netid : List Tag
  tagif : List Tag
  ignore : Bool
  hostname : Option (List UInt8)
  hostnameAuth : Bool

def DhcpCall.disabled (call : DhcpCall) : Bool := call.config.any HostConfig.disable

def DhcpCall.configAddr (call : DhcpCall) : Option UInt32 := call.config.bind HostConfig.addr

/-- `address_allocate`. -/
def DhcpState.allocateAddress (env : DhcpEnv) (world : DhcpWorld) (s : DhcpState) (chain : List ℕ)
    (hwaddr : List UInt8) (tags : List Tag) (now : ℕ) : DhcpState × Option UInt32 :=
  let (alloc, addr) := addressAllocate
    { chain := chain, table := s.table, configs := s.configs, tags := tags, now := now,
      consecAddr := env.consecAddr
      noPing := env.noPing, icmpPing := world.icmpPing, hash := hwaddrHash hwaddr }
        ⟨s.contexts, s.pings⟩
  ({ s with contexts := alloc.contexts, pings := alloc.pings }, addr)

/-- A lease gets the identity of the client, a name and its time. -/
def finishLease (env : DhcpEnv) (call : DhcpCall) (table : LeaseTable) (lease : Lease)
    (clid : Option (List UInt8)) (name : Option (List UInt8)) (auth : Bool)
    (time override : UInt32) : LeaseTable :=
  let table := table.update lease.number fun lease ↦
    lease.setHwaddr call.mess.chaddr call.mess.htype.toNat clid
  let table := match name with
    | none => table
    | some name => table.setHostname env.byFqdn lease name auth (env.getDomain lease.addr)
  table.update lease.number fun lease ↦
    { lease.setExpires time call.arrival.now with override := override }

/-- A lease for a BOOTP client, which never ends unless the configuration says so. -/
def bootpLease (env : DhcpEnv) (s : DhcpState) (call : DhcpCall) (table : LeaseTable)
    (lease : Lease) : DhcpState :=
  let time := (call.config.bind HostConfig.leaseTime).getD 0xffffffff
  { s with
    table := finishLease env call table lease none (call.config.bind HostConfig.hostname) true time
      lease.override }

/-- The address for a BOOTP client, with its lease if it has one. -/
def bootpAddress (env : DhcpEnv) (world : DhcpWorld) (s : DhcpState) (call : DhcpCall)
    (tagif : List Tag) : DhcpState × Option (UInt32 × Option Lease) :=
  match call.configAddr with
  | some addr => match s.table.findByAddr addr with
    | none => (s, some (addr, none))
    | some lease =>
      if lease.hwaddrLen ≠ call.mess.chaddr.length ∨ lease.hwaddrType ≠ call.mess.htype.toNat ∨
          lease.hwaddr ≠ call.mess.chaddr then (s, none)
      else (s, some (addr, some lease))
  | none =>
    let lease := s.table.findByClient call.mess.chaddr call.mess.htype.toNat none
    match lease.filter fun lease ↦
      (addressAvailable s.contexts call.chain lease.addr tagif).isSome with
    | some lease => (s, some (lease.addr, some lease))
    | none =>
      -- a lease on another network is given up
      let s := match lease with
        | none => s
        | some lease => { s with table := s.table.prune (some lease.number) call.arrival.now }
      let (s, addr) :=
        s.allocateAddress env world call.chain call.mess.chaddr tagif call.arrival.now
      (s, addr.map fun addr ↦ (addr, none))

/-- The part of `dhcp_reply` for BOOTP. -/
def bootpReply (env : DhcpEnv) (world : DhcpWorld) (s : DhcpState) (call : DhcpCall) :
    Option (DhcpState × DhcpAnswer) :=
  if call.mess.htype = 0 ∨ call.mess.chaddr = [] ∨
    call.chain.head?.any (fun c ↦ (s.contexts c).isProxy) then
    some (s, .silence)
  else
    let netid :=
      bootpTag :: (call.mess.file.toList ++ (call.config.elim [] HostConfig.netid).reverse ++
        call.netid)
    let tagif := runTagIf env.tagIf netid
    if call.disabled ∨ env.ignore.any fun list ↦ matchNetid list tagif false then some (s, .silence)
    else match bootpAddress env world s call tagif with
      | (s, none) => some (s, .silence)
      | (s, some (yiaddr, lease)) => match narrowContext s.contexts call.chain yiaddr netid with
        | none => some (s, .silence)
        | some c =>
          let tagif := (s.contexts c).netid.elim tagif fun tag ↦ runTagIf env.tagIf (tag :: netid)
          if call.configAddr = none ∧ matchAnyOrAll env.bootpDynamic tagif = false then
            some (s, .silence)
          else match lease with
            | some lease => some (bootpLease env s call s.table lease, .bootp yiaddr)
            | none => (s.table.allocate4 yiaddr).map fun (table, lease) ↦
              (bootpLease env s call table lease, .bootp yiaddr)

/-- `DHCPDECLINE`. -/
def declineReply (s : DhcpState) (call : DhcpCall) : DhcpState :=
  match call.mess.serverIdentifier, call.mess.requestedIp with
  | some id, some addr =>
    if id ≠ serverId (call.chain.head?.map s.contexts) call.override call.arrival.fallback then s
    else
      let s := match call.lease.filter fun lease ↦ lease.addr = addr with
        | none => s
        | some lease => { s with table := s.table.prune (some lease.number) call.arrival.now }
      match call.config.filter fun config ↦ config.addr = some addr with
      | some config =>
        { s with configs := s.configs.map fun other ↦
            if other.number = config.number then
              { other with declined := true, declineTime := call.arrival.now }
            else other }
      | none => { s with contexts := call.chain.foldl bumpEpoch s.contexts }
  | _, _ => s

/-- `DHCPRELEASE`. -/
def releaseReply (s : DhcpState) (call : DhcpCall) : DhcpState :=
  match narrowContext s.contexts call.chain call.ciaddr call.tagif, call.mess.serverIdentifier with
  | some c, some id =>
    if id ≠ serverId (some (s.contexts c)) call.override call.arrival.fallback then s
    else match call.lease.filter fun lease ↦ lease.addr = call.ciaddr with
      | none => s
      | some lease => { s with table := s.table.prune (some lease.number) call.arrival.now }
  | _, _ => s

def declineBackoff : ℕ := 600

/-- The address of the configuration can be offered: no other client has it, it is not that of the
server, and it was not declined. -/
def configOffer (s : DhcpState) (call : DhcpCall) : Option UInt32 :=
  call.config.bind fun config ↦ config.addr.filter fun addr ↦
    ((s.table.findByAddr addr).all fun ltmp ↦
      call.lease.map Lease.number = some ltmp.number ∨
        configHasMac config ltmp.hwaddr ltmp.hwaddrType) ∧
    call.chain.head?.all (fun c ↦ (s.contexts c).router ≠ addr) ∧
    ¬(config.declined ∧ call.arrival.now < config.declineTime + declineBackoff) ∧ addr ≠ 0

def leaseOffer (s : DhcpState) (call : DhcpCall) : Option UInt32 :=
  (call.lease.map Lease.addr).filter fun addr ↦
    (addressAvailable s.contexts call.chain addr call.tagif).isSome ∧
      (configFindByAddress s.configs addr).isNone

/-- The address that the client asks for can be offered. -/
def requestedOffer (s : DhcpState) (call : DhcpCall) : Option UInt32 :=
  call.mess.requestedIp.filter fun addr ↦
    (addressAvailable s.contexts call.chain addr call.tagif).isSome ∧
      (s.table.findByAddr addr).isNone ∧ (configFindByAddress s.configs addr).isNone

def offeredAddress (env : DhcpEnv) (world : DhcpWorld) (s : DhcpState) (call : DhcpCall) :
    DhcpState × Option UInt32 :=
  match (configOffer s call).or ((leaseOffer s call).or (requestedOffer s call)) with
  | some addr => (s, some addr)
  | none =>
    if call.emac = [] then (s, none)
    else s.allocateAddress env world call.chain call.emac call.tagif call.arrival.now

/-- `DHCPDISCOVER`. -/
def discoverReply (env : DhcpEnv) (world : DhcpWorld) (s : DhcpState) (call : DhcpCall) :
    DhcpState × DhcpAnswer :=
  if call.ignore ∨ call.disabled then (s, .silence)
  else match offeredAddress env world s call with
    | (s, none) => (s, .silence)
    | (s, some yiaddr) => match narrowContext s.contexts call.chain yiaddr call.tagif with
      | none => (s, .silence)
      | some c =>
        (s, .offer yiaddr (serverId (some (s.contexts c)) call.override call.arrival.fallback))

/-- What becomes of a request that is for some server. -/
inductive ServerChoice
  | ignore
  | here (chain : List ℕ) (override : UInt32)
  | wrong

def chooseServer (env : DhcpEnv) (world : DhcpWorld) (contexts : Contexts) (call : DhcpCall)
    (id : UInt32) :
    ServerChoice :=
  if call.override ≠ 0 then if id = call.override then .here call.chain call.override else .ignore
  else match call.chain.dropWhile fun c ↦ (contexts c).localAddr ≠ id with
    | c :: rest => .here (c :: rest) 0
    | [] =>
      if id ∈ world.interfaces then .here [] id
      else if env.authoritative then .wrong
      else .ignore

/-- The address of the configuration waits for the client. -/
def staticWaits (s : DhcpState) (call : DhcpCall) (chain : List ℕ) (lease : Option Lease)
    (yiaddr : UInt32) : Bool :=
  call.config.any fun config ↦ config.addr.any fun addr ↦
    chain.head?.all (fun c ↦ (s.contexts c).router ≠ addr) ∧
      ¬(config.declined ∧ call.arrival.now ≤ config.declineTime + declineBackoff) ∧ addr ≠ yiaddr ∧
      (s.table.findByAddr addr).all fun ltmp ↦ lease.map Lease.number = some ltmp.number

/-- The checks of `DHCPREQUEST` once the range is known. -/
def requestChecks (s : DhcpState) (call : DhcpCall) (chain : List ℕ) (c : ℕ) (lease : Option Lease)
    (yiaddr : UInt32) (selecting : Bool) : Bool :=
  ((addressAvailable s.contexts [c] yiaddr call.tagif).isSome ∨ call.configAddr = some yiaddr) ∧
    (selecting ∨ staticWaits s call chain lease yiaddr = false) ∧
    ((configFindByAddress s.configs yiaddr).all fun other ↦
      call.config.map HostConfig.number = some other.number) ∧
    (lease.isSome ∨ (s.table.findByAddr yiaddr).all fun ltmp ↦
      call.config.any fun config ↦ configHasMac config ltmp.hwaddr ltmp.hwaddrType) ∧
    call.emac ≠ []

/-- The name for a lease: of the configuration, of `/etc/hosts`, of the client, or made up. -/
def leaseName (env : DhcpEnv) (world : DhcpWorld) (call : DhcpCall) (tagif : List Tag)
    (yiaddr : UInt32) : Option (List UInt8) × Bool :=
  let (hostname, auth) := if call.hostnameAuth then (call.hostname, true)
    else match hostFromDns env world yiaddr with
      | some name => (some name, true)
      | none => (call.hostname, false)
  let hostname := if auth = false ∧ matchAnyOrAll env.ignoreNames tagif then none else hostname
  (match hostname with
    | some name => some name
    | none => if call.emac ≠ [] ∧ matchAnyOrAll env.genNames tagif then
      some (generatedName call.emac) else none, auth)

/-- A lease is given to a client. -/
def grantLease (env : DhcpEnv) (world : DhcpWorld) (s : DhcpState) (call : DhcpCall) (c : ℕ)
    (override : UInt32) (table : LeaseTable) (lease : Lease) (yiaddr : UInt32) :
    DhcpState × DhcpAnswer :=
  let tagif := (s.contexts c).netid.elim call.tagif fun tag ↦ runTagIf env.tagIf (tag :: call.netid)
  let (hostname, auth) := leaseName env world call tagif yiaddr
  let override := if override ≠ 0 then override else lease.override
  let time := calcTime (s.contexts c) call.config call.mess.leaseTime
  ({ s with table := finishLease env call table lease call.clid hostname auth time override },
    .ack yiaddr (serverId (some (s.contexts c)) override call.arrival.fallback))

/-- A request is granted or refused. -/
def settleRequest (env : DhcpEnv) (world : DhcpWorld) (s : DhcpState) (call : DhcpCall)
    (chain : List ℕ) (override : UInt32) (lease : Option Lease) (yiaddr : UInt32)
    (selecting : Bool) : Option (DhcpState × DhcpAnswer) :=
  match narrowContext s.contexts chain yiaddr call.tagif with
  | none => some (s, .nak (serverId none override call.arrival.fallback))
  | some c =>
    if requestChecks s call chain c lease yiaddr selecting then
      match lease.or (s.table.findByAddr yiaddr) with
      | some lease => some (grantLease env world s call c override s.table lease yiaddr)
      | none => (s.table.allocate4 yiaddr).map fun (table, lease) ↦
        grantLease env world s call c override table lease yiaddr
    else some (s, .nak (serverId (some (s.contexts c)) override call.arrival.fallback))

/-- `DHCPREQUEST`. -/
def requestReply (env : DhcpEnv) (world : DhcpWorld) (s : DhcpState) (call : DhcpCall) :
    Option (DhcpState × DhcpAnswer) :=
  let nakHere :=
    DhcpAnswer.nak (serverId (call.chain.head?.map s.contexts) call.override call.arrival.fallback)
  if call.ignore ∨ call.disabled then some (s, .silence)
  else match call.mess.requestedIp, call.mess.serverIdentifier with
    | some yiaddr, some id =>
      -- another lease of the client is given up
      let squashed := match call.lease.filter fun lease ↦ lease.addr ≠ yiaddr with
        | none => (s, call.lease)
        | some lease =>
          ({ s with table := s.table.prune (some lease.number) call.arrival.now }, none)
      match chooseServer env world s.contexts call id with
      | .ignore => some (s, .silence)
      | .here chain override =>
        settleRequest env world squashed.1 call chain override squashed.2 yiaddr true
      | .wrong => some (squashed.1, .nak (serverId none call.override call.arrival.fallback))
    | some yiaddr, none => match call.lease with
      | none =>
        if env.authoritative then
          settleRequest env world s call call.chain call.override none yiaddr false
        else some (s, .silence)
      | some lease =>
        if lease.addr ≠ yiaddr then some (s, nakHere)
        else settleRequest env world s call call.chain call.override (some lease) yiaddr false
    | none, _ =>
      if call.lease.elim (!env.authoritative) (fun lease ↦ call.ciaddr ≠ lease.addr) then
        some (s, if call.arrival.unicast then nakHere else .silence)
      else settleRequest env world s call call.chain call.override call.lease call.ciaddr false

/-- `DHCPINFORM`. -/
def informReply (s : DhcpState) (call : DhcpCall) : DhcpState × DhcpAnswer :=
  if call.ignore ∨ call.disabled ∨ call.ciaddr = 0 then (s, .silence)
  else
    let context := (narrowContext s.contexts call.chain call.ciaddr call.tagif).map s.contexts
    match call.lease.or (s.table.findByAddr call.ciaddr) with
    | none => (s, .inform (serverId context call.override call.arrival.fallback))
    | some lease =>
      let override := if call.override ≠ 0 then call.override else lease.override
      ({ s with table := s.table.update lease.number fun lease ↦
        { lease with override := override } },
        .inform (serverId context override call.arrival.fallback))

/-- The answer to a PXE client, if it is not an ordinary one. -/
def pxeAnswer (env : DhcpEnv) (s : DhcpState) (call : DhcpCall) : Option DhcpAnswer :=
  let type := call.mess.messType.getD 0
  let id := (call.chain.head?.map s.contexts).elim 0 Context.localAddr
  if env.enablePxe = false ∨ call.mess.pxeClient = false then none
  else match if type = dhcpRequest ∨ type = dhcpInform then call.mess.bootItem else none with
    | some (item, layer) =>
      if call.ignore ∨ layer &&& 0x8000 ≠ 0 ∨
          (env.pxeServices.find? fun service ↦ service.type = item).all (fun service ↦
            service.basename = false) then
        some .silence
      else some (.pxe 5 call.ciaddr id)
    | none =>
      if call.mess.arch ∧ (type = dhcpDiscover ∨ (call.arrival.pxe ∧ type = dhcpRequest)) ∧
          call.chain.any fun c ↦ (s.contexts c).isProxy ∧
            matchNetid (s.contexts c).filter call.tagif true then
        some (if call.ignore then .silence else .pxe (if type = dhcpDiscover then 2 else 5) 0 id)
      else none

/-- The part of `dhcp_reply` that looks at the type of the message. -/
def typedReply (env : DhcpEnv) (world : DhcpWorld) (s : DhcpState) (call : DhcpCall) :
    Option (DhcpState × DhcpAnswer) :=
  match pxeAnswer env s call with
  | some answer => some (s, answer)
  | none =>
    let type := call.mess.messType.getD 0
    if call.chain.head?.any (fun c ↦ (s.contexts c).isProxy) ∨ call.arrival.pxe then
      some (s, .silence)
    else if type = dhcpDecline then some (declineReply s call, .silence)
    else if type = dhcpRelease then some (releaseReply s call, .silence)
    else if type = dhcpDiscover then some (discoverReply env world s call)
    else if type = dhcpRequest then requestReply env world s call
    else if type = dhcpInform then some (informReply s call)
    else some (s, .silence)

/-- The name and the host of a client, which may be found by its name. -/
def clientHost (s : DhcpState) (call : DhcpCall) : DhcpCall :=
  match call.config.bind HostConfig.hostname with
  | some name => { call with hostname := some name, hostnameAuth := true }
  | none => match (clientHostname call.mess).map hostPart with
    | none | some [] => call
    | some (first :: rest) =>
      let found := if call.config.isSome then call.config
        else (findConfig s.contexts call.chain s.configs none call.mess.chaddr call.mess.htype.toNat
          (some (first :: rest))).filter fun new ↦ new.clid = none ∧ new.hwaddr.isEmpty
      { call with hostname := some (first :: rest), config := found }

/-- The override of the identifier of the server. -/
def relayOverride (env : DhcpEnv) (override giaddr : UInt32) : UInt32 :=
  if env.override ∧ giaddr ≠ 0 ∧ override = 0 ∧
    (env.overrideRelays = [] ∨ giaddr ∈ env.overrideRelays) then giaddr
  else override

/-- What is known about a request of a DHCP client. -/
def completeCall (env : DhcpEnv) (s : DhcpState) (call : DhcpCall) : DhcpCall :=
  let call := clientHost s call
  let netid := call.config.elim call.netid fun config ↦
    config.netid.reverse ++ knownTag :: call.netid
  let tagif := runTagIf env.tagIf netid
  { call with
    netid := netid
    tagif := tagif
    ignore := env.ignore.any fun list ↦ matchNetid list tagif false
    override := relayOverride env call.override call.mess.giaddr
    clid := if call.config.any HostConfig.noclid then none else call.clid }

def dhcpChaddrMax : ℕ := 16

/-- A packet that is not looked at. -/
def DhcpRequest.rejected (mess : DhcpRequest) : Bool :=
  mess.bootRequest = false ∨ dhcpChaddrMax < mess.chaddr.length ∨
    (mess.htype = 0 ∧ mess.chaddr ≠ []) ∨ (mess.messType.isSome ∧ mess.cookie = false)

/-- `dhcp_reply`. Without a result the program has crashed. -/
def dhcpReply (env : DhcpEnv) (world : DhcpWorld) (s : DhcpState) (arrival : Arrival)
    (mess : DhcpRequest) : Option (DhcpState × DhcpAnswer) :=
  if mess.rejected then some (s, .silence)
  else
    let dhcp := mess.messType.isSome
    -- some clients have an address there when they should not
    let ciaddr := if dhcp ∧ (mess.requestedIp.isSome ∨ mess.messType = some dhcpDiscover) then 0
      else mess.ciaddr
    let subnetAddr := if dhcp then mess.subnetAddr else 0
    let clientId := mess.clientId.map Subtype.val
    let lease := if dhcp then s.table.findByClient mess.chaddr mess.htype.toNat clientId else none
    let clid := if dhcp then clientId.or (lease.bind Lease.clid) else none
    let (contexts, chain) := determineNetwork env s.contexts arrival subnetAddr mess.giaddr ciaddr
    let s := { s with contexts := contexts }
    if chain = [] then some (s, .silence)
    else
      let config := findConfig contexts chain s.configs clid mess.chaddr mess.htype.toNat none
      let call : DhcpCall :=
        { arrival := arrival, mess := mess, ciaddr := ciaddr, override := if dhcp then
          mess.serverOverride else 0
          clid := clid, lease := lease, emac :=
            if dhcp then extendedHwaddr mess.htype mess.chaddr clid else []
          chain := chain, config := config, netid := mess.tags, tagif := mess.tags, ignore := false
          hostname := none, hostnameAuth := false }
      if mess.messType.getD 0 = 0 ∧ arrival.pxe = false then
        bootpReply env world s { call with netid := if config.isSome then knownTag :: mess.tags
          else mess.tags }
      else typedReply env world s (completeCall env s call)

/-! ### The system -/

/-- What happens to the server: a packet comes, or leases that expired are pruned. -/
inductive DhcpEvent
  | packet (world : DhcpWorld) (arrival : Arrival) (mess : DhcpRequest)
  | prune (now : ℕ)

def DhcpState.next (env : DhcpEnv) (s : DhcpState) : DhcpEvent → Option DhcpState
  | .packet world arrival mess => (dhcpReply env world s arrival mess).map Prod.fst
  | .prune now => some { s with table := s.table.prune none now }

def LeaseTable.empty (dhcpMax : ℕ) : LeaseTable := ⟨[], dhcpMax, 0⟩

def dhcpSystem (env : DhcpEnv) (dhcpMax : ℕ) : System DhcpState DhcpEvent :=
  System.ofStep (fun s ↦ s.table = .empty dhcpMax) (DhcpState.next env)

def DhcpReachable (env : DhcpEnv) (dhcpMax : ℕ) (s : DhcpState) : Prop :=
  Reachable (dhcpSystem env dhcpMax) (fun _ _ ↦ True) s

end CrossBreeder.Dnsmasq
