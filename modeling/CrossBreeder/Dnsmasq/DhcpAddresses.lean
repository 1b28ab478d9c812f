import CrossBreeder.Dnsmasq.Leases
import CrossBreeder.Dnsmasq.Packet

/-!
# Tags, ranges and hosts

What `dhcp.c` and `dhcp-common.c` know: tags, the ranges of addresses (`struct dhcp_context`), the
hosts of the configuration (`struct dhcp_config`), and which address is free.
-/

namespace CrossBreeder.Dnsmasq

/-! ### Tags -/

abbrev Tag := List UInt8

/-- One condition: a tag that is set, or behind `!` or `#` one that is not. -/
def tagMatches (pool : List Tag) (check : Tag) : Bool := match check with
  | 33 :: tag | 35 :: tag => tag ∉ pool
  | tag => tag ∈ pool

def matchNetid (check : List Tag) (pool : List Tag) (tagnotneeded : Bool) : Bool :=
  if check = [] then tagnotneeded else check.all (tagMatches pool)

/-- `run_tag_if`: the tags that conditions set. -/
def runTagIf (exprs : List (List Tag × List Tag)) (tags : List Tag) : List Tag :=
  exprs.foldl (fun tags expr ↦ if matchNetid expr.1 tags true then expr.2.reverse ++ tags
    else tags) tags

/-- A list of conditions of which one is met, where an empty one is always met. -/
def matchAnyOrAll (lists : List (List Tag)) (tags : List Tag) : Bool :=
  lists.any fun list ↦ list = [] ∨ matchNetid list tags false

/-! ### Names of hosts -/

def maxLabel : ℕ := 63

/-- The characters of a name, with the length of the label so far and whether there was one that is
not white. -/
def checkChars : List UInt8 → ℕ → Bool → Bool
  | [], _, nowhite => nowhite
  | c :: rest, dotgap, nowhite =>
    if c = 46 then checkChars rest 0 nowhite
    else if maxLabel < dotgap + 1 then false
    else if c < 32 ∨ 127 ≤ c then false
    else checkChars rest (dotgap + 1) (nowhite || c ≠ 32)

/-- `check_name`, which removes the dot at the end. -/
def checkName (name : List UInt8) : Option (List UInt8) :=
  if name = [] ∨ maxDname < name.length ∨ name = [46] then none
  else
    let name := if name.getLast? = some 46 then name.dropLast else name
    if checkChars name 0 false then some name else none

def hostChar (c : UInt8) : Bool := (65 ≤ c ∧ c ≤ 90) ∨ (97 ≤ c ∧ c ≤ 122) ∨
    (48 ≤ c ∧ c ≤ 57) ∨ c = 45 ∨ c = 95

def hostPart (name : List UInt8) : List UInt8 := name.takeWhile (· ≠ 46)

/-- `legal_hostname`, with the name as `check_name` leaves it. -/
def legalHostname (name : List UInt8) : Option (List UInt8) :=
  (checkName name).filter fun name ↦ (hostPart name).all hostChar

def cString (bytes : List UInt8) : List UInt8 := bytes.takeWhile (· ≠ 0)

/-! ### Ranges -/

/-- `struct dhcp_context`. -/
structure Context where
  start : UInt32
  endAddr : UInt32
  netmask : UInt32
  broadcast : UInt32
  localAddr : UInt32
  router : UInt32
  leaseTime : UInt32
  addrEpoch : UInt32
  isStatic : Bool
  isProxy : Bool
  hasNetmask : Bool
  hasBroadcast : Bool
  netid : Option Tag
  filter : List Tag

/-- The ranges. -/
abbrev Contexts := ℕ → Context

def isSameNet (a b mask : UInt32) : Bool := a &&& mask = b &&& mask

def Context.offers (c : Context) (addr : UInt32) : Bool :=
  c.isStatic = false ∧ c.isProxy = false ∧ c.start ≤ addr ∧ addr ≤ c.endAddr

/-- `address_available`, which compares with the router of the first range only. -/
def addressAvailable (contexts : Contexts) (chain : List ℕ) (addr : UInt32) (tags : List Tag) :
    Option ℕ :=
  match chain with
  | [] => none
  | first :: _ =>
    if addr = (contexts first).router then none
    else chain.find? fun c ↦ (contexts c).offers addr ∧ matchNetid (contexts c).filter tags true

def narrowContext (contexts : Contexts) (chain : List ℕ) (addr : UInt32) (tags : List Tag) :
    Option ℕ :=
  let near := fun c ↦ matchNetid (contexts c).filter tags true ∧
    isSameNet addr (contexts c).start (contexts c).netmask
  (addressAvailable contexts chain addr tags).or
    ((chain.find? fun c ↦ near c ∧ (contexts c).isStatic = true).or
      (chain.find? fun c ↦ near c ∧ (contexts c).isProxy = false))

/-! ### Hosts -/

/-- `struct hwaddr_config`. -/
structure HwaddrConfig where
  hwaddr : List UInt8
  hwaddrType : ℕ
  wildcardMask : UInt32

/-- `struct dhcp_config`. The number stands for its address in memory. -/
structure HostConfig where
  number : ℕ
  disable : Bool
  noclid : Bool
  clid : Option (List UInt8)
  hostname : Option (List UInt8)
  addr : Option UInt32
  leaseTime : Option UInt32
  declined : Bool
  declineTime : ℕ
  hwaddr : List HwaddrConfig
  netid : List Tag

def HwaddrConfig.forType (conf : HwaddrConfig) (hwType : ℕ) :
    Bool := conf.hwaddrType = hwType ∨ conf.hwaddrType = 0

def configFindByAddress (configs : List HostConfig) (addr : UInt32) : Option HostConfig :=
  configs.find? fun config ↦ config.addr = some addr

/-- `is_addr_in_context`, for a set of ranges. -/
def isAddrInContext (contexts : Contexts) (chain : List ℕ) (config : HostConfig) :
    Bool := match config.addr with
  | none => true
  | some addr => chain.any fun c ↦ isSameNet addr (contexts c).start (contexts c).netmask

def configHasMac (config : HostConfig) (hwaddr : List UInt8) (hwType : ℕ) : Bool :=
  config.hwaddr.any fun conf ↦ conf.wildcardMask = 0 ∧ conf.forType hwType ∧ conf.hwaddr = hwaddr

/-- `memcmp_masked`: the number of octets that are the same, and one more, from the last one on. -/
def memcmpMasked : List UInt8 → List UInt8 → UInt32 → Option ℕ
  | a :: as, b :: bs, mask =>
    if mask &&& 1 = 0 then if a = b then (memcmpMasked as bs (mask >>> 1)).map (· + 1) else none
    else memcmpMasked as bs (mask >>> 1)
  | _, _, _ => some 1

/-- A hardware address matches one of the configuration with wildcards. -/
def wildcardMatch (hwaddr : List UInt8) (hwType : ℕ) (conf : HwaddrConfig) : ℕ :=
  if conf.wildcardMask ≠ 0 ∧ conf.hwaddr.length = hwaddr.length ∧ conf.forType hwType then
    (memcmpMasked conf.hwaddr.reverse hwaddr.reverse conf.wildcardMask).getD 0
  else 0

/-- The match with the fewest wildcards. -/
def bestWildcard (contexts : Contexts) (chain : List ℕ) (configs : List HostConfig)
    (hwaddr : List UInt8) (hwType : ℕ) : Option HostConfig :=
  (configs.foldl (fun best config ↦
    if isAddrInContext contexts chain config then
      config.hwaddr.foldl (fun best conf ↦
        if best.1 < wildcardMatch hwaddr hwType conf then
          (wildcardMatch hwaddr hwType conf, some config) else best) best
    else best) (0, none)).2

/-- The identifier of a client is that of a host, or has a zero in front of it. -/
def clidMatches (config : HostConfig) (clid : List UInt8) : Bool :=
  config.clid = some clid ∨ (clid.head? = some 0 ∧ config.clid = some clid.tail)

def findConfig (contexts : Contexts) (chain : List ℕ) (configs : List HostConfig)
    (clid : Option (List UInt8)) (hwaddr : List UInt8) (hwType : ℕ)
    (hostname : Option (List UInt8)) : Option HostConfig :=
  let here := isAddrInContext contexts chain
  (clid.bind fun clid ↦ configs.find? fun config ↦ clidMatches config clid ∧ here config).or
    ((configs.find? fun config ↦ configHasMac config hwaddr hwType ∧ here config).or
      ((hostname.bind fun hostname ↦ configs.find? fun config ↦
          config.hostname.any (hostnameIsequal hostname) ∧ here config).or
        (bestWildcard contexts chain configs hwaddr hwType)))

/-! ### Allocation -/

/-- `struct ping_result`. -/
structure PingResult where
  addr : UInt32
  time : ℕ
  hash : UInt32

def hwaddrHash (hwaddr : List UInt8) : UInt32 :=
  hwaddr.foldl (fun j byte ↦ j + (byte.toUInt32 + (j <<< 6) + (j <<< 16) - j)) 0

/-- What is known about an address from pings: it was tried for this client, or for another one, or
it is not known, with the number of recent tries and the last old record. -/
inductive PingMemory
  | ours
  | others
  | unknown (count : ℕ) (victim : Option ℕ)

/-- `PING_CACHE_TIME`, and the number of pings in that time under high load. -/
def pingCacheTime : ℕ := 30
def pingMax : ℕ := 6

/-- The loop over the results of pings, with the position. -/
def searchPings (now : ℕ) (consec : Bool) (addr hash : UInt32) :
    List PingResult → ℕ → ℕ → Option ℕ → PingMemory
  | [], _, count, victim => .unknown count victim
  | r :: rest, position, count, victim =>
    if r.time + pingCacheTime < now then
      searchPings now consec addr hash rest (position + 1) count (some position)
    else if r.addr = addr then if consec ∧ r.hash ≠ hash then .others else .ours
    else searchPings now consec addr hash rest (position + 1) (count + 1) victim

/-- An address is recorded, in the place of an old record if there is one. -/
def recordPing (pings : List PingResult) (victim : Option ℕ) (result : PingResult) :
    List PingResult :=
  match victim with
  | none => result :: pings
  | some position => pings.set position result

/-- `IN_CLASSA`, `IN_CLASSB` and `IN_CLASSC`. -/
def inClassA (addr : UInt32) : Bool := addr &&& 0x80000000 = 0
def inClassB (addr : UInt32) : Bool := addr &&& 0xc0000000 = 0x80000000
def inClassC (addr : UInt32) : Bool := addr &&& 0xe0000000 = 0xc0000000

/-- An address that nobody has: not the server, no lease and no host, and not one that confuses some
clients. -/
def addressFree (contexts : Contexts) (chain : List ℕ) (table : LeaseTable)
    (configs : List HostConfig) (addr : UInt32) : Bool :=
  (chain.all fun c ↦ addr ≠ (contexts c).router) ∧ (table.findByAddr addr).isNone ∧
    (configFindByAddress configs addr).isNone ∧
    (inClassC addr = false ∨ (addr &&& 0xff ≠ 0xff ∧ addr &&& 0xff ≠ 0))

/-- What `address_allocate` changes. -/
structure AllocState where
  contexts : Contexts
  pings : List PingResult

/-- The rest of what `address_allocate` uses. -/
structure AllocEnv where
  chain : List ℕ
  table : LeaseTable
  configs : List HostConfig
  tags : List Tag
  now : ℕ
  consecAddr : Bool
  noPing : Bool
  icmpPing : UInt32 → Bool
  hash : UInt32

/-- Other addresses of a range are tried from now on. -/
def bumpEpoch (contexts : Contexts) (c : ℕ) : Contexts :=
  Function.update contexts c { contexts c with addrEpoch := (contexts c).addrEpoch + 1 }

/-- A free address is tried: true if it can be used. -/
def tryAddress (env : AllocEnv) (c : ℕ) (addr : UInt32) (s : AllocState) : AllocState × Bool :=
  match searchPings env.now env.consecAddr addr env.hash s.pings 0 0 none with
  | .ours => (s, true)
  | .others => (s, false)
  | .unknown count victim =>
    if count < pingMax ∧ env.noPing = false ∧ env.icmpPing addr then
      (if env.consecAddr then s else { s with contexts := bumpEpoch s.contexts c }, false)
    else ({ s with pings := recordPing s.pings victim ⟨addr, env.now, env.hash⟩ }, true)

def Context.nextAddr (c : Context) (addr : UInt32) :
    UInt32 := if addr + 1 = c.endAddr + 1 then c.start else addr + 1

/-- The loop over the addresses of a range. -/
def rangeLoop (env : AllocEnv) (c : ℕ) (start : UInt32) :
    ℕ → UInt32 → AllocState → AllocState × Option UInt32
  | 0, _, s => (s, none)
  | fuel + 1, addr, s =>
    match if addressFree s.contexts env.chain env.table env.configs addr then
      tryAddress env c addr s else (s, false) with
    | (s, true) => (s, some addr)
    | (s, false) =>
      let next := (s.contexts c).nextAddr addr
      if next = start then (s, none) else rangeLoop env c start fuel next s

/-- Where the loop over a range starts. -/
def rangeStart (env : AllocEnv) (c : Context) : UInt32 :=
  if env.consecAddr then env.table.findMaxAddr c.start c.endAddr
  else c.start + (env.hash + c.addrEpoch) % (1 + c.endAddr - c.start)

/-- The loop over the ranges, in a pass. -/
def contextLoop (env : AllocEnv) (pass : Bool) : List ℕ → AllocState → AllocState × Option UInt32
  | [], s => (s, none)
  | c :: rest, s =>
    if (s.contexts c).isStatic ∨ (s.contexts c).isProxy ∨
        matchNetid (s.contexts c).filter env.tags pass = false then contextLoop env pass rest s
    else
      let start := rangeStart env (s.contexts c)
      match rangeLoop env c start (((s.contexts c).endAddr - (s.contexts c).start).toNat + 1) start
        s with
      | (s, some addr) => (s, some addr)
      | (s, none) => contextLoop env pass rest s

def addressAllocate (env : AllocEnv) (s : AllocState) : AllocState × Option UInt32 :=
  match contextLoop env false env.chain s with
  | (s, some addr) => (s, some addr)
  | (s, none) => contextLoop env true env.chain s

end CrossBreeder.Dnsmasq
