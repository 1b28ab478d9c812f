import CrossBreeder.Dnsmasq.ReplyPackets
import CrossBreeder.Foundation.HandlePool

/-!
# The forwarder

`forward.c`: queries of clients are sent to servers and the replies go back. A query on its way has
a record in a table, the `frec`s, and records share a pool of sockets with random ports. What the
system does during a call, that is which memory, sockets and random numbers it gives and which
packets it takes, is a parameter (`Net`).

The records are never freed, and a new one is put in front of the list. So the list is given by the
number of records, and a record by its number, the highest one being the first of the list.
-/

namespace CrossBreeder.Dnsmasq

open Foundation

/-! ### Servers and records -/

/-- `AF_INET` and `AF_INET6`. -/
inductive Family
  | inet | inet6
  deriving DecidableEq, Repr

/-- `union mysockaddr`, as far as `sockaddr_isequal` looks at it. -/
structure SockAddr where
  family : Family
  port : ℕ
  addr : List UInt8
  deriving DecidableEq, Repr

def servNoAddr : UInt16 := 2
def servLiteralAddress : UInt16 := 4
def servHasDomain : UInt16 := 8
def servForNodots : UInt16 := 32
def servType : UInt16 := servHasDomain ||| servForNodots
def servUseResolv : UInt16 := 1024
def servNoRebind : UInt16 := 2048

/-- `struct server`. The number stands for its address in memory, and `sfd` is its socket, if it has
one of its own. -/
structure Server where
  number : ℕ
  addr : SockAddr
  flags : UInt16
  domain : List UInt8
  sfd : Option ℕ
  deriving DecidableEq, Repr

def Server.has (server : Server) (flags : UInt16) : Bool := server.flags &&& flags ≠ 0

/-- `struct frec`. The sockets are given by their index. The serial is not in the source: it tells
apart the queries that a record is used for. -/
structure Frec where
  source : SockAddr
  dest : List UInt8
  sentto : Option Server
  rfd4 : Option ℕ
  rfd6 : Option ℕ
  iface : ℕ
  origId : UInt16
  newId : UInt16
  fd : ℕ
  forwardall : ℕ
  norebind : Bool
  checkingDisabled : Bool
  crc : UInt32
  time : ℤ
  serial : ℕ

def Frec.rfd (f : Frec) : Family → Option ℕ
  | .inet => f.rfd4
  | .inet6 => f.rfd6

def Frec.setRfd (f : Frec) : Family → Option ℕ → Frec
  | .inet, i => { f with rfd4 := i }
  | .inet6, i => { f with rfd6 := i }

inductive ForwardEvent
  | query (source : SockAddr) (id : UInt16) (crc : UInt32)
  | upstream (serial : ℕ) (server : Server) (id : UInt16) (packet : Packet)
  | client (record : Option (ℕ × UInt32)) (dest : SockAddr) (id : UInt16) (packet : Packet)

/-- The variables of `forward.c`, and what happened so far, the last event first. -/
structure ForwardState where
  servers : List Server
  frecs : ℕ
  frec : ℕ → Frec
  randomsocks : HandlePool Family
  finger : ℕ
  lastServer : Option Server
  forwardcount : ℕ
  forwardtime : ℤ
  session : Session
  serials : ℕ
  log : List ForwardEvent

structure ForwardEnv where
  cache : Env
  process : ProcessOptions
  ftabsize : ℕ
  localTtl : ℕ
  optOrder : Bool
  optAllServers : Bool
  optNoRebind : Bool
  optNodotsLocal : Bool

/-- What the system does during a call: whether there is memory, what `rand16` returns, whether a
socket for a family can be opened, and whether a packet for a server can be sent. -/
structure Net where
  malloc : Bool
  rand16 : List UInt16
  randomSock : Family → Bool
  sendto : Server → Bool
  addMac : SockAddr → Packet → ℕ → Packet × ℕ

def randomSocks : ℕ := 64

/-- `TIMEOUT`. -/
def frecTimeout : ℤ := 15

namespace ForwardState

def setFrec (s : ForwardState) (number : ℕ) (f : Frec) : ForwardState :=
  { s with frec := Function.update s.frec number f }

def frecList (s : ForwardState) : List ℕ := (List.range s.frecs).reverse

def note (s : ForwardState) (event : ForwardEvent) : ForwardState :=
  { s with log := event :: s.log }

/-! ### The table -/

/-- `allocate_frec`, with a record that nothing is known about. -/
def allocateFrec (s : ForwardState) (now : ℤ) : ForwardState :=
  { s with
    frecs := s.frecs + 1
    frec := Function.update s.frec s.frecs
      { s.frec s.frecs with
        time := now, sentto := none, rfd4 := none, rfd6 := none, norebind := false,
          checkingDisabled := false } }

/-- A record gives up its socket for a family. -/
def freeRfd (s : ForwardState) (number : ℕ) (family : Family) : ForwardState :=
  match (s.frec number).rfd family with
  | none => s
  | some i =>
    { s with
      randomsocks := s.randomsocks.release i
      frec := Function.update s.frec number ((s.frec number).setRfd family none) }

def freeFrec (s : ForwardState) (number : ℕ) : ForwardState :=
  let s := s.freeRfd number .inet
  let s := s.setFrec number { s.frec number with
    sentto := none, norebind := false, checkingDisabled := false }
  s.freeRfd number .inet6

def freeSock (s : ForwardState) : Option ℕ :=
  (List.range randomSocks).find? fun i ↦ (s.randomsocks.slots i).count = 0

/-- The sockets in the order in which `allocate_rfd` looks for one that can be shared. -/
def sharedSock (s : ForwardState) (family : Family) : Option ℕ :=
  ((List.range randomSocks).map fun i ↦ (i + s.finger) % randomSocks).find? fun j ↦
    (s.randomsocks.slots j).count ≠ 0 ∧ (s.randomsocks.slots j).tag = family ∧
      (s.randomsocks.slots j).count ≠ 0xffff

def shareRfd (s : ForwardState) (family : Family) : ForwardState × Option ℕ :=
  match s.sharedSock family with
  | none => (s, none)
  | some j => ({ s with randomsocks := s.randomsocks.share j, finger := j }, some j)

def allocateRfd (net : Net) (s : ForwardState) (family : Family) : ForwardState × Option ℕ :=
  match s.freeSock with
  | none => s.shareRfd family
  | some i =>
    if net.randomSock family then
      ({ s with randomsocks := s.randomsocks.openSlot i family }, some i)
    else shareRfd { s with randomsocks := s.randomsocks.failSlot i } family

/-- The loop of `get_new_frec`: the record to use, and the oldest one. -/
def scanFrecs (now : ℤ) : List ℕ → ForwardState → Option ℕ → Option ℕ →
    ForwardState × Option ℕ × Option ℕ
  | [], s, target, oldest => (s, target, oldest)
  | number :: rest, s, target, oldest =>
    if (s.frec number).sentto.isNone then scanFrecs now rest s (some number) oldest
    else
      let (s, target) :=
        if 4 * frecTimeout ≤ now - (s.frec number).time then
          (s.freeFrec number, some number) else (s, target)
      let older := match oldest with
        | none => true
        | some oldest => decide ((s.frec number).time ≤ (s.frec oldest).time)
      scanFrecs now rest s target (if older then some number else oldest)

def touchFrec (s : ForwardState) (number : ℕ) (now : ℤ) : ForwardState :=
  s.setFrec number { s.frec number with time := now }

/-- What `get_new_frec` does without a free record, given the oldest one. -/
def replaceFrec (env : ForwardEnv) (net : Net) (s : ForwardState) (now : ℤ) (oldest : Option ℕ)
    (wait : Bool) : ForwardState × Option ℕ :=
  match oldest.filter fun oldest ↦ frecTimeout ≤ now - (s.frec oldest).time with
  | some oldest =>
    -- things are kept for twice the timeout if there is room
    if now - (s.frec oldest).time < 2 * frecTimeout ∧ s.frecs ≤ env.ftabsize ∧ net.malloc then
      (s.allocateFrec now, some s.frecs)
    else if wait then (s, some oldest)
    else ((s.freeFrec oldest).touchFrec oldest now, some oldest)
  | none =>
    if env.ftabsize < s.frecs then (s, none)
    else if net.malloc then (s.allocateFrec now, some s.frecs)
    else (s, none)

/-- `get_new_frec`, with whether there is a pointer for the time to wait. -/
def getNewFrec (env : ForwardEnv) (net : Net) (s : ForwardState) (now : ℤ) (wait : Bool) :
    ForwardState × Option ℕ :=
  match scanFrecs now s.frecList s none none with
  | (s, some target, _) => (s.touchFrec target now, some target)
  | (s, none, oldest) => replaceFrec env net s now oldest wait

def lookupFrec (s : ForwardState) (id : UInt16) (crc : UInt32) : Option ℕ :=
  s.frecList.find? fun number ↦ (s.frec number).sentto.isSome ∧ (s.frec number).newId = id ∧
    ((s.frec number).crc = crc ∨ crc = crcUnknown)

def lookupFrecBySender (s : ForwardState) (id : UInt16) (addr : SockAddr) (crc : UInt32) :
    Option ℕ :=
  s.frecList.find? fun number ↦ (s.frec number).sentto.isSome ∧ (s.frec number).origId = id ∧
    (s.frec number).crc = crc ∧ (s.frec number).source = addr

/-- `get_id`. Without an id the loop has not ended. -/
def getId (net : Net) (s : ForwardState) (crc : UInt32) : Option UInt16 :=
  net.rand16.find? fun id ↦ (s.lookupFrec id crc).isNone

/-- `server_gone`, and the server leaves the list. -/
def serverGone (s : ForwardState) (server : Server) : ForwardState :=
  let s := s.frecList.foldl
    (fun s number ↦ if (s.frec number).sentto = some server then s.freeFrec number else s) s
  { s with
    lastServer := if s.lastServer = some server then none else s.lastServer
    servers := s.servers.filter fun other ↦ other ≠ server }

end ForwardState

/-! ### The choice of servers -/

/-- The variables of `search_servers`. -/
structure ServerSearch where
  type : UInt16
  domain : List UInt8
  norebind : Bool
  matchlen : ℕ
  flags : LocalAnswer

/-- `sflag & qtype` for the address of a server. -/
def Server.answers (server : Server) (kind : QueryKind) : Bool := match server.addr.family with
  | .inet => kind.ipv4
  | .inet6 => kind.ipv6

def Server.literal (server : Server) : LocalAnswer := match server.addr.family with
  | .inet => .ipv4 server.addr.addr
  | .inet6 => .ipv6 server.addr.addr

/-- What a server of the right domain makes of the answer, unless it is to be asked. -/
def Server.verdict (server : Server) (kind : QueryKind) (flags asked : LocalAnswer) : LocalAnswer :=
  if server.has servNoAddr then .nxdomain
  else if server.has servLiteralAddress then
    if server.answers kind then server.literal
    else if flags = .none ∨ flags = .nxdomain then .noerr
    else flags
  else asked

/-- The domain of a server is the end of a name. -/
def matchesDomain (qdomain domain : List UInt8) : Bool :=
  domain.length ≤ qdomain.length ∧
    hostnameIsequal (qdomain.drop (qdomain.length - domain.length)) domain ∧
    (domain = [] ∨ qdomain.length = domain.length ∨
      qdomain.getD (qdomain.length - domain.length - 1) 0 = 46)

/-- `F_IPV4` or `F_IPV6`. -/
def LocalAnswer.isAddr : LocalAnswer → Bool
  | .ipv4 _ | .ipv6 _ => true
  | _ => false

/-- An address wins over a server for the same domain if it is of the right kind, and loses
otherwise. -/
def Server.outranked (server : Server) (kind : QueryKind) (search : ServerSearch) : Bool :=
  server.domain.length ≠ 0 && server.domain.length = search.matchlen &&
    if server.has servLiteralAddress then server.answers kind = false && search.flags = .none
    else search.flags.isAddr

/-- The body of the loop of `search_servers`. -/
def searchServer (kind : QueryKind) (qdomain : List UInt8) (search : ServerSearch)
    (server : Server) :
    ServerSearch :=
  if server.has servForNodots ∧ search.type ≠ servHasDomain ∧ 46 ∉ qdomain ∧ qdomain ≠ [] then
    { search with type := servForNodots, flags := server.verdict kind search.flags search.flags }
  else if server.has servHasDomain ∧ matchesDomain qdomain server.domain then
    if server.has servNoRebind then { search with norebind := true }
    else if server.outranked kind search ∨ server.domain.length < search.matchlen then search
    else
      { search with
        type := server.flags &&& (servHasDomain ||| servUseResolv ||| servNoRebind)
        domain := server.domain
        matchlen := server.domain.length
        flags := server.verdict kind search.flags .none }
  else search

/-- `search_servers`, which asks the cache whether a missing name is known here. -/
def searchServers (env : ForwardEnv) (s : ForwardState) (now : ℤ) (kind : QueryKind)
    (qdomain : List UInt8) : ForwardState × ServerSearch :=
  let search := s.servers.foldl (searchServer kind qdomain) ⟨0, [], false, 0, .none⟩
  let flags :=
    if search.flags = .none ∧ kind.query = false ∧ env.optNodotsLocal ∧ 46 ∉ qdomain ∧
      qdomain ≠ [] then .noerr
    else search.flags
  let (session, known) :=
    if flags = .nxdomain then
      checkForLocalDomain env.cache env.process.localNames s.session qdomain now
    else (s.session, false)
  let flags := if known then .noerr else flags
  ({ s with session := session },
    if flags = .none ∧ search.type &&& servUseResolv ≠ 0 then
      { search with flags := flags, type := 0, domain := [] }
    else { search with flags := flags })

/-! ### Queries -/

def serversFrom (servers : List Server) (start : Server) : List Server :=
  servers.dropWhile (· ≠ start) ++ servers.takeWhile (· ≠ start)

def serversAfter (servers : List Server) (sentto : Server) : List Server :=
  (servers.dropWhile (· ≠ sentto)).tail ++ servers.takeWhile (· ≠ sentto) ++ [sentto]

def Server.deals (server : Server) (type : UInt16) (domain : List UInt8) : Bool :=
  type = server.flags &&& servType ∧ (type ≠ servHasDomain ∨ hostnameIsequal domain server.domain) ∧
    server.has servLiteralAddress = false

/-- The socket for a server: none if there is no socket for its family. -/
def serverSocket (net : Net) (s : ForwardState) (number : ℕ) (server : Server) :
    ForwardState × Bool :=
  if server.sfd.isSome ∨ ((s.frec number).rfd server.addr.family).isSome then (s, true)
  else
    let (s, i) := s.allocateRfd net server.addr.family
    (s.setFrec number ((s.frec number).setRfd server.addr.family i), i.isSome)

def sentTo (s : ForwardState) (number : ℕ) (server : Server) (packet : Packet) : ForwardState :=
  (s.setFrec number { s.frec number with sentto := some server }).note
    (.upstream (s.frec number).serial server (s.frec number).newId packet)

/-- The loop that sends a query, with whether it was sent. -/
def sendLoop (net : Net) (number : ℕ) (type : UInt16) (domain : List UInt8) (packet : Packet) :
    List Server → ForwardState → Bool → ForwardState × Bool
  | [], s, forwarded => (s, forwarded)
  | server :: rest, s, forwarded =>
    if server.deals type domain then
      match serverSocket net s number server with
      | (s, false) => (s, forwarded)
      | (s, true) =>
        if net.sendto server then
          let s := sentTo s number server packet
          if (s.frec number).forwardall = 0 then (s, true)
          else
            sendLoop net number type domain packet rest
              (s.setFrec number { s.frec number with forwardall := (s.frec number).forwardall + 1 })
                true
        else sendLoop net number type domain packet rest s forwarded
    else sendLoop net number type domain packet rest s forwarded

/-- Where a query comes from: a client, with the socket, the source, the destination and the
interface. -/
structure Client where
  udpfd : ℕ
  udpaddr : SockAddr
  dstAddr : List UInt8
  dstIface : ℕ

/-- An answer without help from upstream to a query with an id. Without a client nothing is sent. -/
def answerLocally (env : ForwardEnv) (s : ForwardState) (client : Option Client)
    (record : Option (ℕ × UInt32)) (id : UInt16) (packet : Packet) (plen : ℕ)
    (flags : LocalAnswer) : ForwardState :=
  match client, setupReply (packet.setId id) plen flags env.localTtl with
  | some client, (packet, some _) => s.note (.client record client.udpaddr id packet)
  | _, _ => s

/-- `add_mac`, for the query of a client. -/
def addMac (net : Net) (client : Option Client) (packet : Packet) (plen : ℕ) :
    Packet × ℕ := match client with
  | none => (packet, plen)
  | some client => net.addMac client.udpaddr packet plen

/-- The part of `forward_query` that sends: the record, the servers in order, and what they have to
deal with. -/
def sendQuery (env : ForwardEnv) (net : Net) (s : ForwardState) (client : Option Client)
    (packet : Packet) (plen number : ℕ) (servers : List Server) (type : UInt16)
    (domain : List UInt8) : ForwardState :=
  let sent := addMac net client packet plen
  match sendLoop net number type domain sent.1 servers s false with
  | (s, true) => s
  | (s, false) =>
    answerLocally env (s.freeFrec number) client
      (some ((s.frec number).serial, (s.frec number).crc))
      (s.frec number).origId sent.1 sent.2 .none

def askAll (env : ForwardEnv) (s : ForwardState) (number : ℕ) : ForwardState :=
  if env.optOrder then
    s else { s.setFrec number { s.frec number with forwardall := 1 } with lastServer := none }

/-- A query whose record is there: it is sent to all servers, the next one first. -/
def retryQuery (env : ForwardEnv) (net : Net) (s : ForwardState) (client : Option Client)
    (packet : Packet) (plen number : ℕ) : ForwardState :=
  match (s.frec number).sentto with
  -- a record that is in use has a server
  | none => s
  | some sentto =>
    sendQuery env net (askAll env s number) client (packet.setId (s.frec number).newId) plen number
      (serversAfter s.servers sentto) (sentto.flags &&& servType) sentto.domain

/-- `FORWARD_TEST` and `FORWARD_TIME`. -/
def forwardTest : ℕ := 50
def forwardTime : ℤ := 20

/-- Where a new query starts, and whether all servers are asked. -/
def chooseStart (env : ForwardEnv) (s : ForwardState) (now : ℤ) (type : UInt16) :
    ForwardState × Option Server × Bool :=
  if type = 0 then
    if env.optOrder then (s, s.servers.head?, false)
    else match s.lastServer with
      | none => ({ s with forwardcount := 0, forwardtime := now }, s.servers.head?, true)
      | some last =>
        if forwardTest < s.forwardcount ∨ forwardTime < now - s.forwardtime then
          ({ s with forwardcount := 0, forwardtime := now }, s.servers.head?, true)
        else ({ s with forwardcount := s.forwardcount + 1 }, some last, false)
  else (s, s.servers.head?, !env.optOrder)

/-- A record for a new query. -/
def fillFrec (s : ForwardState) (number : ℕ) (client : Client) (packet : Packet) (crc : UInt32)
    (newId : UInt16) (norebind : Bool) : ForwardState :=
  { s.setFrec number { s.frec number with
        source := client.udpaddr
        dest := client.dstAddr
        iface := client.dstIface
        origId := packet.id
        newId := newId
        fd := client.udpfd
        crc := crc
        forwardall := 0
        norebind := (s.frec number).norebind || norebind
        checkingDisabled := (s.frec number).checkingDisabled || packet.hb4 &&& 0x10 ≠ 0
        serial := s.serials }
    with serials := s.serials + 1 }

/-- The servers for a query, or the answer without them. -/
def requestServers (env : ForwardEnv) (s : ForwardState) (packet : Packet) (plen : ℕ) (now : ℤ) :
    ForwardState × ServerSearch :=
  match extractRequest packet plen with
  | none => (s, ⟨0, [], false, 0, .none⟩)
  | some (kind, name) => searchServers env s now kind name

/-- A query with a new record is sent. -/
def startQuery (env : ForwardEnv) (net : Net) (s : ForwardState) (client : Client) (packet : Packet)
    (plen : ℕ) (now : ℤ) (crc : UInt32) (search : ServerSearch) (number : ℕ) (newId : UInt16) :
    ForwardState :=
  let s := fillFrec s number client packet crc newId search.norebind
  let (s, start, forwardall) := chooseStart env s now search.type
  let s := s.setFrec number { s.frec number with forwardall := if forwardall then 1 else 0 }
  sendQuery env net s (some client) (packet.setId newId) plen number
    (start.elim [] (serversFrom s.servers)) search.type search.domain

/-- A query without a record. -/
def newQuery (env : ForwardEnv) (net : Net) (s : ForwardState) (client : Client) (packet : Packet)
    (plen : ℕ) (now : ℤ) (crc : UInt32) : Option ForwardState :=
  let (s, search) := requestServers env s packet plen now
  if search.flags ≠ .none then
    some (answerLocally env s (some client) none packet.id packet plen search.flags)
  else match s.getNewFrec env net now false with
    | (s, none) => some (answerLocally env s (some client) none packet.id packet plen .neg)
    | (s, some number) => (s.getId net crc).map fun newId ↦
      startQuery env net s client packet plen now crc search number newId

/-- `forward_query` for a query of a client. Without a result the call has not ended. -/
def forwardQuery (env : ForwardEnv) (net : Net) (s : ForwardState) (client : Client)
    (packet : Packet) (plen : ℕ) (now : ℤ) : Option ForwardState :=
  let crc := questionsCrc packet plen
  let s := s.note (.query client.udpaddr packet.id crc)
  let packet : Packet := packet.set 3 (packet.getD 3 0 &&& 0xdf)
  if s.servers = [] then some (answerLocally env s (some client) none packet.id packet plen .none)
  else match s.lookupFrecBySender packet.id client.udpaddr crc with
    | some number => some (retryQuery env net s (some client) packet plen number)
    | none => newQuery env net s client packet plen now crc

/-! ### Replies -/

structure ServerReply where
  serveraddr : SockAddr
  packet : Packet
  n : ℕ

/-- `SERVFAIL` or `REFUSED`. -/
def Packet.failed (packet : Packet) :
    Bool := packet.rcode = rcodeServfail ∨ packet.rcode = rcodeRefused

/-- The record that a reply is for. -/
def acceptReply (s : ForwardState) (reply : ServerReply) : Option ℕ :=
  if (s.servers.any fun server ↦ server.has (servLiteralAddress ||| servNoAddr) = false ∧
      server.addr = reply.serveraddr) ∧ headerSize ≤ reply.n ∧ reply.packet.hb3 &&& 0x80 ≠ 0 then
    s.lookupFrec reply.packet.id (questionsCrc reply.packet reply.n)
  else none

/-- The query is made again from a reply with an error, unless it is signed. -/
def recreateQuery (packet : Packet) (n : ℕ) : Option (Packet × ℕ) :=
  let (pheader, isSign) := findPseudoheader packet n
  if isSign then none
  else
    let (packet, nn) := resizePacket packet.dropRecords n pheader
    if nn = 0 then none else some (packet.set 2 (packet.getD 2 0 &&& 0x7d), nn)

/-- Which server is good, given the one that the query was sent to last. -/
def rememberServer (env : ForwardEnv) (s : ForwardState) (reply : ServerReply) (sentto : Server) :
    ForwardState :=
  if sentto.flags &&& servType ≠ 0 ∨ env.optAllServers then s
  else if reply.packet.failed then { s with lastServer := none }
  else
    { s with
      lastServer := (s.servers.find? fun server ↦
        server.has (servLiteralAddress ||| servHasDomain ||| servForNodots ||| servNoAddr) = false ∧
          server.addr = reply.serveraddr).or (some sentto) }

/-- The reply goes to the client, and the record is free. -/
def passReply (env : ForwardEnv) (s : ForwardState) (reply : ServerReply) (number : ℕ) (now : ℤ) :
    ForwardState :=
  let f := s.frec number
  let (session, packet, nn) := processReply env.cache env.process reply.packet reply.n now
    (f.norebind = false ∧ env.optNoRebind) f.checkingDisabled s.session
  let s := { s with session := session }
  let packet : Packet := (packet.setId f.origId).set 3 ((packet.setId f.origId).getD 3 0 ||| 0x80)
  let s := if nn = 0 then s else s.note (.client (some (f.serial, f.crc)) f.source f.origId packet)
  s.freeFrec number

def settleReply (env : ForwardEnv) (s : ForwardState) (reply : ServerReply) (number : ℕ) (now : ℤ) :
    ForwardState :=
  let f := s.frec number
  if f.forwardall = 0 then passReply env s reply number now
  else
    let s := s.setFrec number { f with forwardall := f.forwardall - 1 }
    if f.forwardall - 1 = 1 ∨ reply.packet.failed = false then
      passReply env s reply number now else s

def replyQuery (env : ForwardEnv) (net : Net) (s : ForwardState) (reply : ServerReply) (now : ℤ) :
    ForwardState :=
  match acceptReply s reply with
  | none => s
  | some number => match (s.frec number).sentto with
    | none => s
    | some sentto =>
      match if reply.packet.failed ∧ env.optOrder = false ∧ (s.frec number).forwardall = 0 then
          recreateQuery reply.packet reply.n else none with
      | some (packet, nn) =>
        retryQuery env net s none (packet.set 3 (packet.getD 3 0 &&& 0xdf)) nn number
      | none => settleReply env (rememberServer env s reply sentto) reply number now

/-! ### The system -/

/-- The calls, the question of the main loop whether there is a record among them. -/
inductive ForwardCall
  | query (client : Client) (packet : Packet) (plen : ℕ) (now : ℤ)
  | reply (reply : ServerReply) (now : ℤ)
  | newFrec (now : ℤ)
  | gone (server : Server)
  | come (servers : List Server)

def ForwardState.call (env : ForwardEnv) (net : Net) (s : ForwardState) :
    ForwardCall → Option ForwardState
  | .query client packet plen now => forwardQuery env net s client packet plen now
  | .reply reply now => some (replyQuery env net s reply now)
  | .newFrec now => some (s.getNewFrec env net now true).1
  | .gone server => some (s.serverGone server)
  | .come servers => if s.servers ⊆ servers then some { s with servers := servers } else none

/-- The forwarder at its start, with what the memory contains. -/
def ForwardState.start (servers : List Server) (memory : ℕ → Frec) (session : Session) :
    ForwardState where
  servers := servers
  frecs := 0
  frec := memory
  randomsocks := ⟨fun _ ↦ ⟨none, 0, .inet⟩, 0, []⟩
  finger := 0
  lastServer := none
  forwardcount := 0
  forwardtime := 0
  session := session
  serials := 0
  log := []

/-- The calls in any order, whatever the system does. -/
def forwardSystem (env : ForwardEnv) : System ForwardState (Net × ForwardCall) :=
  System.ofStep (fun s ↦ ∃ servers memory session, s = ForwardState.start servers memory session)
    fun s event ↦ s.call env event.1 event.2

def ForwardReachable (env : ForwardEnv) (s : ForwardState) : Prop :=
  Reachable (forwardSystem env) (fun _ _ ↦ True) s

theorem exists_forwardReachable (env : ForwardEnv) (servers : List Server) (memory : ℕ → Frec)
    (session : Session) (events : List (Net × ForwardCall)) (test : ForwardState → Bool)
    (hrun : (runSteps (fun s event ↦ ForwardState.call env event.1 s event.2)
      (.start servers memory session) events).any test = true) :
    ∃ s, ForwardReachable env s ∧ test s = true :=
  exists_reachable_of_runSteps ⟨servers, memory, session, rfl⟩ hrun

end CrossBreeder.Dnsmasq
