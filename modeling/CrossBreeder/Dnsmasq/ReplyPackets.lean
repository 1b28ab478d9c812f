import CrossBreeder.Dnsmasq.Replies

/-!
# Packets on their way through the forwarder

The functions that `forward.c` calls to look at questions (`extract_request`, `questions_crc`), to
find and restore the pseudoheader of EDNS0, to make a reply of its own (`setup_reply`), and
`process_reply`, which is between a reply from upstream and the client.
-/

namespace CrossBreeder.Dnsmasq

open Foundation

namespace Packet

def putShort (packet : Packet) (p value : ℕ) : Packet :=
  packet.put p [UInt8.ofNat (value / 256), UInt8.ofNat value]

/-- `header->id`, in host order. -/
def id (packet : Packet) : UInt16 := UInt16.ofNat (packet.getShort 0)

def setId (packet : Packet) (id : UInt16) : Packet := packet.putShort 0 id.toNat

def opcode (packet : Packet) : ℕ := (packet.hb3 &&& 0x78) >>> 3

def setRcode (packet : Packet) (code : UInt8) :
    Packet := packet.set 3 ((packet.getD 3 0 &&& 0xf0) ||| code)

def dropRecords (packet : Packet) : Packet := ((packet.putShort 6 0).putShort 8 0).putShort 10 0

end Packet

/-- More types and classes of records. -/
def typeSig : ℕ := 24
def typeOpt : ℕ := 41
def typeTkey : ℕ := 249
def typeTsig : ℕ := 250
def typeAny : ℕ := 255
def classAny : ℕ := 255

/-- Codes of replies. -/
def rcodeNoerror : ℕ := 0
def rcodeServfail : ℕ := 2
def rcodeNxdomain : ℕ := 3
def rcodeRefused : ℕ := 5

/-! ### Questions -/

def skipSection (packet : Packet) (plen : ℕ) : ℕ → ℕ → Option ℕ
  | 0, ansp => some ansp
  | count + 1, ansp => match skipName packet plen ansp 10 with
    | none => none
    | some ansp =>
      let rdlen := packet.getShort (ansp + 8)
      if checkLen plen (ansp + 10) rdlen then
        skipSection packet plen count (ansp + 10 + rdlen) else none

def crcShift (crc : UInt32) : UInt32 := if crc &&& 0x80000000 ≠ 0 then
    (crc <<< 1) ^^^ 0x04c11db7 else crc <<< 1

/-- One byte of the CRC. A `char` is signed, and `c << 24` keeps its lower eight bits. -/
def crcByte (crc : UInt32) (c : UInt8) : UInt32 :=
  let crc := crc ^^^ (c.toUInt32 <<< 24)
  crcShift (crcShift (crcShift (crcShift (crcShift (crcShift (crcShift (crcShift crc)))))))

/-- The CRC of a question: its name without letter case, its type and its class. -/
def crcQuestion (crc : UInt32) (name fixed : List UInt8) : UInt32 :=
  fixed.foldl crcByte ((name.map toLower).foldl crcByte crc)

/-- The loop of `questions_crc`. -/
def questionsCrcLoop (packet : Packet) (plen : ℕ) : ℕ → ℕ → UInt32 → UInt32
  | 0, _, crc => crc
  | count + 1, p, crc => match extractName packet plen p 4 with
    | none => crc
    | some (p, name) =>
      let crc := crcQuestion crc name (packet.slice p 4)
      if checkLen plen (p + 4) 0 then questionsCrcLoop packet plen count (p + 4) crc else crc

def crcUnknown : UInt32 := 0xffffffff

def questionsCrc (packet : Packet) (plen : ℕ) : UInt32 :=
  questionsCrcLoop packet plen packet.qdcount headerSize crcUnknown

/-- What `extract_request` returns: `F_IPV4`, `F_IPV6`, both, or `F_QUERY`. -/
structure QueryKind where
  ipv4 : Bool
  ipv6 : Bool
  query : Bool
  deriving DecidableEq, Repr

def queryKind (qtype qclass : ℕ) : QueryKind :=
  if qclass = classIn ∧ qtype = typeA then ⟨true, false, false⟩
  else if qclass = classIn ∧ qtype = typeAaaa then ⟨false, true, false⟩
  else if qclass = classIn ∧ qtype = typeAny then ⟨true, true, false⟩
  else ⟨false, false, true⟩

/-- `extract_request`, with the name. -/
def extractRequest (packet : Packet) (qlen : ℕ) : Option (QueryKind × List UInt8) :=
  if packet.qdcount ≠ 1 ∨ packet.opcode ≠ 0 then none
  else (extractName packet qlen headerSize 4).map fun (p, name) ↦
    (queryKind (packet.getShort p) (packet.getShort (p + 2)), name)

/-! ### The pseudoheader -/

structure Pseudoheader where
  start : ℕ
  len : ℕ
  sizep : ℕ
  deriving DecidableEq, Repr

/-- The questions as `find_pseudoheader` reads them when it looks for signatures: where they end,
and whether there is a question for a key. -/
def signQuestions (packet : Packet) (plen : ℕ) : ℕ → ℕ → Bool → Option ℕ × Bool
  | 0, ansp, isSign => (some ansp, isSign)
  | count + 1, ansp, isSign => match skipName packet plen ansp 4 with
    | none => (none, isSign)
    | some ansp => signQuestions packet plen count (ansp + 4)
      (isSign || (packet.getShort (ansp + 2) = classIn ∧ packet.getShort ansp = typeTkey))

/-- The loop of `find_pseudoheader` over the additional records, of which some are left. -/
def pseudoheaderLoop (packet : Packet) (plen : ℕ) :
    ℕ → ℕ → Option Pseudoheader → Bool → Option Pseudoheader × Bool
  | 0, _, ret, isSign => (ret, isSign)
  | left + 1, start, ret, isSign => match skipName packet plen start 10 with
    | none => (none, isSign)
    | some ansp =>
      let type := packet.getShort ansp
      let rclass := packet.getShort (ansp + 2)
      let rdlen := packet.getShort (ansp + 8)
      if checkLen plen (ansp + 10) rdlen = false then (none, isSign)
      else
        let next := ansp + 10 + rdlen
        if type = typeOpt then
          pseudoheaderLoop packet plen left next (some ⟨start, next - start, ansp + 2⟩) isSign
        else
          pseudoheaderLoop packet plen left next ret
            (isSign || (left = 0 ∧ rclass = classAny ∧ (type = typeSig ∨ type = typeTsig)))

/-- `find_pseudoheader` with a pointer for signatures. -/
def findPseudoheader (packet : Packet) (plen : ℕ) : Option Pseudoheader × Bool :=
  let questions :=
    if packet.opcode = 0 then signQuestions packet plen packet.qdcount headerSize false
    else (some headerSize, false)
  match questions with
  | (none, isSign) => (none, isSign)
  | (some ansp, isSign) =>
    if packet.arcount = 0 then (none, isSign)
    else match skipSection packet plen (packet.ancount + packet.nscount) ansp with
      | none => (none, isSign)
      | some ansp => pseudoheaderLoop packet plen packet.arcount ansp none isSign

def resizePacket (packet : Packet) (plen : ℕ) (pheader : Option Pseudoheader) : Packet × ℕ :=
  match skipQuestions packet plen with
  | none => (packet, plen)
  | some ansp => match skipSection packet plen (packet.ancount + packet.nscount + packet.arcount)
    ansp with
    | none => (packet, plen)
    | some ansp => match pheader with
      | none => (packet, ansp)
      | some pheader =>
        if packet.arcount = 0 then
          ((packet.put ansp (packet.slice pheader.start pheader.len)).putShort 10 1,
            ansp + pheader.len)
        else (packet, ansp)

/-! ### Replies -/

/-- The flags that `setup_reply` looks at, with the address for `F_IPV4` and `F_IPV6`. -/
inductive LocalAnswer
  | none
  | neg
  | noerr
  | nxdomain
  | ipv4 (addr : List UInt8)
  | ipv6 (addr : List UInt8)
  deriving DecidableEq, Repr

/-- `add_resource_record` for an address of the name in the question. -/
def addressRecord (rtype ttl : ℕ) (addr : List UInt8) : List UInt8 :=
  [0xc0, UInt8.ofNat headerSize, 0, UInt8.ofNat rtype, 0, UInt8.ofNat classIn,
    UInt8.ofNat (ttl / 16777216),
    UInt8.ofNat (ttl / 65536), UInt8.ofNat (ttl / 256), UInt8.ofNat ttl, 0, UInt8.ofNat addr.length]
      ++ addr

def addressReply (packet : Packet) (p rtype ttl : ℕ) (addr : List UInt8) : Packet × ℕ :=
  let packet := (packet.setRcode 0).putShort 6 1
  let packet : Packet := packet.set 2 (packet.getD 2 0 ||| 0x04)
  (packet.put p (addressRecord rtype ttl addr), p + (addressRecord rtype ttl addr).length)

/-- `setup_reply`. Without a length there is nothing that could be sent. -/
def setupReply (packet : Packet) (qlen : ℕ) (flags : LocalAnswer) (ttl : ℕ) : Packet × Option ℕ :=
  let p := skipQuestions packet qlen
  let packet := packet.set 2 ((packet.getD 2 0 &&& 0xf9) ||| 0x80)
  let packet : Packet := packet.set 3 (packet.getD 3 0 ||| 0x80)
  let packet := packet.dropRecords
  match flags, p with
  | .neg, p => (packet.setRcode 2, p)
  | .noerr, p => (packet.setRcode 0, p)
  | .nxdomain, p => (packet.setRcode 3, p)
  | .ipv4 addr, some p =>
    let (packet, len) := addressReply packet p typeA ttl addr; (packet, some len)
  | .ipv6 addr, some p => let (packet, len) := addressReply packet p typeAaaa ttl addr;
    (packet, some len)
  | _, p => (packet.setRcode 5, p)

/-- What `process_reply` uses of the configuration. -/
structure ProcessOptions where
  reply : ReplyOptions
  ednsPktsz : ℕ
  optDnssec : Bool
  bogusAddr : List (List UInt8)
  localNames : List (List UInt8)

def checkForLocalDomain (env : Env) (localNames : List (List UInt8)) (session : Session)
    (name : List UInt8) (now : ℤ) : Session × Bool :=
  let (cache, crecp) := cacheFindByName env session.cache none name now {.ipv4, .ipv6, .cname}
  ({ session with cache := cache },
    (match crecp with
      | none => false
      | some crecp => .hosts ∈ cache.flags crecp ∨ .dhcp ∈ cache.flags crecp) ||
    localNames.any fun known ↦ hostnameIsequal name known)

/-- The loop of `check_for_bogus_wildcard`: the name and the time of the first answer with such an
address. -/
def bogusLoop (packet : Packet) (qlen : ℕ) (baddr : List (List UInt8)) :
    ℕ → ℕ → Option (List UInt8 × ℕ)
  | 0, _ => none
  | count + 1, p => match extractName packet qlen p 10 with
    | none => none
    | some (p, name) =>
      let qtype := packet.getShort p
      let qclass := packet.getShort (p + 2)
      let ttl := packet.getLong (p + 4)
      let rdlen := packet.getShort (p + 8)
      let p := p + 10
      let address := qclass = classIn ∧ qtype = typeA
      if address ∧ checkLen qlen p 4 = false then none
      else if address ∧ packet.slice p 4 ∈ baddr then some (name, ttl)
      else if checkLen qlen p rdlen then bogusLoop packet qlen baddr count (p + rdlen)
      else none

def checkForBogusWildcard (env : Env) (packet : Packet) (qlen : ℕ) (baddr : List (List UInt8))
    (now : ℤ) (session : Session) : Option Session :=
  (skipQuestions packet qlen).bind fun p ↦
    (bogusLoop packet qlen baddr packet.ancount p).map fun (name, ttl) ↦
    let session := session.call env .startInsert
    let session := session.call env
      (.insertReverse (some name) none now ttl {.ipv4, .forward, .neg, .nxdomain, .config})
    session.call env .endInsert

/-- What `process_reply` does first: the size that upstream may send is limited, and the reply does
not claim to be checked. -/
def trimReply (opts : ProcessOptions) (packet : Packet) (pheader : Option Pseudoheader)
    (isSign : Bool) : Packet :=
  let packet := match pheader with
    | none => packet
    | some pheader =>
      if isSign = false ∧ opts.ednsPktsz < packet.getShort pheader.sizep then
        packet.putShort pheader.sizep opts.ednsPktsz
      else packet
  if isSign = false ∧ opts.optDnssec = false then
    packet.set 3 (packet.getD 3 0 &&& 0xdf) else packet

/-- A missing name that is known here is not missing, only the record is. -/
def mungeLocal (env : Env) (opts : ProcessOptions) (packet : Packet) (n : ℕ) (now : ℤ)
    (session : Session) : Session × Packet × Bool :=
  match if packet.rcode = rcodeNxdomain then extractRequest packet n else none with
  | none => (session, packet, false)
  | some (_, name) => match checkForLocalDomain env opts.localNames session name now with
    | (session, false) => (session, packet, false)
    | (session, true) =>
      (session, Packet.setRcode (packet.set 2 (packet.getD 2 0 ||| 0x04)) 0, true)

/-- The part of `process_reply` that looks at the answers: whether they have to be dropped. -/
def screenReply (env : Env) (opts : ProcessOptions) (packet : Packet) (n : ℕ) (now : ℤ)
    (isSign checkRebind checkingDisabled : Bool) (session : Session) : Session × Packet × Bool :=
  match if opts.bogusAddr ≠ [] ∧ packet.rcode ≠ rcodeNxdomain then
      checkForBogusWildcard env packet n opts.bogusAddr now session else none with
  | some session =>
    let packet := packet.setRcode 3
    (session, packet.set 2 (packet.getD 2 0 &&& 0xfb), true)
  | none =>
    let (session, packet, munged) := mungeLocal env opts packet n now session
    let ((session, packet), rebind) := extractAddresses env
      ⟨opts.reply, n, now, isSign, checkRebind, checkingDisabled⟩ packet session
    (session, packet, munged || rebind)

/-- `process_reply`: the cache, the packet and its length. -/
def processReply (env : Env) (opts : ProcessOptions) (packet : Packet) (n : ℕ) (now : ℤ)
    (checkRebind checkingDisabled : Bool) (session : Session) : Session × Packet × ℕ :=
  let (pheader, isSign) := findPseudoheader packet n
  let packet := trimReply opts packet pheader isSign
  if packet.opcode ≠ 0 ∨ (packet.rcode ≠ rcodeNoerror ∧ packet.rcode ≠ rcodeNxdomain) then
    (session, packet, n)
  else
    let (session, packet, munged) :=
      screenReply env opts packet n now isSign checkRebind checkingDisabled session
    let packet := if munged then packet.dropRecords else packet
    (session, resizePacket packet n pheader)

end CrossBreeder.Dnsmasq
