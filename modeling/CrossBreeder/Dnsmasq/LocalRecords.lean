import CrossBreeder.Dnsmasq.Cache

/-!
# Records of hosts files and leases

The rest of `cache.c` that changes the cache: `cache_reload` with the host records of the
configuration and the hosts files, and `cache_unhash_dhcp` and `cache_add_dhcp_entry` for the
leases, with the CNAMEs of the configuration for both.

Of a hosts file there is what `read_hostsfile` gets out of it: the lines with a valid address, and
for every name whether it contains a dot and what `canonicalise` makes of it.
-/

namespace CrossBreeder.Dnsmasq

open Foundation

/-! ### Memory -/

/-- `whine_malloc` of a record. An address that is in use is never returned. -/
def mallocRecord (env : Env) (s : Cache) : Cache × Option Addr :=
  let granted := env.malloc s.mallocs
  let s := { s with mallocs := s.mallocs + 1 }
  match granted with
  | none => (s, none)
  | some (crecp, contents) =>
    if crecp ∈ s.live then (s, none)
    else
      ({ s with
          live := insert crecp s.live
          crec := Function.update s.crec crecp contents }, some crecp)

/-- `free` of a record. -/
def freeRecord (s : Cache) (crecp : Addr) : Cache := { s with live := s.live.erase crecp }

def cnameContents (s : Cache) (target : Addr) (aliasName : List UInt8) (flags : Flags)
    (crec : Crec) :
    Crec :=
  { crec with
    flags := flags
    name := aliasName
    cnameCache := some target
    cnameUid := (s.crec target).uid
    linkedSerial := (s.crec target).serial
    linkedName := s.name target }

/-- `add_hosts_cname` and `add_dhcp_cname`, with where a record comes from and what it gets for its
flags and its time. -/
def addCname (env : Env) (allocate : Cache → Cache × Option Addr) (flags : Flags) (ttd : ℤ → ℤ) :
    ℕ → Addr → Cache → Cache
  | 0, _, s => s
  | fuel + 1, target, s =>
    env.cnames.foldl
      (fun s a ↦
        if hostnameIsequal (s.name target) a.target then
          match allocate s with
          | (s, none) => s
          | (s, some crec) =>
            let s := (s.modify crec fun old ↦
              { cnameContents s target a.aliasName flags old with ttd := ttd old.ttd }).renew crec
            addCname env allocate flags ttd fuel crec (cacheHash env s crec)
        else s) s

/-! ### Hosts files -/

def addHostsCname (env : Env) : ℕ → Addr → Cache → Cache :=
  addCname env (mallocRecord env) {.forward, .immortal, .namep, .hosts, .cname} fun ttd ↦ ttd

def cnameDepth (env : Env) : ℕ := env.cnames.length + 1

/-- The table of addresses that is kept while hosts files are read. -/
abbrev RevHash := ℕ → Option Addr

/-- `revhashsz`, for pointers of eight bytes. -/
def revhashsz (env : Env) : ℕ := env.packetBuffSz / 8

def revhash (env : Env) (addr : List UInt8) : ℕ :=
  addr.foldl (fun j byte ↦ (j * 2 + byte.toNat) % revhashsz env) 0

/-- The search for an address in a chain of the table, which is linked by `next`. -/
def revhashFind (s : Cache) (flags : Flags) (addr : List UInt8) : ℕ → Option Addr → Option Addr
  | 0, _ => none
  | _ + 1, none => none
  | fuel + 1, some lookup =>
    if Meets (s.flags lookup ∩ flags) {.ipv4, .ipv6} ∧
        sameAddr addr.length (s.crec lookup).addr addr then some lookup
    else revhashFind s flags addr fuel (s.next lookup)

/-- The part of `add_hosts_entry` that keeps the table of addresses. -/
def enterRevhash (env : Env) (s : Cache) (rhash : RevHash) (cache : Addr) (addr : List UInt8) :
    Cache × RevHash :=
  let j := revhash env addr
  match revhashFind s (s.flags cache) addr s.walkFuel (rhash j) with
  | some _ => (s.modify cache fun crec ↦ { crec with flags := crec.flags.erase .reverse }, rhash)
  | none => ({ s with next := Function.update s.next cache (rhash j) },
      Function.update rhash j (some cache))

def addHostsEntry (env : Env) (s : Cache) (rhash : RevHash) (cache : Addr) (addr : List UInt8)
    (index : ℕ) : Cache × RevHash :=
  let (s, lookup) := cacheFindByName env s none (s.name cache) 0 (s.flags cache ∩ {.ipv4, .ipv6})
  let known := lookup.filter fun lookup ↦ .hosts ∈ s.flags lookup
  if known.any fun lookup ↦ sameAddr addr.length (s.crec lookup).addr addr then
    (freeRecord s cache, rhash)
  else
    let (s, rhash) := enterRevhash env s rhash cache addr
    let s := s.modify cache fun crec ↦ { crec with uid := index, addr := addr }
    let s := cacheHash env s cache
    (if known.isSome then s else addHostsCname env (cnameDepth env) cache s, rhash)

/-- A record for a name of a hosts file or of the configuration, and whether there was memory for
it. -/
def newHostsEntry (env : Env) (s : Cache) (rhash : RevHash) (name addr : List UInt8) (flags : Flags)
    (index : ℕ) : (Cache × RevHash) × Bool :=
  match mallocRecord env s with
  | (s, none) => ((s, rhash), false)
  | (s, some cache) =>
    let s := (s.modify cache fun crec ↦ { crec with flags := flags, name := name }).renew cache
    (addHostsEntry env s rhash cache addr index, true)

def hostsFlags (v6 : Bool) : Flags :=
  insert (if v6 then .ipv6 else .ipv4) {.hosts, .immortal, .forward, .reverse}

structure HostsName where
  fqdn : Bool
  canon : Option (List UInt8)

structure HostsLine where
  addr : List UInt8
  v6 : Bool
  domainSuffix : Option (List UInt8)
  names : List HostsName

/-- The state of `read_hostsfile`. -/
structure HostsReading where
  cache : Cache
  rhash : RevHash
  nameCount : ℕ
  cacheSize : ℕ

def HostsReading.addName (env : Env) (line : HostsLine) (index : ℕ) (reading : HostsReading)
    (name : List UInt8) : HostsReading :=
  let ((s, rhash), added) :=
    newHostsEntry env reading.cache reading.rhash name line.addr (hostsFlags line.v6) index
  { reading with
    cache := s
    rhash := rhash
    nameCount := if added then reading.nameCount + 1 else reading.nameCount }

/-- The names of one token: with the domain if that is wanted, and as it is. -/
def HostsName.expansions (env : Env) (line : HostsLine) (name : HostsName) : List (List UInt8) :=
  match name.canon with
  | none => []
  | some canon =>
    match line.domainSuffix with
    | some suffix =>
      if env.optExpand ∧ name.fqdn = false then [canon ++ [46] ++ suffix, canon] else [canon]
    | none => [canon]

/-- One line of a hosts file. The table grows after every thousand names. -/
def readHostsLine (env : Env) (index : ℕ) (reading : HostsReading) (line : HostsLine) :
    HostsReading :=
  let reading := if 1000 < reading.nameCount - reading.cacheSize then
      { reading with
        cache := rehash env reading.cache reading.nameCount, cacheSize := reading.nameCount }
    else reading
  (line.names.flatMap (HostsName.expansions env line)).foldl
    (HostsReading.addName env line index) reading

/-- `read_hostsfile`, with the number of names, zero if the file cannot be opened. -/
def readHostsfile (env : Env) (index cacheSize : ℕ) (file : Option (List HostsLine)) (s : Cache)
    (rhash : RevHash) : Cache × RevHash × ℕ :=
  match file with
  | none => (s, rhash, 0)
  | some lines =>
    let reading := lines.foldl (readHostsLine env index) ⟨s, rhash, cacheSize, cacheSize⟩
    (rehash env reading.cache reading.nameCount, reading.rhash, reading.nameCount)

/-- `struct host_record`. -/
structure HostRecord where
  names : List (List UInt8)
  addr : Option (List UInt8)
  addr6 : Option (List UInt8)

/-- What `cache_reload` reads. -/
structure ReloadInput where
  hostRecords : List HostRecord
  optNoHosts : Bool
  hostsfile : Option (List HostsLine)
  addnHosts : List (ℕ × Option (List HostsLine))

/-- The loop of `cache_reload` that clears the table: records of hosts files are freed, and those of
the pool marked as free. -/
def reloadVerdict (s : Cache) (_ : Unit) (cache : Addr) : Verdict :=
  if .hosts ∈ s.flags cache ∨ .dhcp ∉ s.flags cache then .drop else .keep

/-- What `cache_reload` does with a record that it takes out. -/
def reloadDrop (s : Cache) (_ : Unit) (cache : Addr) : Cache × Unit :=
  if .hosts ∈ s.flags cache then (freeRecord s cache, ())
  else
    let s := if .bigname ∈ s.flags cache then { s with bigFree := s.bigFree + 1 } else s
    ((s.modify cache fun crec ↦ { crec with flags := ∅ }).renew cache, ())

def addHostRecord (env : Env) (v6 : Bool) (addr : Option (List UInt8)) (name : List UInt8)
    (state : Cache × RevHash) : Cache × RevHash :=
  match addr with
  | none => state
  | some addr =>
    (newHostsEntry env state.1 state.2 name addr (hostsFlags v6 ∪ {.namep, .config}) 0).1

/-- The loops over the host records. -/
def addHostRecords (env : Env) (hostRecords : List HostRecord) (state : Cache × RevHash) :
    Cache × RevHash :=
  hostRecords.foldl
    (fun state hr ↦ hr.names.foldl
      (fun state name ↦
        addHostRecord env true hr.addr6 name (addHostRecord env false hr.addr name state))
      state) state

def ReloadInput.files (input : ReloadInput) : List (ℕ × Option (List HostsLine)) :=
  (if input.optNoHosts then [] else [(0, input.hostsfile)]) ++ input.addnHosts

def cacheReload (env : Env) (s : Cache) (input : ReloadInput) : Cache :=
  let s := (walkTable reloadVerdict keepRecord reloadDrop s ()).1
  let state := addHostRecords env input.hostRecords (s, fun _ ↦ none)
  (input.files.foldl
    (fun (state : Cache × RevHash × ℕ) file ↦
      readHostsfile env file.1 state.2.2 file.2 state.1 state.2.1) (state.1, state.2,
        env.cachesize)).1

/-! ### Leases -/

def cacheUnhashDhcp (s : Cache) : Cache :=
  (walkTable (fun s (_ : Unit) cache ↦ if .dhcp ∈ s.flags cache then .drop else .keep) keepRecord
    (fun s value cache ↦
      ({ s with next := Function.update s.next cache s.dhcpSpare, dhcpSpare := some cache }, value))
    s ()).1

def takeSpare (env : Env) (s : Cache) : Cache × Option Addr :=
  match s.dhcpSpare with
  | some crec => ({ s with dhcpSpare := s.next crec }, some crec)
  | none => mallocRecord env s

/-- `F_IMMORTAL` for a lease that does not end. -/
def leaseFlags (flags : Flags) (ttd : ℤ) :
    Flags := if ttd = 0 then insert .immortal flags else flags

def addDhcpCname (env : Env) (ttd : ℤ) : ℕ → Addr → Cache → Cache :=
  addCname env (takeSpare env) (leaseFlags {.forward, .namep, .dhcp, .cname} ttd) fun old ↦
    if ttd = 0 then old else ttd

/-- The loop of `cache_add_dhcp_entry` over the records of the name: whether the name has the
address in a hosts file, and whether it has another one there. -/
def checkHostName (env : Env) (hostName addr : List UInt8) (flags : Flags) :
    ℕ → Option Addr → Cache → Bool × Bool → Cache × (Bool × Bool)
  | 0, _, s, found => (s, found)
  | fuel + 1, crecp, s, (inHosts, failed) =>
    match cacheFindByName env s crecp hostName 0 (insert .cname flags) with
    | (s, none) => (s, (inHosts, failed))
    | (s, some crec) =>
      if .hosts ∈ s.flags crec then
        if .cname ∈ s.flags crec then
          checkHostName env hostName addr flags fuel (some crec) s (inHosts, failed)
        else if sameAddr addr.length (s.crec crec).addr addr then
          checkHostName env hostName addr flags fuel (some crec) s (true, failed)
        else checkHostName env hostName addr flags fuel (some crec) s (inHosts, true)
      else if .dhcp ∉ s.flags crec then
        ((cacheScanFree env s ⟨hostName, none⟩ [] 0
          (s.flags crec ∩ (flags ∪ {.cname, .forward}))).1, (inHosts, failed))
      else checkHostName env hostName addr flags fuel (some crec) s (inHosts, failed)

/-- The part of `cache_add_dhcp_entry` that decides whether the lease gets the reverse entry. -/
def leaseReverse (env : Env) (s : Cache) (addr : List UInt8) (flags : Flags) : Cache × Flags :=
  match cacheFindByAddr s none addr 0 flags with
  | (s, none) => (s, insert .reverse flags)
  | (s, some crec) =>
    if .neg ∈ s.flags crec then
      ((cacheScanFree env s ⟨[], none⟩ addr 0 (insert .reverse flags)).1, insert .reverse flags)
    else (s, flags)

def cacheAddDhcpEntry (env : Env) (s : Cache) (hostName : List UInt8) (v6 : Bool)
    (addr : List UInt8) (ttd : ℤ) : Cache :=
  let flags : Flags := if v6 then {.ipv6} else {.ipv4}
  let (s, (inHosts, failed)) :=
    checkHostName env hostName addr flags (s.walkFuel + 1) none s (false, false)
  if inHosts ∨ failed then s
  else
    let (s, flags) := leaseReverse env s addr flags
    match takeSpare env s with
    | (s, none) => s
    | (s, some crec) =>
      let s := (s.modify crec fun old ↦
        { old with
          flags := leaseFlags (flags ∪ {.namep, .dhcp, .forward}) ttd
          ttd := if ttd = 0 then old.ttd else ttd
          addr := addr
          name := hostName
          uid := s.uid }).renew crec
      addDhcpCname env ttd (cnameDepth env) crec (cacheHash env { s with uid := s.uid + 1 } crec)

end CrossBreeder.Dnsmasq
