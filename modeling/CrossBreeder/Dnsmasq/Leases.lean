import CrossBreeder.Dnsmasq.Cache

/-!
# Leases

The table of leases of `lease.c`, as far as IPv4 goes: leases are found by the identity of a client
or by an address, they are allocated in front of the list and pruned from it, and a name belongs to
one of them at most. What scripts are told about leases is left out.
-/

namespace CrossBreeder.Dnsmasq

/-- `struct dhcp_lease`. The number stands for its address in memory, and `hwaddr` has the first
`hwaddr_len` bytes of the hardware address, unless the length is the illegal value of a lease that
was just allocated. -/
structure Lease where
  number : ℕ
  addr : UInt32
  hwaddr : List UInt8
  hwaddrLen : ℕ
  hwaddrType : ℕ
  clid : Option (List UInt8)
  hostname : Option (List UInt8)
  fqdn : Option (List UInt8)
  authName : Bool
  expires : ℕ
  override : UInt32
  deriving DecidableEq, Repr

/-- The variables of `lease.c`, and how many leases were allocated so far. -/
structure LeaseTable where
  leases : List Lease
  leasesLeft : ℕ
  allocated : ℕ
  deriving DecidableEq, Repr

def Lease.expired (lease : Lease) (now : ℕ) : Bool := lease.expires ≠ 0 ∧ lease.expires < now

def Lease.killName (lease : Lease) : Lease := { lease with hostname := none, fqdn := none }

def Lease.setExpires (lease : Lease) (len : UInt32) (now : ℕ) : Lease :=
  { lease with expires := if len = 0xffffffff then 0 else now + len.toNat }

/-- `lease_set_hwaddr`. A client without an identifier keeps the one of its lease. -/
def Lease.setHwaddr (lease : Lease) (hwaddr : List UInt8) (hwType : ℕ)
    (clid : Option (List UInt8)) : Lease :=
  { lease with
    hwaddr := hwaddr
    hwaddrLen := hwaddr.length
    hwaddrType := hwType
    clid := match clid with
      | some (c :: rest) => some (c :: rest)
      | _ => lease.clid }

namespace LeaseTable

def pruned (target : Option ℕ) (now : ℕ) (lease : Lease) :
    Bool := lease.expired now ∨ target = some lease.number

/-- `lease_prune`. -/
def prune (table : LeaseTable) (target : Option ℕ) (now : ℕ) : LeaseTable :=
  { table with
    leases := table.leases.filter fun lease ↦ !pruned target now lease
    leasesLeft := table.leasesLeft + (table.leases.filter (pruned target now)).length }

def hasClid (clid : Option (List UInt8)) (lease : Lease) : Bool := clid.isSome ∧ lease.clid = clid

/-- A lease has the hardware address of a client, and not both have an identifier. -/
def hasHwaddr (hwaddr : List UInt8) (hwType : ℕ) (clid : Option (List UInt8)) (lease : Lease) :
    Bool :=
  (lease.clid.isNone ∨ clid.isNone) ∧ hwaddr.length ≠ 0 ∧ lease.hwaddrLen = hwaddr.length ∧
    lease.hwaddrType = hwType ∧ lease.hwaddr = hwaddr

/-- `lease_find_by_client`. -/
def findByClient (table : LeaseTable) (hwaddr : List UInt8) (hwType : ℕ)
    (clid : Option (List UInt8)) : Option Lease :=
  (table.leases.find? (hasClid clid)).or (table.leases.find? (hasHwaddr hwaddr hwType clid))

/-- `lease_find_by_addr`. -/
def findByAddr (table : LeaseTable) (addr : UInt32) :
    Option Lease := table.leases.find? fun lease ↦ lease.addr = addr

/-- `lease_find_max_addr`, for a range. -/
def findMaxAddr (table : LeaseTable) (start endAddr : UInt32) : UInt32 :=
  table.leases.foldl (fun addr lease ↦
    if start < lease.addr ∧ lease.addr ≤ endAddr ∧ addr < lease.addr then
      lease.addr else addr) start

/-- `lease4_allocate`. Without a lease left it writes through a null pointer. -/
def allocate4 (table : LeaseTable) (addr : UInt32) : Option (LeaseTable × Lease) :=
  if table.leasesLeft = 0 then none
  else
    let lease : Lease :=
      { number := table.allocated, addr := addr, hwaddr := [], hwaddrLen := 256, hwaddrType := 0,
        clid := none
        hostname := none, fqdn := none, authName := false, expires := 1, override := 0 }
    some
      ({ leases := lease :: table.leases
         leasesLeft := table.leasesLeft - 1
         allocated := table.allocated + 1 }, lease)

def update (table : LeaseTable) (number : ℕ) (change : Lease → Lease) : LeaseTable :=
  { table with leases := table.leases.map fun lease ↦ if lease.number = number then change lease
    else lease }

def qualify (name : List UInt8) (domain : Option (List UInt8)) : Option (List UInt8) :=
  domain.map fun domain ↦ name ++ [46] ++ domain

/-- Two names that are there and equal. -/
def sameName (left right : Option (List UInt8)) : Bool := match left, right with
  | some left, some right => hostnameIsequal left right
  | _, _ => false

/-- The lease whose name is taken by a new one: fully qualified names count with `OPT_DHCP_FQDN`. -/
def nameHolder (table : LeaseTable) (byFqdn : Bool) (name : List UInt8)
    (fqdn : Option (List UInt8)) : Option Lease :=
  table.leases.find? fun lease ↦ if byFqdn then sameName lease.fqdn fqdn
    else sameName lease.hostname (some name)

def giveName (table : LeaseTable) (number : ℕ) (name : List UInt8) (fqdn : Option (List UInt8))
    (auth : Bool) :
    LeaseTable :=
  table.update number fun lease ↦
    { lease with hostname := some name, fqdn := fqdn, authName := lease.authName || auth }

/-- `lease_set_hostname`. A name of the client does not replace one of the configuration. -/
def setHostname (byFqdn : Bool) (table : LeaseTable) (lease : Lease) (name : List UInt8)
    (auth : Bool) (domain : Option (List UInt8)) : LeaseTable :=
  if sameName lease.hostname (some name) then
    if auth then table.update lease.number fun lease ↦ { lease with authName := true } else table
  else
    let fqdn := qualify name domain
    match table.nameHolder byFqdn name fqdn with
    | none => table.giveName lease.number name fqdn auth
    | some holder =>
      if holder.authName ∧ auth = false then table
      else (table.update holder.number Lease.killName).giveName lease.number name fqdn auth

end LeaseTable

end CrossBreeder.Dnsmasq
