import CrossBreeder.Foundation.ByteOrder

/-!
# Upstream servers and domains

`srvnode.c` and the server half of `domnode.c`. The servers of a domain form a ring closed by a head
node that is never active; the ring is the list of its nodes, head first, and a pointer into it is
an index. `current` is a pointer that may be null.
-/

namespace CrossBreeder.Dnrd

open Foundation

/-- The host and the command line: byte order, `-M`, `-t`, `-r`, `-m off`, `-c` and `-i`. -/
structure Config where
  order : ByteOrder
  maxSockets : ℤ
  forwardTimeout : ℤ
  reactivateInterval : ℤ
  masterOnoff : Bool
  cacheOnoff : Bool
  cacheHighwater : ℤ
  cacheLowwater : ℤ
  ignoreInactiveCacheHits : Bool

/-- The settings of a little-endian host started without options. -/
def defaultConfig : Config where
  order := .little
  maxSockets := 200
  forwardTimeout := 12
  reactivateInterval := 10
  masterOnoff := true
  cacheOnoff := true
  cacheHighwater := 1000
  cacheLowwater := 800
  ignoreInactiveCacheHits := false

/-- `srvnode_t`. An active server has `inactive = 0`, another one the time it was deactivated. -/
structure SrvNode where
  addr : ℕ
  inactive : ℤ
  sendCount : ℕ
  sendTime : ℤ
  deriving DecidableEq, Repr

/-- `alloc_srvnode`: the node that heads a ring. -/
def allocSrvnode : SrvNode where
  addr := 0
  inactive := -1
  sendCount := 0
  sendTime := 0

instance : Inhabited SrvNode := ⟨allocSrvnode⟩

/-- `domnode_t`: null is the domain of the default servers. -/
structure DomNode where
  domain : Option (List UInt8)
  srvlist : List SrvNode
  current : Option ℕ
  roundrobin : Bool
  deriving DecidableEq, Repr

def allocDomnode : DomNode where
  domain := none
  srvlist := [allocSrvnode]
  current := none
  roundrobin := false

instance : Inhabited DomNode := ⟨allocDomnode⟩

/-- `add_srv` behind the last server of the ring, as option `-s` does. -/
def addSrv (d : DomNode) (addr : ℕ) : DomNode :=
  { d with srvlist := d.srvlist ++ [{ allocSrvnode with addr := addr, inactive := 0 }] }

def nextSrv (ring : List SrvNode) (s : ℕ) : ℕ := if s + 1 < ring.length then s + 1 else 0

/-- `no_srvlist`: the ring holds only its head. -/
def noSrvlist (ring : List SrvNode) : Bool := nextSrv ring 0 = 0

/-- `main` makes the first server current, which is the head when there is none. -/
def startCurrent (d : DomNode) : DomNode := { d with current := some (nextSrv d.srvlist 0) }

/-- A domain as the command line sets it up. -/
def configuredDomain (domain : Option (List UInt8)) (roundrobin : Bool) (addrs : List ℕ) :
    DomNode :=
  startCurrent (addrs.foldl addSrv { allocDomnode with domain := domain, roundrobin := roundrobin })

/-- The loop of `next_active`: on from `s` while it is inactive and not `start`. -/
def nextActiveLoop (ring : List SrvNode) (start : ℕ) : ℕ → ℕ → ℕ
  | 0, s => s
  | fuel + 1, s =>
    if (ring.getD s default).inactive ≠ 0 ∧ s ≠ start then
      nextActiveLoop ring start fuel (nextSrv ring s)
    else s

/-- `next_active`: the next active server behind the current one, or behind the head when there is
no current one. One round of the ring is enough for the loop. -/
def nextActive (d : DomNode) : Option ℕ :=
  let start := d.current.getD 0
  let s := nextActiveLoop d.srvlist start d.srvlist.length (nextSrv d.srvlist start)
  if (d.srvlist.getD s default).inactive ≠ 0 then none else some s

def setCurrent (d : DomNode) (s : Option ℕ) : DomNode := { d with current := s }

/-- The current server, if any, marked inactive since `now`. -/
def markInactive (now : ℕ) (d : DomNode) : DomNode :=
  match d.current with
  | none => d
  | some c => { d with srvlist := d.srvlist.modify c fun s ↦ { s with inactive := now } }

/-- `deactivate_current` at time `now`. -/
def deactivateCurrent (now : ℕ) (d : DomNode) : DomNode :=
  setCurrent (markInactive now d) (nextActive (markInactive now d))

structure SrvId where
  dom : ℕ
  srv : ℕ
  deriving DecidableEq, Repr

def srvAt (doms : List DomNode) (id : SrvId) : SrvNode :=
  (doms.getD id.dom default).srvlist.getD id.srv default

def modifySrv (doms : List DomNode) (id : SrvId) (update : SrvNode → SrvNode) : List DomNode :=
  doms.modify id.dom fun d ↦ { d with srvlist := d.srvlist.modify id.srv update }

end CrossBreeder.Dnrd
