import CrossBreeder.Foundation.CString
import CrossBreeder.Foundation.IntrusiveList
import Mathlib.Data.Finset.Card

/-!
# The cache of dnsmasq

`cache.c` up to the lookups: records, the LRU list, the hash table, the insertion of a batch, and
`cache_find_by_name` and `cache_find_by_addr`, compiled with IPv6 and DHCP and without DNSSEC.

A record is an address. The links `next` and `prev` are functions of their own, and so are the
places `up` can point to, which are the entries of the hash table and the `hash_next` of the
records. The other fields are in `crec`. What a buffer for a long name contains once a link has been
written over its first bytes is given by `clobber`, and the table that the hash function mixes in,
which contains pointers, by `mixTab`.

`serial`, `linkedSerial` and `linkedName` are not in the source and nothing depends on them:
`serial` is new for every use of a record and again when the record is given up, and the other two
are the serial and the name of the record that a CNAME was linked to.
-/

namespace CrossBreeder.Dnsmasq

open Foundation

/-! ### Records -/

abbrev Addr := ℕ

/-- The bits of `flags` that the cache uses. -/
inductive Flag
  | immortal | namep | reverse | forward | dhcp | neg | hosts | ipv4 | ipv6 | bigname
    | nxdomain | cname
  | dnskey | config | ds
  deriving DecidableEq, Repr

abbrev Flags := Finset Flag

/-- `left & right`, as a condition. -/
def Meets (left right : Flags) : Prop := (left ∩ right).Nonempty

instance (left right : Flags) : Decidable (Meets left right) :=
  inferInstanceAs (Decidable (Finset.Nonempty _))

def fType : Flags := {.ipv4, .ipv6, .dnskey, .ds}

def localFlags : Flags := {.hosts, .dhcp}

def InUse (flags : Flags) : Prop := Meets flags {.forward, .reverse}

instance (flags : Flags) : Decidable (InUse flags) := inferInstanceAs (Decidable (Meets _ _))

/-- `struct crec` without its links, with what a use of the record can be told by. -/
structure Crec where
  flags : Flags
  uid : ℕ
  ttd : ℤ
  name : List UInt8
  addr : List UInt8
  cnameCache : Option Addr
  cnameUid : ℕ
  serial : ℕ
  linkedSerial : ℕ
  linkedName : List UInt8

instance : Inhabited Crec := ⟨⟨∅, 0, 0, [], [], none, 0, 0, 0, []⟩⟩

/-- What `up` can point to: an entry of the hash table or the `hash_next` of a record. -/
inductive Slot
  | bucket (index : ℕ)
  | record (crecp : Addr)
  deriving DecidableEq, Repr

/-- A `--cname`. -/
structure Cname where
  aliasName : List UInt8
  target : List UInt8

/-- What the cache uses of the configuration and of the system. -/
structure Env where
  cachesize : ℕ
  maxCacheTtl : ℕ
  cnames : List Cname
  optExpand : Bool
  packetBuffSz : ℕ
  mixTab : UInt32 → UInt32
  clobber : List UInt8 → List UInt8
  malloc : ℕ → Option (Addr × Crec)

/-- The static variables of `cache.c` and the memory. `live` are the records that are allocated,
`mallocs` counts the calls of `malloc` and `serials` the serials. -/
structure Cache where
  crec : Addr → Crec
  next : Addr → Option Addr
  prev : Addr → Option Addr
  hash : Slot → Option Addr
  hashSize : ℕ
  cacheHead : Option Addr
  cacheTail : Option Addr
  newChain : Option Addr
  dhcpSpare : Option Addr
  insertError : Bool
  bigFree : ℕ
  bignamesLeft : ℕ
  uid : ℕ
  live : Finset Addr
  mallocs : ℕ
  serials : ℕ

def Cache.flags (s : Cache) (crecp : Addr) : Flags := (s.crec crecp).flags

/-- `cache_get_name`. -/
def Cache.name (s : Cache) (crecp : Addr) : List UInt8 := (s.crec crecp).name

def Cache.modify (s : Cache) (crecp : Addr) (change : Crec → Crec) : Cache :=
  { s with crec := Function.update s.crec crecp (change (s.crec crecp)) }

/-- A record gets a new serial. -/
def Cache.renew (s : Cache) (crecp : Addr) : Cache :=
  { s.modify crecp fun crec ↦ { crec with serial := s.serials } with serials := s.serials + 1 }

/-- `*up = target`. -/
def Cache.setLink (s : Cache) (up : Slot) (target : Option Addr) : Cache :=
  { s with hash := Function.update s.hash up target }

/-- The length of the longest walk along records that do not repeat. -/
def Cache.walkFuel (s : Cache) : ℕ := s.live.card + 1

def hostnameIsequal (left right : List UInt8) : Bool := left.map toLower = right.map toLower

theorem hostnameIsequal_iff {left right : List UInt8} :
    hostnameIsequal left right = true ↔ left.map toLower = right.map toLower := decide_eq_true_iff

/-! ### The hash table -/

/-- The value that `hash_bucket` computes from a name. -/
def hashValue (env : Env) (name : List UInt8) : UInt32 :=
  (name.map toLower).foldl
    (fun val char ↦
      let c := UInt32.ofNat char.toNat
      ((val <<< 7) ||| (val >>> 25)) + (env.mixTab ((val + c) &&& 0x3f) ^^^ c)) 7989

def hashBucket (env : Env) (hashSize : ℕ) (name : List UInt8) : ℕ :=
  (hashValue env name ^^^ (hashValue env name >>> 16)).toNat &&& (hashSize - 1)

/-- The loops of `cache_hash`: the first slot from `up` on that leads to no record or to one without
the property. -/
def skipWhile (s : Cache) (skip : Flags → Bool) : ℕ → Slot → Slot
  | 0, up => up
  | fuel + 1, up => match s.hash up with
    | none => up
    | some crecp => if skip (s.flags crecp) then skipWhile s skip fuel (.record crecp) else up

/-- Where `cache_hash` puts a record: in front of the bucket if it is a reverse entry, behind the
reverse entries if not, and in front of the other immortal entries if it is immortal. -/
def hashPlace (env : Env) (s : Cache) (crecp : Addr) : Slot :=
  let up := Slot.bucket (hashBucket env s.hashSize (s.name crecp))
  if .reverse ∈ s.flags crecp then up
  else
    let up := skipWhile s (fun flags ↦ .reverse ∈ flags) s.walkFuel up
    if .immortal ∈ s.flags crecp then skipWhile s (fun flags ↦ .immortal ∉ flags) s.walkFuel up
      else up

def cacheHash (env : Env) (s : Cache) (crecp : Addr) : Cache :=
  let up := hashPlace env s crecp
  (s.setLink (.record crecp) (s.hash up)).setLink up (some crecp)

/-- The loop that computes the size of the table, which doubles at most as often as the bound is
large. -/
def tableSize (bound : ℕ) : ℕ → ℕ → ℕ
  | 0, size => size
  | fuel + 1, size => if size < bound then tableSize bound fuel (size * 2) else size

/-- The inner loop of `rehash`. -/
def rehashChain (env : Env) : ℕ → Option Addr → Cache → Cache
  | 0, _, s => s
  | _ + 1, none, s => s
  | fuel + 1, some p, s => rehashChain env fuel (s.hash (.record p)) (cacheHash env s p)

def Cache.clearTable (s : Cache) (size : ℕ) : Cache :=
  { s with
    hashSize := size
    hash := fun up ↦ match up with
      | .bucket _ => none
      | .record crecp => s.hash (.record crecp) }

/-- The outer loop of `rehash`: every chain of the old table goes to the new one. -/
def rehashAll (env : Env) (old : Cache) (size : ℕ) : Cache :=
  (List.range old.hashSize).foldl
    (fun s i ↦ rehashChain env old.walkFuel (old.hash (.bucket i)) s) (old.clearTable size)

/-- `rehash` once there is a table: nothing happens unless the table grows and there is memory for
it. -/
def rehash (env : Env) (s : Cache) (size : ℕ) : Cache :=
  let newSize := tableSize (size / 10) size 64
  if newSize ≤ s.hashSize then s
  else
    let granted := (env.malloc s.mallocs).isSome
    let s := { s with mallocs := s.mallocs + 1 }
    if granted then rehashAll env s newSize else s

/-! ### The LRU list -/

def cacheLink (s : Cache) (crecp : Addr) : Cache :=
  { s with
    next := Function.update s.next crecp s.cacheHead
    prev := Function.update
      (s.cacheHead.elim s.prev fun first ↦ Function.update s.prev first (some crecp)) crecp none
    cacheHead := some crecp
    cacheTail := if s.cacheTail = none then some crecp else s.cacheTail }

def cacheUnlink (s : Cache) (crecp : Addr) : Cache :=
  { s with
    next := bypass s.next (s.prev crecp) crecp
    prev := bypass s.prev (s.next crecp) crecp
    cacheHead := if s.prev crecp = none then s.next crecp else s.cacheHead
    cacheTail := if s.next crecp = none then s.prev crecp else s.cacheTail }

/-- The part of `cache_free` that puts the record at the end of the list. -/
def linkTail (s : Cache) (crecp : Addr) : Cache :=
  { s with
    next := Function.update
      (s.cacheTail.elim s.next fun last ↦ Function.update s.next last (some crecp)) crecp none
    prev := Function.update s.prev crecp s.cacheTail
    cacheHead := if s.cacheTail = none then some crecp else s.cacheHead
    cacheTail := some crecp }

def cacheFree (s : Cache) (crecp : Addr) : Cache :=
  let big := decide (.bigname ∈ s.flags crecp)
  let s := (s.modify crecp fun crec ↦
    { crec with flags := crec.flags \ {.forward, .reverse, .bigname}, uid := s.uid }).renew crecp
  let s := linkTail { s with uid := s.uid + 1 } crecp
  if big then { s with bigFree := s.bigFree + 1 } else s

/-- `cache_init`, with what the memory contains. -/
def cacheInit (env : Env) (memory : Addr → Crec) : Cache :=
  let s : Cache :=
    { crec := memory, next := fun _ ↦ none, prev := fun _ ↦ none, hash := fun _ ↦
      none, hashSize := 0
      cacheHead := none, cacheTail := none, newChain := none, dhcpSpare := none, insertError :=
        false
      bigFree := 0, bignamesLeft := env.cachesize / 10, uid := 0, live := Finset.range env.cachesize
      mallocs := 0, serials := 0 }
  let s := (List.range env.cachesize).foldl
    (fun s crecp ↦
      let s := cacheLink s crecp
      { s.modify crecp fun crec ↦ { crec with flags := ∅, uid := s.uid } with uid := s.uid + 1 }) s
  s.clearTable (tableSize (env.cachesize / 10) env.cachesize 64)

/-! ### Walks along a chain -/

def isOutdatedCnamePointer (s : Cache) (crecp : Addr) : Bool :=
  if .cname ∉ s.flags crecp then false
  else match (s.crec crecp).cnameCache with
    | none => true
    | some cache =>
      ¬ (Meets (s.flags cache) {.ipv4, .ipv6, .cname} ∧
        (s.crec crecp).cnameUid = (s.crec cache).uid)

def isExpired (s : Cache) (now : ℤ) (crecp : Addr) : Bool :=
  if .immortal ∈ s.flags crecp then false else ¬ now - (s.crec crecp).ttd < 0

inductive Verdict
  | keep | drop | stop
  deriving DecidableEq, Repr

/-- A loop over a chain that may take out records, with a value of its own: what is done with a
record, and the further effects of keeping it and of taking it out. -/
def walkChain {τ : Type} (verdict : Cache → τ → Addr → Verdict)
    (onKeep onDrop : Cache → τ → Addr → Cache × τ) :
    ℕ → Slot → Option Addr → Cache → τ → (Cache × τ) × Option Addr
  | 0, _, crecp, s, value => ((s, value), crecp)
  | _ + 1, _, none, s, value => ((s, value), none)
  | fuel + 1, up, some crecp, s, value => match verdict s value crecp with
    | .stop => ((s, value), some crecp)
    | .keep =>
      let (s, value) := onKeep s value crecp
      walkChain verdict onKeep onDrop fuel (.record crecp) (s.hash (.record crecp)) s value
    | .drop =>
      let following := s.hash (.record crecp)
      let (s, value) := onDrop (s.setLink up following) value crecp
      walkChain verdict onKeep onDrop fuel up following s value

/-- The loop over one bucket. -/
def walkBucket {τ : Type} (verdict : Cache → τ → Addr → Verdict)
    (onKeep onDrop : Cache → τ → Addr → Cache × τ) (i : ℕ) (s : Cache) (value : τ) :
    (Cache × τ) × Option Addr :=
  walkChain verdict onKeep onDrop s.walkFuel (.bucket i) (s.hash (.bucket i)) s value

/-- The loop over all buckets. -/
def walkTable {τ : Type} (verdict : Cache → τ → Addr → Verdict)
    (onKeep onDrop : Cache → τ → Addr → Cache × τ) (s : Cache) (value : τ) : Cache × τ :=
  (List.range s.hashSize).foldl
    (fun state i ↦ (walkBucket verdict onKeep onDrop i state.1 state.2).1) (s, value)

/-- What the loops do with a record that they have taken out of its chain: a record of the pool goes
back to it. -/
def releaseRecord (s : Cache) (crecp : Addr) : Cache :=
  if Meets (s.flags crecp) localFlags then s else cacheFree (cacheUnlink s crecp) crecp

/-! ### `cache_scan_free` -/

structure ScanName where
  text : List UInt8
  owner : Option Addr

/-- The name after a record was taken out of its chain: if the name is the long name of that record,
its buffer is free now. -/
def ScanName.afterRelease (env : Env) (s : Cache) (name : ScanName) (crecp : Addr) : ScanName :=
  if name.owner = some crecp ∧ .bigname ∈ s.flags crecp then
    { name with text := env.clobber name.text }
  else name

/-- The entry is one of those for a name that an insertion replaces. -/
def replaced (s : Cache) (flags : Flags) (name : List UInt8) (crecp : Addr) : Bool :=
  .forward ∈ s.flags crecp ∧
    (Meets (flags ∩ s.flags crecp) fType ∨ .cname ∈ s.flags crecp ∪ flags) ∧
    hostnameIsequal (s.name crecp) name

/-- The loop of `cache_scan_free` for a forward entry. -/
def scanForwardVerdict (now : ℤ) (flags : Flags) (s : Cache) (name : ScanName) (crecp : Addr) :
    Verdict :=
  if isExpired s now crecp ∨ isOutdatedCnamePointer s crecp then .drop
  else if replaced s flags name.text crecp then
    if Meets (s.flags crecp) localFlags then .stop else .drop
  else .keep

def addrlen (flags : Flags) : ℕ := if .ipv6 ∈ flags then 16 else 4

/-- `memcmp` of two addresses. -/
def sameAddr (len : ℕ) (left right : List UInt8) : Bool := left.take len = right.take len

/-- The loop of `cache_scan_free` for the other entries. -/
def scanReverseVerdict (now : ℤ) (flags : Flags) (addr : List UInt8) (s : Cache) (_ : ScanName)
    (crecp : Addr) : Verdict :=
  if .reverse ∉ s.flags crecp ∧ .immortal ∈ s.flags crecp then .stop
  else if isExpired s now crecp then .drop
  else if ¬ Meets (s.flags crecp) localFlags ∧ .reverse ∈ flags ∩ s.flags crecp ∧
      Meets (flags ∩ s.flags crecp) {.ipv4, .ipv6} ∧
      sameAddr (addrlen flags) (s.crec crecp).addr addr then .drop
  else .keep

/-- A record that is taken out by `cache_scan_free`. -/
def scanDrop (env : Env) (s : Cache) (name : ScanName) (crecp : Addr) : Cache × ScanName :=
  (releaseRecord s crecp, name.afterRelease env s crecp)

def keepRecord {τ : Type} (s : Cache) (value : τ) (_ : Addr) : Cache × τ := (s, value)

/-- `cache_scan_free`, false if the name is one of a hosts file or a lease. -/
def cacheScanFree (env : Env) (s : Cache) (name : ScanName) (addr : List UInt8) (now : ℤ)
    (flags : Flags) : Cache × Bool :=
  if .forward ∈ flags then
    let ((s, _), crecp) := walkBucket (scanForwardVerdict now flags) keepRecord (scanDrop env)
      (hashBucket env s.hashSize name.text) s name
    (s, crecp = none)
  else ((walkTable (scanReverseVerdict now flags addr) keepRecord (scanDrop env) s name).1, true)

/-! ### Insertion -/

/-- The loop of `cache_start_insert`. -/
def freeNewChain : ℕ → Cache → Cache
  | 0, s => s
  | fuel + 1, s => match s.newChain with
    | none => s
    | some crecp => freeNewChain fuel { cacheFree s crecp with newChain := s.next crecp }

def cacheStartInsert (s : Cache) : Cache :=
  { freeNewChain s.walkFuel s with newChain := none, insertError := false }

/-- The loop of `cache_insert` up to the test for a long name: the record at the end of the LRU
list, once it is free. -/
def grabTail (env : Env) (now : ℤ) : ℕ → Bool → Bool → Cache → Cache × Option Addr
  | 0, _, _, s => (s, none)
  | fuel + 1, freedAll, freeAvail, s => match s.cacheTail with
    | none => ({ s with insertError := true }, none)
    | some new =>
      if InUse (s.flags new) then
        if freeAvail then ({ s with insertError := true }, none)
        else if freedAll then
          let crec := s.crec new
          grabTail env now fuel freedAll true
            (cacheScanFree env s ⟨crec.name, some new⟩ crec.addr now crec.flags).1
        else grabTail env now fuel true freeAvail (cacheScanFree env s ⟨[], none⟩ [] now ∅).1
      else (s, some new)

def smallDname : ℕ := 40

/-- A buffer for a long name: a free one, or a new one if there is one left and memory for it. -/
def takeBigname (env : Env) (s : Cache) : Cache × Bool :=
  if 0 < s.bigFree then ({ s with bigFree := s.bigFree - 1 }, true)
  else if s.bignamesLeft = 0 then (s, false)
  else
    let granted := (env.malloc s.mallocs).isSome
    let s := { s with mallocs := s.mallocs + 1 }
    if granted then ({ s with bignamesLeft := s.bignamesLeft - 1 }, true) else (s, false)

/-- The last part of `cache_insert`: the record gets its contents and goes to the new chain. -/
def fillEntry (s : Cache) (new : Addr) (name addr : Option (List UInt8)) (ttd : ℤ) (flags : Flags)
    (big : Bool) : Cache :=
  let s := ((cacheUnlink s new).modify new fun crec ↦
    { crec with
      flags := if big then insert .bigname flags else flags
      name := name.getD []
      addr := addr.getD crec.addr
      ttd := ttd }).renew new
  { s with
    next := Function.update s.next new s.newChain
    newChain := some new }

/-- `(time_t)ttl`. -/
def timeT (ttl : ℕ) : ℤ := if ttl % 2 ^ 64 < 2 ^ 63 then ttl % 2 ^ 64 else ttl % 2 ^ 64 - 2 ^ 64

def cacheInsert (env : Env) (s : Cache) (name addr : Option (List UInt8)) (now : ℤ) (ttl : ℕ)
    (flags : Flags) : Cache × Option Addr :=
  let ttl := if env.maxCacheTtl ≠ 0 ∧ env.maxCacheTtl < ttl then env.maxCacheTtl else ttl
  if s.insertError then (s, none)
  else
    let (s, ok) := cacheScanFree env s ⟨name.getD [], none⟩ (addr.getD []) now flags
    if ok = false then ({ s with insertError := true }, none)
    else match grabTail env now 3 (.reverse ∈ flags) false s with
      | (s, none) => (s, none)
      | (s, some new) =>
        if smallDname - 1 < (name.getD []).length then
          let (s, granted) := takeBigname env s
          if granted then (fillEntry s new name addr (now + timeT ttl) flags true, some new)
          else ({ s with insertError := true }, none)
        else (fillEntry s new name addr (now + timeT ttl) flags false, some new)

/-- The loop of `cache_end_insert`. -/
def commitNewChain (env : Env) : ℕ → Cache → Cache
  | 0, s => s
  | fuel + 1, s => match s.newChain with
    | none => s
    | some crecp =>
      let rest := s.next crecp
      let s := if isOutdatedCnamePointer s crecp then cacheFree s crecp
        else cacheLink (cacheHash env s crecp) crecp
      commitNewChain env fuel { s with newChain := rest }

def cacheEndInsert (env : Env) (s : Cache) : Cache :=
  if s.insertError then s else { commitNewChain env s.walkFuel s with newChain := none }

/-- What `extract_addresses` does to a CNAME of the batch when the next record of the chain is
known. -/
def linkCname (s : Cache) (cpp newc : Addr) : Cache :=
  s.modify cpp fun crec ↦
    { crec with
      cnameCache := some newc
      cnameUid := (s.crec newc).uid
      linkedSerial := (s.crec newc).serial
      linkedName := (s.crec newc).name }

/-! ### Lookups -/

/-- The list of answers under construction: its first record, and the one whose `next` is to be set.
-/
structure Answers where
  ans : Option Addr
  chainp : Option Addr

/-- `*chainp = target`. -/
def Answers.put (s : Cache) (answers : Answers) (target : Option Addr) : Cache × Answers :=
  match answers.chainp with
  | none => (s, { answers with ans := target })
  | some crecp => ({ s with next := Function.update s.next crecp target }, answers)

/-- What the lookups do with a record that matches: one that is not in the pool goes to the answers,
and one of the pool to the front of the LRU list. -/
def promote (s : Cache) (answers : Answers) (crecp : Addr) : Cache × Answers :=
  if Meets (s.flags crecp) localFlags then
    let (s, answers) := answers.put s (some crecp)
    (s, { answers with chainp := some crecp })
  else (cacheLink (cacheUnlink s crecp) crecp, answers)

/-- The local variables of the loop of `cache_find_by_name`: `insert` and `ins_flags` are not set
before the first match. -/
structure FindState where
  answers : Answers
  insert : Option (Slot × Flags)

/-- The entry answers a question about a name. -/
def matchesName (s : Cache) (name : List UInt8) (prot : Flags) (crecp : Addr) : Bool :=
  .forward ∈ s.flags crecp ∧ Meets (s.flags crecp) prot ∧ hostnameIsequal (s.name crecp) name

/-- The loop of `cache_find_by_name`. A match behind the first one with the same `F_REVERSE` and
`F_IMMORTAL` is moved to the place `insert`. -/
def findNameLoop (name : List UInt8) (now : ℤ) (prot : Flags) :
    ℕ → Slot → Option Addr → Cache → FindState → Cache × FindState
  | 0, _, _, s, state => (s, state)
  | _ + 1, _, none, s, state => (s, state)
  | fuel + 1, up, some crecp, s, state =>
    let following := s.hash (.record crecp)
    if isExpired s now crecp = false ∧ isOutdatedCnamePointer s crecp = false then
      if matchesName s name prot crecp then
        let order := s.flags crecp ∩ {.reverse, .immortal}
        let (s, answers) := promote s state.answers crecp
        match state.insert with
        | none => findNameLoop name now prot fuel (.record crecp) following s ⟨answers,
          some (up, order)⟩
        | some (place, insFlags) =>
          if order = insFlags then
            let s := s.setLink up (s.hash (.record crecp))
            let s := s.setLink (.record crecp) (s.hash place)
            let s := s.setLink place (some crecp)
            findNameLoop name now prot fuel up following s
              ⟨answers, some (.record crecp, insFlags)⟩
          else findNameLoop name now prot fuel (.record crecp) following s
            { state with answers := answers }
      else findNameLoop name now prot fuel (.record crecp) following s state
    else
      let s := releaseRecord (s.setLink up (s.hash (.record crecp))) crecp
      findNameLoop name now prot fuel up following s state

def acceptAnswer (ans : Option Addr) (test : Addr → Bool) : Option Addr := ans.filter test

/-- `cache_find_by_name`: the first search, or the answer behind a given one. -/
def cacheFindByName (env : Env) (s : Cache) (crecp : Option Addr) (name : List UInt8) (now : ℤ)
    (prot : Flags) : Cache × Option Addr :=
  match crecp with
  | some crecp => (s, acceptAnswer (s.next crecp) (matchesName s name prot))
  | none =>
    let bucket := hashBucket env s.hashSize name
    let (s, state) :=
      findNameLoop name now prot s.walkFuel (.bucket bucket) (s.hash (.bucket bucket)) s
      ⟨⟨none, none⟩, none⟩
    let (s, answers) := state.answers.put s s.cacheHead
    (s, acceptAnswer answers.ans (matchesName s name prot))

/-- The entry answers a question about an address. -/
def matchesAddr (s : Cache) (addr : List UInt8) (prot : Flags) (crecp : Addr) : Bool :=
  Meets (s.flags crecp) prot ∧ sameAddr (if prot = {.ipv6} then 16 else 4) (s.crec crecp).addr addr

/-- The loop of `cache_find_by_addr`. -/
def findAddrVerdict (now : ℤ) (s : Cache) (_ : Answers) (crecp : Addr) : Verdict :=
  if .reverse ∉ s.flags crecp then .stop else if isExpired s now crecp then .drop else .keep

/-- `cache_find_by_addr`: the first search, or the answer behind a given one. -/
def cacheFindByAddr (s : Cache) (crecp : Option Addr) (addr : List UInt8) (now : ℤ) (prot : Flags) :
    Cache × Option Addr :=
  let accepted (s : Cache) (ans : Addr) : Bool :=
    .reverse ∈ s.flags ans ∧ matchesAddr s addr prot ans
  match crecp with
  | some crecp => (s, acceptAnswer (s.next crecp) (accepted s))
  | none =>
    let (s, answers) := walkTable (findAddrVerdict now)
      (fun s answers crecp ↦
        if matchesAddr s addr prot crecp then promote s answers crecp else (s, answers))
      (fun s answers crecp ↦ (releaseRecord s crecp, answers)) s ⟨none, none⟩
    let (s, answers) := answers.put s s.cacheHead
    (s, acceptAnswer answers.ans (accepted s))

end CrossBreeder.Dnsmasq
