import CrossBreeder.Dnrd.Servers
import CrossBreeder.Dnrd.Wire
import CrossBreeder.Foundation.TextFields

/-!
# The response cache

`cache.c`: responses are kept in a list under the parsed question, the oldest first.
`cache_dnspacket` appends a response that has answers, `cache_lookup` copies the first entry for a
question over the request, and `cache_expire` removes entries that are out of date and, above the
high-water mark, the ones `expire_oldest` picks.
-/

namespace CrossBreeder.Dnrd

open Foundation

/-- A sixteen-bit number read into a `short int`. -/
def signedShort (value : ℕ) : ℤ := if value < 32768 then value else (value : ℤ) - 65536

/-- The fields of `dnsheader_t` that the cache reads: the answer count and the packet. -/
structure DnsHeader where
  ancount : ℤ
  packet : Packet
  deriving DecidableEq, Repr

/-- `parse_packet`, which is `decode_header`. -/
def parsePacket (packet : Packet) : DnsHeader where
  ancount := signedShort (shortAt packet 6)
  packet := packet

/-- `CACHE_NEGTIME` in seconds. -/
def cacheNegtime : ℕ := 5 * 60

/-- `CACHE_TIME` in seconds. -/
def cacheTime : ℕ := 60 * 60

/-- `CACHE_MAXTIME` in seconds. -/
def cacheMaxtime : ℕ := 6 * 60 * 60

/-- `CACHE_MINCYCLE` in seconds. -/
def cacheMincycle : ℕ := 5 * 60

/-- `get_stringcode`: the sum of the lower-case characters in the low byte and the length above. -/
def getStringcode (text : List UInt8) : ℕ :=
  (text.map fun char ↦ (toLower char).toNat).sum % 256 + text.length * 256

/-- `strcasecmp(left, right) == 0`. -/
def strcasecmpEq (left right : List UInt8) : Bool := left.map toLower = right.map toLower

/-- `cache_t`. -/
structure CacheEntry where
  code : ℕ
  name : List UInt8
  type : ℕ
  cls : ℕ
  positive : ℤ
  created : ℕ
  lastused : ℕ
  expires : ℕ
  p : DnsHeader
  server : SrvId
  deriving DecidableEq, Repr

/-- The cache list from `cachelist` to `lastcache`, the counters and the time of the last expire
run, zero before the first. -/
structure Cache where
  entries : List CacheEntry
  hits : ℕ
  misses : ℕ
  lastexpire : ℕ
  deriving DecidableEq, Repr

def emptyCache : Cache := ⟨[], 0, 0, 0⟩

/-- `create_cx`, with the times `append_cx` and `cache_dnspacket` then fill in. -/
def createCx (x : DnsHeader) (query : Rr) (server : SrvId) (now : ℕ) : CacheEntry where
  code := getStringcode query.name
  name := query.name
  type := query.type
  cls := query.cls
  positive := x.ancount
  created := now
  lastused := now
  expires := now + if 0 < x.ancount then cacheTime else cacheNegtime
  p := x
  server := server

/-- `cache_dnspacket` at time `now`. An entry without answers is allocated but not put on the
list. -/
def cacheDnspacket (cfg : Config) (stack : List UInt8) (packet : Packet) (server : SrvId) (now : ℕ)
    (cache : Cache) : Cache :=
  if cfg.cacheOnoff = false then cache
  else match parseQuery cfg.order stack packet with
    | none => cache
    | some query =>
      if getQr query.flags = 0 ∨ query.name = [] then cache
      else
        let cx := createCx (parsePacket packet) query server now
        if 0 < cx.p.ancount then { cache with entries := cache.entries ++ [cx] } else cache

/-- `memcpy(buffer + offset, bytes, length of bytes)`. -/
def overlay (buffer : List UInt8) (offset : ℕ) (bytes : List UInt8) : List UInt8 :=
  buffer.take offset ++ bytes ++ buffer.drop (offset + bytes.length)

/-- The entry that answers a question, as the search in `cache_lookup` compares it. -/
def cacheMatches (query : Rr) (cx : CacheEntry) : Bool :=
  cx.code = getStringcode query.name ∧ cx.type = query.type ∧ cx.cls = query.cls ∧
    strcasecmpEq cx.name query.name

/-- The update of an entry that was hit. -/
def touchCx (now : ℕ) (cx : CacheEntry) : CacheEntry :=
  if 0 < cx.positive then { cx with lastused := now, expires := now + cacheTime } else cx

/-- What `cache_lookup` leaves: its return value, the packet buffer and the cache. -/
structure CacheAnswer where
  len : ℕ
  buffer : List UInt8
  cache : Cache

/-- The search of `cache_lookup`: the first entry that answers the question, and the list with that
entry touched. -/
def searchCx (query : Rr) (now : ℕ) : List CacheEntry → Option (CacheEntry × List CacheEntry)
  | [] => none
  | cx :: rest =>
    if cacheMatches query cx then some (cx, touchCx now cx :: rest)
    else (searchCx query now rest).map fun hit ↦ (hit.1, cx :: hit.2)

/-- `cache_lookup` at time `now` for the packet in the first `len` bytes of a buffer. -/
def cacheLookup (cfg : Config) (doms : List DomNode) (stack : List UInt8) (buffer : List UInt8)
    (len now : ℕ) (cache : Cache) : CacheAnswer :=
  if cfg.cacheOnoff = false then ⟨0, buffer, cache⟩
  else match parseQuery cfg.order stack (buffer.take len) with
    | none => ⟨0, buffer, cache⟩
    | some query =>
      if getQr query.flags = 1 ∨ query.name = [] ∨ query.cls ≠ dnsClassInet then
        ⟨0, buffer, cache⟩
      else match searchCx query now cache.entries with
        | none => ⟨0, buffer, { cache with misses := cache.misses + 1 }⟩
        | some (cx, entries) =>
          { len :=
              if cfg.ignoreInactiveCacheHits ∧ (srvAt doms cx.server).inactive ≠ 0 then 0
              else cx.p.packet.length
            buffer := overlay buffer 2 (cx.p.packet.drop 2)
            cache := { cache with entries := entries, hits := cache.hits + 1 } }

/-- `left - right` for two `unsigned long`. -/
def ulongSub (left right : ℕ) : ℕ := if right ≤ left then left - right else left + 2 ^ 64 - right

/-- The entries that an expire run at time `now` removes. -/
def expired (now : ℕ) (cx : CacheEntry) : Bool :=
  cx.expires < now ∨ cacheMaxtime < ulongSub now cx.created

def cmpCachemru (cx cy : CacheEntry) : ℤ := narrowInt (ulongSub cy.lastused cx.lastused)

/-- `expire_oldest`: the entries are numbered and sorted with `cmp_cachemru`, and the first ones of
the sorted array are removed from the list. -/
def expireOldest (cfg : Config) (entries : List CacheEntry) : List CacheEntry :=
  let n := (entries.length : ℤ) - cfg.cacheLowwater
  let sorted := entries.zipIdx.mergeSort fun x y ↦ cmpCachemru x.1 y.1 ≤ 0
  let removed := (sorted.take n.toNat).map Prod.snd
  (entries.zipIdx.filter fun cx ↦ cx.2 ∉ removed).map Prod.fst

/-- `cache_expire` at time `now`. -/
def cacheExpire (cfg : Config) (now : ℕ) (cache : Cache) : Cache :=
  let lastexpire := if cache.lastexpire = 0 then now else cache.lastexpire
  if cfg.cacheOnoff = false then cache
  else if (now : ℤ) - lastexpire < cacheMincycle then { cache with lastexpire := lastexpire }
  else
    let entries := cache.entries.filter fun cx ↦ !expired now cx
    { cache with
      entries := if cfg.cacheHighwater < entries.length then expireOldest cfg entries else entries
      lastexpire := now }

/-- The water marks that the argument of `-c` gives, from those at startup. -/
def paramMarks (param : List UInt8) (low high : ℤ) : ℤ × ℤ :=
  if (param.head?.any fun c ↦ 48 ≤ c ∧ c ≤ 57) = false then (low, high)
  else if 58 ∉ param then (atoi 64 param * 75 / 100, atoi 64 param)
  else (atoi 64 (param.takeWhile (· ≠ 58)), atoi 64 ((param.dropWhile (· ≠ 58)).drop 1))

/-- `cache_init` with the argument of `-c`, empty if there is none. -/
def cacheInit (param : List UInt8) (cfg : Config) : Config :=
  if param = [111, 102, 102] then { cfg with cacheOnoff := false }
  else
    let (low, high) := paramMarks param cfg.cacheLowwater cfg.cacheHighwater
    if cfg.cacheOnoff = false then { cfg with cacheLowwater := low, cacheHighwater := high }
    else if high < 0 then { cfg with cacheLowwater := 800, cacheHighwater := 1000 }
    else { cfg with
      cacheLowwater := if high < low then high * 75 / 100 else low, cacheHighwater := high }

end CrossBreeder.Dnrd
