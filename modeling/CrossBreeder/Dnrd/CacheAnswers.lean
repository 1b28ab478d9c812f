import CrossBreeder.Dnrd.CacheQuestion
import CrossBreeder.Dnrd.Relay

/-!
# Which entry answers a query

A lookup answers with the first entry of the list for the question. The response is in the buffer
before the server is looked at, so the query is lost when the entry is then skipped
(`missIntact_iff`, `skippedHit_overwrites`). Responses are appended, and a new one is behind an
older one for the same question (`newestAnswer_iff`, `olderAnswer_wins`).
-/

namespace CrossBreeder.Dnrd

open Foundation

/-! ### The entry that is found -/

/-- The question of a packet that `cache_lookup` searches for. -/
def cacheableQuery (cfg : Config) (stack : List UInt8) (packet : Packet) : Option Rr :=
  if cfg.cacheOnoff = false then none
  else (parseQuery cfg.order stack packet).filter fun query ↦
    ¬(getQr query.flags = 1 ∨ query.name = [] ∨ query.cls ≠ dnsClassInet)

def touchFirst (query : Rr) (now : ℕ) : List CacheEntry → List CacheEntry
  | [] => []
  | cx :: rest => if cacheMatches query cx then touchCx now cx :: rest
    else cx :: touchFirst query now rest

theorem searchCx_eq (query : Rr) (now : ℕ) (entries : List CacheEntry) :
    searchCx query now entries =
      (entries.find? (cacheMatches query)).map fun cx ↦ (cx, touchFirst query now entries) := by
  induction entries with
  | nil => rfl
  | cons cx rest ih =>
    by_cases hmatch : cacheMatches query cx = true
    · simp [searchCx, touchFirst, hmatch]
    · simp [searchCx, touchFirst, hmatch, ih, Function.comp_def]

def skipsHit (cfg : Config) (doms : List DomNode) (cx : CacheEntry) : Bool :=
  cfg.ignoreInactiveCacheHits ∧ (srvAt doms cx.server).inactive ≠ 0

section Lookup

variable {cfg : Config} {doms : List DomNode} {stack buffer : List UInt8} {len now : ℕ}
    {cache : Cache} {query : Rr}
  {cx : CacheEntry}

theorem cacheLookup_uncacheable (hquery : cacheableQuery cfg stack (buffer.take len) = none) :
    cacheLookup cfg doms stack buffer len now cache = ⟨0, buffer, cache⟩ := by
  unfold cacheableQuery at hquery
  unfold cacheLookup
  split_ifs at hquery ⊢ with honoff
  · rfl
  · cases hparse : parseQuery cfg.order stack (buffer.take len) with
    | none => rfl
    | some query =>
      rw [hparse] at hquery
      have huse : getQr query.flags = 1 ∨ query.name = [] ∨ query.cls ≠ dnsClassInet := by
        simpa [Option.filter, or_iff_not_imp_left] using hquery
      simp only [if_pos huse]

theorem parseQuery_of_cacheable (hquery : cacheableQuery cfg stack (buffer.take len) = some query) :
    cfg.cacheOnoff ≠ false ∧ parseQuery cfg.order stack (buffer.take len) = some query ∧
      ¬(getQr query.flags = 1 ∨ query.name = [] ∨ query.cls ≠ dnsClassInet) := by
  unfold cacheableQuery at hquery
  split_ifs at hquery with honoff
  obtain ⟨hparse, huse⟩ := Option.filter_eq_some_iff.mp hquery
  exact ⟨honoff, hparse, of_decide_eq_true huse⟩

theorem cacheLookup_absent (hquery : cacheableQuery cfg stack (buffer.take len) = some query)
    (hfind : cache.entries.find? (cacheMatches query) = none) :
    cacheLookup cfg doms stack buffer len now cache =
      ⟨0, buffer, { cache with misses := cache.misses + 1 }⟩ := by
  obtain ⟨honoff, hparse, huse⟩ := parseQuery_of_cacheable hquery
  unfold cacheLookup
  rw [if_neg honoff, hparse]
  simp only [if_neg huse, searchCx_eq, hfind, Option.map_none]

theorem cacheLookup_found (hquery : cacheableQuery cfg stack (buffer.take len) = some query)
    (hfind : cache.entries.find? (cacheMatches query) = some cx) :
    cacheLookup cfg doms stack buffer len now cache =
      { len := if skipsHit cfg doms cx then 0 else cx.p.packet.length
        buffer := overlay buffer 2 (cx.p.packet.drop 2)
        cache := { cache with
          entries := touchFirst query now cache.entries, hits := cache.hits + 1 } } := by
  obtain ⟨honoff, hparse, huse⟩ := parseQuery_of_cacheable hquery
  unfold cacheLookup
  rw [if_neg honoff, hparse]
  simp only [if_neg huse, searchCx_eq, hfind, Option.map_some, skipsHit, decide_eq_true_eq]

end Lookup

/-! ### Lookups that return nothing -/

theorem overlay_nil (buffer : List UInt8) (offset : ℕ) : overlay buffer offset [] = buffer := by
  simp [overlay]

/-- A lookup that returns nothing leaves the buffer as it was. -/
def MissIntact (cfg : Config) (doms : List DomNode) (stack buffer : List UInt8) (len now : ℕ)
    (cache : Cache) : Prop :=
  (cacheLookup cfg doms stack buffer len now cache).len = 0 →
    (cacheLookup cfg doms stack buffer len now cache).buffer = buffer

/-- The entry for the question of a packet is not skipped, unless its response is in the buffer
already. -/
def NoSkippedHit (cfg : Config) (doms : List DomNode) (stack buffer : List UInt8) (len : ℕ)
    (cache : Cache) : Prop :=
  ∀ query cx, cacheableQuery cfg stack (buffer.take len) = some query →
    cache.entries.find? (cacheMatches query) = some cx → skipsHit cfg doms cx = true →
    overlay buffer 2 (cx.p.packet.drop 2) = buffer

theorem missIntact_iff_noSkippedHit (cfg : Config) (doms : List DomNode) (stack buffer : List UInt8)
    (len now : ℕ) (cache : Cache) :
    MissIntact cfg doms stack buffer len now cache ↔
      NoSkippedHit cfg doms stack buffer len cache := by
  unfold MissIntact
  constructor
  · intro hintact query cx hquery hfind hskip
    rw [cacheLookup_found hquery hfind, if_pos hskip] at hintact
    exact hintact rfl
  · intro hskipped hlen
    cases hquery : cacheableQuery cfg stack (buffer.take len) with
    | none => rw [cacheLookup_uncacheable hquery]
    | some query =>
      cases hfind : cache.entries.find? (cacheMatches query) with
      | none => rw [cacheLookup_absent hquery hfind]
      | some cx =>
        rw [cacheLookup_found hquery hfind] at hlen ⊢
        by_cases hskip : skipsHit cfg doms cx = true
        · exact hskipped query cx hquery hfind hskip
        · have hempty : cx.p.packet = [] :=
            List.eq_nil_of_length_eq_zero (by simpa [hskip] using hlen)
          simp only [hempty, List.drop_nil, overlay_nil]

/-- A lookup that returns nothing leaves the query alone, and `handle_query` forwards the packet of
the client, if and only if no entry for the question is skipped whose response differs from what is
in the buffer. -/
theorem missIntact_iff (cfg : Config) (env : Env) (s : State) (buffer : List UInt8) (len : ℕ) :
    (MissIntact cfg s.doms env.cacheStack buffer len env.now s.cache ∧
      ∀ d, (handleQuery cfg env s buffer len).decision = .forward d →
        (handleQuery cfg env s buffer len).msg = buffer.take len) ↔
    NoSkippedHit cfg s.doms env.cacheStack buffer len s.cache := by
  rw [← missIntact_iff_noSkippedHit cfg s.doms env.cacheStack buffer len env.now]
  refine ⟨And.left, fun hintact ↦ ⟨hintact, fun d hforward ↦ ?_⟩⟩
  have hmsg := handleQuery_forward_msg hforward
  have hlen : (cacheLookup cfg s.doms env.cacheStack buffer len env.now s.cache).len = 0 := by
    by_contra hne
    unfold handleQuery at hforward
    cases hmaster : masterLookup cfg s.db env.masterStack (buffer.take len) with
    | some packet => simp [hmaster] at hforward
    | none => simp [hmaster, Nat.pos_of_ne_zero hne] at hforward
  rw [hmsg, hintact hlen]

def deactivatedDomain : DomNode := ⟨none, [allocSrvnode, ⟨1, 900, 0, 0⟩], none, false⟩

/-- A server started with option `-i`. -/
def skippingConfig : Config := { defaultConfig with ignoreInactiveCacheHits := true }

/-- With option `-i` and the response of an inactive server in the cache, a lookup returns nothing
and leaves that response in the place of the query. -/
theorem skippedHit_overwrites :
    ¬∀ (cfg : Config) (doms : List DomNode) (stack buffer : List UInt8) (len now : ℕ)
    (cache : Cache),
      Reachable (cacheSystem cfg) (fun _ _ ↦ True) cache →
      MissIntact cfg doms stack buffer len now cache := by
  intro hclaim
  have hreach : Reachable (cacheSystem skippingConfig) (fun _ _ ↦ True) storedOnce :=
    @Reachable.step _ _ _ _ emptyCache _ (.store [] (addressReply [1, 97, 0]) ⟨0, 1⟩ 1000)
      (.start rfl) trivial (show storedOnce = cacheStep skippingConfig emptyCache _ by decide)
  have hmiss :=
    hclaim _ [deactivatedDomain] [] (addressQuery [1, 97, 0]) 19 1001 _ hreach (by decide)
  revert hmiss
  decide

/-! ### The newest answer -/

/-- The entry that `cache_dnspacket` appends. -/
def storedEntry (cfg : Config) (stack : List UInt8) (packet : Packet) (server : SrvId) (now : ℕ) :
    Option CacheEntry :=
  if cfg.cacheOnoff = false then none
  else ((parseQuery cfg.order stack packet).filter fun query ↦
    ¬(getQr query.flags = 0 ∨ query.name = [])).bind
    fun query ↦ if 0 < (parsePacket packet).ancount then
      some (createCx (parsePacket packet) query server now) else none

theorem entries_cacheDnspacket (cfg : Config) (stack : List UInt8) (packet : Packet)
    (server : SrvId) (now : ℕ) (cache : Cache) :
    (cacheDnspacket cfg stack packet server now cache).entries =
      cache.entries ++ (storedEntry cfg stack packet server now).toList := by
  unfold cacheDnspacket storedEntry
  by_cases honoff : cfg.cacheOnoff = false
  · rw [if_pos honoff, if_pos honoff]
    simp
  · rw [if_neg honoff, if_neg honoff]
    cases hparse : parseQuery cfg.order stack packet with
    | none => simp
    | some query =>
      by_cases huse : getQr query.flags = 0 ∨ query.name = []
      · have hfilter :
          (some query).filter (fun q : Rr ↦ decide ¬(getQr q.flags = 0 ∨ q.name = [])) = none := by
          simpa [Option.filter, or_iff_not_imp_left] using huse
        simp only [if_pos huse, hfilter, Option.bind_none, Option.toList_none, List.append_nil]
      · have hfilter : (some query).filter (fun q : Rr ↦
          decide ¬(getQr q.flags = 0 ∨ q.name = [])) = some query := by
          simp [Option.filter, huse]
        simp only [if_neg huse, hfilter, Option.bind_some]
        by_cases hanswers : 0 < (parsePacket packet).ancount
        · rw [if_pos hanswers, if_pos
            (show 0 < (createCx (parsePacket packet) query server now).p.ancount from hanswers)]
          rfl
        · rw [if_neg hanswers,
            if_neg (show ¬0 < (createCx (parsePacket packet) query server now).p.ancount from
              hanswers)]
          simp

def CacheEntry.untimed (cx : CacheEntry) : CacheEntry := { cx with lastused := 0, expires := 0 }

@[simp] theorem untimed_touchCx (now : ℕ) (cx : CacheEntry) :
    (touchCx now cx).untimed = cx.untimed := by
  unfold touchCx
  split_ifs <;> rfl

@[simp] theorem map_untimed_touchFirst (query : Rr) (now : ℕ) (entries : List CacheEntry) :
    (touchFirst query now entries).map CacheEntry.untimed = entries.map CacheEntry.untimed := by
  induction entries with
  | nil => rfl
  | cons cx rest ih =>
    unfold touchFirst
    split_ifs
    · simp
    · simp [ih]

theorem untimed_cacheStep {cfg : Config} {op : CacheOp} (hop : ∀ now, op ≠ .expire now)
    (cache : Cache) :
    ∃ more, (cacheStep cfg cache op).entries.map CacheEntry.untimed = cache.entries.map
      CacheEntry.untimed ++ more := by
  cases op with
  | store stack packet server now =>
    refine ⟨(storedEntry cfg stack packet server now).toList.map CacheEntry.untimed, ?_⟩
    rw [cacheStep, entries_cacheDnspacket, List.map_append]
  | expire now => exact absurd rfl (hop now)
  | lookup doms stack buffer len now =>
    refine ⟨[], ?_⟩
    rw [cacheStep, List.append_nil]
    cases hquery : cacheableQuery cfg stack (buffer.take len) with
    | none => rw [cacheLookup_uncacheable hquery]
    | some query =>
      cases hfind : cache.entries.find? (cacheMatches query) with
      | none => rw [cacheLookup_absent hquery hfind]
      | some cx =>
        rw [cacheLookup_found hquery hfind]
        exact map_untimed_touchFirst query now cache.entries

theorem untimed_foldl (cfg : Config) (ops : List CacheOp)
    (hops : ∀ op ∈ ops, ∀ now, op ≠ .expire now) :
    ∀ cache : Cache, ∃ more, (ops.foldl (cacheStep cfg) cache).entries.map CacheEntry.untimed =
      cache.entries.map CacheEntry.untimed ++ more := by
  induction ops with
  | nil => exact fun cache ↦ ⟨[], by simp⟩
  | cons op ops ih =>
    intro cache
    obtain ⟨first, hfirst⟩ := untimed_cacheStep (hops op List.mem_cons_self) cache
    obtain ⟨more, hmore⟩ :=
      ih (fun op hop ↦ hops op (List.mem_cons_of_mem _ hop)) (cacheStep cfg cache op)
    exact ⟨first ++ more, by rw [List.foldl_cons, hmore, hfirst, List.append_assoc]⟩

theorem find_foldl {cfg : Config} {ops : List CacheOp} (hops : ∀ op ∈ ops, ∀ now, op ≠ .expire now)
    {cache : Cache} {query : Rr} {cx : CacheEntry}
    (hfind : cache.entries.find? (cacheMatches query) = some cx) :
    ∃ found, (ops.foldl (cacheStep cfg) cache).entries.find? (cacheMatches query) = some found ∧
      found.untimed = cx.untimed := by
  obtain ⟨more, hmore⟩ := untimed_foldl cfg ops hops cache
  have huntimed : ∀ entries : List CacheEntry,
    (entries.map CacheEntry.untimed).find? (cacheMatches query) =
      (entries.find? (cacheMatches query)).map CacheEntry.untimed := fun entries ↦ List.find?_map
  have hsome : ((ops.foldl (cacheStep cfg) cache).entries.find? (cacheMatches query)).map
    CacheEntry.untimed =
      some cx.untimed := by
    rw [← huntimed, hmore, List.find?_append, huntimed, hfind]
    rfl
  obtain ⟨found, hfound, hsame⟩ := Option.map_eq_some_iff.mp hsome
  exact ⟨found, hfound, hsame⟩

theorem getStringcode_congr {left right : List UInt8} (h : left.map toLower = right.map toLower) :
    getStringcode left = getStringcode right := by
  have hsum : ∀ text : List UInt8,
    (text.map fun char ↦ (toLower char).toNat) = (text.map toLower).map UInt8.toNat :=
    fun text ↦ by simp
  have hlength : left.length = right.length := by simpa using congrArg List.length h
  unfold getStringcode
  rw [hsum, hsum, h, hlength]

theorem cacheMatches_iff {query : Rr} {cx : CacheEntry} (hcode : cx.code = getStringcode cx.name) :
    cacheMatches query cx = true ↔
      cx.type = query.type ∧ cx.cls = query.cls ∧ cx.name.map toLower = query.name.map toLower := by
  unfold cacheMatches strcasecmpEq
  simp only [decide_eq_true_eq]
  exact ⟨And.right, fun h ↦ ⟨hcode.trans (getStringcode_congr h.2.2), h⟩⟩

theorem overlay_injective {buffer left right : List UInt8} {offset : ℕ}
    (hlength : left.length = right.length)
    (h : overlay buffer offset left = overlay buffer offset right) : left = right := by
  unfold overlay at h
  rw [List.append_assoc, List.append_assoc] at h
  exact (List.append_inj (List.append_cancel_left h) hlength).1

theorem storedEntry_spec {cfg : Config} {stack : List UInt8} {packet : Packet} {server : SrvId}
    {now : ℕ} {cx : CacheEntry} (hstored : storedEntry cfg stack packet server now = some cx) :
    ∃ query, parseQuery cfg.order stack packet = some query ∧ getQr query.flags ≠ 0 ∧
      0 < (parsePacket packet).ancount ∧ cx = createCx (parsePacket packet) query server now := by
  unfold storedEntry at hstored
  by_cases honoff : cfg.cacheOnoff = false
  · rw [if_pos honoff] at hstored
    exact absurd hstored (by simp)
  rw [if_neg honoff] at hstored
  obtain ⟨query, hfilter, hcreate⟩ := Option.bind_eq_some_iff.mp hstored
  obtain ⟨hparse, huse⟩ := Option.filter_eq_some_iff.mp hfilter
  split_ifs at hcreate with hanswers
  exact ⟨query, hparse, fun hzero ↦ of_decide_eq_true huse (.inl hzero), hanswers,
    (Option.some.inj hcreate).symm⟩

/-- A response that was stored is the one that a lookup for its question returns, with any lookups
and stores in between, if and only if there was no entry for the question before it, or the first
one is not skipped and has the same bytes behind the identifier. -/
theorem newestAnswer_iff {cfg : Config} {stack stack' buffer : List UInt8} {packet : Packet}
    {server : SrvId} {now now' len : ℕ} {cache : Cache} {cx : CacheEntry} {ops : List CacheOp}
    {doms : List DomNode} {query : Rr} (hstored : storedEntry cfg stack packet server now = some cx)
    (hops : ∀ op ∈ ops, ∀ now, op ≠ .expire now)
    (hquery : cacheableQuery cfg stack' (buffer.take len) = some query)
    (hsame : cx.type = query.type ∧ cx.cls = query.cls ∧
      cx.name.map toLower = query.name.map toLower)
    (hactive : skipsHit cfg doms cx = false) :
    let answer := cacheLookup cfg doms stack' buffer len now'
      (ops.foldl (cacheStep cfg) (cacheDnspacket cfg stack packet server now cache))
    (answer.len = packet.length ∧ answer.buffer = overlay buffer 2 (packet.drop 2)) ↔
      ∀ older, cache.entries.find? (cacheMatches query) = some older →
        skipsHit cfg doms older = false ∧ older.p.packet.length = packet.length ∧
          older.p.packet.drop 2 = packet.drop 2 := by
  intro answer
  obtain ⟨stored, hparse, -, -, hcx⟩ := storedEntry_spec hstored
  have hmatch : cacheMatches query cx = true := (cacheMatches_iff (hcx ▸ rfl)).mpr hsame
  have hpacket : cx.p.packet = packet := hcx ▸ rfl
  have hlength : packet.length ≠ 0 := by
    obtain ⟨labels, last, -, hlast, -⟩ := parseQuery_spec hparse
    omega
  have hafter : (cacheDnspacket cfg stack packet server now cache).entries.find?
    (cacheMatches query) =
      (cache.entries.find? (cacheMatches query)).or (some cx) := by
    rw [entries_cacheDnspacket, hstored, List.find?_append]
    simp [hmatch]
  -- the first entry for the question, with the times it has by now
  have hanswer : ∀ first, (cacheDnspacket cfg stack packet server now cache).entries.find?
    (cacheMatches query) =
      some first → answer.len = (if skipsHit cfg doms first then 0 else first.p.packet.length) ∧
        answer.buffer = overlay buffer 2 (first.p.packet.drop 2) := by
    intro first hfirst
    obtain ⟨found, hfound, hsame⟩ := find_foldl hops hfirst
    have hp : found.untimed.p = first.untimed.p := congrArg CacheEntry.p hsame
    have hserver : found.untimed.server = first.untimed.server := congrArg CacheEntry.server hsame
    change found.p = first.p at hp
    change found.server = first.server at hserver
    have heq := @cacheLookup_found cfg doms stack' buffer len now' _ query found hquery hfound
    have hskip : skipsHit cfg doms found = skipsHit cfg doms first := by
      unfold skipsHit
      rw [hserver]
    rw [hskip, hp] at heq
    exact ⟨congrArg CacheAnswer.len heq, congrArg CacheAnswer.buffer heq⟩
  cases hfind : cache.entries.find? (cacheMatches query) with
  | none =>
    obtain ⟨hlen, hbuffer⟩ := hanswer cx (by rw [hafter, hfind]; rfl)
    rw [hactive, hpacket] at hlen
    rw [hpacket] at hbuffer
    simpa using ⟨hlen, hbuffer⟩
  | some older =>
    obtain ⟨hlen, hbuffer⟩ := hanswer older (by rw [hafter, hfind]; rfl)
    constructor
    · rintro ⟨hlen', hbuffer'⟩ other hother
      obtain rfl := Option.some.inj hother
      have hskip : skipsHit cfg doms older = false := by
        by_contra hskip
        rw [Bool.not_eq_false] at hskip
        rw [hlen', if_pos hskip] at hlen
        exact hlength hlen
      rw [hskip] at hlen
      have hequal : older.p.packet.length = packet.length := hlen.symm.trans hlen'
      refine ⟨hskip, hequal, overlay_injective ?_ (hbuffer.symm.trans hbuffer')⟩
      rw [List.length_drop, List.length_drop, hequal]
    · intro holder
      obtain ⟨hskip, hequal, hbytes⟩ := holder older rfl
      rw [hskip] at hlen
      exact ⟨hlen.trans hequal, by rw [hbuffer, hbytes]⟩

/-- The response for the label `a` is returned to the next query for `A`, although there is an entry
for `b` before it, `b` is looked up in between and a response for `c` is stored behind it. -/
theorem newestAnswer_single :
    (cacheLookup defaultConfig [] [] (addressQuery [1, 65, 0]) 19 1020
      ([.lookup [] [] (addressQuery [1, 98, 0]) 19 1011,
          .store [] (addressReply [1, 99, 0]) ⟨0, 1⟩ 1012].foldl (cacheStep defaultConfig)
        (cacheDnspacket defaultConfig [] (addressReply [1, 97, 0]) ⟨0, 1⟩ 1010
          (cacheStep defaultConfig emptyCache
          (.store [] (addressReply [1, 98, 0]) ⟨0, 1⟩ 1000))))).len =
      35 := by
  obtain ⟨cx, hstored⟩ :
      ∃ cx, storedEntry defaultConfig [] (addressReply [1, 97, 0]) ⟨0, 1⟩ 1010 = some cx :=
    Option.isSome_iff_exists.mp (by decide)
  obtain ⟨query, hquery⟩ :
      ∃ query, cacheableQuery defaultConfig [] ((addressQuery [1, 65, 0]).take 19) = some query :=
    Option.isSome_iff_exists.mp (by decide)
  have hsame : (storedEntry defaultConfig [] (addressReply [1, 97, 0]) ⟨0, 1⟩ 1010).map
      (fun cx ↦ (cx.type, cx.cls, cx.name.map toLower)) =
      (cacheableQuery defaultConfig [] ((addressQuery [1, 65, 0]).take 19)).map
        fun query ↦ (query.type, query.cls, query.name.map toLower) := by decide
  have hnone : (cacheableQuery defaultConfig [] ((addressQuery [1, 65, 0]).take 19)).map
    (fun query ↦
      ((cacheStep defaultConfig emptyCache
        (.store [] (addressReply [1, 98, 0]) ⟨0, 1⟩ 1000)).entries.find?
        (cacheMatches query)).isNone) = some true := by decide
  rw [hstored, hquery] at hsame
  rw [hquery] at hnone
  simp only [Option.map_some, Option.some.injEq, Prod.mk.injEq] at hsame
  have hfirst := Option.isNone_iff_eq_none.mp (Option.some.inj hnone)
  refine ((newestAnswer_iff hstored (fun op hmem now ↦ ?_) hquery hsame rfl).mpr ?_).1
  · rintro rfl
    simp at hmem
  · intro older holder
    rw [hfirst] at holder
    cases holder

/-- Another response for the label `a`. -/
def newerReply : Packet := (addressReply [1, 97, 0]).dropLast ++ [2]

/-- A query for `a` behind two responses is answered with the first of them. -/
theorem olderAnswer_wins :
    ¬∀ (cfg : Config) (stack stack' buffer : List UInt8) (packet : Packet) (server : SrvId)
    (now now' len : ℕ)
      (cache : Cache) (cx : CacheEntry) (doms : List DomNode) (query : Rr),
      Reachable (cacheSystem cfg) (fun _ _ ↦ True) cache →
      storedEntry cfg stack packet server now = some cx →
      cacheableQuery cfg stack' (buffer.take len) = some query →
      (cx.type = query.type ∧ cx.cls = query.cls ∧ cx.name.map toLower = query.name.map toLower) →
      skipsHit cfg doms cx = false →
      (cacheLookup cfg doms stack' buffer len now'
      (cacheDnspacket cfg stack packet server now cache)).buffer =
        overlay buffer 2 (packet.drop 2) := by
  intro hclaim
  obtain ⟨cx, hstored⟩ : ∃ cx, storedEntry defaultConfig [] newerReply ⟨0, 1⟩ 1010 = some cx :=
    Option.isSome_iff_exists.mp (by decide)
  obtain ⟨query, hquery⟩ :
    ∃ query, cacheableQuery defaultConfig [] ((addressQuery [1, 97, 0]).take 19) = some query :=
    Option.isSome_iff_exists.mp (by decide)
  have hsame : (storedEntry defaultConfig [] newerReply ⟨0, 1⟩ 1010).map
      (fun cx ↦ (cx.type, cx.cls, cx.name.map toLower)) =
      (cacheableQuery defaultConfig [] ((addressQuery [1, 97, 0]).take 19)).map
        fun query ↦ (query.type, query.cls, query.name.map toLower) := by decide
  rw [hstored, hquery] at hsame
  simp only [Option.map_some, Option.some.injEq, Prod.mk.injEq] at hsame
  have hreach : Reachable (cacheSystem defaultConfig) (fun _ _ ↦ True) storedOnce :=
    .step (.start rfl) trivial rfl
  have hbuffer := hclaim defaultConfig [] [] (addressQuery [1, 97, 0]) newerReply ⟨0, 1⟩ 1010 1020
    19 storedOnce cx [] query hreach hstored hquery hsame rfl
  revert hbuffer
  decide

end CrossBreeder.Dnrd
