import CrossBreeder.Dnrd.CacheAnswers
import CrossBreeder.Foundation.SortedRemoval

/-!
# The times of the cache

The cache along runs with a clock that does not go back. An entry expires an hour after it was last
used, and a sweep of `cache_expire` leaves no entry that is out of date (`timesInv_of_reachable`).
Lookups look at no time: an entry whose deadline falls between the last sweep and a lookup is still
returned (`freshLookup_iff`, `staleAnswer_returned`). Above the high-water mark the comparison of
`expire_oldest` puts the entries that were used last first, and these are removed
(`keepsRecent_iff`, `recentEntry_removed`).
-/

namespace CrossBreeder.Dnrd

open Foundation

/-! ### Runs with a clock -/

/-- The time of an operation. -/
def CacheOp.now : CacheOp → ℕ
  | .store _ _ _ now => now
  | .expire now => now
  | .lookup _ _ _ _ now => now

structure TimedCache where
  clock : ℕ
  swept : ℕ
  cache : Cache

/-- A call of `cache_expire` goes over the list: caching is on, and the last run is long enough ago.
-/
def sweeps (cfg : Config) (now : ℕ) (cache : Cache) : Prop :=
  cfg.cacheOnoff ≠ false ∧
    ¬((now : ℤ) - (if cache.lastexpire = 0 then now else cache.lastexpire : ℕ) < cacheMincycle)

instance (cfg : Config) (now : ℕ) (cache : Cache) : Decidable (sweeps cfg now cache) :=
  inferInstanceAs (Decidable (_ ∧ _))

/-- One operation at its time. -/
def TimedCache.next (cfg : Config) (s : TimedCache) (op : CacheOp) : TimedCache where
  clock := op.now
  swept := match op with
    | .expire now => if sweeps cfg now s.cache then now else s.swept
    | _ => s.swept
  cache := cacheStep cfg s.cache op

def timedSystem (cfg : Config) : System TimedCache CacheOp where
  initial := fun s ↦ s.swept = 0 ∧ s.cache = emptyCache
  step := fun s op next ↦ s.clock ≤ op.now ∧ next = s.next cfg op

def TimedReachable (cfg : Config) (s : TimedCache) :
    Prop := Reachable (timedSystem cfg) (fun _ _ ↦ True) s

/-! ### The times of an entry -/

/-- The hour since an entry was last used, or the six hours since it was stored, run out. -/
def CacheEntry.deadline (cx : CacheEntry) :
    ℕ := min (cx.lastused + cacheTime) (cx.created + cacheMaxtime)

structure EntryTimes (clock swept : ℕ) (cx : CacheEntry) : Prop where
  created : cx.created ≤ cx.lastused
  lastused : cx.lastused ≤ clock
  expires : cx.expires = cx.lastused + cacheTime
  deadline : swept ≤ cx.deadline

structure TimesInv (s : TimedCache) : Prop where
  swept : s.swept ≤ s.clock
  entries : ∀ cx ∈ s.cache.entries, EntryTimes s.clock s.swept cx

variable {entries : List CacheEntry}

section Steps

variable {cfg : Config} {clock swept now : ℕ} {cx : CacheEntry}

theorem EntryTimes.later (h : EntryTimes clock swept cx) (hnow : clock ≤ now) :
    EntryTimes now swept cx :=
  { h with lastused := h.lastused.trans hnow }

theorem EntryTimes.touchCx (h : EntryTimes clock swept cx) (hnow : clock ≤ now) :
    EntryTimes now swept (touchCx now cx) := by
  unfold Dnrd.touchCx
  split_ifs
  · have hlastused := h.lastused
    have hcreated := h.created
    have hdeadline := h.deadline
    unfold CacheEntry.deadline at hdeadline
    refine ⟨by dsimp only; omega, le_rfl, rfl, ?_⟩
    unfold CacheEntry.deadline
    dsimp only
    omega
  · exact h.later hnow

theorem entryTimes_storedEntry {stack : List UInt8} {packet : Packet} {server : SrvId}
    (hstored : storedEntry cfg stack packet server now = some cx) (hswept : swept ≤ now) :
    EntryTimes now swept cx := by
  obtain ⟨query, -, -, hanswers, rfl⟩ := storedEntry_spec hstored
  refine ⟨le_rfl, le_rfl, ?_, ?_⟩
  · simp only [createCx, if_pos hanswers]
  · simp only [CacheEntry.deadline, createCx]
    omega

theorem deadline_of_not_expired (hexpired : expired now cx = false) (hcreated : cx.created ≤ now)
    (hexpires : cx.expires = cx.lastused + cacheTime) : now ≤ cx.deadline := by
  unfold expired ulongSub at hexpired
  rw [if_pos hcreated] at hexpired
  simp only [decide_eq_false_iff_not, not_or, not_lt] at hexpired
  unfold CacheEntry.deadline
  omega

theorem mem_touchFirst {query : Rr} (hmem : cx ∈ touchFirst query now entries) :
    cx ∈ entries ∨ ∃ old ∈ entries, cx = touchCx now old := by
  induction entries with
  | nil => exact absurd hmem (by simp [touchFirst])
  | cons first rest ih =>
    unfold touchFirst at hmem
    split_ifs at hmem
    · rcases List.mem_cons.mp hmem with rfl | hrest
      · exact .inr ⟨first, List.mem_cons_self, rfl⟩
      · exact .inl (List.mem_cons_of_mem _ hrest)
    · rcases List.mem_cons.mp hmem with rfl | hrest
      · exact .inl List.mem_cons_self
      · rcases ih hrest with hold | ⟨old, hold, rfl⟩
        · exact .inl (List.mem_cons_of_mem _ hold)
        · exact .inr ⟨old, List.mem_cons_of_mem _ hold, rfl⟩

end Steps

def unexpired (now : ℕ) (cache : Cache) : List CacheEntry :=
  cache.entries.filter fun cx ↦ !expired now cx

variable {cfg : Config}

variable {now : ℕ}

theorem entries_cacheExpire {cache : Cache} (hsweeps : sweeps cfg now cache) :
    (cacheExpire cfg now cache).entries =
      if cfg.cacheHighwater < (unexpired now cache).length then
      expireOldest cfg (unexpired now cache)
      else unexpired now cache := by
  unfold cacheExpire
  rw [if_neg hsweeps.1, if_neg hsweeps.2]
  rfl

theorem entries_cacheExpire_of_not_sweeps {cache : Cache} (hsweeps : ¬sweeps cfg now cache) :
    (cacheExpire cfg now cache).entries = cache.entries := by
  unfold cacheExpire
  by_cases honoff : cfg.cacheOnoff = false
  · rw [if_pos honoff]
  · have hearly := not_not.mp (not_and.mp hsweeps honoff)
    rw [if_neg honoff, if_pos hearly]

theorem mem_unexpired_of_sweeps {cache : Cache} (hsweeps : sweeps cfg now cache)
    {cx : CacheEntry} (hmem : cx ∈ (cacheExpire cfg now cache).entries) :
    cx ∈ unexpired now cache := by
  rw [entries_cacheExpire hsweeps] at hmem
  split_ifs at hmem
  · exact mem_of_mem_expireOldest hmem
  · exact hmem

theorem TimesInv.next {s : TimedCache} (h : TimesInv s) {op : CacheOp} (hnow : s.clock ≤ op.now) :
    TimesInv (s.next cfg op) := by
  cases op with
  | store stack packet server now =>
    change s.clock ≤ now at hnow
    refine ⟨h.swept.trans hnow, fun cx hmem ↦ ?_⟩
    change cx ∈ (cacheDnspacket cfg stack packet server now s.cache).entries at hmem
    rw [entries_cacheDnspacket] at hmem
    rcases List.mem_append.mp hmem with hold | hnew
    · exact (h.entries cx hold).later hnow
    · exact entryTimes_storedEntry (Option.mem_toList.mp hnew) (h.swept.trans hnow)
  | expire now =>
    change s.clock ≤ now at hnow
    by_cases hsweeps : sweeps cfg now s.cache
    · have hswept : (s.next cfg (.expire now)).swept = now := if_pos hsweeps
      refine ⟨hswept.le, fun cx hmem ↦ ?_⟩
      obtain ⟨hold, hexpired⟩ := List.mem_filter.mp (mem_unexpired_of_sweeps hsweeps hmem)
      have htimes := (h.entries cx hold).later hnow
      rw [hswept]
      exact { htimes with
        deadline :=
          deadline_of_not_expired (by simpa using hexpired) (htimes.created.trans htimes.lastused)
          htimes.expires }
    · have hswept : (s.next cfg (.expire now)).swept = s.swept := if_neg hsweeps
      refine ⟨hswept.le.trans (h.swept.trans hnow), fun cx hmem ↦ ?_⟩
      change cx ∈ (cacheExpire cfg now s.cache).entries at hmem
      rw [entries_cacheExpire_of_not_sweeps hsweeps] at hmem
      rw [hswept]
      exact (h.entries cx hmem).later hnow
  | lookup doms stack buffer len now =>
    change s.clock ≤ now at hnow
    refine ⟨h.swept.trans hnow, fun cx hmem ↦ ?_⟩
    change cx ∈ (cacheLookup cfg doms stack buffer len now s.cache).cache.entries at hmem
    have hold : cx ∈ s.cache.entries ∨ ∃ old ∈ s.cache.entries, cx = touchCx now old := by
      cases hquery : cacheableQuery cfg stack (buffer.take len) with
      | none =>
        rw [cacheLookup_uncacheable hquery] at hmem
        exact .inl hmem
      | some query =>
        cases hfind : s.cache.entries.find? (cacheMatches query) with
        | none =>
          rw [cacheLookup_absent hquery hfind] at hmem
          exact .inl hmem
        | some found =>
          rw [cacheLookup_found hquery hfind] at hmem
          exact mem_touchFirst hmem
    rcases hold with hold | ⟨old, hold, rfl⟩
    · exact (h.entries cx hold).later hnow
    · exact (h.entries old hold).touchCx hnow

theorem timesInv_of_reachable {s : TimedCache} (hreach : TimedReachable cfg s) : TimesInv s := by
  refine hreach.invariant TimesInv (fun s hinitial ↦ ?_) fun s op next _ hinv _ hstep ↦ ?_
  · obtain ⟨hswept, hcache⟩ := hinitial
    refine ⟨by omega, fun cx hmem ↦ ?_⟩
    rw [hcache] at hmem
    exact absurd hmem (by simp [emptyCache])
  · obtain ⟨hnow, rfl⟩ := hstep
    exact hinv.next hnow

/-! ### Answers that are out of date -/

def returnedEntry (cfg : Config) (doms : List DomNode) (stack buffer : List UInt8) (len : ℕ)
    (cache : Cache) : Option CacheEntry :=
  (cacheableQuery cfg stack (buffer.take len)).bind fun query ↦
    (cache.entries.find? (cacheMatches query)).filter fun cx ↦ !skipsHit cfg doms cx

/-- What a lookup at a time returns is not out of date: its expiry is not over, and it is at most
six hours old. -/
def FreshLookup (cfg : Config) (doms : List DomNode) (stack buffer : List UInt8) (len now : ℕ)
    (cache : Cache) : Prop :=
  ∀ cx, returnedEntry cfg doms stack buffer len cache = some cx →
    now ≤ cx.expires ∧ now - cx.created ≤ cacheMaxtime

/-- Along every run, a lookup returns nothing that is out of date if and only if the deadline of the
entry does not lie between the last sweep and the lookup. -/
theorem freshLookup_iff {cfg : Config} {s : TimedCache} (hreach : TimedReachable cfg s)
    {doms : List DomNode} {stack buffer : List UInt8} {len now : ℕ} :
    FreshLookup cfg doms stack buffer len now s.cache ↔
      ∀ cx, returnedEntry cfg doms stack buffer len s.cache = some cx →
      ¬(s.swept ≤ cx.deadline ∧ cx.deadline < now) := by
  have hinv := timesInv_of_reachable hreach
  refine forall_congr' fun cx ↦ forall_congr' fun hreturned ↦ ?_
  have hmem : cx ∈ s.cache.entries := by
    obtain ⟨query, -, hfilter⟩ := Option.bind_eq_some_iff.mp hreturned
    exact List.mem_of_find?_eq_some (Option.filter_eq_some_iff.mp hfilter).1
  have htimes := hinv.entries cx hmem
  have hexpires := htimes.expires
  have hdeadline := htimes.deadline
  unfold CacheEntry.deadline at hdeadline ⊢
  omega

/-- The first call of `cache_expire` only notes its time. Then a response for the label `a` is
stored. -/
def storedAt1100 : TimedCache :=
  ((⟨0, 0, emptyCache⟩ : TimedCache).next defaultConfig (.expire 1000)).next defaultConfig
    (.store [] (addressReply [1, 97, 0]) ⟨0, 1⟩ 1100)

theorem storedAt1100_reachable : TimedReachable defaultConfig storedAt1100 :=
  .step (.step (.start ⟨rfl, rfl⟩) trivial ⟨Nat.zero_le _, rfl⟩) trivial ⟨by decide, rfl⟩

/-- A query for `a` half an hour later gets an answer that is not out of date. -/
theorem freshLookup_half_hour :
    (cacheLookup defaultConfig [] [] (addressQuery [1, 97, 0]) 19 2900 storedAt1100.cache).len =
      35 ∧
      FreshLookup defaultConfig [] [] (addressQuery [1, 97, 0]) 19 2900 storedAt1100.cache := by
  refine ⟨by decide, (freshLookup_iff storedAt1100_reachable).mpr fun cx hcx ↦ ?_⟩
  have hdeadline :
    (returnedEntry defaultConfig [] [] (addressQuery [1, 97, 0]) 19 storedAt1100.cache).map
      CacheEntry.deadline = some 4700 := by decide
  rw [hcx] at hdeadline
  have hcx : cx.deadline = 4700 := Option.some.inj hdeadline
  omega

/-- The response for `a` is there until 4700. A sweep at 4600 leaves it, the next call of
`cache_expire` comes too early, and a query at 4750 gets it. -/
theorem staleAnswer_returned :
    ¬∀ (cfg : Config) (s : TimedCache), TimedReachable cfg s → ∀ (doms : List DomNode)
    (stack buffer : List UInt8)
      (len now : ℕ), s.clock ≤ now → FreshLookup cfg doms stack buffer len now s.cache := by
  intro hclaim
  have hreach : TimedReachable defaultConfig
      ((storedAt1100.next defaultConfig (.expire 4600)).next defaultConfig (.expire 4750)) :=
    .step (.step storedAt1100_reachable trivial ⟨by decide, rfl⟩) trivial ⟨by decide, rfl⟩
  have hreturned : (returnedEntry defaultConfig [] [] (addressQuery [1, 97, 0]) 19
      ((storedAt1100.next defaultConfig (.expire 4600)).next defaultConfig
        (.expire 4750)).cache).map CacheEntry.expires = some 4700 := by decide
  obtain ⟨cx, hcx, hexpires⟩ := Option.map_eq_some_iff.mp hreturned
  have hfresh :=
    (hclaim defaultConfig _ hreach [] [] (addressQuery [1, 97, 0]) 19 4750 (by decide) cx hcx).1
  omega

/-! ### The entries that are removed above the high-water mark -/

def WaterMarks (cfg : Config) :
    Prop := 0 ≤ cfg.cacheLowwater ∧ cfg.cacheLowwater ≤ cfg.cacheHighwater

instance (cfg : Config) : Decidable (WaterMarks cfg) := inferInstanceAs (Decidable (_ ∧ _))

/-- The low-water mark is kept, and what is left was used no earlier than what was removed. -/
def KeepsRecent (cfg : Config) (before after : List CacheEntry) : Prop :=
  (after.length : ℤ) = cfg.cacheLowwater ∧ ∃ removed, (after ++ removed).Perm before ∧
    ∀ kept ∈ after, ∀ gone ∈ removed, gone.lastused ≤ kept.lastused

theorem cmpCachemru_nonpos {cx cy : CacheEntry} (hcx : cx.lastused < cy.lastused + 2 ^ 31)
    (hcy : cy.lastused < cx.lastused + 2 ^ 31) :
    cmpCachemru cx cy ≤ 0 ↔ cy.lastused ≤ cx.lastused := by
  unfold cmpCachemru narrowInt ulongSub
  rw [Int.bmod_def]
  split_ifs <;> omega

theorem TimesInv.lastused_unexpired {s : TimedCache} (h : TimesInv s) (hnow : s.clock ≤ now)
    {cx : CacheEntry} (hmem : cx ∈ unexpired now s.cache) :
    cx.lastused ≤ now ∧ now ≤ cx.lastused + cacheTime := by
  obtain ⟨hold, hexpired⟩ := List.mem_filter.mp hmem
  have htimes := (h.entries cx hold).later hnow
  have hdeadline : now ≤ cx.deadline := deadline_of_not_expired (by simpa using hexpired)
    (htimes.created.trans htimes.lastused) htimes.expires
  unfold CacheEntry.deadline at hdeadline
  exact ⟨htimes.lastused, by omega⟩

theorem expireOldest_spec (hlow : 0 ≤ cfg.cacheLowwater)
    (hlength : cfg.cacheLowwater ≤ entries.length)
    (htimes : ∀ cx ∈ entries, cx.lastused ≤ now ∧ now ≤ cx.lastused + cacheTime) :
    ∃ removed, (expireOldest cfg entries ++ removed).Perm entries ∧
      ((expireOldest cfg entries).length : ℤ) = cfg.cacheLowwater ∧
      ∀ kept ∈ expireOldest cfg entries, ∀ gone ∈ removed, kept.lastused ≤ gone.lastused := by
  obtain ⟨removed, hperm, hkept, hranks⟩ :=
    @removeFirst_spec _ (fun cx cy ↦ decide (cmpCachemru cx cy ≤ 0))
    CacheEntry.lastused ((entries.length : ℤ) - cfg.cacheLowwater).toNat entries (by
      intro cx hcx cy hcy
      have hx := htimes cx hcx
      have hy := htimes cy hcy
      unfold cacheTime at hx hy
      exact decide_eq_decide.mpr (cmpCachemru_nonpos (by omega) (by omega)))
  refine ⟨removed, hperm, ?_, hranks⟩
  change ((removeFirst (fun cx cy ↦ decide (cmpCachemru cx cy ≤ 0))
    ((entries.length : ℤ) - cfg.cacheLowwater).toNat entries).length : ℤ) = cfg.cacheLowwater
  rw [hkept]
  omega

theorem lastused_eq_of_keepsRecent (hlow : 0 < cfg.cacheLowwater)
    (hlength : cfg.cacheLowwater < entries.length)
    (htimes : ∀ cx ∈ entries, cx.lastused ≤ now ∧ now ≤ cx.lastused + cacheTime)
    (hkeeps : KeepsRecent cfg entries (expireOldest cfg entries)) :
    ∀ cx ∈ entries, ∀ cy ∈ entries, cx.lastused = cy.lastused := by
  have hnonneg : 0 ≤ cfg.cacheLowwater := by omega
  obtain ⟨removed, hperm, hkept, hranks⟩ := expireOldest_spec hnonneg (by omega) htimes
  obtain ⟨-, gone, hgone, hrecent⟩ := hkeeps
  have hsame : gone.Perm removed := (List.perm_append_left_iff _).mp (hgone.trans hperm.symm)
  have hequal : ∀ kept ∈ expireOldest cfg entries, ∀ cx ∈ removed, kept.lastused = cx.lastused :=
    fun kept hin cx hcx ↦
    le_antisymm (hranks kept hin cx hcx) (hrecent kept hin cx (hsame.mem_iff.mpr hcx))
  -- there is an entry on each side, and every other one is compared with the one across
  obtain ⟨one, hone⟩ : ∃ one, one ∈ expireOldest cfg entries :=
    List.exists_mem_of_length_pos (by omega)
  obtain ⟨other, hother⟩ : ∃ other, other ∈ removed := by
    have hsum := hperm.length_eq
    rw [List.length_append] at hsum
    exact List.exists_mem_of_length_pos (by omega)
  have hall : ∀ cx ∈ entries, cx.lastused = one.lastused := by
    intro cx hcx
    rcases List.mem_append.mp (hperm.mem_iff.mpr hcx) with hin | hout
    · rw [hequal cx hin other hother, hequal one hone other hother]
    · exact (hequal one hone cx hout).symm
  exact fun cx hcx cy hcy ↦ (hall cx hcx).trans (hall cy hcy).symm

/-- Along every run, a sweep that finds more entries than the high-water mark keeps the ones that
were used last if and only if it keeps none, or all of them were last used at the same time. -/
theorem keepsRecent_iff {cfg : Config} (hmarks : WaterMarks cfg) {s : TimedCache}
    (hreach : TimedReachable cfg s) {now : ℕ} (hnow : s.clock ≤ now)
    (hsweeps : sweeps cfg now s.cache)
    (habove : cfg.cacheHighwater < (unexpired now s.cache).length) :
    KeepsRecent cfg (unexpired now s.cache) (cacheExpire cfg now s.cache).entries ↔
      cfg.cacheLowwater = 0 ∨
        ∀ cx ∈ unexpired now s.cache, ∀ cy ∈ unexpired now s.cache, cx.lastused = cy.lastused := by
  obtain ⟨hlow, hhigh⟩ := hmarks
  have htimes := fun cx (hcx : cx ∈ unexpired now s.cache) ↦
    (timesInv_of_reachable hreach).lastused_unexpired hnow hcx
  rw [entries_cacheExpire hsweeps, if_pos habove]
  constructor
  · intro hkeeps
    by_cases hzero : cfg.cacheLowwater = 0
    · exact .inl hzero
    · exact .inr (lastused_eq_of_keepsRecent (by omega) (by omega) htimes hkeeps)
  · intro hcond
    obtain ⟨removed, hperm, hkept, -⟩ := expireOldest_spec hlow (by omega) htimes
    refine ⟨hkept, removed, hperm, fun kept hin gone hgone ↦ ?_⟩
    rcases hcond with hzero | hequal
    · have hempty : expireOldest cfg (unexpired now s.cache) = [] :=
        List.eq_nil_of_length_eq_zero (by omega)
      rw [hempty] at hin
      exact absurd hin (by simp)
    · exact (hequal _ (hperm.mem_iff.mp (List.mem_append_right _ hgone)) _
        (hperm.mem_iff.mp (List.mem_append_left _ hin))).le

/-- `-c 1:1`. -/
def smallConfig : Config := { defaultConfig with cacheLowwater := 1, cacheHighwater := 1 }

/-- Responses for `a` and `b`, stored at 1100 and at another time. -/
def twoStored (second : ℕ) : TimedCache :=
  (((⟨0, 0, emptyCache⟩ : TimedCache).next smallConfig (.expire 1000)).next smallConfig
    (.store [] (addressReply [1, 97, 0]) ⟨0, 1⟩ 1100)).next smallConfig
      (.store [] (addressReply [1, 98, 0]) ⟨0, 1⟩ second)

theorem twoStored_reachable {second : ℕ} (hsecond : 1100 ≤ second) :
    TimedReachable smallConfig (twoStored second) :=
  have hfirst : TimedReachable smallConfig
    (((⟨0, 0, emptyCache⟩ : TimedCache).next smallConfig (.expire 1000)).next
      smallConfig (.store [] (addressReply [1, 97, 0]) ⟨0, 1⟩ 1100)) :=
    .step (.step (.start ⟨rfl, rfl⟩) trivial ⟨Nat.zero_le _, rfl⟩) trivial ⟨by decide, rfl⟩
  @Reachable.step _ _ _ _ _ _ (.store [] (addressReply [1, 98, 0]) ⟨0, 1⟩ second) hfirst trivial
    ⟨hsecond, rfl⟩

/-- Of two entries from one second either may stay. -/
theorem keepsRecent_same_time :
    KeepsRecent smallConfig (unexpired 1400 (twoStored 1100).cache)
      (cacheExpire smallConfig 1400 (twoStored 1100).cache).entries := by
  refine (keepsRecent_iff
    (by decide) (twoStored_reachable (by decide)) (by decide) (by decide) (by decide)).mpr (.inr ?_)
  decide

/-- Of an entry stored at 1100 and one stored at 1200 the second one is removed. -/
theorem recentEntry_removed :
    ¬∀ (cfg : Config) (s : TimedCache) (now : ℕ), WaterMarks cfg → TimedReachable cfg s →
      s.clock ≤ now → sweeps cfg now s.cache → cfg.cacheHighwater < (unexpired now s.cache).length →
      KeepsRecent cfg (unexpired now s.cache) (cacheExpire cfg now s.cache).entries := by
  intro hclaim
  have hreach : TimedReachable smallConfig (twoStored 1200) := twoStored_reachable (by decide)
  have hkeeps :=
    hclaim smallConfig (twoStored 1200) 1400 (by decide) hreach (by decide) (by decide) (by decide)
  rw [entries_cacheExpire (by decide), if_pos (by decide)] at hkeeps
  have hequal := lastused_eq_of_keepsRecent (by decide) (by decide)
    (fun cx hcx ↦ (timesInv_of_reachable hreach).lastused_unexpired (by decide) hcx) hkeeps
  revert hequal
  decide

end CrossBreeder.Dnrd
