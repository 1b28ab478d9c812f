import CrossBreeder.Dnsmasq.CnameLinks
import CrossBreeder.Foundation.Transition

/-!
# Calls of the cache

The calls that the rest of dnsmasq makes, in any order: `Sound` is what every call keeps: the shape
of the cache, with nothing in hand, and the links of CNAMEs.

`wellFormed_of_reachable` says for every sequence of calls what the lists and the hash table look
like afterwards, and `cname_of_reachable` that a CNAME in the table that is not outdated leads to
the use of the record that it was linked to.
-/

namespace CrossBreeder.Dnsmasq

open Foundation

/-! ### The calls -/

/-- The cache and the CNAME that the next record of the batch is linked to. `batch` and `failed` are
not in the source: they are the records that were inserted since `cache_start_insert`, the last one
first, and whether an insertion has failed since then. -/
structure Session where
  cache : Cache
  cpp : Option Addr
  batch : List Addr
  failed : Bool

/-- `if (cpp)` the CNAME is linked. -/
def linkFrom (s : Cache) (cpp : Option Addr) (newc : Addr) : Cache :=
  cpp.elim s fun cpp ↦ linkCname s cpp newc

/-- `cache_insert`. -/
def Session.insert (env : Env) (session : Session) (name addr : Option (List UInt8))
    (now : ℤ) (ttl : ℕ) (flags : Flags) : Session × Option Addr :=
  match cacheInsert env session.cache name addr now ttl flags with
  | (s, none) => ({ session with cache := s, failed := true }, none)
  | (s, some newc) => ({ session with cache := s, batch := newc :: session.batch }, some newc)

/-- A CNAME of a reply is inserted and linked, and is the one to link next. -/
def Session.insertCname (env : Env) (session : Session) (name : List UInt8) (now : ℤ) (ttl : ℕ) :
    Session :=
  match session.insert env (some name) none now ttl {.cname, .forward} with
  | (session, none) => { session with cpp := none }
  | (session, some newc) => { session with
      cache := linkFrom (session.cache.modify newc fun crec ↦ { crec with cnameCache := none })
        session.cpp newc
      cpp := some newc }

/-- A record at the end of a chain of CNAMEs is inserted and linked. -/
def Session.insertTarget (env : Env) (session : Session) (name addr : Option (List UInt8)) (now : ℤ)
    (ttl : ℕ) (flags : Flags) : Session :=
  match session.insert env name addr now ttl flags with
  | (session, none) => { session with cpp := none }
  | (session, some newc) =>
    { session with cache := linkFrom session.cache session.cpp newc, cpp := none }

def entryFlags : Flags := {.forward, .reverse, .ipv4, .ipv6, .neg, .nxdomain, .config}

/-- A call, or what `extract_addresses` does with the record that a call returns. -/
inductive Call
  | startInsert
  | insertCname (name : List UInt8) (now : ℤ) (ttl : ℕ)
  | insertTarget (name addr : Option (List UInt8)) (now : ℤ) (ttl : ℕ) (flags : Flags)
  | insertReverse (name addr : Option (List UInt8)) (now : ℤ) (ttl : ℕ) (flags : Flags)
  | nextQuestion
  | endInsert
  | findByName (crecp : Option Addr) (name : List UInt8) (now : ℤ) (prot : Flags)
  | findByAddr (crecp : Option Addr) (addr : List UInt8) (now : ℤ) (prot : Flags)
  | reload (input : ReloadInput)
  | unhashDhcp
  | addDhcpEntry (hostName : List UInt8) (v6 : Bool) (addr : List UInt8) (ttd : ℤ)

/-- The flags that `cache_insert` is called with: those of a record of a reply, in use. -/
def Call.Proper : Call → Prop
  | .insertTarget _ _ _ _ flags => flags ⊆ entryFlags ∧ InUse flags
  | .insertReverse _ _ _ _ flags => flags ⊆ entryFlags ∧ InUse flags
  | _ => True

def Session.call (env : Env) (session : Session) : Call → Session
  | .startInsert => ⟨cacheStartInsert session.cache, none, [], false⟩
  | .insertCname name now ttl => session.insertCname env name now ttl
  | .insertTarget name addr now ttl flags => session.insertTarget env name addr now ttl flags
  | .insertReverse name addr now ttl flags => (session.insert env name addr now ttl flags).1
  | .nextQuestion => { session with cpp := none }
  | .endInsert => { session with cache := cacheEndInsert env session.cache, cpp := none }
  | .findByName crecp name now prot =>
    { session with cache := (cacheFindByName env session.cache crecp name now prot).1 }
  | .findByAddr crecp addr now prot =>
    { session with cache := (cacheFindByAddr session.cache crecp addr now prot).1 }
  | .reload input => { session with cache := cacheReload env session.cache input }
  | .unhashDhcp => { session with cache := cacheUnhashDhcp session.cache }
  | .addDhcpEntry hostName v6 addr ttd =>
    { session with cache := cacheAddDhcpEntry env session.cache hostName v6 addr ttd }

/-- The calls after `cache_init`, in any order. -/
def cacheSystem (env : Env) : System Session Call where
  initial session := ∃ memory, session = ⟨cacheInit env memory, none, [], false⟩
  step session call next := next = session.call env call

/-- The states after sequences of calls as the program makes them. -/
def CacheReachable (env : Env) (session : Session) : Prop :=
  Reachable (cacheSystem env) (fun _ call ↦ call.Proper) session

variable {env : Env}

/-! ### What every call keeps -/

structure Sound (env : Env) (s : Cache) (cpp : Option Addr) (g : Ghost) : Prop where
  shape : Shape env s g
  settled : Settled env g
  cppFresh : ∀ crecp, cpp = some crecp → crecp ∈ g.fresh
  links : Links env s g

theorem Settled.of_frame {g g' : Ghost} (h : Settled env g) (hframe : LocalFrame env g g') :
    Settled env g' where
  loose := hframe.loose.trans h.loose
  unhashed := fun crecp hmem ↦ (hframe.unhashed crecp hmem).elim (h.unhashed crecp) id
  held := hframe.held.trans h.held

variable {cpp : Option Addr}

theorem Sound.of_adds {s s' : Cache} {g : Ghost} (h : Sound env s cpp g)
    (hadds : Adds env s s') : ∃ g', Sound env s' cpp g' := by
  obtain ⟨g', hsteps, hframe⟩ := hadds g h.shape h.settled.loose
  refine ⟨g', h.shape.steps hsteps, h.settled.of_frame hframe, fun crecp hcpp ↦ ?_,
    h.links.of_local hsteps h.shape⟩
  rw [hframe.fresh]
  exact h.cppFresh crecp hcpp

/-! ### The first state -/

/-- The lists after `cache_init`. -/
def firstGhost (env : Env) : Ghost where
  lru := (List.range env.cachesize).reverse
  fresh := []
  spare := []
  chain := fun _ ↦ []
  loose := []
  unhashed := []
  held := []

/-- The loop of `cache_init` after some records. -/
structure Initialised (env : Env) (count : ℕ) (s : Cache) : Prop where
  lru : DoublyLinked s.next s.prev s.cacheHead s.cacheTail (List.range count).reverse
  flags : ∀ crecp < count, s.flags crecp = ∅
  uid : ∀ crecp < count, (s.crec crecp).uid < s.uid
  live : s.live = Finset.range env.cachesize
  newChain : s.newChain = none
  dhcpSpare : s.dhcpSpare = none

variable {s : Cache}

theorem Initialised.next {count : ℕ} (h : Initialised env count s) :
    Initialised env (count + 1)
      { (cacheLink s count).modify count fun crec ↦
      { crec with flags := ∅, uid := (cacheLink s count).uid }
        with uid := (cacheLink s count).uid + 1 } := by
  refine ⟨?_, ?_, ?_, h.live, h.newChain, h.dhcpSpare⟩
  · rw [List.range_succ, List.reverse_append, List.reverse_singleton, List.singleton_append]
    exact h.lru.push (by simp)
  · intro crecp hlt
    unfold Cache.flags Cache.modify
    dsimp only
    by_cases heq : crecp = count
    · rw [heq, Function.update_self]
    · rw [Function.update_of_ne heq]
      exact h.flags crecp (by omega)
  · intro crecp hlt
    unfold Cache.modify
    dsimp only
    by_cases heq : crecp = count
    · rw [heq, Function.update_self]
      exact Nat.lt_succ_self _
    · rw [Function.update_of_ne heq]
      exact Nat.lt_succ_of_lt (h.uid crecp (by omega))

theorem initialised_foldl (h : Initialised env 0 s) (count : ℕ) :
    Initialised env count ((List.range count).foldl
      (fun s crecp ↦
        let s := cacheLink s crecp
        { s.modify crecp fun crec ↦ { crec with flags := ∅, uid := s.uid } with uid := s.uid + 1 })
          s) := by
  induction count with
  | zero => exact h
  | succ count ih =>
    rw [List.range_succ, List.foldl_append, List.foldl_cons, List.foldl_nil]
    exact ih.next

theorem sound_cacheInit (env : Env) (memory : Addr → Crec) :
    Sound env (cacheInit env memory) none (firstGhost env) := by
  unfold cacheInit
  obtain ⟨s, hs⟩ : ∃ s : Cache, s =
    { crec := memory, next := fun _ ↦ none, prev := fun _ ↦ none, hash := fun _ ↦
      none, hashSize := 0
      cacheHead := none, cacheTail := none, newChain := none, dhcpSpare := none, insertError :=
        false
      bigFree := 0, bignamesLeft := env.cachesize / 10, uid := 0, live := Finset.range env.cachesize
      mallocs := 0, serials := 0 } := ⟨_, rfl⟩
  have hstart : Initialised env 0 s := by
    rw [hs]
    exact ⟨⟨trivial, trivial, rfl, rfl, List.nodup_nil⟩, by simp, by simp, rfl, rfl, rfl⟩
  have hall := initialised_foldl hstart env.cachesize
  rw [← hs]
  dsimp only at hall ⊢
  generalize (List.range env.cachesize).foldl _ s = t at hall
  have hunused : ∀ crecp < env.cachesize, ¬ InUse (t.flags crecp) := by
    intro crecp hlt
    rw [hall.flags crecp hlt]
    simp [inUse_iff]
  refine ⟨⟨?_, hall.lru, ⟨hall.newChain, trivial⟩, ⟨hall.dhcpSpare, trivial⟩, ?_, ?_, ?_, ?_,
    ?_, ?_, ?_, ?_, ?_, ?_, ?_⟩, ⟨rfl, ?_, rfl⟩, by simp, ⟨⟨hall.uid, ?_⟩, ?_, ?_, ?_⟩⟩
  · exact Nat.lt_of_lt_of_le (by decide) (le_tableSize (env.cachesize / 10) env.cachesize 64)
  · simp [firstGhost, List.reverse_perm]
  · intro crecp hlt
    show crecp ∈ t.live
    rw [hall.live]
    exact Finset.mem_range.mpr hlt
  · intro crecp hlt
    show ¬ Meets (t.flags crecp) outsideFlags
    rw [hall.flags crecp hlt]
    simp [Meets]
  · simp [firstGhost]
  · simp [firstGhost]
  · exact fun _ _ ↦ rfl
  · exact fun _ ↦ List.nodup_nil
  · exact fun _ _ hmem ↦ absurd hmem (by simp [firstGhost])
  · exact fun _ ↦ List.Pairwise.nil
  · intro crecp hmem hused
    exact absurd hused (hunused crecp (by simpa [firstGhost] using hmem))
  · simp [firstGhost]
  · simp [firstGhost]
  · exact fun hcname ↦ absurd hcname.used (hunused _ hcname.lt)
  · exact fun _ _ hcname ↦ absurd hcname.used (hunused _ hcname.lt)
  · exact fun _ _ hcname ↦ absurd hcname.used (hunused _ hcname.lt)
  · exact fun _ _ hmem ↦ absurd hmem (by simp [firstGhost])

/-! ### Insertions -/

theorem entry_flags {flags : Flags} (hsub : flags ⊆ insert .cname entryFlags) (hused : InUse flags)
    (big : Bool) :
    InUse (if big then insert .bigname flags else flags) ∧
      ¬ Meets (if big then insert .bigname flags else flags) outsideFlags := by
  have hall : (if big then insert .bigname flags else flags) ⊆
      insert .bigname (insert .cname entryFlags) := by
    split_ifs
    · exact Finset.insert_subset_insert _ hsub
    · exact hsub.trans (Finset.subset_insert _ _)
  have hmore : flags ⊆ if big then insert .bigname flags else flags := by
    split_ifs
    · exact Finset.subset_insert _ _
    · exact Finset.Subset.refl _
  refine ⟨?_, fun hmeets ↦ ?_⟩
  · rw [inUse_iff] at hused ⊢
    exact hused.imp (fun hmem ↦ hmore hmem) fun hmem ↦ hmore hmem
  · obtain ⟨flag, hflag, hmem⟩ := meets_iff.mp hmeets
    have hentry := hall hmem
    revert hflag hentry
    cases flag <;> decide

/-- What is left in hand when `cache_insert` has filled a record that it had taken off the LRU list.
-/
theorem fill_steps {g g' : Ghost} {new : Addr} {contents : Crec}
    (hframe : Frame env { g with loose := [new] } g') (hout : g'.Out new)
    (hfree : ¬ InUse (s.flags new)) (hused : InUse contents.flags) (hflags :
      ¬ Meets contents.flags outsideFlags)
    (huid : contents.uid = (s.crec new).uid) (hserial : contents.serial = s.serials)
    (hcname : .cname ∈ contents.flags → contents.cnameCache = none) :
    ∃ g'', Steps env Local (s, g') (fillState s new contents, g'') ∧
      LocalFrame env { g with fresh := new :: g.fresh, loose := [] } g'' := by
  have hstep : Step env .plain (s, g') (fillState s new contents, _) :=
    .fill hframe.loose hout hfree hused hflags huid hserial hcname
  refine ⟨_, Steps.single Local.plain hstep, ⟨by rw [hframe.fresh], rfl, hframe.held, ?_⟩⟩
  exact fun record hrecord ↦ hframe.unhashed record (List.mem_filter.mp hrecord).1

/-- What `cache_insert` leaves behind: an error, or a new record in front of the batch. The change
is what the caller does to the record at once. -/
theorem Sound.insert_cases {g : Ghost} (h : Sound env s cpp g)
    (name addr : Option (List UInt8)) (now : ℤ) (ttl : ℕ) {flags : Flags}
    (hsub : flags ⊆ insert .cname entryFlags) (hused : InUse flags)
    (link : Option Addr → Option Addr) (hcname : .cname ∈ flags → ∀ old, link old = none) :
    (∃ s' g', cacheInsert env s name addr now ttl flags = (s', none) ∧ s'.insertError = true ∧
      Sound env s' cpp g' ∧ g'.fresh = g.fresh) ∨
    ∃ s' new g', cacheInsert env s name addr now ttl flags = (s', some new) ∧
      (s.insertError = false ∧ s'.insertError = false) ∧
      Sound env (s'.modify new fun crec ↦ { crec with cnameCache := link crec.cnameCache }) cpp g' ∧
      g'.fresh = new :: g.fresh := by
  have hinserted := cacheInsert_spec h.shape h.settled.loose name addr now ttl flags
  have hsuccess := @insertError_cacheInsert env s name addr now ttl flags
  generalize cacheInsert env s name addr now ttl flags = result at hinserted hsuccess
  cases hinserted with
  | @failed s' g' hsteps hswept herror =>
    have hlocal := hsteps.mono Local.of_plain
    refine .inl ⟨s', g', rfl, herror,
      ⟨h.shape.steps hlocal, h.settled.of_frame hswept.toFrame.toLocal, ?_,
      h.links.of_local hlocal h.shape⟩, hswept.fresh⟩
    intro crecp hcrecp
    rw [hswept.fresh]
    exact h.cppFresh crecp hcrecp
  | @filled s' g' new ttd big hsteps hswept hout hfree _ =>
    obtain ⟨hentryUsed, hflags⟩ := entry_flags hsub hused big
    have hentryCname : .cname ∈ (if big then insert .bigname flags else flags) →
      .cname ∈ flags := by
      split_ifs
      · simp
      · exact id
    obtain ⟨entry, hentry⟩ : ∃ entry, entry = entryContents s' new name addr ttd flags big :=
      ⟨_, rfl⟩
    have hentryFlags : entry.flags = if big then insert .bigname flags else flags := by
      rw [hentry]
      rfl
    rw [← hentryFlags] at hentryUsed hflags hentryCname
    obtain ⟨g'', hfill, hframe'⟩ := @fill_steps env s' g g' new
      { entry with cnameCache := link entry.cnameCache } hswept.toFrame hout hfree hentryUsed hflags
      (by rw [hentry]; rfl) (by rw [hentry]; rfl) fun hmem ↦ hcname (hentryCname hmem) _
    have hclear : (fillState s' new entry).modify new
        (fun crec ↦ { crec with cnameCache := link crec.cnameCache }) =
        fillState s' new { entry with cnameCache := link entry.cnameCache } := by
      simp [fillState, Cache.modify]
    have hboth := (hsteps.mono Local.of_plain).trans hfill
    refine .inr ⟨_, new, g'', rfl, hsuccess rfl, ?_, hframe'.fresh⟩
    rw [← hentry, hclear]
    refine ⟨h.shape.steps hboth, ⟨hframe'.loose, ?_, hframe'.held.trans h.settled.held⟩, ?_,
      h.links.of_local hboth h.shape⟩
    · exact fun crecp hcrecp ↦ (hframe'.unhashed crecp hcrecp).elim (h.settled.unhashed crecp) id
    · intro crecp hcrecp
      rw [hframe'.fresh]
      exact List.mem_cons_of_mem _ (h.cppFresh crecp hcrecp)

theorem Sound.link {g : Ghost} (h : Sound env s cpp g) {newc : Addr}
    (hnewc : newc ∈ g.fresh) {cpp' : Option Addr}
    (hcpp' : ∀ crecp, cpp' = some crecp → crecp ∈ g.fresh) :
    Sound env (linkFrom s cpp newc) cpp' g := by
  have hsteps : Steps env Local (s, g) (linkFrom s cpp newc, g) := by
    cases cpp with
    | none => exact Steps.refl _
    | some crecp => exact Steps.single Local.plain (.linkCname (h.cppFresh crecp rfl) hnewc)
  exact ⟨h.shape.steps hsteps, h.settled, hcpp', h.links.of_local hsteps h.shape⟩

/-- The state of a batch: its records are on the new chain, and the error flag says whether an
insertion has failed. -/
structure Pending (env : Env) (session : Session) (g : Ghost) : Prop where
  sound : Sound env session.cache session.cpp g
  fresh : g.fresh = session.batch
  failed : session.failed = session.cache.insertError

variable {session : Session}

theorem Sound.insertion {g : Ghost} (h : Sound env session.cache session.cpp g)
    (name addr : Option (List UInt8)) (now : ℤ) (ttl : ℕ) {flags : Flags}
    (hsub : flags ⊆ insert .cname entryFlags) (hused : InUse flags)
    (link : Option Addr → Option Addr) (hcname : .cname ∈ flags → ∀ old, link old = none) :
    (∃ s' g', session.insert env name addr now ttl
      flags = ({ session with cache := s', failed := true }, none) ∧
      s'.insertError = true ∧ Sound env s' session.cpp g' ∧ g'.fresh = g.fresh) ∨
    ∃ s' new g', session.insert env name addr now ttl flags =
        ({ session with cache := s', batch := new :: session.batch }, some new) ∧
      (session.cache.insertError = false ∧ s'.insertError = false) ∧
      Sound env (s'.modify new fun crec ↦ { crec with cnameCache := link crec.cnameCache })
        session.cpp g' ∧
      g'.fresh = new :: g.fresh := by
  unfold Session.insert
  rcases h.insert_cases name addr now ttl hsub hused link hcname with
    ⟨s', g', hresult, hrest⟩ | ⟨s', new, g', hresult, hrest⟩
  · rw [hresult]
    exact .inl ⟨s', g', rfl, hrest⟩
  · rw [hresult]
    exact .inr ⟨s', new, g', rfl, hrest⟩

theorem insertError_linkFrom (s : Cache) (cpp : Option Addr) (newc : Addr) :
    (linkFrom s cpp newc).insertError = s.insertError := by
  cases cpp <;> rfl

/-- What an insertion keeps: the lists and links, and in a batch also what is noted about it. -/
structure Inserts (env : Env) (before after : Session) (g : Ghost) : Prop where
  sound : ∃ g', Sound env after.cache after.cpp g'
  pending : Pending env before g → ∃ g', Pending env after g'

theorem Sound.insertCname {g : Ghost} (h : Sound env session.cache session.cpp g)
    (name : List UInt8) (now : ℤ) (ttl : ℕ) :
    Inserts env session (session.insertCname env name now ttl) g := by
  unfold Session.insertCname
  rcases @Sound.insertion env session g h (some name) none now ttl {.cname, .forward} (by decide)
      (by decide) (fun _ ↦ none) (fun _ _ ↦ rfl) with
    ⟨s', g', hresult, herror, hsound, hfresh⟩ | ⟨s', new, g', hresult, herror, hsound, hfresh⟩
  · rw [hresult]
    have hnone : Sound env s' none g' := ⟨hsound.shape, hsound.settled, by simp, hsound.links⟩
    exact ⟨⟨g', hnone⟩, fun hpending ↦ ⟨g', hnone, hfresh.trans hpending.fresh, herror.symm⟩⟩
  · rw [hresult]
    have hmem : new ∈ g'.fresh := by simp [hfresh]
    have hlinked : Sound env _ (some new) g' := hsound.link hmem fun crecp hcrecp ↦
      Option.some.inj hcrecp ▸ hmem
    refine ⟨⟨g', hlinked⟩, fun hpending ↦ ⟨g', hlinked, ?_, ?_⟩⟩
    · rw [hfresh, hpending.fresh]
    · dsimp only
      rw [insertError_linkFrom, hpending.failed, herror.1]
      exact herror.2.symm

theorem modify_cnameCache_id (s : Cache) (crecp : Addr) :
    (s.modify crecp fun crec ↦ { crec with cnameCache := crec.cnameCache }) = s := by
  unfold Cache.modify
  rw [Function.update_eq_self]

theorem Sound.insertion_entry {g : Ghost} (h : Sound env session.cache session.cpp g)
    (name addr : Option (List UInt8)) (now : ℤ) (ttl : ℕ) {flags : Flags}
    (hsub : flags ⊆ entryFlags) (hused : InUse flags) :
    (∃ s' g', session.insert env name addr now ttl
      flags = ({ session with cache := s', failed := true }, none) ∧
      s'.insertError = true ∧ Sound env s' session.cpp g' ∧ g'.fresh = g.fresh) ∨
    ∃ s' new g', session.insert env name addr now ttl flags =
        ({ session with cache := s', batch := new :: session.batch }, some new) ∧
      (session.cache.insertError = false ∧ s'.insertError = false) ∧ Sound env s' session.cpp g' ∧
      g'.fresh = new :: g.fresh := by
  refine (h.insertion name addr now ttl (hsub.trans (Finset.subset_insert _ _)) hused id
    fun hmem ↦ absurd (hsub hmem) (by decide)).imp_right ?_
  rintro ⟨s', new, g', hresult, herror, hsound, hfresh⟩
  exact ⟨s', new, g', hresult, herror, modify_cnameCache_id s' new ▸ hsound, hfresh⟩

theorem Sound.insertTarget {g : Ghost} (h : Sound env session.cache session.cpp g)
    (name addr : Option (List UInt8)) (now : ℤ) (ttl : ℕ) {flags : Flags}
    (hsub : flags ⊆ entryFlags) (hused : InUse flags) :
    Inserts env session (session.insertTarget env name addr now ttl flags) g := by
  unfold Session.insertTarget
  rcases h.insertion_entry name addr now ttl hsub hused with
    ⟨s', g', hresult, herror, hsound, hfresh⟩ | ⟨s', new, g', hresult, herror, hsound, hfresh⟩
  · rw [hresult]
    have hnone : Sound env s' none g' := ⟨hsound.shape, hsound.settled, by simp, hsound.links⟩
    exact ⟨⟨g', hnone⟩, fun hpending ↦ ⟨g', hnone, hfresh.trans hpending.fresh, herror.symm⟩⟩
  · rw [hresult]
    have hmem : new ∈ g'.fresh := by simp [hfresh]
    have hlinked : Sound env (linkFrom s' session.cpp new) none g' := hsound.link hmem (by simp)
    refine ⟨⟨g', hlinked⟩, fun hpending ↦ ⟨g', hlinked, ?_, ?_⟩⟩
    · rw [hfresh, hpending.fresh]
    · dsimp only
      rw [insertError_linkFrom, hpending.failed, herror.1]
      exact herror.2.symm

theorem Sound.insertReverse {g : Ghost} (h : Sound env session.cache session.cpp g)
    (name addr : Option (List UInt8)) (now : ℤ) (ttl : ℕ) {flags : Flags}
    (hsub : flags ⊆ entryFlags) (hused : InUse flags) :
    Inserts env session (session.insert env name addr now ttl flags).1 g := by
  rcases h.insertion_entry name addr now ttl hsub hused with
    ⟨s', g', hresult, herror, hsound, hfresh⟩ | ⟨s', new, g', hresult, herror, hsound, hfresh⟩
  · rw [hresult]
    exact ⟨⟨g', hsound⟩, fun hpending ↦ ⟨g', hsound, hfresh.trans hpending.fresh, herror.symm⟩⟩
  · rw [hresult]
    refine ⟨⟨g', hsound⟩, fun hpending ↦ ⟨g', hsound, ?_, ?_⟩⟩
    · rw [hfresh, hpending.fresh]
    · dsimp only
      rw [hpending.failed, herror.1]
      exact herror.2.symm

/-! ### Runs -/

theorem Settled.of_emptied {g g' : Ghost} (h : Settled env g) (hempty : Emptied g g') :
    Settled env g' where
  loose := hempty.loose.trans h.loose
  unhashed := fun crecp hmem ↦ h.unhashed crecp (hempty.unhashed crecp hmem)
  held := hempty.held.trans h.held

theorem Sound.of_batch {s s' : Cache} {g g' : Ghost} (h : Sound env s cpp g)
    (hsteps : Steps env Batch (s, g) (s', g')) (hempty : Emptied g g') : Sound env s' none g' :=
  ⟨h.shape.steps hsteps, h.settled.of_emptied hempty,
    by simp, h.links.of_batch hsteps hempty.fresh h.shape⟩

theorem Sound.reload {g : Ghost} (h : Sound env s cpp g)
    (input : ReloadInput) : ∃ g', Sound env (cacheReload env s input) cpp g' := by
  obtain ⟨t, g', g'', hclear, hleases, hadd, hframe, hframe'⟩ :=
    cacheReload_steps h.shape h.settled.loose input
  have hsettled := h.settled.of_frame hframe.toLocal
  have hshape : Shape env t g' := h.shape.steps hclear
  refine ⟨g'', hshape.steps hadd, hsettled.of_frame hframe', fun crecp hcpp ↦ ?_,
    (h.links.of_clear hclear hsettled hleases h.shape).of_local hadd hshape⟩
  rw [hframe'.fresh, hframe.fresh]
  exact h.cppFresh crecp hcpp

theorem Sound.unhashDhcp {g : Ghost} (h : Sound env s cpp g) :
    ∃ g', Sound env (cacheUnhashDhcp s) cpp g' := by
  obtain ⟨g', hsteps, hframe, -, hleases⟩ := cacheUnhashDhcp_steps h.shape
  refine ⟨g', h.shape.steps hsteps, h.settled.of_frame hframe, fun crecp hcpp ↦ ?_,
    h.links.of_unhash hsteps hleases h.shape⟩
  rw [hframe.fresh]
  exact h.cppFresh crecp hcpp

theorem Sound.call {g : Ghost} (h : Sound env session.cache session.cpp g) (call : Call)
    (hproper : call.Proper) : ∃ g', Sound env (session.call env call).cache
      (session.call env call).cpp g' := by
  cases call with
  | startInsert =>
    obtain ⟨g', hsteps, hempty, -⟩ := cacheStartInsert_steps h.shape
    exact ⟨g', h.of_batch hsteps hempty⟩
  | insertCname name now ttl => exact (h.insertCname name now ttl).sound
  | insertTarget name addr now ttl flags =>
    exact (h.insertTarget name addr now ttl hproper.1 hproper.2).sound
  | insertReverse name addr now ttl flags =>
    exact (h.insertReverse name addr now ttl hproper.1 hproper.2).sound
  | nextQuestion => exact ⟨g, h.shape, h.settled, by simp [Session.call], h.links⟩
  | endInsert =>
    by_cases herror : session.cache.insertError = true
    · refine ⟨g, ?_⟩
      have hsame : cacheEndInsert env session.cache = session.cache := by
        unfold cacheEndInsert
        rw [if_pos herror]
      show Sound env (cacheEndInsert env session.cache) none g
      rw [hsame]
      exact ⟨h.shape, h.settled, by simp, h.links⟩
    · obtain ⟨g', hsteps, hempty, -⟩ := cacheEndInsert_steps h.shape (by simpa using herror)
      exact ⟨g', h.of_batch hsteps hempty⟩
  | findByName crecp name now prot =>
    exact h.of_adds (cacheFindByName_tidies _ crecp name now prot).adds
  | findByAddr crecp addr now prot =>
    exact h.of_adds (cacheFindByAddr_tidies _ crecp addr now prot).adds
  | reload input => exact h.reload input
  | unhashDhcp => exact h.unhashDhcp
  | addDhcpEntry hostName v6 addr ttd =>
    exact h.of_adds (cacheAddDhcpEntry_adds _ hostName v6 addr ttd)

theorem sound_of_reachable (hreach : CacheReachable env session) :
    ∃ g, Sound env session.cache session.cpp g := by
  refine Reachable.invariant (fun session ↦ ∃ g, Sound env session.cache session.cpp g) ?_ ?_ hreach
  · rintro _ ⟨memory, rfl⟩
    exact ⟨_, sound_cacheInit env memory⟩
  · rintro session call _ - ⟨g, hsound⟩ hproper rfl
    exact hsound.call call hproper

/-- The lists of the cache: each record of the pool is on the LRU list or on the new chain, and in
the table it is in the bucket of its name if it is in use and committed, and else nowhere. -/
structure WellFormed (env : Env) (s : Cache) (lru newChain : List Addr) (chain : ℕ → List Addr) :
    Prop where
  lruLinks : DoublyLinked s.next s.prev s.cacheHead s.cacheTail lru
  newChainLinks : s.newChain = newChain.head? ∧ Linked s.next newChain none
  pool : (lru ++ newChain).Perm (List.range env.cachesize)
  chained : ∀ i < s.hashSize, Chain s.hash Slot.record (.bucket i) (chain i) none
  nodup : ∀ i, (chain i).Nodup
  hashed : ∀ i, ∀ crecp ∈ chain i, i < s.hashSize ∧ InUse (s.flags crecp) ∧
    i = hashBucket env s.hashSize ((s.name crecp).map toLower)
  committed : ∀ crecp ∈ lru, InUse (s.flags crecp) → ∃ i, crecp ∈ chain i
  free : ∀ crecp ∈ lru, ¬ InUse (s.flags crecp) → ∀ i, crecp ∉ chain i
  uncommitted : ∀ crecp ∈ newChain, ∀ i, crecp ∉ chain i
  order : ∀ i, (chain i).Pairwise fun left right ↦
    orderClass (s.flags left) ≤ orderClass (s.flags right)

theorem hashBucket_lower (env : Env) (hashSize : ℕ) (name : List UInt8) :
    hashBucket env hashSize (name.map toLower) = hashBucket env hashSize name := by
  refine hashBucket_congr env hashSize ?_
  simp [hostnameIsequal, Function.comp_def, toLower_toLower]

theorem Sound.wellFormed {g : Ghost} (h : Sound env s cpp g) :
    WellFormed env s g.lru g.fresh g.chain := by
  have hshape := h.shape
  refine ⟨hshape.lru, hshape.fresh, ?_, hshape.chained, hshape.nodup, ?_, ?_, ?_, ?_, hshape.order⟩
  · have hpool := hshape.pool
    rw [h.settled.loose, List.append_nil] at hpool
    exact hpool
  · intro i crecp hmem
    have hmember := hshape.member i crecp hmem
    refine ⟨hshape.lt_hashSize hmem, hmember.used, ?_⟩
    rw [hashBucket_lower]
    exact hmember.bucket.symm
  · intro crecp hlru hused
    rcases hshape.complete crecp (List.mem_append_left _ hlru) hused with hhashed | hhand
    · exact ⟨_, hhashed⟩
    · exact absurd (hshape.lt_of_mem_lru hlru) (Nat.not_lt.mpr (h.settled.unhashed crecp hhand))
  · exact fun crecp _ hfree i hmem ↦ hfree (hshape.member i crecp hmem).used
  · exact fun crecp hfresh i hmem ↦ (hshape.member i crecp hmem).apart.1 hfresh

/-- After any sequence of calls the lists and the table are as they should be. -/
theorem wellFormed_of_reachable {session : Session} (hreach : CacheReachable env session) :
    ∃ lru newChain chain, WellFormed env session.cache lru newChain chain := by
  obtain ⟨g, hsound⟩ := sound_of_reachable hreach
  exact ⟨g.lru, g.fresh, g.chain, hsound.wellFormed⟩

/-- A cache with three records and no configuration. -/
def smallEnv : Env where
  cachesize := 3
  maxCacheTtl := 0
  cnames := []
  optExpand := false
  packetBuffSz := 4096
  mixTab := fun _ ↦ 0
  clobber := id
  malloc := fun _ ↦ none

/-- A reply with a CNAME from `a` to `b` and the address of `b`. -/
def cnameReply : List Call :=
  [.startInsert, .insertCname [97] 0 60, .insertTarget (some [98]) (some [10, 0, 0, 1]) 0 60
    {.ipv4, .forward}, .endInsert]

def Session.calls (env : Env) (session : Session) (calls : List Call) : Session :=
  calls.foldl (Session.call env) session

theorem CacheReachable.calls (h : CacheReachable env session) (calls : List Call)
    (hproper : ∀ call ∈ calls, call.Proper) : CacheReachable env (session.calls env calls) := by
  induction calls generalizing session with
  | nil => exact h
  | cons call calls ih =>
    exact ih (Reachable.step h (hproper call List.mem_cons_self) rfl)
      fun later hlater ↦ hproper later (List.mem_cons_of_mem _ hlater)

theorem proper_cnameReply : ∀ call ∈ cnameReply, call.Proper := by
  intro call hcall
  simp only [cnameReply, List.mem_cons, List.not_mem_nil, or_false] at hcall
  rcases hcall with rfl | rfl | rfl | rfl
  · trivial
  · trivial
  · exact ⟨by decide, by decide⟩
  · trivial

theorem wellFormed_of_reachable_cname : ∃ lru newChain chain, WellFormed smallEnv
    (Session.calls smallEnv ⟨cacheInit smallEnv default, none, [], false⟩ cnameReply).cache lru
      newChain chain :=
  wellFormed_of_reachable
    (CacheReachable.calls (Reachable.start ⟨default, rfl⟩) cnameReply proper_cnameReply)

/-! ### CNAMEs -/

def InTable (s : Cache) (crecp : Addr) : Prop :=
  ∃ i < s.hashSize, ∃ nodes, Chain s.hash Slot.record (.bucket i) nodes none ∧ crecp ∈ nodes

theorem Shape.inTable_iff {g : Ghost} (h : Shape env s g) {crecp : Addr} :
    InTable s crecp ↔ g.Holds crecp := by
  constructor
  · rintro ⟨i, hi, nodes, hchain, hmem⟩
    rw [hchain.unique (h.chained i hi)] at hmem
    exact ⟨i, hmem⟩
  · rintro ⟨i, hmem⟩
    exact ⟨i, h.lt_hashSize hmem, g.chain i, h.chained i (h.lt_hashSize hmem), hmem⟩

/-- The record that a CNAME leads to is in the use, and has the name, that it had when the CNAME was
linked to it. -/
def LeadsToLinked (s : Cache) (crecp : Addr) : Prop :=
  ∃ target, (s.crec crecp).cnameCache = some target ∧
    (s.crec target).serial = (s.crec crecp).linkedSerial ∧
      s.name target = (s.crec crecp).linkedName ∧
    InUse (s.flags target)

theorem isOutdatedCnamePointer_eq_false {crecp : Addr} (hcname : .cname ∈ s.flags crecp)
    (h : isOutdatedCnamePointer s crecp = false) :
    ∃ target, (s.crec crecp).cnameCache = some target ∧ Alive s crecp target := by
  unfold isOutdatedCnamePointer at h
  rw [if_neg (by simpa using hcname)] at h
  cases hlink : (s.crec crecp).cnameCache with
  | none =>
    rw [hlink] at h
    exact absurd h (by simp)
  | some target =>
    rw [hlink] at h
    have hboth : Meets (s.flags target) {.ipv4, .ipv6, .cname} ∧
        (s.crec crecp).cnameUid = (s.crec target).uid := by simpa using h
    exact ⟨target, rfl, hboth.2⟩

/-- After any sequence of calls a CNAME in the table that is not outdated leads to the record it was
linked to. -/
theorem cname_of_reachable {session : Session} (hreach : CacheReachable env session) {crecp : Addr}
    (htable : InTable session.cache crecp) (hcname : .cname ∈ session.cache.flags crecp)
    (hvalid : isOutdatedCnamePointer session.cache crecp = false) :
    LeadsToLinked session.cache crecp := by
  obtain ⟨g, hsound⟩ := sound_of_reachable hreach
  obtain ⟨i, hi, nodes, hchain, hmem⟩ := htable
  rw [hchain.unique (hsound.shape.chained i hi)] at hmem
  by_cases hlt : crecp < env.cachesize
  · obtain ⟨target, hlink, halive⟩ := isOutdatedCnamePointer_eq_false hcname hvalid
    have hsoundLink := hsound.links.pool crecp target
      ⟨hlt, (hsound.shape.member i crecp hmem).used, hcname, hlink⟩
    exact ⟨target, hlink, hsoundLink halive⟩
  · obtain ⟨target, hlink, -, -, -, -, -, hserial, hname, hused, -⟩ :=
      hsound.links.outside i crecp hmem (Nat.le_of_not_lt hlt) hcname trivial
    exact ⟨target, hlink, hserial, hname, hused⟩

theorem cname_of_reachable_small :
    LeadsToLinked
      (Session.calls smallEnv ⟨cacheInit smallEnv default, none, [], false⟩ cnameReply).cache 0 :=
  cname_of_reachable (CacheReachable.calls (Reachable.start ⟨default, rfl⟩) cnameReply
    proper_cnameReply)
    ⟨46, by decide +kernel, [0], ⟨by decide +kernel, (by decide +kernel : _ = none)⟩, by simp⟩
    (by decide +kernel) (by decide +kernel)

end CrossBreeder.Dnsmasq
