import CrossBreeder.Dnsmasq.HostNameCheck

/-!
# The cache makes room

No record that is not in the pool gets in the way of one of the pool, over any sequence of calls, as
long as no lease is added with a CNAME whose name is the one of a cached record.

`reclaims_of_reachable` is the result for runs, and `not_reclaims_alias` the run that shows what the
condition is for.
-/

namespace CrossBreeder.Dnsmasq

open Foundation

variable {env : Env} {flags : Flags}

namespace Reclaimable

variable {s s' : Cache} {g g' : Ghost} {running : Bool}

/-! ### Insertions -/

theorem congr (h : Reclaimable env s running) (hhash : s'.hash = s.hash)
    (hsize : s'.hashSize = s.hashSize) (hnext : s'.next = s.next) (hnew : s'.newChain = s.newChain)
    (huse : ∀ crecp, SameUse (s.crec crecp) (s'.crec crecp)) : Reclaimable env s' running := by
  refine ⟨fun l hl p hlt hin hcounts hshadows ↦ ?_, fun p hlt hin ↦ ?_⟩
  · unfold InTable at hl
    unfold OnNewChain at hcounts
    rw [hhash, hsize] at hl
    rw [hnext, hnew] at hcounts
    exact h.unshadowed l hl p hlt ((huse p).inUse hin) hcounts (hshadows.congr (huse l) (huse p))
  · exact (huse p).spillable (h.spillable p hlt ((huse p).inUse hin))

theorem settle (h : Reclaimable env s running) : Reclaimable env s false := by
  refine ⟨fun l hl p hlt hused hcounts ↦ h.unshadowed l hl p hlt hused (.inr ?_), h.spillable⟩
  exact hcounts.resolve_left (by decide)

theorem fill (h : Reclaimable env s true) (hshape : Shape env s g) {new : Addr} (hout : g.Out new)
    {contents : Crec} {name : List UInt8} (hnone : NoneReplaced s g flags name)
    (hname : contents.name = name) (hsub : contents.flags ⊆ insert .bigname flags)
    (hspillable : Spillable contents.flags) : Reclaimable env (fillState s new contents) true := by
  have hother : ∀ {crecp}, crecp ≠ new → (fillState s new contents).crec crecp = s.crec crecp :=
    fun hne ↦ Function.update_of_ne hne _ _
  have hself : (fillState s new contents).crec new = contents := Function.update_self _ _ _
  have hentry : ∀ flag, flag ≠ .bigname → flag ∈ contents.flags → flag ∈ flags :=
    fun flag hne hmem ↦ (Finset.mem_insert.mp (hsub hmem)).resolve_left hne
  refine ⟨fun l hl p hlt hused _ ↦ ?_, fun p hlt hused ↦ ?_⟩
  · have hheld : g.Holds l := hshape.inTable_iff.mp hl
    have hne : l ≠ new := by
      rintro rfl
      obtain ⟨i, hi⟩ := hheld
      exact hout i hi
    rw [hother hne]
    by_cases heq : p = new
    · rw [heq, hself]
      rintro ⟨-, -, hforward, hnewForward, hoverlap, hequal⟩
      have hkept := hnone (hentry .forward (by decide) hnewForward) l hheld
      rw [hname] at hequal
      refine of_decide_eq_false hkept ⟨hforward, hoverlap.imp (fun hmeets ↦ ?_) fun hcname ↦ ?_,
        hequal⟩
      · obtain ⟨type, htype, hin⟩ := meets_iff.mp hmeets
        obtain ⟨hnewType, hlType⟩ := Finset.mem_inter.mp hin
        refine meets_iff.mpr ⟨type, htype, Finset.mem_inter.mpr ⟨hentry type ?_ hnewType, hlType⟩⟩
        rintro rfl
        exact absurd htype (by decide)
      · exact Finset.mem_union.mpr ((Finset.mem_union.mp hcname).imp_right
          (hentry .cname (by decide)))
    · rw [hother heq]
      unfold Cache.flags at hused
      rw [hother heq] at hused
      exact h.unshadowed l hl p hlt hused (.inl rfl)
  · unfold Cache.flags at hused ⊢
    by_cases heq : p = new
    · rw [heq, hself]
      exact hspillable
    · rw [hother heq] at hused ⊢
      exact h.spillable p hlt hused

end Reclaimable

theorem Spillable.entry (h : Spillable flags) (big : Bool) :
    Spillable (if big then insert .bigname flags else flags) := by
  cases big with
  | false => exact h
  | true =>
    have hmeets : ∀ {types : Flags}, Meets flags types → Meets (insert .bigname flags) types := by
      intro types hmeets
      obtain ⟨type, htype, hmem⟩ := meets_iff.mp hmeets
      exact meets_iff.mpr ⟨type, htype, Finset.mem_insert_of_mem hmem⟩
    unfold Spillable at h ⊢
    rw [if_pos rfl]
    by_cases hforward : Flag.forward ∈ flags
    · rw [if_pos hforward] at h
      rw [if_pos (Finset.mem_insert_of_mem hforward)]
      exact h.imp hmeets Finset.mem_insert_of_mem
    · rw [if_neg hforward] at h
      rw [if_neg (by simpa using hforward)]
      exact hmeets h

namespace Reclaimable

variable {s s' : Cache} {g g' : Ghost} {running : Bool}

theorem cacheInsert (h : Reclaimable env s true) (hshape : Shape env s g) (hloose : g.loose = [])
    (name addr : Option (List UInt8)) (now : ℤ) (ttl : ℕ) (hspillable : Spillable flags) :
    Reclaimable env (cacheInsert env s name addr now ttl flags).1 true := by
  have hinserted := cacheInsert_spec hshape hloose name addr now ttl flags
  generalize Dnsmasq.cacheInsert env s name addr now ttl flags = result at hinserted
  cases hinserted with
  | failed hsteps hswept _ => exact h.of_swept hshape hsteps hswept
  | @filled s' g' new ttd big hsteps hswept hout hfree hnone =>
    have hheld : ∀ l, g'.Holds l → Meets (s'.flags l) localFlags →
      (g.Holds l ∧ SameUse (s.crec l) (s'.crec l)) ∨
        ∀ p < env.cachesize, InUse (s.flags p) → (true = true ∨ p ∉ g.fresh) →
          ¬ Shadows (s'.crec l) (s.crec p) :=
      fun l hl _ ↦ .inl ⟨hswept.table l hl, .of_eq (hshape.crec_of_holds hsteps hl)⟩
    have hgrabbed := h.of_steps hshape hsteps (by simp [Plain]) hswept.fresh id hheld
    refine hgrabbed.fill (hshape.steps hsteps) hout hnone rfl ?_ (hspillable.entry big)
    show (if big then insert .bigname flags else flags) ⊆ insert .bigname flags
    split_ifs
    · exact Finset.Subset.refl _
    · exact Finset.subset_insert _ _

/-- What `extract_addresses` does to a CNAME that it has inserted, and to one that waits for a
record. -/
theorem link (h : Reclaimable env s running) (new : Addr) (change : Option Addr → Option Addr)
    (cpp : Option Addr) :
    Reclaimable env
      (linkFrom (s.modify new fun crec ↦ { crec with cnameCache := change crec.cnameCache }) cpp
    new)
      running := by
  obtain ⟨t, ht⟩ : ∃ t, t = s.modify new fun crec ↦
    { crec with cnameCache := change crec.cnameCache } := ⟨_, rfl⟩
  have huse : ∀ crecp, SameUse (s.crec crecp) (t.crec crecp) := by
    intro crecp
    rw [ht]
    unfold Cache.modify
    dsimp only
    by_cases heq : crecp = new
    · rw [heq, Function.update_self]
      exact ⟨rfl, rfl⟩
    · exact .of_eq (Function.update_of_ne heq _ _)
  have hchanged : Reclaimable env t running := by
    rw [ht] at huse ⊢
    exact h.congr rfl rfl rfl rfl huse
  rw [← ht]
  cases cpp with
  | none => exact hchanged
  | some cpp =>
    refine hchanged.congr rfl rfl rfl rfl fun crecp ↦ ?_
    by_cases heq : crecp = cpp
    · rw [heq]
      exact ⟨crec_linkCname_self t cpp new ▸ rfl, crec_linkCname_self t cpp new ▸ rfl⟩
    · exact .of_eq (crec_linkCname_of_ne t heq)

/-! ### Batches -/

/-- A record of the pool that is in use when the loop of `cache_start_insert` is done is as it was.
-/
theorem crec_freeNewChain (fuel : ℕ) :
    ∀ (s : Cache) {p : Addr}, InUse ((freeNewChain fuel s).flags p) →
    (freeNewChain fuel s).crec p = s.crec p := by
  induction fuel with
  | zero => exact fun _ _ _ ↦ rfl
  | succ fuel ih =>
    intro s p hused
    unfold freeNewChain at hused ⊢
    cases hnew : s.newChain with
    | none => rfl
    | some crecp =>
      rw [hnew] at hused
      have hrest := ih _ hused
      rw [hrest]
      refine crec_cacheFree_of_ne s ?_
      rintro rfl
      unfold Cache.flags at hused
      rw [hrest] at hused
      exact not_inUse_cacheFree s p hused

theorem crec_commitNewChain (fuel : ℕ) :
    ∀ (s : Cache) {p : Addr}, InUse ((commitNewChain env fuel s).flags p) →
    (commitNewChain env fuel s).crec p = s.crec p := by
  induction fuel with
  | zero => exact fun _ _ _ ↦ rfl
  | succ fuel ih =>
    intro s p hused
    unfold commitNewChain at hused ⊢
    cases hnew : s.newChain with
    | none => rfl
    | some crecp =>
      rw [hnew] at hused
      have hrest := ih _ hused
      rw [hrest]
      split_ifs with houtdated
      · refine crec_cacheFree_of_ne s ?_
        rintro rfl
        unfold Cache.flags at hused
        rw [hrest, if_pos houtdated] at hused
        exact not_inUse_cacheFree s p hused
      · rfl

/-- The new chain is emptied: the records that are in use afterwards counted before. -/
theorem of_batch (h : Reclaimable env s running) (hshape : Shape env s g)
    (hsteps : Steps env Batch (s, g) (s', g'))
    (hcrec : ∀ p, InUse (s'.flags p) → s'.crec p = s.crec p)
    (htable : ∀ l, g'.Holds l → Meets (s'.flags l) localFlags → g.Holds l)
    (hcounts : ∀ p < env.cachesize, InUse (s'.flags p) → running = true ∨ p ∉ g.fresh)
    (running' : Bool) :
    Reclaimable env s' running' := by
  have hshape' : Shape env s' g' := hshape.steps hsteps
  have huse : ∀ {p}, InUse (s'.flags p) → SameUse (s.crec p) (s'.crec p) :=
    fun hin ↦ .of_eq (hcrec _ hin)
  refine ⟨fun l hl p hlt hin _ hshadows ↦ ?_, fun p hlt hin ↦ ?_⟩
  · rw [hshape'.inTable_iff] at hl
    have hle : env.cachesize ≤ l := by
      obtain ⟨i, hi⟩ := hl
      exact hshape'.le_of_hashed hi hshadows.1
    have hlCrec : s'.crec l = s.crec l := hsteps.crec_outside hshape (by simp [Batch]) hle
    refine h.unshadowed l (hshape.inTable_iff.mpr (htable l hl hshadows.1)) p hlt
      ((huse hin).inUse hin) ?_ (hshadows.congr (.of_eq hlCrec) (huse hin))
    rw [hshape.onNewChain_iff]
    exact hcounts p hlt hin
  · exact (huse hin).spillable (h.spillable p hlt ((huse hin).inUse hin))

theorem startInsert (h : Reclaimable env s running) (hshape : Shape env s g)
    (hsettled : Settled env g) : Reclaimable env (cacheStartInsert s) true := by
  obtain ⟨g', hsteps, hempty, hchain⟩ := cacheStartInsert_steps hshape
  have hshape' : Shape env (cacheStartInsert s) g' := hshape.steps hsteps
  refine h.of_batch hshape hsteps (fun p hused ↦ crec_freeNewChain s.walkFuel s hused) (fun l hl _ ↦
    ?_) (fun p hlt hused ↦ .inr fun hfresh ↦ ?_) true
  · obtain ⟨i, hi⟩ := hl
    rw [hchain] at hi
    exact ⟨i, hi⟩
  · -- it is on the LRU list, and so in the table
    obtain ⟨i, hi⟩ :=
      hshape'.holds_of_inUse (hsettled.of_emptied hempty) hlt (by simp [hempty.fresh]) hused
    rw [hchain] at hi
    exact (hshape.member i p hi).apart.1 hfresh

theorem endInsert (h : Reclaimable env s true) (hshape : Shape env s g) :
    Reclaimable env (cacheEndInsert env s) false := by
  by_cases herror : s.insertError = true
  · unfold cacheEndInsert
    rw [if_pos herror]
    exact h.settle
  · obtain ⟨g', hsteps, hempty, htable⟩ := cacheEndInsert_steps hshape (by simpa using herror)
    have hshape' : Shape env (cacheEndInsert env s) g' := hshape.steps hsteps
    refine h.of_batch hshape hsteps (fun p hused ↦ ?_) (fun l hl hlocal ↦
      (htable l hl).resolve_right fun hfresh ↦ ?_) (fun _ _ _ ↦ .inl rfl) false
    · unfold cacheEndInsert at hused ⊢
      rw [if_neg herror] at hused ⊢
      exact crec_commitNewChain s.walkFuel s hused
    · exact hshape'.notLocal_of_lt (hshape.lt_of_mem_fresh hfresh) hlocal

/-! ### Hosts files and leases -/

theorem reload (h : Reclaimable env s running) (hshape : Shape env s g) (hsettled : Settled env g)
    (input : ReloadInput) : Reclaimable env (cacheReload env s input) false := by
  obtain ⟨t, g', g'', hclear, hleases, hadd, hframe, hframe'⟩ :=
    cacheReload_steps hshape hsettled.loose input
  have hshape' : Shape env t g' := hshape.steps hclear
  have hshape'' : Shape env (cacheReload env s input) g'' := hshape'.steps hadd
  have hkept' := hadd.poolKept hshape' (by simp [Local])
  have hkept := (hclear.poolKept hshape (by simp [Clears])).trans hkept'
  have hfresh : ∀ p < env.cachesize, InUse ((cacheReload env s input).flags p) → p ∈ g''.fresh := by
    intro p hlt hused
    by_contra hnot
    obtain ⟨hnot', hcrec⟩ := hkept'.used p hlt hnot hused
    have hsame : SameUse (t.crec p) ((cacheReload env s input).crec p) := .of_eq hcrec
    obtain ⟨i, hi⟩ :=
      hshape'.holds_of_inUse (hsettled.of_frame hframe.toLocal) hlt hnot' (hsame.inUse hused)
    exact hshape'.notLocal_of_lt hlt (meets_localFlags.mpr (.inr (hleases i p hi).1))
  refine ⟨fun l hl p hlt hused hcounts ↦ ?_, fun p hlt hused ↦ ?_⟩
  · rw [hshape''.onNewChain_iff] at hcounts
    exact absurd (hfresh p hlt hused) (hcounts.resolve_left (by decide))
  · have hmem := hfresh p hlt hused
    rw [hframe'.fresh, hframe.fresh] at hmem
    have hsame := (hkept.fresh p hmem).2
    exact hsame.spillable (h.spillable p hlt (hsame.inUse hused))

theorem unhashDhcp (h : Reclaimable env s running) (hshape : Shape env s g) :
    Reclaimable env (cacheUnhashDhcp s) running := by
  obtain ⟨g', hsteps, hframe, htable, -⟩ := cacheUnhashDhcp_steps hshape
  have hshape' : Shape env (cacheUnhashDhcp s) g' := hshape.steps hsteps
  refine h.of_steps hshape hsteps
    (by simp [Unhashes]) hframe.fresh id fun l hl hlocal ↦ .inl ⟨htable l hl, .of_eq ?_⟩
  obtain ⟨i, hi⟩ := hl
  exact hsteps.crec_outside hshape (by simp [Unhashes]) (hshape'.le_of_hashed hi hlocal)

end Reclaimable

/-- No record of the pool that is in the table has the name of a CNAME of the configuration that
leads to the host name. -/
def AliasesClear (env : Env) (s : Cache) (hostName : List UInt8) : Prop :=
  ∀ p, InTable s p → ¬ Meets (s.flags p) localFlags → .forward ∈ s.flags p →
    ∀ aliasName, AliasOf env hostName aliasName → hostnameIsequal aliasName (s.name p) = false

namespace Reclaimable

variable {s : Cache} {g : Ghost} {running : Bool}

theorem mem_leaseFlags {v6 : Bool} (hflags : flags ⊆ leaseType v6 ∪ {.reverse})
    {ttd : ℤ} {flag : Flag} (h : flag ∈ leaseFlags (flags ∪ {.namep, .dhcp, .forward}) ttd) :
    flag ∈ leaseType v6 ∨ flag ∈ ({.reverse, .namep, .dhcp, .forward, .immortal} : Flags) := by
  have hinsert : flag = .immortal ∨ flag ∈ flags ∪ {.namep, .dhcp, .forward} := by
    unfold leaseFlags at h
    split_ifs at h
    · exact Finset.mem_insert.mp h
    · exact .inr h
  rcases hinsert with rfl | hmem
  · exact .inr (by decide)
  · rcases Finset.mem_union.mp hmem with hin | hin
    · refine (Finset.mem_union.mp (hflags hin)).imp_right fun hreverse ↦ ?_
      rw [Finset.mem_singleton.mp hreverse]
      decide
    · refine .inr ?_
      revert hin
      cases flag <;> decide

/-- The record of a lease is in nobody's way if the host name is not cached, and neither are its
CNAMEs if their names are not cached or the lease does not end. -/
theorem not_shadows_lease {hostName : List UInt8} {v6 : Bool} {ttd : ℤ} {new : Crec} {p : Addr}
    (hflags : flags ⊆ leaseType v6 ∪ {.reverse}) (hnew : LeaseRecord env hostName ttd flags new)
    (hhost : ¬ PoolMatch s hostName (insert .cname (leaseType v6)) p)
    (hpool : ¬ Meets (s.flags p) localFlags) (halias : ttd = 0 ∨ (.forward ∈ s.flags p →
      ∀ aliasName, AliasOf env hostName aliasName → hostnameIsequal aliasName (s.name p) = false)) :
    ¬ Shadows new (s.crec p) := by
  rintro ⟨-, horder, -, hforward, hoverlap, hequal⟩
  rcases hnew with ⟨hnewFlags, hname⟩ | ⟨hnewFlags, hname⟩
  · -- the record of the host name
    rw [hnewFlags] at hoverlap
    rw [hname] at hequal
    refine hhost ⟨hpool, decide_eq_true ⟨hforward, ?_, ?_⟩⟩
    · rcases hoverlap with hmeets | hcname
      · obtain ⟨type, htype, hin⟩ := meets_iff.mp hmeets
        obtain ⟨hp, hentry⟩ := Finset.mem_inter.mp hin
        refine meets_iff.mpr ⟨type,
          Finset.mem_insert_of_mem ((mem_leaseFlags hflags hentry).resolve_right ?_), hp⟩
        revert htype
        cases type <;> decide
      · refine meets_iff.mpr ⟨.cname, Finset.mem_insert_self _ _, ?_⟩
        refine (Finset.mem_union.mp hcname).resolve_left fun hentry ↦ ?_
        exact absurd ((mem_leaseFlags hflags hentry).resolve_right
          (by decide)) (by cases v6 <;> decide)
    · unfold hostnameIsequal at hequal ⊢
      exact decide_eq_true (of_decide_eq_true hequal).symm
  · -- a CNAME
    rcases halias with rfl | hclear
    · rw [hnewFlags] at horder
      exact absurd horder (by decide)
    · rw [show hostnameIsequal new.name (s.crec p).name = false from
        hclear hforward new.name hname] at hequal
      exact absurd hequal (by decide)

/-- `cache_add_dhcp_entry`, if no name of a CNAME for the lease is cached or the lease does not end.
-/
theorem addDhcpEntry (h : Reclaimable env s running) (hshape : Shape env s g)
    (hsettled : Settled env g) (hostName : List UInt8) (v6 : Bool) (addr : List UInt8) (ttd : ℤ)
    (hclear : ttd = 0 ∨ AliasesClear env s hostName) :
    Reclaimable env (cacheAddDhcpEntry env s hostName v6 addr ttd) false := by
  rw [cacheAddDhcpEntry_eq]
  dsimp only
  obtain ⟨g₁, hsteps₁, hswept₁, hhost⟩ :=
    h.checkHostName hshape hsettled hostName addr v6 (false, false)
  generalize Dnsmasq.checkHostName env hostName addr (leaseType v6) (s.walkFuel + 1) none s (false,
    false) = checked at hsteps₁ hhost
  split_ifs
  · exact (h.of_swept hshape hsteps₁ hswept₁).settle
  · have hloose₁ := hswept₁.loose.trans hsettled.loose
    obtain ⟨g₂, hsteps₂, hswept₂⟩ :=
      leaseReverse_sweeps checked.1 addr (leaseType v6) g₁ (hshape.steps hsteps₁) hloose₁
    have hflags := @leaseReverse_subset env checked.1 addr v6
    generalize leaseReverse env checked.1 addr (leaseType v6) = reversed at hsteps₂ hflags
    have hshape₁ : Shape env checked.1 g₁ := hshape.steps hsteps₁
    have hshape₂ : Shape env reversed.1 g₂ := hshape₁.steps hsteps₂
    have hsteps := hsteps₁.trans hsteps₂
    have hswept := hswept₁.trans hswept₂
    have hreversed := h.of_swept hshape hsteps hswept
    have hsettled₂ := hsettled.of_frame hswept.toFrame.toLocal
    obtain ⟨g₃, hgrown⟩ := addLease_grown hshape₂ hostName addr ttd hflags
    refine hreversed.of_steps hshape₂ hgrown.steps (by simp [Local]) hgrown.frame.fresh
      (fun hfalse ↦ absurd hfalse (by decide)) fun l hl _ ↦ ?_
    rcases hgrown.added l hl with hold | hnew
    · exact .inl ⟨hold, .of_eq (hgrown.hashed l hold).2⟩
    · refine .inr fun p hlt hused hcounts ↦ ?_
      -- the record of the pool is one of the table, and was there from the start
      have hheld := hshape₂.holds_of_inUse hsettled₂ hlt (hcounts.resolve_left (by decide)) hused
      have hheld₁ := hswept₂.table p hheld
      have hcrec := hshape.crec_of_holds hsteps hheld
      have hcrec₂ := hshape₁.crec_of_holds hsteps₂ hheld
      have hpool := hshape₂.notLocal_of_lt hlt
      refine not_shadows_lease hflags hnew (fun hmatch ↦ hhost p hheld₁ ?_) hpool
        (hclear.imp_right fun hnames ↦ ?_)
      · exact (PoolMatch.congr hcrec₂).mp hmatch
      · have hsame : reversed.1.flags p = s.flags p ∧ reversed.1.name p = s.name p := by
          unfold Cache.flags Cache.name
          rw [hcrec]
          exact ⟨rfl, rfl⟩
        rw [hsame.1] at hpool ⊢
        rw [hsame.2]
        exact hnames p (hshape.inTable_iff.mpr (hswept.table p hheld)) hpool

end Reclaimable

/-! ### Runs -/

/-- Whether a batch is being inserted after a call: `cache_start_insert` begins one, and what is not
an insertion or a lookup ends it. -/
def Call.running (before : Bool) : Call → Bool
  | .startInsert => true
  | .insertCname _ _ _ => before
  | .insertTarget _ _ _ _ _ => before
  | .insertReverse _ _ _ _ _ => before
  | .nextQuestion => before
  | .endInsert => false
  | .findByName _ _ _ _ => before
  | .findByAddr _ _ _ _ => before
  | .reload _ => false
  | .unhashDhcp => false
  | .addDhcpEntry _ _ _ _ => false

/-- `cache_start_insert`, `cache_insert` as often as needed, and then `cache_end_insert` if the
batch was not given up. -/
def Call.InOrder (running : Bool) : Call → Prop
  | .insertCname _ _ _ => running = true
  | .insertTarget _ _ _ _ _ => running = true
  | .insertReverse _ _ _ _ _ => running = true
  | .endInsert => running = true
  | _ => True

/-- Records of a reply, CNAMEs apart, are of a family of addresses. -/
def Call.Typed : Call → Prop
  | .insertTarget _ _ _ _ flags => Meets flags {.ipv4, .ipv6}
  | .insertReverse _ _ _ _ flags => Meets flags {.ipv4, .ipv6}
  | _ => True

structure Call.Made (running : Bool) (call : Call) : Prop where
  proper : call.Proper
  typed : call.Typed
  inOrder : call.InOrder running

/-- No lease that ends is added while the name of a CNAME that leads to it is cached. -/
def Call.SparesAliases (env : Env) (s : Cache) : Call → Prop
  | .addDhcpEntry hostName _ _ ttd => ttd = 0 ∨ AliasesClear env s hostName
  | _ => True

/-- The calls after `cache_init`, and whether a batch is being inserted. -/
def batchSystem (env : Env) : System (Session × Bool) Call where
  initial state := (cacheSystem env).initial state.1 ∧ state.2 = false
  step state call next := (cacheSystem env).step state.1 call next.1 ∧ next.2 = call.running state.2

section Runs

variable {session : Session} {g : Ghost} {running : Bool}

theorem spillable_of_typed (h : Meets flags {.ipv4, .ipv6}) : Spillable flags := by
  unfold Spillable
  split_ifs
  · obtain ⟨type, htype, hmem⟩ := meets_iff.mp h
    refine .inl (meets_iff.mpr ⟨type, ?_, hmem⟩)
    revert htype
    cases type <;> decide
  · exact h

theorem Reclaimable.insertTarget (h : Reclaimable env session.cache true)
    (hsound : Sound env session.cache session.cpp g) (name addr : Option (List UInt8))
    (now : ℤ) (ttl : ℕ) (htyped : Meets flags {.ipv4, .ipv6}) :
    Reclaimable env (session.insertTarget env name addr now ttl flags).cache true ∧
      Reclaimable env (session.insert env name addr now ttl flags).1.cache true := by
  have hinserted :=
    h.cacheInsert hsound.shape hsound.settled.loose name addr now ttl (spillable_of_typed htyped)
  unfold Session.insertTarget Session.insert
  generalize Dnsmasq.cacheInsert env session.cache name addr now ttl flags = result at hinserted
  obtain ⟨s, _ | new⟩ := result
  · exact ⟨hinserted, hinserted⟩
  · refine ⟨?_, hinserted⟩
    have hlinked := hinserted.link new id session.cpp
    rw [show (s.modify new fun crec ↦ { crec with cnameCache := id crec.cnameCache }) = s from
      modify_cnameCache_id s new] at hlinked
    exact hlinked

theorem Reclaimable.insertCname (h : Reclaimable env session.cache true)
    (hsound : Sound env session.cache session.cpp g) (name : List UInt8) (now : ℤ) (ttl : ℕ) :
    Reclaimable env (session.insertCname env name now ttl).cache true := by
  have hinserted := h.cacheInsert hsound.shape hsound.settled.loose (some name) none now ttl
    (show Spillable {.cname, .forward} by unfold Spillable; decide)
  unfold Session.insertCname Session.insert
  generalize Dnsmasq.cacheInsert env session.cache (some name) none now ttl {.cname, .forward} =
    result at hinserted
  obtain ⟨s, _ | new⟩ := result
  · exact hinserted
  · exact hinserted.link new (fun _ ↦ none) session.cpp

theorem Reclaimable.call (h : Reclaimable env session.cache running)
    (hsound : Sound env session.cache session.cpp g) (call : Call) (hmade : call.Made running)
    (hspares : call.SparesAliases env session.cache) :
    Reclaimable env (session.call env call).cache (call.running running) := by
  have hfind : ∀ {s' : Cache}, Sweeps env session.cache s' → Reclaimable env s' running := by
    intro s' hsweeps
    obtain ⟨g', hsteps, hswept⟩ := hsweeps g hsound.shape hsound.settled.loose
    exact h.of_swept hsound.shape hsteps hswept
  cases call with
  | startInsert => exact h.startInsert hsound.shape hsound.settled
  | insertCname name now ttl =>
    obtain rfl : running = true := hmade.inOrder
    exact h.insertCname hsound name now ttl
  | insertTarget name addr now ttl flags =>
    obtain rfl : running = true := hmade.inOrder
    exact (h.insertTarget hsound name addr now ttl hmade.typed).1
  | insertReverse name addr now ttl flags =>
    obtain rfl : running = true := hmade.inOrder
    exact (h.insertTarget hsound name addr now ttl hmade.typed).2
  | nextQuestion => exact h
  | endInsert =>
    obtain rfl : running = true := hmade.inOrder
    exact h.endInsert hsound.shape
  | findByName crecp name now prot => exact hfind (cacheFindByName_sweeps _ crecp name now prot)
  | findByAddr crecp addr now prot => exact hfind (cacheFindByAddr_sweeps _ crecp addr now prot)
  | reload input => exact h.reload hsound.shape hsound.settled input
  | unhashDhcp => exact (h.unhashDhcp hsound.shape).settle
  | addDhcpEntry hostName v6 addr ttd =>
    exact h.addDhcpEntry hsound.shape hsound.settled hostName v6 addr ttd hspares

theorem reclaimable_cacheInit (memory : Addr → Crec) :
    Reclaimable env (cacheInit env memory) false := by
  have hsound := sound_cacheInit env memory
  have hfree : ∀ p < env.cachesize, ¬ InUse ((cacheInit env memory).flags p) := by
    intro p hlt hused
    obtain ⟨i, hi⟩ := hsound.shape.holds_of_inUse hsound.settled hlt (by simp [firstGhost]) hused
    exact absurd hi (by simp [firstGhost])
  exact ⟨fun _ _ p hlt hused ↦ absurd hused (hfree p hlt), fun p hlt hused ↦
    absurd hused (hfree p hlt)⟩

end Runs

/-- After any sequence of calls as the program makes them, in which no lease that ends was added
while the name of a CNAME for it was cached, an insertion gets a record. -/
theorem reclaims_of_reachable {state : Session × Bool}
    (hreach : Reachable (batchSystem env)
      (fun state call ↦ call.Made state.2 ∧ call.SparesAliases env state.1.cache) state) :
    Reclaims env state.1.cache := by
  have hinv := Reachable.invariant
    (fun state ↦ (∃ g, Sound env state.1.cache state.1.cpp g) ∧
      Reclaimable env state.1.cache state.2) ?_ ?_ hreach
  · obtain ⟨⟨g, hsound⟩, hreclaimable⟩ := hinv
    exact hreclaimable.reclaims hsound.shape hsound.settled
  · rintro ⟨_, running⟩ ⟨⟨memory, rfl⟩, rfl⟩
    exact ⟨⟨_, sound_cacheInit env memory⟩, reclaimable_cacheInit memory⟩
  · rintro ⟨session, running⟩ call ⟨_, running'⟩ - ⟨⟨g, hsound⟩, hreclaimable⟩ ⟨hmade,
      hspares⟩ ⟨rfl, rfl⟩
    exact ⟨hsound.call call hmade.proper, hreclaimable.call hsound call hmade hspares⟩

def batchRun (env : Env) : Session × Bool → List Call → Session × Bool :=
  List.foldl fun state call ↦ (state.1.call env call, call.running state.2)

def AllowedRun (env : Env) (allowed : Session × Bool → Call → Prop) :
    Session × Bool → List Call → Prop
  | _, [] => True
  | state, call :: calls =>
    allowed state call ∧ AllowedRun env allowed (state.1.call env call, call.running state.2) calls

theorem reachable_batchRun {allowed : Session × Bool → Call → Prop} (calls : List Call) :
    ∀ {state : Session × Bool}, Reachable (batchSystem env) allowed state →
      AllowedRun env allowed state calls →
      Reachable (batchSystem env) allowed (batchRun env state calls) := by
  induction calls with
  | nil => exact fun hreach _ ↦ hreach
  | cons call calls ih =>
    exact fun hreach hall ↦ ih (Reachable.step hreach hall.1 ⟨rfl, rfl⟩) hall.2

/-- A cache with one record, and a CNAME `a` for the host `h`. -/
def aliasEnv : Env where
  cachesize := 1
  maxCacheTtl := 0
  cnames := [⟨[97], [104]⟩]
  optExpand := false
  packetBuffSz := 4096
  mixTab := fun _ ↦ 0
  clobber := id
  malloc := fun count ↦ some (1 + count, default)

def aliasStart : Session × Bool := (⟨cacheInit aliasEnv default, none, [], false⟩, false)

/-- A lease for `h`, and a reply with the address of `b`. -/
def leaseThenReply : List Call :=
  [.addDhcpEntry [104] false [10, 0, 0, 2] 1000, .startInsert,
    .insertTarget (some [98]) (some [10, 0, 0, 1]) 0 60 {.ipv4, .forward}, .endInsert]

theorem reclaims_of_reachable_lease :
    Reclaims aliasEnv (batchRun aliasEnv aliasStart leaseThenReply).1.cache := by
  refine reclaims_of_reachable (reachable_batchRun leaseThenReply (.start ⟨⟨default, rfl⟩, rfl⟩) ?_)
  refine ⟨⟨⟨trivial, trivial, trivial⟩, .inr fun p hp ↦ ?_⟩, ⟨⟨trivial, trivial, trivial⟩, trivial⟩,
    ⟨⟨⟨by decide, by decide⟩, (by decide : Meets _ _), rfl⟩, trivial⟩,
     ⟨⟨trivial, trivial, rfl⟩, trivial⟩, trivial⟩
  -- nothing is in the table yet
  obtain ⟨i, hi⟩ := (sound_cacheInit aliasEnv default).shape.inTable_iff.mp hp
  exact absurd hi (by simp [firstGhost])

/-- A reply with the address of `a`, a lease for `h`, and the start of another reply. -/
def replyThenLease : List Call :=
  [.startInsert, .insertTarget (some [97]) (some [10, 0, 0, 1]) 0 60 {.ipv4, .forward}, .endInsert,
    .addDhcpEntry [104] false [10, 0, 0, 2] 1000, .startInsert]

/-- The calls are those of the program, and an insertion finds no record: the scan for the record of
`a`, which is the last one, stops at the CNAME of the lease. -/
theorem not_reclaims_alias :
    Reachable (batchSystem aliasEnv) (fun state call ↦ call.Made state.2)
        (batchRun aliasEnv aliasStart replyThenLease) ∧
      ¬ Reclaims aliasEnv (batchRun aliasEnv aliasStart replyThenLease).1.cache := by
  refine ⟨reachable_batchRun replyThenLease (.start ⟨⟨default, rfl⟩, rfl⟩) ?_, fun hreclaims ↦ ?_⟩
  · exact ⟨⟨trivial, trivial, trivial⟩, ⟨⟨by decide, by decide⟩, (by decide : Meets _ _), rfl⟩,
      ⟨trivial, trivial, rfl⟩, ⟨trivial, trivial, trivial⟩, ⟨trivial, trivial, trivial⟩, trivial⟩
  · have hroom : ¬ OnNewChain (batchRun aliasEnv aliasStart replyThenLease).1.cache 0 := by
      rintro ⟨nodes, hhead, -, hmem⟩
      rw [show (batchRun aliasEnv aliasStart replyThenLease).1.cache.newChain = none by
        decide +kernel] at hhead
      rw [List.head?_eq_none_iff.mp hhead.symm] at hmem
      exact absurd hmem List.not_mem_nil
    obtain ⟨⟨new, hfound⟩, -⟩ :=
      hreclaims ⟨0, by decide, hroom⟩ (by decide +kernel) (some [98]) (some [10, 0, 0, 3]) 0
      {.ipv4, .forward} (by decide +kernel)
    have habandoned :
      (grabRun aliasEnv 0 3 (decide (Flag.reverse ∈ ({.ipv4, .forward} : Flags))) false
        (cacheScanFree aliasEnv (batchRun aliasEnv aliasStart replyThenLease).1.cache
          ⟨(some [98]).getD [], none⟩
          ((some [10, 0, 0, 3]).getD []) 0 {.ipv4, .forward}).1).1 = .abandoned := by decide +kernel
    exact absurd (hfound.symm.trans habandoned) (by simp)

end CrossBreeder.Dnsmasq
