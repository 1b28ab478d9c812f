import CrossBreeder.Dnsmasq.LocalSteps

/-!
# Where CNAMEs lead

A CNAME has the address of another record and the number that this record had when the link was
made. The link is alive while the record has that number. `PoolLinks` says that a live link of a
record of the pool leads to the use of a record that it was made for, and `FreshLinks` that live
links of a batch stay inside the batch. Links of CNAMEs of the configuration are always alive, and
`LocalLinks` says that the records they lead to are not freed, reused or written to.
-/

namespace CrossBreeder.Dnsmasq

open Foundation

variable {env : Env}

/-! ### Links of the pool -/

/-- The record has the number that it had when the CNAME was linked to it. -/
def Alive (s : Cache) (crecp target : Addr) : Prop := (s.crec crecp).cnameUid = (s.crec target).uid

/-- If the link is alive, the record is in the use, and has the name, that it had when the link was
made. -/
def SoundLink (s : Cache) (crecp target : Addr) : Prop :=
  Alive s crecp target → (s.crec target).serial = (s.crec crecp).linkedSerial ∧
    s.name target = (s.crec crecp).linkedName ∧ InUse (s.flags target)

structure PoolCname (env : Env) (s : Cache) (crecp target : Addr) : Prop where
  lt : crecp < env.cachesize
  used : InUse (s.flags crecp)
  cname : .cname ∈ s.flags crecp
  link : (s.crec crecp).cnameCache = some target

structure PoolBounds (env : Env) (s : Cache) : Prop where
  uid : ∀ crecp < env.cachesize, (s.crec crecp).uid < s.uid
  link : ∀ {crecp target : Addr}, PoolCname env s crecp target →
    target < env.cachesize ∧ (s.crec crecp).cnameUid < s.uid

def PoolLinks (env : Env) (s : Cache) : Prop :=
  ∀ crecp target : Addr, PoolCname env s crecp target → SoundLink s crecp target

/-- Live links of a batch are sound and lead to records of the batch. -/
def FreshLinks (env : Env) (s : Cache) (g : Ghost) : Prop :=
  ∀ crecp target : Addr, PoolCname env s crecp target → crecp ∈ g.fresh →
    SoundLink s crecp target ∧ (Alive s crecp target → target ∈ g.fresh)

section Congr

variable {s s' : Cache} {crecp target : Addr}

theorem PoolCname.congr (hcrec : s'.crec crecp = s.crec crecp) (h : PoolCname env s' crecp target) :
    PoolCname env s crecp target := by
  obtain ⟨hlt, hused, hcname, hlink⟩ := h
  unfold Cache.flags at hused hcname
  rw [hcrec] at hused hcname hlink
  exact ⟨hlt, hused, hcname, hlink⟩

theorem alive_congr (hcrec : s'.crec crecp = s.crec crecp)
    (htarget : s'.crec target = s.crec target) : Alive s' crecp target ↔ Alive s crecp target := by
  unfold Alive
  rw [hcrec, htarget]

theorem SoundLink.congr (hcrec : s'.crec crecp = s.crec crecp)
    (htarget : s'.crec target = s.crec target) (h : SoundLink s crecp target) :
    SoundLink s' crecp target := by
  unfold SoundLink Alive Cache.name Cache.flags at h ⊢
  rw [hcrec, htarget]
  exact h

end Congr

/-! ### Steps and the pool -/

variable {s : Cache} {crecp record target : Addr} {before after : Cache × Ghost}

variable {crecp record : Addr}

variable {kind : Kind}

section Pool

variable {s s' : Cache} {g g' : Ghost}

theorem PoolBounds.congr (h : PoolBounds env s)
    (hcrec : ∀ crecp < env.cachesize, s'.crec crecp = s.crec crecp)
    (huid : s.uid ≤ s'.uid) : PoolBounds env s' := by
  refine ⟨fun crecp hlt ↦ ?_, fun {crecp target} hcname ↦ ?_⟩
  · rw [hcrec crecp hlt]
    exact Nat.lt_of_lt_of_le (h.uid crecp hlt) huid
  · have hold := h.link (hcname.congr (hcrec crecp hcname.lt))
    rw [hcrec crecp hcname.lt]
    exact ⟨hold.1, Nat.lt_of_lt_of_le hold.2 huid⟩

theorem PoolLinks.congr (hbounds : PoolBounds env s) (h : PoolLinks env s)
    (hcrec : ∀ crecp < env.cachesize, s'.crec crecp = s.crec crecp) : PoolLinks env s' := by
  intro crecp target hcname
  have hold := hcname.congr (hcrec crecp hcname.lt)
  exact (h _ _ hold).congr (hcrec crecp hcname.lt) (hcrec target (hbounds.link hold).1)

theorem FreshLinks.congr (hbounds : PoolBounds env s) (h : FreshLinks env s g)
    (hcrec : ∀ crecp < env.cachesize, s'.crec crecp = s.crec crecp) (hfresh : g'.fresh = g.fresh) :
    FreshLinks env s' g' := by
  intro crecp target hcname hmem
  rw [hfresh] at hmem ⊢
  have hold := hcname.congr (hcrec crecp hcname.lt)
  have htarget := hcrec target (hbounds.link hold).1
  obtain ⟨hsound, hinside⟩ := h _ _ hold hmem
  exact ⟨hsound.congr (hcrec crecp hcname.lt) htarget,
    fun halive ↦ hinside ((alive_congr (hcrec crecp hcname.lt) htarget).mp halive)⟩

theorem uid_cacheFree (s : Cache) (crecp : Addr) : (cacheFree s crecp).uid = s.uid + 1 := by
  unfold cacheFree
  dsimp only
  split_ifs <;> rfl

theorem crec_cacheFree_of_ne (s : Cache) (hne : record ≠ crecp) :
    (cacheFree s crecp).crec record = s.crec record := by
  rw [Shape.crec_cacheFree, Function.update_of_ne hne]

theorem not_inUse_cacheFree (s : Cache) (crecp : Addr) :
    ¬ InUse ((cacheFree s crecp).flags crecp) := by
  rw [Cache.flags, Shape.crec_cacheFree, Function.update_self, inUse_iff]
  simp [Shape.freedContents]

theorem crec_linkCname_of_ne (s : Cache) {cpp newc record : Addr} (hne : record ≠ cpp) :
    (linkCname s cpp newc).crec record = s.crec record :=
  Function.update_of_ne hne _ _

theorem crec_linkCname_self (s : Cache) (cpp newc : Addr) :
    (linkCname s cpp newc).crec cpp =
      { s.crec cpp with
        cnameCache := some newc
        cnameUid := (s.crec newc).uid
        linkedSerial := (s.crec newc).serial
        linkedName := (s.crec newc).name } :=
  Function.update_self _ _ _

theorem SoundLink.linkCname {cpp newc crecp target : Addr} (hne : crecp ≠ cpp)
    (h : SoundLink s crecp target) : SoundLink (linkCname s cpp newc) crecp target := by
  by_cases htarget : target = cpp
  · subst htarget
    unfold SoundLink Alive Cache.name Cache.flags at h ⊢
    rw [crec_linkCname_of_ne s hne, crec_linkCname_self]
    exact h
  · exact h.congr (crec_linkCname_of_ne s hne) (crec_linkCname_of_ne s htarget)

theorem crec_wipe_of_ne (s : Cache) (hne : record ≠ crecp) :
    ((s.modify crecp fun crec ↦ { crec with flags := ∅ }).renew crecp).crec record =
    s.crec record := by
  rw [modify_renew]
  exact Function.update_of_ne hne _ _

theorem crec_wipe_self (s : Cache) (crecp : Addr) :
    ((s.modify crecp fun crec ↦ { crec with flags := ∅ }).renew crecp).crec crecp =
      { s.crec crecp with flags := ∅, serial := s.serials } := by
  rw [modify_renew]
  exact Function.update_self _ _ _

theorem crec_update_of_le {crecp : Addr} (hle : env.cachesize ≤ crecp) (s : Cache)
    (contents : Crec) :
    ∀ record < env.cachesize, Function.update s.crec crecp contents record = s.crec record :=
  fun _ hlt ↦ Function.update_of_ne (Nat.lt_of_lt_of_le hlt hle).ne _ _

theorem Shape.le_of_notMem_live {g : Ghost} (h : Shape env s g) {crecp : Addr}
    (hnew : crecp ∉ s.live) : env.cachesize ≤ crecp := by
  by_contra hlt
  exact hnew (h.poolLive crecp (Nat.lt_of_not_le hlt))

theorem PoolCname.of_cacheFree
    (h : PoolCname env (cacheFree s crecp) record target) :
    record ≠ crecp ∧ PoolCname env s record target := by
  have hne : record ≠ crecp := by
    rintro rfl
    exact not_inUse_cacheFree s record h.used
  exact ⟨hne, h.congr (crec_cacheFree_of_ne s hne)⟩

theorem PoolCname.of_fillState {contents : Crec}
    (hnone : .cname ∈ contents.flags → contents.cnameCache = none)
    (h : PoolCname env (fillState s crecp contents) record target) :
    record ≠ crecp ∧ PoolCname env s record target := by
  have hne : record ≠ crecp := by
    rintro rfl
    have hsame : (fillState s record contents).crec record = contents := Function.update_self _ _ _
    have hlink := h.link
    have hflag := h.cname
    unfold Cache.flags at hflag
    rw [hsame] at hlink hflag
    rw [hnone hflag] at hlink
    exact absurd hlink (by simp)
  exact ⟨hne, h.congr (Function.update_of_ne hne _ _)⟩

theorem PoolCname.of_wipe
    (h : PoolCname env ((s.modify crecp fun crec ↦ { crec with flags := ∅ }).renew crecp)
    record target) : record ≠ crecp ∧ PoolCname env s record target := by
  have hne : record ≠ crecp := by
    rintro rfl
    have hused := h.used
    unfold Cache.flags at hused
    rw [crec_wipe_self] at hused
    exact absurd hused (by simp [inUse_iff])
  exact ⟨hne, h.congr (crec_wipe_of_ne s hne)⟩

theorem PoolBounds.step (hstep : Step env kind before after)
    (hshape : Shape env before.1 before.2) (h : PoolBounds env before.1) :
    PoolBounds env after.1 := by
  cases hstep with
  | @free s g crecp rest _ _ =>
    refine ⟨fun record hlt ↦ ?_, fun {record target} hcname ↦ ?_⟩
    · dsimp only
      rw [uid_cacheFree]
      by_cases heq : record = crecp
      · rw [heq, Shape.crec_cacheFree, Function.update_self]
        exact Nat.lt_succ_self s.uid
      · rw [crec_cacheFree_of_ne s heq]
        exact Nat.lt_succ_of_lt (h.uid record hlt)
    · obtain ⟨hne, hbefore⟩ := PoolCname.of_cacheFree hcname
      rw [uid_cacheFree, crec_cacheFree_of_ne s hne]
      exact ⟨(h.link hbefore).1, Nat.lt_succ_of_lt (h.link hbefore).2⟩
  | @fill s g crecp rest contents _ _ _ _ _ huid _ hnone =>
    refine ⟨fun record hlt ↦ ?_, fun {record target} hcname ↦ ?_⟩
    · dsimp only
      by_cases heq : record = crecp
      · rw [heq, Function.update_self, huid]
        exact h.uid crecp (heq ▸ hlt)
      · rw [Function.update_of_ne heq]
        exact h.uid record hlt
    · obtain ⟨hne, hbefore⟩ := PoolCname.of_fillState hnone hcname
      dsimp only
      rw [Function.update_of_ne hne]
      exact h.link hbefore
  | @linkCname s g cpp newc _ hnewc =>
    have hlt := hshape.lt_of_mem_fresh hnewc
    refine ⟨fun record hrecord ↦ ?_, fun {record target} hcname ↦ ?_⟩
    · show ((Dnsmasq.linkCname s cpp newc).crec record).uid < s.uid
      by_cases heq : record = cpp
      · rw [heq, crec_linkCname_self]
        exact h.uid cpp (heq ▸ hrecord)
      · rw [crec_linkCname_of_ne s heq]
        exact h.uid record hrecord
    · show target < env.cachesize ∧ ((Dnsmasq.linkCname s cpp newc).crec record).cnameUid < s.uid
      by_cases heq : record = cpp
      · have hlink := hcname.link
        rw [heq, crec_linkCname_self] at hlink
        obtain rfl : newc = target := Option.some.inj hlink
        rw [heq, crec_linkCname_self]
        exact ⟨hlt, h.uid newc hlt⟩
      · rw [crec_linkCname_of_ne s heq]
        exact h.link (hcname.congr (crec_linkCname_of_ne s heq))
  | @wipe s g crecp _ _ =>
    refine ⟨fun record hlt ↦ ?_, fun {record target} hcname ↦ ?_⟩
    · show (((s.modify crecp fun crec ↦ { crec with flags := ∅ }).renew crecp).crec record).uid <
        s.uid
      by_cases heq : record = crecp
      · rw [heq, crec_wipe_self]
        exact h.uid crecp (heq ▸ hlt)
      · rw [crec_wipe_of_ne s heq]
        exact h.uid record hlt
    · obtain ⟨hne, hbefore⟩ := PoolCname.of_wipe hcname
      show target < env.cachesize ∧
        (((s.modify crecp fun crec ↦ { crec with flags := ∅ }).renew crecp).crec record).cnameUid <
          s.uid
      rw [crec_wipe_of_ne s hne]
      exact h.link hbefore
  | @hold s g crecp hnew contents mallocs =>
    exact h.congr (crec_update_of_le (hshape.le_of_notMem_live hnew) s contents) (Nat.le_refl _)
  | @writeHeld s g crecp hheld contents _ _ =>
    exact h.congr (crec_update_of_le (hshape.le_of_mem_held hheld) s contents) (Nat.le_refl _)
  | counters _ _ _ _ huid => exact h.congr (fun _ _ ↦ rfl) huid
  | _ => exact h.congr (fun _ _ ↦ rfl) (Nat.le_refl _)

theorem not_alive_cacheFree (hbounds : PoolBounds env s)
    (hne : record ≠ crecp) (hcname : PoolCname env s record crecp) :
    ¬ Alive (cacheFree s crecp) record crecp := by
  intro halive
  unfold Alive at halive
  rw [crec_cacheFree_of_ne s hne, Shape.crec_cacheFree, Function.update_self] at halive
  have hlt := (hbounds.link hcname).2
  rw [halive] at hlt
  exact absurd hlt (Nat.lt_irrefl _)

theorem SoundLink.cacheFree (hbounds : PoolBounds env s)
    (hne : record ≠ crecp) (hcname : PoolCname env s record target)
    (h : SoundLink s record target) : SoundLink (cacheFree s crecp) record target := by
  by_cases htarget : target = crecp
  · subst htarget
    exact fun halive ↦ absurd halive (not_alive_cacheFree hbounds hne hcname)
  · exact h.congr (crec_cacheFree_of_ne s hne) (crec_cacheFree_of_ne s htarget)

theorem not_alive_fillState {contents : Crec} (hne : record ≠ crecp)
    (h : SoundLink s record crecp) (hfree : ¬ InUse (s.flags crecp))
    (huid : contents.uid = (s.crec crecp).uid) :
    ¬ Alive (fillState s crecp contents) record crecp := by
  intro halive
  have hbefore : Alive s record crecp := by
    unfold Alive fillState at halive
    dsimp only at halive
    rw [Function.update_self, Function.update_of_ne hne, huid] at halive
    exact halive
  exact hfree (h hbefore).2.2

theorem SoundLink.fillState {contents : Crec} (hne : record ≠ crecp)
    (h : SoundLink s record target) (hfree : ¬ InUse (s.flags crecp))
    (huid : contents.uid = (s.crec crecp).uid) :
    SoundLink (fillState s crecp contents) record target := by
  by_cases htarget : target = crecp
  · subst htarget
    exact fun halive ↦ absurd halive (not_alive_fillState hne h hfree huid)
  · exact h.congr (Function.update_of_ne hne _ _) (Function.update_of_ne htarget _ _)

theorem soundLink_linkCname_self {cpp newc : Addr} (hused : InUse (s.flags newc)) :
    SoundLink (linkCname s cpp newc) cpp newc := by
  intro _
  have hsame : ((linkCname s cpp newc).crec newc).serial = (s.crec newc).serial ∧
      ((linkCname s cpp newc).crec newc).name = (s.crec newc).name ∧
      ((linkCname s cpp newc).crec newc).flags = (s.crec newc).flags := by
    by_cases heq : newc = cpp
    · rw [heq, crec_linkCname_self]
      exact ⟨rfl, rfl, rfl⟩
    · rw [crec_linkCname_of_ne s heq]
      exact ⟨rfl, rfl, rfl⟩
  unfold Cache.name Cache.flags
  rw [hsame.1, hsame.2.1, hsame.2.2, crec_linkCname_self]
  exact ⟨rfl, rfl, hused⟩

theorem PoolLinks.step (hstep : Step env kind before after)
    (hshape : Shape env before.1 before.2) (hbounds : PoolBounds env before.1)
    (h : PoolLinks env before.1) (hkind : kind ≠ .wipe) : PoolLinks env after.1 := by
  cases hstep with
  | @free s g crecp rest _ _ =>
    intro record target hcname
    obtain ⟨hne, hbefore⟩ := PoolCname.of_cacheFree hcname
    exact (h _ _ hbefore).cacheFree hbounds hne hbefore
  | @fill s g crecp rest contents _ _ hfree _ _ huid _ hnone =>
    intro record target hcname
    obtain ⟨hne, hbefore⟩ := PoolCname.of_fillState hnone hcname
    exact (h _ _ hbefore).fillState hne hfree huid
  | @linkCname s g cpp newc _ hnewc =>
    intro record target hcname
    by_cases heq : record = cpp
    · have hlink := hcname.link
      rw [heq, crec_linkCname_self] at hlink
      obtain rfl : newc = target := Option.some.inj hlink
      rw [heq]
      exact soundLink_linkCname_self (hshape.freshUse newc hnewc)
    · exact (h _ _ (hcname.congr (crec_linkCname_of_ne s heq))).linkCname heq
  | wipe _ _ => exact absurd rfl hkind
  | @hold s g crecp hnew contents mallocs =>
    exact PoolLinks.congr hbounds h (crec_update_of_le (hshape.le_of_notMem_live hnew) s contents)
  | @writeHeld s g crecp hheld contents _ _ =>
    exact PoolLinks.congr hbounds h (crec_update_of_le (hshape.le_of_mem_held hheld) s contents)
  | _ => exact PoolLinks.congr hbounds h fun _ _ ↦ rfl

/-- Every step but the one that takes a record off the new chain keeps the live links of a batch
inside it. -/
theorem FreshLinks.step (hstep : Step env kind before after)
    (hshape : Shape env before.1 before.2) (hbounds : PoolBounds env before.1)
    (h : FreshLinks env before.1 before.2) (hkind : kind ≠ .pop) :
    FreshLinks env after.1 after.2 := by
  cases hstep with
  | @free s g crecp rest hloose _ =>
    intro record target hcname hmem
    obtain ⟨hne, hbefore⟩ := PoolCname.of_cacheFree hcname
    obtain ⟨hsound, hinside⟩ := h _ _ hbefore hmem
    refine ⟨hsound.cacheFree hbounds hne hbefore, fun halive ↦ ?_⟩
    by_cases htarget : target = crecp
    · subst htarget
      exact absurd halive (not_alive_cacheFree hbounds hne hbefore)
    · exact hinside
        ((alive_congr (crec_cacheFree_of_ne s hne) (crec_cacheFree_of_ne s htarget)).mp halive)
  | @fill s g crecp rest contents _ _ hfree _ _ huid _ hnone =>
    intro record target hcname hmem
    obtain ⟨hne, hbefore⟩ := PoolCname.of_fillState hnone hcname
    obtain ⟨hsound, hinside⟩ := h _ _ hbefore ((List.mem_cons.mp hmem).resolve_left hne)
    refine ⟨hsound.fillState hne hfree huid, fun halive ↦ List.mem_cons_of_mem _ ?_⟩
    by_cases htarget : target = crecp
    · subst htarget
      exact absurd halive (not_alive_fillState hne hsound hfree huid)
    · have hiff : Alive (Dnsmasq.fillState s crecp contents) record target ↔
        Alive s record target :=
        alive_congr (Function.update_of_ne hne _ _) (Function.update_of_ne htarget _ _)
      exact hinside (hiff.mp halive)
  | @linkCname s g cpp newc _ hnewc =>
    intro record target hcname hmem
    by_cases heq : record = cpp
    · have hlink := hcname.link
      rw [heq, crec_linkCname_self] at hlink
      obtain rfl : newc = target := Option.some.inj hlink
      rw [heq]
      exact ⟨soundLink_linkCname_self (hshape.freshUse newc hnewc), fun _ ↦ hnewc⟩
    · obtain ⟨hsound, hinside⟩ := h _ _ (hcname.congr (crec_linkCname_of_ne s heq)) hmem
      refine ⟨hsound.linkCname heq, fun halive ↦ hinside ?_⟩
      unfold Alive at halive ⊢
      rw [crec_linkCname_of_ne s heq] at halive
      rw [halive]
      by_cases htarget : target = cpp
      · rw [htarget, crec_linkCname_self]
      · rw [crec_linkCname_of_ne s htarget]
  | @wipe s g crecp hlru _ =>
    intro record target hcname hmem
    obtain ⟨hne, hbefore⟩ := PoolCname.of_wipe hcname
    obtain ⟨hsound, hinside⟩ := h _ _ hbefore hmem
    -- a record of the LRU list is given up, and live links stay in the batch
    have halive_iff : Alive ((s.modify crecp fun crec ↦ { crec with flags := ∅ }).renew crecp)
      record target →
        Alive s record target := by
      intro halive
      unfold Alive at halive ⊢
      rw [crec_wipe_of_ne s hne] at halive
      rw [halive]
      by_cases htarget : target = crecp
      · rw [htarget, crec_wipe_self]
      · rw [crec_wipe_of_ne s htarget]
    refine ⟨fun halive ↦ ?_, fun halive ↦ hinside (halive_iff halive)⟩
    have htarget : target ≠ crecp := by
      rintro rfl
      exact hshape.notMem_fresh_of_lru hlru (hinside (halive_iff halive))
    exact hsound.congr (crec_wipe_of_ne s hne) (crec_wipe_of_ne s htarget) halive
  | pop _ => exact absurd rfl hkind
  | @hold s g crecp hnew contents mallocs =>
    exact FreshLinks.congr hbounds h (crec_update_of_le (hshape.le_of_notMem_live hnew) s contents)
      rfl
  | @writeHeld s g crecp hheld contents _ _ =>
    exact FreshLinks.congr hbounds h (crec_update_of_le (hshape.le_of_mem_held hheld) s contents)
      rfl
  | _ => exact FreshLinks.congr hbounds h (fun _ _ ↦ rfl) rfl

end Pool

/-! ### CNAMEs of the configuration -/

/-- A CNAME of the configuration leads to a record outside the pool that is allocated and neither
spare nor in hand, with the number, the use and the name that it had when the link was made. -/
def LocalLink (env : Env) (s : Cache) (g : Ghost) (crecp : Addr) : Prop :=
  ∃ target, (s.crec crecp).cnameCache = some target ∧ env.cachesize ≤ target ∧ target ∈ s.live ∧
    target ∉ g.spare ∧ target ∉ g.held ∧ Alive s crecp target ∧
    (s.crec target).serial = (s.crec crecp).linkedSerial ∧
      s.name target = (s.crec crecp).linkedName ∧
    InUse (s.flags target) ∧ s.flags crecp ∩ localFlags = s.flags target ∩ localFlags

/-- The CNAMEs of the configuration in the table whose flags have a property lead where they should.
-/
def LocalLinks (env : Env) (s : Cache) (g : Ghost) (among : Flags → Prop) : Prop :=
  ∀ i, ∀ crecp ∈ g.chain i, env.cachesize ≤ crecp → .cname ∈ s.flags crecp → among (s.flags crecp) →
    LocalLink env s g crecp

/-- A record outside the pool that links of CNAMEs with the given flags may lead to. -/
structure Linkable (env : Env) (s : Cache) (g : Ghost) (flags : Flags) (target : Addr) : Prop where
  outside : env.cachesize ≤ target
  live : target ∈ s.live
  spare : target ∉ g.spare
  held : target ∉ g.held
  kind : flags ∩ localFlags = s.flags target ∩ localFlags

variable {s s' : Cache}

variable {g g' : Ghost}

variable {among : Flags → Prop}

theorem LocalLinks.congr
    (h : LocalLinks env s g among)
    (hmem : ∀ crecp, (∃ i, crecp ∈ g'.chain i) → ∃ i, crecp ∈ g.chain i)
    (hcrec : ∀ crecp, (∃ i, crecp ∈ g.chain i) → env.cachesize ≤ crecp →
      s'.crec crecp = s.crec crecp)
    (htarget : ∀ flags target, among flags → Linkable env s g flags target →
      s'.crec target = s.crec target ∧ target ∈ s'.live ∧ target ∉ g'.spare ∧ target ∉ g'.held) :
    LocalLinks env s' g' among := by
  intro i crecp hi hle hcname hamong
  obtain ⟨j, hj⟩ := hmem crecp ⟨i, hi⟩
  have hsame := hcrec crecp ⟨j, hj⟩ hle
  unfold Cache.flags at hcname hamong
  rw [hsame] at hcname hamong
  obtain ⟨target, hlink, houtside, hlive, hspare, hheld, halive, hserial, hname, hused, hkind⟩ :=
    h j crecp hj hle hcname hamong
  obtain ⟨hsameTarget, hlive', hspare', hheld'⟩ :=
    htarget _ target hamong ⟨houtside, hlive, hspare, hheld, hkind⟩
  refine ⟨target, by rw [hsame]; exact hlink, houtside, hlive', hspare', hheld',
    (alive_congr hsame hsameTarget).mpr halive, by
      rw [hsame, hsameTarget]; exact hserial, ?_, ?_, ?_⟩
  · unfold Cache.name
    rw [hsame, hsameTarget]
    exact hname
  · unfold Cache.flags
    rw [hsameTarget]
    exact hused
  · unfold Cache.flags
    rw [hsame, hsameTarget]
    exact hkind

theorem LinkedNow.localLink {g : Ghost} {crecp target : Addr} (hshape : Shape env s g)
    (h : LinkedNow env s g crecp target) : LocalLink env s g crecp := by
  obtain ⟨i, hi⟩ := h.hashed
  have hmember := hshape.member i target hi
  exact ⟨target, h.cache, h.outside, hmember.live, hmember.apart.2.1, hmember.apart.2.2, h.uid,
    h.serial.symm, h.name.symm, hmember.used, h.kind⟩

/-- Which steps leave the links of CNAMEs alone that have a property: those of hosts files may be
freed if no CNAME with the property is one, and those of leases may become spare likewise. -/
def Spares (among : Flags → Prop) (kind : Kind) : Prop :=
  (kind = .release → ∀ flags, among flags → .hosts ∉ flags) ∧
    (kind = .retire → ∀ flags, among flags → .dhcp ∉ flags)

theorem live_cacheFree (s : Cache) (crecp : Addr) : (cacheFree s crecp).live = s.live := by
  unfold cacheFree
  dsimp only
  split_ifs <;> rfl

theorem mem_of_mem_update {chain : ℕ → List Addr} {i j : ℕ} {nodes : List Addr} {record : Addr}
    (hsub : ∀ other ∈ nodes, other ∈ chain i) (hmem : record ∈ Function.update chain i nodes j) :
    record ∈ chain j := by
  by_cases hji : j = i
  · rw [hji, Function.update_self] at hmem
    rw [hji]
    exact hsub record hmem
  · rw [Function.update_of_ne hji] at hmem
    exact hmem

theorem LocalLinks.step
    (hstep : Step env kind before after) (hshape : Shape env before.1 before.2)
    (h : LocalLinks env before.1 before.2 among) (hkind : Spares among kind) :
    LocalLinks env after.1 after.2 among := by
  have hmem_of_flag : ∀ {left right : Flags} {flag : Flag}, flag ∈ localFlags → flag ∈ right →
      left ∩ localFlags = right ∩ localFlags → flag ∈ left := by
    intro left right flag hlocal hright heq
    have hboth : flag ∈ right ∩ localFlags := Finset.mem_inter.mpr ⟨hright, hlocal⟩
    rw [← heq] at hboth
    exact (Finset.mem_inter.mp hboth).1
  have hwritten := fun (hne : kind ≠ .write) (crecp : Addr) (hle : env.cachesize ≤ crecp) ↦
    hstep.crec_outside hshape hne hle
  cases hstep with
  | @drop s g crecp i front back hchain =>
    refine h.congr ?_ (fun _ _ _ ↦ rfl) fun _ _ _ htarget ↦
      ⟨rfl, htarget.live, htarget.spare, htarget.held⟩
    rintro record ⟨j, hj⟩
    refine ⟨j, mem_of_mem_update (fun other hother ↦ ?_) hj⟩
    rw [hchain]
    simp only [List.mem_append, List.mem_cons] at hother ⊢
    grind
  | @hash s g crecp i front back hi hchain hplace hfront hback hout hused hlive hlocal
    hapart hlinked =>
    have hother : ∀ j record, record ∈ g.chain j → env.cachesize ≤ record →
      .cname ∈ s.flags record →
        among (s.flags record) → LocalLink env s g record := h
    intro j record hj hle hcname hamong
    have hold : LocalLink env s g record := by
      rcases (mem_update_insert hchain crecp record j).mp hj with hmem | ⟨rfl, -⟩
      · exact hother j record hmem hle hcname hamong
      · obtain ⟨target, htarget⟩ := hlinked hle hcname
        exact htarget.localLink hshape
    obtain ⟨target, hlink, houtside, htlive, hspare, hheld, hrest⟩ := hold
    exact ⟨target, hlink, houtside, htlive, hspare,
      fun hmem ↦ hheld (List.mem_filter.mp hmem).1, hrest⟩
  | @move s g crecp i front middle back place up hchain _ _ _ =>
    refine h.congr ?_ (fun _ _ _ ↦ rfl) fun _ _ _ htarget ↦
      ⟨rfl, htarget.live, htarget.spare, htarget.held⟩
    rintro record ⟨j, hj⟩
    refine ⟨j, mem_of_mem_update (fun other hother ↦ ?_) hj⟩
    rw [hchain]
    simp only [List.mem_append, List.mem_cons] at hother ⊢
    grind
  | @hold s g crecp hnew contents mallocs =>
    refine h.congr (fun _ hrecord ↦ hrecord) ?_ ?_
    · rintro record ⟨i, hi⟩ _
      refine Function.update_of_ne ?_ _ _
      rintro rfl
      exact hnew (hshape.member i record hi).live
    · intro _ target _ htarget
      have hne : target ≠ crecp := ne_of_mem_of_not_mem htarget.live hnew
      exact ⟨Function.update_of_ne hne _ _, Finset.mem_insert_of_mem htarget.live, htarget.spare,
        by simpa [hne] using htarget.held⟩
  | @holdSpare s g crecp rest hspare =>
    refine h.congr (fun _ hrecord ↦ hrecord) (fun _ _ _ ↦ rfl) ?_
    intro _ target _ htarget
    have hnot := htarget.spare
    rw [hspare] at hnot
    simp only [List.mem_cons, not_or] at hnot
    exact ⟨rfl, htarget.live, hnot.2, by simpa [hnot.1] using htarget.held⟩
  | @writeHeld s g crecp hheld contents serials _ =>
    refine h.congr (fun _ hrecord ↦ hrecord) ?_ ?_
    · rintro record ⟨i, hi⟩ _
      refine Function.update_of_ne ?_ _ _
      rintro rfl
      exact hshape.out_of_held hheld i hi
    · intro _ target _ htarget
      exact ⟨Function.update_of_ne (ne_of_mem_of_not_mem hheld htarget.held).symm _ _, htarget.live,
        htarget.spare, htarget.held⟩
  | @discard s g crecp hheld =>
    refine h.congr (fun _ hrecord ↦ hrecord) (fun _ _ _ ↦ rfl) ?_
    intro _ target _ htarget
    exact ⟨rfl, Finset.mem_erase.mpr ⟨(ne_of_mem_of_not_mem hheld htarget.held).symm, htarget.live⟩,
      htarget.spare, fun hmem ↦ htarget.held (List.mem_filter.mp hmem).1⟩
  | @release s g crecp _ _ _ _ hhosts =>
    refine h.congr (fun _ hrecord ↦ hrecord) (fun _ _ _ ↦ rfl) ?_
    intro flags target hamong htarget
    have hne : target ≠ crecp := by
      rintro rfl
      exact hkind.1 rfl flags hamong (hmem_of_flag (by decide) hhosts htarget.kind)
    exact ⟨rfl, Finset.mem_erase.mpr ⟨hne, htarget.live⟩, htarget.spare, htarget.held⟩
  | @retire s g crecp _ _ _ _ _ hdhcp =>
    refine h.congr (fun _ hrecord ↦ hrecord) (fun _ _ _ ↦ rfl) ?_
    intro flags target hamong htarget
    have hne : target ≠ crecp := by
      rintro rfl
      exact hkind.2 rfl flags hamong (hmem_of_flag (by decide) hdhcp htarget.kind)
    exact ⟨rfl, htarget.live, by simpa [hne] using htarget.spare, htarget.held⟩
  | @retable s g hash hashSize mallocs chain _ hmem =>
    exact h.congr (fun record hrecord ↦ (hmem record).mp hrecord) (fun _ _ _ ↦ rfl)
      fun _ _ _ htarget ↦ ⟨rfl, htarget.live, htarget.spare, htarget.held⟩
  | @free s g crecp rest _ _ =>
    refine h.congr (fun _ hrecord ↦ hrecord) (fun record _ hle ↦ hwritten (by decide) record hle)
      fun _ target _ htarget ↦
        ⟨hwritten (by decide) target htarget.outside, ?_, htarget.spare, htarget.held⟩
    show target ∈ (cacheFree s crecp).live
    rw [live_cacheFree]
    exact htarget.live
  | fill _ _ _ _ _ _ _ _ =>
    exact h.congr (fun _ hrecord ↦ hrecord) (fun record _ hle ↦ hwritten (by decide) record hle)
      fun _ target _ htarget ↦
        ⟨hwritten (by decide) target htarget.outside, htarget.live, htarget.spare, htarget.held⟩
  | linkCname _ _ =>
    exact h.congr (fun _ hrecord ↦ hrecord) (fun record _ hle ↦ hwritten (by decide) record hle)
      fun _ target _ htarget ↦
        ⟨hwritten (by decide) target htarget.outside, htarget.live, htarget.spare, htarget.held⟩
  | wipe _ _ =>
    exact h.congr (fun _ hrecord ↦ hrecord) (fun record _ hle ↦ hwritten (by decide) record hle)
      fun _ target _ htarget ↦
        ⟨hwritten (by decide) target htarget.outside, htarget.live, htarget.spare, htarget.held⟩
  | _ =>
    exact h.congr (fun _ hrecord ↦ hrecord) (fun _ _ _ ↦ rfl)
      fun _ _ _ htarget ↦ ⟨rfl, htarget.live, htarget.spare, htarget.held⟩

/-! ### Whole calls -/

section Steps

variable {allowed : Kind → Prop} {before after : Cache × Ghost}

theorem PoolBounds.steps (hsteps : Steps env allowed before after)
    (hshape : Shape env before.1 before.2) (h : PoolBounds env before.1) : PoolBounds env after.1 :=
  (hsteps.invariant (fun state ↦ Shape env state.1 state.2 ∧ PoolBounds env state.1)
    (fun _ _ _ _ hstep hinv ↦ ⟨hinv.1.step hstep, hinv.2.step hstep hinv.1⟩) ⟨hshape, h⟩).2

theorem PoolLinks.steps (hsteps : Steps env allowed before after) (hallowed : ¬ allowed .wipe)
    (hshape : Shape env before.1 before.2) (hbounds : PoolBounds env before.1)
    (h : PoolLinks env before.1) :
    PoolLinks env after.1 := by
  refine (hsteps.invariant (fun state ↦ Shape env state.1 state.2 ∧ PoolBounds env state.1 ∧
    PoolLinks env state.1) ?_ ⟨hshape, hbounds, h⟩).2.2
  intro kind state next hkind hstep hinv
  refine ⟨hinv.1.step hstep, hinv.2.1.step hstep hinv.1,
    PoolLinks.step hstep hinv.1 hinv.2.1 hinv.2.2 ?_⟩
  rintro rfl
  exact hallowed hkind

theorem FreshLinks.steps (hsteps : Steps env allowed before after) (hallowed : ¬ allowed .pop)
    (hshape : Shape env before.1 before.2) (hbounds : PoolBounds env before.1)
    (h : FreshLinks env before.1 before.2) : FreshLinks env after.1 after.2 := by
  refine (hsteps.invariant (fun state ↦ Shape env state.1 state.2 ∧ PoolBounds env state.1 ∧
    FreshLinks env state.1 state.2) ?_ ⟨hshape, hbounds, h⟩).2.2
  intro kind state next hkind hstep hinv
  refine ⟨hinv.1.step hstep, hinv.2.1.step hstep hinv.1,
    FreshLinks.step hstep hinv.1 hinv.2.1 hinv.2.2 ?_⟩
  rintro rfl
  exact hallowed hkind

theorem LocalLinks.steps (hsteps : Steps env allowed before after)
    (hallowed : ∀ kind, allowed kind → Spares among kind) (hshape : Shape env before.1 before.2)
    (h : LocalLinks env before.1 before.2 among) : LocalLinks env after.1 after.2 among :=
  (hsteps.invariant (fun state ↦ Shape env state.1 state.2 ∧ LocalLinks env state.1 state.2 among)
    (fun kind _ _ hkind hstep hinv ↦ ⟨hinv.1.step hstep,
      LocalLinks.step hstep hinv.1 hinv.2 (hallowed kind hkind)⟩) ⟨hshape, h⟩).2

end Steps

structure Links (env : Env) (s : Cache) (g : Ghost) : Prop where
  bounds : PoolBounds env s
  pool : PoolLinks env s
  fresh : FreshLinks env s g
  outside : LocalLinks env s g fun _ ↦ True

theorem Links.of_local (hsteps : Steps env Local (s, g) (s', g'))
    (hshape : Shape env s g) (h : Links env s g) : Links env s' g' where
  bounds := h.bounds.steps hsteps hshape
  pool := PoolLinks.steps hsteps (by simp [Local]) hshape h.bounds h.pool
  fresh := FreshLinks.steps hsteps (by simp [Local]) hshape h.bounds h.fresh
  outside := LocalLinks.steps hsteps (by rintro kind (rfl | rfl) <;> simp [Spares]) hshape h.outside

theorem Links.of_batch (hsteps : Steps env Batch (s, g) (s', g'))
    (hempty : g'.fresh = []) (hshape : Shape env s g) (h : Links env s g) : Links env s' g' where
  bounds := h.bounds.steps hsteps hshape
  pool := PoolLinks.steps hsteps (by simp [Batch]) hshape h.bounds h.pool
  fresh := fun _ _ _ hmem ↦ by
    rw [hempty] at hmem
    exact absurd hmem (by simp)
  outside := LocalLinks.steps hsteps (by rintro kind (rfl | rfl) <;> simp [Spares]) hshape h.outside

/-- When `cache_reload` has cleared the table, the only CNAMEs of the pool in use are on the new
chain, and the only CNAMEs of the configuration are those of leases. -/
theorem Links.of_clear (hsteps : Steps env Clears (s, g) (s', g'))
    (hsettled : Settled env g') (hleases : ∀ i, ∀ crecp ∈ g'.chain i,
      .dhcp ∈ s'.flags crecp ∧ .hosts ∉ s'.flags crecp)
    (hshape : Shape env s g) (h : Links env s g) : Links env s' g' := by
  have hfresh : FreshLinks env s' g' :=
    FreshLinks.steps hsteps (by simp [Clears]) hshape h.bounds h.fresh
  have hshape' : Shape env s' g' := hshape.steps hsteps
  refine ⟨h.bounds.steps hsteps hshape, ?_, hfresh, ?_⟩
  · intro crecp target hcname
    refine (hfresh _ _ hcname ?_).1
    rcases hshape'.mem_pool_iff.mpr hcname.lt with hlru | hfresh | hloose
    · rcases hshape'.complete crecp (List.mem_append_left _ hlru) hcname.used with hhashed | hhand
      · have hdhcp := (hleases _ crecp hhashed).1
        exact absurd (meets_localFlags.mpr (.inr hdhcp))
          ((hshape'.lt_iff_of_hashed hhashed).mp hcname.lt)
      · exact absurd hcname.lt (Nat.not_lt.mpr (hsettled.unhashed crecp hhand))
    · exact hfresh
    · rw [hsettled.loose] at hloose
      exact absurd hloose (by simp)
  · have hlinks : LocalLinks env s' g' fun flags ↦ .hosts ∉ flags :=
      LocalLinks.steps hsteps (by rintro kind (rfl | rfl | rfl) <;> simp [Spares]) hshape
        fun i crecp hi hle hcname _ ↦ h.outside i crecp hi hle hcname trivial
    exact fun i crecp hi hle hcname _ ↦ hlinks i crecp hi hle hcname (hleases i crecp hi).2

theorem Links.of_unhash (hsteps : Steps env Unhashes (s, g) (s', g'))
    (hleases : ∀ i, ∀ crecp ∈ g'.chain i, .dhcp ∉ s'.flags crecp) (hshape : Shape env s g)
    (h : Links env s g) : Links env s' g' where
  bounds := h.bounds.steps hsteps hshape
  pool := PoolLinks.steps hsteps (by simp [Unhashes]) hshape h.bounds h.pool
  fresh := FreshLinks.steps hsteps (by simp [Unhashes]) hshape h.bounds h.fresh
  outside := by
    have hlinks : LocalLinks env s' g' fun flags ↦ .dhcp ∉ flags :=
      LocalLinks.steps hsteps (by rintro kind (rfl | rfl) <;> simp [Spares]) hshape
        fun i crecp hi hle hcname _ ↦ h.outside i crecp hi hle hcname trivial
    exact fun i crecp hi hle hcname _ ↦ hlinks i crecp hi hle hcname (hleases i crecp hi)

end CrossBreeder.Dnsmasq
