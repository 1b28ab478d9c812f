import CrossBreeder.Dnsmasq.CacheShape

/-!
# Steps of the cache

What the functions of the cache are made of. Each case of `Step` is one assignment of the source, or
a few that belong together, with what it does to the lists. The kinds of step are those that other
invariants have to tell apart. `Shape.step` says that every step keeps the shape of the cache.
-/

namespace CrossBreeder.Dnsmasq

open Foundation

namespace Shape

variable {env : Env} {s : Cache} {g : Ghost} {crecp : Addr}

/-! ### Records of the pool -/

section Pool

variable {rest : List Addr}

/-- The contents of a record that `cache_free` has put on the list. -/
def freedContents (s : Cache) (crec : Crec) : Crec :=
  { crec with
    flags := crec.flags \ {.forward, .reverse, .bigname}
    uid := s.uid
    serial := s.serials }

theorem crec_cacheFree (s : Cache) (crecp : Addr) :
    (cacheFree s crecp).crec = Function.update s.crec crecp (freedContents s (s.crec crecp)) := by
  unfold cacheFree
  dsimp only
  split_ifs <;>
    simp [linkTail, Cache.renew, Cache.modify, freedContents, Function.update_idem]

theorem free (h : Shape env s g) (hloose : g.loose = crecp :: rest) (hout : g.Out crecp) :
    Shape env (cacheFree s crecp)
      { g with
        lru := g.lru ++ [crecp]
        loose := rest
        unhashed := g.unhashed.filter (· ≠ crecp) } := by
  have hlt := h.lt_of_mem_loose (show crecp ∈ g.loose by simp [hloose])
  have hflags : ((cacheFree s crecp).flags crecp) =
    s.flags crecp \ {.forward, .reverse, .bigname} := by
    rw [Cache.flags, crec_cacheFree, Function.update_self]
    rfl
  have hfree : ¬ InUse (s.flags crecp \ {.forward, .reverse, .bigname}) := by
    rw [inUse_iff]
    simp
  -- the state with the new contents and the old links
  obtain ⟨t, ht⟩ : ∃ t, t = { cacheFree s crecp with
      next := s.next, prev := s.prev, cacheHead := s.cacheHead, cacheTail := s.cacheTail } :=
        ⟨_, rfl⟩
  have hcrec : t.crec = (cacheFree s crecp).crec := by rw [ht]
  have hresult : cacheFree s crecp = linkTail t crecp := by
    rw [ht]
    unfold cacheFree
    dsimp only
    split_ifs <;> rfl
  have hlinks : SameLinks s t := by
    rw [ht]
    unfold cacheFree
    dsimp only
    constructor <;> split_ifs <;> rfl
  have hshape : Shape env t { g with unhashed := g.unhashed.filter (· ≠ crecp) } := by
    refine h.rewrite hlinks hout ?_ ?_ ?_ ?_ ?_
    · intro record hrecord
      rw [hcrec, crec_cacheFree, Function.update_of_ne hrecord]
    · intro _ hmeets
      rw [Cache.flags, hcrec, ← Cache.flags, hflags] at hmeets
      obtain ⟨flag, hflag, hin⟩ := meets_iff.mp hmeets
      exact h.poolFlags crecp hlt (meets_iff.mpr ⟨flag, hflag, (Finset.mem_sdiff.mp hin).1⟩)
    · intro _ hused
      rw [Cache.flags, hcrec, ← Cache.flags, hflags] at hused
      exact absurd hused hfree
    · intro record hrecord hne
      exact List.mem_filter.mpr ⟨hrecord, by simpa using hne⟩
    · intro hfresh
      exact absurd (show crecp ∈ g.loose by simp [hloose]) (h.notMem_loose_of_fresh hfresh)
  rw [hresult]
  exact hshape.append hloose

theorem pop (h : Shape env s g) (hfresh : g.fresh = crecp :: rest) :
    Shape env { s with newChain := s.next crecp }
      { g with
        fresh := rest
        loose := crecp :: g.loose
        unhashed := crecp :: g.unhashed } := by
  have hlinked := h.fresh.2
  rw [hfresh] at hlinked
  refine { h with
    fresh := ⟨by simpa using hlinked.1, hlinked.2⟩
    pool := ?_
    member := ?_
    complete := ?_
    freshUse := fun record hrecord ↦ h.freshUse record (by simp [hfresh, hrecord]) }
  · refine List.Perm.trans ?_ h.pool
    rw [hfresh, List.perm_iff_count]
    intro record
    simp only [List.count_append, List.count_cons]
    omega
  · intro i record hrecord
    have hmember := h.member i record hrecord
    have hnot := hmember.apart.1
    rw [hfresh] at hnot
    exact { hmember with
      apart := ⟨fun hrest ↦ hnot (List.mem_cons_of_mem _ hrest), hmember.apart.2⟩ }
  · intro record hrecord hused
    by_cases heq : record = crecp
    · exact .inr (by simp [heq])
    · refine (h.complete record ?_ hused).imp_right (List.mem_cons_of_mem _)
      simp only [List.mem_append, List.mem_cons] at hrecord ⊢
      grind

theorem push (h : Shape env s g) (hloose : g.loose = crecp :: rest) (hout : g.Out crecp)
    (hused : InUse (s.flags crecp)) :
    Shape env { s with
        next := Function.update s.next crecp s.newChain
        newChain := some crecp }
      { g with
        fresh := crecp :: g.fresh
        loose := rest
        unhashed := g.unhashed.filter (· ≠ crecp) } := by
  have hmem : crecp ∈ g.loose := by simp [hloose]
  have hlru : crecp ∉ g.lru := fun hlru ↦ h.notMem_loose_of_lru hlru hmem
  have hfresh : crecp ∉ g.fresh := fun hfresh ↦ h.notMem_loose_of_fresh hfresh hmem
  have hspare : crecp ∉ g.spare := fun hspare ↦
    absurd (h.lt_of_mem_loose hmem) (Nat.not_lt.mpr (h.le_of_mem_spare hspare))
  have hrest : crecp ∉ rest := by
    have hnodup := (List.nodup_append.mp (List.nodup_append.mp h.poolNodup).2.1).2.1
    rw [hloose] at hnodup
    exact (List.nodup_cons.mp hnodup).1
  refine { h with
    lru := h.lru.congr (fun record hrecord ↦
      Function.update_of_ne (ne_of_mem_of_not_mem hrecord hlru) _ _) fun _ _ ↦ rfl
    fresh := ⟨rfl, ?_, h.fresh.2.update_of_notMem hfresh⟩
    spare := ⟨h.spare.1, h.spare.2.update_of_notMem hspare⟩
    pool := ?_
    member := ?_
    complete := ?_
    freshUse := ?_ }
  · simp only [Function.update_self, h.fresh.1, Option.or_none]
  · refine List.Perm.trans ?_ h.pool
    rw [hloose, List.perm_iff_count]
    intro record
    simp only [List.count_append, List.count_cons]
    omega
  · intro i record hrecord
    have hmember := h.member i record hrecord
    have hne : record ≠ crecp := ne_of_mem_of_not_mem hrecord (hout i)
    exact { hmember with apart := ⟨by simpa [hne] using hmember.apart.1, hmember.apart.2⟩ }
  · intro record hrecord hrecordUsed
    have heq : record ≠ crecp := by
      rintro rfl
      rcases List.mem_append.mp hrecord with hmem | hmem
      · exact hlru hmem
      · exact hrest hmem
    refine (h.complete record ?_ hrecordUsed).imp_right fun hhand ↦
      List.mem_filter.mpr ⟨hhand, by simpa using heq⟩
    rw [hloose]
    simp only [List.mem_append, List.mem_cons] at hrecord ⊢
    grind
  · intro record hrecord
    rcases List.mem_cons.mp hrecord with rfl | hold
    · exact hused
    · exact h.freshUse record hold

theorem fill (h : Shape env s g) (hloose : g.loose = crecp :: rest) (hout : g.Out crecp)
    {contents : Crec} (hused : InUse contents.flags) (hflags : ¬ Meets contents.flags outsideFlags)
    (serials : ℕ) :
    Shape env { s with
        crec := Function.update s.crec crecp contents
        serials := serials
        next := Function.update s.next crecp s.newChain
        newChain := some crecp }
      { g with
        fresh := crecp :: g.fresh
        loose := rest
        unhashed := g.unhashed.filter (· ≠ crecp) } := by
  have hnew : (Function.update s.crec crecp contents crecp).flags = contents.flags := by
    rw [Function.update_self]
  have hwritten : Shape env
      { s with crec := Function.update s.crec crecp contents, serials := serials }
      { g with unhashed := crecp :: g.unhashed } := by
    refine h.rewrite ⟨rfl, rfl, rfl, rfl, rfl, rfl, rfl, rfl, rfl⟩ hout ?_ ?_ ?_ ?_ ?_
    · exact fun record hrecord ↦ Function.update_of_ne hrecord _ _
    · exact fun _ ↦ by rw [Cache.flags, hnew]; exact hflags
    · exact fun _ _ ↦ List.mem_cons_self
    · exact fun record hrecord _ ↦ List.mem_cons_of_mem _ hrecord
    · exact fun _ ↦ by rw [Cache.flags, hnew]; exact hused
  have hpushed := hwritten.push hloose hout (by rw [Cache.flags, hnew]; exact hused)
  have hfilter : (crecp :: g.unhashed).filter (· ≠ crecp) = g.unhashed.filter (· ≠ crecp) := by simp
  rw [← hfilter]
  exact hpushed

end Pool

/-! ### Records outside the pool -/

section Outside

variable {rest : List Addr}

theorem out_of_held (h : Shape env s g) (hmem : crecp ∈ g.held) : g.Out crecp :=
  fun i hchain ↦ (h.member i crecp hchain).apart.2.2 hmem

theorem out_of_fresh (h : Shape env s g) (hmem : crecp ∈ g.fresh) : g.Out crecp :=
  fun i hchain ↦ (h.member i crecp hchain).apart.1 hmem

/-- Records taken out of their chains may be forgotten, or records counted among them that are not.
-/
theorem unhashed_mono (h : Shape env s g) {unhashed : List Addr}
    (hsub : ∀ record ∈ g.unhashed, record ∈ unhashed) :
    Shape env s { g with unhashed := unhashed } :=
  { h with
    member := fun i record hrecord ↦ { h.member i record hrecord with }
    complete := fun record hrecord hused ↦
      (h.complete record hrecord hused).imp_right (hsub record) }

theorem counters (h : Shape env s g) (insertError : Bool)
    (bigFree bignamesLeft uid mallocs serials : ℕ) : Shape env
      { s with
        insertError := insertError, bigFree := bigFree, bignamesLeft := bignamesLeft, uid := uid
        mallocs := mallocs, serials := serials } g :=
  { h with member := fun i record hrecord ↦ { h.member i record hrecord with } }

theorem hold (h : Shape env s g) (hnew : crecp ∉ s.live) (contents : Crec) (mallocs : ℕ) :
    Shape env { s with
        live := insert crecp s.live
        crec := Function.update s.crec crecp contents
        mallocs := mallocs } { g with held := crecp :: g.held } := by
  have hout : g.Out crecp := fun i hchain ↦ hnew (h.member i crecp hchain).live
  have hle : env.cachesize ≤ crecp := by
    by_contra hlt
    exact hnew (h.poolLive crecp (Nat.lt_of_not_le hlt))
  have hpool : crecp ∉ g.lru ++ g.loose ∧ crecp ∉ g.fresh := by
    rw [List.mem_append]
    refine ⟨?_, fun hfresh ↦ absurd (h.lt_of_mem_fresh hfresh) (Nat.not_lt.mpr hle)⟩
    rintro (hlru | hloose)
    · exact absurd (h.lt_of_mem_lru hlru) (Nat.not_lt.mpr hle)
    · exact absurd (h.lt_of_mem_loose hloose) (Nat.not_lt.mpr hle)
  have hapart : crecp ∉ g.spare ++ g.held := fun hmem ↦ hnew (h.outside crecp hmem).2
  have hwritten : Shape env
      { s with crec := Function.update s.crec crecp contents, mallocs := mallocs }
      { g with unhashed := g.unhashed } := by
    refine h.rewrite ⟨rfl, rfl, rfl, rfl, rfl, rfl, rfl, rfl, rfl⟩ hout
      (fun record hrecord ↦ Function.update_of_ne hrecord _ _) ?_ ?_ (fun _ hmem _ ↦ hmem) ?_
    · exact fun hlt ↦ absurd hlt (Nat.not_lt.mpr hle)
    · exact fun hmem ↦ absurd hmem hpool.1
    · exact fun hmem ↦ absurd hmem hpool.2
  have hnodup : (g.spare ++ crecp :: g.held).Nodup :=
    List.nodup_middle.mpr (List.nodup_cons.mpr ⟨hapart, h.outsideNodup⟩)
  refine { hwritten with
    poolLive := fun record hrecord ↦ Finset.mem_insert_of_mem (h.poolLive record hrecord)
    outside := ?_
    outsideNodup := hnodup
    member := ?_ }
  · intro record hrecord
    by_cases heq : record = crecp
    · rw [heq]
      exact ⟨hle, Finset.mem_insert_self _ _⟩
    · have hold : record ∈ g.spare ++ g.held := by
        simp only [List.mem_append, List.mem_cons] at hrecord ⊢
        grind
      exact ⟨(h.outside record hold).1, Finset.mem_insert_of_mem (h.outside record hold).2⟩
  · intro i record hrecord
    have hmember := hwritten.member i record hrecord
    have hne : record ≠ crecp := ne_of_mem_of_not_mem hrecord (hout i)
    exact { hmember with
      live := Finset.mem_insert_of_mem hmember.live
      apart := ⟨hmember.apart.1, hmember.apart.2.1, by simpa [hne] using hmember.apart.2.2⟩ }

theorem holdSpare (h : Shape env s g) (hspare : g.spare = crecp :: rest) :
    Shape env { s with dhcpSpare := s.next crecp }
      { g with spare := rest, held := crecp :: g.held } := by
  have hlinked := h.spare.2
  rw [hspare] at hlinked
  have hperm : (rest ++ crecp :: g.held).Perm (g.spare ++ g.held) := by
    rw [hspare]
    exact List.perm_middle
  refine { h with
    spare := ⟨by simpa using hlinked.1, hlinked.2⟩
    outside := fun record hrecord ↦ h.outside record (hperm.mem_iff.mp hrecord)
    outsideNodup := hperm.nodup_iff.mpr h.outsideNodup
    member := ?_ }
  intro i record hrecord
  have hmember := h.member i record hrecord
  have hnot : record ∉ rest ++ crecp :: g.held := by
    rw [hperm.mem_iff, List.mem_append]
    exact fun hmem ↦ hmem.elim hmember.apart.2.1 hmember.apart.2.2
  rw [List.mem_append] at hnot
  exact { hmember with apart := ⟨hmember.apart.1, fun hmem ↦ hnot (.inl hmem), fun hmem ↦
    hnot (.inr hmem)⟩ }

theorem writeHeld (h : Shape env s g) (hheld : crecp ∈ g.held) (contents : Crec) (serials : ℕ) :
    Shape env { s with crec := Function.update s.crec crecp contents, serials := serials } g := by
  have hle := h.le_of_mem_held hheld
  refine h.rewrite ⟨rfl, rfl, rfl, rfl, rfl, rfl, rfl, rfl, rfl⟩ (h.out_of_held hheld)
    (fun record hrecord ↦ Function.update_of_ne hrecord _ _) ?_ ?_ (fun _ hmem _ ↦ hmem) ?_
  · exact fun hlt ↦ absurd hlt (Nat.not_lt.mpr hle)
  · intro hmem
    rcases List.mem_append.mp hmem with hlru | hloose
    · exact absurd (h.lt_of_mem_lru hlru) (Nat.not_lt.mpr hle)
    · exact absurd (h.lt_of_mem_loose hloose) (Nat.not_lt.mpr hle)
  · exact fun hfresh ↦ absurd (h.lt_of_mem_fresh hfresh) (Nat.not_lt.mpr hle)

theorem release (h : Shape env s g) (hle : env.cachesize ≤ crecp) (hout : g.Out crecp)
    (hspare : crecp ∉ g.spare) :
    Shape env (freeRecord s crecp) { g with held := g.held.filter (· ≠ crecp) } := by
  refine { h with
    poolLive := fun record hrecord ↦ Finset.mem_erase.mpr ⟨by omega, h.poolLive record hrecord⟩
    outside := ?_
    outsideNodup := h.outsideNodup.sublist (List.Sublist.append_left List.filter_sublist _)
    member := ?_ }
  · intro record hrecord
    have hne : record ≠ crecp := by
      rcases List.mem_append.mp hrecord with hmem | hmem
      · exact ne_of_mem_of_not_mem hmem hspare
      · simpa using (List.mem_filter.mp hmem).2
    have hold : record ∈ g.spare ++ g.held := by
      rcases List.mem_append.mp hrecord with hmem | hmem
      · exact List.mem_append_left _ hmem
      · exact List.mem_append_right _ (List.mem_filter.mp hmem).1
    exact ⟨(h.outside record hold).1, Finset.mem_erase.mpr ⟨hne, (h.outside record hold).2⟩⟩
  · intro i record hrecord
    have hmember := h.member i record hrecord
    have hne : record ≠ crecp := ne_of_mem_of_not_mem hrecord (hout i)
    exact { hmember with
      live := Finset.mem_erase.mpr ⟨hne, hmember.live⟩
      apart := ⟨hmember.apart.1, hmember.apart.2.1, fun hmem ↦
        hmember.apart.2.2 (List.mem_filter.mp hmem).1⟩ }

theorem setNext (h : Shape env s g) (hle : env.cachesize ≤ crecp) (hspare : crecp ∉ g.spare)
    (target : Option Addr) :
    Shape env { s with next := Function.update s.next crecp target } g := by
  have hne : ∀ record < env.cachesize, record ≠ crecp := fun record hlt ↦ by omega
  refine { h with
    lru := h.lru.congr
      (fun record hrecord ↦ Function.update_of_ne (hne record (h.lt_of_mem_lru hrecord)) _ _)
      fun _ _ ↦ rfl
    fresh :=
      ⟨h.fresh.1, h.fresh.2.update_of_notMem fun hfresh ↦ hne crecp (h.lt_of_mem_fresh hfresh) rfl⟩
    spare := ⟨h.spare.1, h.spare.2.update_of_notMem hspare⟩
    member := fun i record hrecord ↦ { h.member i record hrecord with } }

theorem retire (h : Shape env s g) (hle : env.cachesize ≤ crecp) (hlive : crecp ∈ s.live)
    (hout : g.Out crecp) (hspare : crecp ∉ g.spare) (hheld : crecp ∉ g.held) :
    Shape env { s with next := Function.update s.next crecp s.dhcpSpare, dhcpSpare := some crecp }
      { g with spare := crecp :: g.spare } := by
  have hset := h.setNext hle hspare s.dhcpSpare
  refine { hset with
    spare := ⟨rfl, ?_, hset.spare.2⟩
    outside := ?_
    outsideNodup := ?_
    member := ?_ }
  · simp only [Function.update_self, h.spare.1, Option.or_none]
  · intro record hrecord
    rcases List.mem_cons.mp hrecord with rfl | hold
    · exact ⟨hle, hlive⟩
    · exact h.outside record hold
  · have hnot : crecp ∉ g.spare ++ g.held := fun hmem ↦ (List.mem_append.mp hmem).elim hspare hheld
    exact List.nodup_cons.mpr ⟨hnot, h.outsideNodup⟩
  · intro i record hrecord
    have hmember := h.member i record hrecord
    have hne : record ≠ crecp := ne_of_mem_of_not_mem hrecord (hout i)
    exact { hmember with
      apart := ⟨hmember.apart.1, by simpa [hne] using hmember.apart.2.1, hmember.apart.2.2⟩ }

end Outside

end Shape

/-! ### The steps -/

/-- A CNAME of the configuration and the record it stands for, when it is hashed. -/
structure LinkedNow (env : Env) (s : Cache) (g : Ghost) (crecp target : Addr) : Prop where
  cache : (s.crec crecp).cnameCache = some target
  hashed : ∃ i, target ∈ g.chain i
  outside : env.cachesize ≤ target
  uid : (s.crec crecp).cnameUid = (s.crec target).uid
  serial : (s.crec crecp).linkedSerial = (s.crec target).serial
  name : (s.crec crecp).linkedName = (s.crec target).name
  kind : s.flags crecp ∩ localFlags = s.flags target ∩ localFlags

/-- The kinds of step, those that do not matter for links taken together. -/
inductive Kind
  | pop | wipe | release | retire | write | plain
  deriving DecidableEq, Repr

inductive Step (env : Env) : Kind → Cache × Ghost → Cache × Ghost → Prop
  | unlink {s : Cache} {g : Ghost} {crecp : Addr} {front back : List Addr}
      (hlru : g.lru = front ++ crecp :: back) :
      Step env .plain (s, g)
        (cacheUnlink s crecp, { g with lru := front ++ back, loose := crecp :: g.loose })
  | link {s : Cache} {g : Ghost} {crecp : Addr} {rest : List Addr} (hloose : g.loose =
    crecp :: rest) :
      Step env .plain (s, g) (cacheLink s crecp, { g with lru := crecp :: g.lru, loose := rest })
  | free {s : Cache} {g : Ghost} {crecp : Addr} {rest : List Addr} (hloose : g.loose =
    crecp :: rest)
      (hout : g.Out crecp) :
      Step env .plain (s, g) (cacheFree s crecp,
        { g with
          lru := g.lru ++ [crecp], loose := rest, unhashed := g.unhashed.filter (· ≠ crecp) })
  | drop {s : Cache} {g : Ghost} {crecp : Addr} {i : ℕ} {front back : List Addr}
      (hchain : g.chain i = front ++ crecp :: back) :
      Step env .plain (s, g)
        (s.setLink (lastSlot Slot.record (.bucket i) front) (s.hash (.record crecp)),
          { g with
            chain := Function.update g.chain i (front ++ back)
            unhashed := crecp :: g.unhashed })
  | hash {s : Cache} {g : Ghost} {crecp : Addr} {i : ℕ} {front back : List Addr}
      (hi : i = hashBucket env s.hashSize (s.name crecp)) (hchain : g.chain i = front ++ back)
      (hplace : hashPlace env s crecp = lastSlot Slot.record (.bucket i) front)
      (hfront : ∀ record ∈ front, orderClass (s.flags record) ≤ orderClass (s.flags crecp))
      (hback : ∀ record ∈ back, orderClass (s.flags crecp) ≤ orderClass (s.flags record))
      (hout : g.Out crecp) (hused : InUse (s.flags crecp)) (hlive : crecp ∈ s.live)
      (hlocal : env.cachesize ≤ crecp → Meets (s.flags crecp) localFlags)
      (hapart : crecp ∉ g.fresh ∧ crecp ∉ g.spare)
      (hlinked : env.cachesize ≤ crecp → .cname ∈ s.flags crecp →
        ∃ target, LinkedNow env s g crecp target) :
      Step env .plain (s, g) (cacheHash env s crecp,
        { g with
          chain := Function.update g.chain i (front ++ crecp :: back)
          unhashed := g.unhashed.filter (· ≠ crecp)
          held := g.held.filter (· ≠ crecp) })
  | move {s : Cache} {g : Ghost} {crecp : Addr} {i : ℕ} {front middle back : List Addr} {place up :
    Slot}
      (hchain : g.chain i = front ++ (middle ++ crecp :: back))
      (hclass : ∀ record ∈ middle, orderClass (s.flags record) = orderClass (s.flags crecp))
      (hplace : place = lastSlot Slot.record (.bucket i) front)
      (hup : up = lastSlot Slot.record (.bucket i) (front ++ middle)) :
      Step env .plain (s, g)
        (((s.setLink up (s.hash (.record crecp))).setLink (.record crecp)
            ((s.setLink up (s.hash (.record crecp))).hash place)).setLink place (some crecp),
          { g with chain := Function.update g.chain i (front ++ crecp :: (middle ++ back)) })
  | pop {s : Cache} {g : Ghost} {crecp : Addr} {rest : List Addr} (hfresh : g.fresh =
    crecp :: rest) :
      Step env .pop (s, g) ({ s with newChain := s.next crecp },
        { g with fresh := rest, loose := crecp :: g.loose, unhashed := crecp :: g.unhashed })
  | fill {s : Cache} {g : Ghost} {crecp : Addr} {rest : List Addr} {contents : Crec}
      (hloose : g.loose = crecp :: rest) (hout : g.Out crecp) (hfree : ¬ InUse (s.flags crecp))
      (hused : InUse contents.flags) (hflags : ¬ Meets contents.flags outsideFlags)
      (huid : contents.uid = (s.crec crecp).uid) (hserial : contents.serial = s.serials)
      (hcname : .cname ∈ contents.flags → contents.cnameCache = none) :
      Step env .plain (s, g)
        ({ s with
            crec := Function.update s.crec crecp contents
            serials := s.serials + 1
            next := Function.update s.next crecp s.newChain
            newChain := some crecp },
          { g with
            fresh := crecp :: g.fresh
            loose := rest
            unhashed := g.unhashed.filter (· ≠ crecp) })
  | linkCname {s : Cache} {g : Ghost} {cpp newc : Addr} (hcpp : cpp ∈ g.fresh) (hnewc :
    newc ∈ g.fresh) :
      Step env .plain (s, g) (linkCname s cpp newc, g)
  | wipe {s : Cache} {g : Ghost} {crecp : Addr} (hlru : crecp ∈ g.lru) (hout : g.Out crecp) :
      Step env .wipe (s, g) ((s.modify crecp fun crec ↦ { crec with flags := ∅ }).renew crecp,
        { g with unhashed := g.unhashed.filter (· ≠ crecp) })
  | hold {s : Cache} {g : Ghost} {crecp : Addr} (hnew : crecp ∉ s.live) (contents : Crec)
    (mallocs : ℕ) :
      Step env .write (s, g)
        ({ s with
            live := insert crecp s.live
            crec := Function.update s.crec crecp contents
            mallocs := mallocs }, { g with held := crecp :: g.held })
  | holdSpare {s : Cache} {g : Ghost} {crecp : Addr} {rest : List Addr}
      (hspare : g.spare = crecp :: rest) :
      Step env .plain (s, g) ({ s with dhcpSpare := s.next crecp },
        { g with spare := rest, held := crecp :: g.held })
  | writeHeld {s : Cache} {g : Ghost} {crecp : Addr} (hheld : crecp ∈ g.held) (contents : Crec)
      {serials : ℕ} (hserials : s.serials ≤ serials) :
      Step env .write (s, g)
        ({ s with crec := Function.update s.crec crecp contents, serials := serials }, g)
  | discard {s : Cache} {g : Ghost} {crecp : Addr} (hheld : crecp ∈ g.held) :
      Step env .plain (s, g) (freeRecord s crecp, { g with held := g.held.filter (· ≠ crecp) })
  | release {s : Cache} {g : Ghost} {crecp : Addr} (hle : env.cachesize ≤ crecp)
    (hout : g.Out crecp)
      (hspare : crecp ∉ g.spare) (hheld : crecp ∉ g.held) (hhosts : .hosts ∈ s.flags crecp) :
      Step env .release (s, g) (freeRecord s crecp, g)
  | setNext {s : Cache} {g : Ghost} {crecp : Addr} (hle : env.cachesize ≤ crecp)
      (hspare : crecp ∉ g.spare) (target : Option Addr) :
      Step env .plain (s, g) ({ s with next := Function.update s.next crecp target }, g)
  | retire {s : Cache} {g : Ghost} {crecp : Addr} (hle : env.cachesize ≤ crecp) (hlive :
    crecp ∈ s.live)
      (hout : g.Out crecp) (hspare : crecp ∉ g.spare) (hheld : crecp ∉ g.held)
      (hdhcp : .dhcp ∈ s.flags crecp) :
      Step env .retire (s, g)
        ({ s with next := Function.update s.next crecp s.dhcpSpare, dhcpSpare := some crecp },
          { g with spare := crecp :: g.spare })
  | counters {s : Cache} {g : Ghost} (insertError : Bool) (bigFree bignamesLeft mallocs : ℕ) {uid :
    ℕ}
      (huid : s.uid ≤ uid) :
      Step env .plain (s, g)
        ({ s with
            insertError := insertError, bigFree := bigFree, bignamesLeft := bignamesLeft, uid := uid
            mallocs := mallocs }, g)
  | retable {s : Cache} {g : Ghost} {hash : Slot → Option Addr} {hashSize mallocs : ℕ} {chain : ℕ →
    List Addr}
      (hshape : Shape env { s with hash := hash, hashSize := hashSize, mallocs := mallocs }
        { g with chain := chain })
      (hmem : ∀ record, (∃ i, record ∈ chain i) ↔ ∃ i, record ∈ g.chain i) :
      Step env .plain (s, g)
        ({ s with hash := hash, hashSize := hashSize, mallocs := mallocs },
          { g with chain := chain })

variable {before after : Cache × Ghost}

variable {kind : Kind}

theorem Shape.step {env : Env}
    (hstep : Step env kind before after) (h : Shape env before.1 before.2) :
    Shape env after.1 after.2 := by
  cases hstep with
  | unlink hlru => exact h.unlink hlru
  | link hloose => exact h.link hloose
  | free hloose hout => exact h.free hloose hout
  | drop hchain => exact h.drop hchain
  | hash hi hchain hplace hfront hback hout hused hlive hlocal hapart _ =>
    exact h.hash_at hi hchain hplace hfront hback hout hused hlive hlocal hapart
  | move hchain hclass hplace hup => exact h.move hchain hclass hplace hup
  | pop hfresh => exact h.pop hfresh
  | fill hloose hout _ hused hflags _ _ _ => exact h.fill hloose hout hused hflags _
  | @linkCname s g cpp newc hcpp _ =>
    have hflags : (linkCname s cpp newc).flags cpp = s.flags cpp := by
      simp [linkCname, Cache.flags, Cache.modify]
    refine h.rewrite ⟨rfl, rfl, rfl, rfl, rfl, rfl, rfl, rfl, rfl⟩ (h.out_of_fresh hcpp)
      (fun record hrecord ↦ Function.update_of_ne hrecord _ _) ?_ ?_ (fun _ hmem _ ↦ hmem) ?_
    · rw [hflags]
      exact h.poolFlags cpp
    · intro hmem
      rcases List.mem_append.mp hmem with hlru | hloose
      · exact absurd hcpp (h.notMem_fresh_of_lru hlru)
      · exact absurd hloose (h.notMem_loose_of_fresh hcpp)
    · rw [hflags]
      exact h.freshUse cpp
  | @wipe s g crecp hlru hout =>
    have hflags : ((s.modify crecp fun crec ↦ { crec with flags := ∅ }).renew crecp).flags crecp =
      ∅ := by
      simp [Cache.flags, Cache.renew, Cache.modify]
    refine h.rewrite ⟨rfl, rfl, rfl, rfl, rfl, rfl, rfl, rfl, rfl⟩ hout ?_ ?_ ?_ ?_ ?_
    · intro record hrecord
      simp [Cache.renew, Cache.modify, Function.update_of_ne hrecord]
    · intro _
      rw [hflags]
      simp [Meets]
    · intro _ hused
      rw [hflags] at hused
      simp [InUse, Meets] at hused
    · intro record hrecord hne
      exact List.mem_filter.mpr ⟨hrecord, by simpa using hne⟩
    · exact fun hfresh ↦ absurd hfresh (h.notMem_fresh_of_lru hlru)
  | hold hnew contents mallocs => exact h.hold hnew contents mallocs
  | holdSpare hspare => exact h.holdSpare hspare
  | writeHeld hheld contents _ => exact h.writeHeld hheld contents _
  | @discard s g crecp hheld =>
    refine h.release (h.le_of_mem_held hheld) (h.out_of_held hheld) fun hspare ↦ ?_
    exact (List.nodup_append.mp h.outsideNodup).2.2 crecp hspare crecp hheld rfl
  | @release s g crecp hle hout hspare hheld _ =>
    have hfilter : g.held.filter (· ≠ crecp) = g.held :=
      List.filter_eq_self.mpr fun record hrecord ↦ by
        simpa using ne_of_mem_of_not_mem hrecord hheld
    have hreleased := h.release hle hout hspare
    rw [hfilter] at hreleased
    exact hreleased
  | setNext hle hspare target => exact h.setNext hle hspare target
  | retire hle hlive hout hspare hheld _ => exact h.retire hle hlive hout hspare hheld
  | counters insertError bigFree bignamesLeft mallocs _ =>
    exact h.counters insertError bigFree bignamesLeft _ mallocs _
  | retable hshape _ => exact hshape

def Steps (env : Env) (allowed : Kind → Prop) : Cache × Ghost → Cache × Ghost → Prop :=
  Relation.ReflTransGen fun before after ↦ ∃ kind, allowed kind ∧ Step env kind before after

namespace Steps

variable {env : Env} {allowed : Kind → Prop} {before middle after : Cache × Ghost}

theorem refl (state : Cache × Ghost) : Steps env allowed state state := Relation.ReflTransGen.refl

theorem trans (hfirst : Steps env allowed before middle)
    (hsecond : Steps env allowed middle after) : Steps env allowed before after :=
  Relation.ReflTransGen.trans hfirst hsecond

theorem single (hallowed : allowed kind) (hstep : Step env kind before after) :
    Steps env allowed before after :=
  Relation.ReflTransGen.single ⟨kind, hallowed, hstep⟩

theorem tail (hsteps : Steps env allowed before middle) (hallowed : allowed kind)
    (hstep : Step env kind middle after) : Steps env allowed before after :=
  Relation.ReflTransGen.tail hsteps ⟨kind, hallowed, hstep⟩

theorem mono {more : Kind → Prop} (hmore : ∀ kind, allowed kind → more kind)
    (hsteps : Steps env allowed before after) : Steps env more before after := by
  induction hsteps with
  | refl => exact refl _
  | tail _ hstep ih =>
    obtain ⟨kind, hallowed, hstep⟩ := hstep
    exact ih.tail (hmore kind hallowed) hstep

theorem invariant (Inv : Cache × Ghost → Prop)
    (hkeep : ∀ kind state next, allowed kind → Step env kind state next → Inv state → Inv next)
    (hsteps : Steps env allowed before after) (hinv : Inv before) : Inv after := by
  induction hsteps with
  | refl => exact hinv
  | tail _ hstep ih =>
    obtain ⟨kind, hallowed, hstep⟩ := hstep
    exact hkeep kind _ _ hallowed hstep ih

end Steps

variable {allowed : Kind → Prop}

theorem Shape.steps {env : Env}
    (hsteps : Steps env allowed before after) (h : Shape env before.1 before.2) :
    Shape env after.1 after.2 :=
  hsteps.invariant (fun state ↦ Shape env state.1 state.2)
    (fun _ _ _ _ hstep hinv ↦ hinv.step hstep) h

theorem Step.crec_outside {env : Env}
    (hstep : Step env kind before after) (h : Shape env before.1 before.2) (hkind : kind ≠ .write)
    {crecp : Addr} (hle : env.cachesize ≤ crecp) : after.1.crec crecp = before.1.crec crecp := by
  have hne : ∀ {record}, record < env.cachesize → crecp ≠ record :=
    fun hlt ↦ (Nat.lt_of_lt_of_le hlt hle).ne'
  cases hstep with
  | free hloose _ =>
    rw [Shape.crec_cacheFree, Function.update_of_ne (hne (h.lt_of_mem_loose (by simp [hloose])))]
  | fill hloose _ _ _ _ _ _ _ =>
    exact Function.update_of_ne (hne (h.lt_of_mem_loose (by simp [hloose]))) _ _
  | linkCname hcpp _ => exact Function.update_of_ne (hne (h.lt_of_mem_fresh hcpp)) _ _
  | wipe hlru _ =>
    simp [Cache.renew, Cache.modify, Function.update_of_ne (hne (h.lt_of_mem_lru hlru))]
  | hold _ _ _ => exact absurd rfl hkind
  | writeHeld _ _ _ => exact absurd rfl hkind
  | _ => rfl

theorem Steps.crec_outside {env : Env}
    (hsteps : Steps env allowed before after) (h : Shape env before.1 before.2)
    (hallowed : ¬ allowed .write) {crecp : Addr} (hle : env.cachesize ≤ crecp) :
    after.1.crec crecp = before.1.crec crecp := by
  have hboth := hsteps.invariant
    (fun state ↦ Shape env state.1 state.2 ∧ state.1.crec crecp = before.1.crec crecp) ?_ ⟨h, rfl⟩
  · exact hboth.2
  · intro kind state next hkind hstep hinv
    refine ⟨hinv.1.step hstep, (hstep.crec_outside hinv.1 ?_ hle).trans hinv.2⟩
    rintro rfl
    exact hallowed hkind

/-! ### Records of the pool in use -/

variable {env : Env}

structure SameUse (crec crec' : Crec) : Prop where
  flags : crec'.flags = crec.flags
  name : crec'.name = crec.name

theorem SameUse.of_eq {crec crec' : Crec} (h : crec' = crec) : SameUse crec crec' := by
  rw [h]
  exact ⟨rfl, rfl⟩

theorem SameUse.inUse {s s' : Cache} {crecp : Addr} (h : SameUse (s.crec crecp) (s'.crec crecp))
    (hused : InUse (s'.flags crecp)) : InUse (s.flags crecp) := by
  rwa [show s'.flags crecp = s.flags crecp from h.flags] at hused

/-- What steps do to the records of the pool that are in use: those of the new chain stay there in
the same use, and the others have been there before as they are. -/
structure PoolKept (env : Env) (before after : Cache × Ghost) : Prop where
  fresh : ∀ crecp ∈ before.2.fresh, crecp ∈ after.2.fresh ∧
    SameUse (before.1.crec crecp) (after.1.crec crecp)
  used : ∀ crecp < env.cachesize, crecp ∉ after.2.fresh → InUse (after.1.flags crecp) →
    crecp ∉ before.2.fresh ∧ after.1.crec crecp = before.1.crec crecp

theorem PoolKept.trans {before middle after : Cache × Ghost} (hleft : PoolKept env before middle)
    (hright : PoolKept env middle after) : PoolKept env before after where
  fresh := by
    intro crecp hmem
    obtain ⟨hmiddle, hflags, hname⟩ := hleft.fresh crecp hmem
    obtain ⟨hafter, hflags', hname'⟩ := hright.fresh crecp hmiddle
    exact ⟨hafter, hflags'.trans hflags, hname'.trans hname⟩
  used := by
    intro crecp hlt hnot hused
    obtain ⟨hmiddle, hcrec⟩ := hright.used crecp hlt hnot hused
    have hused' : InUse (middle.1.flags crecp) := by
      unfold Cache.flags at hused ⊢
      rw [← hcrec]
      exact hused
    obtain ⟨hbefore, hcrec'⟩ := hleft.used crecp hlt hmiddle hused'
    exact ⟨hbefore, hcrec.trans hcrec'⟩

theorem PoolKept.of_update {s s' : Cache} {g g' : Ghost} {record : Addr}
    (hsame : g'.fresh = g.fresh) (hother : ∀ crecp, crecp ≠ record → s'.crec crecp = s.crec crecp)
    (hfresh : record ∈ g.fresh → SameUse (s.crec record) (s'.crec record))
    (hused : record < env.cachesize → record ∉ g.fresh → ¬ InUse (s'.flags record)) :
    PoolKept env (s, g) (s', g') where
  fresh := by
    intro crecp hmem
    refine ⟨by rw [hsame]; exact hmem, ?_⟩
    by_cases heq : crecp = record
    · rw [heq] at hmem ⊢
      exact hfresh hmem
    · exact .of_eq (hother crecp heq)
  used := by
    intro crecp hlt hnot hin
    rw [hsame] at hnot
    refine ⟨hnot, hother crecp ?_⟩
    rintro rfl
    exact hused hlt hnot hin

theorem Step.poolKept (hstep : Step env kind before after)
    (h : Shape env before.1 before.2) (hkind : kind ≠ .pop) : PoolKept env before after := by
  have hrefl : ∀ {s s' : Cache} {g g' : Ghost}, s'.crec = s.crec → g'.fresh = g.fresh →
      PoolKept env (s, g) (s', g') := by
    intro s s' g g' hcrec hfresh
    refine ⟨fun crecp hmem ↦
      ⟨by rw [hfresh]; exact hmem, .of_eq (by rw [hcrec])⟩, fun crecp _ hnot _ ↦ ?_⟩
    rw [hfresh] at hnot
    exact ⟨hnot, by rw [hcrec]⟩
  cases hstep with
  | pop _ => exact absurd rfl hkind
  | @free s g crecp _ hloose _ =>
    have hmem : crecp ∈ g.loose := by simp [hloose]
    refine .of_update rfl (fun record hne ↦ ?_) (fun hfresh ↦
      absurd hmem (h.notMem_loose_of_fresh hfresh)) ?_
    · rw [Shape.crec_cacheFree, Function.update_of_ne hne]
    · intro _ _ hused
      rw [Cache.flags, Shape.crec_cacheFree, Function.update_self] at hused
      simp [Shape.freedContents, inUse_iff] at hused
  | @fill s g crecp rest contents hloose _ _ _ _ _ _ _ =>
    have hmem : crecp ∈ g.loose := by simp [hloose]
    refine ⟨fun record hrecord ↦
      ⟨List.mem_cons_of_mem _ hrecord, .of_eq (Function.update_of_ne ?_ _ _)⟩,
      fun record _ hnot _ ↦ ?_⟩
    · rintro rfl
      exact h.notMem_loose_of_fresh hrecord hmem
    · rw [List.mem_cons, not_or] at hnot
      exact ⟨hnot.2, Function.update_of_ne hnot.1 _ _⟩
  | @linkCname s g cpp newc hcpp _ =>
    refine @PoolKept.of_update _ _ _ _ _ cpp rfl (fun record hne ↦ Function.update_of_ne hne _ _) ?_
      fun _ hnot ↦ absurd hcpp hnot
    intro _
    unfold Dnsmasq.linkCname Cache.modify
    dsimp only
    rw [Function.update_self]
    exact ⟨rfl, rfl⟩
  | @wipe s g crecp hlru _ =>
    refine @PoolKept.of_update _ _ _ _ _ crecp rfl (fun record hne ↦ ?_)
      (fun hfresh ↦ absurd hfresh (h.notMem_fresh_of_lru hlru)) ?_
    · simp [Cache.renew, Cache.modify, Function.update_of_ne hne]
    · intro _ _ hused
      simp [Cache.flags, Cache.renew, Cache.modify, inUse_iff] at hused
  | @hold s g crecp hnew contents mallocs =>
    refine @PoolKept.of_update _ _ _ _ _ crecp rfl (fun record hne ↦ Function.update_of_ne hne _ _)
      (fun hfresh ↦ absurd (h.poolLive crecp (h.lt_of_mem_fresh hfresh)) hnew)
      fun hlt ↦ absurd (h.poolLive crecp hlt) hnew
  | @writeHeld s g crecp hheld contents _ _ =>
    have hle := h.le_of_mem_held hheld
    refine @PoolKept.of_update _ _ _ _ _ crecp rfl (fun record hne ↦ Function.update_of_ne hne _ _)
      (fun hfresh ↦ absurd (h.lt_of_mem_fresh hfresh) (Nat.not_lt.mpr hle))
      fun hlt ↦ absurd hlt (Nat.not_lt.mpr hle)
  | _ => exact hrefl rfl rfl

theorem Steps.poolKept
    (hsteps : Steps env allowed before after) (h : Shape env before.1 before.2)
    (hallowed : ¬ allowed .pop) :
    PoolKept env before after := by
  have hboth := hsteps.invariant
    (fun state ↦ Shape env state.1 state.2 ∧ PoolKept env before state) ?_
    ⟨h, fun _ hmem ↦ ⟨hmem, .of_eq rfl⟩, fun _ _ hnot _ ↦ ⟨hnot, rfl⟩⟩
  · exact hboth.2
  · intro kind state next hkind hstep hinv
    refine ⟨hinv.1.step hstep, hinv.2.trans (hstep.poolKept hinv.1 ?_)⟩
    rintro rfl
    exact hallowed hkind

end CrossBreeder.Dnsmasq
