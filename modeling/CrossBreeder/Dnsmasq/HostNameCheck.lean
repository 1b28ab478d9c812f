import CrossBreeder.Dnsmasq.Spilling

/-!
# The host name of a lease

`cache_add_dhcp_entry` goes through the answers for the host name before it adds a record: past
those of hosts files and leases to the first one of the pool, which it takes out together with the
others like it. So no record of the pool is left that the record of the lease would be in the way of
(`Reclaimable.checkHostName`).
-/

namespace CrossBreeder.Dnsmasq

open Foundation

variable {env : Env}

theorem hostnameIsequal_trans {left middle right : List UInt8}
    (hleft : hostnameIsequal left middle = true) (hright : hostnameIsequal right middle = true) :
    hostnameIsequal left right = true := by
  exact decide_eq_true ((of_decide_eq_true hleft).trans (of_decide_eq_true hright).symm)

/-! ### The loop -/

/-- The end of the loop of `cache_add_dhcp_entry`: the first answer of the pool is taken out with
those like it. -/
def checkFront (env : Env) (hostName : List UInt8) (flags : Flags) (s : Cache) : Cache :=
  match acceptAnswer s.cacheHead (matchesName s hostName (insert .cname flags)) with
  | none => s
  | some head =>
    (cacheScanFree env s ⟨hostName, none⟩ [] 0 (s.flags head ∩ (flags ∪ {.cname, .forward}))).1

section Loop

variable {hostName addr : List UInt8} {flags : Flags} {s t : Cache} {crecp : Option Addr}

theorem checkHostName_local {l : Addr} (fuel : ℕ) (found : Bool × Bool)
    (hfind : cacheFindByName env s crecp hostName 0 (insert .cname flags) = (t, some l))
    (hlocal : Meets (t.flags l) localFlags) :
    ∃ found', checkHostName env hostName addr flags (fuel + 1) crecp s found =
      checkHostName env hostName addr flags fuel (some l) t found' := by
  obtain ⟨inHosts, failed⟩ := found
  simp only [checkHostName, hfind]
  split_ifs with hhosts _ _ hdhcp
  · exact ⟨_, rfl⟩
  · exact ⟨_, rfl⟩
  · exact ⟨_, rfl⟩
  · exact ⟨_, rfl⟩
  · exact absurd (meets_localFlags.mp hlocal) (not_or.mpr ⟨hhosts, hdhcp⟩)

/-- The loop ends with the front of the LRU list. -/
theorem checkHostName_front (fuel : ℕ) (found : Bool × Bool)
    (hfind : cacheFindByName env s crecp hostName 0 (insert .cname flags) =
      (t, acceptAnswer t.cacheHead (matchesName t hostName (insert .cname flags))))
    (hhead : ∀ head, t.cacheHead = some head → ¬ Meets (t.flags head) localFlags) :
    (checkHostName env hostName addr flags (fuel + 1) crecp s found).1 =
      checkFront env hostName flags t := by
  obtain ⟨inHosts, failed⟩ := found
  unfold checkHostName checkFront
  simp only [hfind]
  cases haccept : acceptAnswer t.cacheHead (matchesName t hostName (insert .cname flags)) with
  | none => rfl
  | some head =>
    have hnot := hhead head (Option.eq_some_of_filter_eq_some haccept)
    rw [meets_localFlags, not_or] at hnot
    simp only [if_neg hnot.1, if_pos hnot.2]

/-- The loop over the answers behind a given one. -/
theorem checkHostName_walk
    (hhead : ∀ head, s.cacheHead = some head → ¬ Meets (s.flags head) localFlags)
    (todo : List Addr) :
    ∀ (fuel : ℕ) (l : Addr) (found : Bool × Bool), Linked s.next (l :: todo) s.cacheHead →
      (∀ other ∈ todo, LocalMatch s hostName (insert .cname flags) other) → todo.length < fuel →
      (checkHostName env hostName addr flags fuel (some l) s found).1 =
      checkFront env hostName flags s := by
  induction todo with
  | nil =>
    intro fuel l found hlinked _ hfuel
    obtain ⟨fuel, rfl⟩ : ∃ k, fuel = k + 1 := ⟨fuel - 1, by simp at hfuel; omega⟩
    refine checkHostName_front fuel found ?_ hhead
    unfold cacheFindByName
    dsimp only
    rw [hlinked.1]
    rfl
  | cons other todo ih =>
    intro fuel l found hlinked hmatch hfuel
    obtain ⟨fuel, rfl⟩ : ∃ k, fuel = k + 1 := ⟨fuel - 1, by simp at hfuel; omega⟩
    have hother := hmatch other List.mem_cons_self
    have hfind : cacheFindByName env s (some l) hostName 0 (insert .cname flags) =
      (s, some other) := by
      unfold cacheFindByName
      dsimp only
      rw [hlinked.1]
      simp [acceptAnswer, Option.filter, hother.2]
    obtain ⟨found', hstep⟩ :=
      @checkHostName_local env hostName addr flags s s (some l) other fuel found hfind hother.1
    rw [hstep]
    exact ih fuel other found' hlinked.2 (fun later hlater ↦
      hmatch later (List.mem_cons_of_mem _ hlater)) (by simpa using hfuel)

end Loop

/-! ### What is left of the name -/

section Check

variable {s : Cache} {g : Ghost} {running : Bool}

theorem replaced_of_poolMatch {hostName : List UInt8} {v6 : Bool} {head record : Addr}
    (hhead : matchesName s hostName (insert .cname (leaseType v6)) head = true)
    (hrecord : matchesName s hostName (insert .cname (leaseType v6)) record = true) :
    replaced s (s.flags head ∩ (leaseType v6 ∪ {.cname, .forward})) hostName record = true := by
  obtain ⟨-, hheadMeets, -⟩ := of_decide_eq_true hhead
  obtain ⟨hforward, hmeets, hequal⟩ := of_decide_eq_true hrecord
  refine decide_eq_true ⟨hforward, ?_, hequal⟩
  rw [meets_iff] at hheadMeets hmeets
  simp only [Finset.mem_insert, exists_eq_or_imp] at hheadMeets hmeets
  -- either of the two is a CNAME, or both are of the family of the lease
  rcases hheadMeets with hcname | ⟨type, htype, hin⟩
  · exact .inr (by simp [hcname])
  · rcases hmeets with hcname | ⟨type', htype', hin'⟩
    · exact .inr (by simp [hcname])
    · obtain rfl : type = type' := by cases v6 <;> simp_all [leaseType]
      refine .inl (meets_iff.mpr ⟨type, ?_, ?_⟩)
      · cases v6 <;> simp_all [leaseType, fType]
      · simp [hin, hin', htype]

/-- The scan for the front of the LRU list leaves no match of the pool: it could only stop at a
record that is in the way of the one at the front. -/
theorem Reclaimable.checkFront (h : Reclaimable env s running) (hshape : Shape env s g)
    (hloose : g.loose = []) (hostName : List UInt8) (v6 : Bool)
    (hfront : ∀ crecp, g.Holds crecp → PoolMatch s hostName (insert .cname (leaseType v6)) crecp →
      ∃ head, g.Holds head ∧ s.cacheHead = some head ∧
      PoolMatch s hostName (insert .cname (leaseType v6)) head) :
    ∃ g', Steps env Plain (s, g) (checkFront env hostName (leaseType v6) s, g') ∧ Swept env g g' ∧
      ∀ crecp, g'.Holds crecp →
        ¬ PoolMatch (Dnsmasq.checkFront env hostName (leaseType v6) s) hostName
        (insert .cname (leaseType v6)) crecp := by
  unfold Dnsmasq.checkFront
  cases haccept : acceptAnswer s.cacheHead (matchesName s hostName (insert .cname (leaseType v6)))
    with
  | none =>
    refine ⟨g, Steps.refl _, Swept.refl g, fun crecp hmem hmatch ↦ ?_⟩
    obtain ⟨head, -, hhead, hheadMatch⟩ := hfront crecp hmem hmatch
    unfold acceptAnswer at haccept
    rw [hhead, Option.filter_some, if_pos hheadMatch.2] at haccept
    exact absurd haccept (by simp)
  | some head =>
    dsimp only
    obtain ⟨hhead, hheadMatch⟩ := Option.filter_eq_some_iff.mp haccept
    obtain ⟨hheadForward, -, hheadEqual⟩ : .forward ∈ s.flags head ∧
        Meets (s.flags head) (insert .cname (leaseType v6)) ∧
          hostnameIsequal (s.name head) hostName = true := by
      exact of_decide_eq_true hheadMatch
    obtain ⟨flags, hflags⟩ : ∃ flags, flags = s.flags head ∩ (leaseType v6 ∪ {.cname, .forward}) :=
      ⟨_, rfl⟩
    rw [← hflags]
    obtain ⟨g', hsteps, hswept, hleft⟩ := cacheScanFree_forward hshape hloose hostName [] 0
      (show Flag.forward ∈ flags by simp [hflags, hheadForward])
    refine ⟨g', hsteps, hswept, fun record hrecord hmatch ↦ ?_⟩
    generalize cacheScanFree env s ⟨hostName, none⟩ [] 0 flags = scanned at hsteps hleft hmatch
    have hshape' : Shape env scanned.1 g' := hshape.steps hsteps
    have hsame : ∀ {crecp}, g'.Holds crecp → scanned.1.crec crecp = s.crec crecp :=
      fun hmem ↦ hshape.crec_of_holds hsteps hmem
    -- what the scan has left was there before, with the same contents
    have hbefore := (PoolMatch.congr (hsame hrecord)).mp hmatch
    obtain ⟨other, hheadHeld, hother, hheadPool⟩ :=
      hfront record (hswept.table record hrecord) hbefore
    obtain rfl : head = other := Option.some.inj (hhead.symm.trans hother)
    have hreplaced : replaced scanned.1 flags hostName record = true := by
      have hold := replaced_of_poolMatch hheadMatch hbefore.2
      unfold replaced Cache.flags Cache.name at hold ⊢
      rw [hsame hrecord, hflags]
      exact hold
    obtain ⟨-, i, front, first, back, hchain, hmem, hlocal, hfirst⟩ :=
      hleft record hrecord hreplaced
    have hfirstHeld : g'.Holds first := ⟨i, by simp [hchain]⟩
    obtain ⟨j, hj⟩ := hheadHeld
    have hheadLt := (hshape.lt_iff_of_hashed hj).mpr hheadPool.1
    obtain ⟨k, hk⟩ := hrecord
    have hrecordLt := (hshape'.lt_iff_of_hashed hk).mpr hmatch.1
    -- a record that the scan stops at stands in front of one of the pool
    have horder : orderClass (scanned.1.flags first) ≤ 1 := by
      refine le_trans ?_ (hshape'.orderClass_le hrecordLt)
      rcases List.mem_cons.mp hmem with rfl | hback
      · exact Nat.le_refl _
      · have hsorted := hshape'.order i
        rw [hchain] at hsorted
        exact (List.pairwise_cons.mp (List.pairwise_append.mp hsorted).2.1).1 record hback
    obtain ⟨hfirstForward, hoverlap, hequal⟩ := of_decide_eq_true hfirst
    unfold Cache.flags at hlocal horder hfirstForward hoverlap
    unfold Cache.name at hequal
    rw [hsame hfirstHeld] at hlocal horder hfirstForward hoverlap hequal
    have hsub : flags ⊆ (s.crec head).flags := by
      rw [hflags]
      exact Finset.inter_subset_left
    refine h.unshadowed first (hshape.inTable_iff.mpr (hswept.table first hfirstHeld)) head hheadLt
      (inUse_iff.mpr (.inl hheadForward))
      (.inr fun hfresh ↦ (hshape.member j head hj).apart.1 (hshape.onNewChain_iff.mp hfresh))
      ⟨hlocal, horder, hfirstForward, hheadForward, ?_, hostnameIsequal_trans hequal hheadEqual⟩
    refine hoverlap.imp (fun hmeets ↦ ?_) fun hcname ↦
      Finset.union_subset_union (Finset.Subset.refl _) hsub hcname
    obtain ⟨type, htype, hin⟩ := meets_iff.mp hmeets
    exact meets_iff.mpr ⟨type, htype, Finset.inter_subset_inter hsub (Finset.Subset.refl _) hin⟩

/-- After the search for the host name no record of the pool is left for it. -/
theorem Reclaimable.checkHostName (h : Reclaimable env s running) (hshape : Shape env s g)
    (hsettled : Settled env g) (hostName addr : List UInt8) (v6 : Bool) (found : Bool × Bool) :
    ∃ g', Steps env Plain (s, g)
        ((checkHostName env hostName addr (leaseType v6) (s.walkFuel + 1) none s found).1, g') ∧
        Swept env g g' ∧
      ∀ crecp, g'.Holds crecp →
        ¬ PoolMatch (Dnsmasq.checkHostName env hostName addr (leaseType v6) (s.walkFuel + 1) none s
        found).1 hostName
          (insert .cname (leaseType v6)) crecp := by
  obtain ⟨g₁, locals, hsteps, hswept, hanswered⟩ :=
    cacheFindByName_spec hshape hsettled.loose hostName 0 (insert .cname (leaseType v6))
  obtain ⟨t, ht⟩ :
    ∃ t, t = (cacheFindByName env s none hostName 0 (insert .cname (leaseType v6))).1 := ⟨_, rfl⟩
  have hfind : cacheFindByName env s none hostName 0 (insert .cname (leaseType v6)) =
      (t, acceptAnswer (locals.head?.or t.cacheHead)
        (matchesName t hostName (insert .cname (leaseType v6)))) := by
    rw [ht, ← hanswered.first]
  rw [← ht] at hsteps hanswered
  have hshape₁ : Shape env t g₁ := hshape.steps hsteps
  have hloose₁ := hswept.loose.trans hsettled.loose
  have hhead : ∀ head, t.cacheHead = some head → ¬ Meets (t.flags head) localFlags := by
    intro head hhead
    rw [hshape₁.lru.head_eq] at hhead
    exact hshape₁.notLocal_of_lt (hshape₁.lt_of_mem_lru (List.mem_of_head? hhead))
  have hresult :
    (Dnsmasq.checkHostName env hostName addr (leaseType v6) (s.walkFuel + 1) none s found).1 =
      Dnsmasq.checkFront env hostName (leaseType v6) t := by
    cases hlocals : locals with
    | nil =>
      rw [hlocals] at hfind
      exact checkHostName_front _ found hfind hhead
    | cons l rest =>
      have hmem : ∀ other ∈ l :: rest, g₁.Holds other ∧
        LocalMatch t hostName (insert .cname (leaseType v6)) other := by
        rw [← hlocals]
        exact fun other hother ↦ (hanswered.mem other).mp hother
      have hl := (hmem l List.mem_cons_self).2
      have hfindLocal : cacheFindByName env s none hostName 0 (insert .cname (leaseType v6)) =
        (t, some l) := by
        rw [hfind, hlocals]
        simp [acceptAnswer, Option.filter, hl.2]
      obtain ⟨found', hstep⟩ :=
        @checkHostName_local env hostName addr (leaseType v6) s t none l s.walkFuel found
          hfindLocal hl.1
      rw [hstep]
      refine checkHostName_walk hhead rest s.walkFuel l found' ?_ (fun other hother ↦
        (hmem other (List.mem_cons_of_mem _ hother)).2) ?_
      · rw [← hlocals]
        exact hanswered.linked
      · -- the answers are different records
        have hle : (l :: rest).toFinset.card ≤ s.live.card := by
          refine Finset.card_le_card fun other hother ↦ ?_
          obtain ⟨i, hi⟩ := hswept.table other (hmem other (List.mem_toFinset.mp hother)).1
          exact (hshape.member i other hi).live
        rw [List.toFinset_card_of_nodup (hlocals ▸ hanswered.nodup), List.length_cons] at hle
        unfold Cache.walkFuel
        omega
  rw [hresult]
  obtain ⟨g', hsteps', hswept', hnone⟩ :=
    (h.of_swept hshape hsteps hswept).checkFront hshape₁ hloose₁ hostName v6 hanswered.front
  exact ⟨g', hsteps.trans hsteps', hswept.trans hswept', hnone⟩

end Check

end CrossBreeder.Dnsmasq
