import CrossBreeder.Dnsmasq.CacheCalls

/-!
# Room for a new record

`cache_insert` takes the last record of the LRU list. If that is in use, it has it taken out by a
scan for its own name, and gives up if the record is still in use then.

`Shadows` says that a record can be in the way of another one, and `Reclaimable` that no record of
the table is in the way of one of the pool. Then the scan reaches the last record and frees it
(`Reclaimable.spill`), and the loop ends with a free record (`grabRun_found`).
-/

namespace CrossBreeder.Dnsmasq

open Foundation

variable {env : Env}

/-! ### The loop and its ends -/

/-- The ends of the loop of `cache_insert` up to the test for a long name: a record, an empty LRU
list, or a record that is still in use after the scan for it. -/
inductive GrabEnd
  | found (new : Addr) | empty | abandoned | outOfTurns
  deriving DecidableEq, Repr

/-- The loop of `cache_insert` up to the test for a long name, with its end and the states after the
scans that are to free the last record of the LRU list. -/
def grabRun (env : Env) (now : ℤ) : ℕ → Bool → Bool → Cache → GrabEnd × List Cache
  | 0, _, _, _ => (.outOfTurns, [])
  | fuel + 1, freedAll, freeAvail, s => match s.cacheTail with
    | none => (.empty, [])
    | some new =>
      if InUse (s.flags new) then
        if freeAvail then (.abandoned, [])
        else if freedAll then
          let spilled :=
            (cacheScanFree env s ⟨(s.crec new).name, some new⟩ (s.crec new).addr now
              (s.crec new).flags).1
          let run := grabRun env now fuel freedAll true spilled
          (run.1, spilled :: run.2)
        else grabRun env now fuel true freeAvail (cacheScanFree env s ⟨[], none⟩ [] now ∅).1
      else (.found new, [])

def GrabEnd.record : GrabEnd → Option Addr
  | .found new => some new
  | _ => none

theorem grabTail_eq_grabRun (now : ℤ) (fuel : ℕ) : ∀ (freedAll freeAvail : Bool) (s : Cache),
    (grabTail env now fuel freedAll freeAvail s).2 =
      (grabRun env now fuel freedAll freeAvail s).1.record := by
  induction fuel with
  | zero => exact fun _ _ _ ↦ rfl
  | succ fuel ih =>
    intro freedAll freeAvail s
    unfold grabTail grabRun
    cases s.cacheTail with
    | none => rfl
    | some new =>
      dsimp only
      split_ifs
      · rfl
      · exact ih _ _ _
      · exact ih _ _ _
      · rfl

def TailFree (s : Cache) : Prop := ∃ new, s.cacheTail = some new ∧ ¬ InUse (s.flags new)

/-! ### Records in the way -/

def OnNewChain (s : Cache) (crecp : Addr) : Prop :=
  ∃ nodes, s.newChain = nodes.head? ∧ Linked s.next nodes none ∧ crecp ∈ nodes

variable {crecp : Addr} {s : Cache}

variable {g : Ghost}

theorem Shape.onNewChain_iff (h : Shape env s g) :
    OnNewChain s crecp ↔ crecp ∈ g.fresh := by
  constructor
  · rintro ⟨nodes, hhead, hlinked, hmem⟩
    rwa [hlinked.unique h.fresh.2 (hhead.symm.trans h.fresh.1)] at hmem
  · exact fun hmem ↦ ⟨g.fresh, h.fresh.1, h.fresh.2, hmem⟩

/-- A scan for the second record stops at the first one if it stands in front: the first one is not
in the pool, and an entry like the second one would clash with it. -/
def Shadows (l p : Crec) : Prop :=
  Meets l.flags localFlags ∧ orderClass l.flags ≤ 1 ∧ .forward ∈ l.flags ∧ .forward ∈ p.flags ∧
    (Meets (p.flags ∩ l.flags) fType ∨ .cname ∈ l.flags ∪ p.flags) ∧
      hostnameIsequal l.name p.name = true

theorem Shadows.congr {l l' p p' : Crec} (hl : SameUse l l') (hp : SameUse p p')
    (h : Shadows l' p') : Shadows l p := by
  unfold Shadows at h ⊢
  rw [hl.flags, hl.name, hp.flags, hp.name] at h
  exact h

/-- A scan with the flags of a record takes out the record itself. -/
def Spillable (flags : Flags) : Prop :=
  if .forward ∈ flags then Meets flags fType ∨ .cname ∈ flags else Meets flags {.ipv4, .ipv6}

theorem SameUse.spillable {s s' : Cache} (h : SameUse (s.crec crecp) (s'.crec crecp))
    (hspillable : Spillable (s.flags crecp)) : Spillable (s'.flags crecp) := by
  rwa [show s'.flags crecp = s.flags crecp from h.flags]

/-- No record of the table is in the way of a record of the pool that is in use. Those of the new
chain count while a batch is `running`. -/
structure Reclaimable (env : Env) (s : Cache) (running : Bool) : Prop where
  unshadowed : ∀ l, InTable s l → ∀ p < env.cachesize, InUse (s.flags p) →
    (running = true ∨ ¬ OnNewChain s p) → ¬ Shadows (s.crec l) (s.crec p)
  spillable : ∀ p < env.cachesize, InUse (s.flags p) → Spillable (s.flags p)

/-! ### The scan for the last record -/

theorem cacheTail_cacheFree (s : Cache) (crecp : Addr) :
    (cacheFree s crecp).cacheTail = some crecp := by
  unfold cacheFree
  dsimp only
  split_ifs <;> rfl

theorem tailFree_releaseRecord (hlocal : ¬ Meets (s.flags crecp) localFlags) :
    TailFree (releaseRecord s crecp) := by
  refine ⟨crecp, ?_, ?_⟩
  · unfold releaseRecord
    rw [if_neg hlocal, cacheTail_cacheFree]
  · unfold Cache.flags
    rw [crec_releaseRecord_self, if_neg hlocal]
    simp [Shape.freedContents, inUse_iff]

theorem Shape.notLocal_of_lt (h : Shape env s g)
    (hlt : crecp < env.cachesize) : ¬ Meets (s.flags crecp) localFlags := by
  intro hlocal
  obtain ⟨flag, hflag, hmem⟩ := meets_iff.mp hlocal
  refine h.poolFlags crecp hlt (meets_iff.mpr ⟨flag, ?_, hmem⟩)
  revert hflag
  cases flag <;> decide

theorem Shape.orderClass_le (h : Shape env s g) (hlt : crecp < env.cachesize) :
    orderClass (s.flags crecp) ≤ 1 := by
  have hflags := h.poolFlags crecp hlt
  have himmortal : Flag.immortal ∉ s.flags crecp :=
    fun hmem ↦ hflags (meets_iff.mpr ⟨.immortal, by decide, hmem⟩)
  unfold orderClass
  rw [if_neg himmortal]
  split_ifs <;> omega

theorem Shape.holds_of_inUse (h : Shape env s g) (hsettled : Settled env g)
    (hlt : crecp < env.cachesize) (hfresh : crecp ∉ g.fresh) (hused : InUse (s.flags crecp)) :
    g.Holds crecp := by
  have hlru : crecp ∈ g.lru := by
    rcases h.mem_pool_iff.mpr hlt with hmem | hmem | hmem
    · exact hmem
    · exact absurd hmem hfresh
    · rw [hsettled.loose] at hmem
      exact absurd hmem List.not_mem_nil
  rcases h.complete crecp (List.mem_append_left _ hlru) hused with hchain | hhand
  · exact ⟨_, hchain⟩
  · exact absurd hlt (Nat.not_lt.mpr (hsettled.unhashed crecp hhand))

/-- What a scan for the record `p` has reached: some record of the pool was given back last, or `p`
is as it was and is none of those that were kept. -/
structure Spilling (env : Env) (s : Cache) (g : Ghost) (p : Addr) (name : ScanName)
    (left : Prop) (t : Cache) (g' : Ghost) (value : ScanName) (kept : List Addr) : Prop where
  hashSize : t.hashSize = s.hashSize
  swept : Swept env g g'
  spilled : TailFree t ∨ left ∧ t.crec p = s.crec p ∧ value = name ∧ p ∉ kept

/-- As long as the record `p` is as it was, a scan does not keep it and does not stop in front of
it. -/
structure Reaches (env : Env) (s : Cache) (g : Ghost) (p : Addr) (name : ScanName)
    (verdict : Cache → ScanName → Addr → Verdict) : Prop where
  keep : ∀ t : Cache, t.crec p = s.crec p → verdict t name p ≠ .keep
  stop : ∀ t g' i front first back, Shape env t g' → Steps env Plain (s, g) (t, g') →
    Swept env g g' →
    t.crec p = s.crec p → g'.chain i = front ++ first :: back → p ∈ first :: back →
      verdict t name first ≠ .stop

section Spill

variable {s : Cache} {g : Ghost} {p : Addr} {name : ScanName}
    {verdict : Cache → ScanName → Addr → Verdict}
  {left : Prop}

theorem Reaches.rule (h : Reaches env s g p name verdict) (hloose : g.loose = [])
    (hpool : ¬ Meets (s.flags p) localFlags) (hname : name.owner = some p) :
    WalkRule env Plain verdict keepRecord (scanDrop env) (Spilling env s g p name left) where
  keep := by
    intro t g' value kept crecp i _ hinv _ hverdict
    refine ⟨g', Steps.refl _, rfl, hinv.hashSize, hinv.swept, hinv.spilled.imp_right ?_⟩
    rintro ⟨hleft, hcrec, hvalue, hkept⟩
    refine ⟨hleft, hcrec, hvalue, ?_⟩
    rw [List.mem_append, List.mem_singleton, not_or]
    refine ⟨hkept, ?_⟩
    rintro rfl
    rw [hvalue] at hverdict
    exact h.keep t hcrec hverdict
  drop := by
    intro t g' value kept crecp i front back hshape hinv hchain _
    obtain ⟨g'', hsteps, hswept, hchains⟩ :=
      sweep_release hshape (hinv.swept.loose.trans hloose) hchain
    refine ⟨g'', hsteps, hchains, (hashSize_releaseRecord _ _).trans hinv.hashSize,
      hinv.swept.trans hswept, ?_⟩
    by_cases hlocal : Meets (t.flags crecp) localFlags
    · -- a record of a hosts file or a lease: only the table changes
      have hsame : ∀ up, releaseRecord (t.setLink up (t.hash (.record crecp))) crecp =
          t.setLink up (t.hash (.record crecp)) := fun _ ↦ if_pos hlocal
      unfold scanDrop
      rw [hsame]
      refine hinv.spilled.imp_right ?_
      rintro ⟨hleft, hcrec, hvalue, hkept⟩
      refine ⟨hleft, hcrec, ?_, hkept⟩
      have hne : name.owner ≠ some crecp := by
        rw [hname]
        intro heq
        obtain rfl := Option.some.inj heq
        unfold Cache.flags at hlocal hpool
        rw [hcrec] at hlocal
        exact hpool hlocal
      rw [hvalue]
      unfold ScanName.afterRelease
      rw [if_neg fun hboth ↦ hne hboth.1]
    · exact .inl (tailFree_releaseRecord hlocal)

/-- After the loop over its own bucket the record is gone, or another one was given back last. -/
theorem Reaches.bucket (h : Reaches env s g p name verdict) (hshape : Shape env s g)
    (hsettled : Settled env g) (hlru : p ∈ g.lru) (hused : InUse (s.flags p))
    (hname : name.owner = some p) {t : Cache} {g' : Ghost} {value : ScanName} {i : ℕ}
    (hi : i < s.hashSize) (hsteps : Steps env Plain (s, g) (t, g'))
    (hspilling : Spilling env s g p name left t g' value []) :
    ∃ g'', Steps env Plain (s, g)
      ((walkBucket verdict keepRecord (scanDrop env) i t value).1.1, g'') ∧
      Spilling env s g p name (left ∧ i ≠ hashBucket env s.hashSize (s.name p))
        (walkBucket verdict keepRecord (scanDrop env) i t value).1.1 g''
        (walkBucket verdict keepRecord (scanDrop env) i t value).1.2 [] := by
  have hlt := hshape.lt_of_mem_lru hlru
  obtain ⟨g'', kept, done, todo, -, hsteps', hinv, hchains, hdone, -, hend⟩ :=
    walkBucket_spec (h.rule hsettled.loose (hshape.notLocal_of_lt hlt) hname) value []
      (hshape.steps hsteps) (hspilling.hashSize ▸ hi) hspilling
  generalize (walkBucket verdict keepRecord (scanDrop env) i t value).1 =
    walked at hsteps' hinv hend
  obtain ⟨u, value'⟩ := walked
  have hall := hsteps.trans hsteps'
  refine ⟨g'', hall, ⟨hinv.hashSize, hinv.swept, hinv.spilled.imp_right ?_⟩⟩
  rintro ⟨hleft, hcrec, hvalue, hkept⟩
  refine ⟨⟨hleft, fun hbucket ↦ ?_⟩, hcrec, hvalue, List.not_mem_nil⟩
  -- it is in use, and so it is still in its chain
  have hshape' : Shape env u g'' := hshape.steps hall
  have hlru' : p ∈ g''.lru := by
    rcases hshape'.mem_pool_iff.mpr hlt with hmem | hmem | hmem
    · exact hmem
    · rw [hinv.swept.fresh] at hmem
      exact absurd hmem (hshape.notMem_fresh_of_lru hlru)
    · rw [hinv.swept.loose, hsettled.loose] at hmem
      exact absurd hmem List.not_mem_nil
  have hused' : InUse (u.flags p) := by
    unfold Cache.flags
    rw [hcrec]
    exact hused
  have hmem : p ∈ g''.chain i := by
    rcases hshape'.complete p (List.mem_append_left _ hlru') hused' with hchain | hhand
    · unfold Cache.name at hchain hbucket
      rw [hcrec, hinv.hashSize, ← hbucket] at hchain
      exact hchain
    · have hle := (hinv.swept.unhashed p hhand).elim (hsettled.unhashed p) id
      exact absurd hlt (Nat.not_lt.mpr hle)
  have hsplit : g''.chain i = done ++ todo := by rw [hchains, Function.update_self]
  rw [hsplit] at hmem
  rcases List.mem_append.mp hmem with hfront | hback
  · exact hkept (hdone p hfront)
  · obtain ⟨first, rest, rfl⟩ : ∃ first rest, todo = first :: rest :=
      List.exists_cons_of_ne_nil (List.ne_nil_of_mem hback)
    have hfirst := hend first rfl
    rw [hvalue] at hfirst
    exact h.stop u g'' i done first rest hshape' hall hinv.swept hcrec hsplit hback hfirst

theorem Reaches.table (h : Reaches env s g p name verdict) (hshape : Shape env s g)
    (hsettled : Settled env g) (hlru : p ∈ g.lru) (hused : InUse (s.flags p))
    (hname : name.owner = some p) :
    TailFree (walkTable verdict keepRecord (scanDrop env) s name).1 := by
  -- after the first `count` buckets
  have hloop : ∀ count ≤ s.hashSize, ∃ g',
      Steps env Plain (s, g) (((List.range count).foldl
        (fun state i ↦ (walkBucket verdict keepRecord (scanDrop env) i state.1 state.2).1)
          (s, name)).1, g') ∧
      Spilling env s g p name (count ≤ hashBucket env s.hashSize (s.name p))
        ((List.range count).foldl
        (fun state i ↦ (walkBucket verdict keepRecord (scanDrop env) i state.1 state.2).1)
          (s, name)).1 g'
        ((List.range count).foldl
        (fun state i ↦ (walkBucket verdict keepRecord (scanDrop env) i state.1 state.2).1)
          (s, name)).2 [] := by
    intro count
    induction count with
    | zero =>
      exact fun _ ↦
        ⟨g, Steps.refl _, ⟨rfl, Swept.refl g, .inr ⟨Nat.zero_le _, rfl, rfl, List.not_mem_nil⟩⟩⟩
    | succ count ih =>
      intro hcount
      obtain ⟨g', hsteps, hspilling⟩ := ih (by omega)
      obtain ⟨g'', hsteps', hspilling'⟩ :=
        h.bucket hshape hsettled hlru hused hname
          (show count < s.hashSize by omega) hsteps hspilling
      rw [List.range_succ, List.foldl_append]
      refine ⟨g'', hsteps', hspilling'.hashSize, hspilling'.swept, hspilling'.spilled.imp_right
        fun hsame ↦ ?_⟩
      exact ⟨by omega, hsame.2⟩
  obtain ⟨g', -, hspilling⟩ := hloop s.hashSize (Nat.le_refl _)
  refine hspilling.spilled.resolve_right fun hsame ↦ ?_
  exact absurd (hashBucket_lt env hshape.table (s.name p)) (Nat.not_lt.mpr hsame.1)

end Spill

/-! ### The last record is freed -/

theorem hostnameIsequal_refl (name : List UInt8) : hostnameIsequal name name = true :=
  decide_eq_true rfl

namespace Reclaimable

variable {s : Cache} {g : Ghost} {running : Bool} {p : Addr}

theorem reaches_forward (h : Reclaimable env s running) (hshape : Shape env s g) (hlru : p ∈ g.lru)
    (hused : InUse (s.flags p)) (hforward : .forward ∈ s.flags p) (now : ℤ) :
    Reaches env s g p ⟨(s.crec p).name, some p⟩ (scanForwardVerdict now (s.crec p).flags) := by
  have hlt := hshape.lt_of_mem_lru hlru
  have hfresh : ¬ OnNewChain s p :=
    fun hmem ↦ hshape.notMem_fresh_of_lru hlru (hshape.onNewChain_iff.mp hmem)
  have hspillable := h.spillable p hlt hused
  unfold Spillable at hspillable
  rw [if_pos hforward] at hspillable
  refine ⟨fun t hcrec hverdict ↦ ?_, fun t g' i front first back hshape' hsteps hswept hcrec hchain
    hmem hverdict ↦ ?_⟩
  · have hreplaced : replaced t (s.crec p).flags (s.crec p).name p = true := by
      unfold replaced Cache.flags Cache.name
      rw [hcrec, Finset.inter_self, Finset.union_idempotent]
      exact decide_eq_true ⟨hforward, hspillable, hostnameIsequal_refl _⟩
    unfold scanForwardVerdict at hverdict
    rw [if_pos hreplaced] at hverdict
    split_ifs at hverdict
  · unfold scanForwardVerdict at hverdict
    split_ifs at hverdict with _ hreplaced hlocal
    have hheld : g'.Holds first := ⟨i, by simp [hchain]⟩
    have hfirst := hshape.crec_of_holds hsteps hheld
    have horder : orderClass (t.flags first) ≤ 1 := by
      have hclass := hshape.orderClass_le hlt
      unfold Cache.flags at hclass
      rw [← hcrec] at hclass
      refine le_trans ?_ hclass
      rcases List.mem_cons.mp hmem with rfl | hback
      · exact Nat.le_refl _
      · have hsorted := hshape'.order i
        rw [hchain] at hsorted
        exact (List.pairwise_cons.mp (List.pairwise_append.mp hsorted).2.1).1 p hback
    obtain ⟨hfirstForward, hoverlap, hequal⟩ := of_decide_eq_true hreplaced
    unfold Cache.flags at hlocal horder hfirstForward hoverlap
    unfold Cache.name at hequal
    rw [hfirst] at hlocal horder hfirstForward hoverlap hequal
    exact h.unshadowed first (hshape.inTable_iff.mpr (hswept.table first hheld)) p hlt
      hused (.inr hfresh) ⟨hlocal, horder, hfirstForward, hforward, hoverlap, hequal⟩

theorem reaches_reverse (h : Reclaimable env s running) (hshape : Shape env s g) (hlru : p ∈ g.lru)
    (hused : InUse (s.flags p)) (hforward : .forward ∉ s.flags p) (now : ℤ) :
    Reaches env s g p ⟨(s.crec p).name, some p⟩
      (scanReverseVerdict now (s.crec p).flags (s.crec p).addr) := by
  have hlt := hshape.lt_of_mem_lru hlru
  have hpool := hshape.notLocal_of_lt hlt
  have hreverse : Flag.reverse ∈ s.flags p := (inUse_iff.mp hused).resolve_left hforward
  have htype := h.spillable p hlt hused
  unfold Spillable at htype
  rw [if_neg hforward] at htype
  refine ⟨fun t hcrec hverdict ↦ ?_, fun t g' i front first back hshape' hsteps hswept hcrec hchain
    hmem hverdict ↦ ?_⟩
  · have hsame : t.flags p = s.flags p := by
      unfold Cache.flags
      rw [hcrec]
    have hdrop : ¬ Meets (t.flags p) localFlags ∧ .reverse ∈ (s.crec p).flags ∩ t.flags p ∧
        Meets ((s.crec p).flags ∩ t.flags p) {.ipv4, .ipv6} ∧
        sameAddr (addrlen (s.crec p).flags) (t.crec p).addr (s.crec p).addr = true := by
      rw [hsame, hcrec]
      unfold Cache.flags at hpool hreverse htype ⊢
      rw [Finset.inter_self]
      exact ⟨hpool, hreverse, htype, decide_eq_true rfl⟩
    unfold scanReverseVerdict at hverdict
    rw [if_neg (by rw [hsame]; exact fun hboth ↦ hboth.1 hreverse), if_pos hdrop] at hverdict
    split_ifs at hverdict
  · unfold scanReverseVerdict at hverdict
    split_ifs at hverdict with hboth
    have hclass : orderClass (t.flags p) = 0 := by
      unfold Cache.flags
      rw [hcrec]
      exact if_pos hreverse
    rcases List.mem_cons.mp hmem with rfl | hback
    · unfold Cache.flags at hboth hreverse
      rw [hcrec] at hboth
      exact hboth.1 hreverse
    · have hsorted := hshape'.order i
      rw [hchain] at hsorted
      have hle := (List.pairwise_cons.mp (List.pairwise_append.mp hsorted).2.1).1 p hback
      have hfirst : orderClass (t.flags first) = 2 := by
        unfold orderClass
        rw [if_neg hboth.1, if_pos hboth.2]
      omega

theorem spill (h : Reclaimable env s running) (hshape : Shape env s g) (hsettled : Settled env g)
    {new : Addr} (htail : s.cacheTail = some new) (hused : InUse (s.flags new)) (now : ℤ) :
    TailFree (cacheScanFree env s ⟨(s.crec new).name, some new⟩ (s.crec new).addr now
      (s.crec new).flags).1 := by
  have hlru : new ∈ g.lru := by
    rw [hshape.lru.tail_eq] at htail
    exact List.mem_of_getLast? htail
  unfold cacheScanFree
  by_cases hforward : Flag.forward ∈ s.flags new
  · rw [if_pos (show Flag.forward ∈ (s.crec new).flags from hforward)]
    obtain ⟨g', -, hspilling⟩ :=
      (h.reaches_forward hshape hlru hused hforward now).bucket hshape hsettled hlru hused
      rfl (hashBucket_lt env hshape.table (s.name new)) (Steps.refl _)
      ⟨rfl, Swept.refl g, .inr ⟨trivial, rfl, rfl, List.not_mem_nil⟩⟩
    exact hspilling.spilled.resolve_right fun hsame ↦ hsame.1.2 rfl
  · rw [if_neg (show Flag.forward ∉ (s.crec new).flags from hforward)]
    exact (h.reaches_reverse hshape hlru hused hforward now).table hshape hsettled hlru hused rfl

/-- Steps that take nothing off the new chain: the records in the way afterwards were there before,
or are in the way of none. -/
theorem of_steps {s' : Cache} {g' : Ghost} {allowed : Kind → Prop} {running' : Bool}
    (h : Reclaimable env s running) (hshape : Shape env s g)
    (hsteps : Steps env allowed (s, g) (s', g')) (hpop : ¬ allowed .pop)
    (hfresh : g'.fresh = g.fresh) (hrunning : running' = true → running = true)
    (hlocal : ∀ l, g'.Holds l → Meets (s'.flags l) localFlags →
      (g.Holds l ∧ SameUse (s.crec l) (s'.crec l)) ∨
      ∀ p < env.cachesize, InUse (s.flags p) → (running' = true ∨ p ∉ g.fresh) →
      ¬ Shadows (s'.crec l) (s.crec p)) :
    Reclaimable env s' running' := by
  have hshape' : Shape env s' g' := hshape.steps hsteps
  have hkept := hsteps.poolKept hshape hpop
  -- a record of the pool in use was so before
  have hpool : ∀ p < env.cachesize, InUse (s'.flags p) → SameUse (s.crec p) (s'.crec p) := by
    intro p hlt hused
    by_cases hmem : p ∈ g.fresh
    · exact (hkept.fresh p hmem).2
    · exact .of_eq (hkept.used p hlt (show p ∉ g'.fresh by rwa [hfresh]) hused).2
  refine ⟨fun l hl p hlt hused hcounts hshadows ↦ ?_, fun p hlt hused ↦ ?_⟩
  · have hsame := hpool p hlt hused
    have hold := hsame.inUse hused
    rw [hshape'.onNewChain_iff, hfresh] at hcounts
    rcases hlocal l (hshape'.inTable_iff.mp hl) hshadows.1 with ⟨hmem, hl'⟩ | hnone
    · refine h.unshadowed l (hshape.inTable_iff.mpr hmem) p hlt hold ?_ (hshadows.congr hl' hsame)
      rw [hshape.onNewChain_iff]
      exact hcounts.imp_left hrunning
    · exact hnone p hlt hold hcounts (hshadows.congr (.of_eq rfl) hsame)
  · have hsame := hpool p hlt hused
    exact hsame.spillable (h.spillable p hlt (hsame.inUse hused))

theorem of_swept {s' : Cache} {g' : Ghost} (h : Reclaimable env s running) (hshape : Shape env s g)
    (hsteps : Steps env Plain (s, g) (s', g')) (hswept : Swept env g g') :
    Reclaimable env s' running :=
  h.of_steps hshape hsteps (by simp [Plain]) hswept.fresh id fun l hl _ ↦
    .inl ⟨hswept.table l hl, .of_eq (hshape.crec_of_holds hsteps hl)⟩

/-- The loop of `cache_insert` ends with a free record, and every scan for the last record leaves a
free one there. -/
theorem grabRun_found (now : ℤ) (fuel : ℕ) : ∀ (freedAll freeAvail : Bool) {s : Cache} {g : Ghost},
    Reclaimable env s running → Shape env s g → Settled env g → (∃ p < env.cachesize, p ∉ g.fresh) →
    (freeAvail = true → TailFree s) → (!freedAll).toNat + (!freeAvail).toNat < fuel →
    (∃ new, (grabRun env now fuel freedAll freeAvail s).1 = .found new) ∧
      ∀ t ∈ (grabRun env now fuel freedAll freeAvail s).2, TailFree t := by
  induction fuel with
  | zero => exact fun _ _ _ _ _ _ _ _ _ hfuel ↦ absurd hfuel (by omega)
  | succ fuel ih =>
    intro freedAll freeAvail s g h hshape hsettled hroom hfree hfuel
    have hscan : ∀ name addr flags, ∃ g',
      Steps env Plain (s, g) ((cacheScanFree env s name addr now flags).1, g') ∧
        Swept env g g' :=
          fun name addr flags ↦ cacheScanFree_sweeps s name addr now flags g hshape hsettled.loose
    unfold grabRun
    cases htail : s.cacheTail with
    | none =>
      -- the list has the record that is not on the new chain
      obtain ⟨p, hlt, hfresh⟩ := hroom
      have hlru : p ∈ g.lru := by
        rcases hshape.mem_pool_iff.mpr hlt with hmem | hmem | hmem
        · exact hmem
        · exact absurd hmem hfresh
        · rw [hsettled.loose] at hmem
          exact absurd hmem List.not_mem_nil
      rw [hshape.lru.tail_eq, List.getLast?_eq_none_iff] at htail
      rw [htail] at hlru
      exact absurd hlru List.not_mem_nil
    | some new =>
      dsimp only
      split_ifs with hused hdone hall
      · obtain ⟨other, hother, hnot⟩ := hfree hdone
        obtain rfl := Option.some.inj (htail.symm.trans hother)
        exact absurd hused hnot
      · obtain ⟨g', hsteps, hswept⟩ :=
          hscan ⟨(s.crec new).name, some new⟩ (s.crec new).addr (s.crec new).flags
        have hspill := h.spill hshape hsettled htail hused now
        obtain ⟨hfound, hspilled⟩ :=
          ih freedAll true (h.of_swept hshape hsteps hswept) (hshape.steps hsteps)
          (hsettled.of_frame hswept.toFrame.toLocal)
            (by rw [hswept.fresh]; exact hroom) (fun _ ↦ hspill) (by
            simp only [hall, hdone, Bool.not_true, Bool.toNat_false, Bool.not_false,
              Bool.toNat_true] at hfuel ⊢
            omega)
        refine ⟨hfound, fun t ht ↦ ?_⟩
        rcases List.mem_cons.mp ht with rfl | ht
        · exact hspill
        · exact hspilled t ht
      · obtain ⟨g', hsteps, hswept⟩ := hscan ⟨[], none⟩ [] ∅
        refine ih true freeAvail (h.of_swept hshape hsteps hswept) (hshape.steps hsteps)
          (hsettled.of_frame hswept.toFrame.toLocal) (by rw [hswept.fresh]; exact hroom)
          (fun htrue ↦ absurd htrue hdone) (by
            simp only [hall, hdone, Bool.not_true, Bool.toNat_false, Bool.not_false,
              Bool.toNat_true] at hfuel ⊢
            omega)
      · exact ⟨⟨new, rfl⟩, by simp⟩

end Reclaimable

/-- Whatever is inserted, the loop of `cache_insert` gets a free record: it does not give up, and
after every scan for the last record of the LRU list that record is free. This is for a state in
which some record of the pool is not on the new chain, and for an insertion that comes to the loop.
-/
def Reclaims (env : Env) (s : Cache) : Prop :=
  (∃ p < env.cachesize, ¬ OnNewChain s p) → s.insertError = false →
  ∀ (name addr : Option (List UInt8)) (now : ℤ) (flags : Flags),
    (cacheScanFree env s ⟨name.getD [], none⟩ (addr.getD []) now flags).2 = true →
    (∃ new, (grabRun env now 3 (.reverse ∈ flags) false
      (cacheScanFree env s ⟨name.getD [], none⟩ (addr.getD []) now flags).1).1 = .found new) ∧
      ∀ t ∈ (grabRun env now 3 (.reverse ∈ flags) false
        (cacheScanFree env s ⟨name.getD [], none⟩ (addr.getD []) now flags).1).2, TailFree t

theorem Reclaimable.reclaims {running : Bool} (h : Reclaimable env s running)
    (hshape : Shape env s g) (hsettled : Settled env g) : Reclaims env s := by
  rintro ⟨p, hlt, hnot⟩ _ name addr now flags _
  obtain ⟨g', hsteps, hswept⟩ :=
    cacheScanFree_sweeps s ⟨name.getD [], none⟩ (addr.getD []) now flags g hshape hsettled.loose
  rw [hshape.onNewChain_iff, ← hswept.fresh] at hnot
  exact (h.of_swept hshape hsteps hswept).grabRun_found now 3 _ false (hshape.steps hsteps)
    (hsettled.of_frame hswept.toFrame.toLocal) ⟨p, hlt, hnot⟩ (fun htrue ↦ absurd htrue (by decide))
    (by cases decide (Flag.reverse ∈ flags) <;> decide)

/-- So the loop has a record to return, if `cache_insert` comes to it. -/
theorem Reclaims.grabTail (h : Reclaims env s) (hroom : ∃ p < env.cachesize, ¬ OnNewChain s p)
    (herror : s.insertError = false) {name addr : Option (List UInt8)} {now : ℤ} {flags : Flags}
    (hscan : (cacheScanFree env s ⟨name.getD [], none⟩ (addr.getD []) now flags).2 = true) :
    ∃ new, (Dnsmasq.grabTail env now 3 (.reverse ∈ flags) false
      (cacheScanFree env s ⟨name.getD [], none⟩ (addr.getD []) now flags).1).2 = some new := by
  obtain ⟨⟨new, hfound⟩, -⟩ := h hroom herror name addr now flags hscan
  exact ⟨new, by rw [grabTail_eq_grabRun, hfound, GrabEnd.record]⟩

end CrossBreeder.Dnsmasq
