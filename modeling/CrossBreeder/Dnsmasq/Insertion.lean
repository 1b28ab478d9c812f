import CrossBreeder.Dnsmasq.CacheLoops

/-!
# Insertion of a batch

`cache_start_insert`, `cache_insert` and `cache_end_insert` as sequences of steps. The first empties
the new chain into the LRU list, the second puts one record on it or nothing, and the third empties
it into the hash table, except for CNAMEs without a target.
-/

namespace CrossBreeder.Dnsmasq

open Foundation

variable {env : Env}

/-! ### The new chain is emptied -/

def Batch (kind : Kind) : Prop := kind = .plain ∨ kind = .pop

theorem Batch.plain : Batch .plain := .inl rfl

theorem Batch.pop : Batch .pop := .inr rfl

structure Emptied (g g' : Ghost) : Prop where
  fresh : g'.fresh = []
  spare : g'.spare = g.spare
  loose : g'.loose = g.loose
  held : g'.held = g.held
  unhashed : ∀ crecp ∈ g'.unhashed, crecp ∈ g.unhashed

variable {s : Cache} {g : Ghost}

theorem Shape.length_fresh_lt (h : Shape env s g) :
    g.fresh.length < s.walkFuel := by
  have hnodup : g.fresh.Nodup :=
    (List.nodup_append.mp (List.nodup_append.mp h.poolNodup).2.1).1
  have hle : g.fresh.toFinset.card ≤ s.live.card := by
    refine Finset.card_le_card fun record hrecord ↦ ?_
    exact h.poolLive record (h.lt_of_mem_fresh (List.mem_toFinset.mp hrecord))
  rw [List.toFinset_card_of_nodup hnodup] at hle
  unfold Cache.walkFuel
  omega

theorem cacheFree_newChain (s : Cache) (crecp : Addr) (newChain : Option Addr) :
    cacheFree { s with newChain := newChain } crecp =
    { cacheFree s crecp with newChain := newChain } := by
  unfold cacheFree
  by_cases hbig : Flag.bigname ∈ s.flags crecp
  · have hbig' : Flag.bigname ∈ ({ s with newChain := newChain } : Cache).flags crecp := hbig
    simp only [hbig, hbig', decide_true, if_true]
    rfl
  · have hbig' : Flag.bigname ∉ ({ s with newChain := newChain } : Cache).flags crecp := hbig
    simp only [hbig, hbig', decide_false, Bool.false_eq_true, if_false]
    rfl

theorem steps_popFree {crecp : Addr} {rest : List Addr} (h : Shape env s g)
    (hfresh : g.fresh = crecp :: rest) :
    ∃ g', Steps env Batch (s, g) ({ cacheFree s crecp with newChain := s.next crecp }, g') ∧
      g'.fresh = rest ∧ g'.spare = g.spare ∧ g'.loose = g.loose ∧ g'.held = g.held ∧
      g'.chain = g.chain ∧ ∀ record ∈ g'.unhashed, record ∈ g.unhashed := by
  have hout : g.Out crecp := h.out_of_fresh (by simp [hfresh])
  have hpop : Step env .pop (s, g) ({ s with newChain := s.next crecp }, _) := .pop hfresh
  have hfree : Step env .plain ({ s with newChain := s.next crecp }, { g with
      fresh := rest, loose := crecp :: g.loose, unhashed := crecp :: g.unhashed })
      (cacheFree { s with newChain := s.next crecp } crecp, _) := .free rfl hout
  rw [cacheFree_newChain] at hfree
  refine ⟨_, (Steps.single Batch.pop hpop).tail Batch.plain hfree, rfl, rfl, rfl, rfl, rfl, ?_⟩
  intro record hrecord
  obtain ⟨hmem, hne⟩ := List.mem_filter.mp hrecord
  rcases List.mem_cons.mp hmem with rfl | hold
  · simp at hne
  · exact hold

theorem freeNewChain_steps (fresh : List Addr) :
    ∀ {fuel : ℕ} {s : Cache} {g : Ghost}, Shape env s g → g.fresh = fresh → fresh.length < fuel →
      ∃ g', Steps env Batch (s, g) (freeNewChain fuel s, g') ∧ Emptied g g' ∧
      g'.chain = g.chain := by
  induction fresh with
  | nil =>
    intro fuel s g hshape hfresh hfuel
    obtain ⟨fuel, rfl⟩ : ∃ k, fuel = k + 1 := ⟨fuel - 1, by simp at hfuel; omega⟩
    have hnone : s.newChain = none := by rw [hshape.fresh.1, hfresh]; rfl
    simp only [freeNewChain, hnone]
    exact ⟨g, Steps.refl _, ⟨hfresh, rfl, rfl, rfl, fun _ hmem ↦ hmem⟩, rfl⟩
  | cons crecp rest ih =>
    intro fuel s g hshape hfresh hfuel
    obtain ⟨fuel, rfl⟩ : ∃ k, fuel = k + 1 := ⟨fuel - 1, by simp at hfuel; omega⟩
    have hsome : s.newChain = some crecp := by rw [hshape.fresh.1, hfresh]; rfl
    simp only [freeNewChain, hsome]
    obtain ⟨g', hsteps, hrest, hspare, hloose, hheld, hchain, hunhashed⟩ :=
      steps_popFree hshape hfresh
    obtain ⟨g'', hsteps', hempty, hchain'⟩ := ih (hshape.steps hsteps) hrest (by simpa using hfuel)
    refine ⟨g'', hsteps.trans hsteps',
      ⟨hempty.fresh, hempty.spare.trans hspare, hempty.loose.trans hloose,
      hempty.held.trans hheld, fun record hrecord ↦
        hunhashed record (hempty.unhashed record hrecord)⟩,
      hchain'.trans hchain⟩

theorem cacheStartInsert_steps (hshape : Shape env s g) :
    ∃ g', Steps env Batch (s, g) (cacheStartInsert s, g') ∧ Emptied g g' ∧ g'.chain = g.chain := by
  obtain ⟨g', hsteps, hempty, hchain⟩ :=
    freeNewChain_steps g.fresh hshape rfl hshape.length_fresh_lt
  obtain ⟨t, ht⟩ : ∃ t, t = freeNewChain s.walkFuel s := ⟨_, rfl⟩
  have hnone : t.newChain = none := by
    have hshape' : Shape env t g' := by rw [ht]; exact hshape.steps hsteps
    rw [hshape'.fresh.1, hempty.fresh]
    rfl
  have hresult : cacheStartInsert s = { t with
      insertError := false, bigFree := t.bigFree, bignamesLeft := t.bignamesLeft, uid := t.uid
      mallocs := t.mallocs } := by
    unfold cacheStartInsert
    rw [← ht, ← hnone]
  rw [hresult]
  rw [← ht] at hsteps
  exact ⟨g', hsteps.tail Batch.plain (.counters false _ _ _ (Nat.le_refl _)), hempty, hchain⟩

/-! ### The batch is committed -/

theorem skipWhile_congr (s s' : Cache) (hcrec : s'.crec = s.crec) (hhash : s'.hash = s.hash)
    (skip : Flags → Bool) (fuel : ℕ) (up : Slot) :
    skipWhile s' skip fuel up = skipWhile s skip fuel up := by
  induction fuel generalizing up with
  | zero => rfl
  | succ fuel ih =>
    rw [skipWhile, skipWhile, hhash]
    cases s.hash up with
    | none => rfl
    | some crecp =>
      have hflags : s'.flags crecp = s.flags crecp := by
        unfold Cache.flags
        rw [hcrec]
      dsimp only
      rw [hflags, ih]

theorem cacheHash_newChain (s : Cache) (crecp : Addr) (newChain : Option Addr) :
    cacheHash env { s with newChain := newChain } crecp =
      { cacheHash env s crecp with newChain := newChain } := by
  have hplace : hashPlace env { s with newChain := newChain } crecp = hashPlace env s crecp := by
    have hskip := skipWhile_congr s { s with newChain := newChain } rfl rfl
    unfold hashPlace
    simp only [hskip]
    rfl
  unfold cacheHash
  rw [hplace]
  rfl

theorem mem_update_insert {chain : ℕ → List Addr} {i : ℕ} {front back : List Addr}
    (hchain : chain i = front ++ back) (crecp record : Addr) (j : ℕ) :
    record ∈ Function.update chain i (front ++ crecp :: back) j ↔
      record ∈ chain j ∨ record = crecp ∧ j = i := by
  by_cases hji : j = i
  · rw [hji, Function.update_self, hchain]
    simp only [List.mem_append, List.mem_cons, and_true]
    grind
  · rw [Function.update_of_ne hji]
    simp [hji]

theorem exists_step_hash {crecp : Addr} (h : Shape env s g) (hout : g.Out crecp)
    (hused : InUse (s.flags crecp)) (hlive : crecp ∈ s.live)
    (hlocal : env.cachesize ≤ crecp → Meets (s.flags crecp) localFlags)
    (hapart : crecp ∉ g.fresh ∧ crecp ∉ g.spare)
    (hlinked : env.cachesize ≤ crecp → .cname ∈ s.flags crecp →
      ∃ target, LinkedNow env s g crecp target) :
    ∃ chain, Step env .plain (s, g) (cacheHash env s crecp,
        { g with
          chain := chain
          unhashed := g.unhashed.filter (· ≠ crecp)
          held := g.held.filter (· ≠ crecp) }) ∧
      ∀ record i, record ∈ chain i ↔
        record ∈ g.chain i ∨ record = crecp ∧ i = hashBucket env s.hashSize (s.name crecp) := by
  obtain ⟨front, back, hchain, hplace, hfront, hback⟩ := h.hashPlace_spec crecp
  exact ⟨_, .hash rfl hchain hplace hfront hback hout hused hlive hlocal hapart hlinked,
    mem_update_insert hchain crecp⟩

theorem steps_commit {crecp : Addr} {rest : List Addr} (h : Shape env s g)
    (hfresh : g.fresh = crecp :: rest) :
    ∃ g', Steps env Batch (s, g)
        ({ cacheLink (cacheHash env s crecp) crecp with newChain := s.next crecp }, g') ∧
      g'.fresh = rest ∧ g'.spare = g.spare ∧ g'.loose = g.loose ∧ g'.held = g.held ∧
      (∀ record ∈ g'.unhashed, record ∈ g.unhashed) ∧
      ∀ record i, record ∈ g'.chain i ↔
        record ∈ g.chain i ∨ record = crecp ∧ i = hashBucket env s.hashSize (s.name crecp) := by
  have hmem : crecp ∈ g.fresh := by simp [hfresh]
  have hlt := h.lt_of_mem_fresh hmem
  have hpop : Step env .pop (s, g) ({ s with newChain := s.next crecp }, _) := .pop hfresh
  have hpopped := h.step hpop
  have hrest : crecp ∉ rest := by
    have hnodup := (List.nodup_append.mp (List.nodup_append.mp h.poolNodup).2.1).1
    rw [hfresh] at hnodup
    exact (List.nodup_cons.mp hnodup).1
  have hheld : crecp ∉ g.held := fun hheld ↦ absurd hlt (Nat.not_lt.mpr (h.le_of_mem_held hheld))
  obtain ⟨chain, hhash, hchain⟩ :=
    exists_step_hash hpopped (h.out_of_fresh hmem) (h.freshUse crecp hmem)
    (h.poolLive crecp hlt) (fun hle ↦ absurd hlt (Nat.not_lt.mpr hle))
    ⟨hrest, fun hspare ↦ absurd hlt (Nat.not_lt.mpr (h.le_of_mem_spare hspare))⟩
    (fun hle ↦ absurd hlt (Nat.not_lt.mpr hle))
  have hlink : Step env .plain (cacheHash env { s with newChain := s.next crecp } crecp, { g with
      fresh := rest, loose := crecp :: g.loose
      unhashed := (crecp :: g.unhashed).filter (· ≠ crecp)
      chain := chain, held := g.held.filter (· ≠ crecp) }) (_, _) := .link rfl
  have hsteps := ((Steps.single Batch.pop hpop).tail Batch.plain hhash).tail Batch.plain hlink
  rw [cacheHash_newChain] at hsteps
  refine ⟨_, hsteps, rfl, rfl, rfl, ?_, ?_, hchain⟩
  · exact List.filter_eq_self.mpr fun record hrecord ↦ by
      simpa using ne_of_mem_of_not_mem hrecord hheld
  · intro record hrecord
    obtain ⟨hmem, hne⟩ := List.mem_filter.mp hrecord
    rcases List.mem_cons.mp hmem with rfl | hold
    · simp at hne
    · exact hold

theorem commitNewChain_steps (fresh : List Addr) :
    ∀ {fuel : ℕ} {s : Cache} {g : Ghost}, Shape env s g → g.fresh = fresh → fresh.length < fuel →
      ∃ g', Steps env Batch (s, g) (commitNewChain env fuel s, g') ∧ Emptied g g' ∧
        ∀ record, g'.Holds record → g.Holds record ∨ record ∈ g.fresh := by
  induction fresh with
  | nil =>
    intro fuel s g hshape hfresh hfuel
    obtain ⟨fuel, rfl⟩ : ∃ k, fuel = k + 1 := ⟨fuel - 1, by simp at hfuel; omega⟩
    have hnone : s.newChain = none := by rw [hshape.fresh.1, hfresh]; rfl
    simp only [commitNewChain, hnone]
    exact ⟨g, Steps.refl _, ⟨hfresh, rfl, rfl, rfl, fun _ hmem ↦ hmem⟩, fun _ hmem ↦ .inl hmem⟩
  | cons crecp rest ih =>
    intro fuel s g hshape hfresh hfuel
    obtain ⟨fuel, rfl⟩ : ∃ k, fuel = k + 1 := ⟨fuel - 1, by simp at hfuel; omega⟩
    have hsome : s.newChain = some crecp := by rw [hshape.fresh.1, hfresh]; rfl
    simp only [commitNewChain, hsome]
    have hstep : ∃ g', Steps env Batch (s, g)
        ({ (if isOutdatedCnamePointer s crecp then cacheFree s crecp
            else cacheLink (cacheHash env s crecp) crecp) with newChain := s.next crecp }, g') ∧
        g'.fresh = rest ∧ g'.spare = g.spare ∧ g'.loose = g.loose ∧ g'.held = g.held ∧
        (∀ record ∈ g'.unhashed, record ∈ g.unhashed) ∧
        ∀ record, g'.Holds record → g.Holds record ∨ record = crecp := by
      split_ifs
      · obtain ⟨g', hsteps, hrest, hspare, hloose, hheld, hchain, hunhashed⟩ :=
          steps_popFree hshape hfresh
        refine ⟨g', hsteps, hrest, hspare, hloose, hheld, hunhashed, fun record hmem ↦ .inl ?_⟩
        unfold Ghost.Holds at hmem ⊢
        rwa [hchain] at hmem
      · obtain ⟨g', hsteps, hrest, hspare, hloose, hheld, hunhashed, hchain⟩ :=
          steps_commit hshape hfresh
        refine ⟨g', hsteps, hrest, hspare, hloose, hheld, hunhashed, ?_⟩
        rintro record ⟨i, hi⟩
        exact ((hchain record i).mp hi).imp (fun hold ↦ ⟨i, hold⟩) And.left
    obtain ⟨g', hsteps, hrest, hspare, hloose, hheld, hunhashed, htable⟩ := hstep
    obtain ⟨g'', hsteps', hempty, htable'⟩ := ih (hshape.steps hsteps) hrest (by simpa using hfuel)
    refine ⟨g'', hsteps.trans hsteps',
      ⟨hempty.fresh, hempty.spare.trans hspare, hempty.loose.trans hloose,
      hempty.held.trans hheld, fun record hrecord ↦
        hunhashed record (hempty.unhashed record hrecord)⟩, ?_⟩
    intro record hrecord
    rw [hfresh, List.mem_cons]
    rcases htable' record hrecord with hmem | hmem
    · exact (htable record hmem).imp_right .inl
    · exact .inr (.inr (by rwa [hrest] at hmem))

theorem cacheEndInsert_steps (hshape : Shape env s g)
    (herror : s.insertError = false) :
    ∃ g', Steps env Batch (s, g) (cacheEndInsert env s, g') ∧ Emptied g g' ∧
      ∀ record, g'.Holds record → g.Holds record ∨ record ∈ g.fresh := by
  obtain ⟨g', hsteps, hempty, htable⟩ :=
    commitNewChain_steps g.fresh hshape rfl hshape.length_fresh_lt
  obtain ⟨t, ht⟩ : ∃ t, t = commitNewChain env s.walkFuel s := ⟨_, rfl⟩
  have hnone : t.newChain = none := by
    have hshape' : Shape env t g' := by rw [ht]; exact hshape.steps hsteps
    rw [hshape'.fresh.1, hempty.fresh]
    rfl
  have hresult : cacheEndInsert env s = t := by
    unfold cacheEndInsert
    rw [herror, ← ht, if_neg (by simp), ← hnone]
  rw [hresult, ht]
  exact ⟨g', hsteps, hempty, htable⟩

/-! ### One record -/

/-- The state after a record in hand got new contents and went to the new chain. -/
def fillState (s : Cache) (new : Addr) (contents : Crec) : Cache :=
  { s with
    crec := Function.update s.crec new contents
    serials := s.serials + 1
    next := Function.update s.next new s.newChain
    newChain := some new }

/-- The contents that `cache_insert` gives to a record. -/
def entryContents (s : Cache) (new : Addr) (name addr : Option (List UInt8)) (ttd : ℤ)
    (flags : Flags) (big : Bool) : Crec :=
  { s.crec new with
    flags := if big then insert .bigname flags else flags
    name := name.getD []
    addr := addr.getD (s.crec new).addr
    ttd := ttd
    serial := s.serials }

theorem fillEntry_eq (s : Cache) (new : Addr) (name addr : Option (List UInt8)) (ttd : ℤ)
    (flags : Flags) (big : Bool) :
    fillEntry s new name addr ttd flags big =
      fillState (cacheUnlink s new) new (entryContents s new name addr ttd flags big) := by
  unfold fillEntry fillState entryContents Cache.renew Cache.modify
  simp [Function.update_idem]
  rfl

/-- The record that the loop of `cache_insert` finds is the last one of the LRU list, and it is
free. -/
theorem grabTail_spec (now : ℤ) (fuel : ℕ) :
    ∀ (freedAll freeAvail : Bool) (s : Cache),
      Sweeps env s (grabTail env now fuel freedAll freeAvail s).1 ∧
      ∀ new, (grabTail env now fuel freedAll freeAvail s).2 = some new →
        (grabTail env now fuel freedAll freeAvail s).1.cacheTail = some new ∧
        ¬ InUse ((grabTail env now fuel freedAll freeAvail s).1.flags new) := by
  induction fuel with
  | zero => exact fun _ _ s ↦ ⟨Sweeps.refl s, fun new hnew ↦ absurd hnew (by simp [grabTail])⟩
  | succ fuel ih =>
    intro freedAll freeAvail s
    have herror : ∀ cacheTail, s.cacheTail = cacheTail →
        Sweeps env s { s with insertError := true, cacheTail := cacheTail } := by
      rintro cacheTail rfl
      exact Sweeps.of_counters s true s.bigFree s.bignamesLeft s.mallocs
    unfold grabTail
    cases htail : s.cacheTail with
    | none => exact ⟨herror none htail, by simp⟩
    | some new =>
      dsimp only
      split_ifs with hused hfree hall
      · exact ⟨herror _ htail, by simp⟩
      · obtain ⟨hsweeps, hfound⟩ := ih freedAll true (cacheScanFree env s
          ⟨(s.crec new).name, some new⟩ (s.crec new).addr now (s.crec new).flags).1
        exact ⟨(cacheScanFree_sweeps _ _ _ _ _).trans hsweeps, hfound⟩
      · obtain ⟨hsweeps, hfound⟩ := ih true freeAvail (cacheScanFree env s ⟨[], none⟩ [] now ∅).1
        exact ⟨(cacheScanFree_sweeps _ _ _ _ _).trans hsweeps, hfound⟩
      · refine ⟨Sweeps.refl s, fun found hfound ↦ ?_⟩
        obtain rfl := Option.some.inj hfound
        exact ⟨htail, hused⟩

theorem grabTail_error (now : ℤ) (fuel : ℕ) :
    ∀ (freedAll freeAvail : Bool) (s : Cache), (!freedAll).toNat + (!freeAvail).toNat < fuel →
      (grabTail env now fuel freedAll freeAvail s).2 = none →
      (grabTail env now fuel freedAll freeAvail s).1.insertError = true := by
  induction fuel with
  | zero => exact fun _ _ _ hfuel ↦ absurd hfuel (by omega)
  | succ fuel ih =>
    intro freedAll freeAvail s hfuel
    unfold grabTail
    cases s.cacheTail with
    | none => exact fun _ ↦ rfl
    | some new =>
      dsimp only
      split_ifs with hused hfree hall
      · exact fun _ ↦ rfl
      · refine ih freedAll true _ ?_
        simp only [hall, hfree, Bool.not_true, Bool.toNat_false, Bool.not_false,
          Bool.toNat_true] at hfuel ⊢
        omega
      · refine ih true freeAvail _ ?_
        simp only [hall, hfree, Bool.not_true, Bool.toNat_false, Bool.not_false,
          Bool.toNat_true] at hfuel ⊢
        omega
      · exact fun hnone ↦ absurd hnone (by simp)

theorem takeBigname_spec (s : Cache) :
    Sweeps env s (takeBigname env s).1 ∧ (takeBigname env s).1.cacheTail = s.cacheTail ∧
      (takeBigname env s).1.crec = s.crec := by
  unfold takeBigname
  split_ifs
  · exact ⟨Sweeps.of_counters s s.insertError _ _ _, rfl, rfl⟩
  · exact ⟨Sweeps.refl s, rfl, rfl⟩
  · dsimp only
    split_ifs
    · exact ⟨Sweeps.of_counters s s.insertError _ _ _, rfl, rfl⟩
    · exact ⟨Sweeps.of_counters s s.insertError _ _ _, rfl, rfl⟩

/-- No entry of the table is one that an entry with the flags replaces. -/
def NoneReplaced (s : Cache) (g : Ghost) (flags : Flags) (name : List UInt8) : Prop :=
  .forward ∈ flags → ∀ crecp, g.Holds crecp → replaced s flags name crecp = false

/-- What `cache_insert` does: it fails and leaves nothing in hand, or it gives contents to a free
record that it has taken off the LRU list. -/
inductive Inserted (env : Env) (s : Cache) (g : Ghost) (name addr : Option (List UInt8))
    (flags : Flags) : Cache × Option Addr → Prop
  | failed {s' : Cache} {g' : Ghost} (hsteps : Steps env Plain (s, g) (s', g'))
    (hswept : Swept env g g')
      (herror : s'.insertError = true) : Inserted env s g name addr flags (s', none)
  | filled {s' : Cache} {g' : Ghost} {new : Addr} {ttd : ℤ} {big : Bool}
      (hsteps : Steps env Plain (s, g) (s', g'))
      (hswept : Swept env { g with loose := [new] } g') (hout : g'.Out new)
      (hfree : ¬ InUse (s'.flags new)) (hnone : NoneReplaced s' g' flags (name.getD [])) :
      Inserted env s g name addr flags
        (fillState s' new (entryContents s' new name addr ttd flags big), some new)

/-- The last record of the LRU list is taken off it and gets contents. -/
theorem Inserted.of_tail {s s' : Cache} {g g' : Ghost} (hshape : Shape env s g)
    (hloose : g.loose = []) (hsteps : Steps env Plain (s, g) (s', g')) (hswept : Swept env g g')
    {new : Addr} (htail : s'.cacheTail = some new) (hfree : ¬ InUse (s'.flags new))
    (name addr : Option (List UInt8)) (ttd : ℤ) {flags : Flags} (big : Bool)
    (hnone : NoneReplaced s' g' flags (name.getD [])) :
    Inserted env s g name addr flags (fillEntry s' new name addr ttd flags big, some new) := by
  have hshape' : Shape env s' g' := hshape.steps hsteps
  have hlast : g'.lru.getLast? = some new := by rw [← hshape'.lru.tail_eq, htail]
  obtain ⟨front, hlru⟩ : ∃ front, g'.lru = front ++ [new] := by
    obtain ⟨front, hfront⟩ := List.getLast?_eq_some_iff.mp hlast
    exact ⟨front, hfront⟩
  have hunlink : Step env .plain (s', g') (cacheUnlink s' new, _) := .unlink hlru
  rw [fillEntry_eq]
  refine .filled (hsteps.tail Plain.plain hunlink) ⟨⟨hswept.fresh, hswept.spare, ?_, hswept.held,
    hswept.unhashed⟩, hswept.table⟩ ?_ hfree hnone
  · rw [hswept.loose, hloose]
  · exact fun i hmem ↦ hfree (hshape'.member i new hmem).used

theorem NoneReplaced.steps {s s' : Cache} {g g' : Ghost} {flags : Flags} {name : List UInt8}
    (h : NoneReplaced s g flags name) (hshape : Shape env s g)
    (hsteps : Steps env Plain (s, g) (s', g')) (hswept : Swept env g g') :
    NoneReplaced s' g' flags name := by
  intro hforward crecp hmem
  have hold := h hforward crecp (hswept.table crecp hmem)
  unfold replaced Cache.flags Cache.name at hold ⊢
  rw [hshape.crec_of_holds hsteps hmem]
  exact hold

theorem cacheScanFree_noneReplaced (hshape : Shape env s g) (hloose : g.loose = [])
    (text addr : List UInt8) (now : ℤ) (flags : Flags) :
    ∃ g', Steps env Plain (s, g) ((cacheScanFree env s ⟨text, none⟩ addr now flags).1, g') ∧
      Swept env g g' ∧ ((cacheScanFree env s ⟨text, none⟩ addr now flags).2 = true →
        NoneReplaced (cacheScanFree env s ⟨text, none⟩ addr now flags).1 g' flags text) := by
  by_cases hforward : Flag.forward ∈ flags
  · obtain ⟨g', hsteps, hswept, hleft⟩ := cacheScanFree_forward hshape hloose text addr now hforward
    refine ⟨g', hsteps, hswept, fun hok _ record hrecord ↦ ?_⟩
    by_contra hreplaced
    have hfalse := (hleft record hrecord (by simpa using hreplaced)).1
    exact absurd (hok.symm.trans hfalse) (by decide)
  · obtain ⟨g', hsteps, hswept⟩ :=
      cacheScanFree_sweeps s ⟨text, none⟩ addr now flags g hshape hloose
    exact ⟨g', hsteps, hswept, fun _ hmem ↦ absurd hmem hforward⟩

theorem cacheInsert_spec (hshape : Shape env s g) (hloose : g.loose = [])
    (name addr : Option (List UInt8)) (now : ℤ) (ttl : ℕ) (flags : Flags) :
    Inserted env s g name addr flags (cacheInsert env s name addr now ttl flags) := by
  unfold cacheInsert
  generalize (if env.maxCacheTtl ≠ 0 ∧ env.maxCacheTtl < ttl then env.maxCacheTtl else ttl) = ttl
  obtain ⟨g₁, hsteps₁, hswept₁, hnone⟩ :=
    cacheScanFree_noneReplaced hshape hloose (name.getD []) (addr.getD []) now flags
  split
  · next herror => exact .failed (Steps.refl _) (Swept.refl g) herror
  · generalize cacheScanFree env s ⟨name.getD [], none⟩ (addr.getD []) now flags =
      scanned at hsteps₁ hnone
    obtain ⟨t, ok⟩ := scanned
    dsimp only at hsteps₁ hnone ⊢
    have hshape₁ : Shape env t g₁ := hshape.steps hsteps₁
    have hloose₁ := hswept₁.loose.trans hloose
    split
    · -- the name is one of a hosts file or a lease
      obtain ⟨g', hsteps, hswept⟩ :=
        Sweeps.of_counters t true t.bigFree t.bignamesLeft t.mallocs g₁ hshape₁ hloose₁
      exact .failed (hsteps₁.trans hsteps) (hswept₁.trans hswept) rfl
    · next hok =>
      replace hnone := hnone (by simpa using hok)
      obtain ⟨hgrabbed, hfound⟩ := @grabTail_spec env now 3 (.reverse ∈ flags) false t
      have herror := @grabTail_error env now 3 (.reverse ∈ flags) false t
        (by cases decide (Flag.reverse ∈ flags) <;> decide)
      generalize grabTail env now 3 (.reverse ∈ flags) false t = grabbed at hgrabbed hfound herror
      obtain ⟨u, found⟩ := grabbed
      cases found with
      | none =>
        obtain ⟨g', hsteps, hswept⟩ := hgrabbed g₁ hshape₁ hloose₁
        exact .failed (hsteps₁.trans hsteps) (hswept₁.trans hswept) (herror rfl)
      | some new =>
        obtain ⟨htail, hfree⟩ := hfound new rfl
        dsimp only at hgrabbed htail hfree ⊢
        split
        · obtain ⟨htaken, htail', hcrec⟩ := @takeBigname_spec env u
          generalize takeBigname env u = taken at htaken htail' hcrec
          obtain ⟨v, granted⟩ := taken
          split
          · obtain ⟨g', hsteps, hswept⟩ := (hgrabbed.trans htaken) g₁ hshape₁ hloose₁
            refine Inserted.of_tail hshape hloose (hsteps₁.trans hsteps) (hswept₁.trans hswept)
              (htail'.trans htail) ?_ name addr _ true (hnone.steps hshape₁ hsteps hswept)
            unfold Cache.flags
            rw [hcrec]
            exact hfree
          · -- no buffer for the name
            obtain ⟨g', hsteps, hswept⟩ := ((hgrabbed.trans htaken).trans
              (Sweeps.of_counters v true _ _ _)) g₁ hshape₁ hloose₁
            exact .failed (hsteps₁.trans hsteps) (hswept₁.trans hswept) rfl
        · obtain ⟨g', hsteps, hswept⟩ := hgrabbed g₁ hshape₁ hloose₁
          exact Inserted.of_tail hshape hloose (hsteps₁.trans hsteps) (hswept₁.trans hswept) htail
            hfree name addr _ false (hnone.steps hshape₁ hsteps hswept)

/-! ### The error flag -/

section InsertError

variable {τ : Type} {verdict : Cache → τ → Addr → Verdict}
    {onKeep onDrop : Cache → τ → Addr → Cache × τ}

theorem insertError_walkChain
    (hkeep : ∀ s value crecp, (onKeep s value crecp).1.insertError = s.insertError)
    (hdrop : ∀ s value crecp, (onDrop s value crecp).1.insertError = s.insertError) (fuel : ℕ) :
    ∀ (up : Slot) (crecp : Option Addr) (s : Cache) (value : τ),
      (walkChain verdict onKeep onDrop fuel up crecp s value).1.1.insertError = s.insertError := by
  induction fuel with
  | zero => exact fun _ _ _ _ ↦ rfl
  | succ fuel ih =>
    intro up crecp s value
    cases crecp with
    | none => rfl
    | some crecp =>
      rw [walkChain]
      cases verdict s value crecp with
      | stop => rfl
      | keep => exact (ih _ _ _ _).trans (hkeep s value crecp)
      | drop => exact (ih _ _ _ _).trans (hdrop _ value crecp)

theorem insertError_walkTable
    (hkeep : ∀ s value crecp, (onKeep s value crecp).1.insertError = s.insertError)
    (hdrop : ∀ s value crecp, (onDrop s value crecp).1.insertError = s.insertError)
    (s : Cache) (value : τ) :
    (walkTable verdict onKeep onDrop s value).1.insertError = s.insertError := by
  unfold walkTable
  generalize List.range s.hashSize = buckets
  induction buckets generalizing s value with
  | nil => rfl
  | cons i buckets ih =>
    rw [List.foldl_cons]
    exact (ih _ _).trans (insertError_walkChain hkeep hdrop _ _ _ s value)

end InsertError

theorem insertError_releaseRecord (s : Cache) (crecp : Addr) :
    (releaseRecord s crecp).insertError = s.insertError := by
  unfold releaseRecord
  split_ifs
  · rfl
  · unfold cacheFree
    dsimp only
    split_ifs <;> rfl

theorem insertError_cacheScanFree (s : Cache) (name : ScanName) (addr : List UInt8) (now : ℤ)
    (flags : Flags) : (cacheScanFree env s name addr now flags).1.insertError = s.insertError := by
  unfold cacheScanFree
  split_ifs
  · exact insertError_walkChain (fun _ _ _ ↦ rfl) (fun s _ crecp ↦
      insertError_releaseRecord s crecp) _ _ _ _ _
  · exact insertError_walkTable (fun _ _ _ ↦ rfl) (fun s _ crecp ↦
      insertError_releaseRecord s crecp) _ _

theorem insertError_grabTail (now : ℤ) (fuel : ℕ) :
    ∀ (freedAll freeAvail : Bool) (s : Cache) (new : Addr),
      (grabTail env now fuel freedAll freeAvail s).2 = some new →
      (grabTail env now fuel freedAll freeAvail s).1.insertError = s.insertError := by
  induction fuel with
  | zero => exact fun _ _ _ _ hnew ↦ absurd hnew (by simp [grabTail])
  | succ fuel ih =>
    intro freedAll freeAvail s new
    unfold grabTail
    cases s.cacheTail with
    | none => exact fun hnew ↦ absurd hnew (by simp)
    | some last =>
      dsimp only
      split_ifs
      · exact fun hnew ↦ absurd hnew (by simp)
      · exact fun hnew ↦ (ih _ _ _ new hnew).trans (insertError_cacheScanFree _ _ _ _ _)
      · exact fun hnew ↦ (ih _ _ _ new hnew).trans (insertError_cacheScanFree _ _ _ _ _)
      · exact fun _ ↦ rfl

theorem insertError_takeBigname (s : Cache) :
    (takeBigname env s).1.insertError = s.insertError := by
  unfold takeBigname
  split_ifs
  · rfl
  · rfl
  · dsimp only
    split_ifs <;> rfl

theorem insertError_cacheInsert {name addr : Option (List UInt8)} {now : ℤ} {ttl : ℕ}
    {flags : Flags} {new : Addr} (h : (cacheInsert env s name addr now ttl flags).2 = some new) :
    s.insertError = false ∧ (cacheInsert env s name addr now ttl flags).1.insertError = false := by
  revert h
  have hscan := @insertError_cacheScanFree env s ⟨name.getD [], none⟩ (addr.getD []) now flags
  unfold cacheInsert
  dsimp only
  split
  · exact fun h ↦ absurd h (by simp)
  · next herror =>
    generalize cacheScanFree env s ⟨name.getD [], none⟩ (addr.getD []) now flags = scanned at hscan
    obtain ⟨t, ok⟩ := scanned
    split
    · exact fun h ↦ absurd h (by simp)
    · have hgrab := @insertError_grabTail env now 3 (.reverse ∈ flags) false t
      generalize grabTail env now 3 (.reverse ∈ flags) false t = grabbed at hgrab
      obtain ⟨u, _ | last⟩ := grabbed
      · exact fun h ↦ absurd h (by simp)
      · have hfalse : u.insertError = false := by
          rw [hgrab last rfl, hscan]
          simpa using herror
        have htake := @insertError_takeBigname env u
        dsimp only at htake ⊢
        split
        · generalize takeBigname env u = taken at htake
          obtain ⟨v, granted⟩ := taken
          split
          · exact fun _ ↦ ⟨by simpa using herror, htake.trans hfalse⟩
          · exact fun h ↦ absurd h (by simp)
        · exact fun _ ↦ ⟨by simpa using herror, hfalse⟩

end CrossBreeder.Dnsmasq
