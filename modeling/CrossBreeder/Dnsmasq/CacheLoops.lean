import CrossBreeder.Dnsmasq.CacheSteps

/-!
# The loops of the cache

Every function of `cache.c` that looks for records or makes room for one is a sequence of steps.
Most of these sequences leave nothing in hand and touch neither the new chain nor the spare records:
`Tidies` says so of the state before a call and the state after it, and `Sweeps` that the call does
not put a record into the table either.

`walkChain_spec` is the rule for a loop over a chain: what keeping a record and taking one out do to
the cache and to an invariant is all there is to show.
-/

namespace CrossBreeder.Dnsmasq

open Foundation

variable {env : Env}

/-! ### Calls that leave nothing in hand -/

/-- What a call leaves as it is: everything but the LRU list and the chains, and no record of the
pool is out of its chain that was not before. -/
structure Frame (env : Env) (g g' : Ghost) : Prop where
  fresh : g'.fresh = g.fresh
  spare : g'.spare = g.spare
  loose : g'.loose = g.loose
  held : g'.held = g.held
  unhashed : ∀ crecp ∈ g'.unhashed, crecp ∈ g.unhashed ∨ env.cachesize ≤ crecp

theorem Frame.refl (g : Ghost) : Frame env g g := ⟨rfl, rfl, rfl, rfl, fun _ hmem ↦ .inl hmem⟩

theorem Frame.trans {first second third : Ghost} (hleft : Frame env first second)
    (hright : Frame env second third) : Frame env first third where
  fresh := hright.fresh.trans hleft.fresh
  spare := hright.spare.trans hleft.spare
  loose := hright.loose.trans hleft.loose
  held := hright.held.trans hleft.held
  unhashed := fun crecp hmem ↦ (hright.unhashed crecp hmem).elim (hleft.unhashed crecp) .inr

def Plain (kind : Kind) : Prop := kind = .plain

theorem Plain.plain : Plain .plain := rfl

/-- The state after the call is reached by steps that leave nothing in hand. -/
def Tidies (env : Env) (s s' : Cache) : Prop :=
  ∀ g, Shape env s g → g.loose = [] → ∃ g', Steps env Plain (s, g) (s', g') ∧ Frame env g g'

theorem Tidies.refl (s : Cache) : Tidies env s s := fun g _ _ ↦ ⟨g, Steps.refl _, Frame.refl g⟩

/-! ### Calls that put nothing into the table -/

def Ghost.Holds (g : Ghost) (crecp : Addr) : Prop := ∃ i, crecp ∈ g.chain i

structure Swept (env : Env) (g g' : Ghost) : Prop extends Frame env g g' where
  table : ∀ crecp, g'.Holds crecp → g.Holds crecp

theorem Swept.refl (g : Ghost) : Swept env g g := ⟨Frame.refl g, fun _ hmem ↦ hmem⟩

theorem Swept.trans {first second third : Ghost} (hleft : Swept env first second)
    (hright : Swept env second third) : Swept env first third :=
  ⟨hleft.toFrame.trans hright.toFrame, fun crecp hmem ↦ hleft.table crecp (hright.table crecp hmem)⟩

variable {crecp : Addr} {i : ℕ}

variable {g g' : Ghost}

theorem Ghost.Holds.of_update {nodes : List Addr}
    (hchain : g'.chain = Function.update g.chain i nodes)
    (hsub : ∀ crecp ∈ nodes, crecp ∈ g.chain i) (h : g'.Holds crecp) : g.Holds crecp := by
  obtain ⟨j, hj⟩ := h
  rw [hchain] at hj
  by_cases hji : j = i
  · rw [hji, Function.update_self] at hj
    exact ⟨i, hsub crecp hj⟩
  · rw [Function.update_of_ne hji] at hj
    exact ⟨j, hj⟩

theorem Swept.of_update (hframe : Frame env g g') {nodes : List Addr}
    (hchain : g'.chain = Function.update g.chain i nodes)
    (hsub : ∀ crecp ∈ nodes, crecp ∈ g.chain i) :
    Swept env g g' := ⟨hframe, fun _ hmem ↦ hmem.of_update hchain hsub⟩

theorem Swept.of_chain (hframe : Frame env g g') (hchain : g'.chain = g.chain) :
    Swept env g g' := by
  refine ⟨hframe, ?_⟩
  rintro crecp ⟨i, hi⟩
  rw [hchain] at hi
  exact ⟨i, hi⟩

/-- The state after a call that leaves nothing in hand and puts no record into the table. -/
def Sweeps (env : Env) (s s' : Cache) : Prop :=
  ∀ g, Shape env s g → g.loose = [] → ∃ g', Steps env Plain (s, g) (s', g') ∧ Swept env g g'

theorem Sweeps.tidies {s s' : Cache} (h : Sweeps env s s') : Tidies env s s' := by
  intro g hshape hloose
  obtain ⟨g', hsteps, hswept⟩ := h g hshape hloose
  exact ⟨g', hsteps, hswept.toFrame⟩

theorem Sweeps.refl (s : Cache) : Sweeps env s s := fun g _ _ ↦ ⟨g, Steps.refl _, Swept.refl g⟩

theorem Sweeps.trans {first second third : Cache} (hleft : Sweeps env first second)
    (hright : Sweeps env second third) :
    Sweeps env first third := by
  intro g hshape hloose
  obtain ⟨g', hsteps, hswept⟩ := hleft g hshape hloose
  obtain ⟨g'', hsteps', hswept'⟩ := hright g' (hshape.steps hsteps) (hswept.loose.trans hloose)
  exact ⟨g'', hsteps.trans hsteps', hswept.trans hswept'⟩

theorem Sweeps.of_counters (s : Cache) (insertError : Bool) (bigFree bignamesLeft mallocs : ℕ) :
    Sweeps env s
      { s with
        insertError := insertError, bigFree := bigFree, bignamesLeft := bignamesLeft
        mallocs := mallocs } := by
  intro g _ _
  exact ⟨g, Steps.single Plain.plain (.counters insertError bigFree bignamesLeft mallocs
    (Nat.le_refl s.uid)), Swept.refl g⟩

/-! ### Records taken out and moved to the front -/

variable {g : Ghost} {s : Cache}

theorem Shape.mem_lru_of_hashed (h : Shape env s g) (hloose : g.loose = [])
    (hmem : crecp ∈ g.chain i) (hlocal : ¬ Meets (s.flags crecp) localFlags) :
    crecp ∈ g.lru := by
  rcases h.mem_pool_iff.mpr ((h.lt_iff_of_hashed hmem).mpr hlocal) with hlru | hfresh | hhand
  · exact hlru
  · exact absurd hfresh (h.member i crecp hmem).apart.1
  · rw [hloose] at hhand
    exact absurd hhand (by simp)

theorem Shape.le_of_hashed (h : Shape env s g)
    (hmem : crecp ∈ g.chain i) (hlocal : Meets (s.flags crecp) localFlags) :
    env.cachesize ≤ crecp := by
  by_contra hlt
  exact (h.lt_iff_of_hashed hmem).mp (Nat.lt_of_not_le hlt) hlocal

variable {front back : List Addr}

theorem steps_release_local (h : Shape env s g) (hchain : g.chain i = front ++ crecp :: back)
    (hlocal : Meets (s.flags crecp) localFlags) :
    ∃ g', Steps env Plain (s, g)
        (s.setLink (lastSlot Slot.record (.bucket i) front) (s.hash (.record crecp)), g') ∧
      Frame env g g' ∧ g'.chain = Function.update g.chain i (front ++ back) ∧ g'.lru = g.lru := by
  refine ⟨_, Steps.single Plain.plain (.drop hchain), ⟨rfl, rfl, rfl, rfl, ?_⟩, rfl, rfl⟩
  intro record hrecord
  rcases List.mem_cons.mp hrecord with rfl | hold
  · exact .inr (h.le_of_hashed (i := i) (by simp [hchain]) hlocal)
  · exact .inl hold

variable {before behind : List Addr}

theorem steps_release_pool (h : Shape env s g) (hchain : g.chain i = front ++ crecp :: back)
    (hlru : g.lru = before ++ crecp :: behind) :
    ∃ g', Steps env Plain (s, g) (cacheFree (cacheUnlink
        (s.setLink (lastSlot Slot.record (.bucket i) front) (s.hash (.record crecp))) crecp) crecp,
        g') ∧
      Frame env g g' ∧ g'.chain = Function.update g.chain i (front ++ back) ∧
      g'.lru = before ++ (behind ++ [crecp]) := by
  have hdrop : Step env .plain (s, g) (_, _) := .drop hchain
  set t := s.setLink (lastSlot Slot.record (.bucket i) front) (s.hash (.record crecp)) with ht
  obtain ⟨dropped, hdropped⟩ : ∃ dropped : Ghost, dropped = { g with
    chain := Function.update g.chain i (front ++ back), unhashed := crecp :: g.unhashed } :=
      ⟨_, rfl⟩
  rw [← hdropped] at hdrop
  have hunlink : Step env .plain (t, dropped) (cacheUnlink t crecp, { dropped with
      lru := before ++ behind, loose := crecp :: dropped.loose }) :=
    .unlink (by rw [hdropped]; exact hlru)
  have hout : dropped.Out crecp := by
    rw [hdropped]
    exact h.out_of_drop hchain
  have hfree : Step env .plain (cacheUnlink t crecp, { dropped with
      lru := before ++ behind, loose := crecp :: dropped.loose })
      (cacheFree (cacheUnlink t crecp) crecp, _) := .free rfl hout
  refine ⟨_, ((Steps.single Plain.plain hdrop).tail Plain.plain hunlink).tail Plain.plain hfree, ?_,
    ?_, List.append_assoc ..⟩
  · rw [hdropped]
    refine ⟨rfl, rfl, rfl, rfl, ?_⟩
    intro record hrecord
    obtain ⟨hrecord, hne⟩ := List.mem_filter.mp hrecord
    rcases List.mem_cons.mp hrecord with rfl | hold
    · simp at hne
    · exact .inl hold
  · rw [hdropped]

theorem steps_release
    (h : Shape env s g) (hloose : g.loose = []) (hchain : g.chain i = front ++ crecp :: back) :
    ∃ g', Steps env Plain (s, g)
        (releaseRecord (s.setLink (lastSlot Slot.record (.bucket i) front) (s.hash (.record crecp)))
          crecp, g') ∧
      Frame env g g' ∧ g'.chain = Function.update g.chain i (front ++ back) := by
  unfold releaseRecord
  split_ifs with hlocal
  · obtain ⟨g', hsteps, hframe, hchains, -⟩ := steps_release_local h hchain hlocal
    exact ⟨g', hsteps, hframe, hchains⟩
  · obtain ⟨before, behind, hlru⟩ :=
      List.append_of_mem (h.mem_lru_of_hashed (i := i) hloose (by simp [hchain]) hlocal)
    obtain ⟨g', hsteps, hframe, hchains, -⟩ := steps_release_pool h hchain hlru
    exact ⟨g', hsteps, hframe, hchains⟩

theorem steps_touch (s : Cache) (hlru : crecp ∈ g.lru) :
    ∃ g', Steps env Plain (s, g) (cacheLink (cacheUnlink s crecp) crecp, g') ∧ Frame env g g' ∧
      g'.chain = g.chain := by
  obtain ⟨before, behind, hsplit⟩ := List.append_of_mem hlru
  have hunlink : Step env .plain (s, g) (cacheUnlink s crecp, _) := .unlink hsplit
  have hlink : Step env .plain (cacheUnlink s crecp, { g with
      lru := before ++ behind, loose := crecp :: g.loose })
      (cacheLink (cacheUnlink s crecp) crecp, _) := .link rfl
  exact ⟨_, (Steps.single Plain.plain hunlink).tail Plain.plain hlink,
    ⟨rfl, rfl, rfl, rfl, fun _ hmem ↦ .inl hmem⟩, rfl⟩

/-! ### The rules for loops -/

section Walk

variable {τ : Type} {verdict : Cache → τ → Addr → Verdict}
    {onKeep onDrop : Cache → τ → Addr → Cache × τ}
  {allowed : Kind → Prop}

/-- What a loop has to keep true: `Inv` of the cache, its lists, the value of the loop and the
records kept so far. -/
structure WalkRule (env : Env) (allowed : Kind → Prop) (verdict : Cache → τ → Addr → Verdict)
    (onKeep onDrop : Cache → τ → Addr → Cache × τ) (Inv : Cache → Ghost → τ → List Addr → Prop) :
    Prop where
  keep : ∀ {s : Cache} {g : Ghost} {value : τ} {kept : List Addr} {crecp : Addr} {i : ℕ},
    Shape env s g → Inv s g value kept → crecp ∈ g.chain i → verdict s value crecp = .keep →
    ∃ g', Steps env allowed (s, g) ((onKeep s value crecp).1, g') ∧ g'.chain = g.chain ∧
      Inv (onKeep s value crecp).1 g' (onKeep s value crecp).2 (kept ++ [crecp])
  drop : ∀ {s : Cache} {g : Ghost} {value : τ} {kept : List Addr} {crecp : Addr} {i : ℕ}
      {front back : List Addr},
    Shape env s g → Inv s g value kept → g.chain i = front ++ crecp :: back →
    verdict s value crecp = .drop →
    ∃ g', Steps env allowed (s, g)
        ((onDrop (s.setLink (lastSlot Slot.record (.bucket i) front) (s.hash (.record crecp))) value
          crecp).1, g') ∧
      g'.chain = Function.update g.chain i (front ++ back) ∧
      Inv (onDrop (s.setLink (lastSlot Slot.record (.bucket i) front) (s.hash (.record crecp)))
        value
          crecp).1 g'
        (onDrop (s.setLink (lastSlot Slot.record (.bucket i) front) (s.hash (.record crecp))) value
          crecp).2 kept

theorem Shape.hash_record (h : Shape env s g)
    (hchain : g.chain i = front ++ crecp :: back) :
    s.hash (.record crecp) = back.head? := by
  have hlinked := h.chained i (h.lt_hashSize (show crecp ∈ g.chain i by simp [hchain]))
  rw [hchain] at hlinked
  have hback := (chain_append.mp hlinked).2.2.link_start
  rw [hback, Option.or_none]

/-- A loop over a chain from behind the records already kept: it ends at the end of the chain, or at
a record where it stops, and what it has kept is in front of that. -/
theorem walkChain_spec {Inv : Cache → Ghost → τ → List Addr → Prop}
    (hrule : WalkRule env allowed verdict onKeep onDrop Inv) (todo : List Addr) :
    ∀ {fuel : ℕ} {done : List Addr} {s : Cache} {g : Ghost} {value : τ} {kept : List Addr},
      Shape env s g → Inv s g value kept → g.chain i = done ++ todo →
      (∀ crecp ∈ done, crecp ∈ kept) → todo.length < fuel →
      ∃ g' kept' done' todo' s' value',
        walkChain verdict onKeep onDrop fuel
        (lastSlot Slot.record (.bucket i) done) todo.head? s value =
          ((s', value'), todo'.head?) ∧
        Steps env allowed (s, g) (s', g') ∧ Inv s' g' value' kept' ∧
        g'.chain = Function.update g.chain i (done' ++ todo') ∧ (∀ crecp ∈ done', crecp ∈ kept') ∧
        (∀ crecp ∈ kept, crecp ∈ kept') ∧ ∀ crecp ∈ todo'.head?,
        verdict s' value' crecp = .stop := by
  induction todo with
  | nil =>
    intro fuel done s g value kept _ hinv hchain hdone hfuel
    obtain ⟨fuel, rfl⟩ : ∃ k, fuel = k + 1 := ⟨fuel - 1, by simp at hfuel; omega⟩
    refine ⟨g, kept, done, [], s, value, rfl, Steps.refl _, hinv, ?_, hdone, fun _ h ↦ h, by simp⟩
    rw [← hchain, Function.update_eq_self]
  | cons crecp todo ih =>
    intro fuel done s g value kept hshape hinv hchain hdone hfuel
    obtain ⟨fuel, rfl⟩ : ∃ k, fuel = k + 1 := ⟨fuel - 1, by simp at hfuel; omega⟩
    have hroom : todo.length < fuel := by simpa using hfuel
    have hnext := hshape.hash_record hchain
    simp only [List.head?_cons, walkChain]
    cases hverdict : verdict s value crecp with
    | stop =>
      refine ⟨g, kept, done, crecp :: todo, s, value, rfl, Steps.refl _, hinv, ?_, hdone,
        fun _ h ↦ h, ?_⟩
      · rw [← hchain, Function.update_eq_self]
      · intro other hother
        obtain rfl : crecp = other := by simpa using hother
        exact hverdict
    | keep =>
      obtain ⟨g', hsteps, hsame, hinv'⟩ :=
        hrule.keep hshape hinv (show crecp ∈ g.chain i by simp [hchain]) hverdict
      have hshape' : Shape env (onKeep s value crecp).1 g' := hshape.steps hsteps
      have hchain' : g'.chain i = (done ++ [crecp]) ++ todo := by
        rw [hsame, hchain, List.append_assoc, List.singleton_append]
      have hnext' := hshape'.hash_record (hsame.symm ▸ hchain)
      obtain ⟨g'', kept', done', todo', s', value', hwalk, hsteps', hfinal, hchains, hdone',
        hkept, hstop⟩ :=
        ih hshape' hinv' hchain'
          (by
            intro other hother
            rcases List.mem_append.mp hother with hold | hnew
            · exact List.mem_append_left _ (hdone other hold)
            · exact List.mem_append_right _ hnew) hroom
      rw [lastSlot_concat] at hwalk
      refine ⟨g'', kept', done', todo', s', value', ?_, hsteps.trans hsteps', hfinal, ?_,
        hdone', ?_, hstop⟩
      · rw [← hnext'] at hwalk
        exact hwalk
      · rw [hchains, hsame]
      · exact fun other hother ↦ hkept other (List.mem_append_left _ hother)
    | drop =>
      obtain ⟨g', hsteps, hchains', hinv'⟩ := hrule.drop hshape hinv hchain hverdict
      have hchain' : g'.chain i = done ++ todo := by rw [hchains', Function.update_self]
      obtain ⟨g'', kept', done', todo', s', value', hwalk, hsteps', hfinal, hchains, hdone',
        hkept, hstop⟩ :=
        ih (hshape.steps hsteps) hinv' hchain' hdone hroom
      refine ⟨g'', kept', done', todo', s', value', ?_, hsteps.trans hsteps', hfinal, ?_,
        hdone', hkept, hstop⟩
      · rw [hnext] at hwalk ⊢
        exact hwalk
      · rw [hchains, hchains', Function.update_idem]

theorem walkBucket_spec {Inv : Cache → Ghost → τ → List Addr → Prop}
    (hrule : WalkRule env allowed verdict onKeep onDrop Inv) (value : τ)
    (kept : List Addr) (hshape : Shape env s g) (hi : i < s.hashSize) (hinv : Inv s g value kept) :
    ∃ g' kept' done' todo',
      (walkBucket verdict onKeep onDrop i s value).2 = todo'.head? ∧
      Steps env allowed (s, g) ((walkBucket verdict onKeep onDrop i s value).1.1, g') ∧
      Inv (walkBucket verdict onKeep onDrop i s value).1.1 g'
        (walkBucket verdict onKeep onDrop i s value).1.2 kept' ∧
      g'.chain = Function.update g.chain i (done' ++ todo') ∧ (∀ crecp ∈ done', crecp ∈ kept') ∧
      (∀ crecp ∈ kept, crecp ∈ kept') ∧
      ∀ crecp ∈ todo'.head?, verdict (walkBucket verdict onKeep onDrop i s value).1.1
        (walkBucket verdict onKeep onDrop i s value).1.2 crecp = .stop := by
  obtain ⟨g', kept', done', todo', s', value', hwalk, hsteps, hrest⟩ :=
    walkChain_spec hrule (g.chain i) hshape hinv (List.nil_append _).symm (by simp)
      (hshape.length_chain_lt i)
  have hstart : s.hash (.bucket i) = (g.chain i).head? := by
    rw [(hshape.chained i hi).link_start, Option.or_none]
  rw [lastSlot_nil, ← hstart] at hwalk
  refine ⟨g', kept', done', todo', ?_⟩
  unfold walkBucket
  rw [hwalk]
  exact ⟨rfl, hsteps, hrest⟩

/-- A loop over the table. What it has kept at the end is everything in the chains, unless it stops
somewhere. -/
theorem walkTable_spec {Inv : Cache → Ghost → τ → List Addr → Prop}
    (hrule : WalkRule env allowed verdict onKeep onDrop Inv)
    (hsize : ∀ {s g value kept s' g' value' kept'}, Inv s g value kept → Inv s' g' value' kept' →
      s'.hashSize = s.hashSize)
    (value : τ) (hshape : Shape env s g) (hinv : Inv s g value []) :
    ∃ g' kept', Steps env allowed (s, g) ((walkTable verdict onKeep onDrop s value).1, g') ∧
      Inv (walkTable verdict onKeep onDrop s value).1 g'
      (walkTable verdict onKeep onDrop s value).2 kept' ∧
      ((∀ s value crecp, verdict s value crecp ≠ .stop) → ∀ i, ∀ crecp ∈ g'.chain i,
      crecp ∈ kept') := by
  -- after the first `count` buckets
  have hloop : ∀ count ≤ s.hashSize, ∃ g' kept',
      Steps env allowed (s, g) (((List.range count).foldl
        (fun state i ↦ (walkBucket verdict onKeep onDrop i state.1 state.2).1) (s, value)).1, g') ∧
      Inv ((List.range count).foldl
        (fun state i ↦ (walkBucket verdict onKeep onDrop i state.1 state.2).1) (s, value)).1 g'
        ((List.range count).foldl
        (fun state i ↦ (walkBucket verdict onKeep onDrop i state.1 state.2).1) (s, value)).2 kept' ∧
      ((∀ s value crecp, verdict s value crecp ≠ .stop) →
        ∀ i < count, ∀ crecp ∈ g'.chain i, crecp ∈ kept') := by
    intro count
    induction count with
    | zero => exact fun _ ↦ ⟨g, [], Steps.refl _, hinv, fun _ i hi ↦ absurd hi (by omega)⟩
    | succ count ih =>
      intro hcount
      obtain ⟨g', kept', hsteps, hinv', hall⟩ := ih (by omega)
      have hbucket : count < ((List.range count).foldl
          (fun state i ↦ (walkBucket verdict onKeep onDrop i state.1 state.2).1)
            (s, value)).1.hashSize := by
        rw [hsize hinv hinv']
        omega
      obtain ⟨g'', kept'', done, todo, hend, hsteps', hinv'', hchains, hdone, hkept, hstop⟩ :=
        walkBucket_spec hrule _ kept' (hshape.steps hsteps) hbucket hinv'
      rw [List.range_succ, List.foldl_append]
      refine ⟨g'', kept'', hsteps.trans hsteps', hinv'', fun hnostop i hi crecp hcrecp ↦ ?_⟩
      rw [hchains] at hcrecp
      by_cases hlast : i = count
      · rw [hlast, Function.update_self] at hcrecp
        rcases todo with _ | ⟨first, rest⟩
        · exact hdone crecp (by simpa using hcrecp)
        · exact absurd (hstop first rfl) (hnostop _ _ _)
      · rw [Function.update_of_ne hlast] at hcrecp
        exact hkept crecp (hall hnostop i (by omega) crecp hcrecp)
  obtain ⟨g', kept', hsteps, hinv', hall⟩ := hloop s.hashSize (Nat.le_refl _)
  refine ⟨g', kept', hsteps, hinv', fun hnostop i crecp hcrecp ↦ ?_⟩
  have hi := (hshape.steps hsteps).lt_hashSize hcrecp
  rw [show _ = s.hashSize from hsize hinv hinv'] at hi
  exact hall hnostop i hi crecp hcrecp

end Walk

/-! ### `cache_scan_free` -/

@[simp] theorem hashSize_cacheFree (s : Cache) (crecp : Addr) :
    (cacheFree s crecp).hashSize = s.hashSize := by
  unfold cacheFree
  dsimp only
  split_ifs <;> rfl

@[simp] theorem hashSize_releaseRecord (s : Cache) (crecp : Addr) :
    (releaseRecord s crecp).hashSize = s.hashSize := by
  unfold releaseRecord
  split_ifs
  · rfl
  · rw [hashSize_cacheFree]
    rfl

theorem crec_releaseRecord_of_ne (s : Cache) {crecp record : Addr} (hne : record ≠ crecp) :
    (releaseRecord s crecp).crec record = s.crec record := by
  unfold releaseRecord
  split_ifs
  · rfl
  · rw [Shape.crec_cacheFree, Function.update_of_ne hne]
    rfl

/-- A record is taken out of its chain and, if it is one of the pool, given back: the table has lost
it. -/
theorem sweep_release
    (h : Shape env s g) (hloose : g.loose = []) (hchain : g.chain i = front ++ crecp :: back) :
    ∃ g', Steps env Plain (s, g)
        (releaseRecord (s.setLink (lastSlot Slot.record (.bucket i) front) (s.hash (.record crecp)))
        crecp, g') ∧
      Swept env g g' ∧ g'.chain = Function.update g.chain i (front ++ back) := by
  obtain ⟨g', hsteps, hframe, hchains⟩ := steps_release h hloose hchain
  refine ⟨g', hsteps, Swept.of_update hframe hchains fun record hrecord ↦ ?_, hchains⟩
  rw [hchain]
  rcases List.mem_append.mp hrecord with hfront | hback
  · exact List.mem_append_left _ hfront
  · exact List.mem_append_right _ (List.mem_cons_of_mem _ hback)

theorem scanRule {τ : Type} (verdict : Cache → τ → Addr → Verdict)
    (onDrop : Cache → τ → Addr → Cache × τ)
    (hdrop : ∀ s value crecp, (onDrop s value crecp).1 = releaseRecord s crecp) (size : ℕ)
    (hloose : g.loose = []) :
    WalkRule env Plain verdict keepRecord onDrop fun s g' _ _ ↦ s.hashSize =
      size ∧ Swept env g g' where
  keep := fun {s g'} _ _ _ _ _ hinv _ _ ↦ ⟨g', Steps.refl _, rfl, hinv⟩
  drop := by
    intro s g' value kept crecp i front back hshape hinv hchain _
    obtain ⟨g'', hsteps, hswept, hchains⟩ :=
      sweep_release hshape (hinv.2.loose.trans hloose) hchain
    rw [hdrop]
    exact ⟨g'', hsteps, hchains, (hashSize_releaseRecord _ _).trans hinv.1, hinv.2.trans hswept⟩

theorem cacheScanFree_sweeps (s : Cache) (name : ScanName) (addr : List UInt8) (now : ℤ)
    (flags : Flags) : Sweeps env s (cacheScanFree env s name addr now flags).1 := by
  intro g hshape hloose
  unfold cacheScanFree
  split_ifs
  · obtain ⟨g', _, _, _, -, hsteps, hinv, -⟩ :=
      walkBucket_spec (scanRule (scanForwardVerdict now flags) (scanDrop env) (fun _ _ _ ↦ rfl)
        s.hashSize hloose) name [] hshape (hashBucket_lt env hshape.table name.text)
          ⟨rfl, Swept.refl g⟩
    exact ⟨g', hsteps, hinv.2⟩
  · obtain ⟨g', _, hsteps, hinv, -⟩ :=
      walkTable_spec (scanRule (scanReverseVerdict now flags addr) (scanDrop env) (fun _ _ _ ↦ rfl)
        s.hashSize hloose) (fun hbefore hafter ↦ hafter.1.trans hbefore.1.symm) name hshape
        ⟨rfl, Swept.refl g⟩
    exact ⟨g', hsteps, hinv.2⟩

theorem crec_releaseRecord_self (s : Cache) (crecp : Addr) :
    (releaseRecord s crecp).crec crecp =
      if Meets (s.flags crecp) localFlags then s.crec crecp
      else Shape.freedContents (cacheUnlink s crecp) (s.crec crecp) := by
  unfold releaseRecord
  split_ifs
  · rfl
  · rw [Shape.crec_cacheFree, Function.update_self]
    rfl

theorem replaced_releaseRecord {flags : Flags} {name : List UInt8} {record : Addr} (crecp : Addr)
    (h : replaced s flags name record = false) :
    replaced (releaseRecord s crecp) flags name record = false := by
  by_cases heq : record = crecp
  · subst heq
    have hself := crec_releaseRecord_self s record
    split_ifs at hself with hlocal
    · unfold replaced Cache.flags Cache.name at h ⊢
      rw [hself]
      exact h
    · unfold replaced Cache.flags
      rw [hself]
      simp [Shape.freedContents]
  · unfold replaced Cache.flags Cache.name at h ⊢
    rw [crec_releaseRecord_of_ne s heq]
    exact h

/-- What is left of the entries that a scan for a name replaces: those from a record on that is not
in the pool and makes the scan fail. -/
theorem cacheScanFree_forward (hshape : Shape env s g) (hloose : g.loose = [])
    (text addr : List UInt8) (now : ℤ) {flags : Flags} (hforward : .forward ∈ flags) :
    ∃ g', Steps env Plain (s, g) ((cacheScanFree env s ⟨text, none⟩ addr now flags).1, g') ∧
      Swept env g g' ∧ ∀ record, g'.Holds record →
        replaced (cacheScanFree env s ⟨text, none⟩ addr now flags).1 flags text record = true →
        (cacheScanFree env s ⟨text, none⟩ addr now flags).2 = false ∧
        ∃ i front first back, g'.chain i = front ++ first :: back ∧ record ∈ first :: back ∧
          Meets ((cacheScanFree env s ⟨text, none⟩ addr now flags).1.flags first) localFlags ∧
          replaced (cacheScanFree env s ⟨text, none⟩ addr now flags).1 flags text first = true := by
  have hrule : WalkRule env Plain (scanForwardVerdict now flags) keepRecord (scanDrop env)
    fun t g' value kept ↦
      t.hashSize = s.hashSize ∧ Swept env g g' ∧ value = ⟨text, none⟩ ∧
        ∀ record ∈ kept, replaced t flags text record = false := by
    refine ⟨?_, ?_⟩
    · rintro t g' value kept crecp i _ ⟨hsize, hswept, rfl, hkept⟩ _ hverdict
      refine ⟨g', Steps.refl _, rfl, hsize, hswept, rfl, fun record hrecord ↦ ?_⟩
      rcases List.mem_append.mp hrecord with hold | hnew
      · exact hkept record hold
      · obtain rfl : record = crecp := List.mem_singleton.mp hnew
        unfold scanForwardVerdict at hverdict
        split_ifs at hverdict with _ hreplaced
        show replaced t flags text record = false
        simpa using hreplaced
    · rintro t g' value kept crecp i front back hshape' ⟨hsize, hswept, rfl, hkept⟩ hchain _
      obtain ⟨g'', hsteps, hswept', hchains⟩ :=
        sweep_release hshape' (hswept.loose.trans hloose) hchain
      refine ⟨g'', hsteps, hchains, (hashSize_releaseRecord _ _).trans hsize, hswept.trans hswept',
        ?_, ?_⟩
      · simp [scanDrop, ScanName.afterRelease]
      · exact fun record hrecord ↦ replaced_releaseRecord crecp (hkept record hrecord)
  obtain ⟨g', kept, done, todo, hend, hsteps, ⟨hsize, hswept, hvalue, hkept⟩, hchains,
    hdone, -, hstop⟩ :=
    walkBucket_spec hrule ⟨text, none⟩ [] hshape (hashBucket_lt env hshape.table text)
      ⟨rfl, Swept.refl g, rfl, by simp⟩
  have hresult : cacheScanFree env s ⟨text, none⟩ addr now flags =
      ((walkBucket (scanForwardVerdict now flags) keepRecord (scanDrop env)
        (hashBucket env s.hashSize text) s ⟨text, none⟩).1.1, decide (todo.head? = none)) := by
    unfold cacheScanFree
    rw [if_pos hforward, ← hend]
  generalize (walkBucket (scanForwardVerdict now flags) keepRecord (scanDrop env)
    (hashBucket env s.hashSize text) s
    ⟨text, none⟩).1 = walked at hsteps hsize hvalue hkept hstop hresult
  obtain ⟨t, value⟩ := walked
  rw [hresult]
  refine ⟨g', hsteps, hswept, fun record hrecord hreplaced ↦ ?_⟩
  -- the record is in the chain of the name
  have hshape' : Shape env t g' := hshape.steps hsteps
  obtain ⟨j, hj⟩ := hrecord
  have hequal : hostnameIsequal (t.name record) text = true := by
    exact (of_decide_eq_true hreplaced).2.2
  have hbucket := (hshape'.member j record hj).bucket
  rw [hashBucket_congr env t.hashSize hequal, hsize] at hbucket
  rw [hchains, ← hbucket, Function.update_self] at hj
  rcases List.mem_append.mp hj with hfront | hback
  · exact absurd hreplaced (by simp [hkept record (hdone record hfront)])
  · obtain ⟨first, rest, rfl⟩ : ∃ first rest, todo = first :: rest :=
      List.exists_cons_of_ne_nil (List.ne_nil_of_mem hback)
    have hfirst := hstop first rfl
    rw [hvalue] at hfirst
    unfold scanForwardVerdict at hfirst
    split_ifs at hfirst with _ hfirstReplaced hlocal
    refine ⟨by
      simp, hashBucket env s.hashSize text, done, first, rest, ?_, hback, hlocal, hfirstReplaced⟩
    rw [hchains, Function.update_self]

theorem Shape.crec_of_holds {s s' : Cache} (hshape : Shape env s g)
    (hsteps : Steps env Plain (s, g) (s', g')) (hmem : g'.Holds crecp) :
    s'.crec crecp = s.crec crecp := by
  by_cases hlt : crecp < env.cachesize
  · have hshape' : Shape env s' g' := hshape.steps hsteps
    obtain ⟨i, hi⟩ := hmem
    have hmember := hshape'.member i crecp hi
    exact ((hsteps.poolKept hshape (by simp [Plain])).used crecp hlt hmember.apart.1 hmember.used).2
  · exact hsteps.crec_outside hshape (by simp [Plain]) (Nat.le_of_not_lt hlt)

/-! ### Lookups -/

/-- The record whose `next` a lookup is about to set is not in the pool. -/
def Answers.Outside (env : Env) (g : Ghost) (answers : Answers) : Prop :=
  ∀ crecp, answers.chainp = some crecp → env.cachesize ≤ crecp ∧ crecp ∉ g.spare

variable {answers : Answers}

theorem Answers.Outside.of_frame (hframe : Frame env g g')
    (h : answers.Outside env g) : answers.Outside env g' := by
  intro crecp hcrecp
  rw [hframe.spare]
  exact h crecp hcrecp

theorem put_steps (s : Cache) (houtside : answers.Outside env g)
    (target : Option Addr) :
    Steps env Plain (s, g) ((answers.put s target).1, g) ∧
      (answers.put s target).2.chainp = answers.chainp ∧
      (answers.put s target).1.crec = s.crec ∧ (answers.put s target).1.hash = s.hash ∧
      (answers.put s target).1.hashSize = s.hashSize := by
  unfold Answers.put
  cases hchainp : answers.chainp with
  | none => exact ⟨Steps.refl _, rfl, rfl, rfl, rfl⟩
  | some crecp =>
    obtain ⟨hle, hspare⟩ := houtside crecp hchainp
    exact ⟨Steps.single Plain.plain (.setNext hle hspare target), hchainp, rfl, rfl, rfl⟩

theorem promote_steps
    (hshape : Shape env s g) (hloose : g.loose = []) (hmem : crecp ∈ g.chain i)
    (houtside : answers.Outside env g) :
    ∃ g', Steps env Plain (s, g) ((promote s answers crecp).1, g') ∧ Frame env g g' ∧
      g'.chain = g.chain ∧ (promote s answers crecp).2.Outside env g' ∧
      (promote s answers crecp).1.crec = s.crec ∧ (promote s answers crecp).1.hash = s.hash ∧
      (promote s answers crecp).1.hashSize = s.hashSize := by
  unfold promote
  split_ifs with hlocal
  · obtain ⟨hsteps, -, hcrec, hhash, hsize⟩ := put_steps s houtside (some crecp)
    refine ⟨g, hsteps, Frame.refl g, rfl, ?_, hcrec, hhash, hsize⟩
    intro record hrecord
    obtain rfl : crecp = record := Option.some.inj hrecord
    exact ⟨hshape.le_of_hashed hmem hlocal, (hshape.member i crecp hmem).apart.2.1⟩
  · have hlru := hshape.mem_lru_of_hashed hloose hmem hlocal
    obtain ⟨g', hsteps, hframe, hchain⟩ := steps_touch s hlru
    exact ⟨g', hsteps, hframe, hchain, houtside.of_frame hframe, rfl, rfl, rfl⟩

theorem cacheFindByAddr_sweeps (s : Cache) (crecp : Option Addr) (addr : List UInt8) (now : ℤ)
    (prot : Flags) : Sweeps env s (cacheFindByAddr s crecp addr now prot).1 := by
  intro g hshape hloose
  rcases crecp with _ | crecp
  · have hrule : WalkRule env Plain (findAddrVerdict now)
        (fun s answers crecp ↦
          if matchesAddr s addr prot crecp then promote s answers crecp else (s, answers))
        (fun s answers crecp ↦ (releaseRecord s crecp, answers))
        fun t g' answers _ ↦ t.hashSize = s.hashSize ∧ Swept env g g' ∧ answers.Outside env g' := by
      refine ⟨?_, ?_⟩
      · intro t g' answers kept crecp i hshape' hinv hmem _
        split_ifs
        · obtain ⟨g'', hsteps, hframe, hchain, houtside, -, -, hsize⟩ :=
            promote_steps hshape' (hinv.2.1.loose.trans hloose) hmem hinv.2.2
          exact ⟨g'', hsteps, hchain, hsize.trans hinv.1, hinv.2.1.trans (.of_chain hframe hchain),
            houtside⟩
        · exact ⟨g', Steps.refl _, rfl, hinv⟩
      · intro t g' answers kept crecp i front back hshape' hinv hchain _
        obtain ⟨g'', hsteps, hswept, hchains⟩ :=
          sweep_release hshape' (hinv.2.1.loose.trans hloose) hchain
        exact ⟨g'', hsteps, hchains, (hashSize_releaseRecord _ _).trans hinv.1,
          hinv.2.1.trans hswept, hinv.2.2.of_frame hswept.toFrame⟩
    obtain ⟨g', _, hsteps, hinv, -⟩ := walkTable_spec hrule
      (fun hbefore hafter ↦ hafter.1.trans hbefore.1.symm) ⟨none, none⟩ hshape
      ⟨rfl, Swept.refl g, fun _ h ↦ absurd h (by simp)⟩
    exact ⟨g', hsteps.trans (put_steps _ hinv.2.2 _).1, hinv.2.1⟩
  · exact ⟨g, Steps.refl _, Swept.refl g⟩

theorem cacheFindByAddr_tidies (s : Cache) (crecp : Option Addr) (addr : List UInt8) (now : ℤ)
    (prot : Flags) : Tidies env s (cacheFindByAddr s crecp addr now prot).1 :=
  (cacheFindByAddr_sweeps s crecp addr now prot).tidies

end CrossBreeder.Dnsmasq
